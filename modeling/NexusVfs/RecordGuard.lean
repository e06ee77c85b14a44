/-
Record owners: `state_machine/record_guard.rs` and `record_guard/io.rs`.

A record (a metadata row, or the WAL stream at a path) bound to an owner changes only
through a `GuardedRecord` command that carries the owner's current revision.
`record_guard_refusal` is the fence every command passes.
-/
import NexusVfs.ProtectedMetadata

namespace NexusVfs

open Option Words Text Runs

/-! ## Which record a command mutates -/

/-- The path a stream prefix stands for, if the prefix is delimited. -/
def delimited_stream_path (stream : String) : Option String :=
  if ends_with stream '/' then watch_path_from_wal_stream_key stream else none

def GuardedRecordMutation.key : GuardedRecordMutation → Option String
  | .ReplaceMetadata key .. => some key
  | .Append stream .. | .Seal stream .. | .Trim stream .. =>
    delimited_stream_path stream

namespace Command

def record_stream_prefix : Command → Option String
  | AppendStreamEntry stream .. | SealStreamSegment stream ..
  | TrimStreamSegment stream .. => some stream
  | _ => none

/-- Ordinary record mutations that require a bound owner handle. -/
def guarded_record_key (c : Command) : Option String :=
  match c with
  | WriteVersionedMetadata key .. => some key
  | _ => ( record_stream_prefix c).bind delimited_stream_path

end Command

/-! ## Guard rows -/

def record_control_in_txn (s : Store) (row : String → ControlRow) (path : String) : Option Bytes :=
  s.control (row path)

/-- The owner is protected, not retired, present, and at exactly the expected revision. -/
def live_record_guard_in_txn (s : Store) (guard_key : String) (expected : Bytes) :
    Except RaftError Bool := do
  let is_protected ← protected_in_txn s guard_key
  return is_protected && (record_control_in_txn s .retired guard_key).isNone &&
    (metadata_in_txn s guard_key).isSome && revision_in_txn s guard_key == some expected

/-! ## The fence -/

def guarded_record_refusal (s : Store) (guard_version : Bytes) (mutation : GuardedRecordMutation) :
    Except RaftError (Option CommandResult) :=
  match mutation.key with
  | none => .ok (some (.Error "unsupported guarded record mutation"))
  | some key =>
    match record_control_in_txn s .binding key with
    | none => .ok (some (.Error "record has no admitted owner"))
    | some binding =>
      match from_utf8 binding with
      | none => .error (storage_error "invalid utf-8")
      | some guard_key => do
        let live ← live_record_guard_in_txn s guard_key guard_version
        return if live then none else some (.Error "record owner handle is not live")

def plain_record_refusal (s : Store) (c : Command) : Option CommandResult :=
  -- A missing delimiter can alias a parent's real entry: prefix `<parent>1` at seq 0 is seq 10.
  if (match Command.record_stream_prefix c with
      | some stream =>
        stream.startsWith WAL_STREAM_KEY_PREFIX && !ends_with stream '/'
      | none => false) then some (.Error "invalid WAL stream prefix")
  else
    match c.guarded_record_key with
    | none => none
    | some key =>
      if (record_control_in_txn s .retired key).isSome then
        some (.Error "record owner is permanently retired")
      else if (record_control_in_txn s .binding key).isSome then
        some (.Error "record mutation requires its owner handle")
      else none

def record_guard_refusal (s : Store) (c : Command) : Except RaftError (Option CommandResult) :=
  match c with
  | .GuardedRecord guard_version mutation => guarded_record_refusal s guard_version mutation
  | _ => .ok (plain_record_refusal s c)

/-! ## Binding, retirement and I/O enrolment -/

/-- The first error `validate_path_fast` reports on the paths, in order. -/
def first_invalid_path (paths : List String) : Option String := paths.findSome? validate_path_fast

def bind_record_guard_in_txn (s : Store) (key : String) (expected_image : Option Bytes)
    (guard_key : String) (guard_version : Bytes) (incarnation : Incarnation) :
    Except RaftError (CommandResult × Store) :=
  match first_invalid_path [key, guard_key] with
  | some error => .ok (.Error error, s)
  | none =>
    if key = guard_key ∨ (record_control_in_txn s .binding guard_key).isSome then
      .ok (.Error "record owner handle is not live", s)
    else do
      let live ← live_record_guard_in_txn s guard_key guard_version
      if ¬ live then return (.Error "record owner handle is not live", s)
      else if is_record_owner_in_txn s key || (record_control_in_txn s .retired key).isSome then
        return (.Error "record owner cannot become a guarded record", s)
      else
        match record_control_in_txn s .binding key with
        | some binding =>
          return (if binding = as_bytes guard_key then .Success
            else .Error "record already belongs to a different owner", s)
        | none =>
          if metadata_in_txn s key ≠ expected_image then
            return (.Error "record changed before owner admission", s)
          else
            -- The adoption's own answer is dropped: a path that is protected already stays as it is.
            let (_, s) ← adopt_protected_in_txn s key expected_image incarnation
            let s ← require_record_format_in_txn (mark_record_owner_in_txn s guard_key) true
            return (.Success, s.put_control (.binding key) (as_bytes guard_key))

def retire_record_guard_in_txn (s : Store) (key : String) (expected terminal_image : Bytes)
    (incarnation : Incarnation) : Except RaftError (CommandResult × Store) :=
  if (record_control_in_txn s .binding key).isSome then
    .ok (.Error "record owner handle is not live", s)
  else do
    let live ← live_record_guard_in_txn s key expected
    if ¬ live then return (.Error "record owner handle is not live", s)
    else
      let (result, s) ← write_versioned_in_txn s key terminal_image (some expected) incarnation
      let s ← require_record_format_in_txn (mark_record_owner_in_txn s key) true
      match result with
      | .ConditionalMetadata true current =>
        match current.version with
        | none => throw (storage_error "retired owner has no revision")
        | some version => return (result, s.put_control (.retired key) version)
      | _ => throw (storage_error "qualified retirement did not commit")

def admit_record_io_in_txn (s : Store) (owner : String) (expected : Bytes) :
    Except RaftError (CommandResult × Store) :=
  match validate_path_fast owner with
  | some error => .ok (.Error error, s)
  | none =>
    if (record_control_in_txn s .binding owner).isSome then
      .ok (.Error "record owner handle is not live", s)
    else do
      let live ← live_record_guard_in_txn s owner expected
      if ¬ live then return (.Error "record owner handle is not live", s)
      else
        let s ← mark_record_io_owner_in_txn s owner
        return (.Success, s)

/-! ## What these functions can do -/

/-- A live handle: the owner is protected, not retired, present, and at the revision shown. -/
structure LiveGuard (s : Store) (guard_key : String) (version : Bytes) : Prop where
  is_protected : protected_in_txn s guard_key = .ok true
  not_retired : s.control (.retired guard_key) = none
  present : (metadata_in_txn s guard_key).isSome
  current : revision_in_txn s guard_key = some version

variable {s s' : Store} {r : CommandResult}

variable {guard_key key : String} {guard_version expected : Bytes} {incarnation : Incarnation}

theorem live_record_guard_ok {version : Bytes}
    (h : live_record_guard_in_txn s guard_key version = .ok true) :
    LiveGuard s guard_key version := by
  obtain ⟨prot, hprot, h⟩ := bind_eq_ok.mp h
  have hall := pure_eq_ok.mp h
  simp only [Bool.and_eq_true, isNone_iff_eq_none, beq_iff_eq] at hall
  obtain ⟨⟨⟨rfl, hret⟩, hpres⟩, hcur⟩ := hall
  exact ⟨hprot, hret, hpres, hcur⟩

theorem guarded_record_passes {mutation : GuardedRecordMutation}
    (h : guarded_record_refusal s guard_version mutation = .ok none) :
    ∃ key binding guard_key, mutation.key = some key ∧ s.control (.binding key) = some binding ∧
      from_utf8 binding = some guard_key ∧ LiveGuard s guard_key guard_version := by
  unfold guarded_record_refusal at h
  cases hkey : mutation.key with
  | none => rw [hkey] at h; cases h
  | some key =>
    rw [hkey] at h
    dsimp only at h
    cases hb : record_control_in_txn s .binding key with
    | none => rw [hb] at h; cases h
    | some binding =>
      rw [hb] at h
      dsimp only at h
      cases hg : from_utf8 binding with
      | none => rw [hg] at h; cases h
      | some guard_key =>
        rw [hg] at h
        obtain ⟨live, hlive, h⟩ := bind_eq_ok.mp h
        have hif := pure_eq_ok.mp h
        split_ifs at hif with hl
        subst hl
        exact ⟨key, binding, guard_key, rfl, hb, hg, live_record_guard_ok hlive⟩

theorem plain_record_passes {c : Command} (h : plain_record_refusal s c = none)
    (hkey : c.guarded_record_key = some key) :
    s.control (.retired key) = none ∧ s.control (.binding key) = none := by
  unfold plain_record_refusal at h
  split_ifs at h
  rw [hkey] at h
  dsimp only at h
  split_ifs at h with h1 h2
  exact ⟨not_isSome_iff_eq_none.mp h1, not_isSome_iff_eq_none.mp h2⟩

theorem bind_record_guard_ok {expected_image : Option Bytes}
    (h : bind_record_guard_in_txn s key expected_image guard_key guard_version incarnation =
      .ok (r, s')) :
    (s' = s) ∨ (r = .Success ∧ first_invalid_path [key, guard_key] = none ∧ key ≠ guard_key ∧
      s.control (.binding guard_key) = none ∧ LiveGuard s guard_key guard_version ∧
      is_record_owner_in_txn s key = false ∧ s.control (.retired key) = none ∧
      s.control (.binding key) = none ∧ metadata_in_txn s key = expected_image ∧
      ∃ r₁ s₁ v, adopt_protected_in_txn s key expected_image incarnation = .ok (r₁, s₁) ∧
        s' = ((mark_record_owner_in_txn s₁ guard_key).put_control .requirement v).put_control
          (.binding key) (as_bytes guard_key)) := by
  -- the checks in the order of the source; each that fails answers without a write
  unfold bind_record_guard_in_txn at h
  cases hpath : first_invalid_path [key, guard_key] with
  | some error =>
    rw [hpath] at h
    obtain ⟨-, rfl⟩ := ok_pair_inj h
    exact .inl rfl
  | none =>
    rw [hpath] at h
    rcases ite_eq_iff.mp h with ⟨-, h⟩ | ⟨h1, h⟩
    · obtain ⟨-, rfl⟩ := ok_pair_inj h
      exact .inl rfl
    obtain ⟨hne, hgb⟩ := not_or.mp h1
    obtain ⟨live, hlive, h⟩ := bind_eq_ok.mp h
    rcases ite_eq_iff.mp h with ⟨-, h⟩ | ⟨h2, h⟩
    · obtain ⟨-, rfl⟩ := ok_pair_inj h
      exact .inl rfl
    rw [not_not.mp h2] at hlive
    rcases ite_eq_iff.mp h with ⟨-, h⟩ | ⟨h3, h⟩
    · obtain ⟨-, rfl⟩ := ok_pair_inj h
      exact .inl rfl
    rw [Bool.not_eq_true, Bool.or_eq_false_iff] at h3
    cases hb : record_control_in_txn s .binding key with
    | some binding =>
      rw [hb] at h
      obtain ⟨-, rfl⟩ := ok_pair_inj h
      exact .inl rfl
    | none =>
      rw [hb] at h
      rcases ite_eq_iff.mp h with ⟨-, h⟩ | ⟨h4, h⟩
      · obtain ⟨-, rfl⟩ := ok_pair_inj h
        exact .inl rfl
      obtain ⟨⟨r₁, s₁⟩, hadopt, h⟩ := bind_eq_ok.mp h
      obtain ⟨s₂, hs₂, h⟩ := bind_eq_ok.mp h
      obtain ⟨rfl, rfl⟩ := ok_pair_inj h
      obtain ⟨v, rfl⟩ := require_record_format_ok hs₂
      exact .inr ⟨rfl, rfl, hne, not_isSome_iff_eq_none.mp hgb,
        live_record_guard_ok hlive, h3.1, 
        isNone_iff_eq_none.mp (isSome_eq_false_iff.mp h3.2), hb, not_not.mp h4, r₁, s₁, v, hadopt, rfl⟩

theorem retire_record_guard_ok {terminal_image : Bytes}
    (h : retire_record_guard_in_txn s key expected terminal_image incarnation = .ok (r, s')) :
    (r.refused = true ∧ s' = s) ∨
    (s.control (.binding key) = none ∧ LiveGuard s key expected ∧ ∃ token v,
      Fresh s (some incarnation) token ∧
      r = .ConditionalMetadata true ⟨some terminal_image, some token⟩ ∧
      s' = ((mark_record_owner_in_txn ((advance s key token).put_metadata key terminal_image)
        key).put_control .requirement v).put_control (.retired key) token) := by
  unfold retire_record_guard_in_txn at h
  rcases ite_eq_iff.mp h with ⟨-, h⟩ | ⟨h1, h⟩
  · obtain ⟨rfl, rfl⟩ := ok_pair_inj h
    exact .inl ⟨rfl, rfl⟩
  obtain ⟨live, hlive, h⟩ := bind_eq_ok.mp h
  rcases ite_eq_iff.mp h with ⟨-, h⟩ | ⟨h2, h⟩
  · obtain ⟨rfl, rfl⟩ := ok_pair_inj h
    exact .inl ⟨rfl, rfl⟩
  rw [not_not.mp h2] at hlive
  obtain ⟨⟨result, s₁⟩, hwrite, h⟩ := bind_eq_ok.mp h
  obtain ⟨s₂, hs₂, h⟩ := bind_eq_ok.mp h
  obtain ⟨v, rfl⟩ := require_record_format_ok hs₂
  rcases write_versioned_ok hwrite with ⟨href, rfl⟩ | ⟨-, image, token, -, -, hfresh, rfl, rfl⟩
  · -- A live handle names the current revision, so the inner write cannot refuse; if it
    -- did, the retirement would be an error and not an answer.
    cases result with
    | ConditionalMetadata committed current =>
      cases committed with
      | false => cases h
      | true => cases href
    | Success | Value _ | LockResult _ | CasResult _ _ | Error _
    | ConditionalMetadataUnsupported | ProtectedMetadata _ => cases h
  · obtain ⟨rfl, rfl⟩ := ok_pair_inj h
    exact .inr ⟨not_isSome_iff_eq_none.mp h1, live_record_guard_ok hlive, token, v, hfresh,
      rfl, rfl⟩

theorem admit_record_io_ok {owner : String}
    (h : admit_record_io_in_txn s owner expected = .ok (r, s')) :
    (r.refused = true ∧ s' = s) ∨
    (r = .Success ∧ s.control (.binding owner) = none ∧ LiveGuard s owner expected ∧
      ∃ v, s' = ((s.put_control .requirement v).put_control (.policy owner)
        RECORD_IO_OWNER).put_control .requirement RECORD_IO) := by
  unfold admit_record_io_in_txn at h
  cases hpath : validate_path_fast owner with
  | some error =>
    rw [hpath] at h
    obtain ⟨rfl, rfl⟩ := ok_pair_inj h
    exact .inl ⟨rfl, rfl⟩
  | none =>
    rw [hpath] at h
    rcases ite_eq_iff.mp h with ⟨-, h⟩ | ⟨h1, h⟩
    · obtain ⟨rfl, rfl⟩ := ok_pair_inj h
      exact .inl ⟨rfl, rfl⟩
    obtain ⟨live, hlive, h⟩ := bind_eq_ok.mp h
    rcases ite_eq_iff.mp h with ⟨-, h⟩ | ⟨h2, h⟩
    · obtain ⟨rfl, rfl⟩ := ok_pair_inj h
      exact .inl ⟨rfl, rfl⟩
    rw [not_not.mp h2] at hlive
    obtain ⟨s₁, hs₁, h⟩ := bind_eq_ok.mp h
    obtain ⟨rfl, rfl⟩ := ok_pair_inj h
    obtain ⟨s₂, h2, hs₁⟩ := bind_eq_ok.mp hs₁
    obtain ⟨v, rfl⟩ := require_record_format_ok h2
    exact .inr ⟨rfl, not_isSome_iff_eq_none.mp h1, live_record_guard_ok hlive, v,
      (pure_eq_ok.mp hs₁).symm⟩

end NexusVfs
