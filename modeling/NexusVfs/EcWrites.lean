/-
The eventually consistent plane of the state machine: `raft/state_machine.rs`.

The writing node applies an EC write at once (`apply_local`); a peer resolves conflicts
by last writer wins (`apply_ec_with_lww`). Keys under strong consistency refuse EC
writes. A peer that fell behind the compacted log is sent the current rows instead
(`ec_state_snapshot`).
-/
import NexusVfs.StateMachine

namespace NexusVfs

open Words Text Runs Table

/-! ## Which commands the plane refuses -/

def Command.requires_conditional_sc (c : Command) : Bool :=
  if c.requires_fixed_local_storage then true
  else
    match c.ordinary_metadata_key with
    | some key => is_managed_content_path key
    | none =>
      match c with
      | .PutControlState namespace_ _ _ _ | .DeleteControlState namespace_ _ =>
        namespace_ == NAMESPACE
      | _ => false

def ordinary_write_is_protected (s : Store) (c : Command) : Except RaftError Bool :=
  match c.ordinary_metadata_key with
  | some path => protected_in_txn s path
  | none => .ok false

def requires_strong_consistency (s : Store) (c : Command) : Except RaftError Bool :=
  if c.requires_conditional_sc then .ok true else ordinary_write_is_protected s c

/-! ## The writing node -/

/-- The arms of `execute` that `apply_local` lets through. No revision is refreshed here. -/
def execute (s : Store) : Command → Except RaftError (CommandResult × Store)
  | .SetMetadata key value => .ok (.Success, s.put_metadata key value)
  | .CasSetMetadata key value expected_version => do
    let current ← current_version s key
    if current ≠ expected_version then return (.CasResult false current, s)
    else return (.CasResult true (expected_version + 1), s.put_metadata key value)
  | .DeleteMetadata key => .ok (.Success, { s with metadata := s.metadata.remove key })
  | .PutControlState namespace_ key value if_absent =>
    if if_absent ∧ (s.control_state.get (control_key namespace_ key)).isSome then
      .ok (.Error s!"control state {namespace_}/{key} already exists", s)
    else
      .ok (.Success,
        { s with control_state := s.control_state.insert (control_key namespace_ key) value })
  | .DeleteControlState namespace_ key =>
    .ok (.Success, { s with control_state := s.control_state.remove (control_key namespace_ key) })
  | _ =>
    .error (.InvalidState "Only metadata operations (set/delete) support EC local writes")

def apply_local (m : FullStateMachine) (c : Command) :
    Except RaftError (CommandResult × FullStateMachine) := do
  if ← requires_strong_consistency m.store c then
    .error (.InvalidState "EC write to SC-managed content is unsupported")
  else
    let (result, store) ← execute m.store c
    return (result, { m with store })

/-! ### What an accepted write changes -/

/-- The metadata row that an accepted EC write changed. A comparison that failed changed none. -/
def ec_row (c : Command) (r : CommandResult) : Option String :=
  match c, r with
  | .SetMetadata key _, _ | .DeleteMetadata key, _ | .CasSetMetadata key _ _, .CasResult true _ =>
    some key
  | _, _ => none

def ec_control_row (c : Command) (r : CommandResult) : Option String :=
  match c, r with
  | .PutControlState namespace_ key _ _, .Success | .DeleteControlState namespace_ key, _ =>
    some (control_key namespace_ key)
  | _, _ => none

structure EcEffect (c : Command) (r : CommandResult) (s s' : Store) : Prop where
  metadata : ∀ key, ec_row c r ≠ some key → s'.metadata.get key = s.metadata.get key
  stream_entries : s'.stream_entries = s.stream_entries
  control_state : ∀ key, ec_control_row c r ≠ some key →
    s'.control_state.get key = s.control_state.get key

variable {c : Command} {r : CommandResult} {s s' : Store}

theorem EcEffect.eq (h : EcEffect c r s s') (hrow : ec_row c r = none)
    (hcontrol : ec_control_row c r = none) : s' = s := by
  refine Store.ext_get (fun key => ?_) (fun key => ?_) fun key => ?_
  · exact h.metadata key (by simp [hrow])
  · rw [h.stream_entries]
  · exact h.control_state key (by simp [hcontrol])

theorem execute_effect (h : execute s c = .ok (r, s')) : EcEffect c r s s' := by
  cases c with
  | SetMetadata key value =>
    cases h
    refine ⟨fun k hk => get_insert_of_ne _ _ ?_, rfl, fun _ _ => rfl⟩
    rintro rfl
    exact hk rfl
  | CasSetMetadata key value expected_version =>
    obtain ⟨current, -, h⟩ := bind_eq_ok.mp h
    split_ifs at h
    · cases h
      exact ⟨fun _ _ => rfl, rfl, fun _ _ => rfl⟩
    · cases h
      refine ⟨fun k hk => get_insert_of_ne _ _ ?_, rfl, fun _ _ => rfl⟩
      rintro rfl
      exact hk rfl
  | DeleteMetadata key =>
    cases h
    refine ⟨fun k hk => get_remove_of_ne _ ?_, rfl, fun _ _ => rfl⟩
    rintro rfl
    exact hk rfl
  | PutControlState namespace_ key value if_absent =>
    unfold execute at h
    dsimp only at h
    split_ifs at h
    · cases h
      exact ⟨fun _ _ => rfl, rfl, fun _ _ => rfl⟩
    · cases h
      refine ⟨fun _ _ => rfl, rfl, fun k hk => get_insert_of_ne _ _ ?_⟩
      rintro rfl
      exact hk rfl
  | DeleteControlState namespace_ key =>
    cases h
    refine ⟨fun _ _ => rfl, rfl, fun k hk => get_remove_of_ne _ ?_⟩
    rintro rfl
    exact hk rfl
  | _ => cases h

theorem apply_local_effect {m m' : FullStateMachine} (h : apply_local m c = .ok (r, m')) :
    EcEffect c r m.store m'.store ∧ m' = { m with store := m'.store } := by
  obtain ⟨sc, -, h⟩ := bind_eq_ok.mp h
  cases sc with
  | true => cases h
  | false =>
    obtain ⟨⟨r₁, store⟩, hexec, h⟩ := bind_eq_ok.mp h
    obtain ⟨rfl, rfl⟩ := ok_pair_inj h
    exact ⟨execute_effect hexec, rfl⟩

theorem ordinary_key_of_ec_row {key : String} (h : ec_row c r = some key) :
    c.ordinary_metadata_key = some key := by
  unfold ec_row at h
  split at h
  · exact h
  · exact h
  · exact h
  · cases h

/-! ## The receiving node -/

/-- The clock a `SetMetadata` is compared by; bytes that do not decode count as `""`. -/
def decode_modified_at (codec : MetadataCodec) (bytes : Bytes) : String :=
  match codec.decode bytes with
  | .ok metadata => metadata.modified_at
  | .error _ => ""

/-- The clock a `DeleteMetadata` is compared by; what does not decode or parse counts as 0. -/
def decode_modified_at_unix (codec : MetadataCodec) (bytes : Bytes) : UInt64 :=
  match codec.decode bytes with
  | .ok metadata => (codec.parse_rfc3339 metadata.modified_at).getD 0
  | .error _ => 0

/-- `apply_ec_with_lww` on the metadata row, once the command is known to be an EC write. -/
def lww_write (codec : MetadataCodec) (s : Store) (entry_timestamp : UInt64) :
    Command → Except RaftError Store
  | .SetMetadata key value =>
    match s.metadata.get key with
    | some existing =>
      if decode_modified_at codec value < decode_modified_at codec existing then .ok s
      else .ok (s.put_metadata key value)
    | none => .ok (s.put_metadata key value)
  | .DeleteMetadata key =>
    match s.metadata.get key with
    | some existing =>
      if entry_timestamp < decode_modified_at_unix codec existing then .ok s
      else .ok { s with metadata := s.metadata.remove key }
    | none => .ok { s with metadata := s.metadata.remove key }
  | _ => .error (.InvalidState "Only metadata operations support EC writes")

/-- Every entry that does not fail is acknowledged, the skipped ones too. -/
def apply_ec_with_lww (codec : MetadataCodec) (m : FullStateMachine) (c : Command)
    (entry_timestamp : UInt64) : Except RaftError (CommandResult × FullStateMachine) := do
  if ← requires_strong_consistency m.store c then return (.Success, m)
  else
    let store ← lww_write codec m.store entry_timestamp c
    return (.Success, { m with store })

section Lww

variable {codec : MetadataCodec} {timestamp : UInt64} {key : String} {value : Bytes}

theorem lww_write_set : lww_write codec s timestamp (.SetMetadata key value) =
    .ok (if (s.metadata.get key).all fun existing =>
        !decide (decode_modified_at codec value < decode_modified_at codec existing) then
      s.put_metadata key value else s) := by
  unfold lww_write
  dsimp only
  cases s.metadata.get key with
  | none => rfl
  | some existing =>
    by_cases hlt : decode_modified_at codec value < decode_modified_at codec existing
    · simp only [Option.all_some, if_pos hlt, decide_eq_true hlt, Bool.not_true, Bool.false_eq_true,
        if_false]
    · simp only [Option.all_some, if_neg hlt, decide_eq_false hlt, Bool.not_false, if_true]

theorem lww_write_delete : lww_write codec s timestamp (.DeleteMetadata key) =
    .ok (if (s.metadata.get key).all fun existing =>
        !decide (timestamp < decode_modified_at_unix codec existing) then
      { s with metadata := s.metadata.remove key } else s) := by
  unfold lww_write
  dsimp only
  cases s.metadata.get key with
  | none => rfl
  | some existing => by_cases hlt : timestamp < decode_modified_at_unix codec existing <;> simp [hlt]

theorem lww_write_cases (h : lww_write codec s timestamp c = .ok s') :
    (∃ key value, c = .SetMetadata key value ∧
      (s' = s ∨ s' = s.put_metadata key value ∧ ∀ existing, s.metadata.get key = some existing →
        ¬ decode_modified_at codec value < decode_modified_at codec existing)) ∨
    ∃ key, c = .DeleteMetadata key ∧ (s' = s ∨ s' = { s with metadata := s.metadata.remove key }) := by
  cases c with
  | SetMetadata key value =>
    refine .inl ⟨key, value, rfl, ?_⟩
    rw [lww_write_set] at h
    cases h
    split_ifs with hlater
    · exact .inr ⟨rfl, fun existing hget => by simpa [hget] using hlater⟩
    · exact .inl rfl
  | DeleteMetadata key =>
    refine .inr ⟨key, rfl, ?_⟩
    rw [lww_write_delete] at h
    cases h
    split_ifs
    · exact .inr rfl
    · exact .inl rfl
  | _ => cases h

end Lww

/-! ## The anti-entropy image -/

def list_metadata (s : Store) : List (String × Bytes) :=
  s.metadata.scan fun k => !is_internal_key k

def ec_state_snapshot (m : FullStateMachine) : Except RaftError (List Command) := do
  let protected_ ← protected_metadata_paths m.store
  return ((list_metadata m.store).filter fun row =>
    !is_managed_content_path row.1 && !protected_.contains row.1).map fun row =>
      .SetMetadata row.1 row.2

end NexusVfs
