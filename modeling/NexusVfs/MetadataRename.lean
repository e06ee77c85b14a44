/-
Moving a metadata subtree: `state_machine/metadata_rename.rs`.

Every refusal is decided before anything is written. A target may coincide with another
source, which is why all sources are removed before the first target is inserted. The
codec of a row's prost message is a parameter; the fields the rename reads or replaces
are named, the others travel in `unread`.
-/
import NexusVfs.RecordGuard

namespace NexusVfs

open List Words Text Runs

/-! ## The metadata message -/

structure FileMetadata where
  path : String
  content_id : String
  modified_at : String
  entry_type : Int32
  unread : Bytes
  deriving DecidableEq, Repr

/-- `FileMetadata::decode` (its error rendered) and `encode_to_vec`, with the RFC 3339 parser that
reads `modified_at` as Unix seconds. -/
structure MetadataCodec where
  decode : Bytes → Except String FileMetadata
  encode : FileMetadata → Bytes
  parse_rfc3339 : String → Option UInt64

/-- Reads no image; enough for commands that never look inside one. -/
def MetadataCodec.unreadable : MetadataCodec where
  decode _ := .error "unreadable"
  encode _ := []
  parse_rfc3339 _ := none

def DT_REG : Int32 := 0
def DT_DIR : Int32 := 1
def DT_LINK : Int32 := 6

def decode_rename_entry (codec : MetadataCodec) (image : Bytes) (path : String) :
    Except String FileMetadata :=
  match codec.decode image with
  | .error error => .error s!"rename metadata decode({path}): {error}"
  | .ok metadata =>
    if metadata.entry_type ∈ [DT_REG, DT_DIR, DT_LINK] then .ok metadata
    else .error s!"rename metadata({path}) requires a file, directory or link entry"

/-- The backend-relative content path a rename selects; `None` keeps the identifier. -/
def renamed_pas_content_id (cid old_vfs new_vfs : String) : Option String :=
  if ("/" ++ cid).toList <:+ old_vfs.toList ∨ old_vfs = cid then
    let mount := String.ofList (old_vfs.toList.take (old_vfs.toList.length - cid.toList.length))
    strip_prefix new_vfs mount
  else none

/-! ## The rename -/

def rename_target_refusal (codec : MetadataCodec) (s : Store) (path : String) : Option String :=
  match s.metadata.get path with
  | none => none
  | some image =>
    match decode_rename_entry codec image path with
    | .error error => some error
    | .ok _ => none

def metadata_rename_rows (s : Store) (key slashed : String) : List (String × Bytes) :=
  (match s.metadata.get key with
    | some image => [(key, image)]
    | none => []) ++ s.metadata.scan fun k => k.startsWith slashed

/-- `format!("{}/", key.trim_end_matches('/'))` -/
def slashed (key : String) : String := trim_end_matches key '/' ++ "/"

def rename_target (old_key new_key source : String) : String :=
  if source = old_key then new_key
  else slashed new_key ++ String.ofList (source.toList.drop (slashed old_key).toList.length)

/-- One row's change, or the refusal it meets. -/
def rename_change (codec : MetadataCodec) (s : Store) (old_key new_key : String) (is_pas : Bool)
    (source : String) (image : Bytes) :
    Except RaftError (Except CommandResult (String × String × Bytes)) := do
  let target := rename_target old_key new_key source
  match ← ordinary_metadata_refusal s source with
  | some refusal => return .error refusal
  | none =>
    match ← ordinary_metadata_refusal s target with
    | some refusal => return .error refusal
    | none =>
      match decode_rename_entry codec image source with
      | .error error => return .error (.Error error)
      | .ok metadata =>
        match rename_target_refusal codec s target with
        | some refusal => return .error (.Error refusal)
        | none =>
          let content_id :=
            if is_pas then
              (renamed_pas_content_id metadata.content_id source target).getD metadata.content_id
            else metadata.content_id
          return .ok (source, target, codec.encode { metadata with path := target, content_id })

def rename_changes (codec : MetadataCodec) (s : Store) (old_key new_key : String) (is_pas : Bool) :
    List (String × Bytes) → Except RaftError (Except CommandResult (List (String × String × Bytes)))
  | [] => .ok (.ok [])
  | (source, image) :: rows => do
    match ← rename_change codec s old_key new_key is_pas source image with
    | .error refusal => return .error refusal
    | .ok change =>
      match ← rename_changes codec s old_key new_key is_pas rows with
      | .error refusal => return .error refusal
      | .ok changes => return .ok (change :: changes)

/-- Revisions of one moved row. The target of a tracked source gets one of its own, even if nothing
was there before. -/
def rename_revisions_step (s : Store) (source target : String) : Except RaftError Store := do
  let (tracked, s) ← refresh_tracked_version s source
  if tracked && is_managed_content_path target then
    let (_, s) ← allocate_revision s target none
    return s
  else
    let (_, s) ← refresh_tracked_version s target
    return s

def rename_revisions (s : Store) : List (String × String × Bytes) → Except RaftError Store
  | [] => .ok s
  | (source, target, _) :: changes => do
    let s ← rename_revisions_step s source target
    rename_revisions s changes

/-- Every source is removed before the first target is inserted. -/
def move_rows (metadata : Table String Bytes) (changes : List (String × String × Bytes)) :
    Table String Bytes :=
  (metadata.remove_all (changes.map fun c => c.1)).insert_all (changes.map fun c => (c.2.1, c.2.2))

def rename_metadata_in_txn (codec : MetadataCodec) (s : Store) (old_key new_key : String)
    (is_pas : Bool) : Except RaftError (CommandResult × Store) :=
  match first_invalid_path [old_key, new_key] with
  | some error => .ok (.Error error, s)
  | none =>
    if old_key = new_key then .ok (.Success, s)
    else if old_key = "/" ∨ new_key = "/" ∨ new_key.startsWith (slashed old_key) then
      .ok (.Error "invalid metadata rename destination", s)
    else
      let rows := metadata_rename_rows s old_key (slashed old_key)
      match rename_target_refusal codec s new_key with
      | some refusal => .ok (.Error refusal, s)
      | none => do
        match ← rename_changes codec s old_key new_key is_pas rows with
        | .error refusal => return (refusal, s)
        | .ok changes =>
          let s ← rename_revisions s changes
          return (.Success, { s with metadata := move_rows s.metadata changes })

/-! ## What a rename can do -/

variable {codec : MetadataCodec} {s : Store} {new_key old_key : String} {is_pas : Bool}

def moved_metadata (is_pas : Bool) (source target : String) (metadata : FileMetadata) : FileMetadata :=
  { metadata with
    path := target
    content_id :=
      if is_pas then
        (renamed_pas_content_id metadata.content_id source target).getD metadata.content_id
      else metadata.content_id }

theorem decode_rename_entry_ok {image : Bytes} {path : String} {metadata : FileMetadata}
    (h : decode_rename_entry codec image path = .ok metadata) : codec.decode image = .ok metadata := by
  unfold decode_rename_entry at h
  split at h
  · cases h
  · rename_i hdecode
    split_ifs at h
    cases h
    exact hdecode

theorem rename_change_ok {source : String} {image : Bytes}
    {out : Except CommandResult (String × String × Bytes)}
    (h : rename_change codec s old_key new_key is_pas source image = .ok out) :
    (∃ r, out = .error r ∧ r.refused = true) ∨ (∃ metadata, codec.decode image = .ok metadata ∧
      out = .ok (source, rename_target old_key new_key source,
        codec.encode (moved_metadata is_pas source (rename_target old_key new_key source) metadata)) ∧
      protected_in_txn s source = .ok false ∧
      protected_in_txn s (rename_target old_key new_key source) = .ok false) := by
  obtain ⟨ref₁, h1, h⟩ := bind_eq_ok.mp h
  cases ref₁ with
  | some r =>
    exact .inl ⟨r, (pure_eq_ok.mp h).symm, ordinary_metadata_refusal_some h1⟩
  | none =>
    obtain ⟨ref₂, h2, h⟩ := bind_eq_ok.mp h
    cases ref₂ with
    | some r => exact .inl ⟨r, (pure_eq_ok.mp h).symm, ordinary_metadata_refusal_some h2⟩
    | none =>
      cases hdec : decode_rename_entry codec image source with
      | error error =>
        rw [hdec] at h
        exact .inl ⟨_, (pure_eq_ok.mp h).symm, rfl⟩
      | ok metadata =>
        rw [hdec] at h
        cases htgt : rename_target_refusal codec s (rename_target old_key new_key source) with
        | some refusal =>
          rw [htgt] at h
          exact .inl ⟨_, (pure_eq_ok.mp h).symm, rfl⟩
        | none =>
          rw [htgt] at h
          exact .inr ⟨metadata, decode_rename_entry_ok hdec, (pure_eq_ok.mp h).symm,
            ordinary_metadata_refusal_none h1, ordinary_metadata_refusal_none h2⟩

/-- What holds of every change of a rename that goes through: it moves one of the rows to its
target, and neither end is protected. -/
def ChangeOf (s : Store) (old_key new_key : String) (rows : List (String × Bytes))
    (change : String × String × Bytes) : Prop :=
  change.1 ∈ rows.map Prod.fst ∧ change.2.1 = rename_target old_key new_key change.1 ∧
    protected_in_txn s change.1 = .ok false ∧ protected_in_txn s change.2.1 = .ok false

def Carries (codec : MetadataCodec) (is_pas : Bool) (rows : List (String × Bytes))
    (change : String × String × Bytes) : Prop :=
  ∃ image metadata, (change.1, image) ∈ rows ∧ codec.decode image = .ok metadata ∧
    change.2.2 = codec.encode (moved_metadata is_pas change.1 change.2.1 metadata)

theorem rename_changes_ok {rows : List (String × Bytes)}
    {out : Except CommandResult (List (String × String × Bytes))}
    (h : rename_changes codec s old_key new_key is_pas rows = .ok out) :
    (∃ r, out = .error r ∧ r.refused = true) ∨
    (∃ changes, out = .ok changes ∧ changes.map Prod.fst = rows.map Prod.fst ∧
      (∀ change ∈ changes, Carries codec is_pas rows change) ∧
      ∀ change ∈ changes, ChangeOf s old_key new_key rows change) := by
  induction rows generalizing out with
  | nil => exact .inr ⟨[], (Except.ok.inj h).symm, rfl, by simp, by simp⟩
  | cons row rows ih =>
    obtain ⟨source, image⟩ := row
    obtain ⟨out₁, h1, h⟩ := bind_eq_ok.mp h
    rcases rename_change_ok h1 with ⟨r, rfl, hr⟩ | ⟨metadata, hdecode, rfl, hsrc, htgt⟩
    · exact .inl ⟨r, (pure_eq_ok.mp h).symm, hr⟩
    · obtain ⟨out₂, h2, h⟩ := bind_eq_ok.mp h
      rcases ih h2 with ⟨r, rfl, hr⟩ | ⟨changes, rfl, hkeys, hcarries, hall⟩
      · exact .inl ⟨r, (pure_eq_ok.mp h).symm, hr⟩
      · refine .inr ⟨_, (pure_eq_ok.mp h).symm, by rw [map_cons, map_cons, hkeys], ?_, ?_⟩
        all_goals intro change hmem
        all_goals rcases mem_cons.mp hmem with rfl | hmem
        · exact ⟨image, metadata, mem_cons_self, hdecode, rfl⟩
        · obtain ⟨image', metadata', hrow, h⟩ := hcarries change hmem
          exact ⟨image', metadata', mem_cons_of_mem _ hrow, h⟩
        · exact ⟨mem_cons_self, rfl, hsrc, htgt⟩
        · obtain ⟨h1, h2⟩ := hall change hmem
          exact ⟨mem_cons_of_mem _ h1, h2⟩

variable {r : CommandResult} {s' : Store}

variable (h : rename_metadata_in_txn codec s old_key new_key is_pas = .ok (r, s'))
include h

theorem rename_metadata_cases :
    (s' = s ∧ (r.refused = true ∨ old_key = new_key)) ∨
    (r = .Success ∧ old_key ≠ new_key ∧ first_invalid_path [old_key, new_key] = none ∧
      ¬ new_key.startsWith (slashed old_key) = true ∧ ∃ changes s₁,
        rename_changes codec s old_key new_key is_pas
          (metadata_rename_rows s old_key (slashed old_key)) = .ok (.ok changes) ∧
        rename_revisions s changes = .ok s₁ ∧
        s' = { s₁ with metadata := move_rows s₁.metadata changes }) := by
  unfold rename_metadata_in_txn at h
  cases hpath : first_invalid_path [old_key, new_key] with
  | some error =>
    rw [hpath] at h
    obtain ⟨rfl, rfl⟩ := ok_pair_inj h
    exact .inl ⟨rfl, .inl rfl⟩
  | none =>
    rw [hpath] at h
    rcases ite_eq_iff.mp h with ⟨h1, h⟩ | ⟨h1, h⟩
    · obtain ⟨rfl, rfl⟩ := ok_pair_inj h
      exact .inl ⟨rfl, .inr h1⟩
    rcases ite_eq_iff.mp h with ⟨-, h⟩ | ⟨h2, h⟩
    · obtain ⟨rfl, rfl⟩ := ok_pair_inj h
      exact .inl ⟨rfl, .inl rfl⟩
    cases htgt : rename_target_refusal codec s new_key with
    | some refusal =>
      rw [htgt] at h
      obtain ⟨rfl, rfl⟩ := ok_pair_inj h
      exact .inl ⟨rfl, .inl rfl⟩
    | none =>
      rw [htgt] at h
      obtain ⟨out, hout, h⟩ := bind_eq_ok.mp h
      rcases rename_changes_ok hout with ⟨r₁, rfl, hr⟩ | ⟨changes, rfl, -⟩
      · obtain ⟨rfl, rfl⟩ := ok_pair_inj h
        exact .inl ⟨rfl, .inl hr⟩
      · obtain ⟨s₁, hs₁, h⟩ := bind_eq_ok.mp h
        obtain ⟨rfl, rfl⟩ := ok_pair_inj h
        exact .inr ⟨rfl, h1, rfl, fun hbelow => h2 (.inr (.inr hbelow)), changes, s₁, hout, hs₁, rfl⟩

theorem rename_metadata_ok :
    (s' = s ∧ (r.refused = true ∨ old_key = new_key)) ∨
    (r = .Success ∧ old_key ≠ new_key ∧ first_invalid_path [old_key, new_key] = none ∧ ∃ changes s₁,
        (∀ change ∈ changes, ChangeOf s old_key new_key
          (metadata_rename_rows s old_key (slashed old_key)) change) ∧
        changes.map Prod.fst = (metadata_rename_rows s old_key (slashed old_key)).map Prod.fst ∧
        (∀ change ∈ changes, Carries codec is_pas
          (metadata_rename_rows s old_key (slashed old_key)) change) ∧
        rename_revisions s changes = .ok s₁ ∧
        s' = { s₁ with metadata := move_rows s₁.metadata changes }) := by
  rcases rename_metadata_cases h with hsame | ⟨hr, hne, hvalid, -, changes, s₁, hout, hrest⟩
  · exact .inl hsame
  · rcases rename_changes_ok hout with ⟨r₁, heq, -⟩ | ⟨_, heq, hkeys, hcarries, hall⟩
    · cases heq
    · cases heq
      exact .inr ⟨hr, hne, hvalid, changes, s₁, hall, hkeys, hcarries, hrest⟩

omit h

end NexusVfs
