/-
Content revisions: `state_machine/conditional_metadata.rs`.

Everything that fences a metadata row is a row of the control tree under one reserved
namespace. `ControlRow` names these rows and `control_row` gives their keys, which never
coincide (`control_row_inj`). A revision token is sixteen bytes of incarnation followed
by a counter.
-/
import NexusVfs.Streams
import NexusVfs.Runs

namespace NexusVfs

open String Words Text Runs

/-! ## Control rows -/

/-- Composite key of the control tree. -/
def control_key (namespace_ key : String) : String := namespace_ ++ "\x00" ++ key

def NAMESPACE : String := "content-version-v1"
def ALLOCATOR : String := "allocator"
def PATH_PREFIX : String := "path:"
def POLICY_PREFIX : String := "protected:"
def REQUIREMENT : String := "requires:protected-records-v1"
def BINDING_PREFIX : String := "guard:"
def RETIRED_PREFIX : String := "retired-guard:"
def TOKEN_LEN : ℕ := 24

def allocator_key : String := control_key NAMESPACE ALLOCATOR

def revision_key (path : String) : String := control_key NAMESPACE (PATH_PREFIX ++ path)

def policy_key (path : String) : String := control_key NAMESPACE (POLICY_PREFIX ++ path)

def requirement_key : String := control_key NAMESPACE REQUIREMENT

/-- `control_key(NAMESPACE, &format!("{prefix}{path}"))` of the record guards. -/
def record_control_key (kind path : String) : String := control_key NAMESPACE (kind ++ path)

inductive ControlRow where
  | allocator
  | revision (path : String)
  | policy (path : String)
  | requirement
  | binding (path : String)
  | retired (path : String)
  deriving DecidableEq, Repr

def control_row : ControlRow → String
  | .allocator => allocator_key
  | .revision path => revision_key path
  | .policy path => policy_key path
  | .requirement => requirement_key
  | .binding path => record_control_key BINDING_PREFIX path
  | .retired path => record_control_key RETIRED_PREFIX path

namespace ControlRow

/-- The part of the name up to its `:`, and what follows; the allocator's name has no `:`. -/
def label : ControlRow → String
  | allocator => "allocator"
  | revision _ => "path"
  | policy _ => "protected"
  | requirement => "requires"
  | binding _ => "guard"
  | retired _ => "retired-guard"

def subject : ControlRow → Option String
  | allocator => none
  | requirement => some "protected-records-v1"
  | revision path | policy path | binding path | retired path => some path

def name (c : ControlRow) : String :=
  match c.subject with
  | none => c.label
  | some path => c.label ++ (":" ++ path)

theorem colon_notMem_label (c : ControlRow) : ':' ∉ c.label.toList := by
  cases c <;> (simp only [label]; decide)

variable {c d : ControlRow}

theorem eq_of_label_of_subject (hl : c.label = d.label) (hs : c.subject = d.subject) : c = d := by
  cases c <;> cases d <;> first
    | rfl
    | exact absurd hl (by simp only [label]; decide)
    | (simp only [subject, Option.some.injEq] at hs; rw [hs])

theorem name_inj (h : c.name = d.name) : c = d := by
  have hl := congrArg toList h
  unfold name at hl
  cases hc : c.subject with
  | none =>
    cases hd : d.subject with
    | none =>
      rw [hc, hd] at hl
      exact eq_of_label_of_subject (toList_inj.mp hl) (hc.trans hd.symm)
    | some q =>
      rw [hc, hd] at hl
      refine absurd ?_ c.colon_notMem_label
      rw [hl]
      simp
  | some p =>
    cases hd : d.subject with
    | none =>
      rw [hc, hd] at hl
      refine absurd ?_ d.colon_notMem_label
      rw [← hl]
      simp
    | some q =>
      rw [hc, hd] at hl
      simp only [toList_append] at hl
      obtain ⟨h1, h2⟩ := first_delimiter_inj c.colon_notMem_label d.colon_notMem_label hl
      refine eq_of_label_of_subject (toList_inj.mp h1) ?_
      rw [hc, hd, toList_inj.mp h2]

end ControlRow

theorem control_row_eq (c : ControlRow) : control_row c = control_key NAMESPACE c.name := by
  have hassoc (label path : String) : label ++ ":" ++ path = label ++ (":" ++ path) :=
    append_assoc
  cases c with
  | allocator => rfl
  | requirement => rfl
  | revision path => exact congrArg (control_key NAMESPACE) (hassoc "path" path)
  | policy path => exact congrArg (control_key NAMESPACE) (hassoc "protected" path)
  | binding path => exact congrArg (control_key NAMESPACE) (hassoc "guard" path)
  | retired path => exact congrArg (control_key NAMESPACE) (hassoc "retired-guard" path)

theorem control_row_inj {c d : ControlRow} (h : control_row c = control_row d) : c = d := by
  rw [control_row_eq, control_row_eq, control_key, control_key, append_right_inj] at h
  exact ControlRow.name_inj h

/-! ### Reading and writing them -/

namespace Store

def control (s : Store) (c : ControlRow) : Option Bytes := s.control_state.get (control_row c)

def put_control (s : Store) (c : ControlRow) (v : Bytes) : Store :=
  { s with control_state := s.control_state.insert (control_row c) v }

def put_metadata (s : Store) (key : String) (v : Bytes) : Store :=
  { s with metadata := s.metadata.insert key v }

variable (s : Store)

theorem control_put_control (c d : ControlRow) (v : Bytes) :
    (s.put_control c v).control d = if d = c then some v else s.control d := by
  have hiff : control_row d = control_row c ↔ d = c :=
    ⟨control_row_inj, fun h => by rw [h]⟩
  simp only [control, put_control, Table.get_insert, hiff]

theorem control_put_control_of_ne {c d : ControlRow} (v : Bytes) (h : d ≠ c) :
    (s.put_control c v).control d = s.control d := by
  rw [control_put_control, if_neg h]

@[simp] theorem metadata_put_metadata (key : String) (v : Bytes) :
    (s.put_metadata key v).metadata = s.metadata.insert key v := rfl

@[simp] theorem control_put_metadata (key : String) (v : Bytes) (c : ControlRow) :
    (s.put_metadata key v).control c = s.control c := rfl

end Store

/-! ## Revisions -/

def storage_error (message : String) : RaftError := .Storage ("conditional metadata: " ++ message)

def versioned_image (value version : Option Bytes) : Except RaftError VersionedMetadata :=
  match value with
  | none => .ok ⟨none, none⟩
  | some _ =>
    match version with
    | none => .error (.UnsupportedOperation "metadata key has no committed content revision")
    | some v =>
      if v.length ≠ TOKEN_LEN then .error (storage_error "invalid committed content revision")
      else .ok ⟨value, version⟩

def metadata_in_txn (s : Store) (key : String) : Option Bytes := s.metadata.get key

def revision_in_txn (s : Store) (key : String) : Option Bytes := s.control (.revision key)

/-- The token allocation starts from: the allocator's, or a fresh one at counter zero. -/
def allocator_token (s : Store) (initial : Option Incarnation) : Except RaftError Bytes :=
  match s.control .allocator with
  | some token =>
    if token.length = TOKEN_LEN then .ok token
    else .error (storage_error "invalid revision allocator")
  | none =>
    match initial with
    | some incarnation => .ok (incarnation.1 ++ u64_to_be_bytes 0)
    | none => .error (storage_error "missing allocator")

/-- `u64::from_be_bytes(token[16..])`. -/
def token_counter (token : Bytes) : ℕ := ofBe (token.drop 16)

def next_token (token : Bytes) : Except RaftError Bytes :=
  if token_counter token + 1 < 2 ^ 64 then .ok (token.take 16 ++ be 8 (token_counter token + 1))
  else .error (storage_error "content revision space exhausted")

def advance (s : Store) (key : String) (token : Bytes) : Store :=
  (s.put_control .allocator token).put_control (.revision key) token

def allocate_revision (s : Store) (key : String) (initial : Option Incarnation) :
    Except RaftError (Bytes × Store) := do
  let previous ← allocator_token s initial
  let token ← next_token previous
  return (token, advance s key token)

/-- Ordinary writes of a managed, tracked path move its revision; the flag says whether they did. -/
def refresh_tracked_version (s : Store) (key : String) : Except RaftError (Bool × Store) :=
  if ¬ is_managed_content_path key then .ok (false, s)
  else
    match revision_in_txn s key with
    | some _ => do
      let (_, s) ← allocate_revision s key none
      return (true, s)
    | none => .ok (false, s)

/-! ### What allocation does -/

/-- `token` is what allocation hands out next in `s`. -/
def Fresh (s : Store) (initial : Option Incarnation) (token : Bytes) : Prop :=
  ∃ previous, allocator_token s initial = .ok previous ∧ next_token previous = .ok token

variable {s s' : Store} {key : String}

theorem allocate_revision_ok {initial : Option Incarnation}
    {token : Bytes} (h : allocate_revision s key initial = .ok (token, s')) :
    Fresh s initial token ∧ s' = advance s key token := by
  obtain ⟨previous, hprev, h⟩ := bind_eq_ok.mp h
  obtain ⟨token', hnext, h⟩ := bind_eq_ok.mp h
  obtain ⟨rfl, rfl⟩ := ok_pair_inj h
  exact ⟨⟨previous, hprev, hnext⟩, rfl⟩

theorem refresh_tracked_version_ok {b : Bool} (h : refresh_tracked_version s key = .ok (b, s')) :
    (b = true ∧ is_managed_content_path key = true ∧ (revision_in_txn s key).isSome ∧
      ∃ token, Fresh s none token ∧ s' = advance s key token) ∨
    (b = false ∧ s' = s ∧ ¬ (is_managed_content_path key = true ∧ (revision_in_txn s key).isSome)) := by
  unfold refresh_tracked_version at h
  split_ifs at h with hm
  · cases hr : revision_in_txn s key with
    | none =>
      rw [hr] at h
      obtain ⟨rfl, rfl⟩ := ok_pair_inj h
      exact .inr ⟨rfl, rfl, fun hc => by simp at hc⟩
    | some v =>
      rw [hr] at h
      obtain ⟨⟨token, s₁⟩, halloc, h⟩ := bind_eq_ok.mp h
      obtain ⟨rfl, rfl⟩ := ok_pair_inj h
      obtain ⟨hfresh, rfl⟩ := allocate_revision_ok halloc
      exact .inl ⟨rfl, hm, rfl, token, hfresh, rfl⟩
  · obtain ⟨rfl, rfl⟩ := ok_pair_inj h
    exact .inr ⟨rfl, rfl, fun hc => hm hc.1⟩

@[simp] theorem metadata_advance (s : Store) (key : String) (token : Bytes) :
    (advance s key token).metadata = s.metadata := rfl

theorem control_advance (s : Store) (key : String) (token : Bytes) (c : ControlRow) :
    (advance s key token).control c =
      if c = .revision key ∨ c = .allocator then some token else s.control c := by
  simp only [advance, Store.control_put_control]
  by_cases h1 : c = .revision key
  · simp [h1]
  · by_cases h2 : c = .allocator <;> simp [h1, h2]

theorem revision_advance (s : Store) (key : String) (token : Bytes) (K : String) :
    revision_in_txn (advance s key token) K = if K = key then some token else revision_in_txn s K := by
  rw [revision_in_txn, control_advance]
  simp only [ControlRow.revision.injEq, reduceCtorEq, or_false]
  rfl

end NexusVfs
