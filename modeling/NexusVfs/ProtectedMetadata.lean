/-
Protected paths and conditional writes: `state_machine/protected_metadata.rs` and the
write half of `state_machine/conditional_metadata.rs`.

A policy row makes a path conditional-only. The role of an owner is a stronger value of
the same row.
-/
import NexusVfs.ConditionalMetadata

namespace NexusVfs

open Words Text Runs

/-! ## Policies -/

def CONDITIONAL_ONLY : Bytes := as_bytes "conditional-only-v1"
def RECORD_OWNER : Bytes := as_bytes "record-owner-v1"
def RECORD_IO_OWNER : Bytes := as_bytes "record-owner-io-v1"
def GUARDED_RECORDS : Bytes := as_bytes "guarded-records-v1"
def RECORD_IO : Bytes := as_bytes "guarded-record-io-v1"

def decode_policy : Option Bytes → Except RaftError Bool
  | none => .ok false
  | some value =>
    if value = CONDITIONAL_ONLY ∨ value = RECORD_OWNER ∨ value = RECORD_IO_OWNER then .ok true
    else .error (.Storage "invalid protected metadata policy")

def decode_requirement : Option Bytes → Except RaftError Bool
  | none => .ok false
  | some value =>
    if value = CONDITIONAL_ONLY ∨ value = GUARDED_RECORDS ∨ value = RECORD_IO then .ok true
    else .error (storage_error "unsupported protected-record storage format")

def record_policy_in_txn (s : Store) (path : String) : Option Bytes := s.control (.policy path)

def protected_in_txn (s : Store) (path : String) : Except RaftError Bool :=
  decode_policy (record_policy_in_txn s path)

/-- The refusal an ordinary command on a protected path gets. -/
def ordinary_metadata_refusal (s : Store) (path : String) : Except RaftError (Option CommandResult) := do
  let is_protected ← protected_in_txn s path
  return if is_protected then some (.Error "protected metadata requires a conditional write") else none

def is_record_owner_in_txn (s : Store) (path : String) : Bool :=
  record_policy_in_txn s path == some RECORD_OWNER ||
    record_policy_in_txn s path == some RECORD_IO_OWNER

/-- The paths with a policy, as the anti-entropy export reads them. -/
def protected_metadata_paths (s : Store) : Except RaftError (List String) :=
  (s.control_state.scan fun k => k.startsWith (policy_key "")).mapM fun row => do
    let _ ← decode_policy (some row.2)
    return ( strip_prefix row.1 (policy_key "")).getD ""

/-! ## Roles and the storage format -/

def mark_record_owner_in_txn (s : Store) (path : String) : Store :=
  s.put_control (.policy path)
    (if record_policy_in_txn s path = some RECORD_IO_OWNER then RECORD_IO_OWNER else RECORD_OWNER)

/-- An ordinary later adoption never downgrades the durable requirement. -/
def require_record_format_in_txn (s : Store) (guarded : Bool) : Except RaftError Store := do
  let current := s.control .requirement
  let _ ← decode_requirement current
  return s.put_control .requirement
    (if current = some RECORD_IO then RECORD_IO
     else if guarded || current == some GUARDED_RECORDS then GUARDED_RECORDS
     else CONDITIONAL_ONLY)

def mark_record_io_owner_in_txn (s : Store) (path : String) : Except RaftError Store := do
  let s ← require_record_format_in_txn s true
  return (s.put_control (.policy path) RECORD_IO_OWNER).put_control .requirement RECORD_IO

/-! ## Adoption and conditional writes -/

/-- `if value.is_some() { self.allocate_revision(..)? }`: only an existing image gets a revision. -/
def enroll_image (s : Store) (key : String) (incarnation : Incarnation) : Except RaftError Store :=
  match metadata_in_txn s key with
  | some _ => do
    let (_, s) ← allocate_revision s key (some incarnation)
    return s
  | none => .ok s

def adopt_protected_in_txn (s : Store) (key : String) (expected_image : Option Bytes)
    (incarnation : Incarnation) : Except RaftError (CommandResult × Store) := do
  let is_protected ← protected_in_txn s key
  if is_protected then return (.ProtectedMetadata true, s)
  else if metadata_in_txn s key ≠ expected_image then return (.ProtectedMetadata false, s)
  else
    let s ← enroll_image s key incarnation
    let s ← require_record_format_in_txn (s.put_control (.policy key) CONDITIONAL_ONLY) false
    return (.ProtectedMetadata true, s)

/-- Whether a path has conditional semantics at all: managed by its name, or protected by policy. -/
def conditional_in_txn (s : Store) (key : String) : Except RaftError Bool :=
  if is_managed_content_path key then .ok true else protected_in_txn s key

def write_versioned_in_txn (s : Store) (key : String) (value : Bytes) (expected : Option Bytes)
    (incarnation : Incarnation) : Except RaftError (CommandResult × Store) := do
  let admitted ← conditional_in_txn s key
  if ¬ admitted then return (.ConditionalMetadataUnsupported, s)
  else
    -- An occupied unversioned legacy row is not admitted by a write.
    if (metadata_in_txn s key).isSome ∧ revision_in_txn s key = none then
      return (.ConditionalMetadataUnsupported, s)
    else
      let current ← versioned_image (metadata_in_txn s key) (revision_in_txn s key)
      if current.version ≠ expected then return (.ConditionalMetadata false current, s)
      else
        let (version, s) ← allocate_revision s key (some incarnation)
        return (.ConditionalMetadata true ⟨some value, some version⟩, s.put_metadata key value)

/-- The public read: value and revision of one committed image. -/
def get_versioned_metadata (s : Store) (key : String) : Except RaftError VersionedMetadata := do
  let admitted ← conditional_in_txn s key
  if ¬ admitted then
    throw (.UnsupportedOperation "conditional content outside the managed metadata subtree")
  else versioned_image (metadata_in_txn s key) (revision_in_txn s key)

/-! ## What these functions can do

Each lemma lists every successful outcome of one function with the store it
leaves; nothing later unfolds the functions themselves. -/

variable {s s' : Store} {r : CommandResult} {incarnation : Incarnation}

variable {path key : String}

theorem ordinary_metadata_refusal_some
    (h : ordinary_metadata_refusal s path = .ok (some r)) : r.refused = true := by
  obtain ⟨prot, -, h⟩ := bind_eq_ok.mp h
  have hif := pure_eq_ok.mp h
  split_ifs at hif
  cases hif
  rfl

theorem ordinary_metadata_refusal_none
    (h : ordinary_metadata_refusal s path = .ok none) : protected_in_txn s path = .ok false := by
  obtain ⟨prot, hprot, h⟩ := bind_eq_ok.mp h
  have hif := pure_eq_ok.mp h
  split_ifs at hif with hp
  rw [hprot, Bool.not_eq_true _ |>.mp hp]

theorem require_record_format_ok {guarded : Bool}
    (h : require_record_format_in_txn s guarded = .ok s') :
    ∃ v, s' = s.put_control .requirement v := by
  obtain ⟨_, -, h⟩ := bind_eq_ok.mp h
  exact ⟨_, (pure_eq_ok.mp h).symm⟩

theorem enroll_image_ok (h : enroll_image s key incarnation = .ok s') :
    (metadata_in_txn s key = none ∧ s' = s) ∨
      ∃ token, Fresh s (some incarnation) token ∧ s' = advance s key token := by
  unfold enroll_image at h
  cases hv : metadata_in_txn s key with
  | none =>
    rw [hv] at h
    exact .inl ⟨rfl, (Except.ok.inj h).symm⟩
  | some image =>
    rw [hv] at h
    obtain ⟨⟨token, s₁⟩, halloc, h⟩ := bind_eq_ok.mp h
    obtain ⟨hfresh, rfl⟩ := allocate_revision_ok halloc
    exact .inr ⟨token, hfresh, (pure_eq_ok.mp h).symm⟩

theorem adopt_protected_ok {expected_image : Option Bytes}
    (h : adopt_protected_in_txn s key expected_image incarnation = .ok (r, s')) :
    (r = .ProtectedMetadata true ∧ s' = s ∧ protected_in_txn s key = .ok true) ∨
    (r = .ProtectedMetadata false ∧ s' = s) ∨
    (r = .ProtectedMetadata true ∧ protected_in_txn s key = .ok false ∧
      ∃ s₁ v, ((metadata_in_txn s key = none ∧ s₁ = s) ∨
          ∃ token, Fresh s (some incarnation) token ∧ s₁ = advance s key token) ∧
        s' = (s₁.put_control (.policy key) CONDITIONAL_ONLY).put_control .requirement v) := by
  obtain ⟨prot, hprot, h⟩ := bind_eq_ok.mp h
  split_ifs at h with h1 h2
  · obtain ⟨rfl, rfl⟩ := ok_pair_inj h
    exact .inl ⟨rfl, rfl, by rw [hprot, h1]⟩
  · obtain ⟨rfl, rfl⟩ := ok_pair_inj h
    exact .inr (.inl ⟨rfl, rfl⟩)
  · obtain ⟨s₁, hs₁, h⟩ := bind_eq_ok.mp h
    obtain ⟨s₂, hs₂, h⟩ := bind_eq_ok.mp h
    obtain ⟨rfl, rfl⟩ := ok_pair_inj h
    obtain ⟨v, rfl⟩ := require_record_format_ok hs₂
    exact .inr (.inr ⟨rfl, by rw [hprot, Bool.not_eq_true _ |>.mp h1], s₁, v,
      enroll_image_ok hs₁, rfl⟩)

theorem write_versioned_ok {value : Bytes} {expected : Option Bytes}
    (h : write_versioned_in_txn s key value expected incarnation = .ok (r, s')) :
    (r.refused = true ∧ s' = s) ∨ (conditional_in_txn s key = .ok true ∧ ∃ image token,
      versioned_image (metadata_in_txn s key) (revision_in_txn s key) = .ok image ∧
      image.version = expected ∧ Fresh s (some incarnation) token ∧
      r = .ConditionalMetadata true ⟨some value, some token⟩ ∧
      s' = (advance s key token).put_metadata key value) := by
  obtain ⟨admitted, hadm, h⟩ := bind_eq_ok.mp h
  split_ifs at h with h1 h2
  · obtain ⟨rfl, rfl⟩ := ok_pair_inj h
    exact .inl ⟨rfl, rfl⟩
  · obtain ⟨image, himage, h⟩ := bind_eq_ok.mp h
    split_ifs at h with h3
    · obtain ⟨rfl, rfl⟩ := ok_pair_inj h
      exact .inl ⟨rfl, rfl⟩
    · obtain ⟨⟨token, s₁⟩, halloc, h⟩ := bind_eq_ok.mp h
      obtain ⟨rfl, rfl⟩ := ok_pair_inj h
      obtain ⟨hfresh, rfl⟩ := allocate_revision_ok halloc
      exact .inr ⟨by rw [hadm, h1], image, token, himage, not_not.mp h3, hfresh, rfl, rfl⟩
  · obtain ⟨rfl, rfl⟩ := ok_pair_inj h
    exact .inl ⟨rfl, rfl⟩

end NexusVfs
