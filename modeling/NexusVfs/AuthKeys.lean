/-
API keys: `auth/src/record.rs` and the `sk-` part of `auth/src/provider.rs`.

HMAC-SHA256 and serde_json are not modelled: the hash of a key and the decoder of a
record are parameters.
-/
import NexusVfs.Table
import NexusVfs.Text

namespace NexusVfs.Auth

open Text

/-! ## Records -/

inductive SubjectType where
  | User
  | Agent
  | Service
  deriving DecidableEq, Repr

def SubjectType.as_str : SubjectType → String
  | .User => "user"
  | .Agent => "agent"
  | .Service => "service"

structure AuthKeyRecord where
  key_id : String
  name : String
  subject_type : SubjectType
  subject_id : String
  is_admin : Bool
  revoked : Bool
  expires_at_ms : Option ℕ
  zone_perms : List (String × String)
  deriving DecidableEq, Repr

def AuthKeyRecord.is_expired (record : AuthKeyRecord) (now_ms : ℕ) : Bool :=
  match record.expires_at_ms with
  | some exp => decide (exp < now_ms)
  | none => false

/-! ## Contexts -/

/-- The fields of an `OperationContext` that `context_from_record` sets; the others have their
defaults. -/
structure OperationContext where
  user_id : String
  zone_id : String
  is_admin : Bool
  agent_id : Option String
  is_system : Bool
  subject_type : String
  subject_id : Option String
  zone_perms : List (String × String)
  deriving DecidableEq, Repr

def ROOT_ZONE_ID : String := "root"

def context_from_record (record : AuthKeyRecord) : OperationContext where
  user_id := record.subject_id
  zone_id :=
    match record.zone_perms with
    | [(only_zone, _)] => only_zone
    | _ => ROOT_ZONE_ID
  is_admin := record.is_admin
  agent_id := if record.subject_type = .Agent then some record.subject_id else none
  is_system := false
  subject_type := record.subject_type.as_str
  subject_id := some record.subject_id
  zone_perms := record.zone_perms

/-- `tonic::Status`, as far as it is used. -/
inductive Status where
  | unauthenticated (message : String)
  | unavailable (message : String)
  deriving DecidableEq, Repr

def unauthenticated : Status := .unauthenticated "invalid credentials"

/-! ## The gates -/

def API_KEY_PREFIX : String := "sk-"

def API_KEY_MIN_LENGTH : ℕ := 32

def is_well_formed (key : String) : Bool :=
  key.startsWith API_KEY_PREFIX && decide (API_KEY_MIN_LENGTH ≤ key.utf8ByteSize)

/-- What `resolve_by_store_key` does with the bytes the store returned, up to the cache insert. -/
def check_record {β : Type} (decode : β → Option AuthKeyRecord) (bytes : β) (now_ms : ℕ) :
    Except Status OperationContext :=
  match decode bytes with
  | none => .error unauthenticated
  | some record =>
    if record.revoked then .error unauthenticated
    else if record.is_expired now_ms then .error unauthenticated
    else if record.zone_perms.isEmpty && !record.is_admin then .error unauthenticated
    else .ok (context_from_record record)

/-- A record that passes the gates until it expires. -/
def valid {β : Type} (decode : β → Option AuthKeyRecord) (bytes : β) : Bool :=
  match decode bytes with
  | none => false
  | some record => !record.revoked && !(record.zone_perms.isEmpty && !record.is_admin)

theorem valid_of_check_record {β : Type} {decode : β → Option AuthKeyRecord} {bytes : β} {now_ms : ℕ}
    {ctx : OperationContext} (h : check_record decode bytes now_ms = .ok ctx) :
    valid decode bytes = true := by
  unfold check_record at h
  unfold valid
  cases hrecord : decode bytes with
  | none =>
    rw [hrecord] at h
    cases h
  | some record =>
    rw [hrecord] at h
    dsimp only at h ⊢
    split_ifs at h with hrevoked hexpired hzone
    simp only [Bool.not_eq_true] at hrevoked hzone
    rw [hrevoked, hzone]
    rfl

end NexusVfs.Auth
