/-
The vocabulary of the replicated state machine, from `raft/src/raft/state_machine.rs`:
commands, results, and the store of one apply transaction.

Keys are `String`s: every key is built from `str`s, and the byte order of UTF-8 is the
order of code points. Fixed-width integers wrap as in a release build. redb itself is
taken not to fail.
-/
import NexusVfs.LockState

namespace NexusVfs

open Words Text

/-! ## Errors -/

/-- `RaftError`, as far as apply can raise it. An `Err` inside apply is fatal:
the node panics and the transaction is dropped. -/
inductive RaftError where
  | Storage (message : String)
  | InvalidState (message : String)
  | UnsupportedOperation (message : String)
  /-- A loop of the source that never exits; no result is produced. -/
  | NoReturn
  deriving DecidableEq, Repr

/-! ## Commands -/

def Incarnation := { bytes : Bytes // bytes.length = 16 }

instance : DecidableEq Incarnation := 
  inferInstanceAs (DecidableEq { bytes : Bytes // bytes.length = 16 })

inductive GuardedRecordMutation where
  | ReplaceMetadata (key : String) (value : Bytes) (expected : Option Bytes)
      (incarnation : Incarnation)
  | Append (stream : String) (data : Bytes)
  | Seal (stream : String) (base end_ : UInt64) (content_id origin : String) (size : UInt64)
  | Trim (stream : String) (up_to_seq : UInt64) (trimmed : List (String × String))
  deriving DecidableEq

inductive Command where
  | SetMetadata (key : String) (value : Bytes)
  | DeleteMetadata (key : String)
  | AcquireLock (path lock_id : String) (max_holders ttl_secs : UInt32) (holder_info : String)
      (now_secs : UInt64)
  | ReleaseLock (path lock_id : String)
  | ExtendLock (path lock_id : String) (new_ttl_secs : UInt32) (now_secs : UInt64)
  | CasSetMetadata (key : String) (value : Bytes) (expected_version : UInt32)
  | AdjustCounter (key : String) (delta : Int64)
  | ForceReleaseLock (path : String)
  | AppendStreamEntry (stream : String) (data : Bytes)
  | Noop
  | PutControlState (namespace_ key : String) (value : Bytes) (if_absent : Bool)
  | DeleteControlState (namespace_ key : String)
  | SealStreamSegment (stream : String) (base end_ : UInt64) (content_id origin : String)
      (size : UInt64)
  | TrimStreamSegment (stream : String) (up_to_seq : UInt64)
      (trimmed : List (String × String))
  | WriteVersionedMetadata (key : String) (value : Bytes) (expected : Option Bytes)
      (incarnation : Incarnation)
  | AdoptProtectedMetadata (key : String) (expected_image : Option Bytes)
      (incarnation : Incarnation)
  | RenameMetadata (old_key new_key : String) (is_pas : Bool)
  | BindRecordGuard (key : String) (expected_image : Option Bytes) (guard_key : String)
      (guard_version : Bytes) (incarnation : Incarnation)
  | GuardedRecord (guard_version : Bytes) (mutation : GuardedRecordMutation)
  | RetireRecordGuard (key : String) (expected_version value : Bytes) (incarnation : Incarnation)
  | AdmitRecordIoOwner (key : String) (expected_version : Bytes)
  deriving DecidableEq

namespace Command

/-- Ordinary commands that replace, remove or reinterpret a metadata image. -/
def ordinary_metadata_key : Command → Option String
  | SetMetadata key _ | DeleteMetadata key | CasSetMetadata key _ _ | AdjustCounter key _ => some key
  | _ => none

def is_lock_command : Command → Bool
  | AcquireLock .. | ReleaseLock .. | ForceReleaseLock .. | ExtendLock .. => true
  | _ => false

def requires_fixed_local_storage : Command → Bool
  | WriteVersionedMetadata .. | AdoptProtectedMetadata .. | RenameMetadata .. | BindRecordGuard ..
  | GuardedRecord .. | RetireRecordGuard .. | AdmitRecordIoOwner .. => true
  | _ => false

end Command

/-! ## Results -/

/-- Value and revision of one committed metadata image. A missing row has no public revision. -/
structure VersionedMetadata where
  value : Option Bytes
  version : Option Bytes
  deriving DecidableEq, Repr

inductive CommandResult where
  | Success
  | Value (bytes : Bytes)
  | LockResult (result : LockAcquireResult)
  | CasResult (success : Bool) (current_version : UInt32)
  | Error (message : String)
  | ConditionalMetadata (committed : Bool) (current : VersionedMetadata)
  | ConditionalMetadataUnsupported
  | ProtectedMetadata (protected_ : Bool)
  deriving DecidableEq, Repr

/-- The answers that tell the caller nothing was done. -/
def CommandResult.refused : CommandResult → Bool
  | .Error _ | .CasResult false _ | .ConditionalMetadata false _ | .ConditionalMetadataUnsupported
  | .ProtectedMetadata false => true
  | _ => false

/-! ## The store -/

@[ext]
structure Store where
  metadata : Table String Bytes
  stream_entries : Table String Bytes
  control_state : Table String Bytes

namespace Store

def empty : Store := ⟨∅, ∅, ∅⟩

@[ext] theorem ext_get {s t : Store} (hm : ∀ k, s.metadata.get k = t.metadata.get k)
    (hs : ∀ k, s.stream_entries.get k = t.stream_entries.get k)
    (hc : ∀ k, s.control_state.get k = t.control_state.get k) : s = t := by
  cases s
  cases t
  congr
  · exact Table.ext_get hm
  · exact Table.ext_get hs
  · exact Table.ext_get hc

end Store

/-! ## Paths

`contracts/src/constants.rs`, `kernel/src/kernel/mod.rs` and
`kernel/src/core/stream/wal.rs`. -/

def MANAGED_CONTENT_ROOT : String := "/__managed_content_v1__"

/-- True for the managed root and its slash-delimited descendants. -/
def is_managed_content_path (path : String) : Bool :=
  path == MANAGED_CONTENT_ROOT ||
    match strip_prefix path MANAGED_CONTENT_ROOT with
    | some tail => tail.startsWith "/"
    | none => false

def invalid_path (message : String) : String := "invalid path: " ++ message

/-- The VFS path check shared by syscalls and access policies: the error, if any. -/
def validate_path_fast (path : String) : Option String :=
  if path = "" then some (invalid_path "Path cannot be empty")
  else if ¬ path.startsWith "/" then some (invalid_path "Path must start with /")
  else if '\x00' ∈ path.toList then some (invalid_path "Path contains null byte")
  else if ['.', '.'] ∈ path.toList.splitOn '/' then
    some (invalid_path "Path contains parent directory reference (..)")
  else none

def WAL_STREAM_KEY_PREFIX : String := "/__wal_stream__/"

/-- Durable key prefix for a stream in its owning store. -/
def wal_stream_prefix (stream_id : String) : String := WAL_STREAM_KEY_PREFIX ++ stream_id ++ "/"

/-- The stream path behind an entry key or a stream prefix. -/
def watch_path_from_wal_stream_key (key : String) : Option String :=
  match strip_prefix key WAL_STREAM_KEY_PREFIX with
  | none => none
  | some rest =>
    match rsplit_once rest '/' with
    | none => none
    | some (path, _) => if path = "" then none else some path

theorem watch_path_of_wal_stream_prefix {id : String} (h : id ≠ "") :
    watch_path_from_wal_stream_key ( wal_stream_prefix id) = some id := by
  have hassoc : wal_stream_prefix id = WAL_STREAM_KEY_PREFIX ++ (id ++ "/") := by
    rw [ wal_stream_prefix, String.append_assoc]
  have hsplit : rsplit_once (id ++ "/") '/' = some (id, "") := by
    have := rsplit_once_append (s := id) (t := "") (c := '/') (by simp)
    rwa [show String.ofList ['/'] = "/" from rfl, String.append_empty] at this
  rw [watch_path_from_wal_stream_key, hassoc, strip_prefix_append]
  simp only [hsplit, if_neg h]

end NexusVfs
