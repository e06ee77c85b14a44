/-
`FullStateMachine`: applying committed commands, snapshots and reopening.

Lock commands go to the in-memory lock state and are never skipped; every other command
runs in one transaction with the marker row that records its index, and is skipped if
its index was applied before. An error inside the transaction is fatal for the node, so
it has no successor state. `execute_metadata_in_txn` is the record fence, the refusal of
ordinary commands on protected paths, and the arm of the command.
-/
import NexusVfs.MetadataRename
import NexusVfs.ExtractVersion

namespace NexusVfs

open Words Text Runs Table

def KEY_LAST_APPLIED : String := "__last_applied__"

/-! ## Metadata arms -/

def set_metadata (s : Store) (key : String) (value : Bytes) :
    Except RaftError (CommandResult × Store) := do
  let (_, s) ← refresh_tracked_version s key
  return (.Success, s.put_metadata key value)

def delete_metadata (s : Store) (key : String) : Except RaftError (CommandResult × Store) := do
  let (_, s) ← refresh_tracked_version s key
  return (.Success, { s with metadata := s.metadata.remove key })

/-- The version of the current image; a row that was never written has version 0. -/
def current_version (s : Store) (key : String) : Except RaftError UInt32 :=
  match s.metadata.get key with
  | none => .ok 0
  | some bytes =>
    match ExtractVersion.extract_version bytes with
    | some v => .ok v
    | none => .error .NoReturn

def cas_set_metadata (s : Store) (key : String) (value : Bytes) (expected_version : UInt32) :
    Except RaftError (CommandResult × Store) := do
  let current ← current_version s key
  if current ≠ expected_version then return (.CasResult false current, s)
  else
    let (_, s) ← refresh_tracked_version s key
    return (.CasResult true (expected_version + 1), s.put_metadata key value)

/-- `(current + delta).max(0)`; the addition wraps. -/
def adjusted_counter (s : Store) (key : String) (delta : Int64) : Int64 :=
  max ((((s.metadata.get key).bind i64_from_be_bytes).getD 0) + delta) 0

def adjust_counter (s : Store) (key : String) (delta : Int64) :
    Except RaftError (CommandResult × Store) :=
  if is_managed_content_path key then
    .ok (.Error "counter operations cannot replace managed content metadata", s)
  else
    let new_val := i64_to_be_bytes (adjusted_counter s key delta)
    .ok (.Value new_val, s.put_metadata key new_val)

/-! ## Control-state arms -/

def reserved_namespace_refusal : CommandResult :=
  .Error "conditional revision control state is owned by its apply primitive"

def put_control_state (s : Store) (namespace_ key : String) (value : Bytes) (if_absent : Bool) :
    CommandResult × Store :=
  if namespace_ = NAMESPACE then (reserved_namespace_refusal, s)
  else if if_absent ∧ (s.control_state.get (control_key namespace_ key)).isSome then
    (.Error s!"control state {namespace_}/{key} already exists", s)
  else
    (.Success, { s with control_state := s.control_state.insert (control_key namespace_ key) value })

def delete_control_state (s : Store) (namespace_ key : String) : CommandResult × Store :=
  if namespace_ = NAMESPACE then (reserved_namespace_refusal, s)
  else (.Success, { s with control_state := s.control_state.remove (control_key namespace_ key) })

/-! ## Execution inside a transaction -/

def on_streams (s : Store) (arm : Table String Bytes → CommandResult × Table String Bytes) :
    CommandResult × Store :=
  ((arm s.stream_entries).1, { s with stream_entries := (arm s.stream_entries).2 })

/-- The command match of `execute_metadata_in_txn`. A guarded mutation shares the arm of its plain
command. -/
def execute_arm (codec : MetadataCodec) (s : Store) :
    Command → Except RaftError (CommandResult × Store)
  | .AdmitRecordIoOwner key expected_version => admit_record_io_in_txn s key expected_version
  | .BindRecordGuard key expected_image guard_key guard_version incarnation =>
    bind_record_guard_in_txn s key expected_image guard_key guard_version incarnation
  | .RetireRecordGuard key expected_version value incarnation =>
    retire_record_guard_in_txn s key expected_version value incarnation
  | .SetMetadata key value => set_metadata s key value
  | .CasSetMetadata key value expected_version => cas_set_metadata s key value expected_version
  | .DeleteMetadata key => delete_metadata s key
  | .AdjustCounter key delta => adjust_counter s key delta
  | .AppendStreamEntry stream data
  | .GuardedRecord _ (.Append stream data) =>
    .ok (on_streams s fun t => append_stream_entry t stream data)
  | .SealStreamSegment stream base end_ content_id origin size
  | .GuardedRecord _ (.Seal stream base end_ content_id origin size) =>
    .ok (on_streams s fun t => seal_stream_segment t stream base end_ content_id origin size)
  | .TrimStreamSegment stream up_to_seq _
  | .GuardedRecord _ (.Trim stream up_to_seq _) =>
    .ok (on_streams s fun t => trim_stream_segment t stream up_to_seq)
  | .PutControlState namespace_ key value if_absent =>
    .ok (put_control_state s namespace_ key value if_absent)
  | .DeleteControlState namespace_ key => .ok (delete_control_state s namespace_ key)
  | .WriteVersionedMetadata key value expected incarnation
  | .GuardedRecord _ (.ReplaceMetadata key value expected incarnation) =>
    write_versioned_in_txn s key value expected incarnation
  | .AdoptProtectedMetadata key expected_image incarnation =>
    adopt_protected_in_txn s key expected_image incarnation
  | .RenameMetadata old_key new_key is_pas => rename_metadata_in_txn codec s old_key new_key is_pas
  | .Noop => .ok (.Success, s)
  | .AcquireLock .. | .ReleaseLock .. | .ForceReleaseLock .. | .ExtendLock .. =>
    .error (.InvalidState "execute_metadata_in_txn called with a lock command")

def ordinary_refusal (s : Store) (c : Command) : Except RaftError (Option CommandResult) :=
  match c.ordinary_metadata_key with
  | some key => ordinary_metadata_refusal s key
  | none => .ok none

def execute_metadata_in_txn (codec : MetadataCodec) (s : Store) (c : Command) :
    Except RaftError (CommandResult × Store) := do
  match ← record_guard_refusal s c with
  | some refusal => return (refusal, s)
  | none =>
    match ← ordinary_refusal s c with
    | some refusal => return (refusal, s)
    | none => execute_arm codec s c

variable {codec : MetadataCodec} {s : Store} {c : Command} {r : CommandResult}

theorem execute_arm_of_stream_op {stream : String}
    {op : StreamOp} (h : c.stream_op = some (stream, op)) :
    execute_arm codec s c = .ok (on_streams s fun t => op.exec t stream) := by
  cases c with
  | AppendStreamEntry | SealStreamSegment | TrimStreamSegment => cases h; rfl
  | GuardedRecord v g =>
    cases g with
    | ReplaceMetadata => cases h
    | Append | Seal | Trim => cases h; rfl
  | _ => cases h

/-! ## Applying a committed command -/

@[ext]
structure FullStateMachine where
  store : Store
  advisory : LockState
  last_applied : UInt64

def FullStateMachine.fresh : FullStateMachine := ⟨Store.empty, LockState.new, 0⟩

/-- The lock arms. The read after a failed release or extension is of the state it left. -/
def apply_lock (l : LockState) : Command → Option (CommandResult × LockState)
  | .AcquireLock path lock_id max_holders ttl_secs holder_info now_secs =>
    let (result, l) := l.apply_acquire path lock_id max_holders ttl_secs holder_info now_secs
    some (.LockResult result, l)
  | .ReleaseLock path lock_id =>
    let (released, l) := l.apply_release path lock_id
    some (if released then .Success
      else if (l.get_lock path).isNone then .Error "Lock not found"
      else .Error "Lock holder not found", l)
  | .ForceReleaseLock path =>
    let (existed, l) := l.apply_force_release path
    some (if existed then .Success else .Error "Lock not found", l)
  | .ExtendLock path lock_id new_ttl_secs now_secs =>
    let (extended, l) := l.apply_extend path lock_id new_ttl_secs now_secs
    some (if extended then .Success
      else if (l.get_lock path).isNone then .Error "Lock not found"
      else .Error "Lock holder not found", l)
  | _ => none

def put_marker (s : Store) (index : UInt64) : Store :=
  s.put_metadata KEY_LAST_APPLIED (u64_to_be_bytes index)

def apply (codec : MetadataCodec) (m : FullStateMachine) (index : UInt64) (c : Command) :
    Except RaftError (CommandResult × FullStateMachine) :=
  match apply_lock m.advisory c with
  | some (result, advisory) =>
    -- Only the in-memory high-water mark moves; no row records a lock command.
    .ok (result, { m with
      advisory, last_applied := if m.last_applied < index then index else m.last_applied })
  | none =>
    if index ≤ m.last_applied then .ok (.Success, m)
    else do
      let (result, store) ← execute_metadata_in_txn codec m.store c
      return (result, { m with store := put_marker store index, last_applied := index })

/-- `apply` calls the observers unless the command is a lock command or was applied before. -/
def emits (m : FullStateMachine) (index : UInt64) (c : Command) : Bool :=
  !c.is_lock_command && decide (m.last_applied < index)

/-! ## Opening, snapshots and restoring -/

/-- `FullStateMachine::new`: the locks start empty, the mark is read from its row. -/
def FullStateMachine.new (store : Store) : Except RaftError FullStateMachine :=
  match store.metadata.get KEY_LAST_APPLIED with
  | none => .ok ⟨store, LockState.new, 0⟩
  | some bytes =>
    match u64_from_be_bytes bytes with
    | some n => .ok ⟨store, LockState.new, n⟩
    | none => .error (.Storage "invalid last_applied")

/-- The replicated image. Its bytes are bincode of exactly these fields. -/
structure Snapshot where
  metadata : List (String × Bytes)
  stream_entries : List (String × Bytes)
  control_state : List (String × Bytes)
  advisory : LockState
  last_applied : UInt64

/-- Rows of the metadata tree whose key starts with `__` count as internal and are skipped. -/
def is_internal_key (key : String) : Bool := key.startsWith "__"

def snapshot (m : FullStateMachine) : Snapshot where
  metadata := m.store.metadata.scan fun k => !is_internal_key k
  stream_entries := m.store.stream_entries.scan fun _ => true
  control_state := m.store.control_state.scan fun _ => true
  advisory := m.advisory
  last_applied := m.last_applied

/-- The three tables are cleared and repopulated; nothing of the previous state is read. -/
def restore_snapshot (_m : FullStateMachine) (image : Snapshot) : FullStateMachine where
  store := put_marker
    ⟨Table.insert_all ∅ image.metadata, Table.insert_all ∅ image.stream_entries,
      Table.insert_all ∅ image.control_state⟩ image.last_applied
  advisory := image.advisory
  last_applied := image.last_applied

/-! ## The shape of one step -/

theorem record_guard_refusal_some
    (h : record_guard_refusal s c = .ok (some r)) : r.refused = true := by
  have hplain (h : Except.ok (plain_record_refusal s c) = (.ok (some r) : Except RaftError _)) :
      r.refused = true := by
    have h := Except.ok.inj h
    unfold plain_record_refusal at h
    split_ifs at h
    · cases h; rfl
    · split at h
      · cases h
      · split_ifs at h <;> (cases h; rfl)
  have hguarded (v : Bytes) (g : GuardedRecordMutation)
      (h : guarded_record_refusal s v g = .ok (some r)) : r.refused = true := by
    unfold guarded_record_refusal at h
    split at h
    · cases h; rfl
    · split at h
      · cases h; rfl
      · split at h
        · cases h
        · obtain ⟨live, -, h⟩ := bind_eq_ok.mp h
          have hif := pure_eq_ok.mp h
          split_ifs at hif
          cases hif
          rfl
  cases c with
  | GuardedRecord v g => exact hguarded v g h
  | _ => exact hplain h

theorem execute_cases {s' : Store} (h : execute_metadata_in_txn codec s c = .ok (r, s')) :
    (r.refused = true ∧ s' = s) ∨
    (record_guard_refusal s c = .ok none ∧ ordinary_refusal s c = .ok none ∧
      execute_arm codec s c = .ok (r, s')) := by
  obtain ⟨ref₁, h1, h⟩ := bind_eq_ok.mp h
  cases ref₁ with
  | some refusal =>
    obtain ⟨rfl, rfl⟩ := ok_pair_inj h
    exact .inl ⟨record_guard_refusal_some h1, rfl⟩
  | none =>
    obtain ⟨ref₂, h2, h⟩ := bind_eq_ok.mp h
    cases ref₂ with
    | some refusal =>
      obtain ⟨rfl, rfl⟩ := ok_pair_inj h
      refine .inl ⟨?_, rfl⟩
      unfold ordinary_refusal at h2
      split at h2
      · exact ordinary_metadata_refusal_some h2
      · cases h2
    | none => exact .inr ⟨h1, h2, h⟩

theorem apply_lock_eq_none {l : LockState} : apply_lock l c = none ↔ c.is_lock_command = false := by
  cases c <;> simp [apply_lock, Command.is_lock_command]

variable {m m' : FullStateMachine} {index : UInt64}

theorem apply_cases (hc : c.is_lock_command = false) (h : apply codec m index c = .ok (r, m')) :
    (index ≤ m.last_applied ∧ r = .Success ∧ m' = m) ∨
    (m.last_applied < index ∧ ∃ store, execute_metadata_in_txn codec m.store c = .ok (r, store) ∧
      m' = { m with store := put_marker store index, last_applied := index }) := by
  unfold apply at h
  rw [apply_lock_eq_none.mpr hc] at h
  by_cases hidx : index ≤ m.last_applied
  · rw [if_pos hidx] at h
    obtain ⟨rfl, rfl⟩ := ok_pair_inj h
    exact .inl ⟨hidx, rfl, rfl⟩
  · rw [if_neg hidx] at h
    obtain ⟨⟨r₁, store⟩, hexec, h⟩ := bind_eq_ok.mp h
    obtain ⟨rfl, rfl⟩ := ok_pair_inj h
    exact .inr ⟨UInt64.not_le.mp hidx, store, hexec, rfl⟩

theorem apply_lock_cases (hc : c.is_lock_command = true) (h : apply codec m index c = .ok (r, m')) :
    ∃ advisory, apply_lock m.advisory c = some (r, advisory) ∧ m' = { m with
        advisory, last_applied := if m.last_applied < index then index else m.last_applied } := by
  unfold apply at h
  cases hl : apply_lock m.advisory c with
  | none => rw [apply_lock_eq_none.mp hl] at hc; cases hc
  | some p =>
    rw [hl] at h
    obtain ⟨rfl, rfl⟩ := ok_pair_inj h
    exact ⟨p.2, rfl, rfl⟩

theorem apply_store_cases (h : apply codec m index c = .ok (r, m')) :
    m'.store = m.store ∨ (c.is_lock_command = false ∧ m.last_applied < index ∧ ∃ store,
      execute_metadata_in_txn codec m.store c = .ok (r, store) ∧ m'.store = put_marker store index) := by
  cases hlock : c.is_lock_command with
  | true =>
    obtain ⟨advisory, -, rfl⟩ := apply_lock_cases hlock h
    exact .inl rfl
  | false =>
    rcases apply_cases hlock h with ⟨-, -, rfl⟩ | ⟨hidx, store, hexec, rfl⟩
    · exact .inl rfl
    · exact .inr ⟨rfl, hidx, store, hexec, rfl⟩

theorem apply_mark (h : apply codec m index c = .ok (r, m')) :
    m'.last_applied.toNat = max m.last_applied.toNat index.toNat := by
  by_cases hlock : c.is_lock_command = true
  · obtain ⟨l, -, rfl⟩ := apply_lock_cases hlock h
    dsimp only
    by_cases hlt : m.last_applied < index
    · have hle := UInt64.lt_iff_toNat_lt.mp hlt
      rw [if_pos hlt]
      omega
    · have hle := UInt64.le_iff_toNat_le.mp (UInt64.not_lt.mp hlt)
      rw [if_neg hlt]
      omega
  · rcases apply_cases (Bool.eq_false_iff.mpr hlock) h with ⟨hle, -, rfl⟩ | ⟨hlt, store, -, rfl⟩
    · have hle := UInt64.le_iff_toNat_le.mp hle
      omega
    · have hlt := UInt64.lt_iff_toNat_lt.mp hlt
      dsimp only
      omega

/-! ## What an image brings back -/

theorem restored_marker (m target : FullStateMachine) :
    (restore_snapshot target (snapshot m)).store.metadata.get KEY_LAST_APPLIED =
      some (u64_to_be_bytes m.last_applied) := by
  rw [restore_snapshot, put_marker, Store.metadata_put_metadata, get_insert_self]
  rfl

theorem restored_row (m target : FullStateMachine) {key : String} (hkey : key ≠ KEY_LAST_APPLIED) :
    (restore_snapshot target (snapshot m)).store.metadata.get key =
      if is_internal_key key then none else m.store.metadata.get key := by
  rw [restore_snapshot, put_marker, Store.metadata_put_metadata, get_insert_of_ne _ _ hkey]
  refine (get_insert_all_scan _ _ _).trans ?_
  cases is_internal_key key <;> rfl

theorem valid_ne_marker {path : String} (h : validate_path_fast path = none) :
    path ≠ KEY_LAST_APPLIED := by
  rintro rfl
  revert h
  decide +kernel

/-! ## Runs -/

structure LogEntry where
  index : UInt64
  command : Command
  deriving DecidableEq

def apply_step (codec : MetadataCodec) (m : FullStateMachine) (e : LogEntry) :
    Option (CommandResult × FullStateMachine) :=
  (apply codec m e.index e.command).toOption

theorem apply_step_eq_some {e : LogEntry} :
    apply_step codec m e = some (r, m') ↔ apply codec m e.index e.command = .ok (r, m') := by
  unfold apply_step
  cases apply codec m e.index e.command with
  | error err => simp [Except.toOption]
  | ok p => simp [Except.toOption]

def Reachable (codec : MetadataCodec) (m : FullStateMachine) : Prop :=
  ∃ entries results, run (apply_step codec) .fresh entries = some (results, m)

end NexusVfs
