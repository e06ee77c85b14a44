/-
A refused command changes nothing.

Its transaction still commits, with the marker in it, so every arm must decide all its
refusals before its first write.
-/
import NexusVfs.StateMachine

namespace NexusVfs

open Words Text Runs

/-! ## The arms -/

variable {s s' : Store} {value : Bytes} {r : CommandResult}

variable {key : String}

theorem set_metadata_answer (h : set_metadata s key value = .ok (r, s')) : r = .Success := by
  obtain ⟨_, -, h⟩ := bind_eq_ok.mp h
  exact (ok_pair_inj h).1.symm

theorem delete_metadata_answer (h : delete_metadata s key = .ok (r, s')) : r = .Success := by
  obtain ⟨_, -, h⟩ := bind_eq_ok.mp h
  exact (ok_pair_inj h).1.symm

theorem cas_set_metadata_refused {expected_version : UInt32}
    (h : cas_set_metadata s key value expected_version = .ok (r, s')) (hr : r.refused = true) :
    s' = s := by
  obtain ⟨current, -, h⟩ := bind_eq_ok.mp h
  split_ifs at h
  · exact (ok_pair_inj h).2.symm
  · obtain ⟨_, -, h⟩ := bind_eq_ok.mp h
    obtain ⟨rfl, -⟩ := ok_pair_inj h
    cases hr

variable {namespace_ P : String} {t : Table String Bytes} {incarnation : Incarnation}
variable {codec : MetadataCodec} {c : Command}

theorem seal_stream_segment_refused {base end_ : UInt64}
    {content_id origin : String} {size : UInt64}
    (hr : (seal_stream_segment t P base end_ content_id origin size).1.refused = true) :
    (seal_stream_segment t P base end_ content_id origin size).2 = t := by
  by_cases hgate : seal_refused t P base end_
  · exact (seal_stream_segment_of_refused content_id origin size hgate).2
  · unfold seal_refused at hgate
    simp only [seal_stream_segment, if_neg hgate] at hr
    cases hr

theorem trim_stream_segment_refused {up_to_seq : UInt64}
    (hr : (trim_stream_segment t P up_to_seq).1.refused = true) :
    (trim_stream_segment t P up_to_seq).2 = t := by
  by_cases hgate : trim_refused t P up_to_seq
  · exact (trim_stream_segment_of_refused hgate).2
  · unfold trim_refused at hgate
    simp only [trim_stream_segment, if_neg hgate] at hr
    cases hr

theorem on_streams_refused {arm : Table String Bytes → CommandResult × Table String Bytes}
    (harm : (arm s.stream_entries).1.refused = true → (arm s.stream_entries).2 = s.stream_entries)
    (hr : (on_streams s arm).1.refused = true) : (on_streams s arm).2 = s := by
  unfold on_streams at hr ⊢
  rw [harm hr]

theorem write_versioned_refused {expected : Option Bytes}
    (h : write_versioned_in_txn s key value expected incarnation = .ok (r, s'))
    (hr : r.refused = true) : s' = s := by
  rcases write_versioned_ok h with ⟨-, rfl⟩ | ⟨-, _, _, -, -, -, rfl, -⟩
  · rfl
  · cases hr

theorem execute_arm_refused
    (h : execute_arm codec s c = .ok (r, s')) (hr : r.refused = true) : s' = s := by
  -- The pure arms answer a pair; `hpair` turns the equation into one about its components.
  have hpair {p : CommandResult × Store} (hp : Except.ok p = (.ok (r, s') : Except RaftError _))
      (href : p.1.refused = true → p.2 = s) : s' = s := by
    cases hp
    exact href hr
  cases c with
  | SetMetadata key value =>
    rw [set_metadata_answer h] at hr
    cases hr
  | DeleteMetadata key =>
    rw [delete_metadata_answer h] at hr
    cases hr
  | CasSetMetadata key value expected_version => exact cas_set_metadata_refused h hr
  | AdjustCounter key delta =>
    change adjust_counter s key delta = _ at h
    unfold adjust_counter at h
    split_ifs at h
    · exact (ok_pair_inj h).2.symm
    · obtain ⟨rfl, -⟩ := ok_pair_inj h
      cases hr
  | AppendStreamEntry P data => exact hpair h fun hp => by cases hp
  | SealStreamSegment P base end_ content_id origin size =>
    exact hpair h (on_streams_refused seal_stream_segment_refused)
  | TrimStreamSegment P up_to_seq trimmed =>
    exact hpair h (on_streams_refused trim_stream_segment_refused)
  | PutControlState namespace_ key value if_absent =>
    refine hpair h fun hr => ?_
    unfold put_control_state at hr ⊢
    split_ifs at hr ⊢
    · rfl
    · rfl
    · cases hr
  | DeleteControlState namespace_ key =>
    refine hpair h fun hr => ?_
    unfold delete_control_state at hr ⊢
    split_ifs at hr ⊢
    · rfl
    · cases hr
  | WriteVersionedMetadata key value expected incarnation => exact write_versioned_refused h hr
  | AdoptProtectedMetadata key expected_image incarnation =>
    rcases adopt_protected_ok h with ⟨-, rfl, -⟩ | ⟨-, rfl⟩ | ⟨rfl, -⟩
    · rfl
    · rfl
    · cases hr
  | RenameMetadata old_key new_key is_pas =>
    rcases rename_metadata_ok h with ⟨rfl, -⟩ | ⟨rfl, -⟩
    · rfl
    · cases hr
  | BindRecordGuard key expected_image guard_key guard_version incarnation =>
    rcases bind_record_guard_ok h with rfl | ⟨rfl, -⟩
    · rfl
    · cases hr
  | RetireRecordGuard key expected_version value incarnation =>
    rcases retire_record_guard_ok h with ⟨-, rfl⟩ | ⟨-, -, _, _, -, rfl, -⟩
    · rfl
    · cases hr
  | AdmitRecordIoOwner key expected_version =>
    rcases admit_record_io_ok h with ⟨-, rfl⟩ | ⟨rfl, -⟩
    · rfl
    · cases hr
  | GuardedRecord guard_version mutation =>
    cases mutation with
    | ReplaceMetadata key value expected incarnation => exact write_versioned_refused h hr
    | Append P data => exact hpair h fun hp => by cases hp
    | Seal P base end_ content_id origin size =>
      exact hpair h (on_streams_refused seal_stream_segment_refused)
    | Trim P up_to_seq trimmed => exact hpair h (on_streams_refused trim_stream_segment_refused)
  | Noop => exact hpair h fun _ => rfl
  | AcquireLock | ReleaseLock | ForceReleaseLock | ExtendLock => cases h

/-! ## The transaction -/

theorem execute_refused
    (h : execute_metadata_in_txn codec s c = .ok (r, s')) (hr : r.refused = true) : s' = s := by
  rcases execute_cases h with ⟨-, rfl⟩ | ⟨-, -, harm⟩
  · rfl
  · exact execute_arm_refused harm hr

end NexusVfs
