/-
The write-ahead log of EC writes: `raft/replication_log.rs`.

`append` takes the next sequence number (`reserve`) and only then commits the row
(`write_row`); other threads can come between. Sequence numbers are natural numbers. The
watermark and the counters on disk, which only a restart reads back, are left out.
-/
import NexusVfs.Command

namespace NexusVfs

/-- An entry of the log. Its command is represented by itself, not by its bytes. -/
structure ReplicationEntry where
  command : Command
  timestamp : UInt64
  deriving DecidableEq

structure ReplicationLog where
  rows : Table ℕ ReplicationEntry
  next_seq : ℕ
  earliest_seq : ℕ

namespace ReplicationLog

def new : ReplicationLog := ⟨∅, 1, 1⟩

/-- `next_seq.fetch_add(1)`: the number is `log.next_seq`. -/
def reserve (log : ReplicationLog) : ReplicationLog := { log with next_seq := log.next_seq + 1 }

def write_row (log : ReplicationLog) (seq : ℕ) (entry : ReplicationEntry) : ReplicationLog :=
  { log with rows := log.rows.insert seq entry }

def remove_entry (log : ReplicationLog) (seq : ℕ) : ReplicationLog :=
  { log with rows := log.rows.remove seq }

def max_seq (log : ReplicationLog) : ℕ := log.next_seq

/-- The range scan of `drain_unreplicated`, between bounds that were loaded before. -/
def drain_unreplicated (log : ReplicationLog) (earliest max : ℕ) : List (ℕ × ReplicationEntry) :=
  if max ≤ earliest then []
  else log.rows.scan fun seq => decide (earliest ≤ seq) && decide (seq ≤ max - 1)

def compact (log : ReplicationLog) (up_to_seq : ℕ) : ReplicationLog :=
  if up_to_seq < log.earliest_seq then log
  else
    { log with
      rows := log.rows.remove_all
        (List.range' log.earliest_seq (up_to_seq + 1 - log.earliest_seq))
      earliest_seq := up_to_seq + 1 }

theorem mem_drain {log : ReplicationLog} {earliest max seq : ℕ} {entry : ReplicationEntry} :
    (seq, entry) ∈ log.drain_unreplicated earliest max ↔
      (earliest ≤ seq ∧ seq < max) ∧ log.rows.get seq = some entry := by
  unfold drain_unreplicated
  by_cases hempty : max ≤ earliest
  · rw [if_pos hempty]
    constructor
    · intro h
      cases h
    · rintro ⟨hrange, -⟩
      omega
  · rw [if_neg hempty, Table.mem_scan, Bool.and_eq_true, decide_eq_true_iff, decide_eq_true_iff]
    have hlast : seq ≤ max - 1 ↔ seq < max := by omega
    rw [hlast]

theorem sorted_drain (log : ReplicationLog) (earliest max : ℕ) :
    (log.drain_unreplicated earliest max).Pairwise fun a b => a.1 < b.1 := by
  unfold drain_unreplicated
  split_ifs
  · exact .nil
  · exact (log.rows.sorted_scan _).imp fun h => Nat.compare_eq_lt.mp h

theorem earliest_compact (log : ReplicationLog) (up_to_seq : ℕ) :
    (log.compact up_to_seq).earliest_seq = max log.earliest_seq (up_to_seq + 1) := by
  unfold compact
  by_cases hlt : up_to_seq < log.earliest_seq
  · rw [if_pos hlt]
    omega
  · rw [if_neg hlt]
    dsimp only
    omega

@[simp] theorem next_seq_compact (log : ReplicationLog) (up_to_seq : ℕ) :
    (log.compact up_to_seq).next_seq = log.next_seq := by
  unfold compact
  split_ifs
  · rfl
  · rfl

theorem get_compact_of_le {log : ReplicationLog} {up_to_seq seq : ℕ}
    (h : (log.compact up_to_seq).earliest_seq ≤ seq) :
    (log.compact up_to_seq).rows.get seq = log.rows.get seq := by
  rw [earliest_compact] at h
  unfold compact
  by_cases hlt : up_to_seq < log.earliest_seq
  · rw [if_pos hlt]
  · rw [if_neg hlt]
    rw [Table.get_remove_all, if_neg]
    rw [List.mem_range'_1]
    omega

end ReplicationLog

end NexusVfs
