/-
A node recovers what its log says: `raft/zone_registry.rs` and `raft/node.rs`.

A restart reopens the tables, or puts the image of the stored snapshot in their
place, and applies again what the log still holds. Whenever the crash comes, the
tables stand for a beginning of the log: for as many entries as the mark of the
machine counts, each executed once from the empty store.
-/
import NexusVfs.EcRestart

namespace NexusVfs

open Words Runs Table

/-- The restarts find an inert overlap, and no entry that is executed looks at a row that snapshots
leave out. -/
def Undisturbed (n : Node) (op : NodeOp) : Prop :=
  RestartsInert n op ∧ (op = .apply → n.machine.last_applied.toNat = n.applied →
    ∀ c, n.committed[n.applied]? = some c → c.reads_internal n.machine.store = false)

/-- The tables are what the first `k` commands of the log leave, each executed once. -/
def StandsFor (codec : MetadataCodec) (commands : List Command) (k : ℕ) (s : Store) : Prop :=
  ∃ t, replayed codec Store.empty (commands.take k) = some t ∧ AgreeOnPaths t s

/-- What the tables stand for: as they are, as a restart reopens them, and as the stored snapshot
brings them back. -/
structure Recovers (codec : MetadataCodec) (n : Node) : Prop where
  log : LogInv n
  mark_le : n.machine.last_applied.toNat ≤ n.committed.length
  tables : StandsFor codec n.committed n.machine.last_applied.toNat n.machine.store
  reopened : ∃ mark, FullStateMachine.new n.machine.store = .ok ⟨n.machine.store, .new, mark⟩ ∧
    mark.toNat ≤ n.committed.length ∧ StandsFor codec n.committed mark.toNat n.machine.store
  image : ∀ snap, n.storage.stored_snapshot = some snap →
    StandsFor codec n.committed snap.index (brought_back snap)

section Steps

variable {codec : MetadataCodec} {n n' : Node} {r : Option CommandResult} {c : Command}
variable {commands : List Command} {k : ℕ} {s : Store} {m m' : FullStateMachine} {index : UInt64}
variable {answer : CommandResult}

theorem StandsFor.append (h : StandsFor codec commands k s) (hk : k ≤ commands.length)
    (later : List Command) : StandsFor codec (commands ++ later) k s := by
  unfold StandsFor
  rw [List.take_append_of_le_length hk]
  exact h

theorem StandsFor.succ (h : StandsFor codec commands k m.store) (hc : commands[k]? = some c)
    (hreads : c.reads_internal m.store = false) (ha : apply codec m index c = .ok (answer, m'))
    (hfresh : m.last_applied < index) : StandsFor codec commands (k + 1) m'.store := by
  obtain ⟨t, ht, hagree⟩ := h
  rw [reads_internal_agree hagree] at hreads
  obtain ⟨t', ht', hagree'⟩ := replay_one_of_apply hagree (.inr hreads) ha hfresh
  refine ⟨t', ?_, hagree'⟩
  rw [List.take_add_one, hc, Option.toList_some, replayed_succ, ht, Option.bind_some, ht']

theorem new_put_marker (s : Store) (index : UInt64) :
    FullStateMachine.new (put_marker s index) = .ok ⟨put_marker s index, .new, index⟩ := by
  unfold FullStateMachine.new
  rw [put_marker, Store.metadata_put_metadata, get_insert_self]
  dsimp only
  rw [u64_from_to_be_bytes]

variable (h : Recovers codec n)
include h

theorem Recovers.apply_step (hok : Undisturbed n .apply)
    (hstep : node_step codec n .apply = some (r, n')) : Recovers codec n' := by
  have hlog := h.log.step hstep
  obtain ⟨c, answer, m, hc, ha, -, rfl⟩ := node_apply h.log hstep
  have hle := h.mark_le
  have hbound : n.applied + 1 ≤ n.committed.length := hlog.applied_le
  have hindex := h.log.index_toNat hbound
  have hmark := apply_mark ha
  have hbehind := h.log.mark
  obtain ⟨mark, hnew, hmark_le, hdisk⟩ := h.reopened
  by_cases hcaught : n.machine.last_applied.toNat = n.applied
  · -- the machine meets the entry for the first time since it was opened
    have hfresh : n.machine.last_applied < UInt64.ofNat (n.applied + 1) := by
      rw [UInt64.lt_iff_toNat_lt, hindex, hcaught]
      exact Nat.lt_succ_self _
    have hnext : m.last_applied.toNat = n.applied + 1 := by omega
    have htables := h.tables
    rw [hcaught] at htables
    have hsucc := htables.succ hc (hok.2 rfl hcaught c hc) ha hfresh
    refine ⟨hlog, by dsimp only; omega, ?_, ?_, h.image⟩
    · dsimp only
      rw [hnext]
      exact hsucc
    · by_cases hlock : c.is_lock_command = true
      · dsimp only
        rw [apply_again_store ha (.inl hlock)]
        exact ⟨mark, hnew, hmark_le, hdisk⟩
      · rcases apply_cases (Bool.eq_false_iff.mpr hlock) ha with ⟨hskip, -⟩ | ⟨-, store, -, rfl⟩
        · exact absurd hskip (UInt64.not_le.mpr hfresh)
        · refine ⟨_, new_put_marker store _, ?_, ?_⟩
          · rw [hindex]
            exact hbound
          · rw [hindex]
            exact hsucc
  · -- the tables have the entry already, and only its locks are applied again
    have hskip : UInt64.ofNat (n.applied + 1) ≤ n.machine.last_applied := by
      rw [UInt64.le_iff_toNat_le, hindex]
      omega
    have hstore := apply_again_store ha (.inr hskip)
    have hsame : m.last_applied.toNat = n.machine.last_applied.toNat := by omega
    refine ⟨hlog, by dsimp only; omega, ?_, ?_, h.image⟩
    · dsimp only
      rw [hstore, hsame]
      exact h.tables
    · dsimp only
      rw [hstore]
      exact ⟨mark, hnew, hmark_le, hdisk⟩

theorem Recovers.store_snapshot_step (hstep : node_step codec n .store_snapshot = some (r, n')) :
    Recovers codec n' := by
  have hlog := h.log.step hstep
  obtain ⟨hall, rfl⟩ := node_store_snapshot hstep
  refine ⟨hlog, h.mark_le, h.tables, h.reopened, fun snap hsnap => ?_⟩
  rcases store_snapshot_cases h.log hall with ⟨-, hsame⟩ | ⟨-, term, hmark, -, hstored⟩
  · exact h.image snap (hsame ▸ hsnap)
  · rw [hstored] at hsnap
    cases hsnap
    -- the image is taken of tables that stand for the whole log
    obtain ⟨t, ht, hagree⟩ := h.tables
    rw [hmark] at ht
    exact ⟨t, ht, hagree.trans (brought_back_agrees n.machine _ term).symm⟩

theorem Recovers.restart_step (hstep : node_step codec n .restart = some (r, n')) :
    Recovers codec n' := by
  have hlog := h.log.step hstep
  obtain ⟨m, hnew, rfl⟩ := node_restart hstep
  cases hsnap : n.storage.stored_snapshot with
  | none =>
    obtain ⟨mark, hopen, hle, hdisk⟩ := h.reopened
    obtain rfl := Except.ok.inj (hopen.symm.trans hnew)
    have hmachine := rehydrate_of_none (⟨n.machine.store, .new, mark⟩ : FullStateMachine) hsnap
    refine ⟨hlog, ?_, ?_, ?_, h.image⟩
    all_goals
      dsimp only
      rw [hmachine]
    · exact hle
    · exact hdisk
    · exact ⟨mark, hopen, hle, hdisk⟩
  | some snap =>
    have hspan := h.log.snapshot snap hsnap
    have hmachine := rehydrate_of_some m hsnap hspan.positive
    have himage := h.image snap hsnap
    have hindex : (restore_snapshot m snap.data).last_applied.toNat = snap.index := hspan.mark
    refine ⟨hlog, ?_, ?_, ?_, h.image⟩
    all_goals
      dsimp only
      rw [hmachine]
    · rw [hindex]
      exact hspan.index_le
    · rw [hindex]
      exact himage
    · refine ⟨snap.data.last_applied, new_put_marker _ _, ?_, ?_⟩
      · rw [hspan.mark]
        exact hspan.index_le
      · rw [hspan.mark]
        exact himage

theorem Recovers.step {op : NodeOp} (hok : Undisturbed n op)
    (hstep : node_step codec n op = some (r, n')) : Recovers codec n' := by
  cases op with
  | commit term c =>
    have hlog := h.log.step hstep
    obtain ⟨-, rfl⟩ := node_commit hstep
    obtain ⟨mark, hnew, hle, hdisk⟩ := h.reopened
    have hgrow {k : ℕ} (hk : k ≤ n.committed.length) : k ≤ (n.committed ++ [c]).length := by
      rw [List.length_append]
      omega
    exact ⟨hlog, hgrow h.mark_le, h.tables.append h.mark_le [c],
      ⟨mark, hnew, hgrow hle, hdisk.append hle [c]⟩,
      fun snap hsnap => (h.image snap hsnap).append (h.log.snapshot snap hsnap).index_le [c]⟩
  | apply => exact h.apply_step hok hstep
  | store_snapshot => exact h.store_snapshot_step hstep
  | compact =>
    have hlog := h.log.step hstep
    obtain ⟨snap, -, rfl⟩ := node_compact hstep
    refine ⟨hlog, h.mark_le, h.tables, h.reopened, fun snap' hsnap' => ?_⟩
    rw [(stored_snapshot_compact n.storage _).1] at hsnap'
    exact h.image snap' hsnap'
  | restart => exact h.restart_step hstep

end Steps

theorem Recovers.new (codec : MetadataCodec) : Recovers codec .new where
  log := NodeInv.new.logInv
  mark_le := Nat.le_refl 0
  tables := ⟨_, rfl, .refl _⟩
  reopened := ⟨0, rfl, Nat.le_refl 0, _, rfl, .refl _⟩
  image snap h := by cases h

/-- A row and a lock behind a compacted snapshot, a new version of the row, a crash, the replay. -/
def rewritten_across_restart : List NodeOp :=
  [.commit 1 (.SetMetadata "/a" [1]), .apply, .commit 1 (.AcquireLock "/l" "h1" 1 60 "a" 0), .apply,
    .store_snapshot, .compact, .commit 1 (.SetMetadata "/a" [2]), .apply, .restart, .apply]

end NexusVfs
