/-
Advisory locks across a restart: `raft/zone_registry.rs` and `raft/node.rs`.

The locks live in memory. A restart takes the lock image of the stored snapshot and
re-applies every committed entry the log still holds; lock commands skip the
`last_applied` guard. The model is one node with its stored log, its state machine and
the index up to which Raft has handed out entries. No step reads `committed`, the
commands of all committed entries.
-/
import NexusVfs.RaftStorage
import NexusVfs.StateMachine

namespace NexusVfs

open List Runs Option

/-! ## What a command does to the locks -/

def lock_effect (l : LockState) (c : Command) : LockState :=
  match apply_lock l c with
  | some (_, l') => l'
  | none => l

/-- The fold of the lock commands of a log, from no locks at all. -/
def locks_after (commands : List Command) : LockState := commands.foldl lock_effect LockState.new

variable {codec : MetadataCodec}

theorem apply_advisory {m m' : FullStateMachine} {index : UInt64}
    {c : Command} {r : CommandResult} (h : apply codec m index c = .ok (r, m')) :
    m'.advisory = lock_effect m.advisory c := by
  unfold lock_effect
  by_cases hc : c.is_lock_command = true
  · obtain ⟨l, hl, rfl⟩ := apply_lock_cases hc h
    rw [hl]
  · have hc := Bool.eq_false_iff.mpr hc
    rw [apply_lock_eq_none.mpr hc]
    rcases apply_cases hc h with ⟨-, -, rfl⟩ | ⟨-, store, -, rfl⟩
    · rfl
    · rfl

/-! ## The node -/

structure Node where
  storage : RaftStorage Command Snapshot
  machine : FullStateMachine
  /-- the last index Raft has handed out; a restart sets it back to `first_index - 1` -/
  applied : ℕ
  committed : List Command

namespace Node

def new : Node := ⟨.new, .fresh, 0, []⟩

def commit (n : Node) : ℕ := n.storage.hard_state.commit

/-- The first half of `maybe_snapshot_and_compact`: the state machine at its own mark is stored
under that index, if the log still holds the entry. -/
def store_snapshot (n : Node) : RaftStorage Command Snapshot :=
  if n.storage.first_index ≤ n.machine.last_applied.toNat then
    match n.storage.storage_term n.machine.last_applied.toNat (snapshot .fresh) with
    | .ok term =>
      n.storage.store_snapshot ⟨n.machine.last_applied.toNat, term, snapshot n.machine⟩
    | .error _ => n.storage
  else n.storage

/-- `maybe_snapshot_and_compact` stores a snapshot now: the log holds the entry at the mark. -/
def stores_snapshot (n : Node) : Bool :=
  decide (n.storage.first_index ≤ n.machine.last_applied.toNat) &&
    (n.storage.get_entry n.machine.last_applied.toNat).isSome

def rehydrate (storage : RaftStorage Command Snapshot) (m : FullStateMachine) : FullStateMachine :=
  match storage.storage_snapshot 0 (snapshot .fresh) with
  | .ok snap => if 0 < snap.index then restore_snapshot m snap.data else m
  | .error _ => m

end Node

inductive NodeOp where
  | commit (term : ℕ) (command : Command)
  | apply
  | store_snapshot
  | compact
  | restart

/-- One step of the node. `none` where the step is not available: nothing left to apply, a snapshot
before all committed entries are applied, a failure of the database. -/
def node_step (codec : MetadataCodec) (n : Node) : NodeOp → Option (Option CommandResult × Node)
  | .commit term c =>
    -- Indices are `u64`.
    if n.storage.last_index_impl + 1 < 2 ^ 64 then
      some (none, { n with
        storage := (n.storage.append [⟨n.storage.last_index_impl + 1, term, c⟩]).set_hard_state
          { n.storage.hard_state with commit := n.storage.last_index_impl + 1 }
        committed := n.committed ++ [c] })
    else none
  | .apply =>
    if n.applied < n.commit then
      match n.storage.get_entry (n.applied + 1) with
      | none => none
      | some e =>
        match apply codec n.machine (UInt64.ofNat e.index) e.data with
        | .ok (r, m) => some (some r, { n with machine := m, applied := n.applied + 1 })
        | .error _ => none
    else none
  | .store_snapshot =>
    -- The driver gets there after a ready whose committed entries have all been applied.
    if n.applied = n.commit then some (none, { n with storage := n.store_snapshot }) else none
  | .compact =>
    match n.storage.stored_snapshot with
    | none => none
    | some snap =>
      if snap.index = n.machine.last_applied.toNat then
        some (none, { n with storage := n.storage.compact (n.machine.last_applied.toNat + 1) })
      else none
  | .restart =>
    match FullStateMachine.new n.machine.store with
    | .ok m => some (none, { n with
        machine := Node.rehydrate n.storage m, applied := n.storage.first_index - 1 })
    | .error _ => none

/-- The commands in the log from `lo` through the commit index. -/
def stored_commands (st : RaftStorage Command Snapshot) (lo : ℕ) : List Command :=
  (range' lo (st.hard_state.commit + 1 - lo)).filterMap fun k =>
    (st.get_entry k).map Entry.data

/-- Re-applying from `first_index` on, instead of from behind the stored snapshot on, ends in the
same lock state. -/
def ReplayNeutral (st : RaftStorage Command Snapshot) : Prop :=
  ∀ snap, st.stored_snapshot = some snap →
    (stored_commands st st.first_index).foldl lock_effect snap.data.advisory =
      (stored_commands st (snap.index + 1)).foldl lock_effect snap.data.advisory

/-- The lock commands that a restart re-applies although the stored snapshot covers them leave the
snapshot's lock image as it is. -/
def OverlapInert (st : RaftStorage Command Snapshot) : Prop :=
  ∀ snap, st.stored_snapshot = some snap → ∀ k e, k ≤ snap.index → st.get_entry k = some e →
    lock_effect snap.data.advisory e.data = snap.data.advisory

/-- The restarts of a run happen where the overlap is inert. -/
def RestartsInert (n : Node) (op : NodeOp) : Prop := op = .restart → OverlapInert n.storage

/-! ## What every step keeps -/

/-- A stored snapshot covers a beginning of the log, and its lock image is the fold of that part. -/
structure Covers (snap : RaftSnapshot Snapshot) (first_index : ℕ) (committed : List Command) :
    Prop where
  positive : 0 < snap.index
  index_le : snap.index ≤ committed.length
  first_le : first_index ≤ snap.index + 1
  mark : snap.data.last_applied.toNat = snap.index
  locks : snap.data.advisory = locks_after (committed.take snap.index)

structure NodeInv (n : Node) : Prop where
  log : n.storage.Contiguous n.committed.length
  data : ∀ k e, n.storage.entries.get k = some e → n.committed[k - 1]? = some e.data
  commit : n.commit = n.committed.length
  bound : n.committed.length < 2 ^ 64
  applied_le : n.applied ≤ n.committed.length
  mark : n.applied ≤ n.machine.last_applied.toNat
  unsnapshotted : n.storage.stored_snapshot = none → n.storage.first_index = 1
  snapshot : ∀ snap, n.storage.stored_snapshot = some snap →
    Covers snap n.storage.first_index n.committed

/-- `Covers` without the locks. -/
structure Spans (snap : RaftSnapshot Snapshot) (first_index length : ℕ) : Prop where
  positive : 0 < snap.index
  index_le : snap.index ≤ length
  first_le : first_index ≤ snap.index + 1
  mark : snap.data.last_applied.toNat = snap.index

/-- The part of `NodeInv` that is about the log and the indices. It holds whatever the lock images
are. -/
structure LogInv (n : Node) : Prop where
  log : n.storage.Contiguous n.committed.length
  data : ∀ k e, n.storage.entries.get k = some e → n.committed[k - 1]? = some e.data
  commit : n.commit = n.committed.length
  bound : n.committed.length < 2 ^ 64
  applied_le : n.applied ≤ n.committed.length
  mark : n.applied ≤ n.machine.last_applied.toNat
  unsnapshotted : n.storage.stored_snapshot = none → n.storage.first_index = 1
  snapshot : ∀ snap, n.storage.stored_snapshot = some snap →
    Spans snap n.storage.first_index n.committed.length

variable {n : Node}

theorem nodeInv_iff :
    NodeInv n ↔ LogInv n ∧ ∀ snap, n.storage.stored_snapshot = some snap →
      snap.data.advisory = locks_after (n.committed.take snap.index) := by
  constructor
  · intro h
    refine ⟨⟨h.log, h.data, h.commit, h.bound, h.applied_le, h.mark, h.unsnapshotted, ?_⟩, ?_⟩
    · intro snap hsnap
      obtain ⟨hpos, hindex, hfirst, hmark, -⟩ := h.snapshot snap hsnap
      exact ⟨hpos, hindex, hfirst, hmark⟩
    · intro snap hsnap
      exact (h.snapshot snap hsnap).locks
  · rintro ⟨h, hlocks⟩
    refine ⟨h.log, h.data, h.commit, h.bound, h.applied_le, h.mark, h.unsnapshotted, ?_⟩
    intro snap hsnap
    obtain ⟨hpos, hindex, hfirst, hmark⟩ := h.snapshot snap hsnap
    exact ⟨hpos, hindex, hfirst, hmark, hlocks snap hsnap⟩

theorem NodeInv.logInv (h : NodeInv n) : LogInv n := (nodeInv_iff.mp h).1

/-- The lock state the node arrives at once it has applied everything that is committed. -/
def Node.pending (n : Node) : LockState :=
  (n.committed.drop n.applied).foldl lock_effect n.machine.advisory

/-- The node is on its way to the fold of the whole log. -/
def OnCourse (n : Node) : Prop := n.pending = locks_after n.committed

theorem Node.pending_of_applied (h : NodeInv n) (hall : n.applied = n.commit) :
    n.pending = n.machine.advisory := by
  rw [Node.pending, hall, h.commit, drop_length]
  rfl

theorem NodeInv.new : NodeInv .new where
  log := .new
  data k e he := by
    cases he
  commit := rfl
  bound := by decide
  applied_le := Nat.le_refl 0
  mark := Nat.le_refl 0
  unsnapshotted _ := rfl
  snapshot snap h := by cases h

theorem locks_after_append (cs ds : List Command) :
    locks_after (cs ++ ds) = ds.foldl lock_effect (locks_after cs) := by
  rw [locks_after, foldl_append, ← locks_after]

section Steps

variable {codec : MetadataCodec} {n n' : Node} {r : Option CommandResult}

/-! ### What each step does -/

variable {term : ℕ} {c : Command}

theorem node_commit (hstep : node_step codec n (.commit term c) = some (r, n')) :
    n.storage.last_index_impl + 1 < 2 ^ 64 ∧ n' = { n with
      storage := (n.storage.append [⟨n.storage.last_index_impl + 1, term, c⟩]).set_hard_state
        { n.storage.hard_state with commit := n.storage.last_index_impl + 1 }
      committed := n.committed ++ [c] } := by
  unfold node_step at hstep
  dsimp only at hstep
  split_ifs at hstep with hb
  cases hstep
  exact ⟨hb, rfl⟩

theorem node_apply (h : LogInv n) (hstep : node_step codec n .apply = some (r, n')) :
    ∃ c answer m, n.committed[n.applied]? = some c ∧
      apply codec n.machine (UInt64.ofNat (n.applied + 1)) c = .ok (answer, m) ∧
      r = some answer ∧ n' = { n with machine := m, applied := n.applied + 1 } := by
  unfold node_step at hstep
  dsimp only at hstep
  split_ifs at hstep with hlt
  cases he : n.storage.get_entry (n.applied + 1) with
  | none => rw [he] at hstep; cases hstep
  | some e =>
    rw [he] at hstep
    dsimp only at hstep
    have hindex : e.index = n.applied + 1 := h.log.keyed _ e he
    have hdata := h.data _ e he
    rw [hindex] at hstep
    cases ha : apply codec n.machine (UInt64.ofNat (n.applied + 1)) e.data with
    | error err => rw [ha] at hstep; cases hstep
    | ok p =>
      rw [ha] at hstep
      cases hstep
      exact ⟨e.data, p.1, p.2, hdata, ha, rfl, rfl⟩

theorem node_store_snapshot (hstep : node_step codec n .store_snapshot = some (r, n')) :
    n.applied = n.commit ∧ n' = { n with storage := n.store_snapshot } := by
  unfold node_step at hstep
  dsimp only at hstep
  split_ifs at hstep with hall
  cases hstep
  exact ⟨hall, rfl⟩

theorem node_compact (hstep : node_step codec n .compact = some (r, n')) :
    ∃ snap, n.storage.stored_snapshot = some snap ∧
      n' = { n with storage := n.storage.compact (snap.index + 1) } := by
  unfold node_step at hstep
  cases hsnap : n.storage.stored_snapshot with
  | none => rw [hsnap] at hstep; cases hstep
  | some snap =>
    rw [hsnap] at hstep
    dsimp only at hstep
    split_ifs at hstep with hi
    rw [← hi] at hstep
    cases hstep
    exact ⟨snap, rfl, rfl⟩

theorem node_restart (hstep : node_step codec n .restart = some (r, n')) :
    ∃ m, FullStateMachine.new n.machine.store = .ok m ∧
      n' = { n with machine := Node.rehydrate n.storage m, applied := n.storage.first_index - 1 } := by
  unfold node_step at hstep
  cases hnew : FullStateMachine.new n.machine.store with
  | error err => rw [hnew] at hstep; cases hstep
  | ok m =>
    rw [hnew] at hstep
    cases hstep
    exact ⟨m, rfl, rfl⟩

variable {st : RaftStorage Command Snapshot} {snap : RaftSnapshot Snapshot} {k : ℕ} {op : NodeOp}

theorem rehydrate_of_none (m : FullStateMachine)
    (h : st.stored_snapshot = none) : Node.rehydrate st m = m := by
  unfold Node.rehydrate RaftStorage.storage_snapshot
  rw [h]
  rfl

theorem rehydrate_of_some (m : FullStateMachine)
    (h : st.stored_snapshot = some snap) (hpos : 0 < snap.index) :
    Node.rehydrate st m = restore_snapshot m snap.data := by
  unfold Node.rehydrate RaftStorage.storage_snapshot
  rw [h]
  dsimp only
  rw [if_neg (Nat.not_lt_zero _)]
  dsimp only
  rw [if_pos hpos]

theorem stored_snapshot_compact (st : RaftStorage Command Snapshot) (k : ℕ) :
    (st.compact k).stored_snapshot = st.stored_snapshot ∧ (st.compact k).hard_state = st.hard_state := by
  unfold RaftStorage.compact
  split_ifs
  · exact ⟨rfl, rfl⟩
  · exact ⟨rfl, rfl⟩

/-! ### The log and the indices -/

variable (h : LogInv n)
include h

theorem LogInv.index_toNat (hk : k ≤ n.committed.length) :
    (UInt64.ofNat k).toNat = k := UInt64.toNat_ofNat_of_lt' (Nat.lt_of_le_of_lt hk h.bound)

theorem LogInv.commit_step
    (hstep : node_step codec n (.commit term c) = some (r, n')) : LogInv n' := by
  obtain ⟨hb, rfl⟩ := node_commit hstep
  rw [h.log.last_index] at hb ⊢
  have hlen : (n.committed ++ [c]).length = n.committed.length + 1 := length_append
  have hbatch : RaftStorage.Consecutive (n.committed.length + 1)
      [(⟨n.committed.length + 1, term, c⟩ : Entry Command)] := by
    intro j e he
    cases j with
    | zero =>
      cases he
      rfl
    | succ j => cases he
  have hlog := h.log.append hbatch h.log.first_le (Nat.le_refl _)
  rw [length_singleton, Nat.add_sub_cancel, Nat.max_eq_right (Nat.le_succ _)] at hlog
  refine ⟨?_, ?_, hlen.symm, ?_, ?_, h.mark, h.unsnapshotted, ?_⟩
  · rw [hlen]
    exact ⟨hlog.present, hlog.keyed, hlog.first_le, hlog.positive⟩
  · intro k e he
    have he : (n.storage.append [⟨n.committed.length + 1, term, c⟩]).entries.get k = some e := he
    rw [RaftStorage.get_append hbatch, length_singleton] at he
    by_cases hk : n.committed.length + 1 ≤ k ∧ k < n.committed.length + 1 + 1
    · have hkl : k = n.committed.length + 1 := by omega
      rw [if_pos hk, hkl, Nat.sub_self] at he
      cases he
      rw [hkl, Nat.add_sub_cancel, getElem?_append_right (Nat.le_refl _), Nat.sub_self]
      rfl
    · rw [if_neg hk] at he
      exact getElem?_append_left (List.getElem?_eq_some_iff.mp (h.data k e he)).1 ▸
        h.data k e he
  · rw [hlen]
    exact hb
  · rw [hlen]
    exact Nat.le_succ_of_le h.applied_le
  · intro snap hsnap
    obtain ⟨hpos, hindex, hfirst, hmark⟩ := h.snapshot snap hsnap
    refine ⟨hpos, ?_, hfirst, hmark⟩
    rw [hlen]
    exact Nat.le_succ_of_le hindex

theorem LogInv.apply_step (hstep : node_step codec n .apply = some (r, n')) : LogInv n' := by
  obtain ⟨c, answer, m, hc, ha, -, rfl⟩ := node_apply h hstep
  have hlt : n.applied + 1 ≤ n.committed.length := (List.getElem?_eq_some_iff.mp hc).1
  have hmark : n.applied + 1 ≤ m.last_applied.toNat := by
    rw [apply_mark ha, h.index_toNat hlt]
    exact Nat.le_max_right _ _
  exact ⟨h.log, h.data, h.commit, h.bound, hlt, hmark, h.unsnapshotted, h.snapshot⟩

theorem store_snapshot_cases (hall : n.applied = n.commit) :
    (n.stores_snapshot = false ∧ n.store_snapshot = n.storage) ∨
    (n.stores_snapshot = true ∧ ∃ term, n.machine.last_applied.toNat = n.committed.length ∧
      n.storage.first_index ≤ n.committed.length ∧
      n.store_snapshot = n.storage.store_snapshot ⟨n.committed.length, term, snapshot n.machine⟩) := by
  unfold Node.store_snapshot Node.stores_snapshot
  by_cases hfirst : n.storage.first_index ≤ n.machine.last_applied.toNat
  · rw [if_pos hfirst]
    unfold RaftStorage.storage_term
    rw [if_neg (Nat.not_lt.mpr hfirst)]
    cases he : n.storage.get_entry n.machine.last_applied.toNat with
    | none => exact .inl ⟨Bool.and_false _, rfl⟩
    | some e =>
      -- the log holds the entry, so the mark is not past the end; it is not behind it either
      have hin := (h.log.present n.machine.last_applied.toNat).mp (by
        rw [RaftStorage.get_entry] at he
        rw [he]
        rfl)
      have hmark := h.mark
      rw [hall, h.commit] at hmark
      have heq : n.machine.last_applied.toNat = n.committed.length := Nat.le_antisymm hin.2 hmark
      rw [heq] at hfirst ⊢
      refine .inr ⟨?_, e.term, rfl, hfirst, rfl⟩
      rw [decide_eq_true hfirst]
      rfl
  · rw [if_neg hfirst]
    refine .inl ⟨?_, rfl⟩
    rw [decide_eq_false hfirst]
    rfl

theorem LogInv.store_snapshot_step
    (hstep : node_step codec n .store_snapshot = some (r, n')) : LogInv n' := by
  obtain ⟨hall, rfl⟩ := node_store_snapshot hstep
  rcases store_snapshot_cases h hall with ⟨-, hsame⟩ | ⟨-, term, hmark, hfirst, hstored⟩
  · rw [hsame]
    exact h
  · rw [hstored]
    have hcommit : n.storage.hard_state.commit = n.committed.length := h.commit
    have hcov : (n.storage.store_snapshot ⟨n.committed.length, term,
        NexusVfs.snapshot n.machine⟩).hard_state.commit = n.committed.length := by
      unfold RaftStorage.store_snapshot RaftStorage.covering_hard_state
      rw [hcommit, if_neg (Nat.lt_irrefl _)]
    refine ⟨⟨h.log.present, h.log.keyed, h.log.first_le, h.log.positive⟩, h.data, hcov, h.bound,
      h.applied_le, h.mark, (fun hnone => by cases hnone), fun snap hsnap => ?_⟩
    cases hsnap
    exact ⟨Nat.lt_of_lt_of_le h.log.positive hfirst, Nat.le_refl _, Nat.le_succ_of_le hfirst, hmark⟩

theorem LogInv.compact_step (hstep : node_step codec n .compact = some (r, n')) : LogInv n' := by
  obtain ⟨snap, hsnap, rfl⟩ := node_compact hstep
  have hc := h.snapshot snap hsnap
  obtain ⟨hstored, hhard⟩ := stored_snapshot_compact n.storage (snap.index + 1)
  have hfirst : (n.storage.compact (snap.index + 1)).first_index = snap.index + 1 := by
    rw [RaftStorage.first_index_compact, Nat.max_eq_right hc.first_le]
  have hlog := h.log.compact (snap.index + 1)
  rw [Nat.add_sub_cancel, Nat.max_eq_left hc.index_le] at hlog
  refine ⟨hlog, fun k e he => h.data k e (RaftStorage.get_of_get_compact he), ?_, h.bound,
    h.applied_le, h.mark, fun hnone => ?_, fun snap' hsnap' => ?_⟩
  · exact (congrArg HardState.commit hhard).trans h.commit
  · rw [hstored, hsnap] at hnone
    cases hnone
  · rw [hstored, hsnap] at hsnap'
    cases hsnap'
    exact ⟨hc.positive, hc.index_le, Nat.le_of_eq hfirst, hc.mark⟩

theorem LogInv.restart_step (hstep : node_step codec n .restart = some (r, n')) : LogInv n' := by
  obtain ⟨m, -, rfl⟩ := node_restart hstep
  have hle := h.log.first_le
  -- compaction never passes the stored snapshot, so no entry above its index is missing
  have hmark : n.storage.first_index - 1 ≤ (Node.rehydrate n.storage m).last_applied.toNat := by
    cases hsnap : n.storage.stored_snapshot with
    | none =>
      rw [h.unsnapshotted hsnap]
      exact Nat.zero_le _
    | some snap =>
      have hc := h.snapshot snap hsnap
      have hfirst := hc.first_le
      rw [rehydrate_of_some m hsnap hc.positive]
      have hlast : (restore_snapshot m snap.data).last_applied.toNat = snap.index := hc.mark
      omega
  refine ⟨h.log, h.data, h.commit, h.bound, ?_, hmark, h.unsnapshotted, h.snapshot⟩
  dsimp only
  omega

theorem LogInv.step (hstep : node_step codec n op = some (r, n')) : LogInv n' := by
  cases op with
  | commit term c => exact h.commit_step hstep
  | apply => exact h.apply_step hstep
  | store_snapshot => exact h.store_snapshot_step hstep
  | compact => exact h.compact_step hstep
  | restart => exact h.restart_step hstep

omit h

/-! ### The locks -/

theorem commit_step (h : NodeInv n) (hstep : node_step codec n (.commit term c) = some (r, n')) :
    NodeInv n' ∧ n'.committed = n.committed ++ [c] ∧ n'.pending = lock_effect n.pending c := by
  have hlog := h.logInv.step hstep
  obtain ⟨-, rfl⟩ := node_commit hstep
  refine ⟨nodeInv_iff.mpr ⟨hlog, fun snap hsnap => ?_⟩, rfl, ?_⟩
  · have hc := h.snapshot snap hsnap
    rw [take_append_of_le_length hc.index_le, hc.locks]
  · unfold Node.pending
    rw [drop_append_of_le_length h.applied_le, foldl_append]
    rfl

theorem apply_step_node (h : NodeInv n) (hstep : node_step codec n .apply = some (r, n')) :
    NodeInv n' ∧ n'.committed = n.committed ∧ n'.pending = n.pending := by
  have hlog := h.logInv.step hstep
  obtain ⟨c, answer, m, hc, ha, -, rfl⟩ := node_apply h.logInv hstep
  refine ⟨nodeInv_iff.mpr ⟨hlog, (nodeInv_iff.mp h).2⟩, rfl, ?_⟩
  obtain ⟨hlt, hhead⟩ := List.getElem?_eq_some_iff.mp hc
  unfold Node.pending
  rw [drop_eq_getElem_cons hlt, foldl_cons, hhead, apply_advisory ha]

theorem store_snapshot_step (h : NodeInv n) (hs : OnCourse n)
    (hstep : node_step codec n .store_snapshot = some (r, n')) :
    NodeInv n' ∧ n'.committed = n.committed ∧ n'.pending = n.pending := by
  have hlog := h.logInv.step hstep
  obtain ⟨hall, rfl⟩ := node_store_snapshot hstep
  refine ⟨nodeInv_iff.mpr ⟨hlog, fun snap hsnap => ?_⟩, rfl, rfl⟩
  rcases store_snapshot_cases h.logInv hall with ⟨-, hsame⟩ | ⟨-, term, -, -, hstored⟩
  · rw [hsame] at hsnap
    exact (h.snapshot snap hsnap).locks
  · rw [hstored] at hsnap
    cases hsnap
    -- everything committed is applied, so the locks are where the node was heading
    have hlocks := Node.pending_of_applied h hall
    rw [take_length]
    exact hlocks.symm.trans hs

theorem compact_step (h : NodeInv n) (hstep : node_step codec n .compact = some (r, n')) :
    NodeInv n' ∧ n'.committed = n.committed ∧ n'.pending = n.pending := by
  have hlog := h.logInv.step hstep
  obtain ⟨snap, -, rfl⟩ := node_compact hstep
  refine ⟨nodeInv_iff.mpr ⟨hlog, fun snap' hsnap' => ?_⟩, rfl, rfl⟩
  rw [(stored_snapshot_compact n.storage _).1] at hsnap'
  exact (h.snapshot snap' hsnap').locks

theorem stored_commands_eq (h : NodeInv n) {lo : ℕ} (hlo : n.storage.first_index ≤ lo) :
    stored_commands n.storage lo = n.committed.drop (lo - 1) := by
  have hpos := h.log.positive
  unfold stored_commands
  rw [show n.storage.hard_state.commit = n.committed.length from h.commit]
  -- on the number of entries left
  generalize hd : n.committed.length + 1 - lo = d
  induction d generalizing lo with
  | zero =>
    rw [range'_zero, filterMap_nil, drop_eq_nil_of_le (by omega)]
  | succ d ih =>
    have hlt : lo - 1 < n.committed.length := by omega
    have hsome := (h.log.present lo).mpr ⟨hlo, by omega⟩
    obtain ⟨e, he⟩ := isSome_iff_exists.mp hsome
    have hdata : n.committed[lo - 1] = e.data :=
      some.inj ((getElem?_eq_getElem hlt).symm.trans (h.data lo e he))
    have hrest := @ih (lo + 1) (Nat.le_succ_of_le hlo) (by omega)
    have hentry : (n.storage.get_entry lo).map Entry.data = some e.data := by
      rw [RaftStorage.get_entry, he]
      rfl
    rw [range'_succ, filterMap_cons, hentry, drop_eq_getElem_cons hlt, hdata,
      show lo - 1 + 1 = lo by omega]
    exact congrArg _ hrest

theorem new_advisory {store : Store} {m : FullStateMachine}
    (h : FullStateMachine.new store = .ok m) : m.advisory = LockState.new := by
  unfold FullStateMachine.new at h
  split at h
  · cases h
    rfl
  · split at h
    · cases h
      rfl
    · cases h

/-- A restarted node is on its way to the fold of the log exactly if re-applying is neutral. -/
theorem restart_step (h : NodeInv n) (hstep : node_step codec n .restart = some (r, n')) :
    NodeInv n' ∧ n'.committed = n.committed ∧ (OnCourse n' ↔ ReplayNeutral n.storage) := by
  have hlog := h.logInv.step hstep
  obtain ⟨m, hnew, rfl⟩ := node_restart hstep
  refine ⟨nodeInv_iff.mpr ⟨hlog, (nodeInv_iff.mp h).2⟩, rfl, ?_⟩
  unfold OnCourse Node.pending
  cases hsnap : n.storage.stored_snapshot with
  | none =>
    -- the whole log is there, and it is replayed from no locks
    have hone : n.storage.first_index - 1 = 0 := by rw [h.unsnapshotted hsnap]
    rw [rehydrate_of_none m hsnap, new_advisory hnew, hone]
    refine ⟨fun _ snap hsome => ?_, fun _ => rfl⟩
    rw [hsnap] at hsome
    cases hsome
  | some snap =>
    -- the image is the locks up to `snap.index`; the log may reach further back than that
    have hc := h.snapshot snap hsnap
    have hbehind : (n.committed.drop snap.index).foldl lock_effect snap.data.advisory =
        locks_after n.committed := by
      rw [hc.locks, ← locks_after_append, take_append_drop]
    rw [rehydrate_of_some m hsnap hc.positive, ← hbehind]
    unfold ReplayNeutral
    rw [stored_commands_eq h (Nat.le_refl _)]
    constructor
    · intro heq snap' hsnap'
      rw [hsnap] at hsnap'
      cases hsnap'
      rw [stored_commands_eq h hc.first_le]
      exact heq
    · intro hneutral
      have heq := hneutral snap hsnap
      rw [stored_commands_eq h hc.first_le] at heq
      exact heq

theorem foldl_of_inert {l : LockState} {cs : List Command} (h : ∀ c ∈ cs, lock_effect l c = l) :
    cs.foldl lock_effect l = l := by
  induction cs with
  | nil => rfl
  | cons c cs ih =>
    rw [foldl_cons, h c mem_cons_self]
    exact ih fun c' hc' => h c' (mem_cons_of_mem _ hc')

theorem overlap_inert (h : NodeInv n) (hinert : OverlapInert n.storage)
    (hsnap : n.storage.stored_snapshot = some snap)
    (hmem : c ∈ (n.committed.take snap.index).drop (n.storage.first_index - 1)) :
    lock_effect snap.data.advisory c = snap.data.advisory := by
  have hpos := h.log.positive
  obtain ⟨j, hj⟩ := mem_iff_getElem?.mp hmem
  rw [getElem?_drop, getElem?_take] at hj
  split_ifs at hj with hlt
  -- the command of index `first_index + j`, which the log still holds
  have hget : n.committed[n.storage.first_index + j - 1]? = some c := by
    rw [← hj]
    congr 1
    omega
  have hbound := (List.getElem?_eq_some_iff.mp hget).1
  obtain ⟨e, he⟩ := isSome_iff_exists.mp
    ((h.log.present (n.storage.first_index + j)).mpr ⟨Nat.le_add_right _ _, by omega⟩)
  have hdata := h.data _ e he
  rw [hget] at hdata
  rw [some.inj hdata]
  exact hinert snap hsnap _ e (by omega) he

theorem OverlapInert.neutral (h : NodeInv n) (hinert : OverlapInert n.storage) :
    ReplayNeutral n.storage := by
  intro snap hsnap
  have hc := h.snapshot snap hsnap
  have hle := hc.first_le
  rw [stored_commands_eq h (Nat.le_refl _), stored_commands_eq h hc.first_le, Nat.add_sub_cancel]
  -- the overlap, and then what is behind the snapshot
  have hsplit : n.committed.drop (n.storage.first_index - 1) =
      (n.committed.take snap.index).drop (n.storage.first_index - 1) ++ n.committed.drop snap.index := by
    have hlen : n.storage.first_index - 1 ≤ (n.committed.take snap.index).length := by
      rw [length_take]
      have hindex := hc.index_le
      omega
    rw [← drop_append_of_le_length hlen, take_append_drop]
  have hsame : ((n.committed.take snap.index).drop (n.storage.first_index - 1)).foldl lock_effect
      snap.data.advisory = snap.data.advisory := by
    refine foldl_of_inert fun c hmem => ?_
    exact overlap_inert h hinert hsnap hmem
  rw [hsplit, foldl_append, hsame]

theorem node_step_inv (h : NodeInv n ∧ OnCourse n) (hok : RestartsInert n op)
    (hstep : node_step codec n op = some (r, n')) : NodeInv n' ∧ OnCourse n' := by
  obtain ⟨hinv, hs⟩ := h
  have hcourse (hc : n'.committed = n.committed) (hp : n'.pending = n.pending) : OnCourse n' := by
    rw [OnCourse, hp, hc]
    exact hs
  cases op with
  | commit term c =>
    obtain ⟨hinv', hc, hp⟩ := commit_step hinv hstep
    refine ⟨hinv', ?_⟩
    rw [OnCourse, hp, hc, locks_after_append, hs]
    rfl
  | apply =>
    obtain ⟨hinv', hc, hp⟩ := apply_step_node hinv hstep
    exact ⟨hinv', hcourse hc hp⟩
  | store_snapshot =>
    obtain ⟨hinv', hc, hp⟩ := store_snapshot_step hinv hs hstep
    exact ⟨hinv', hcourse hc hp⟩
  | compact =>
    obtain ⟨hinv', hc, hp⟩ := compact_step hinv hstep
    exact ⟨hinv', hcourse hc hp⟩
  | restart =>
    obtain ⟨hinv', -, hiff⟩ := restart_step hinv hstep
    exact ⟨hinv', hiff.mpr ((hok rfl).neutral hinv)⟩

/-- Replaying leads where the node was heading. -/
theorem replay_on_course {answers : List (Option CommandResult)} (h : NodeInv n)
    (hrun : run (node_step codec) n (replicate k .apply) = some (answers, n')) :
    NodeInv n' ∧ (OnCourse n' ↔ OnCourse n) := by
  induction k generalizing n answers with
  | zero =>
    cases hrun
    exact ⟨h, Iff.rfl⟩
  | succ k ih =>
    obtain ⟨r, n₁, answers₁, hstep, hrest, -⟩ := run_cons.mp hrun
    obtain ⟨hinv, hc, hp⟩ := apply_step_node h hstep
    obtain ⟨hinv', hiff⟩ := ih hinv hrest
    refine ⟨hinv', hiff.trans ?_⟩
    unfold OnCourse
    rw [hc, hp]

end Steps

/-! ## Whole runs -/

/-- One restart and the replay after it: the locks are the fold of the log again exactly if
re-applying is neutral. -/
theorem replayed_locks_iff {n' : Node} {k : ℕ}
    {answers : List (Option CommandResult)} (h : NodeInv n)
    (hrun : run (node_step codec) n (.restart :: replicate k .apply) = some (answers, n'))
    (hall : n'.applied = n'.commit) :
    n'.machine.advisory = locks_after n'.committed ↔ ReplayNeutral n.storage := by
  obtain ⟨r, n₁, answers₁, hrestart, hrest, -⟩ := run_cons.mp hrun
  obtain ⟨hinv₁, -, hneutral⟩ := restart_step h hrestart
  obtain ⟨hinv', hcourse⟩ := replay_on_course hinv₁ hrest
  rw [← Node.pending_of_applied hinv' hall]
  exact hcourse.trans hneutral

/-- **Locks across restarts.** In every run of a node whose restarts happen where the overlap of log
and snapshot is inert, the locks are the fold of the whole committed log whenever everything
committed is applied, in particular after every restart and full replay. -/
theorem locks_survive_restarts (codec : MetadataCodec) (ops : List NodeOp)
    (answers : List (Option CommandResult)) (n : Node)
    (hok : along (node_step codec) RestartsInert .new ops)
    (hrun : run (node_step codec) .new ops = some (answers, n)) (hall : n.applied = n.commit) :
    n.machine.advisory = locks_after n.committed := by
  have hinv : NodeInv n ∧ OnCourse n :=
    run_invariant (fun n => NodeInv n ∧ OnCourse n) (fun _ _ _ _ h hop hs => node_step_inv h hop hs)
      ⟨.new, rfl⟩ hok hrun
  rw [← Node.pending_of_applied hinv.1 hall]
  exact hinv.2

/-- A lock behind a compacted snapshot, then a snapshot that is not compacted before the crash. -/
def held_across_restart : List NodeOp :=
  [.commit 1 (.AcquireLock "/l" "h1" 1 60 "a" 0), .apply, .store_snapshot, .compact,
    .commit 1 .Noop, .apply, .store_snapshot]

theorem locks_survive_restarts_held :
    ∃ answers n, run (node_step .unreadable) .new (held_across_restart ++ [.restart, .apply]) =
        some (answers, n) ∧
      n.applied = n.commit ∧ n.machine.advisory = locks_after n.committed := by
  refine exists_run (fun _ n => n.applied = n.commit) (by decide +kernel) ?_
  intro answers n hn hall
  refine ⟨hall, locks_survive_restarts .unreadable _ answers n ?_ hn hall⟩
  refine along_append.mpr ⟨along_of_forall_mem fun n op hop heq => ?_, fun rs t ht => ?_⟩
  · subst heq
    simp [held_across_restart] at hop
  · -- the log holds entry 2 alone, and it is no lock command
    have hoverlap : (run (node_step .unreadable) .new held_across_restart).all
        (fun p => (p.2.storage.entries.scan fun _ => true).all
          fun row => !row.2.data.is_lock_command) = true := by
      decide +kernel
    rw [ht] at hoverlap
    refine ⟨fun _ snap _ k e _ he => ?_, fun _ _ _ => along_of_forall_mem fun n op hop heq => ?_⟩
    · have hrow := all_eq_true.mp hoverlap (k, e) (Table.mem_scan.mpr ⟨rfl, he⟩)
      rw [lock_effect, apply_lock_eq_none.mpr (by simpa using hrow)]
    · subst heq
      simp at hop

/-- An acquire that is refused for its capacity, then room for it, then a snapshot. -/
def refused_then_snapshot : List NodeOp :=
  [.commit 1 (.AcquireLock "/l" "h1" 1 60 "a" 0), .commit 1 (.AcquireLock "/l" "h2" 2 60 "b" 1),
    .commit 1 (.ReleaseLock "/l" "h1"), .commit 1 (.AcquireLock "/l" "h3" 2 60 "c" 3),
    .apply, .apply, .apply, .apply, .store_snapshot]

/-- **A crash between storing the snapshot and compacting grants a refused lock.** The replay meets
`h2`'s acquire with `h3` as the only holder, and lets it in. -/
theorem refused_acquire_granted_by_replay :
    ∃ answers n, run (node_step .unreadable) .new
        (refused_then_snapshot ++ [.restart, .apply, .apply, .apply, .apply]) = some (answers, n) ∧
      n.applied = n.commit ∧
      (n.machine.advisory.get_lock "/l").map (fun e => e.holders.map HolderInfo.lock_id) =
        some ["h3", "h2"] ∧
      n.machine.advisory ≠ locks_after n.committed := by
  refine exists_run (fun _ n => n.applied = n.commit ∧
    (n.machine.advisory.get_lock "/l").map (fun e => e.holders.map HolderInfo.lock_id) =
      some ["h3", "h2"] ∧
    ((locks_after n.committed).get_lock "/l").map (fun e => e.holders.map HolderInfo.lock_id) =
      some ["h3"]) (by decide +kernel) ?_
  rintro answers n - ⟨happlied, hholders, hfold⟩
  refine ⟨happlied, hholders, fun heq => ?_⟩
  rw [heq, hfold] at hholders
  exact absurd hholders (by decide)

end NexusVfs
