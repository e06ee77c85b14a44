/-
The Raft log after a crash: `raft/storage.rs` and `maybe_snapshot_and_compact`.

Every operation is one redb write transaction, except `compact`, which removes the
entries in one and moves `first_index` in another. The only state that no completed
operation leaves is the one between these two. Raft asks for `term(first_index - 1)`,
which `Storage::term` answers for the index of the latest snapshot only.
-/
import NexusVfs.RaftStorage

namespace NexusVfs.RaftStorage

open Runs

variable {α δ κ : Type}

/-! ## Transactions -/

/-- What is on disk; the membership has a key of its own. -/
structure Disk (α δ κ : Type) where
  storage : RaftStorage α δ
  conf_state : κ

def compact_entries (st : RaftStorage α δ) (compact_index : ℕ) : RaftStorage α δ :=
  if compact_index ≤ st.first_index then st
  else
    { st with
      entries := st.entries.remove_all
        (List.range' st.first_index (compact_index - st.first_index)) }

def compact_first (st : RaftStorage α δ) (compact_index : ℕ) : RaftStorage α δ :=
  if compact_index ≤ st.first_index then st else { st with first_index := compact_index }

/-- What the process does until the next point at which it may stop. -/
inductive DiskOp (α δ κ : Type) where
  | append (batch : List (Entry α))
  | set_hard_state (hs : HardState)
  | set_conf_state (cs : κ)
  | store_snapshot (snapshot : RaftSnapshot δ)
  | apply_snapshot (snapshot : RaftSnapshot δ) (conf_state : κ)
  | compact (compact_index : ℕ)
  /-- A `compact` that is stopped between its two transactions. -/
  | compact_stopped (compact_index : ℕ)
  /-- `store_snapshot`, and `compact` up to the snapshot, with no stop between them. -/
  | maybe_snapshot_and_compact (snapshot : RaftSnapshot δ)

def disk_step (d : Disk α δ κ) : DiskOp α δ κ → Option (Unit × Disk α δ κ)
  | .append batch => some ((), { d with storage := d.storage.append batch })
  | .set_hard_state hs => some ((), { d with storage := d.storage.set_hard_state hs })
  | .set_conf_state cs => some ((), { d with conf_state := cs })
  | .store_snapshot snapshot => some ((), { d with storage := d.storage.store_snapshot snapshot })
  | .apply_snapshot snapshot conf_state => some ((), ⟨d.storage.apply_snapshot snapshot, conf_state⟩)
  | .compact compact_index => some ((), { d with storage := d.storage.compact compact_index })
  | .compact_stopped compact_index =>
    some ((), { d with storage := d.storage.compact_entries compact_index })
  | .maybe_snapshot_and_compact snapshot =>
    let stored := d.storage.store_snapshot snapshot
    some ((), { d with storage := stored.compact (snapshot.index + 1) })

def Disk.new (conf_state : κ) : Disk α δ κ := ⟨RaftStorage.new, conf_state⟩

/-! ## Consistency -/

/-- The index in the metadata of the snapshot that `Storage::snapshot(0, 0)` returns. -/
def snapshot_index (st : RaftStorage α δ) : ℕ :=
  match st.stored_snapshot with
  | some snapshot => snapshot.index
  | none => 0

/-- What a reopened storage has to satisfy; `default` is the payload of the empty snapshot. -/
structure Consistent (default : δ) (st : RaftStorage α δ) : Prop where
  keys : ∀ k, (st.entries.get k).isSome ↔ st.first_index ≤ k ∧ k ≤ st.last_index_impl
  term : 1 < st.first_index → ∃ t, st.storage_term (st.first_index - 1) default = .ok t
  snapshot : 1 < st.first_index → st.first_index - 1 ≤ st.snapshot_index
  commit : st.snapshot_index ≤ st.hard_state.commit

variable {st : RaftStorage α δ}

variable {default : δ} {idx : ℕ} {d d' : Disk α δ κ} {op : DiskOp α δ κ} {r : Unit}

theorem term_below_iff (h : idx < st.first_index) :
    (∃ t, st.storage_term idx default = .ok t) ↔ st.snapshot_index = idx := by
  unfold storage_term storage_snapshot snapshot_index
  rw [if_pos h]
  cases st.stored_snapshot with
  | none => by_cases hidx : 0 = idx <;> simp [hidx]
  | some snapshot => by_cases hidx : snapshot.index = idx <;> simp [hidx]

theorem term_error {e : RaftStorageError}
    (he : st.storage_term idx default = .error e) (h : idx < st.first_index) : e = .Compacted := by
  unfold storage_term at he
  rw [if_pos h] at he
  split at he
  · split_ifs at he
    exact (Except.error.inj he).symm
  · exact (Except.error.inj he).symm

/-- Every entry is stored under its index, and the log starts at 1 or later. -/
structure Shaped (st : RaftStorage α δ) : Prop where
  keyed : ∀ k e, st.entries.get k = some e → e.index = k
  positive : 1 ≤ st.first_index

structure Covered (st : RaftStorage α δ) : Prop where
  term : 1 < st.first_index → st.snapshot_index + 1 = st.first_index
  commit : st.snapshot_index ≤ st.hard_state.commit

theorem Contiguous.shaped {last : ℕ} (h : st.Contiguous last) : st.Shaped :=
  ⟨h.keyed, h.positive⟩

theorem contiguous_of_keys (hshape : st.Shaped)
    (h : ∀ k, (st.entries.get k).isSome ↔ st.first_index ≤ k ∧ k ≤ st.last_index_impl) :
    st.Contiguous st.last_index_impl := by
  refine ⟨h, hshape.keyed, ?_, hshape.positive⟩
  unfold last_index_impl at h ⊢
  cases hk : st.entries.last_key with
  | none =>
    dsimp only
    omega
  | some k =>
    obtain ⟨hlo, -⟩ := (h k).mp (Table.last_key_eq_some hk).1
    dsimp only
    omega

theorem consistent_iff (hshape : st.Shaped) :
    st.Consistent default ↔ (∃ last, st.Contiguous last) ∧ st.Covered := by
  have hterm (h : 1 < st.first_index) : (∃ t, st.storage_term (st.first_index - 1) default = .ok t) ↔
      st.snapshot_index + 1 = st.first_index := by
    rw [term_below_iff (by omega)]
    omega
  constructor
  · intro h
    exact ⟨⟨_, contiguous_of_keys hshape h.keys⟩, fun hlt => (hterm hlt).mp (h.term hlt), h.commit⟩
  · rintro ⟨⟨last, hcont⟩, hcov⟩
    refine ⟨?_, fun hlt => (hterm hlt).mpr (hcov.term hlt), fun hlt => ?_, hcov.commit⟩
    · intro k
      rw [hcont.last_index]
      exact hcont.present k
    · have heq := hcov.term hlt
      omega

/-! ## One operation -/

theorem snapshot_index_compact (st : RaftStorage α δ) (compact_index : ℕ) :
    (st.compact compact_index).snapshot_index = st.snapshot_index := by
  unfold RaftStorage.compact
  split_ifs
  · rfl
  · rfl

theorem hard_state_compact (st : RaftStorage α δ) (compact_index : ℕ) :
    (st.compact compact_index).hard_state = st.hard_state := by
  unfold RaftStorage.compact
  split_ifs
  · rfl
  · rfl

theorem le_covering_commit (hs : HardState) (snapshot : RaftSnapshot δ) :
    snapshot.index ≤ (covering_hard_state hs snapshot).commit := by
  unfold covering_hard_state
  dsimp only
  split_ifs
  · exact Nat.le_refl _
  · omega

theorem get_compact_entries (st : RaftStorage α δ) (compact_index k : ℕ) :
    (st.compact_entries compact_index).entries.get k =
      if st.first_index ≤ k ∧ k < compact_index then none else st.entries.get k := by
  have hsame : (st.compact_entries compact_index).entries = (st.compact compact_index).entries := by
    unfold RaftStorage.compact compact_entries
    split_ifs
    · rfl
    · rfl
  rw [hsame, get_compact]

theorem compact_entries_fields (st : RaftStorage α δ) (compact_index : ℕ) :
    (st.compact_entries compact_index).first_index = st.first_index ∧
      (st.compact_entries compact_index).stored_snapshot = st.stored_snapshot ∧
      (st.compact_entries compact_index).hard_state = st.hard_state := by
  unfold compact_entries
  split_ifs <;> exact ⟨rfl, rfl, rfl⟩

/-- An append as the Raft core makes it: consecutive entries that continue the log or overwrite a part of
its end. -/
def Appends (st : RaftStorage α δ) (batch : List (Entry α)) : Prop :=
  ∃ i, Consecutive i batch ∧ st.first_index ≤ i ∧ i ≤ st.last_index_impl + 1

def AppendsInOrder (d : Disk α δ κ) : DiskOp α δ κ → Prop
  | .append batch => Appends d.storage batch
  | _ => True

/-- The compaction leaves nothing behind `compact_index`, or has nothing to do. -/
def LeavesNoGap (st : RaftStorage α δ) (compact_index : ℕ) : Prop :=
  compact_index ≤ st.first_index ∨ st.last_index_impl < compact_index

/-- What an operation has to meet, in the state before it. -/
def StopsWell (d : Disk α δ κ) : DiskOp α δ κ → Prop
  | .append _ | .set_conf_state _ | .apply_snapshot _ _ => True
  | .set_hard_state hs => d.storage.snapshot_index ≤ hs.commit
  -- a second snapshot, before the log has been compacted up to it
  | .store_snapshot snapshot => d.storage.first_index = 1 ∨ snapshot.index + 1 = d.storage.first_index
  | .compact compact_index =>
    compact_index ≤ d.storage.first_index ∨ compact_index = d.storage.snapshot_index + 1
  | .compact_stopped compact_index => LeavesNoGap d.storage compact_index
  | .maybe_snapshot_and_compact snapshot => d.storage.first_index ≤ snapshot.index + 1

theorem shaped_append (h : st.Shaped) {batch : List (Entry α)} (hb : Appends st batch) :
    (st.append batch).Shaped := by
  obtain ⟨i, hcons, -, -⟩ := hb
  refine ⟨fun k e he => ?_, h.positive⟩
  rw [get_append hcons] at he
  split_ifs at he with hk
  · have hindex := hcons _ e he
    omega
  · exact h.keyed k e he

theorem shaped_compact (h : st.Shaped) (compact_index : ℕ) : (st.compact compact_index).Shaped := by
  refine ⟨fun k e he => h.keyed k e (get_of_get_compact he), ?_⟩
  have hpos := h.positive
  rw [first_index_compact]
  omega

theorem shaped_compact_entries (h : st.Shaped) (compact_index : ℕ) :
    (st.compact_entries compact_index).Shaped := by
  refine ⟨fun k e he => ?_, by rw [(compact_entries_fields st compact_index).1]; exact h.positive⟩
  rw [get_compact_entries] at he
  split_ifs at he
  exact h.keyed k e he

theorem shaped_step (h : d.storage.Shaped)
    (hop : AppendsInOrder d op) (hstep : disk_step d op = some (r, d')) : d'.storage.Shaped := by
  cases op with
  | append batch =>
    cases hstep
    exact shaped_append h hop
  | set_hard_state hs | store_snapshot snapshot =>
    cases hstep
    exact ⟨h.keyed, h.positive⟩
  | set_conf_state cs =>
    cases hstep
    exact h
  | apply_snapshot snapshot conf_state =>
    cases hstep
    exact (Contiguous.apply_snapshot d.storage snapshot).shaped
  | compact compact_index =>
    cases hstep
    exact shaped_compact h compact_index
  | compact_stopped compact_index =>
    cases hstep
    exact shaped_compact_entries h compact_index
  | maybe_snapshot_and_compact snapshot =>
    cases hstep
    have hstored : (d.storage.store_snapshot snapshot).Shaped := ⟨h.keyed, h.positive⟩
    exact shaped_compact hstored _

section Step

variable {st : RaftStorage α δ} {last : ℕ} (h : st.Contiguous last)
include h

theorem store_snapshot_exact (snapshot : RaftSnapshot δ) :
    (∃ last, (st.store_snapshot snapshot).Contiguous last) ∧ (st.store_snapshot snapshot).Covered ↔
      st.first_index = 1 ∨ snapshot.index + 1 = st.first_index := by
  have hpos := h.positive
  constructor
  · rintro ⟨-, hcov'⟩
    by_cases hone : st.first_index = 1
    · exact .inl hone
    · exact .inr (hcov'.term (by change 1 < st.first_index; omega))
  · intro hok
    refine ⟨⟨last, h.present, h.keyed, h.first_le, h.positive⟩, fun hlt => ?_,
      le_covering_commit _ _⟩
    have hlt : 1 < st.first_index := hlt
    obtain hone | heq := hok
    · omega
    · exact heq

theorem compact_exact (hcov : st.Covered) (compact_index : ℕ) :
    (∃ last, (st.compact compact_index).Contiguous last) ∧ (st.compact compact_index).Covered ↔
      compact_index ≤ st.first_index ∨ compact_index = st.snapshot_index + 1 := by
  have hpos := h.positive
  constructor
  · rintro ⟨-, hcov'⟩
    by_cases hle : compact_index ≤ st.first_index
    · exact .inl hle
    · have hterm := hcov'.term
      rw [first_index_compact, snapshot_index_compact] at hterm
      exact .inr (by omega)
  · intro hok
    refine ⟨⟨_, h.compact compact_index⟩, fun hlt => ?_, ?_⟩
    · rw [first_index_compact] at hlt ⊢
      rw [snapshot_index_compact]
      have hterm := hcov.term
      omega
    · rw [snapshot_index_compact, hard_state_compact]
      exact hcov.commit

/-- Stopped between its transactions, a compaction leaves a log without a gap exactly if it leaves
an empty one. -/
theorem compact_stopped_exact (hcov : st.Covered) (compact_index : ℕ) :
    (∃ last, (st.compact_entries compact_index).Contiguous last) ∧
      (st.compact_entries compact_index).Covered ↔ LeavesNoGap st compact_index := by
  obtain ⟨hfirst, hsnap, hhs⟩ := compact_entries_fields st compact_index
  have hindex : (st.compact_entries compact_index).snapshot_index = st.snapshot_index := by
    unfold snapshot_index
    rw [hsnap]
  have hpos := h.positive
  unfold LeavesNoGap
  rw [h.last_index]
  constructor
  · rintro ⟨⟨last', h'⟩, -⟩
    by_contra hgap
    -- the old first entry is gone and the old last one is not
    have hgone : ((st.compact_entries compact_index).entries.get st.first_index).isSome = false := by
      rw [get_compact_entries, if_pos (by omega)]
      rfl
    have hkept : ((st.compact_entries compact_index).entries.get last).isSome := by
      rw [get_compact_entries, if_neg (by omega)]
      exact (h.present last).mpr (by omega)
    have hlast := (h'.present last).mp hkept
    have hfirst' := (h'.present st.first_index).mpr (by omega)
    rw [hgone] at hfirst'
    cases hfirst'
  · intro hok
    refine ⟨?_, ⟨by rw [hfirst, hindex]; exact hcov.term, by rw [hindex, hhs]; exact hcov.commit⟩⟩
    by_cases hle : compact_index ≤ st.first_index
    · rw [compact_entries, if_pos hle]
      exact ⟨last, h⟩
    · refine ⟨st.first_index - 1, fun k => ?_, fun k e he => ?_, by omega, by omega⟩
      · have hold := h.present k
        rw [get_compact_entries]
        split_ifs with hk
        · simp only [Option.isSome_none, Bool.false_eq_true, false_iff]
          omega
        · rw [hold]
          omega
      · rw [get_compact_entries] at he
        split_ifs at he
        exact h.keyed k e he

theorem snapshot_and_compact_exact (snapshot : RaftSnapshot δ) :
    (∃ last, ((st.store_snapshot snapshot).compact (snapshot.index + 1)).Contiguous last) ∧
      ((st.store_snapshot snapshot).compact (snapshot.index + 1)).Covered ↔
      st.first_index ≤ snapshot.index + 1 := by
  have hstored : (st.store_snapshot snapshot).Contiguous last :=
    ⟨h.present, h.keyed, h.first_le, h.positive⟩
  have hindex : (st.store_snapshot snapshot).snapshot_index = snapshot.index := rfl
  have hfirst : (st.store_snapshot snapshot).first_index = st.first_index := rfl
  constructor
  · rintro ⟨-, hcov'⟩
    have hterm := hcov'.term
    rw [first_index_compact, snapshot_index_compact] at hterm
    omega
  · intro hle
    refine ⟨⟨_, hstored.compact _⟩, fun hlt => ?_, ?_⟩
    · rw [first_index_compact, snapshot_index_compact, hindex, hfirst]
      omega
    · rw [snapshot_index_compact, hard_state_compact, hindex]
      exact le_covering_commit _ _

end Step

/-- From a consistent disk, an operation leaves a consistent one exactly if it meets `StopsWell`. -/
theorem consistent_step (default : δ)
    (hd : d.storage.Shaped ∧ d.storage.Consistent default) (hop : AppendsInOrder d op)
    (hstep : disk_step d op = some (r, d')) :
    (d'.storage.Shaped ∧ d'.storage.Consistent default) ↔ StopsWell d op := by
  have hshape := shaped_step hd.1 hop hstep
  obtain ⟨⟨last, h⟩, hcov⟩ := (consistent_iff hd.1).mp hd.2
  rw [consistent_iff hshape, and_iff_right hshape]
  cases op with
  | append batch =>
    cases hstep
    refine iff_of_true ⟨?_, hcov.term, hcov.commit⟩ trivial
    obtain ⟨i, hcons, hlo, hhi⟩ := hop
    rw [h.last_index] at hhi
    exact ⟨_, h.append hcons hlo hhi⟩
  | set_hard_state hs =>
    cases hstep
    refine ⟨fun hnew => hnew.2.commit, fun hcommit => ?_⟩
    exact ⟨⟨last, h.present, h.keyed, h.first_le, h.positive⟩, hcov.term, hcommit⟩
  | set_conf_state cs =>
    cases hstep
    exact iff_of_true ⟨⟨last, h⟩, hcov⟩ trivial
  | store_snapshot snapshot =>
    cases hstep
    exact store_snapshot_exact h snapshot
  | apply_snapshot snapshot conf_state =>
    cases hstep
    exact iff_of_true ⟨⟨_, Contiguous.apply_snapshot d.storage snapshot⟩, fun _ => rfl,
      le_covering_commit _ _⟩ trivial
  | compact compact_index =>
    cases hstep
    exact compact_exact h hcov compact_index
  | compact_stopped compact_index =>
    cases hstep
    exact compact_stopped_exact h hcov compact_index
  | maybe_snapshot_and_compact snapshot =>
    cases hstep
    exact snapshot_and_compact_exact h snapshot

/-! ## Runs -/

theorem consistent_new (default : δ) :
    (new : RaftStorage α δ).Shaped ∧ (new : RaftStorage α δ).Consistent default := by
  have hshape : (new : RaftStorage α δ).Shaped := Contiguous.new.shaped
  refine ⟨hshape, (consistent_iff hshape).mpr ⟨⟨0, Contiguous.new⟩, ?_, Nat.le_refl _⟩⟩
  intro hlt
  exact absurd hlt (Nat.lt_irrefl 1)

theorem disk_step_total (d : Disk α δ κ) (op : DiskOp α δ κ) :
    ∃ r d', disk_step d op = some (r, d') := by
  cases op <;> exact ⟨_, _, rfl⟩

/-- **Crash points.** Wherever a run stops, the storage is consistent: that is so exactly if every
step of the run meets `StopsWell` in the state before it. -/
theorem crash_consistent_iff (default : δ) (conf_state : κ) (ops : List (DiskOp α δ κ))
    (hops : along disk_step AppendsInOrder (Disk.new conf_state) ops) :
    (∀ before after results d, ops = before ++ after →
        run disk_step (Disk.new conf_state) before = some (results, d) →
        d.storage.Consistent default) ↔
      along disk_step StopsWell (Disk.new conf_state) ops := by
  have hiff := reached_iff_along (fun d : Disk α δ κ => d.storage.Shaped ∧ d.storage.Consistent default)
    disk_step_total (fun _ _ _ _ hd hop hstep => consistent_step default hd hop hstep)
    (consistent_new default) hops
  rw [← hiff]
  constructor
  · intro h before after results d hsplit hrun
    rw [hsplit] at hops
    refine ⟨?_, h before after results d hsplit hrun⟩
    exact run_invariant (fun d : Disk α δ κ => d.storage.Shaped)
      (fun _ _ _ _ hd hop hstep => shaped_step hd hop hstep) Contiguous.new.shaped
      (along_append.mp hops).1 hrun
  · intro h before after results d hsplit hrun
    exact (h before after results d hsplit hrun).2

/-! ### Two crash points -/

/-- `AppendsInOrder` as a test: the first entry of a batch says where it goes. -/
def appends_check (d : Disk α δ κ) : DiskOp α δ κ → Bool
  | .append (e :: batch) =>
    ((e :: batch).zipIdx.all fun p => decide (p.1.index = e.index + p.2)) &&
      decide (d.storage.first_index ≤ e.index) && decide (e.index ≤ d.storage.last_index_impl + 1)
  | .append [] => false
  | _ => true

theorem appends_of_check (d : Disk α δ κ) (op : DiskOp α δ κ) (h : appends_check d op = true) :
    AppendsInOrder d op := by
  cases op with
  | append batch =>
    cases batch with
    | nil => cases h
    | cons e batch =>
      simp only [appends_check, Bool.and_eq_true, decide_eq_true_eq, List.all_eq_true] at h
      obtain ⟨⟨hcons, hlo⟩, hhi⟩ := h
      refine ⟨e.index, fun j e' hj => ?_, hlo, hhi⟩
      exact hcons (e', j) (List.mem_zipIdx_iff_getElem?.mpr hj)
  | _ => trivial

/-- Three entries are committed, a snapshot is stored at the second, and the process stops inside the
compaction up to it. -/
def stopped_compaction : List (DiskOp Unit Unit Unit) :=
  [.append three_entries, .set_hard_state ⟨1, 0, 3⟩, .store_snapshot ⟨2, 1, ()⟩, .compact_stopped 3]

/-- A log that was compacted up to its second entry gets a snapshot at its third, and the process
stops before the next compaction. -/
def second_snapshot : List (DiskOp Unit Unit Unit) :=
  [.append three_entries, .set_hard_state ⟨1, 0, 3⟩, .store_snapshot ⟨2, 1, ()⟩, .compact 3,
    .store_snapshot ⟨3, 1, ()⟩]

/-- **What a stopped process leaves.** In the first run, entry 3 with `first_index = 1`; in the second
one, `first_index = 3` and no term for index 2. -/
theorem stopped_snapshot_and_compact :
    (∃ results d, run disk_step (Disk.new ()) stopped_compaction = some (results, d) ∧
      d.storage.first_index = 1 ∧ d.storage.last_index_impl = 3 ∧ d.storage.entries.get 1 = none ∧
      ¬ d.storage.Consistent ()) ∧
    ∃ results d, run disk_step (Disk.new ()) second_snapshot = some (results, d) ∧
      d.storage.first_index = 3 ∧ d.storage.storage_term 2 () = .error .Compacted ∧
      ¬ d.storage.Consistent () := by
  constructor
  · refine exists_run (fun _ d => d.storage.first_index = 1 ∧ d.storage.last_index_impl = 3 ∧
      d.storage.entries.get 1 = none) (by decide +kernel) ?_
    rintro results d - ⟨hfirst, hlast, hgone⟩
    refine ⟨hfirst, hlast, hgone, fun h => ?_⟩
    have hkey := (h.keys 1).mpr (by rw [hfirst, hlast]; omega)
    rw [hgone] at hkey
    cases hkey
  · refine exists_run (fun _ d => d.storage.first_index = 3 ∧ d.storage.snapshot_index = 3)
      (by decide +kernel) ?_
    rintro results d - ⟨hfirst, hindex⟩
    have hterm : ¬ ∃ t, d.storage.storage_term 2 () = .ok t := by
      rw [term_below_iff (by omega)]
      omega
    refine ⟨hfirst, ?_, fun h => hterm ?_⟩
    · cases ht : d.storage.storage_term 2 () with
      | ok t => exact absurd ⟨t, ht⟩ hterm
      | error e => exact congrArg Except.error (term_error ht (by omega))
    · have hfound := h.term (by omega)
      rwa [hfirst] at hfound

/-- Two rounds of snapshot and compaction, each followed by entries that stay in the log. -/
def two_rounds : List (DiskOp Unit Unit Unit) :=
  [.append three_entries, .set_hard_state ⟨1, 0, 3⟩, .maybe_snapshot_and_compact ⟨2, 1, ()⟩,
    .append [⟨4, 2, ()⟩, ⟨5, 2, ()⟩], .set_conf_state (), .set_hard_state ⟨2, 0, 5⟩,
    .maybe_snapshot_and_compact ⟨4, 2, ()⟩]

def stops_well_check (d : Disk α δ κ) : DiskOp α δ κ → Bool
  | .append _ | .set_conf_state _ | .apply_snapshot _ _ => true
  | .set_hard_state hs => decide (d.storage.snapshot_index ≤ hs.commit)
  | .maybe_snapshot_and_compact snapshot => decide (d.storage.first_index ≤ snapshot.index + 1)
  | _ => false

theorem stops_well_of_check (d : Disk α δ κ) (op : DiskOp α δ κ) (h : stops_well_check d op = true) :
    StopsWell d op := by
  cases op with
  | append batch => trivial
  | set_conf_state cs => trivial
  | apply_snapshot snapshot conf_state => trivial
  | set_hard_state hs | maybe_snapshot_and_compact snapshot =>
    simpa [StopsWell, stops_well_check] using h
  | _ => cases h

theorem crash_consistent_two_rounds :
    along disk_step AppendsInOrder (Disk.new ()) two_rounds ∧
      ∀ before after results d, two_rounds = before ++ after →
        run disk_step (Disk.new ()) before = some (results, d) → d.storage.Consistent () := by
  have happends : along disk_step AppendsInOrder (Disk.new ()) two_rounds :=
    along_of_check appends_of_check (by decide +kernel)
  refine ⟨happends, (crash_consistent_iff () () two_rounds happends).mpr ?_⟩
  exact along_of_check stops_well_of_check (by decide +kernel)

end NexusVfs.RaftStorage
