/-
The Raft log on disk: `raft/storage.rs`.

Entries are kept under their index, next to the first index, the hard state and the last
snapshot. `append` removes nothing. Indices are natural numbers. An entry's protobuf
bytes are represented by the entry; its encoded size is a parameter.
-/
import NexusVfs.Table
import NexusVfs.Runs

namespace NexusVfs

open List Runs Table Option

/-! ## The storage -/

structure Entry (α : Type) where
  index : ℕ
  term : ℕ
  data : α
  deriving DecidableEq, Repr

structure HardState where
  term : ℕ
  vote : ℕ
  commit : ℕ
  deriving DecidableEq, Repr

structure RaftSnapshot (δ : Type) where
  index : ℕ
  term : ℕ
  data : δ

inductive RaftStorageError where
  | Compacted
  | Unavailable
  | SnapshotTemporarilyUnavailable
  deriving DecidableEq, Repr

structure RaftStorage (α δ : Type) where
  entries : Table ℕ (Entry α)
  first_index : ℕ
  hard_state : HardState
  stored_snapshot : Option (RaftSnapshot δ)

namespace RaftStorage

variable {α δ : Type}

def new : RaftStorage α δ := ⟨∅, 1, ⟨0, 0, 0⟩, none⟩

def last_index_impl (st : RaftStorage α δ) : ℕ :=
  match st.entries.last_key with
  | some k => k
  | none => st.first_index - 1

def append (st : RaftStorage α δ) (batch : List (Entry α)) : RaftStorage α δ :=
  { st with entries := st.entries.insert_all (batch.map fun e => (e.index, e)) }

def set_hard_state (st : RaftStorage α δ) (hs : HardState) : RaftStorage α δ :=
  { st with hard_state := hs }

/-- `hs.commit` and `hs.term` moved up to cover a snapshot; the vote stays. -/
def covering_hard_state (hs : HardState) (snapshot : RaftSnapshot δ) : HardState :=
  { hs with
    commit := if hs.commit < snapshot.index then snapshot.index else hs.commit
    term := if hs.term < snapshot.term then snapshot.term else hs.term }

/-- The log stays as it is. -/
def store_snapshot (st : RaftStorage α δ) (snapshot : RaftSnapshot δ) : RaftStorage α δ :=
  { st with
    stored_snapshot := some snapshot
    hard_state := covering_hard_state st.hard_state snapshot }

/-- The log is cleared and starts behind the snapshot. -/
def apply_snapshot (st : RaftStorage α δ) (snapshot : RaftSnapshot δ) : RaftStorage α δ where
  entries := ∅
  first_index := snapshot.index + 1
  hard_state := covering_hard_state st.hard_state snapshot
  stored_snapshot := some snapshot

def compact (st : RaftStorage α δ) (compact_index : ℕ) : RaftStorage α δ :=
  if compact_index ≤ st.first_index then st
  else
    { st with
      entries := st.entries.remove_all
        (range' st.first_index (compact_index - st.first_index))
      first_index := compact_index }

def get_entry (st : RaftStorage α δ) (index : ℕ) : Option (Entry α) := st.entries.get index

/-- The loop of `Storage::entries` over the remaining indices. -/
def entries_loop (st : RaftStorage α δ) (entry_size : Entry α → ℕ) (max_size : ℕ) :
    List ℕ → List (Entry α) → ℕ → Except RaftStorageError (List (Entry α))
  | [], entries, _ => .ok entries
  | idx :: rest, entries, size =>
    match st.get_entry idx with
    | none => .error .Unavailable
    | some entry =>
      -- Always include at least one entry
      if entries ≠ [] ∧ max_size < size + entry_size entry then .ok entries
      else st.entries_loop entry_size max_size rest (entries ++ [entry]) (size + entry_size entry)

def storage_entries (st : RaftStorage α δ) (entry_size : Entry α → ℕ) (low high : ℕ)
    (max_size : Option ℕ) : Except RaftStorageError (List (Entry α)) :=
  if low < st.first_index then .error .Compacted
  else if st.last_index_impl + 1 < high then .error .Unavailable
  else st.entries_loop entry_size (max_size.getD (2 ^ 64 - 1)) (range' low (high - low)) [] 0

def storage_snapshot (st : RaftStorage α δ) (request_index : ℕ) (default : δ) :
    Except RaftStorageError (RaftSnapshot δ) :=
  match st.stored_snapshot with
  | some snapshot =>
    if snapshot.index < request_index then .error .SnapshotTemporarilyUnavailable else .ok snapshot
  | none =>
    if request_index = 0 then .ok ⟨0, 0, default⟩ else .error .SnapshotTemporarilyUnavailable

def storage_term (st : RaftStorage α δ) (idx : ℕ) (default : δ) : Except RaftStorageError ℕ :=
  if idx < st.first_index then
    match st.storage_snapshot 0 default with
    | .ok snapshot => if snapshot.index = idx then .ok snapshot.term else .error .Compacted
    | .error _ => .error .Compacted
  else
    match st.get_entry idx with
    | some entry => .ok entry.term
    | none => .error .Unavailable

/-! ## The stored log -/

def log (st : RaftStorage α δ) : List (Entry α) :=
  (range' st.first_index (st.last_index_impl + 1 - st.first_index)).filterMap st.entries.get

/-- The indices in use are `first_index, …, last`, and every entry is under its index. -/
structure Contiguous (st : RaftStorage α δ) (last : ℕ) : Prop where
  present : ∀ k, (st.entries.get k).isSome ↔ st.first_index ≤ k ∧ k ≤ last
  keyed : ∀ k e, st.entries.get k = some e → e.index = k
  first_le : st.first_index ≤ last + 1
  positive : 1 ≤ st.first_index

variable {st : RaftStorage α δ} {i last : ℕ}

theorem Contiguous.last_index (h : st.Contiguous last) : st.last_index_impl = last := by
  unfold last_index_impl
  cases hk : st.entries.last_key with
  | some k =>
    obtain ⟨hmem, hmax⟩ := last_key_eq_some hk
    obtain ⟨hlo, hhi⟩ := (h.present k).mp hmem
    have hlast : (st.entries.get last).isSome := (h.present last).mpr ⟨by omega, Nat.le_refl _⟩
    have hle := Nat.isLE_compare.mp (hmax last hlast)
    dsimp only
    omega
  | none =>
    have hempty : ¬ (st.first_index ≤ last ∧ last ≤ last) := by
      rw [← h.present last, last_key_eq_none hk]
      intro hnone
      cases hnone
    have hfirst := h.first_le
    dsimp only
    omega

theorem Contiguous.new : (new : RaftStorage α δ).Contiguous 0 := by
  refine ⟨fun k => ?_, fun k e he => ?_, Nat.le_refl _, Nat.le_refl _⟩
  · rw [RaftStorage.new, get_empty]
    constructor
    · intro h
      cases h
    · rintro ⟨h1, h2⟩
      dsimp only at h1
      omega
  · rw [RaftStorage.new, get_empty] at he
    cases he

/-! ## What one operation does to the log -/

def Consecutive (i : ℕ) (batch : List (Entry α)) : Prop :=
  ∀ j e, batch[j]? = some e → e.index = i + j

variable {e : Entry α} {batch : List (Entry α)} {low high : ℕ} {entry_size : Entry α → ℕ}
variable {st' : RaftStorage α δ} {r : Unit}

theorem Consecutive.tail (h : Consecutive i (e :: batch)) : Consecutive (i + 1) batch := by
  intro j e' hj
  have hnext := h (j + 1) e' hj
  omega

theorem get_append (h : Consecutive i batch) (k : ℕ) :
    (st.append batch).entries.get k =
      if i ≤ k ∧ k < i + batch.length then batch[k - i]? else st.entries.get k := by
  -- entry by entry; a later entry of the batch has a larger index
  induction batch generalizing i st with
  | nil =>
    rw [if_neg (by simp only [length_nil]; omega)]
    rfl
  | cons e batch ih =>
    have hhead : e.index = i := h 0 e rfl
    have hstep := @ih { st with entries := st.entries.insert e.index e } (i + 1) h.tail
    refine hstep.trans ?_
    rw [get_insert, hhead, length_cons]
    by_cases hk : k = i
    · rw [if_neg (by omega), if_pos hk, if_pos (by omega), hk, Nat.sub_self]
      rfl
    · by_cases hrest : i + 1 ≤ k ∧ k < i + 1 + batch.length
      · have hsub : k - i = (k - (i + 1)) + 1 := by omega
        rw [if_pos hrest, if_pos (by omega), hsub]
        rfl
      · rw [if_neg hrest, if_neg hk, if_neg (by omega)]

theorem Contiguous.append (h : st.Contiguous last)
    (hb : Consecutive i batch) (hlo : st.first_index ≤ i) (hhi : i ≤ last + 1) :
    (st.append batch).Contiguous (max last (i + batch.length - 1)) := by
  refine ⟨fun k => ?_, fun k e he => ?_, ?_, h.positive⟩
  · rw [get_append hb]
    have hold := h.present k
    have hfirst : (st.append batch).first_index = st.first_index := rfl
    by_cases hk : i ≤ k ∧ k < i + batch.length
    · rw [if_pos hk, getElem?_eq_getElem (by omega)]
      constructor
      · intro _
        omega
      · intro _
        rfl
    · rw [if_neg hk, hold]
      constructor
      · rintro ⟨h1, h2⟩
        omega
      · rintro ⟨h1, h2⟩
        omega
  · rw [get_append hb] at he
    by_cases hk : i ≤ k ∧ k < i + batch.length
    · rw [if_pos hk] at he
      have hidx := hb _ e he
      omega
    · rw [if_neg hk] at he
      exact h.keyed k e he
  · have hfirst := h.first_le
    have hfirst' : (st.append batch).first_index = st.first_index := rfl
    omega

theorem get_compact (st : RaftStorage α δ) (compact_index k : ℕ) :
    (st.compact compact_index).entries.get k =
      if st.first_index ≤ k ∧ k < compact_index then none else st.entries.get k := by
  unfold RaftStorage.compact
  by_cases hc : compact_index ≤ st.first_index
  · rw [if_pos hc, if_neg (by omega)]
  · rw [if_neg hc]
    rw [get_remove_all]
    have hmem : k ∈ range' st.first_index (compact_index - st.first_index) ↔
        st.first_index ≤ k ∧ k < compact_index := by
      rw [mem_range'_1]
      omega
    simp only [hmem]

theorem first_index_compact (st : RaftStorage α δ) (compact_index : ℕ) :
    (st.compact compact_index).first_index = max st.first_index compact_index := by
  unfold RaftStorage.compact
  by_cases hc : compact_index ≤ st.first_index
  · rw [if_pos hc]
    omega
  · rw [if_neg hc]
    dsimp only
    omega

theorem get_of_get_compact {compact_index k : ℕ}
    (h : (st.compact compact_index).entries.get k = some e) : st.entries.get k = some e := by
  rw [get_compact] at h
  split_ifs at h
  exact h

theorem Contiguous.compact (h : st.Contiguous last) (compact_index : ℕ) :
    (st.compact compact_index).Contiguous (max last (compact_index - 1)) := by
  have hfirst := h.first_le
  have hpos := h.positive
  refine ⟨fun k => ?_, fun k e he => h.keyed k e (get_of_get_compact he), ?_, ?_⟩
  · rw [get_compact, first_index_compact]
    have hold := h.present k
    by_cases hk : st.first_index ≤ k ∧ k < compact_index
    · rw [if_pos hk]
      constructor
      · intro hnone
        cases hnone
      · intro hr
        omega
    · rw [if_neg hk, hold]
      omega
  · rw [first_index_compact]
    omega
  · rw [first_index_compact]
    omega

theorem Contiguous.apply_snapshot (st : RaftStorage α δ) (snapshot : RaftSnapshot δ) :
    (st.apply_snapshot snapshot).Contiguous snapshot.index := by
  refine ⟨fun k => ?_, fun k e he => ?_, Nat.le_refl _, Nat.le_add_left 1 _⟩
  · have hget : (st.apply_snapshot snapshot).entries.get k = none := get_empty k
    have hfirst : (st.apply_snapshot snapshot).first_index = snapshot.index + 1 := rfl
    constructor
    · intro hnone
      cases hnone
    · intro hr
      omega
  · have hget : (st.apply_snapshot snapshot).entries.get k = none := get_empty k
    cases he

/-! ## The log as a list -/

theorem filterMap_range' {f : ℕ → Option (Entry α)} {l : List (Entry α)}
    (h : ∀ j, j < l.length → f (i + j) = l[j]?) : (range' i l.length).filterMap f = l := by
  induction l generalizing i with
  | nil => rfl
  | cons e l ih =>
    have hhead : f i = some e := h 0 (Nat.succ_pos _)
    have htail : (range' (i + 1) l.length).filterMap f = l := by
      refine ih fun j hj => ?_
      have hnext := h (j + 1) (Nat.succ_lt_succ hj)
      rw [show i + 1 + j = i + (j + 1) by omega, hnext]
      rfl
    rw [length_cons, range'_succ, filterMap_cons, hhead]
    rw [htail]

theorem range'_split {a b c : ℕ} (hab : a ≤ b) (hbc : b ≤ c) :
    range' a (b - a) ++ range' b (c - b) = range' a (c - a) := by
  have h : range' a (b - a) ++ range' (a + (b - a)) (c - b) =
      range' a (b - a + (c - b)) := range'_append_1
  rw [show a + (b - a) = b by omega, show b - a + (c - b) = c - a by omega] at h
  exact h

theorem Contiguous.log_filter (h : st.Contiguous last) (hlo : st.first_index ≤ low)
    (hle : low ≤ high) (hhi : high ≤ last + 1) :
    st.log.filter (fun e => decide (low ≤ e.index ∧ e.index < high)) =
      (range' low (high - low)).filterMap st.entries.get := by
  -- split the stored indices at `low` and at `high`
  have hsplit : range' st.first_index (st.last_index_impl + 1 - st.first_index) =
      range' st.first_index (low - st.first_index) ++
        (range' low (high - low) ++ range' high (last + 1 - high)) := by
    rw [h.last_index]
    rw [range'_split hle hhi, range'_split hlo (Nat.le_trans hle hhi)]
  have hindex {a n : ℕ} {e : Entry α} (he : e ∈ (range' a n).filterMap st.entries.get) :
      a ≤ e.index ∧ e.index < a + n := by
    obtain ⟨k, hk, hget⟩ := mem_filterMap.mp he
    rw [h.keyed k e hget]
    exact mem_range'_1.mp hk
  have hkeep : ((range' low (high - low)).filterMap st.entries.get).filter
      (fun e => decide (low ≤ e.index ∧ e.index < high)) =
        (range' low (high - low)).filterMap st.entries.get := by
    refine filter_eq_self.mpr fun e he => ?_
    have hbound := hindex he
    exact decide_eq_true (by omega)
  have hdrop {a n : ℕ} (hout : a + n ≤ low ∨ high ≤ a) :
      ((range' a n).filterMap st.entries.get).filter
        (fun e => decide (low ≤ e.index ∧ e.index < high)) = [] := by
    refine filter_eq_nil_iff.mpr fun e he => ?_
    have hbound := hindex he
    rw [decide_eq_true_eq]
    omega
  unfold log
  rw [hsplit, filterMap_append, filterMap_append, filter_append, filter_append,
    hkeep, hdrop (.inl (by omega)), hdrop (.inr (Nat.le_refl _)), nil_append, append_nil]

theorem entries_loop_eq {max_size : ℕ} {indices : List ℕ}
    {acc : List (Entry α)} {size : ℕ} (hpresent : ∀ k ∈ indices, (st.entries.get k).isSome)
    (hsize : size + ((indices.filterMap st.entries.get).map entry_size).sum ≤ max_size) :
    st.entries_loop entry_size max_size indices acc size =
      .ok (acc ++ indices.filterMap st.entries.get) := by
  induction indices generalizing acc size with
  | nil => rw [filterMap_nil, append_nil, entries_loop]
  | cons k indices ih =>
    obtain ⟨e, he⟩ := isSome_iff_exists.mp (hpresent k mem_cons_self)
    rw [filterMap_cons, he] at hsize ⊢
    simp only [map_cons, sum_cons] at hsize
    have hfits : ¬ (acc ≠ [] ∧ max_size < size + entry_size e) := by
      rintro ⟨-, hover⟩
      omega
    rw [entries_loop, get_entry, he]
    dsimp only
    rw [if_neg hfits, ih (fun k' hk' => hpresent k' (mem_cons_of_mem _ hk')) (by omega),
      append_assoc]
    rfl

/-- `entries(low, high)` returns that part of the stored log, if the size limit allows it. -/
theorem Contiguous.storage_entries (h : st.Contiguous last)
    {max_size : Option ℕ} (hlo : st.first_index ≤ low) (hle : low ≤ high) (hhi : high ≤ last + 1)
    (hsize : ((st.log.filter fun e => decide (low ≤ e.index ∧ e.index < high)).map entry_size).sum ≤
      max_size.getD (2 ^ 64 - 1)) :
    st.storage_entries entry_size low high max_size =
      .ok (st.log.filter fun e => decide (low ≤ e.index ∧ e.index < high)) := by
  rw [h.log_filter hlo hle hhi] at hsize ⊢
  unfold RaftStorage.storage_entries
  rw [h.last_index, if_neg (by omega), if_neg (by omega), entries_loop_eq]
  · rfl
  · intro k hk
    have hbound := mem_range'_1.mp hk
    exact (h.present k).mpr (by omega)
  · rw [Nat.zero_add]
    exact hsize

/-! ## Appending at an index -/

/-- `st'` holds the entries of `st` below `i` followed by the batch, and answers so. -/
structure AppendedAt (entry_size : Entry α → ℕ) (st st' : RaftStorage α δ) (i : ℕ)
    (batch : List (Entry α)) : Prop where
  log : st'.log = st.log.filter (fun e => decide (e.index < i)) ++ batch
  last_index : st'.last_index_impl = i + batch.length - 1
  /-- Every range within the log is returned, up to the size limit. -/
  entries : ∀ low high max_size, st'.first_index ≤ low → low ≤ high → high ≤ i + batch.length →
    ((st'.log.filter fun e => decide (low ≤ e.index ∧ e.index < high)).map entry_size).sum ≤
      max_size.getD (2 ^ 64 - 1) →
    st'.storage_entries entry_size low high max_size =
      .ok (st'.log.filter fun e => decide (low ≤ e.index ∧ e.index < high))
  /-- Nothing of the old suffix survives. -/
  gone : ∀ k e, i ≤ k → st'.entries.get k = some e → e ∈ batch

section Append

variable {st : RaftStorage α δ} {last i : ℕ} {batch : List (Entry α)} (h : st.Contiguous last)
  (hb : Consecutive i batch) (hlo : st.first_index ≤ i) (hhi : i ≤ last + 1)
include h hb hlo hhi

theorem append_log_eq (hcover : last ≤ i + batch.length - 1) (hne : batch ≠ []) :
    (st.append batch).log = st.log.filter (fun e => decide (e.index < i)) ++ batch := by
  have hlen : 0 < batch.length := length_pos_iff.mpr hne
  have hnew := h.append hb hlo hhi
  have hold : st.log.filter (fun e => decide (e.index < i)) =
      (range' st.first_index (i - st.first_index)).filterMap st.entries.get := by
    rw [← h.log_filter (Nat.le_refl _) hlo hhi]
    refine filter_congr fun e he => ?_
    obtain ⟨k, hk, hget⟩ := mem_filterMap.mp he
    have hbound := mem_range'_1.mp hk
    rw [h.keyed k e hget]
    exact decide_eq_decide.mpr (by omega)
  have hbelow : (range' st.first_index (i - st.first_index)).filterMap
      (st.append batch).entries.get =
        (range' st.first_index (i - st.first_index)).filterMap st.entries.get := by
    refine filterMap_congr fun k hk => ?_
    have hbound := mem_range'_1.mp hk
    rw [get_append hb, if_neg (by omega)]
  have habove : (range' i batch.length).filterMap (st.append batch).entries.get = batch := by
    refine filterMap_range' fun j hj => ?_
    rw [get_append hb, if_pos (by omega), show i + j - i = j by omega]
  have hfirst : (st.append batch).first_index = st.first_index := rfl
  unfold RaftStorage.log
  rw [hnew.last_index, hfirst, show max last (i + batch.length - 1) + 1 = i + batch.length by omega,
    ← range'_split hlo (Nat.le_add_right i batch.length), filterMap_append, hbelow,
    show i + batch.length - i = batch.length by omega, habove]
  exact congrArg (· ++ batch) hold.symm

/-- **An append replaces the old suffix exactly if the batch reaches its end.** -/
theorem appended_at_iff (entry_size : Entry α → ℕ) (hne : batch ≠ []) :
    AppendedAt entry_size st (st.append batch) i batch ↔ last ≤ i + batch.length - 1 := by
  have hlen : 0 < batch.length := length_pos_iff.mpr hne
  have hnew := h.append hb hlo hhi
  constructor
  · intro happ
    have hlast := happ.last_index
    rw [hnew.last_index] at hlast
    omega
  · intro hcover
    have hmax : max last (i + batch.length - 1) = i + batch.length - 1 := by omega
    rw [hmax] at hnew
    refine ⟨append_log_eq h hb hlo hhi hcover hne, hnew.last_index, ?_, ?_⟩
    · intro low high max_size h1 h2 h3 hsize
      exact hnew.storage_entries h1 h2 (by omega) hsize
    · intro k e hk hget
      have hbound := (hnew.present k).mp (by rw [hget]; rfl)
      rw [get_append hb, if_pos (by omega)] at hget
      exact mem_of_getElem? hget

end Append

/-! ## Runs -/

inductive StorageOp (α δ : Type) where
  | append (batch : List (Entry α))
  | compact (compact_index : ℕ)
  | store_snapshot (snapshot : RaftSnapshot δ)
  | apply_snapshot (snapshot : RaftSnapshot δ)
  | set_hard_state (hs : HardState)

def storage_step (st : RaftStorage α δ) : StorageOp α δ → Option (Unit × RaftStorage α δ)
  | .append batch => some ((), st.append batch)
  | .compact compact_index => some ((), st.compact compact_index)
  | .store_snapshot snapshot => some ((), st.store_snapshot snapshot)
  | .apply_snapshot snapshot => some ((), st.apply_snapshot snapshot)
  | .set_hard_state hs => some ((), st.set_hard_state hs)

/-- A batch as the Raft core hands it over. -/
structure HandedOver (st : RaftStorage α δ) (i : ℕ) (batch : List (Entry α)) : Prop where
  ne_nil : batch ≠ []
  consecutive : Consecutive i batch
  first_le : st.first_index ≤ i
  le_last : i ≤ st.last_index_impl + 1

def HandsOver (st : RaftStorage α δ) : StorageOp α δ → Prop
  | .append batch => ∃ i, HandedOver st i batch
  | _ => True

/-- The batch reaches the end of the old log, its terms do not decrease, and they continue those of
the entry before it. -/
structure Continues (st : RaftStorage α δ) (i : ℕ) (batch : List (Entry α)) : Prop where
  covers : st.last_index_impl ≤ i + batch.length - 1
  terms : ∀ (j k : ℕ) (e e' : Entry α), j ≤ k → batch[j]? = some e → batch[k]? = some e' → e.term ≤ e'.term
  previous : ∀ e e' : Entry α, st.entries.get (i - 1) = some e → e' ∈ batch → e.term ≤ e'.term

def ContinuesLog (st : RaftStorage α δ) : StorageOp α δ → Prop
  | .append batch => ∃ i, HandedOver st i batch ∧ Continues st i batch
  | _ => True

variable {op : StorageOp α δ}

theorem contiguous_step (h : ∃ last, st.Contiguous last) (hok : HandsOver st op)
    (hstep : storage_step st op = some (r, st')) : ∃ last, st'.Contiguous last := by
  obtain ⟨last, h⟩ := h
  cases op with
  | append batch =>
    cases hstep
    obtain ⟨i, hi⟩ := hok
    have hle := hi.le_last
    rw [h.last_index] at hle
    exact ⟨_, h.append hi.consecutive hi.first_le hle⟩
  | compact compact_index =>
    cases hstep
    exact ⟨_, h.compact compact_index⟩
  | store_snapshot snapshot | set_hard_state hs =>
    cases hstep
    exact ⟨last, h.present, h.keyed, h.first_le, h.positive⟩
  | apply_snapshot snapshot =>
    cases hstep
    exact ⟨_, Contiguous.apply_snapshot st snapshot⟩

/-- The terms of the stored entries do not decrease with the index. -/
def TermsSorted (st : RaftStorage α δ) : Prop :=
  ∀ (j k : ℕ) (e e' : Entry α), j ≤ k → st.entries.get j = some e → st.entries.get k = some e' →
    e.term ≤ e'.term

theorem TermsSorted.append (hsorted : st.TermsSorted)
    (h : st.Contiguous last) (hi : HandedOver st i batch) (hc : Continues st i batch) :
    (st.append batch).TermsSorted := by
  have hle := hi.le_last
  have hcovers := hc.covers
  rw [h.last_index] at hle hcovers
  have hlen : 0 < batch.length := length_pos_iff.mpr hi.ne_nil
  have hnew := h.append hi.consecutive hi.first_le hle
  intro j k e e' hjk hj hk
  have hjb := (hnew.present j).mp (by rw [hj]; rfl)
  have hkb := (hnew.present k).mp (by rw [hk]; rfl)
  have hfirst : (st.append batch).first_index = st.first_index := rfl
  rw [get_append hi.consecutive] at hj hk
  by_cases hki : i ≤ k
  · rw [if_pos (by omega)] at hk
    by_cases hji : i ≤ j
    · rw [if_pos (by omega)] at hj
      exact hc.terms _ _ e e' (by omega) hj hk
    · -- the entry before the batch lies between the two
      rw [if_neg (by omega)] at hj
      have hprev : (st.entries.get (i - 1)).isSome := (h.present (i - 1)).mpr (by omega)
      obtain ⟨p, hp⟩ := isSome_iff_exists.mp hprev
      have h1 : e.term ≤ p.term := hsorted j (i - 1) e p (by omega) hj hp
      have h2 : p.term ≤ e'.term := hc.previous p e' hp (mem_of_getElem? hk)
      omega
  · rw [if_neg (by omega)] at hj hk
    exact hsorted j k e e' hjk hj hk

theorem terms_step (h : (∃ last, st.Contiguous last) ∧ st.TermsSorted) (hok : ContinuesLog st op)
    (hstep : storage_step st op = some (r, st')) :
    (∃ last, st'.Contiguous last) ∧ st'.TermsSorted := by
  obtain ⟨hcont, hsorted⟩ := h
  have hhands : HandsOver st op := by
    cases op with
    | append batch =>
      obtain ⟨i, hi, -⟩ := hok
      exact ⟨i, hi⟩
    | _ => trivial
  refine ⟨contiguous_step hcont hhands hstep, ?_⟩
  obtain ⟨last, h⟩ := hcont
  cases op with
  | append batch =>
    cases hstep
    obtain ⟨i, hi, hc⟩ := hok
    exact hsorted.append h hi hc
  | compact compact_index =>
    cases hstep
    intro j k e e' hjk hj hk
    exact hsorted j k e e' hjk (get_of_get_compact hj) (get_of_get_compact hk)
  | store_snapshot snapshot | set_hard_state hs =>
    cases hstep
    exact hsorted
  | apply_snapshot snapshot =>
    cases hstep
    intro j k e e' _ hj
    exact absurd (hj.symm.trans (get_empty j)) (some_ne_none e)

/-- **The stored log.** In every state reached by batches as the Raft core hands them over, the next
batch replaces the old suffix exactly if it reaches the end of the old log. And if all batches of the
run did and continued the terms, the terms of the stored entries do not decrease. -/
theorem raft_log_append_iff (entry_size : Entry α → ℕ) (ops : List (StorageOp α δ)) (results : List Unit)
    (st : RaftStorage α δ) (hok : along storage_step HandsOver RaftStorage.new ops)
    (hrun : run storage_step RaftStorage.new ops = some (results, st)) :
    (∀ i batch, HandedOver st i batch →
      (AppendedAt entry_size st (st.append batch) i batch ↔
        st.last_index_impl ≤ i + batch.length - 1)) ∧
    (along storage_step ContinuesLog RaftStorage.new ops → st.TermsSorted) := by
  constructor
  · intro i batch hi
    have hcont : ∃ last, st.Contiguous last :=
      run_invariant (fun st => ∃ last, st.Contiguous last)
        (fun _ _ _ _ h hok hstep => contiguous_step h hok hstep) ⟨0, Contiguous.new⟩ hok hrun
    obtain ⟨last, h⟩ := hcont
    have hle := hi.le_last
    rw [h.last_index] at hle ⊢
    exact appended_at_iff h hi.consecutive hi.first_le hle entry_size hi.ne_nil
  · intro hterms
    have hboth : (∃ last, st.Contiguous last) ∧ st.TermsSorted := by
      refine run_invariant (fun st => (∃ last, st.Contiguous last) ∧ st.TermsSorted)
        (fun _ _ _ _ h hok hstep => terms_step h hok hstep) ⟨⟨0, Contiguous.new⟩, ?_⟩ hterms hrun
      intro j k e e' _ hj
      exact absurd (hj.symm.trans (get_empty j)) (some_ne_none e)
    exact hboth.2

def three_entries : List (Entry Unit) := [⟨1, 1, ()⟩, ⟨2, 1, ()⟩, ⟨3, 1, ()⟩]

theorem three_entries_handed_over : HandedOver (new : RaftStorage Unit Unit) 1 three_entries := by
  refine ⟨by decide, ?_, Nat.le_refl _, by decide +kernel⟩
  intro j e he
  match j, he with
  | 0, rfl => rfl
  | 1, rfl => rfl
  | 2, rfl => rfl

/-- A batch that reaches the end of that log replaces its suffix. -/
theorem raft_log_append_three_entries :
    ∃ st : RaftStorage Unit Unit, run storage_step new [.append three_entries] = some ([()], st) ∧
      AppendedAt (fun _ => 1) st (st.append [⟨2, 2, ()⟩, ⟨3, 2, ()⟩]) 2 [⟨2, 2, ()⟩, ⟨3, 2, ()⟩] := by
  refine ⟨new.append three_entries, rfl, ?_⟩
  obtain ⟨hiff, -⟩ := raft_log_append_iff (fun _ => 1) [.append three_entries] [()]
    (new.append three_entries : RaftStorage Unit Unit)
    ⟨⟨1, three_entries_handed_over⟩, fun _ _ _ => trivial⟩ rfl
  refine (hiff 2 [⟨2, 2, ()⟩, ⟨3, 2, ()⟩] ⟨by decide, ?_, by decide, by decide +kernel⟩).mpr
    (by decide +kernel)
  intro j e he
  match j, he with
  | 0, rfl => rfl
  | 1, rfl => rfl

/-- **An old suffix survives.** After three entries of term 1, the batch with entry 2 of term 2 leaves
entry 3 of term 1 behind it: the last index is still 3, and the terms decrease. -/
theorem append_keeps_old_suffix :
    ∃ st : RaftStorage Unit Unit, run storage_step new [.append three_entries] = some ([()], st) ∧
      along storage_step HandsOver (new : RaftStorage Unit Unit)
        [.append three_entries, .append [⟨2, 2, ()⟩]] ∧
      ¬ AppendedAt (fun _ => 1) st (st.append [⟨2, 2, ()⟩]) 2 [⟨2, 2, ()⟩] ∧
      ¬ (st.append [⟨2, 2, ()⟩]).TermsSorted := by
  have hlast : ((new : RaftStorage Unit Unit).append three_entries).last_index_impl = 3 := by
    decide +kernel
  have hthree : ((new : RaftStorage Unit Unit).append three_entries |>.append
      [⟨2, 2, ()⟩]).last_index_impl = 3 := by
    decide +kernel
  refine ⟨new.append three_entries, rfl, ⟨⟨1, three_entries_handed_over⟩, ?_⟩, ?_, ?_⟩
  · intro r st' hstep
    cases hstep
    refine ⟨⟨2, by decide, ?_, by decide, ?_⟩, fun _ _ _ => trivial⟩
    · intro j e he
      match j, he with
      | 0, rfl => rfl
    · rw [hlast]
      decide
  · intro happ
    have hbad := happ.last_index
    rw [hthree] at hbad
    exact absurd hbad (by decide)
  · intro hsorted
    have hbad := hsorted 2 3 ⟨2, 2, ()⟩ ⟨3, 1, ()⟩ (by decide) (by decide +kernel) (by decide +kernel)
    exact absurd hbad (by decide)

end RaftStorage

end NexusVfs
