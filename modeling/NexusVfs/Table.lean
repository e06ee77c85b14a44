/-
Finite ordered tables: the part of an embedded key-value store the state machine relies
on.

A transaction is a sequence of `insert`s and `remove`s on a value that is passed along.
Two tables are the same iff they answer every `get` the same way (`ext_get`), and each
bulk operation has one lemma that says what `get` returns after it.
-/
import Mathlib.Data.List.Nodup
import Mathlib.Algebra.Ring.Nat

namespace NexusVfs

open List

/-- A finite map with ordered keys. -/
abbrev Table (κ β : Type) [Ord κ] := Std.ExtTreeMap κ β compare

namespace Table

variable {κ β : Type} [Ord κ] [Std.TransOrd κ]

/-! ## Single rows -/

def get (t : Table κ β) (k : κ) : Option β := t[k]?

def insert (t : Table κ β) (k : κ) (v : β) : Table κ β := Std.ExtTreeMap.insert t k v

def remove (t : Table κ β) (k : κ) : Table κ β := Std.ExtTreeMap.erase t k

@[simp] theorem get_empty (k : κ) : get (∅ : Table κ β) k = none := by
  exact Std.ExtTreeMap.getElem?_empty

variable [Std.LawfulEqOrd κ]

variable {t u : Table κ β} {p : κ → Bool} {a k : κ} {v : β}

theorem ext_get (h : ∀ k, t.get k = u.get k) : t = u :=
  Std.ExtTreeMap.ext_getElem? (fun {k} => h k)

/-! ## Range scans

A scan returns rows in key order; the callers of the sources only ever select
by key, so the range is a predicate on keys. -/

/-- The rows whose key satisfies `p`, in key order. -/
def scan (t : Table κ β) (p : κ → Bool) : List (κ × β) :=
  (Std.ExtTreeMap.filter (fun k _ => p k) t).toList

theorem mem_scan : (k, v) ∈ t.scan p ↔ p k = true ∧ t.get k = some v := by
  unfold scan get
  rw [Std.ExtTreeMap.toList_filter, mem_filter,
    Std.ExtTreeMap.mem_toList_iff_getElem?_eq_some]
  exact and_comm

theorem mem_keys_scan : k ∈ (t.scan p).map Prod.fst ↔ p k = true ∧ t.get k ≠ none := by
  constructor
  · intro h
    obtain ⟨⟨k, v⟩, hrow, rfl⟩ := mem_map.mp h
    obtain ⟨hp, hv⟩ := mem_scan.mp hrow
    exact ⟨hp, by simp [hv]⟩
  · intro ⟨hp, hv⟩
    obtain ⟨v, hv⟩ := Option.ne_none_iff_exists'.mp hv
    exact mem_map.mpr ⟨(k, v), mem_scan.mpr ⟨hp, hv⟩, rfl⟩

theorem nodup_keys_scan (t : Table κ β) (p : κ → Bool) : ((t.scan p).map Prod.fst).Nodup := by
  have h := Std.ExtTreeMap.distinct_keys_toList
    (t := Std.ExtTreeMap.filter (fun k _ => p k) t)
  refine (pairwise_map).mpr (h.imp ?_)
  intro a b hab heq
  exact hab (by rw [heq]; exact Std.compare_self)

omit [Std.LawfulEqOrd κ] in
theorem sorted_scan (t : Table κ β) (p : κ → Bool) :
    (t.scan p).Pairwise fun a b => compare a.1 b.1 = .lt :=
  Std.ExtTreeMap.ordered_keys_toList

theorem scan_congr (h : ∀ k, p k = true → t.get k = u.get k) : t.scan p = u.scan p := by
  have hfilter : Std.ExtTreeMap.filter (fun k _ => p k) t = Std.ExtTreeMap.filter (fun k _ => p k) u := by
    refine ext_get fun k => ?_
    unfold get at h ⊢
    rw [Std.ExtTreeMap.getElem?_filter', Std.ExtTreeMap.getElem?_filter']
    cases hp : p k with
    | true => rw [h k hp]
    | false =>
      have hnone (o : Option β) : Option.filter (fun _ => false) o = none := by cases o <;> rfl
      rw [hnone, hnone]
  unfold scan
  rw [hfilter]

theorem map_scan_eq_iff {γ : Type} (f : κ × β → γ) {q : κ → Bool} (h : ∀ k, p k = true → q k = true) :
    (t.scan p).map f = (t.scan q).map f ↔ ∀ k v, t.get k = some v → p k = q k := by
  have hfilter : t.scan p = (t.scan q).filter fun row => p row.1 := by
    unfold scan
    rw [Std.ExtTreeMap.toList_filter, Std.ExtTreeMap.toList_filter, filter_filter]
    refine filter_congr fun row _ => ?_
    cases hp : p row.1 with
    | true => simp [h _ hp]
    | false => simp
  constructor
  · intro heq k v hget
    have hlen := congrArg length heq
    rw [length_map, length_map, hfilter, length_filter_eq_length_iff] at hlen
    cases hq : q k with
    | true => exact hlen (k, v) (mem_scan.mpr ⟨hq, hget⟩)
    | false =>
      by_contra hp
      rw [h k (by simpa using hp)] at hq
      cases hq
  · intro hrows
    rw [hfilter, filter_eq_self.mpr]
    rintro ⟨k, v⟩ hmem
    obtain ⟨hq, hget⟩ := mem_scan.mp hmem
    exact (hrows k v hget).trans hq

def last_key (t : Table κ β) : Option κ := ((t.scan fun _ => true).getLast?).map Prod.fst

theorem last_key_eq_some (h : t.last_key = some k) :
    (t.get k).isSome ∧ ∀ a, (t.get a).isSome → (compare a k).isLE := by
  obtain ⟨⟨k', v⟩, hlast, rfl⟩ := Option.map_eq_some_iff.mp h
  obtain ⟨rows, hrows⟩ := getLast?_eq_some_iff.mp hlast
  have hmem {a : κ} {w : β} : (a, w) ∈ rows ++ [(k', v)] ↔ t.get a = some w := by
    rw [← hrows, mem_scan]
    simp
  have hsorted := t.sorted_scan fun _ => true
  rw [hrows, pairwise_append] at hsorted
  have hself : t.get k' = some v := hmem.mp (by simp)
  refine ⟨by rw [hself]; rfl, fun a ha => ?_⟩
  obtain ⟨w, hw⟩ := Option.isSome_iff_exists.mp ha
  rcases mem_append.mp (hmem.mpr hw) with hin | hin
  · rw [hsorted.2.2 _ hin (k', v) (by simp)]
    rfl
  · obtain ⟨rfl, -⟩ := Prod.mk.inj (mem_singleton.mp hin)
    rw [Std.compare_self]
    rfl

theorem last_key_eq_none (h : t.last_key = none) (k : κ) : t.get k = none := by
  have hnil := getLast?_eq_none_iff.mp (Option.map_eq_none_iff.mp h)
  cases hv : t.get k with
  | none => rfl
  | some v =>
    have hmem : (k, v) ∈ t.scan fun _ => true := mem_scan.mpr ⟨rfl, hv⟩
    rw [hnil] at hmem
    cases hmem

/-! ## Changing every row -/

/-- `retain`, whose closure may change the value it keeps. -/
def retain (t : Table κ β) (f : β → Option β) : Table κ β :=
  Std.ExtTreeMap.filterMap (fun _ v => f v) t

variable (t)

theorem get_retain (f : β → Option β) (k : κ) : (t.retain f).get k = (t.get k).bind f := by
  unfold get retain
  rw [Std.ExtTreeMap.getElem?_filterMap']

def retain_keys (t : Table κ β) (p : κ → Bool) : Table κ β := Std.ExtTreeMap.filter (fun k _ => p k) t

theorem get_retain_keys (p : κ → Bool) (k : κ) :
    (t.retain_keys p).get k = if p k then t.get k else none := by
  unfold get retain_keys
  rw [Std.ExtTreeMap.getElem?_filter']
  cases p k with
  | true => cases t[k]? <;> rfl
  | false => cases t[k]? <;> rfl

/-! ## What one write changes -/

variable [DecidableEq κ]

theorem get_insert (k a : κ) (v : β) :
    (t.insert k v).get a = if a = k then some v else t.get a := by
  simp only [get, insert, Std.ExtTreeMap.getElem?_insert, Std.compare_eq_iff_eq,
    @eq_comm κ a k]

theorem get_remove (k a : κ) : (t.remove k).get a = if a = k then none else t.get a := by
  simp only [get, remove, Std.ExtTreeMap.getElem?_erase, Std.compare_eq_iff_eq,
    @eq_comm κ a k]

@[simp] theorem get_insert_self (k : κ) (v : β) : (t.insert k v).get k = some v := by
  rw [get_insert, if_pos rfl]

@[simp] theorem get_remove_self (k : κ) : (t.remove k).get k = none := by
  rw [get_remove, if_pos rfl]

theorem get_insert_of_ne (v : β) (h : a ≠ k) : (t.insert k v).get a = t.get a := by
  rw [get_insert, if_neg h]

theorem get_remove_of_ne (h : a ≠ k) : (t.remove k).get a = t.get a := by
  rw [get_remove, if_neg h]

/-! ## Counting rows -/

theorem scan_insert_perm (v : β) (h : t.get k = none) :
    ((t.insert k v).scan fun _ => true).Perm ((k, v) :: t.scan fun _ => true) := by
  have hnodup (u : Table κ β) : (u.scan fun _ => true).Nodup :=
    List.Pairwise.of_map Prod.fst (fun _ _ hne heq => hne (congrArg Prod.fst heq)) (nodup_keys_scan u _)
  have hfresh : (k, v) ∉ t.scan fun _ => true := by
    intro hmem
    rw [(mem_scan.mp hmem).2] at h
    cases h
  rw [perm_ext_iff_of_nodup (hnodup _) (nodup_cons.mpr ⟨hfresh, hnodup t⟩)]
  rintro ⟨a, w⟩
  rw [mem_scan, mem_cons, mem_scan, get_insert]
  by_cases ha : a = k
  · subst ha
    rw [h]
    simp [eq_comm]
  · rw [if_neg ha]
    simp [ha]

theorem scan_remove_perm (h : t.get k = some v) :
    (t.scan fun _ => true).Perm ((k, v) :: (t.remove k).scan fun _ => true) := by
  have hback : (t.remove k).insert k v = t := by
    refine ext_get fun a => ?_
    rw [get_insert, get_remove]
    split_ifs with ha
    · rw [ha, h]
    · rfl
  have hperm := scan_insert_perm (t.remove k) v (get_remove_self t k)
  rwa [hback] at hperm

/-! ## Bulk writes -/

def remove_all (t : Table κ β) (ks : List κ) : Table κ β := ks.foldl remove t

def insert_all (t : Table κ β) (rows : List (κ × β)) : Table κ β :=
  rows.foldl (fun t row => t.insert row.1 row.2) t

theorem get_remove_all (ks : List κ) (a : κ) :
    (t.remove_all ks).get a = if a ∈ ks then none else t.get a := by
  induction ks generalizing t with
  | nil => simp [remove_all]
  | cons k ks ih =>
    rw [remove_all, foldl_cons, ← remove_all, ih, get_remove]
    by_cases hks : a ∈ ks
    · simp [hks]
    · by_cases hk : a = k <;> simp [hk, hks]

variable {rows : List (κ × β)}

theorem get_insert_all_of_notMem (h : a ∉ rows.map Prod.fst) :
    (t.insert_all rows).get a = t.get a := by
  induction rows generalizing t with
  | nil => rfl
  | cons row rows ih =>
    rw [map_cons, mem_cons, not_or] at h
    rw [insert_all, foldl_cons, ← insert_all, ih _ h.2, get_insert_of_ne _ _ h.1]

theorem get_insert_all_congr {t : Table κ β} (h : t.get a = u.get a) :
    (t.insert_all rows).get a = (u.insert_all rows).get a := by
  induction rows generalizing t u with
  | nil => exact h
  | cons row rows ih =>
    refine ih ?_
    rw [get_insert, get_insert, h]

theorem get_insert_all_of_same (h : (a, v) ∈ rows)
    (hsame : ∀ w, (a, w) ∈ rows → w = v) : (t.insert_all rows).get a = some v := by
  induction rows generalizing t with
  | nil => cases h
  | cons row rows ih =>
    rw [insert_all, foldl_cons, ← insert_all]
    by_cases hlater : a ∈ rows.map Prod.fst
    · obtain ⟨⟨_, w⟩, hmem, rfl⟩ := mem_map.mp hlater
      rw [hsame w (mem_cons_of_mem _ hmem)] at hmem
      exact ih _ hmem fun w hw => hsame w (mem_cons_of_mem _ hw)
    · rw [get_insert_all_of_notMem _ hlater]
      rcases mem_cons.mp h with rfl | hmem
      · rw [get_insert_self]
      · exact absurd (mem_map.mpr ⟨_, hmem, rfl⟩) hlater

/-- Writing the rows of a scan into an empty table keeps exactly the scanned part. -/
theorem get_insert_all_scan (p : κ → Bool) (a : κ) :
    (insert_all (∅ : Table κ β) (t.scan p)).get a = if p a then t.get a else none := by
  have hnd := nodup_keys_scan t p
  by_cases hmem : a ∈ (t.scan p).map Prod.fst
  · obtain ⟨⟨k, v⟩, hrow, rfl⟩ := mem_map.mp hmem
    obtain ⟨hp, hv⟩ := mem_scan.mp hrow
    rw [get_insert_all_of_same _ hrow fun _ hw => (Prod.mk.inj (inj_on_of_nodup_map hnd hw hrow rfl)).2,
      if_pos hp, hv]
  · rw [get_insert_all_of_notMem _ hmem, get_empty]
    split_ifs with hp
    · by_contra hv
      exact hmem (mem_keys_scan.mpr ⟨hp, Ne.symm hv⟩)
    · rfl

theorem insert_all_scan_true : insert_all (∅ : Table κ β) (t.scan fun _ => true) = t := by
  refine ext_get fun a => ?_
  rw [get_insert_all_scan, if_pos rfl]

end Table

end NexusVfs
