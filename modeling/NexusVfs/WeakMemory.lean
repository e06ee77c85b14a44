/-
Shared locations under release and acquire.

A location keeps every store made to it, in order. A thread has a view: for each
location the oldest store it may still see. A load returns any store from there on. A
release store carries the view of its thread, and an acquire load of that store takes
the view over. Plain memory is a location as well: each copy stores new contents, and a
thread that has not synchronised may see each cell at a different age. `Since` says what
is known of all stores a thread may still see.
-/
import NexusVfs.ByteRing

namespace NexusVfs.WeakMemory

open ByteRing List Option

variable {L α : Type}

/-! ## Views -/

/-- For every location the oldest store still visible. -/
abbrev View (L : Type) := L → ℕ

namespace View

def bot : View L := fun _ => 0

def join (v w : View L) : View L := fun l => max (v l) (w l)

/-- Store `i` of location `l` has been seen. -/
def raise [DecidableEq L] (v : View L) (l : L) (i : ℕ) : View L :=
  fun k => if k = l then max (v k) i else v k

theorem le_join_left (v w : View L) (l : L) : v l ≤ v.join w l := Nat.le_max_left _ _

theorem le_join_right (v w : View L) (l : L) : w l ≤ v.join w l := Nat.le_max_right _ _

theorem le_raise [DecidableEq L] (v : View L) (l : L) (i : ℕ) (k : L) : v k ≤ v.raise l i k := by
  unfold raise
  split_ifs
  · exact Nat.le_max_left _ _
  · exact Nat.le_refl _

theorem le_raise_self [DecidableEq L] (v : View L) (l : L) (i : ℕ) : i ≤ v.raise l i l := by
  unfold raise
  rw [if_pos rfl]
  exact Nat.le_max_right _ _

theorem raise_of_ne [DecidableEq L] (v : View L) {l k : L} (i : ℕ) (h : k ≠ l) :
    v.raise l i k = v k := if_neg h

end View

/-! ## Locations -/

/-- A value and what its store carries to an acquire load. -/
structure Store (L α : Type) where
  value : α
  view : View L

/-- The stores made to a location, the newest apart. -/
structure History (L α : Type) where
  old : List (Store L α)
  now : Store L α

namespace History

def init (x : α) : History L α := ⟨[], ⟨x, View.bot⟩⟩

def all (h : History L α) : List (Store L α) := h.old ++ [h.now]

def size (h : History L α) : ℕ := h.old.length + 1

def store (h : History L α) (x : α) (view : View L) : History L α := ⟨h.all, ⟨x, view⟩⟩

/-- A load that returns store number `i`, if the view still allows it. -/
def read (h : History L α) (v : View L) (l : L) (i : ℕ) : Option (Store L α) :=
  if v l ≤ i then h.all[i]? else none

theorem all_store (h : History L α) (x : α) (view : View L) :
    (h.store x view).all = h.all ++ [⟨x, view⟩] := rfl

theorem length_all (h : History L α) : h.all.length = h.size := by
  rw [all, length_append]
  rfl

theorem old_store (h : History L α) (x : α) (view : View L) :
    (h.store x view).old.length = h.size := h.length_all

theorem getElem?_now (h : History L α) : h.all[h.old.length]? = some h.now := by
  rw [all, getElem?_append_right (Nat.le_refl _), Nat.sub_self]
  rfl

theorem mem_store {h : History L α} {x : α} {view : View L} {st : Store L α} :
    st ∈ (h.store x view).all ↔ st ∈ h.all ∨ st = ⟨x, view⟩ := by
  rw [all_store, mem_append, mem_singleton]

end History

/-! ## What holds of every store still visible -/

def Since (h : History L α) (k : ℕ) (P : α → Prop) : Prop :=
  ∀ i st, k ≤ i → h.all[i]? = some st → P st.value

namespace Since

variable {h : History L α} {k : ℕ} {P Q : α → Prop}

theorem mono {k' : ℕ} (hs : Since h k P) (hk : k ≤ k') : Since h k' P :=
  fun i st hi hget => hs i st (Nat.le_trans hk hi) hget

theorem imp (hs : Since h k P) (himp : ∀ st ∈ h.all, P st.value → Q st.value) : Since h k Q :=
  fun i st hi hget => himp st (mem_of_getElem? hget) (hs i st hi hget)

theorem store (hs : Since h k P) {x : α} {view : View L} (hx : P x) :
    Since (h.store x view) k P := by
  intro i st hi hget
  rw [History.all_store] at hget
  by_cases hlt : i < h.all.length
  · rw [getElem?_append_left hlt] at hget
    exact hs i st hi hget
  · rw [getElem?_append_right (by omega), getElem?_singleton] at hget
    split_ifs at hget
    cases hget
    exact hx

theorem of_newest (hk : h.old.length ≤ k) (hx : P h.now.value) : Since h k P := by
  intro i st hi hget
  rw [History.all, getElem?_append_right (by omega), getElem?_singleton] at hget
  split_ifs at hget
  cases hget
  exact hx

theorem read {v : View L} {l : L} {i : ℕ} {st : Store L α} (hs : Since h (v l) P)
    (hread : h.read v l i = some st) : P st.value := by
  unfold History.read at hread
  split_ifs at hread with hle
  exact hs i st hle hread

end Since

variable {h : History L ℕ} {v : View L} {l : L} {i : ℕ}

theorem History.mem_of_read {h : History L α} {st : Store L α} (hread : h.read v l i = some st) :
    st ∈ h.all := by
  unfold History.read at hread
  split_ifs at hread
  exact mem_of_getElem? hread

theorem History.read_newest {h : History L α} {st : Store L α} (hv : h.old.length ≤ v l)
    (hread : h.read v l i = some st) : st = h.now := by
  unfold History.read at hread
  split_ifs at hread with hle
  have hlt : i < h.all.length := (List.getElem?_eq_some_iff.mp hread).1
  rw [h.length_all, History.size] at hlt
  have hi : i = h.old.length := by omega
  rw [hi, h.getElem?_now] at hread
  exact (some.inj hread).symm

/-- A counter: no store is below an earlier one. -/
def Ascending (h : History L ℕ) : Prop :=
  ∀ i st, h.all[i]? = some st → Since h i fun x => st.value ≤ x

theorem Ascending.le_now (ha : Ascending h) {st : Store L ℕ} (hst : st ∈ h.all) :
    st.value ≤ h.now.value := by
  obtain ⟨i, hget⟩ := List.mem_iff_getElem?.mp hst
  have hlt : i < h.all.length := (List.getElem?_eq_some_iff.mp hget).1
  rw [h.length_all, History.size] at hlt
  exact ha i st hget h.old.length h.now (by omega) h.getElem?_now

theorem Ascending.store (ha : Ascending h) {x : ℕ} {view : View L} (hx : h.now.value ≤ x) :
    Ascending (h.store x view) := by
  intro i st hget
  rw [History.all_store] at hget
  by_cases hlt : i < h.all.length
  · rw [getElem?_append_left hlt] at hget
    exact (ha i st hget).store (Nat.le_trans (ha.le_now (mem_of_getElem? hget)) hx)
  · rw [getElem?_append_right (by omega), getElem?_singleton] at hget
    split_ifs at hget
    cases hget
    refine Since.of_newest ?_ (Nat.le_refl _)
    rw [History.old_store, ← h.length_all]
    omega

theorem Ascending.since_read (ha : Ascending h) {st : Store L ℕ} (hread : h.read v l i = some st) :
    Since h i fun x => st.value ≤ x := by
  unfold History.read at hread
  split_ifs at hread
  exact ha i st hread

/-! ## Reading plain memory -/

/-- Cell `c` as store number `i` left it, if that is visible. -/
def see_cell (h : History L (List α)) (k i c : ℕ) : Option α :=
  if k ≤ i then h.all[i]?.bind fun st => st.value[c]? else none

/-- `n` cells from `start` on, cell `start + j` taken from store number `seen j`. -/
def see (h : History L (List α)) (k : ℕ) (seen : ℕ → ℕ) (start : ℕ) : ℕ → Option (List α)
  | 0 => some []
  | n + 1 => do
    let bs ← see h k seen start n
    let b ← see_cell h k (seen n) (start + n)
    return bs ++ [b]

theorem see_cell_of_since {h : History L (List α)} {k start j : ℕ} {ms : List α} {b : α}
    (hs : Since h k fun ring => Holds ring start ms) (hj : j < ms.length)
    (hsee : see_cell h k i (start + j) = some b) : ms[j]? = some b := by
  unfold see_cell at hsee
  split_ifs at hsee with hvis
  obtain ⟨st, hst, hb⟩ := bind_eq_some_iff.mp hsee
  have hcell := hs i st hvis hst j _ (getElem?_eq_getElem hj)
  rw [getElem?_eq_getElem hj, ← hcell]
  exact hb

theorem see_of_since {h : History L (List α)} {k : ℕ} {seen : ℕ → ℕ} {start n : ℕ}
    {bs ms : List α} (hs : Since h k fun ring => Holds ring start ms) (hn : n ≤ ms.length)
    (hsee : see h k seen start n = some bs) : bs = ms.take n := by
  induction n generalizing bs with
  | zero =>
    cases hsee
    rfl
  | succ n ih =>
    obtain ⟨as, has, hsee⟩ := bind_eq_some_iff.mp hsee
    obtain ⟨b, hb, hsee⟩ := bind_eq_some_iff.mp hsee
    cases hsee
    rw [ih (by omega) has, take_add_one, see_cell_of_since hs (by omega) hb]
    rfl

end NexusVfs.WeakMemory
