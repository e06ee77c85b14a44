/-
Slices of a ring, and pieces laid in it one behind the other.

Positions only grow; the cell of position `p` in a ring of `cap` cells is `p % cap`. A
piece never crosses the end of the ring, so it is one slice of it. Pieces less than a
ring apart share no cells (`cells_disjoint`).
-/
import Mathlib.Algebra.Ring.Nat
import Mathlib.Data.List.Basic

namespace NexusVfs.ByteRing

open List Option

variable {α : Type}

/-! ## Slices -/

/-- `&ring[start..start + len]`, `none` where the range leaves the ring. -/
def read_slice (ring : List α) (start len : ℕ) : Option (List α) :=
  if start + len ≤ ring.length then some ((ring.drop start).take len) else none

/-- `ring[start..start + bs.len()].copy_from_slice(bs)`, `none` where the range
leaves the ring. -/
def write_slice (ring : List α) (start : ℕ) (bs : List α) : Option (List α) :=
  if start + bs.length ≤ ring.length then
    some (ring.take start ++ bs ++ ring.drop (start + bs.length))
  else none

def Holds (ring : List α) (start : ℕ) (bs : List α) : Prop :=
  ∀ j b, bs[j]? = some b → ring[start + j]? = some b

variable {ring ring' bs : List α} {start s cap p : ℕ}

variable (h : write_slice ring start bs = some ring')
include h

theorem length_write_slice : ring'.length = ring.length := by
  unfold write_slice at h
  split_ifs at h with hlen
  simp only [some.injEq] at h
  subst h
  simp only [length_append, length_take, length_drop]
  omega

theorem getElem?_write_slice (k : ℕ) :
    ring'[k]? = if start ≤ k ∧ k < start + bs.length then bs[k - start]? else ring[k]? := by
  unfold write_slice at h
  split_ifs at h with hlen
  simp only [some.injEq] at h
  subst h
  have htake : (ring.take start).length = start := by
    rw [length_take]
    omega
  by_cases h1 : k < start
  · rw [if_neg (by omega), append_assoc, getElem?_append_left (by omega),
      getElem?_take_of_lt h1]
  · by_cases h2 : k < start + bs.length
    · rw [if_pos ⟨by omega, h2⟩, append_assoc, getElem?_append_right (by omega), htake,
        getElem?_append_left (by omega)]
    · rw [if_neg (by omega), getElem?_append_right (by rw [length_append]; omega),
        length_append, htake, getElem?_drop]
      congr 1
      omega

omit h in
theorem write_slice_of_le (ring : List α) (start : ℕ) (bs : List α)
    (h : start + bs.length ≤ ring.length) : ∃ ring', write_slice ring start bs = some ring' := by
  unfold write_slice
  rw [if_pos h]
  exact ⟨_, rfl⟩

omit h in
theorem write_slice_append (ring as bs : List α) (start : ℕ) :
    write_slice ring start (as ++ bs) =
      (write_slice ring start as).bind fun r => write_slice r (start + as.length) bs := by
  by_cases hall : start + (as.length + bs.length) ≤ ring.length
  · obtain ⟨r, hr⟩ := write_slice_of_le ring start as (by omega)
    have hlen := length_write_slice hr
    obtain ⟨r', hr'⟩ := write_slice_of_le r (start + as.length) bs (by omega)
    obtain ⟨q, hq⟩ := write_slice_of_le ring start (as ++ bs)
      (by rw [length_append]; omega)
    rw [hr, bind_some, hr', hq, some.injEq]
    refine ext_getElem? fun k => ?_
    rw [getElem?_write_slice hq, getElem?_write_slice hr', getElem?_write_slice hr,
      length_append]
    by_cases h1 : start ≤ k ∧ k < start + as.length
    · rw [if_pos (by omega), if_neg (by omega), if_pos h1, getElem?_append_left (by omega)]
    · by_cases h2 : start + as.length ≤ k ∧ k < start + as.length + bs.length
      · rw [if_pos (by omega), if_pos h2, getElem?_append_right (by omega), Nat.sub_sub]
      · rw [if_neg (by omega), if_neg h2, if_neg h1]
  · have hout : write_slice ring start (as ++ bs) = none := by
      unfold write_slice
      rw [if_neg (by rw [length_append]; omega)]
    rw [hout]
    cases hr : write_slice ring start as with
    | none => rfl
    | some r =>
      have hlen := length_write_slice hr
      rw [bind_some, write_slice, if_neg (by omega)]

theorem holds_write_slice : Holds ring' start bs := by
  intro j b hj
  have hlt : j < bs.length := (List.getElem?_eq_some_iff.mp hj).1
  rw [getElem?_write_slice h, if_pos ⟨by omega, by omega⟩, Nat.add_sub_cancel_left]
  exact hj

omit h

theorem Holds.write {as : List α} {t : ℕ} (h : Holds ring s as)
    (hw : write_slice ring t bs = some ring')
    (hdisj : s + as.length ≤ t ∨ t + bs.length ≤ s) : Holds ring' s as := by
  intro j b hj
  have hlt : j < as.length := (List.getElem?_eq_some_iff.mp hj).1
  rw [getElem?_write_slice hw, if_neg (by omega)]
  exact h j b hj

theorem holds_append {as : List α} :
    Holds ring s (as ++ bs) ↔ Holds ring s as ∧ Holds ring (s + as.length) bs := by
  constructor
  · intro h
    refine ⟨fun j b hj => h j b ?_, fun j b hj => ?_⟩
    · rw [getElem?_append_left (List.getElem?_eq_some_iff.mp hj).1]
      exact hj
    · have hidx : s + as.length + j = s + (as.length + j) := by omega
      rw [hidx]
      refine h _ b ?_
      rw [getElem?_append_right (by omega), Nat.add_sub_cancel_left]
      exact hj
  · rintro ⟨ha, hb⟩ j b hj
    by_cases hlt : j < as.length
    · rw [getElem?_append_left hlt] at hj
      exact ha j b hj
    · rw [getElem?_append_right (by omega)] at hj
      have hidx : s + j = s + as.length + (j - as.length) := by omega
      rw [hidx]
      exact hb _ b hj

theorem Holds.read (h : Holds ring s bs)
    (hlen : s + bs.length ≤ ring.length) : read_slice ring s bs.length = some bs := by
  unfold read_slice
  rw [if_pos hlen, some.injEq]
  refine ext_getElem? fun j => ?_
  by_cases hj : j < bs.length
  · rw [getElem?_take_of_lt hj, getElem?_drop, getElem?_eq_getElem hj]
    exact h j _ (getElem?_eq_getElem hj)
  · rw [getElem?_take_eq_none (by omega), getElem?_eq_none (by omega)]

/-! ## Cells of positions -/

theorem add_mod_cases (hcap : 0 < cap) (p d : ℕ) (hd : d ≤ cap) :
    (p + d) % cap = p % cap + d ∧ p % cap + d < cap ∨ (p + d) % cap + cap = p % cap + d := by
  have hp : p % cap < cap := Nat.mod_lt p hcap
  have hmod : (p + d) % cap = (p % cap + d) % cap := (Nat.mod_add_mod p cap d).symm
  by_cases hlt : p % cap + d < cap
  · left
    exact ⟨by rw [hmod, Nat.mod_eq_of_lt hlt], hlt⟩
  · right
    rw [hmod, Nat.mod_eq_sub_mod (by omega), Nat.mod_eq_of_lt (by omega)]
    omega

/-- Two runs of positions within one turn of the ring share no cell. -/
theorem cells_disjoint {q m n : ℕ} (hcap : 0 < cap) (hq : q % cap + n ≤ cap)
    (hbehind : p + m ≤ q) (hturn : q + n ≤ p + cap) :
    p % cap + m ≤ q % cap ∨ q % cap + n ≤ p % cap := by
  obtain ⟨d, rfl⟩ : ∃ d, q = p + d := ⟨q - p, by omega⟩
  rcases add_mod_cases hcap p d (by omega) with ⟨hmod, -⟩ | hmod
  · left
    omega
  · right
    omega

/-! ## Pieces -/

/-- Consecutive positions, the first of which hold `bytes`; the rest is waste. -/
structure Piece (α : Type) where
  bytes : List α
  len : ℕ
  fits : bytes.length ≤ len

def total (xs : List (Piece α)) : ℕ := (xs.map Piece.len).sum

@[simp] theorem total_nil : total ([] : List (Piece α)) = 0 := rfl

@[simp] theorem total_cons (x : Piece α) (xs : List (Piece α)) :
    total (x :: xs) = x.len + total xs := rfl

@[simp] theorem total_append (xs ys : List (Piece α)) : total (xs ++ ys) = total xs + total ys := by
  simp only [total, map_append, sum_append]

/-- The pieces lie in the ring one behind the other from position `p` on, none
across its end. -/
def Laid (ring : List α) (cap : ℕ) : ℕ → List (Piece α) → Prop
  | _, [] => True
  | p, x :: xs => p % cap + x.len ≤ cap ∧ Holds ring (p % cap) x.bytes ∧ Laid ring cap (p + x.len) xs

variable {xs : List (Piece α)}

theorem laid_append {ys : List (Piece α)} :
    Laid ring cap p (xs ++ ys) ↔ Laid ring cap p xs ∧ Laid ring cap (p + total xs) ys := by
  induction xs generalizing p with
  | nil => simp [Laid]
  | cons x xs ih =>
    simp only [cons_append, Laid, ih, total_cons, Nat.add_assoc, and_assoc]

theorem Laid.write {q : ℕ} (h : Laid ring cap p xs) (hcap : 0 < cap) (hbehind : p + total xs ≤ q)
    (hturn : q + bs.length ≤ p + cap) (hq : q % cap + bs.length ≤ cap)
    (hw : write_slice ring (q % cap) bs = some ring') : Laid ring' cap p xs := by
  induction xs generalizing p with
  | nil => trivial
  | cons x xs ih =>
    obtain ⟨hfit, hx, hrest⟩ := h
    rw [total_cons] at hbehind
    refine ⟨hfit, hx.write hw ?_, ih hrest (by omega) (by omega)⟩
    have hfits := x.fits
    rcases cells_disjoint hcap hq (m := x.len) (by omega) hturn with hd | hd
    · left
      omega
    · right
      exact hd

theorem Laid.snoc {x : Piece α}
    (h : Laid ring cap p xs) (hcap : 0 < cap) (hfit : (p + total xs) % cap + x.len ≤ cap)
    (hturn : total xs + x.len ≤ cap)
    (hw : write_slice ring ((p + total xs) % cap) x.bytes = some ring') :
    Laid ring' cap p (xs ++ [x]) := by
  have hfits := x.fits
  rw [laid_append]
  refine ⟨h.write hcap (Nat.le_refl _) (by omega) (by omega) hw, hfit, holds_write_slice hw, trivial⟩

theorem add_mod_of_lt {d : ℕ} (h : p % cap + d < cap) : (p + d) % cap = p % cap + d := by
  rw [← Nat.mod_add_mod, Nat.mod_eq_of_lt h]

theorem add_mod_of_eq {d : ℕ} (h : p % cap + d = cap) : (p + d) % cap = 0 := by
  rw [← Nat.mod_add_mod, h, Nat.mod_self]

end NexusVfs.ByteRing
