/-
References and reference counts.

A ledger has places that each refer to at most one target, and a count for every target.
The debt of a target is what its count lacks of the number of places that refer to it;
each operation changes it by an amount that does not depend on the rest of the ledger.
-/
import Mathlib.Data.Set.Card

namespace NexusVfs.LinkLedger

variable {κ τ : Type}

@[ext]
structure Ledger (κ τ : Type) where
  refs : κ → Option τ
  counts : τ → ℤ
  finite : {k | refs k ≠ none}.Finite

namespace Ledger

def holders (L : Ledger κ τ) (t : τ) : Set κ := {k | L.refs k = some t}

theorem holders_finite (L : Ledger κ τ) (t : τ) : (L.holders t).Finite := by
  refine L.finite.subset fun k hk => ?_
  rw [Set.mem_ofPred_eq, show L.refs k = some t from hk]
  simp

noncomputable def links (L : Ledger κ τ) (t : τ) : ℤ := (L.holders t).ncard

noncomputable def debt (L : Ledger κ τ) (t : τ) : ℤ := L.links t - L.counts t

theorem links_nonneg (L : Ledger κ τ) (t : τ) : 0 ≤ L.links t := Int.natCast_nonneg _

variable {L : Ledger κ τ} {k : κ} {t : τ}

theorem links_pos (h : L.refs k = some t) : 0 < L.links t := by
  have hpos : 0 < (L.holders t).ncard := (Set.ncard_pos (L.holders_finite t)).mpr ⟨k, h⟩
  unfold links
  omega

theorem links_eq_zero (h : ∀ k, L.refs k ≠ some t) : L.links t = 0 := by
  have hnone : L.holders t = ∅ := Set.eq_empty_of_forall_notMem h
  unfold links
  rw [hnone, Set.ncard_empty]
  rfl

/-! ## The two operations -/

set_option linter.unusedSectionVars false

variable [DecidableEq κ] [DecidableEq τ]

def set (L : Ledger κ τ) (k : κ) (o : Option τ) : Ledger κ τ where
  refs := Function.update L.refs k o
  counts := L.counts
  finite := by
    refine (L.finite.insert k).subset fun x hx => ?_
    by_cases hxk : x = k
    · exact .inl hxk
    · rw [Set.mem_ofPred_eq, Function.update_of_ne hxk] at hx
      exact .inr hx

def adjust (L : Ledger κ τ) (t : τ) (amount : ℤ) : Ledger κ τ where
  refs := L.refs
  counts := Function.update L.counts t (L.counts t + amount)
  finite := L.finite

variable (L)

@[simp] theorem refs_adjust (t : τ) (amount : ℤ) :
    (L.adjust t amount).refs = L.refs := rfl

@[simp] theorem counts_set (k : κ) (o : Option τ) :
    (L.set k o).counts = L.counts := rfl

theorem refs_set (k a : κ) (o : Option τ) :
    (L.set k o).refs a = if a = k then o else L.refs a := Function.update_apply _ _ _ _

theorem set_same {L : Ledger κ τ} {o : Option τ} (h : L.refs k = o) : L.set k o = L := by
  apply Ledger.ext
  · funext a
    rw [refs_set]
    split_ifs with ha
    · rw [ha, h]
    · rfl
  · rfl

theorem counts_adjust (t u : τ) (amount : ℤ) :
    (L.adjust t amount).counts u = L.counts u + if u = t then amount else 0 := by
  unfold adjust
  dsimp only
  rw [Function.update_apply]
  split_ifs with h
  · rw [h]
  · rw [add_zero]

theorem adjust_zero (t : τ) : L.adjust t 0 = L := by
  apply Ledger.ext
  · rfl
  · funext u
    rw [counts_adjust, ite_self, add_zero]

@[simp] theorem links_adjust (t : τ) (amount : ℤ) :
    (L.adjust t amount).links = L.links := rfl

theorem ncard_holders_without (k : κ) (t : τ) :
    ((L.holders t \ {k}).ncard : ℤ) = L.links t - if L.refs k = some t then 1 else 0 := by
  unfold links
  split_ifs with hk
  · have hmem : k ∈ L.holders t := hk
    have hpos := (Set.ncard_pos (L.holders_finite t)).mpr ⟨k, hmem⟩
    rw [Set.ncard_sdiff_singleton_of_mem hmem]
    omega
  · have hnot : k ∉ L.holders t := hk
    rw [Set.sdiff_singleton_eq_self hnot, sub_zero]

theorem links_set (k : κ) (o : Option τ) (t : τ) :
    (L.set k o).links t =
      L.links t + (if o = some t then 1 else 0) - if L.refs k = some t then 1 else 0 := by
  have hwithout := L.ncard_holders_without k t
  have hrefs (x : κ) : x ∈ (L.set k o).holders t ↔ (if x = k then o else L.refs x) = some t := by
    rw [← L.refs_set k x o]
    rfl
  by_cases ho : o = some t
  · have hset : (L.set k o).holders t = insert k (L.holders t \ {k}) := by
      ext x
      rw [hrefs, Set.mem_insert_iff, Set.mem_sdiff, Set.mem_singleton_iff]
      by_cases hx : x = k
      · simp [hx, ho]
      · simp only [hx, not_false_eq_true, and_true, false_or]
        rfl
    have hcard : ((L.set k o).holders t).ncard = (L.holders t \ {k}).ncard + 1 := by
      rw [hset]
      exact Set.ncard_insert_of_notMem (by simp) ((L.holders_finite t).sdiff)
    rw [if_pos ho]
    unfold links at hwithout ⊢
    omega
  · have hset : (L.set k o).holders t = L.holders t \ {k} := by
      ext x
      rw [hrefs, Set.mem_sdiff, Set.mem_singleton_iff]
      by_cases hx : x = k
      · simp [hx, ho]
      · simp only [hx, not_false_eq_true, and_true]
        rfl
    rw [if_neg ho]
    unfold links at hwithout ⊢
    rw [hset]
    omega

theorem debt_set (k : κ) (o : Option τ) (t : τ) :
    (L.set k o).debt t =
      L.debt t + (if o = some t then 1 else 0) - if L.refs k = some t then 1 else 0 := by
  unfold debt
  rw [links_set, counts_set]
  omega

theorem debt_adjust (t u : τ) (amount : ℤ) :
    (L.adjust t amount).debt u = L.debt u - if u = t then amount else 0 := by
  unfold debt
  rw [links_adjust, counts_adjust]
  omega

/-! ## Balance -/

def Balanced (L : Ledger κ τ) : Prop := ∀ t, L.debt t = 0

variable {L}

theorem Balanced.counts_eq (h : L.Balanced) (t : τ) : L.counts t = L.links t := by
  have ht := h t
  unfold debt at ht
  omega

theorem Balanced.link (h : L.Balanced) (hk : L.refs k = none) (t : τ) :
    ((L.set k (some t)).adjust t 1).Balanced := by
  intro u
  rw [debt_adjust, debt_set, h u, hk]
  by_cases hu : u = t
  · simp [hu]
  · simp [hu, Ne.symm hu]

theorem Balanced.unlink (h : L.Balanced) (hk : L.refs k = some t) :
    ((L.set k none).adjust t (-1)).Balanced := by
  intro u
  rw [debt_adjust, debt_set, h u, hk]
  by_cases hu : u = t
  · simp [hu]
  · simp [hu, Ne.symm hu]

end Ledger

end NexusVfs.LinkLedger
