/-
Cumulative acknowledgement: one number stands for everything up to it.

The answer of a receiver is sound if every number up to it is accounted for (`UpTo`),
which it is if a batch skips nothing that matters (`Closed`).
-/
import Mathlib.Data.List.Basic

namespace NexusVfs.Cumulative

open List

variable {β : Type} {P Q : ℕ → Prop} {xs : List (ℕ × β)}

def UpTo (P : ℕ → Prop) (a : ℕ) : Prop := ∀ s, s ≤ a → P s

theorem UpTo.imp {a : ℕ} (h : UpTo P a) (himp : ∀ s, s ≤ a → P s → Q s) : UpTo Q a :=
  fun s hs => himp s hs (h s hs)

theorem UpTo.max {a b : ℕ} (ha : UpTo P a) (hb : UpTo P b) : UpTo P (max a b) := by
  intro s hs
  rcases Nat.le_total a b with hab | hab
  · rw [Nat.max_eq_right hab] at hs
    exact hb s hs
  · rw [Nat.max_eq_left hab] at hs
    exact ha s hs

/-- Above `lo`, a number not beyond some item is an item or accounted for. -/
def Complete (P : ℕ → Prop) (lo : ℕ) (xs : List (ℕ × β)) : Prop :=
  ∀ r ∈ xs, ∀ s, lo < s → s ≤ r.1 → P s ∨ s ∈ xs.map Prod.fst

theorem Complete.imp {lo lo' : ℕ} (h : Complete P lo xs) (hlo : lo ≤ lo')
    (himp : ∀ r ∈ xs, ∀ s, s ≤ r.1 → P s → Q s) : Complete Q lo' xs := by
  intro r hr s hs hle
  rcases h r hr s (Nat.lt_of_le_of_lt hlo hs) hle with hp | hmem
  · exact .inl (himp r hr s hle hp)
  · exact .inr hmem

def Closed (P : ℕ → Prop) (xs : List (ℕ × β)) : Prop :=
  ∀ r ∈ xs, UpTo (fun s => P s ∨ s ∈ xs.map Prod.fst) r.1

theorem Closed.imp (h : Closed P xs) (himp : ∀ r ∈ xs, ∀ s, s ≤ r.1 → P s → Q s) : Closed Q xs := by
  intro r hr
  refine (h r hr).imp fun s hs hp => ?_
  rcases hp with hp | hmem
  · exact .inl (himp r hr s hs hp)
  · exact .inr hmem

theorem Closed.upTo (h : Closed P xs) (hitems : ∀ s ∈ xs.map Prod.fst, P s) {r : ℕ × β}
    (hr : r ∈ xs) : UpTo P r.1 := by
  intro s hs
  rcases h r hr s hs with hp | hmem
  · exact hp
  · exact hitems s hmem

/-- The first `n` items above `a` form a closed batch, if everything up to `a` is accounted for. -/
theorem Complete.batch {lo a : ℕ} (h : Complete P lo xs)
    (hsorted : xs.Pairwise fun x y => x.1 < y.1) (hlo : lo ≤ a) (hdone : UpTo P a) (n : ℕ) :
    Closed P ((xs.filter fun x => decide (a < x.1)).take n) := by
  intro r hr s hs
  by_cases hsa : s ≤ a
  · exact .inl (hdone s hsa)
  · have hrx : r ∈ xs := mem_of_mem_filter (mem_of_mem_take hr)
    rcases h r hrx s (by omega) hs with hp | hmem
    · exact .inl hp
    · right
      obtain ⟨x, hx, rfl⟩ := mem_map.mp hmem
      have hxf : x ∈ xs.filter fun x => decide (a < x.1) :=
        mem_filter.mpr ⟨hx, decide_eq_true (by omega)⟩
      -- an item that the cut leaves out is above every item it takes
      have hcut := (hsorted.filter fun x => decide (a < x.1))
      rw [← take_append_drop n (xs.filter fun x => decide (a < x.1))] at hxf hcut
      rcases mem_append.mp hxf with hin | hout
      · exact mem_map_of_mem hin
      · have hlt := (pairwise_append.mp hcut).2.2 r hr x hout
        omega

end NexusVfs.Cumulative
