/-
One register under last writer wins.

The owner sets and deletes it; a replica is sent the same writes, but compares each with
what it holds. A set is skipped if its stamp is lower than the held value's, a deletion
if its time is lower than the held value's age. The two clocks of a value need not
agree.
-/
import Mathlib.Data.List.Basic
import Mathlib.Order.Lattice

namespace NexusVfs.Lww

open List Option

inductive Write (V T : Type) where
  | set (v : V)
  | delete (time : T)
  deriving DecidableEq

/-- The clocks a value is compared by: with another value, and with a deletion. -/
structure Clocks (V S T : Type) where
  stamp : V → S
  age : V → T

variable {V S T : Type}

def put (_x : Option V) : Write V T → Option V
  | .set v => some v
  | .delete _ => none

def held (x : Option V) : List (Write V T) → Option V
  | [] => x
  | .set v :: ws => held (some v) ws
  | .delete _ :: ws => held x ws

/-- The times of the deletions behind the last value set, after the given ones. -/
def trailing (ts : List T) : List (Write V T) → List T
  | [] => ts
  | .set _ :: ws => trailing [] ws
  | .delete t :: ws => trailing (ts ++ [t]) ws

def values : List (Write V T) → List V
  | [] => []
  | .set v :: ws => v :: values ws
  | .delete _ :: ws => values ws

theorem foldl_put_append (y : Option V) (ts : List T) (ws : List (Write V T)) :
    ws.foldl put (if ts = [] then y else none) =
      if trailing ts ws = [] then held y ws else none := by
  induction ws generalizing y ts with
  | nil => rfl
  | cons w ws ih =>
    cases w with
    | set v => exact ih (some v) []
    | delete t =>
      have hne : ts ++ [t] ≠ [] := append_ne_nil_of_right_ne_nil _ (cons_ne_nil _ _)
      have hrest := ih y (ts ++ [t])
      rw [if_neg hne] at hrest
      exact hrest

variable {ws : List (Write V T)} {c : Clocks V S T} {x : Option V}

theorem held_of_trailing_nil {ts : List T} (h : trailing ts ws = []) :
    (ws = [] ∧ ts = []) ∨ ∃ v, ∀ x, held x ws = some v := by
  induction ws generalizing ts with
  | nil => exact .inl ⟨rfl, h⟩
  | cons w ws ih =>
    right
    cases w with
    | set v =>
      rcases ih h with ⟨rfl, -⟩ | ⟨v', hv'⟩
      · exact ⟨v, fun _ => rfl⟩
      · exact ⟨v', fun _ => hv' _⟩
    | delete t =>
      rcases ih h with ⟨-, hts⟩ | ⟨v', hv'⟩
      · exact absurd hts (append_ne_nil_of_right_ne_nil _ (cons_ne_nil _ _))
      · exact ⟨v', fun _ => hv' _⟩

section Deletions

variable [LT T] [DecidableLT T]

/-- A value survives deletions that are all older than it. -/
def survives (c : Clocks V S T) (ts : List T) (v : V) : Bool := ts.all fun t => decide (t < c.age v)

theorem survives_append (c : Clocks V S T) (ts : List T) (t : T) (v : V) :
    survives c (ts ++ [t]) v = (survives c ts v && decide (t < c.age v)) := by
  simp [survives]

end Deletions

section InOrder

variable [LT S]

/-- What a replica holds and then the values it is sent: no stamp is lower than one before it. -/
def InOrder (c : Clocks V S T) (x : Option V) (ws : List (Write V T)) : Prop :=
  (x.toList ++ values ws).Pairwise fun y v => ¬ c.stamp v < c.stamp y

theorem InOrder.set {v : V} (h : InOrder c x (.set v :: ws)) : InOrder c (some v) ws :=
  (pairwise_append.mp h).2.1

variable [DecidableLT S] [LT T] [DecidableLT T]

def merge (c : Clocks V S T) (x : Option V) : Write V T → Option V
  | .set v =>
    match x with
    | some y => if c.stamp v < c.stamp y then some y else some v
    | none => some v
  | .delete t =>
    match x with
    | some y => if t < c.age y then some y else none
    | none => none

theorem merge_set_eq (c : Clocks V S T) (x : Option V) (v : V) :
    merge c x (.set v) = if x.all fun y => !decide (c.stamp v < c.stamp y) then some v else x := by
  cases x with
  | none => rfl
  | some y => by_cases hlt : c.stamp v < c.stamp y <;> simp [merge, hlt]

theorem merge_delete_eq (c : Clocks V S T) (x : Option V) (t : T) :
    merge c x (.delete t) = if x.all fun y => !decide (t < c.age y) then none else x := by
  cases x with
  | none => rfl
  | some y => by_cases hlt : t < c.age y <;> simp [merge, hlt]

theorem InOrder.merge_set {y : Option V} {v : V} (h : InOrder c x (.set v :: ws))
    (hy : ∀ u, y = some u → x = some u) : merge c y (.set v) = some v := by
  cases y with
  | none => rfl
  | some u =>
    have hmem : u ∈ x.toList := mem_toList.mpr (hy u rfl)
    have hle := (pairwise_append.mp h).2.2 u hmem v mem_cons_self
    exact if_neg hle

theorem foldl_merge_append (ts : List T) (h : InOrder c x ws) :
    ws.foldl (merge c) (x.filter (survives c ts)) =
      (held x ws).filter (survives c (trailing ts ws)) := by
  -- the register is the value held, as far as it survives the deletions since
  induction ws generalizing x ts with
  | nil => rfl
  | cons w ws ih =>
    rw [foldl_cons]
    cases w with
    | set v =>
      rw [h.merge_set fun u hu => (filter_eq_some_iff.mp hu).1]
      exact ih [] h.set
    | delete t =>
      have hrest := ih (ts ++ [t]) h
      rw [trailing, held, ← hrest]
      congr 1
      cases x with
      | none => rfl
      | some y =>
        rw [filter_some, filter_some, survives_append]
        cases hs : survives c ts y with
        | false => rfl
        | true =>
          simp only [merge, if_true, Bool.true_and, decide_eq_true_eq]

theorem foldl_merge (h : InOrder c x ws) :
    ws.foldl (merge c) x = (held x ws).filter (survives c (trailing [] ws)) := by
  have hfold := foldl_merge_append [] h
  have hall : x.filter (survives c []) = x := by cases x <;> rfl
  rw [hall] at hfold
  exact hfold

/-- A replica that holds `x` and an owner that holds `y` end the same after the same writes exactly
if they start the same in case there are none, and in case they end with deletions, one of these is
late enough for the value the replica holds. -/
theorem merge_eq_put_iff {y : Option V} (h : InOrder c x ws) :
    ws.foldl (merge c) x = ws.foldl put y ↔ (ws = [] → x = y) ∧
      (trailing [] ws ≠ [] → ∀ v, held x ws = some v → ∃ t ∈ trailing [] ws, ¬ t < c.age v) := by
  rw [foldl_merge h, show ws.foldl put y = _ from foldl_put_append y [] ws]
  by_cases hts : trailing [] ws = []
  · have hall (z : Option V) : z.filter (survives c []) = z := by cases z <;> rfl
    rw [hts, hall]
    rcases held_of_trailing_nil hts with ⟨rfl, -⟩ | ⟨v, hv⟩
    · exact ⟨fun heq => ⟨fun _ => heq, fun hne => absurd rfl hne⟩, fun hboth => hboth.1 rfl⟩
    · rw [hv x, hv y]
      refine ⟨fun _ => ⟨?_, fun hne => absurd rfl hne⟩, fun _ => rfl⟩
      rintro rfl
      exact (hv x).trans (hv y).symm
  · rw [if_neg hts, filter_eq_none_iff]
    have hne : ws ≠ [] := by
      rintro rfl
      exact hts rfl
    constructor
    · intro hnone
      refine ⟨fun hnil => absurd hnil hne, fun _ v hv => ?_⟩
      have hdead := hnone v hv
      simpa [survives] using hdead
    · rintro ⟨-, hlate⟩ v hv
      simpa [survives] using hlate hts v hv

end InOrder

/-! ## Sets in any order -/

section Latest

variable [LinearOrder S]

/-- The values a register has seen: the one it held, and those it was sent. -/
def Seen (x : Option V) (ws : List (Write V T)) (v : V) : Prop := x = some v ∨ .set v ∈ ws

/-- The register holds a value of `P` that none of them is later than, or there is none. -/
def Latest (c : Clocks V S T) (P : V → Prop) : Option V → Prop
  | none => ∀ u, ¬ P u
  | some v => P v ∧ ∀ u, P u → c.stamp u ≤ c.stamp v

theorem Latest.unique {P : V → Prop} {x y : Option V} (hx : Latest c P x) (hy : Latest c P y)
    (hstamps : ∀ u v, P u → P v → c.stamp u = c.stamp v → u = v) : x = y := by
  cases x with
  | none =>
    cases y with
    | none => rfl
    | some v => exact absurd hy.1 (hx v)
  | some u =>
    cases y with
    | none => exact absurd hx.1 (hy u)
    | some v => rw [hstamps u v hx.1 hy.1 (le_antisymm (hy.2 u hx.1) (hx.2 v hy.1))]

variable [LT T] [DecidableLT T]

theorem merge_set_latest (c : Clocks V S T) (x : Option V) (v : V) :
    ∃ y, merge c x (.set v) = some y ∧ (x = some y ∨ v = y) ∧ c.stamp v ≤ c.stamp y ∧
      ∀ u, x = some u → c.stamp u ≤ c.stamp y := by
  cases x with
  | none => exact ⟨v, rfl, .inr rfl, le_rfl, fun u hu => by cases hu⟩
  | some y =>
    by_cases hlt : c.stamp v < c.stamp y
    · exact ⟨y, if_pos hlt, .inl rfl, hlt.le, fun u hu => by cases hu; rfl⟩
    · exact ⟨v, if_neg hlt, .inr rfl, le_rfl, fun u hu => by cases hu; exact not_lt.mp hlt⟩

/-- In whatever order sets arrive and however often, the register ends with the latest value that it
has seen. -/
theorem latest_foldl_merge (hsets : ∀ w ∈ ws, ∃ v, w = .set v) :
    Latest c (Seen x ws) (ws.foldl (merge c) x) := by
  induction ws generalizing x with
  | nil =>
    cases x with
    | none => simp [Latest, Seen]
    | some v => simp [Latest, Seen]
  | cons w ws ih =>
    obtain ⟨v, rfl⟩ := hsets w mem_cons_self
    -- the rest of the writes starts from `y`, the later of what was held and the first value
    obtain ⟨y, hmerge, hy, hv, hx⟩ := merge_set_latest c x v
    have hrest := ih (x := some y) fun w hw => hsets w (mem_cons_of_mem _ hw)
    rw [foldl_cons, hmerge]
    cases hlast : ws.foldl (merge c) (some y) with
    | none =>
      rw [hlast] at hrest
      exact absurd (.inl rfl) (hrest y)
    | some f =>
      rw [hlast] at hrest
      obtain ⟨hseen, hlatest⟩ := hrest
      have hyf := hlatest y (.inl rfl)
      constructor
      · rcases hseen with hf | hf
        · cases hf
          rcases hy with hy | rfl
          · exact .inl hy
          · exact .inr mem_cons_self
        · exact .inr (mem_cons_of_mem _ hf)
      · rintro u (hu | hu)
        · exact (hx u hu).trans hyf
        · rcases mem_cons.mp hu with hu | hu
          · cases hu
            exact hv.trans hyf
          · exact hlatest u (.inr hu)

end Latest

end NexusVfs.Lww
