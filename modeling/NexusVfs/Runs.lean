/-
Computations that may fail, and runs of a partial step function.

`run_invariant` lifts what one step preserves to a whole run, and `along` restricts a
run to steps that meet a condition: it sits on the steps, never on the states the run
reaches.
-/
import Mathlib.Data.List.Basic

namespace NexusVfs.Runs

open List

/-! ## Failure -/

variable {α ε : Type}

variable {β : Type} {x : Except ε α} {f : α → Except ε β} {b : β} {a : α}

theorem bind_eq_ok : (x >>= f) = .ok b ↔ ∃ a, x = .ok a ∧ f a = .ok b := by
  cases x with
  | error e =>
    constructor
    · intro h
      cases h
    · rintro ⟨a, h, -⟩
      cases h
  | ok a =>
    constructor
    · intro h
      exact ⟨a, rfl, h⟩
    · rintro ⟨a', h, hf⟩
      cases h
      exact hf

theorem pure_eq_ok {b : α} : (pure a : Except ε α) = .ok b ↔ a = b := by
  constructor
  · intro h
    cases h
    rfl
  · rintro rfl
    rfl

theorem ok_pair_inj {a' : α} {b' : β}
    (h : (.ok (a, b) : Except ε (α × β)) = .ok (a', b')) : a = a' ∧ b = b' :=
  Prod.mk.inj (Except.ok.inj h)

theorem mem_of_mapM_eq_ok {xs : List α} {ys : List β}
    (h : xs.mapM f = .ok ys) {y : β} (hy : y ∈ ys) : ∃ x ∈ xs, f x = .ok y := by
  induction xs generalizing ys with
  | nil =>
    cases pure_eq_ok.mp h
    cases hy
  | cons x xs ih =>
    rw [mapM_cons] at h
    obtain ⟨z, hz, h⟩ := bind_eq_ok.mp h
    obtain ⟨zs, hzs, h⟩ := bind_eq_ok.mp h
    cases pure_eq_ok.mp h
    rcases mem_cons.mp hy with rfl | hy
    · exact ⟨x, mem_cons_self, hz⟩
    · obtain ⟨x', hx', hfx⟩ := ih hzs hy
      exact ⟨x', mem_cons_of_mem _ hx', hfx⟩

/-- `x` succeeds with a value that passes `p`; evaluates, so that a concrete computation can be
checked by running it. -/
def succeeds {ε α : Type} (x : Except ε α) (p : α → Bool) : Bool :=
  match x with
  | .ok a => p a
  | .error _ => false

theorem succeeds_iff {p : α → Bool} : succeeds x p = true ↔ ∃ a, x = .ok a ∧ p a = true := by
  cases x with
  | error e => simp [succeeds]
  | ok a => simp [succeeds]

/-! ## Runs -/

section Run

variable {σ ι ρ : Type}

/-- The states and answers of a run: `step` is given the state and an input, and
either stops the system (`none`) or answers and moves on. -/
def run (step : σ → ι → Option (ρ × σ)) : σ → List ι → Option (List ρ × σ)
  | s, [] => some ([], s)
  | s, i :: is =>
    match step s i with
    | none => none
    | some (r, s') =>
      match run step s' is with
      | none => none
      | some (rs, s'') => some (r :: rs, s'')

variable {step : σ → ι → Option (ρ × σ)}

variable {s t : σ} {rs : List ρ} {ok : σ → ι → Prop}

variable {is : List ι}

theorem run_cons {i : ι} :
    run step s (i :: is) = some (rs, t) ↔
      ∃ r s' rs', step s i = some (r, s') ∧ run step s' is = some (rs', t) ∧ rs = r :: rs' := by
  rw [run]
  constructor
  · intro h
    cases hs : step s i with
    | none => rw [hs] at h; cases h
    | some p =>
      rw [hs] at h
      dsimp only at h
      cases hr : run step p.2 is with
      | none => rw [hr] at h; cases h
      | some q =>
        rw [hr] at h
        cases h
        exact ⟨p.1, p.2, q.1, rfl, hr, rfl⟩
  · rintro ⟨r, s', rs', hs, hr, rfl⟩
    simp only [hs, hr]

theorem run_decides (step : σ → ι → Option (ρ × σ)) (s : σ) (is : List ι) (P : List ρ → σ → Prop)
    [∀ rs t, Decidable (P rs t)] (h : (run step s is).any (fun p => decide (P p.1 p.2)) = true) :
    ∃ rs t, run step s is = some (rs, t) ∧ P rs t := by
  obtain ⟨⟨rs, t⟩, hrun, hP⟩ := (Option.any_eq_true _ _).mp h
  exact ⟨rs, t, hrun, of_decide_eq_true hP⟩

theorem exists_run {Q : List ρ → σ → Prop} (P : List ρ → σ → Prop) [∀ rs t, Decidable (P rs t)]
    (h : (run step s is).any (fun p => decide (P p.1 p.2)) = true)
    (hQ : ∀ rs t, run step s is = some (rs, t) → P rs t → Q rs t) :
    ∃ rs t, run step s is = some (rs, t) ∧ Q rs t := by
  obtain ⟨rs, t, hrun, hP⟩ := run_decides step s is P h
  exact ⟨rs, t, hrun, hQ rs t hrun hP⟩

/-- Every step of the run from `s` on meets `ok`. -/
def along (step : σ → ι → Option (ρ × σ)) (ok : σ → ι → Prop) : σ → List ι → Prop
  | _, [] => True
  | s, i :: is => ok s i ∧ ∀ r s', step s i = some (r, s') → along step ok s' is

theorem along_of_forall_mem (h : ∀ s, ∀ i ∈ is, ok s i) : along step ok s is := by
  induction is generalizing s with
  | nil => trivial
  | cons i is ih =>
    exact ⟨h s i mem_cons_self, fun _ _ _ => ih fun s j hj => h s j (mem_cons_of_mem _ hj)⟩

theorem along_append {js : List ι} :
    along step ok s (is ++ js) ↔
      along step ok s is ∧ ∀ rs t, run step s is = some (rs, t) → along step ok t js := by
  induction is generalizing s with
  | nil =>
    constructor
    · intro h
      refine ⟨trivial, fun rs t hrun => ?_⟩
      cases hrun
      exact h
    · intro h
      exact h.2 [] s rfl
  | cons i is ih =>
    constructor
    · rintro ⟨hi, hrest⟩
      refine ⟨⟨hi, fun r s' hs => (ih.mp (hrest r s' hs)).1⟩, fun rs t hrun => ?_⟩
      obtain ⟨r, s', rs', hs, hr, -⟩ := run_cons.mp hrun
      exact (ih.mp (hrest r s' hs)).2 rs' t hr
    · rintro ⟨⟨hi, hrest⟩, hafter⟩
      refine ⟨hi, fun r s' hs => ih.mpr ⟨hrest r s' hs, fun rs t hr => ?_⟩⟩
      exact hafter (r :: rs) t (run_cons.mpr ⟨r, s', rs, hs, hr, rfl⟩)

def along_check (step : σ → ι → Option (ρ × σ)) (check : σ → ι → Bool) : σ → List ι → Bool
  | _, [] => true
  | s, i :: is =>
    check s i &&
      match step s i with
      | none => true
      | some (_, s') => along_check step check s' is

theorem along_of_check {check : σ → ι → Bool} (hcheck : ∀ s i, check s i = true → ok s i)
    (h : along_check step check s is = true) : along step ok s is := by
  induction is generalizing s with
  | nil => trivial
  | cons i is ih =>
    obtain ⟨hi, hrest⟩ := (Bool.and_eq_true _ _).mp h
    refine ⟨hcheck s i hi, fun r s' hs => ?_⟩
    rw [hs] at hrest
    exact ih hrest

theorem run_answer (hrun : run step s is = some (rs, t)) {r : ρ} (hr : r ∈ rs) :
    ∃ before i after rs₁ rs₂ s₁ s₂, is = before ++ i :: after ∧
      run step s before = some (rs₁, s₁) ∧ step s₁ i = some (r, s₂) ∧
      run step s₂ after = some (rs₂, t) := by
  induction is generalizing s rs with
  | nil =>
    cases hrun
    cases hr
  | cons i is ih =>
    obtain ⟨r', s', rs', h1, h2, rfl⟩ := run_cons.mp hrun
    rcases mem_cons.mp hr with rfl | hr
    · exact ⟨[], i, is, [], rs', s, s', rfl, rfl, h1, h2⟩
    · obtain ⟨before, j, after, rs₁, rs₂, s₁, s₂, rfl, hbefore, hj, hafter⟩ := ih h2 hr
      exact ⟨i :: before, j, after, r' :: rs₁, rs₂, s₁, s₂, rfl,
        run_cons.mpr ⟨r', s', rs₁, h1, hbefore, rfl⟩, hj, hafter⟩

/-- What every step that meets `ok` preserves, every run of such steps preserves. -/
theorem run_invariant (Inv : σ → Prop)
    (hstep : ∀ s i r s', Inv s → ok s i → step s i = some (r, s') → Inv s')
    (hs : Inv s) (hok : along step ok s is) (hrun : run step s is = some (rs, t)) : Inv t := by
  induction is generalizing s rs with
  | nil =>
    cases hrun
    exact hs
  | cons i is ih =>
    obtain ⟨r, s', rs', h1, h2, rfl⟩ := run_cons.mp hrun
    exact ih (hstep s i r s' hs hok.1 h1) (hok.2 r s' h1) h2

/-- A relation every step keeps is kept between the ends of a run, if it composes and the invariant
that lets the steps keep it is preserved too. -/
theorem run_relation (Inv : σ → Prop) (R : σ → σ → Prop) (hrefl : ∀ s, R s s)
    (htrans : ∀ s t u, R s t → R t u → R s u)
    (hstep : ∀ s i r s', Inv s → ok s i → step s i = some (r, s') → Inv s' ∧ R s s')
    (hs : Inv s) (hok : along step ok s is) (hrun : run step s is = some (rs, t)) : R s t := by
  induction is generalizing s rs with
  | nil =>
    cases hrun
    exact hrefl _
  | cons i is ih =>
    obtain ⟨r, s', rs', h1, h2, rfl⟩ := run_cons.mp hrun
    obtain ⟨hinv, hR⟩ := hstep s i r s' hs hok.1 h1
    exact htrans s s' t hR (ih hinv (hok.2 r s' h1) h2)

/-- Where a step from a good state ends in a good state exactly if it meets `ok`, every state of a
run is good exactly if all its steps meet `ok`. -/
theorem reached_iff_along {dom : σ → ι → Prop} (Good : σ → Prop)
    (htotal : ∀ s i, ∃ r s', step s i = some (r, s'))
    (hstep : ∀ s i r s', Good s → dom s i → step s i = some (r, s') → (Good s' ↔ ok s i))
    (hs : Good s) (hdom : along step dom s is) :
    (∀ before after rs t, is = before ++ after → run step s before = some (rs, t) → Good t) ↔
      along step ok s is := by
  induction is generalizing s with
  | nil =>
    refine ⟨fun _ => trivial, fun _ before after rs t hsplit hrun => ?_⟩
    obtain ⟨rfl, -⟩ := append_eq_nil_iff.mp hsplit.symm
    cases hrun
    exact hs
  | cons i is ih =>
    obtain ⟨hi, hrest⟩ := hdom
    constructor
    · intro h
      have hnext (r : ρ) (s' : σ) (h1 : step s i = some (r, s')) : Good s' :=
        h [i] is [r] s' rfl (run_cons.mpr ⟨r, s', [], h1, rfl, rfl⟩)
      obtain ⟨r, s', h1⟩ := htotal s i
      refine ⟨(hstep s i r s' hs hi h1).mp (hnext r s' h1), fun r s' h1 => ?_⟩
      refine (ih (hnext r s' h1) (hrest r s' h1)).mp fun before after rs t hsplit hrun => ?_
      exact h (i :: before) after (r :: rs) t (by rw [hsplit]; rfl)
        (run_cons.mpr ⟨r, s', rs, h1, hrun, rfl⟩)
    · rintro ⟨hok, hmore⟩ before after rs t hsplit hrun
      cases before with
      | nil =>
        cases hrun
        exact hs
      | cons j before =>
        obtain ⟨rfl, htail⟩ := cons.inj hsplit
        obtain ⟨r, s', rs', h1, h2, -⟩ := run_cons.mp hrun
        have hnext : Good s' := (hstep s i r s' hs hi h1).mpr hok
        exact (ih hnext (hrest r s' h1)).mpr (hmore r s' h1) before after rs' t htail h2

end Run

end NexusVfs.Runs
