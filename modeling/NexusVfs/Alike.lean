/-
Comparing two runs of a fallible program: both fail with the same error or both succeed
with related values. The rules follow the shape of the program.
-/
import NexusVfs.Runs

namespace NexusVfs.Runs

section Alike

variable {ε α β α' β' : Type}

inductive Alike (R : α → β → Prop) : Except ε α → Except ε β → Prop
  | ok {a : α} {b : β} (h : R a b) : Alike R (.ok a) (.ok b)
  | error (e : ε) : Alike R (.error e) (.error e)

variable {R : α → β → Prop} {S : α' → β' → Prop}

variable {x : Except ε α} {y : Except ε β}

theorem Alike.mono {R' : α → β → Prop} (h : Alike R x y) (hR : ∀ a b, R a b → R' a b) :
    Alike R' x y := by
  cases h with
  | ok h => exact .ok (hR _ _ h)
  | error e => exact .error e

theorem Alike.bind {f : α → Except ε α'} {g : β → Except ε β'} (h : Alike R x y)
    (hfg : ∀ a b, R a b → Alike S (f a) (g b)) : Alike S (x >>= f) (y >>= g) := by
  cases h with
  | ok h => exact hfg _ _ h
  | error e => exact .error e

theorem Alike.bind_same {y : Except ε α} {f : α → Except ε α'} {g : α → Except ε β'} (h : y = x)
    (hfg : ∀ a, x = .ok a → Alike S (f a) (g a)) : Alike S (x >>= f) (y >>= g) := by
  subst h
  cases hx : y with
  | error e => exact .error e
  | ok a => exact hfg a hx

theorem Alike.ite {c : Prop} [Decidable c] {x' : Except ε α} {y' : Except ε β}
    (hpos : c → Alike R x y) (hneg : ¬ c → Alike R x' y') :
    Alike R (if c then x else x') (if c then y else y') := by
  by_cases hc : c
  · rw [if_pos hc, if_pos hc]
    exact hpos hc
  · rw [if_neg hc, if_neg hc]
    exact hneg hc

theorem Alike.guard {c : Prop} [Decidable c] {a : α} {b : β} (hab : R a b) (hneg : ¬ c → Alike R x y) :
    Alike R (if c then .ok a else x) (if c then .ok b else y) :=
  .ite (fun _ => .ok hab) hneg

end Alike

section Run

variable {σ ι ρ ε : Type} {step : σ → ι → Option (ρ × σ)} {R : σ → σ → Prop}

/-- Both stop, or both give the same answer and end in related states. -/
inductive SameAnswer (R : σ → σ → Prop) {ρ : Type} : Option (ρ × σ) → Option (ρ × σ) → Prop
  | stop : SameAnswer R none none
  | done (r : ρ) {s t : σ} (h : R s t) : SameAnswer R (some (r, s)) (some (r, t))

theorem Alike.toOption {x y : Except ε (ρ × σ)}
    (h : Alike (fun p q => p.1 = q.1 ∧ R p.2 q.2) x y) : SameAnswer R x.toOption y.toOption := by
  cases h with
  | error e => exact .stop
  | @ok p q hpq =>
    obtain ⟨r, s⟩ := p
    obtain ⟨r', t⟩ := q
    obtain ⟨rfl, hR⟩ := hpq
    exact .done r hR

theorem run_same {ok : σ → ι → Prop}
    (hstep : ∀ s t i, R s t → ok s i → SameAnswer R (step s i) (step t i))
    {s t : σ} {is : List ι} (h : R s t) (hok : along step ok s is) :
    SameAnswer R (run step s is) (run step t is) := by
  induction is generalizing s t with
  | nil => exact .done [] h
  | cons i is ih =>
    have hhead := hstep s t i h hok.1
    have htail := hok.2
    rw [run, run]
    generalize step s i = x at hhead htail ⊢
    generalize step t i = y at hhead ⊢
    cases hhead with
    | stop => exact .stop
    | @done r s' t' hR =>
      have hrest := ih hR (htail r s' rfl)
      dsimp only
      generalize run step s' is = u at hrest ⊢
      generalize run step t' is = v at hrest ⊢
      cases hrest with
      | stop => exact .stop
      | done rs hst => exact .done (r :: rs) hst

end Run

end NexusVfs.Runs
