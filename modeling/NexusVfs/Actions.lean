/-
Actions on a state that may fail, with rules of pre- and postconditions.

A failed action keeps what it did before it failed. A triple says that the invariant is
kept and the state has only moved on in `le`, whatever the outcome, and that a returned
result satisfies the postcondition.
-/
import Mathlib.Tactic.Common

namespace NexusVfs.Actions

/-! ## Actions -/

def Action (σ ε α : Type) : Type := σ → Except ε α × σ

namespace Action

variable {σ ε α β : Type}

def bind (x : Action σ ε α) (f : α → Action σ ε β) : Action σ ε β := fun s =>
  match x s with
  | (.ok a, s') => f a s'
  | (.error err, s') => (.error err, s')

instance : Monad (Action σ ε) where
  pure a := fun s => (.ok a, s)
  bind := bind

def fail (err : ε) : Action σ ε α := fun s => (.error err, s)

def of_except (x : Except ε α) : Action σ ε α := fun s => (x, s)

def attempt {ε' : Type} (x : Action σ ε α) : Action σ ε' (Except ε α) := fun s => (.ok (x s).1, (x s).2)

def ignore (x : Action σ ε α) : Action σ ε Unit := fun s => (.ok (), (x s).2)

def modify (f : σ → σ) : Action σ ε Unit := fun s => (.ok (), f s)

def ask (f : σ → α) : Action σ ε α := fun s => (.ok (f s), s)

variable {x : Action σ ε α} {f : α → Action σ ε β} {s : σ}

variable {s' : σ}

theorem bind_of_ok {a : α} (h : x s = (.ok a, s')) : (x >>= f) s = f a s' := by
  change bind x f s = f a s'
  rw [bind, h]

theorem bind_of_error {err : ε} (h : x s = (.error err, s')) : (x >>= f) s = (.error err, s') := by
  change bind x f s = _
  rw [bind, h]

theorem bind_attempt {ε' : Type} {r : Except ε α} {g : Except ε α → Action σ ε' β} (h : x s = (r, s')) :
    (attempt x >>= g) s = g r s' :=
  bind_of_ok (by rw [attempt, h])

theorem bind_ask (f : σ → α) (g : α → Action σ ε β) (s : σ) : (ask f >>= g) s = g (f s) s := rfl

theorem bind_eq_ok {b : β} (h : ((x >>= f) s).1 = .ok b) :
    ∃ a s', x s = (.ok a, s') ∧ (f a s').1 = .ok b := by
  cases hres : x s with
  | mk result s' =>
    cases result with
    | ok a =>
      rw [bind_of_ok hres] at h
      exact ⟨a, s', rfl, h⟩
    | error err =>
      rw [bind_of_error hres] at h
      cases h

theorem bind_of_same (h : (x s).2 = s) :
    (x >>= f) s = match (x s).1 with
      | .ok a => f a s
      | .error err => (.error err, s) := by
  cases hres : x s with
  | mk result s' =>
    rw [hres] at h
    cases h
    cases result with
    | ok a => exact bind_of_ok hres
    | error err => exact bind_of_error hres

end Action

/-! ## Triples -/

section

variable {σ ε : Type} (inv : σ → Prop) (le : σ → σ → Prop)

def Triple {α : Type} (P : σ → Prop) (x : Action σ ε α) (Q : α → σ → Prop) : Prop :=
  ∀ s, inv s → P s →
    inv (x s).2 ∧ le s (x s).2 ∧ ∀ a, (x s).1 = .ok a → Q a (x s).2

def Anyhow (_ _ : σ) : Prop := True

instance : IsPreorder σ Anyhow where
  refl _ := trivial
  trans _ _ _ _ _ := trivial

def Keeps {α : Type} (x : Action σ ε α) : Prop := Triple inv le (fun _ => True) x fun _ _ => True

/-- A fact that moving on keeps. -/
def Stable (F : σ → Prop) : Prop := ∀ s s', le s s' → F s → F s'

variable {inv le} {α β : Type} {P P' F : σ → Prop} {Q R : α → σ → Prop}

variable {x : Action σ ε α}

theorem Triple.keeps (h : Triple inv le (fun _ => True) x Q) : Keeps inv le x := by
  intro s hinv _
  obtain ⟨hinv', hle, -⟩ := h s hinv trivial
  exact ⟨hinv', hle, fun _ _ => trivial⟩

theorem Triple.weaken (h : Triple inv le P x Q) (hpre : ∀ s, P' s → P s)
    (hpost : ∀ a s, Q a s → R a s) : Triple inv le P' x R := by
  intro s hinv hp
  obtain ⟨hinv', hle, hq⟩ := h s hinv (hpre s hp)
  exact ⟨hinv', hle, fun a ha => hpost a _ (hq a ha)⟩

theorem Triple.frame (h : Triple inv le P x Q) (hstable : Stable le F) :
    Triple inv le (fun s => P s ∧ F s) x fun a s => Q a s ∧ F s := by
  intro s hinv hp
  obtain ⟨hinv', hle, hq⟩ := h s hinv hp.1
  exact ⟨hinv', hle, fun a ha => ⟨hq a ha, hstable s _ hle hp.2⟩⟩

theorem triple_of_fact {p : Prop} (h : p → Triple inv le P x Q) :
    Triple inv le (fun s => p ∧ P s) x Q := by
  intro s hinv hp
  exact h hp.1 s hinv hp.2

variable {ε' : Type} {f : α → Action σ ε β}

theorem Triple.attempt {R : Except ε α → σ → Prop} (hx : Triple inv le P x Q)
    (hok : ∀ a s, Q a s → R (.ok a) s) (herr : ∀ err s, R (.error err) s) :
    Triple inv le P (Action.attempt x : Action σ ε' (Except ε α)) R := by
  intro s hinv hp
  obtain ⟨hinv', hle, hq⟩ := hx s hinv hp
  refine ⟨hinv', hle, fun r hr => ?_⟩
  obtain rfl : (x s).1 = r := Except.ok.inj hr
  cases hres : (x s).1 with
  | ok a => exact hok a _ (hq a hres)
  | error err => exact herr err _

theorem Keeps.attempt (hx : Keeps inv le x) :
    Keeps inv le (Action.attempt x : Action σ ε' (Except ε α)) :=
  Triple.attempt hx (fun _ _ _ => trivial) fun _ _ => trivial

theorem Keeps.ignore (hx : Keeps inv le x) : Keeps inv le (Action.ignore x) := by
  intro s hinv _
  obtain ⟨hinv', hle, -⟩ := hx s hinv trivial
  exact ⟨hinv', hle, fun _ _ => trivial⟩

variable [IsPreorder σ le]

theorem triple_of_same (hsame : ∀ s, (x s).2 = s) (hpost : ∀ s a, P s → (x s).1 = .ok a → Q a s) :
    Triple inv le P x Q := by
  intro s hinv hp
  rw [hsame s]
  exact ⟨hinv, refl_of le s, fun a ha => hpost s a hp ha⟩

theorem triple_pure (a : α) (h : ∀ s, P s → Q a s) : Triple inv le P (pure a : Action σ ε α) Q := by
  refine triple_of_same (fun _ => rfl) fun s a' hp ha => ?_
  cases ha
  exact h s hp

theorem triple_fail (err : ε) : Triple inv le P (Action.fail err : Action σ ε α) Q :=
  triple_of_same (fun _ => rfl) nofun

theorem triple_of_except (x : Except ε α) (h : ∀ s a, P s → x = .ok a → Q a s) :
    Triple inv le P (Action.of_except x : Action σ ε α) Q :=
  triple_of_same (fun _ => rfl) h

theorem triple_ask (f : σ → α) :
    Triple inv le P (Action.ask f : Action σ ε α) fun a s => P s ∧ a = f s := by
  refine triple_of_same (fun _ => rfl) fun s a hp ha => ⟨hp, ?_⟩
  cases ha
  rfl

theorem Triple.bind {R : β → σ → Prop} (hx : Triple inv le P x Q)
    (hf : ∀ a, Triple inv le (Q a) (f a) R) : Triple inv le P (x >>= f) R := by
  intro s hinv hp
  obtain ⟨hinv₁, hle₁, hq⟩ := hx s hinv hp
  cases hres : x s with
  | mk result s₁ =>
    rw [hres] at hinv₁ hle₁ hq
    cases result with
    | error err =>
      rw [Action.bind_of_error hres]
      exact ⟨hinv₁, hle₁, nofun⟩
    | ok a =>
      rw [Action.bind_of_ok hres]
      obtain ⟨hinv₂, hle₂, hr⟩ := hf a s₁ hinv₁ (hq a rfl)
      exact ⟨hinv₂, trans_of le hle₁ hle₂, hr⟩

theorem Keeps.bind (hx : Keeps inv le x) (hf : ∀ a, Keeps inv le (f a)) : Keeps inv le (x >>= f) :=
  Triple.bind hx hf

theorem keeps_of_same (hsame : ∀ s, (x s).2 = s) : Keeps inv le x :=
  triple_of_same hsame fun _ _ _ _ => trivial

end

/-! ## Actions that return -/

section

variable {σ ε α β : Type}

/-- From a state with `inv` the action returns a value with `Q`, in such a state again. -/
def Returns (inv : σ → Prop) (x : Action σ ε α) (Q : α → Prop) : Prop :=
  ∀ s, inv s → ∃ a s', x s = (.ok a, s') ∧ inv s' ∧ Q a

variable {inv : σ → Prop} {Q : α → Prop} {R : β → Prop}

theorem returns_pure {a : α} (h : Q a) : Returns inv (pure a : Action σ ε α) Q :=
  fun s hs => ⟨a, s, rfl, hs, h⟩

theorem returns_modify {f : σ → σ} (h : ∀ s, inv s → inv (f s)) :
    Returns inv (Action.modify f : Action σ ε Unit) fun _ => True :=
  fun s hs => ⟨(), f s, rfl, h s hs, trivial⟩

variable {x : Action σ ε α}

theorem Returns.weaken {Q' : α → Prop} (hx : Returns inv x Q)
    (h : ∀ a, Q a → Q' a) : Returns inv x Q' := by
  intro s hs
  obtain ⟨a, s', hres, hs', ha⟩ := hx s hs
  exact ⟨a, s', hres, hs', h a ha⟩

theorem Returns.bind {f : α → Action σ ε β} (hx : Returns inv x Q)
    (hf : ∀ a, Q a → Returns inv (f a) R) : Returns inv (x >>= f) R := by
  intro s hs
  obtain ⟨a, s₁, hres, hs₁, ha⟩ := hx s hs
  rw [Action.bind_of_ok hres]
  exact hf a ha s₁ hs₁

end

end NexusVfs.Actions
