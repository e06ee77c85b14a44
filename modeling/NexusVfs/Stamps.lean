/-
Stamps that are never handed out twice.

If every step leaves a key's stamp alone or replaces it by one that was not issued
before, a stamp seen twice on a key means that the key was not restamped in between, and
no stamp moves to another key.
-/
import Mathlib.Logic.Relation
import Mathlib.Tactic.Common

namespace NexusVfs.Stamps

structure Stamping (σ κ τ : Type) where
  stamp : σ → κ → Option τ
  issued : σ → τ → Prop

variable {σ κ τ : Type} (V : Stamping σ κ τ)

structure Sound (s : σ) : Prop where
  issued_of_stamp : ∀ k t, V.stamp s k = some t → V.issued s t
  inj : ∀ k l t, V.stamp s k = some t → V.stamp s l = some t → k = l

/-- Between `s` and `s'` the key got a stamp that `s` had not issued. -/
def Restamped (s s' : σ) (k : κ) : Prop := ∃ t, V.stamp s' k = some t ∧ ¬ V.issued s t

/-- From `s` to `s'`, issued stamps stay issued and keys keep their stamps or are restamped. -/
structure Moves (s s' : σ) : Prop where
  issued_mono : ∀ t, V.issued s t → V.issued s' t
  kept_or_restamped : ∀ k, V.stamp s' k = V.stamp s k ∨ Restamped V s s' k

variable {V}

variable {s s' s'' : σ} {k : κ} {t : τ}

theorem Restamped.ne (h : Restamped V s s' k) (ht : V.issued s t) : V.stamp s' k ≠ some t := by
  obtain ⟨t', hstamp, hnew⟩ := h
  intro heq
  rw [hstamp] at heq
  exact hnew (Option.some.inj heq ▸ ht)

theorem Moves.refl (s : σ) : Moves V s s := ⟨fun _ h => h, fun _ => .inl rfl⟩

variable (h : Moves V s s')
include h

theorem Moves.restamped_after (hk : Restamped V s' s'' k) :
    Restamped V s s'' k := by
  obtain ⟨t, hstamp, hnew⟩ := hk
  exact ⟨t, hstamp, fun hold => hnew (h.issued_mono t hold)⟩

theorem Moves.restamped_before (h' : Moves V s' s'') (hk : Restamped V s s' k) :
    Restamped V s s'' k := by
  rcases h'.kept_or_restamped k with hsame | hagain
  · obtain ⟨t, hstamp, hnew⟩ := hk
    exact ⟨t, hsame.trans hstamp, hnew⟩
  · exact h.restamped_after hagain

theorem Moves.trans (h' : Moves V s' s'') : Moves V s s'' := by
  refine ⟨fun t ht => h'.issued_mono t (h.issued_mono t ht), fun k => ?_⟩
  rcases h'.kept_or_restamped k with hsame | hagain
  · rcases h.kept_or_restamped k with hfirst | hfirst
    · exact .inl (hsame.trans hfirst)
    · exact .inr (h.restamped_before h' hfirst)
  · exact .inr (h.restamped_after hagain)

/-- **No reuse.** A stamp issued before is found on a key only if it was there before. -/
theorem Moves.stamp_before (ht : V.issued s t) (hk : V.stamp s' k = some t) :
    V.stamp s k = some t := by
  rcases h.kept_or_restamped k with hsame | hnew
  · rw [← hsame]
    exact hk
  · exact absurd hk (hnew.ne ht)

theorem Moves.stamp_isSome (hk : (V.stamp s k).isSome) :
    (V.stamp s' k).isSome := by
  rcases h.kept_or_restamped k with hsame | ⟨t, hstamp, -⟩
  · rw [hsame]
    exact hk
  · rw [hstamp]
    rfl

omit h

/-! ## Steps -/

theorem Sound.keep (h : Sound V s) (hstamp : V.stamp s' = V.stamp s)
    (hissued : V.issued s' = V.issued s) : Sound V s' ∧ Moves V s s' := by
  refine ⟨⟨?_, ?_⟩, ⟨?_, ?_⟩⟩
  · rw [hstamp, hissued]
    exact h.issued_of_stamp
  · rw [hstamp]
    exact h.inj
  · rw [hissued]
    exact fun _ ht => ht
  · rw [hstamp]
    exact fun _ => .inl rfl

theorem Sound.issue (h : Sound V s) (hnew : ¬ V.issued s t) (hissued : V.issued s' t)
    (hmono : ∀ u, V.issued s u → V.issued s' u) {P : κ → Prop} (hone : ∀ k l, P k → P l → k = l)
    (hstamp : ∀ k, P k ∧ V.stamp s' k = some t ∨ ¬ P k ∧ V.stamp s' k = V.stamp s k) :
    Sound V s' ∧ Moves V s s' := by
  refine ⟨⟨?_, ?_⟩, ⟨hmono, ?_⟩⟩
  · intro k u hk
    rcases hstamp k with ⟨-, hs⟩ | ⟨-, hs⟩
    · rw [hs] at hk
      exact Option.some.inj hk ▸ hissued
    · rw [hs] at hk
      exact hmono u (h.issued_of_stamp k u hk)
  · intro k l u hk hl
    -- an old stamp is issued already, so it is not the one issued now
    have hold {k : κ} (hs : V.stamp s' k = V.stamp s k) (hk : V.stamp s' k = some u) :
        V.issued s u := h.issued_of_stamp k u (hs ▸ hk)
    rcases hstamp k with ⟨hPk, hs⟩ | ⟨-, hs⟩ <;> rcases hstamp l with ⟨hPl, hs'⟩ | ⟨-, hs'⟩
    · exact hone k l hPk hPl
    · exact absurd (Option.some.inj (hs.symm.trans hk) ▸ hold hs' hl) hnew
    · exact absurd (Option.some.inj (hs'.symm.trans hl) ▸ hold hs hk) hnew
    · exact h.inj k l u (hs ▸ hk) (hs' ▸ hl)
  · intro k
    rcases hstamp k with ⟨-, hs⟩ | ⟨-, hs⟩
    · exact .inr ⟨t, hs, hnew⟩
    · exact .inl hs

theorem Sound.steps {step : σ → σ → Prop}
    (hstep : ∀ s s', Sound V s → step s s' → Sound V s' ∧ Moves V s s') (h : Sound V s)
    (hsteps : Relation.ReflTransGen step s s') : Sound V s' ∧ Moves V s s' := by
  induction hsteps with
  | refl => exact ⟨h, Moves.refl s⟩
  | tail _ hlast ih =>
    obtain ⟨hsound, hmoves⟩ := ih
    obtain ⟨hsound', hmoves'⟩ := hstep _ _ hsound hlast
    exact ⟨hsound', hmoves.trans hmoves'⟩

end NexusVfs.Stamps
