/-
A cache in front of a store that is changed behind its back.

A reader that finds nothing notes the cache's generation, reads the store without the
cache's lock, and fills the cache only if the generation is still the one it noted. A
change of the store is followed by a notification, which drops the entries it affects
and advances the generation. A change may also be silent; what the protocol needs is
that every change that shows in a watched entry is announced (`Announced`).
-/
import NexusVfs.Runs
import NexusVfs.Table

set_option autoImplicit false
set_option linter.unusedSectionVars false

namespace NexusVfs.GenerationCache

open Option Runs Table

variable {ρ κ v : Type} [Ord κ] [Std.TransOrd κ] [Std.LawfulEqOrd κ] [DecidableEq κ]

/-! ## The cache -/

structure Cache (κ v : Type) [Ord κ] where
  /-- `none` once the counter is used up; nothing is cached from then on. -/
  generation : Option ℕ
  entries : Table κ v

def Cache.new : Cache κ v := ⟨some 0, ∅⟩

def next_generation (generation : Option ℕ) : Option ℕ :=
  generation.bind fun g => if g + 1 < 2 ^ 64 then some (g + 1) else none

def Cache.invalidate_where (c : Cache κ v) (affected : κ → Bool) : Cache κ v :=
  match next_generation c.generation with
  | none => ⟨none, ∅⟩
  | some g => ⟨some g, c.entries.retain_keys fun path => !affected path⟩

def Cache.fill_if_current (c : Cache κ v) (path : κ) (generation : Option ℕ) (value : v) : Cache κ v :=
  if generation ≠ none ∧ c.generation = generation then
    { c with entries := c.entries.insert path value }
  else c

theorem lt_of_next_generation {generation : Option ℕ} {c g : ℕ} (h : next_generation generation = some c)
    (hg : generation = some g) : g < c := by
  rw [hg] at h
  simp only [next_generation, bind_some] at h
  split_ifs at h
  obtain rfl := some.inj h
  omega

theorem generation_invalidate (c : Cache κ v) (affected : κ → Bool) :
    (c.invalidate_where affected).generation = next_generation c.generation := by
  unfold Cache.invalidate_where
  split
  all_goals
    rename_i h
    rw [h]

theorem get_invalidate {c : Cache κ v} {affected : κ → Bool} {path : κ} {value : v}
    (h : (c.invalidate_where affected).entries.get path = some value) :
    c.entries.get path = some value ∧ affected path = false := by
  unfold Cache.invalidate_where at h
  split at h
  · simp at h
  · rw [get_retain_keys] at h
    split_ifs at h with hkeep
    exact ⟨h, by simpa using hkeep⟩

/-! ## Readers and changes -/

structure Reader (κ v : Type) where
  path : κ
  generation : Option ℕ
  value : Option v

/-- A change whose notification is still to come. -/
structure Pending (ρ κ : Type) where
  /-- The entries the notification will drop; `none` if it leaves the cache alone. -/
  touches : Option (κ → Bool)
  before : ρ

def Pending.affects (w : Pending ρ κ) (path : κ) : Prop := ∃ f, w.touches = some f ∧ f path = true

structure System (ρ κ v : Type) [Ord κ] where
  rows : ρ
  cache : Cache κ v
  readers : Table ℕ (Reader κ v)
  awaiting : Option (Pending ρ κ)

def System.new (rows : ρ) : System ρ κ v := ⟨rows, .new, ∅, none⟩

inductive Step (ρ κ : Type) where
  /-- Look into the cache (or not), and note the generation. -/
  | load (id : ℕ) (path : κ) (use_cached : Bool)
  /-- Read the store; a reader may have no use for what it finds. -/
  | read (id : ℕ) (keep : Bool)
  | fill (id : ℕ)
  | mutate (rows : ρ) (touches : Option (κ → Bool))
  | notify
  /-- A change without a notification. -/
  | silent (rows : ρ)
  /-- Dropping one entry by hand. -/
  | invalidate (path : κ)

abbrev Answer (κ v : Type) := Option (κ × Option v)

def step (view : ρ → κ → Option v) (s : System ρ κ v) : Step ρ κ → Option (Answer κ v × System ρ κ v)
  | .load id path use_cached =>
    match s.readers.get id with
    | some _ => none
    | none =>
      match if use_cached then s.cache.entries.get path else none with
      | some value => some (some (path, some value), s)
      | none =>
        some (none, { s with readers := s.readers.insert id ⟨path, s.cache.generation, none⟩ })
  | .read id keep =>
    match s.readers.get id with
    | some ⟨path, generation, none⟩ =>
      match if keep then view s.rows path else none with
      | some value =>
        some (none, { s with readers := s.readers.insert id ⟨path, generation, some value⟩ })
      | none => some (some (path, none), { s with readers := s.readers.remove id })
    | _ => none
  | .fill id =>
    match s.readers.get id with
    | some ⟨path, generation, some value⟩ =>
      some (some (path, some value), { s with
        cache := s.cache.fill_if_current path generation value
        readers := s.readers.remove id })
    | _ => none
  | .mutate rows touches =>
    match s.awaiting with
    | some _ => none
    | none => some (none, { s with rows, awaiting := some ⟨touches, s.rows⟩ })
  | .notify =>
    match s.awaiting with
    | none => none
    | some ⟨none, _⟩ => some (none, { s with awaiting := none })
    | some ⟨some affected, _⟩ =>
      some (none, { s with cache := s.cache.invalidate_where affected, awaiting := none })
  | .silent rows => some (none, { s with rows })
  | .invalidate path =>
    some (none, { s with cache := s.cache.invalidate_where fun p => decide (p = path) })

/-! ## Coherence -/

section Coherence

variable (view : ρ → κ → Option v)

/-- The value is what a reader sees at the path now, or saw before the pending change, which will
drop it. -/
def Agrees (s : System ρ κ v) (path : κ) (value : v) : Prop :=
  view s.rows path = some value ∨
    ∃ w, s.awaiting = some w ∧ w.affects path ∧ view w.before path = some value

structure Coherent (s : System ρ κ v) : Prop where
  entries : ∀ path value, s.cache.entries.get path = some value → Agrees view s path value
  /-- A reader whose fill would still be accepted has something to fill in. -/
  readers : ∀ id r value, s.readers.get id = some r → r.value = some value →
    r.generation ≠ none → s.cache.generation = r.generation → Agrees view s r.path value
  older : ∀ id r g c, s.readers.get id = some r → r.generation = some g →
    s.cache.generation = some c → g ≤ c

/-- The path is in the cache, or may be filled in. -/
def Watched (s : System ρ κ v) (path : κ) : Prop :=
  s.cache.entries.get path ≠ none ∨
    ∃ id r, s.readers.get id = some r ∧ r.path = path ∧ r.value ≠ none

/-- A change that shows at a watched path is notified there. -/
def Announced (s : System ρ κ v) : Step ρ κ → Prop
  | .mutate rows touches => ∀ path, Watched s path →
    view rows path = view s.rows path ∨ Pending.affects (ρ := ρ) ⟨touches, s.rows⟩ path
  | .silent rows => ∀ path, Watched s path → view rows path = view s.rows path
  | _ => True

theorem coherent_new (rows : ρ) : Coherent view (System.new rows) := by
  refine ⟨fun path value h => ?_, fun id r value h => ?_, fun id r g c h => ?_⟩
  · simp [System.new, Cache.new] at h
  · simp [System.new] at h
  · simp [System.new] at h

variable {view} {s s' : System ρ κ v}

variable {value : v}

variable {path : κ} {id : ℕ} {r : Reader κ v} {rows : ρ} {P : κ → Prop}

theorem watched_entry (h : s.cache.entries.get path = some value) :
    Watched s path := .inl (by simp [h])

theorem watched_reader (h : s.readers.get id = some r)
    (hvalue : r.value = some value) : Watched s r.path := .inr ⟨id, r, h, rfl, by simp [hvalue]⟩

variable (h : Coherent view s)
include h

theorem Coherent.with_readers {readers : Table ℕ (Reader κ v)}
    (hnew : ∀ id r, readers.get id = some r → s.readers.get id = some r ∨
      (∀ value, r.value = some value → view s.rows r.path = some value) ∧
      ∀ g c, r.generation = some g → s.cache.generation = some c → g ≤ c) :
    Coherent view { s with readers } := by
  refine ⟨h.entries, fun id r value hr hvalue => ?_, fun id r g c hr => ?_⟩
  · rcases hnew id r hr with hold | ⟨hread, -⟩
    · exact h.readers id r value hold hvalue
    · exact fun _ _ => .inl (hread value hvalue)
  · rcases hnew id r hr with hold | ⟨-, holder⟩
    · exact h.older id r g c hold
    · exact holder g c

theorem Coherent.fill (hr : s.readers.get id = some r) (hvalue : r.value = some value) :
    Coherent view { s with cache := s.cache.fill_if_current r.path r.generation value } := by
  unfold Cache.fill_if_current
  split_ifs with hcurrent
  · refine ⟨fun path value' hget => ?_, h.readers, h.older⟩
    rw [get_insert] at hget
    split_ifs at hget with hpath
    · obtain rfl := some.inj hget
      rw [hpath]
      exact h.readers id r value hr hvalue hcurrent.1 hcurrent.2
    · exact h.entries path value' hget
  · exact h

theorem Coherent.of_agrees (rows : ρ) (awaiting : Option (Pending ρ κ))
    (hagrees : ∀ path value, Watched s path → Agrees view s path value →
      Agrees view { s with rows, awaiting } path value) : Coherent view { s with rows, awaiting } where
  entries path value hget := hagrees path value (watched_entry hget) (h.entries path value hget)
  readers id r value hr hvalue hne hgen :=
    hagrees r.path value (watched_reader hr hvalue) (h.readers id r value hr hvalue hne hgen)
  older := h.older

theorem Coherent.mutate (hquiet : s.awaiting = none)
    {touches : Option (κ → Bool)} (hok : Announced view s (.mutate rows touches)) :
    Coherent view { s with rows, awaiting := some ⟨touches, s.rows⟩ } := by
  refine h.of_agrees _ _ fun path value hwatched hold => ?_
  rcases hold with hold | ⟨w, hw, -⟩
  · rcases hok path hwatched with hsame | haffects
    · exact .inl (hsame.trans hold)
    · exact .inr ⟨_, rfl, haffects, hold⟩
  · rw [hquiet] at hw
    cases hw

theorem Coherent.silent (hok : Announced view s (.silent rows)) :
    Coherent view { s with rows } := by
  refine h.of_agrees rows s.awaiting fun path value hwatched hold => ?_
  exact hold.imp_left (hok path hwatched).trans

theorem Coherent.invalidate (affected : κ → Bool) {awaiting : Option (Pending ρ κ)}
    (hagrees : ∀ path value, affected path = false → Agrees view s path value →
      Agrees view { s with awaiting } path value) :
    Coherent view { s with cache := s.cache.invalidate_where affected, awaiting } := by
  refine ⟨fun path value hget => ?_, fun id r value hr hvalue hne hgen => ?_, fun id r g c hr hg hc => ?_⟩
  · obtain ⟨hold, hkept⟩ := get_invalidate hget
    exact hagrees path value hkept (h.entries path value hold)
  · exfalso
    obtain ⟨g, hg⟩ := ne_none_iff_exists'.mp hne
    rw [generation_invalidate, hg] at hgen
    cases hc : s.cache.generation with
    | none =>
      rw [hc] at hgen
      cases hgen
    | some c =>
      have hle := h.older id r g c hr hg hc
      have hlt := lt_of_next_generation hgen hc
      omega
  · rw [generation_invalidate] at hc
    cases hold : s.cache.generation with
    | none =>
      rw [hold] at hc
      cases hc
    | some c' =>
      have hle := h.older id r g c' hr hg hold
      have hlt := lt_of_next_generation hc hold
      omega

theorem Coherent.notify {w : Pending ρ κ} (hw : s.awaiting = some w) :
    (w.touches = none → Coherent view { s with awaiting := none }) ∧
      ∀ affected, w.touches = some affected →
        Coherent view { s with cache := s.cache.invalidate_where affected, awaiting := none } := by
  -- what the notification does not affect agrees with the rows as they are
  have hagrees {path : κ} {value : v} (hpath : ¬ w.affects path) (hold : Agrees view s path value) :
      Agrees view { s with awaiting := none } path value := by
    rcases hold with hold | ⟨w', hw', haffects, -⟩
    · exact .inl hold
    · rw [hw] at hw'
      obtain rfl := some.inj hw'
      exact absurd haffects hpath
  constructor
  · intro htouches
    have hnone (path : κ) : ¬ w.affects path := by
      rintro ⟨f, hf, -⟩
      rw [htouches] at hf
      cases hf
    exact h.of_agrees s.rows none fun path value _ => hagrees (hnone path)
  · intro affected htouches
    refine h.invalidate affected fun path value hkept => hagrees ?_
    rintro ⟨f, hf, hpath⟩
    rw [htouches] at hf
    obtain rfl := some.inj hf
    rw [hkept] at hpath
    cases hpath

/-- Every path in the cache, and every path a reader is after, satisfies `P`. -/
structure Within (P : κ → Prop) (s : System ρ κ v) : Prop where
  entries : ∀ path value, s.cache.entries.get path = some value → P path
  readers : ∀ id r, s.readers.get id = some r → P r.path

omit h in
theorem Within.watched (h : Within P s) (hpath : Watched s path) : P path := by
  rcases hpath with hentry | ⟨id, r, hr, rfl, -⟩
  · obtain ⟨value, hvalue⟩ := ne_none_iff_exists'.mp hentry
    exact h.entries path value hvalue
  · exact h.readers id r hr

omit h in
theorem within_new (P : κ → Prop) (rows : ρ) : Within P (System.new rows : System ρ κ v) := by
  refine ⟨fun path value h => ?_, fun id r h => ?_⟩
  · simp [System.new, Cache.new] at h
  · simp [System.new] at h

theorem coherent_step {action : Step ρ κ} {answer : Answer κ v}
    (hw : Within P s) (hok : Announced view s action)
    (hload : ∀ id path use_cached, action = .load id path use_cached → P path)
    (hstep : step view s action = some (answer, s')) : Coherent view s' ∧ Within P s' := by
  have hremove (id id' : ℕ) (r : Reader κ v) (hr : (s.readers.remove id).get id' = some r) :
      s.readers.get id' = some r := by
    rw [get_remove] at hr
    split_ifs at hr
    exact hr
  have hinsert {id id' : ℕ} {new r : Reader κ v} (hr : (s.readers.insert id new).get id' = some r) :
      s.readers.get id' = some r ∨ r = new := by
    rw [get_insert] at hr
    split_ifs at hr
    · exact .inr (some.inj hr).symm
    · exact .inl hr
  have hwith {id : ℕ} {new : Reader κ v} (hnew : P new.path) :
      Within P { s with readers := s.readers.insert id new } := by
    refine ⟨hw.entries, fun id' r hr => ?_⟩
    rcases hinsert hr with hold | rfl
    · exact hw.readers id' r hold
    · exact hnew
  have hinvalidate (affected : κ → Bool) (awaiting : Option (Pending ρ κ)) :
      Within P { s with cache := s.cache.invalidate_where affected, awaiting } :=
    ⟨fun path value hget => hw.entries path value (get_invalidate hget).1, hw.readers⟩
  cases action with
  | load id path use_cached =>
    simp only [step] at hstep
    split at hstep
    · cases hstep
    · split at hstep
      · cases hstep
        exact ⟨h, hw⟩
      · cases hstep
        refine ⟨h.with_readers fun id' r hr => ?_, hwith (hload id path use_cached rfl)⟩
        rcases hinsert hr with hold | rfl
        · exact .inl hold
        · refine .inr ⟨by simp, fun g c hg hc => ?_⟩
          dsimp only at hg
          rw [hg] at hc
          exact Nat.le_of_eq (some.inj hc)
  | read id keep =>
    simp only [step] at hstep
    split at hstep
    · rename_i path generation hread
      split at hstep
      · rename_i value hvalue
        cases hstep
        have hpath : P path := hw.readers id _ hread
        refine ⟨h.with_readers fun id' r hr => ?_, hwith hpath⟩
        rcases hinsert hr with hold | rfl
        · exact .inl hold
        · refine .inr ⟨fun value' hv => ?_, fun g c hg hc => h.older id _ g c hread hg hc⟩
          obtain rfl := some.inj hv
          split_ifs at hvalue
          exact hvalue
      · cases hstep
        exact ⟨h.with_readers fun id' r hr => .inl (hremove id id' r hr),
          hw.entries, fun id' r hr => hw.readers id' r (hremove id id' r hr)⟩
    · cases hstep
  | fill id =>
    simp only [step] at hstep
    split at hstep
    · rename_i path generation value hread
      cases hstep
      refine ⟨(h.fill hread rfl).with_readers fun id' r hr => .inl (hremove id id' r hr),
        fun path' value' hget => ?_, fun id' r hr => hw.readers id' r (hremove id id' r hr)⟩
      dsimp only [Cache.fill_if_current] at hget
      split_ifs at hget
      · rw [get_insert] at hget
        split_ifs at hget with hpath
        · rw [hpath]
          exact hw.readers id _ hread
        · exact hw.entries path' value' hget
      · exact hw.entries path' value' hget
    · cases hstep
  | mutate rows touches =>
    simp only [step] at hstep
    split at hstep
    · cases hstep
    · rename_i hquiet
      cases hstep
      exact ⟨h.mutate hquiet hok, hw.entries, hw.readers⟩
  | notify =>
    simp only [step] at hstep
    split at hstep
    · cases hstep
    · rename_i hpending
      cases hstep
      exact ⟨(h.notify hpending).1 rfl, hw.entries, hw.readers⟩
    · rename_i hpending
      cases hstep
      exact ⟨(h.notify hpending).2 _ rfl, hinvalidate _ _⟩
  | silent rows =>
    cases hstep
    exact ⟨h.silent hok, hw.entries, hw.readers⟩
  | invalidate path =>
    cases hstep
    exact ⟨h.invalidate _ fun _ _ _ hagrees => hagrees, hinvalidate _ _⟩

theorem Coherent.quiet (hquiet : s.awaiting = none)
    (hget : s.cache.entries.get path = some value) : view s.rows path = some value := by
  rcases h.entries path value hget with hview | ⟨w, hw, -⟩
  · exact hview
  · rw [hquiet] at hw
    cases hw

omit h

end Coherence

end NexusVfs.GenerationCache
