/-
A depth-first search with a memo, a visited set and a depth cut-off.

Every node has a list of moves, tried in order: a leaf answers at once, another move
goes on to a further node. A `true` is always right (`search_sound`). A `false` may be
wrong because of the cut-off: a node first met at the deepest level is memoised as
`false` though its successors were never looked at. A derivation that meets no such node
is found (`search_complete`); where no derivable node is reached by a long chain the
search and its memo are exact (`search_exact`).
-/
import Mathlib.Data.List.Chain
import Mathlib.Data.List.Nodup

namespace NexusVfs.DepthSearch

open List

/-! ## The search -/

inductive Move (N : Type) where
  | leaf (found : Bool)
  | go (next : N)
deriving DecidableEq, Repr

structure Memory (N : Type) where
  memo : List (N × Bool)
  visited : List N

def Memory.empty {N : Type} : Memory N := ⟨[], []⟩

variable {N α : Type}

def any_of (f : α → Memory N → Bool × Memory N) : List α → Memory N → Bool × Memory N
  | [], m => (false, m)
  | x :: xs, m =>
    match f x m with
    | (true, m') => (true, m')
    | (false, m') => any_of f xs m'

def follow (rec : N → Memory N → Bool × Memory N) : Move N → Memory N → Bool × Memory N
  | .leaf found, m => (found, m)
  | .go next, m => rec next m

/-- `levels` is how many levels are left, this one included. -/
def search [DecidableEq N] (moves : N → List (Move N)) : ℕ → N → Memory N → Bool × Memory N
  | 0, _, m => (false, m)
  | levels + 1, n, m =>
    match m.memo.lookup n with
    | some r => (r, m)
    | none =>
      if n ∈ m.visited then (false, m)
      else
        let out := any_of (follow (search moves levels)) (moves n)
          { m with visited := n :: m.visited }
        (out.1, { out.2 with memo := (n, out.1) :: out.2.memo })

theorem any_of_append (f : α → Memory N → Bool × Memory N) (xs ys : List α) (m : Memory N) :
    any_of f (xs ++ ys) m =
      if (any_of f xs m).1 then any_of f xs m else any_of f ys (any_of f xs m).2 := by
  induction xs generalizing m with
  | nil => rfl
  | cons x xs ih =>
    rw [cons_append, any_of, any_of]
    cases hfx : f x m with
    | mk found m' =>
      cases found with
      | true => rfl
      | false => exact ih m'

theorem any_of_map {β : Type} (f : β → Memory N → Bool × Memory N) (g : α → β) (xs : List α)
    (m : Memory N) : any_of f (xs.map g) m = any_of (fun x => f (g x)) xs m := by
  induction xs generalizing m with
  | nil => rfl
  | cons x xs ih =>
    rw [map_cons, any_of, any_of]
    cases hfx : f (g x) m with
    | mk found m' =>
      cases found with
      | true => rfl
      | false => exact ih m'

/-! ## Derivations -/

inductive Derives (moves : N → List (Move N)) : N → Prop where
  | leaf {n : N} (h : .leaf true ∈ moves n) : Derives moves n
  | go {n k : N} (h : .go k ∈ moves n) (hk : Derives moves k) : Derives moves n

def Edge (moves : N → List (Move N)) (a b : N) : Prop := .go b ∈ moves a

instance [DecidableEq N] (moves : N → List (Move N)) : DecidableRel (Edge moves) :=
  fun a b => inferInstanceAs (Decidable (.go b ∈ moves a))

/-- The nodes of a derivation, from the one derived to the one with the leaf. -/
structure Derivation (moves : N → List (Move N)) (n : N) (ds : List N) : Prop where
  head : ds.head? = some n
  chain : ds.IsChain (Edge moves)
  leaf : ∃ k, ds.getLast? = some k ∧ .leaf true ∈ moves k

variable {moves : N → List (Move N)}

variable {j n root : N} {P ds : List N} {m : Memory N} {levels : ℕ}

/-! ## Soundness -/

def Sound (moves : N → List (Move N)) (m : Memory N) : Prop :=
  ∀ n, (n, true) ∈ m.memo → Derives moves n

theorem sound_empty : Sound moves Memory.empty := by
  intro n hn
  cases hn

variable {f : α → Memory N → Bool × Memory N} {r : Bool} {xs ys : List (Move N)} {m' : Memory N}
variable {depth : ℕ}

theorem any_of_invariant {P : Memory N → Prop}
    {Q : α → Bool → Prop} (xs : List α) (hf : ∀ x ∈ xs, ∀ m, P m → P (f x m).2 ∧ Q x (f x m).1)
    (hm : P m) :
    P (any_of f xs m).2 ∧ ((any_of f xs m).1 = true → ∃ x ∈ xs, Q x true) ∧
      ((any_of f xs m).1 = false → ∀ x ∈ xs, Q x false) := by
  induction xs generalizing m with
  | nil =>
    refine ⟨hm, fun h => ?_, fun _ x hx => ?_⟩
    · cases h
    · cases hx
  | cons x xs ih =>
    obtain ⟨hkeep, hanswer⟩ := hf x mem_cons_self m hm
    have hrest := ih (m := (f x m).2) (fun y hy => hf y (mem_cons_of_mem x hy)) hkeep
    rw [any_of]
    cases hfx : f x m with
    | mk found m' =>
      rw [hfx] at hkeep hanswer hrest
      cases found with
      | true =>
        refine ⟨hkeep, fun _ => ⟨x, mem_cons_self, hanswer⟩, fun h => ?_⟩
        cases h
      | false =>
        refine ⟨hrest.1, fun h => ?_, fun h => forall_mem_cons.mpr ⟨hanswer, hrest.2.2 h⟩⟩
        obtain ⟨y, hy, hq⟩ := hrest.2.1 h
        exact ⟨y, mem_cons_of_mem x hy, hq⟩

theorem mem_of_lookup [DecidableEq N] {memo : List (N × Bool)}
    (h : memo.lookup n = some r) : (n, r) ∈ memo := by
  induction memo with
  | nil => cases h
  | cons p memo ih =>
    rw [lookup_cons] at h
    by_cases heq : n = p.1
    · subst heq
      simp only [beq_self_eq_true] at h
      cases h
      exact mem_cons_self
    · have hne : (n == p.1) = false := beq_eq_false_iff_ne.mpr heq
      simp only [hne] at h
      exact mem_cons_of_mem _ (ih h)

def Succeeds (moves : N → List (Move N)) : Move N → Prop
  | .leaf found => found = true
  | .go k => Derives moves k

theorem Succeeds.derives {x : Move N} (h : Succeeds moves x) (hx : x ∈ moves n) :
    Derives moves n := by
  cases x with
  | leaf found =>
    cases h
    exact .leaf hx
  | go k => exact .go hx h

theorem derives_iff_succeeds : Derives moves n ↔ ∃ x ∈ moves n, Succeeds moves x := by
  constructor
  · intro h
    cases h with
    | leaf h => exact ⟨_, h, rfl⟩
    | go h hk => exact ⟨_, h, hk⟩
  · rintro ⟨x, hx, h⟩
    exact h.derives hx

/-- One level of the search keeps the memo sound, and a success is derivable. The
induction is on the levels left. -/
theorem search_sound [DecidableEq N] (levels : ℕ) (n : N) {m : Memory N} (hm : Sound moves m) :
    Sound moves (search moves levels n m).2 ∧
      ((search moves levels n m).1 = true → Derives moves n) := by
  induction levels generalizing n m with
  | zero =>
    refine ⟨hm, fun h => ?_⟩
    cases h
  | succ levels ih =>
    rw [search]
    cases hlook : m.memo.lookup n with
    | some r =>
      refine ⟨hm, fun h => ?_⟩
      cases h
      exact hm n (mem_of_lookup hlook)
    | none =>
      split_ifs with hvis
      · refine ⟨hm, fun h => ?_⟩
        cases h
      · obtain ⟨hkeep, hsucc, -⟩ := any_of_invariant (f := follow (search moves levels))
          (P := Sound moves) (Q := fun x found => found = true → Succeeds moves x)
          (m := ⟨m.memo, n :: m.visited⟩) (moves n) (fun x _ m' hm' => by
            cases x with
            | leaf found => exact ⟨hm', fun h => h⟩
            | go k => exact ih k hm') hm
        have hres : (any_of (follow (search moves levels)) (moves n)
            ⟨m.memo, n :: m.visited⟩).1 = true → Derives moves n := by
          intro h
          obtain ⟨x, hx, hq⟩ := hsucc h
          exact (hq rfl).derives hx
        refine ⟨fun k hk => ?_, hres⟩
        rcases mem_cons.mp hk with heq | hk
        · obtain ⟨rfl, htrue⟩ := Prod.mk.inj heq
          exact hres htrue.symm
        · exact hkeep k hk

/-! ## Exactness -/

variable (moves) in
/-- No chain of so many moves leads to a node with a derivation. -/
def Shallow : ℕ → N → Prop
  | 0, n => ¬ Derives moves n
  | levels + 1, n => ∀ k, Edge moves n k → Shallow levels k

theorem Shallow.succ (h : Shallow moves levels n) : Shallow moves (levels + 1) n := by
  induction levels generalizing n with
  | zero => exact fun k hk hder => h (.go hk hder)
  | succ levels ih => exact fun k hk => ih (h k hk)

/-- The memory of an exact search with the nodes of `P` in progress. -/
structure Exact (moves : N → List (Move N)) [DecidableEq N] (P : List N) (m : Memory N) : Prop where
  memo : ∀ k r, (k, r) ∈ m.memo → (r = true ↔ Derives moves k)
  visited : ∀ k ∈ m.visited, k ∈ P ∨ m.memo.lookup k ≠ none

theorem Exact.leave [DecidableEq N] (h : Exact moves (n :: P) m)
    (hr : r = true ↔ Derives moves n) : Exact moves P { m with memo := (n, r) :: m.memo } := by
  refine ⟨fun k r' hk => ?_, fun k hk => ?_⟩
  · rcases mem_cons.mp hk with heq | hk
    · cases heq
      exact hr
    · exact h.memo k r' hk
  · by_cases heq : k = n
    · subst heq
      exact .inr (by simp)
    · rw [lookup_cons, beq_eq_false_iff_ne.mpr heq]
      exact (h.visited k hk).imp_left fun hmem => (mem_cons.mp hmem).resolve_left heq

/-- **Where no long chain leads to a derivation the search is exact.** A node in progress that is met
again is at the end of chains of any length, so it has no derivation. -/
theorem search_exact [DecidableEq N] (hshallow : Shallow moves levels n)
    (hstack : ∀ k ∈ P, ∀ l, Shallow moves (l + 1) k → Shallow moves l n) (hm : Exact moves P m) :
    Exact moves P (search moves levels n m).2 ∧
      ((search moves levels n m).1 = true ↔ Derives moves n) := by
  induction levels generalizing n P m with
  | zero => exact ⟨hm, iff_of_false Bool.false_ne_true hshallow⟩
  | succ levels ih =>
    rw [search]
    cases hlook : m.memo.lookup n with
    | some r => exact ⟨hm, hm.memo n r (mem_of_lookup hlook)⟩
    | none =>
      split_ifs with hvis
      · have hin : n ∈ P := (hm.visited n hvis).resolve_right fun hne => hne hlook
        have hzero : Shallow moves 0 n := by
          clear ih
          induction levels with
          | zero => exact hstack n hin 0 hshallow
          | succ levels ih => exact ih (hstack n hin _ hshallow)
        exact ⟨hm, iff_of_false not_false hzero⟩
      · have henter : Exact moves (n :: P) { m with visited := n :: m.visited } :=
          ⟨hm.memo, fun k hk => (mem_cons.mp hk).elim (fun heq => .inl (heq ▸ mem_cons_self))
            fun hk => (hm.visited k hk).imp_left (mem_cons_of_mem n)⟩
        obtain ⟨hkeep, hsucc, hfail⟩ := any_of_invariant (f := follow (search moves levels))
          (Q := fun x found => found = true ↔ Succeeds moves x) (moves n) (fun x hx m' hm' => by
            cases x with
            | leaf found => exact ⟨hm', Iff.rfl⟩
            | go k =>
              refine ih (hshallow k hx) (fun j hj l hl => ?_) hm'
              rcases mem_cons.mp hj with rfl | hj
              · exact hl k hx
              · exact (hstack j hj l hl).succ k hx) henter
        have hres : (any_of (follow (search moves levels)) (moves n)
            ⟨m.memo, n :: m.visited⟩).1 = true ↔ Derives moves n := by
          rw [derives_iff_succeeds]
          constructor
          · intro h
            obtain ⟨x, hx, hq⟩ := hsucc h
            exact ⟨x, hx, hq.mp rfl⟩
          · rintro ⟨x, hx, hq⟩
            by_contra hfalse
            have hnot := (hfail (by simpa using hfalse) x hx).mpr hq
            cases hnot
        exact ⟨hkeep.leave hres, hres⟩

/-! ## Completeness up to the cut-off -/

/-- At `n` the move to `b` is tried before the first one to `a`. -/
def Before (moves : N → List (Move N)) (n b a : N) : Prop :=
  ∃ xs ys, moves n = xs ++ .go a :: ys ∧ .go b ∈ xs ∧ .go a ∉ xs

/-- Where the chain `P` leaves `ds`, it does so by a move that is tried before the one of `ds`. -/
def Earlier (moves : N → List (Move N)) (P ds : List N) : Prop :=
  ∃ S n a b A B, ds = S ++ n :: a :: A ∧ P = S ++ n :: b :: B ∧ Before moves n b a

/-- A chain of `depth` nodes from `root` that repeats none and ends in `k`. -/
structure Trail (moves : N → List (Move N)) (root : N) (depth : ℕ) (k : N) (P : List N) : Prop where
  chain : P.IsChain (Edge moves)
  head : P.head? = some root
  last : P.getLast? = some k
  nodup : P.Nodup
  length : P.length = depth

/-- A derivation that the cut-off cannot hide: no node before its last one is at the end of an
earlier trail that is as long as the levels allow. -/
structure Safe (moves : N → List (Move N)) (root : N) (depth : ℕ) (ds : List N) : Prop where
  derivation : Derivation moves root ds
  nodup : ds.Nodup
  short : ds.length ≤ depth
  clear : ∀ k ∈ ds.dropLast, ∀ P, Trail moves root depth k P → ¬ Earlier moves P ds

/-- The stack of callers follows `ds`, has left it by an earlier move, or has followed it to its
end. -/
def OnCourse (moves : N → List (Move N)) (ds P : List N) : Prop :=
  P <+: ds ∨ Earlier moves P ds ∨ ds <+: P

theorem Earlier.snoc (h : Earlier moves P ds) (j : N) : Earlier moves (P ++ [j]) ds := by
  obtain ⟨S, n, a, b, A, B, rfl, rfl, hbefore⟩ := h
  exact ⟨S, n, a, b, A, B ++ [j], rfl, by simp, hbefore⟩

theorem before_of_not_mem {a : N} (hmoves : moves n = xs ++ .go j :: ys)
    (ha : .go a ∈ moves n) (hne : a ≠ j) (hxs : .go a ∉ xs) : Before moves n j a := by
  have hys : .go a ∈ ys := by
    rw [hmoves, mem_append, mem_cons] at ha
    rcases ha with hmem | heq | hmem
    · exact (hxs hmem).elim
    · cases heq
      exact (hne rfl).elim
    · exact hmem
  obtain ⟨bs, cs, rfl, hbs⟩ := eq_append_cons_of_mem hys
  refine ⟨xs ++ .go j :: bs, cs, by simp [hmoves], by simp, fun hmem => ?_⟩
  rcases mem_append.mp hmem with hmem | hmem
  · exact hxs hmem
  · rcases mem_cons.mp hmem with heq | hmem
    · cases heq
      exact hne rfl
    · exact hbs hmem

/-- The state of a failing search with the nodes of `P` in progress. A node is behind it once it is
visited and no longer in progress. -/
structure Failing (moves : N → List (Move N)) (ds P : List N) (m : Memory N) : Prop where
  stack : ∀ x ∈ P, x ∈ m.visited
  memo : ∀ k r, (k, r) ∈ m.memo → k ∈ m.visited
  no_leaf : ∀ k ∈ m.visited, k ∉ P → .leaf true ∉ moves k
  no_gap : ∀ k j, [k, j] <:+: ds → k ∈ m.visited → k ∉ P → j ∈ m.visited

/-- A derivation whose rest is not in progress cannot have a node of it behind the search: the
nodes that follow are behind it too, and the last one has a leaf. -/
theorem Failing.walk {k : N} {as bs : List N} (h : Failing moves ds P m)
    (hds : Derivation moves root ds) (heq : ds = as ++ k :: bs) (hout : ∀ x ∈ k :: bs, x ∉ P)
    (hk : k ∈ m.visited) : False := by
  induction bs generalizing as k with
  | nil =>
    obtain ⟨k', hlast, hleaf⟩ := hds.leaf
    rw [heq, getLast?_append_of_ne_nil _ (cons_ne_nil k [])] at hlast
    cases hlast
    exact h.no_leaf k hk (hout k mem_cons_self) hleaf
  | cons j bs ih =>
    have hpair : [k, j] <:+: ds := ⟨as, bs, by simp [heq]⟩
    have hj := h.no_gap k j hpair hk (hout k mem_cons_self)
    have hshift : ds = (as ++ [k]) ++ j :: bs := by simp [heq]
    exact ih hshift (fun x hx => hout x (mem_cons_of_mem k hx)) hj

/-- A loop that fails has failed in every round, and what one round has seen stays seen. The round
for `x` may rely on the rounds before it. -/
theorem any_of_false {P : Memory N → Prop}
    {S : α → Memory N → Prop} (hS : ∀ x m m', S x m → m.visited ⊆ m'.visited → S x m')
    {xs done : List α}
    (hf : ∀ pre x post, done ++ xs = pre ++ x :: post → ∀ m m', P m → (∀ y ∈ pre, S y m) →
      f x m = (false, m') → P m' ∧ m.visited ⊆ m'.visited ∧ S x m')
    (hm : P m) (hdone : ∀ y ∈ done, S y m) (h : any_of f xs m = (false, m')) :
    P m' ∧ m.visited ⊆ m'.visited ∧ ∀ y ∈ done ++ xs, S y m' := by
  induction xs generalizing done m with
  | nil =>
    cases h
    rw [append_nil]
    exact ⟨hm, fun _ hk => hk, hdone⟩
  | cons x xs ih =>
    rw [any_of] at h
    cases hfx : f x m with
    | mk found m₁ =>
      rw [hfx] at h
      cases found with
      | true => cases h
      | false =>
        obtain ⟨h₁, hsub₁, hx⟩ := hf done x xs rfl m m₁ hm hdone hfx
        have hshift : done ++ x :: xs = (done ++ [x]) ++ xs := by simp
        have hdone₁ : ∀ y ∈ done ++ [x], S y m₁ := by
          intro y hy
          rcases mem_append.mp hy with hy | hy
          · exact hS y m m₁ (hdone y hy) hsub₁
          · cases mem_singleton.mp hy
            exact hx
        rw [hshift] at hf ⊢
        obtain ⟨h₂, hsub₂, hall⟩ := ih hf h₁ hdone₁ h
        exact ⟨h₂, fun k hk => hsub₂ (hsub₁ hk), hall⟩

/-- A failed move: a leaf that does not succeed, or a node that is visited by then unless no level
was left for it. -/
def Missed (levels : ℕ) : Move N → Memory N → Prop
  | .leaf found, _ => found = false
  | .go k, m => k ∈ m.visited ∨ levels = 0

theorem Missed.mono (x : Move N) (m m' : Memory N) (h : Missed levels x m)
    (hsub : m.visited ⊆ m'.visited) : Missed levels x m' := by
  cases x with
  | leaf found => exact h
  | go k => exact h.imp_left fun hk => hsub hk

theorem Failing.enter (h : Failing moves ds P m) :
    Failing moves ds (P ++ [n]) { m with visited := n :: m.visited } := by
  have hbehind : ∀ k ∈ n :: m.visited, k ∉ P ++ [n] → k ∈ m.visited ∧ k ∉ P := by
    intro k hk hout
    rw [mem_append, mem_singleton, not_or] at hout
    exact ⟨(mem_cons.mp hk).resolve_left hout.2, hout.1⟩
  refine ⟨fun x hx => ?_, fun k r hk => mem_cons_of_mem n (h.memo k r hk), ?_, ?_⟩
  · rcases mem_append.mp hx with hx | hx
    · exact mem_cons_of_mem n (h.stack x hx)
    · cases mem_singleton.mp hx
      exact mem_cons_self
  · intro k hk hout
    exact h.no_leaf k (hbehind k hk hout).1 (hbehind k hk hout).2
  · intro k j hpair hk hout
    exact mem_cons_of_mem n (h.no_gap k j hpair (hbehind k hk hout).1 (hbehind k hk hout).2)

/-- At the deepest level no node of a safe derivation but its last is in progress. -/
theorem Safe.not_deepest (hsafe : Safe moves root depth ds)
    (hcourse : OnCourse moves ds (P ++ [n])) (hpair : [n, j] <:+: ds)
    (htrail : Trail moves root depth n (P ++ [n])) : False := by
  obtain ⟨as, bs, heq⟩ := hpair
  have hds : ds = as ++ n :: j :: bs := by simpa using heq.symm
  have hnodup := hsafe.nodup
  have hmem : n ∈ ds.dropLast := by
    rw [hds, dropLast_append_of_ne_nil (cons_ne_nil n _)]
    exact mem_append_right _ mem_cons_self
  have hlast : ∀ ps, ds ≠ ps ++ [n] := by
    rintro ps rfl
    rw [dropLast_concat] at hmem
    exact (nodup_append.mp hnodup).2.2 n hmem n mem_cons_self rfl
  rcases hcourse with hpre | hearlier | hpre
  · -- the stack fills all levels, so it is the whole derivation
    have hlen : ds.length ≤ (P ++ [n]).length := by
      rw [htrail.length]
      exact hsafe.short
    exact hlast P (hpre.eq_of_length_le hlen).symm
  · exact hsafe.clear n hmem _ htrail hearlier
  · obtain ⟨rest, hrest⟩ := hpre
    rcases eq_nil_or_concat rest with rfl | ⟨rest', x, rfl⟩
    · rw [append_nil] at hrest
      exact hlast P hrest
    · -- the stack has passed `n` already
      rw [concat_eq_append, ← append_assoc] at hrest
      obtain ⟨hP, -⟩ := append_inj' hrest rfl
      have hn : n ∈ P := by
        rw [← hP]
        exact mem_append_left _ (dropLast_subset ds hmem)
      exact (nodup_append.mp htrail.nodup).2.2 n hn n mem_cons_self rfl

theorem Failing.leave (h : Failing moves ds (P ++ [n]) m)
    (hsafe : Safe moves root depth ds) (hchain : (P ++ [n]).IsChain (Edge moves))
    (hhead : (P ++ [n]).head? = some root) (hnodup : (P ++ [n]).Nodup)
    (hcourse : OnCourse moves ds (P ++ [n])) (hdepth : (P ++ [n]).length + levels = depth)
    (hmissed : ∀ x ∈ moves n, Missed levels x m) (r : Bool) :
    Failing moves ds P { m with memo := (n, r) :: m.memo } := by
  have hother : ∀ k, k ≠ n → k ∉ P → k ∉ P ++ [n] := by
    intro k hne hout hmem
    rcases mem_append.mp hmem with hmem | hmem
    · exact hout hmem
    · exact hne (mem_singleton.mp hmem)
  refine ⟨fun x hx => h.stack x (mem_append_left _ hx), ?_, ?_, ?_⟩
  · intro k r' hk
    rcases mem_cons.mp hk with heq | hk
    · cases heq
      exact h.stack n (mem_append_right _ mem_cons_self)
    · exact h.memo k r' hk
  · intro k hk hout
    by_cases heq : k = n
    · subst heq
      intro hleaf
      have hfalse : true = false := hmissed _ hleaf
      cases hfalse
    · exact h.no_leaf k hk (hother k heq hout)
  · intro k j hpair hk hout
    by_cases heq : k = n
    · subst heq
      have hedge : Edge moves k j := by
        have hsub := hsafe.derivation.chain.infix hpair
        exact (isChain_cons_cons.mp hsub).1
      refine (hmissed _ hedge).resolve_right fun hzero => ?_
      exact hsafe.not_deepest hcourse hpair ⟨hchain, hhead, by simp, hnodup, by omega⟩
    · exact h.no_gap k j hpair hk (hother k heq hout)

/-- A failing search stays on course when it goes on to `j` after the moves `xs`. -/
theorem OnCourse.snoc (hcourse : OnCourse moves ds (P ++ [n]))
    (hsafe : Safe moves root depth ds) (h : Failing moves ds (P ++ [n]) m)
    (hmoves : moves n = xs ++ .go j :: ys) (hmissed : ∀ x ∈ xs, Missed (levels + 1) x m) :
    OnCourse moves ds (P ++ [n] ++ [j]) := by
  rcases hcourse with ⟨rest, hrest⟩ | hearlier | hpre
  · cases rest with
    | nil =>
      rw [append_nil] at hrest
      exact Or.inr (Or.inr (hrest ▸ prefix_append _ _))
    | cons a rest =>
      by_cases heq : a = j
      · subst heq
        exact Or.inl ⟨rest, by simp [← hrest]⟩
      · refine Or.inr (Or.inl ⟨P, n, a, j, rest, [], by simp [← hrest], by simp, ?_⟩)
        have hsplit : ds = P ++ n :: a :: rest := by simp [← hrest]
        have hedge : .go a ∈ moves n := by
          have hchain := hsafe.derivation.chain
          rw [hsplit] at hchain
          exact (isChain_cons_cons.mp (isChain_split.mp hchain).2).1
        refine before_of_not_mem hmoves hedge heq fun hmem => ?_
        -- the move of `ds` has been tried: its node is behind the search
        have ha : a ∈ m.visited := (hmissed _ hmem).resolve_right (by omega)
        refine h.walk hsafe.derivation hrest.symm (fun x hx hstack => ?_) ha
        have hnodup := hsafe.nodup
        rw [← hrest] at hnodup
        exact (nodup_append.mp hnodup).2.2 x hstack x hx rfl
  · exact Or.inr (Or.inl (hearlier.snoc j))
  · exact Or.inr (Or.inr (hpre.trans (prefix_append _ _)))

/-- A search that fails leaves no gap in a safe derivation. The induction is on the levels left;
`P` is the stack of callers. -/
theorem search_exhausts [DecidableEq N]
    (hsafe : Safe moves root depth ds) (hdepth : P.length + levels = depth)
    (hchain : (P ++ [n]).IsChain (Edge moves)) (hhead : (P ++ [n]).head? = some root)
    (hnodup : P.Nodup) (hcourse : levels ≠ 0 → OnCourse moves ds (P ++ [n]))
    (hm : Failing moves ds P m) (h : search moves levels n m = (false, m')) :
    Failing moves ds P m' ∧ m.visited ⊆ m'.visited ∧ Missed levels (.go n) m' := by
  induction levels generalizing n P m m' with
  | zero =>
    cases h
    exact ⟨hm, fun _ hk => hk, Or.inr rfl⟩
  | succ levels ih =>
    have hon := hcourse (Nat.succ_ne_zero levels)
    rw [search] at h
    cases hlook : m.memo.lookup n with
    | some r =>
      rw [hlook] at h
      cases h
      exact ⟨hm, fun _ hk => hk, Or.inl (hm.memo n _ (mem_of_lookup hlook))⟩
    | none =>
      rw [hlook] at h
      split_ifs at h with hvis
      · cases h
        exact ⟨hm, fun _ hk => hk, Or.inl hvis⟩
      · have hnot : n ∉ P := fun hmem => hvis (hm.stack n hmem)
        have hnodup' : (P ++ [n]).Nodup := by
          rw [nodup_append]
          refine ⟨hnodup, nodup_singleton n, fun a ha b hb => ?_⟩
          cases mem_singleton.mp hb
          exact fun heq => hnot (heq ▸ ha)
        have hlen : (P ++ [n]).length + levels = depth := by
          rw [length_append, length_singleton]
          omega
        generalize hout : any_of (follow (search moves levels)) (moves n)
          { m with visited := n :: m.visited } = out at h
        obtain ⟨found, m₁⟩ := out
        cases h
        have hloop := any_of_false (P := Failing moves ds (P ++ [n])) (S := Missed levels)
          (fun x m m' => Missed.mono x m m') ?_ hm.enter (fun y hy => (not_mem_nil hy).elim) hout
        · obtain ⟨hfail, hsub, hmissed⟩ := hloop
          refine ⟨hfail.leave hsafe hchain hhead hnodup' hon hlen hmissed false, ?_, Or.inl ?_⟩
          · exact fun k hk => hsub (mem_cons_of_mem n hk)
          · exact hsub mem_cons_self
        · intro xs x ys hmoves m₂ m₃ hm₂ hmissed hstep
          cases x with
          | leaf found =>
            cases hstep
            exact ⟨hm₂, fun _ hk => hk, rfl⟩
          | go j =>
            have hedge : Edge moves n j := by
              rw [Edge, show moves n = _ from hmoves]
              exact mem_append_right _ mem_cons_self
            refine ih hlen ?_ ?_ hnodup' (fun hlevels => ?_) hm₂ hstep
            · rw [append_assoc]
              exact isChain_split.mpr
                ⟨hchain, isChain_cons_cons.mpr ⟨hedge, isChain_singleton j⟩⟩
            · rw [head?_append_of_ne_nil _ (by simp)]
              exact hhead
            · obtain ⟨levels, rfl⟩ := Nat.exists_eq_succ_of_ne_zero hlevels
              exact hon.snoc hsafe hm₂ hmoves hmissed

theorem search_complete [DecidableEq N] (hdepth : 0 < depth)
    (hsafe : Safe moves root depth ds) : (search moves depth root Memory.empty).1 = true := by
  by_contra hfalse
  generalize hout : search moves depth root Memory.empty = out at hfalse
  obtain ⟨found, m⟩ := out
  have hfound : found = false := by simpa using hfalse
  subst hfound
  have hempty : Failing moves ds [] (Memory.empty : Memory N) := by
    refine ⟨fun x hx => ?_, fun k r hk => ?_, fun k hk => ?_, fun k j _ hk => ?_⟩
    · cases hx
    · cases hk
    · cases hk
    · cases hk
  obtain ⟨bs, hds⟩ : ∃ bs, ds = root :: bs := by
    have hhead := hsafe.derivation.head
    cases ds with
    | nil => cases hhead
    | cons d bs =>
      cases hhead
      exact ⟨bs, rfl⟩
  obtain ⟨hfail, -, hmissed⟩ := search_exhausts hsafe (Nat.zero_add depth)
    (isChain_singleton root) rfl nodup_nil (fun _ => Or.inl ⟨bs, hds.symm⟩) hempty hout
  have hroot : root ∈ m.visited := hmissed.resolve_right (by omega)
  exact hfail.walk hsafe.derivation (hds.trans (nil_append _).symm) (fun _ _ => not_mem_nil) hroot

end NexusVfs.DepthSearch
