/-
Threads that wait for an I/O lock.

`blocking_acquire` makes its first attempt in one critical section of `io_state` and
goes to sleep in another; each time it is woken it tries again in the section its wait
returns to, and leaves that section before it sleeps again. One event is one critical
section, a `notify_all`, which follows the section of its release, or a timeout, which
may come late.
-/
import NexusVfs.IoLocksExact

namespace NexusVfs.IoLocks

open Runs Table Option

inductive Stand where
  | idle
  | refused (path : String) (mode : LockMode)
  | parked (path : String) (mode : LockMode)
  | woken (path : String) (mode : LockMode) (timed_out : Bool)
deriving DecidableEq

structure Waiting where
  locks : LockManager
  threads : ℕ → Stand
  /-- Releases whose `notify_all` is still to come. -/
  notices : ℕ

def Waiting.new : Waiting := ⟨.new, fun _ => .idle, 0⟩

inductive WaitOp where
  | acquire (thread : ℕ) (path : String) (mode : LockMode) (timeout_ms : ℕ)
  | wait (thread : ℕ) (expired : Bool)
  | time_out (thread : ℕ)
  | retry (thread : ℕ)
  | release (handle : UInt64)
  | notify

def Waiting.put (s : Waiting) (thread : ℕ) (stand : Stand) : Waiting :=
  { s with threads := fun t => if t = thread then stand else s.threads t }

/-- An attempt under the mutex. A refusal is the call's answer if it is the `last` one. -/
def attempt (s : Waiting) (thread : ℕ) (path : String) (mode : LockMode) (last : Bool) :
    Option UInt64 × Waiting :=
  let (handle, locks) := blocking_acquire s.locks path mode
  if handle ≠ 0 ∨ last then (some handle, { s with locks }.put thread .idle)
  else (none, { s with locks }.put thread (.refused path mode))

def wait_step (s : Waiting) : WaitOp → Option (Option UInt64 × Waiting)
  | .acquire thread path mode timeout_ms =>
    if s.threads thread = .idle then some (attempt s thread path mode (timeout_ms == 0)) else none
  | .wait thread expired =>
    match s.threads thread with
    | .refused path mode =>
      if expired then some (some 0, s.put thread .idle)
      else some (none, s.put thread (.parked path mode))
    | _ => none
  | .time_out thread =>
    match s.threads thread with
    | .parked path mode => some (none, s.put thread (.woken path mode true))
    | _ => none
  | .retry thread =>
    match s.threads thread with
    | .woken path mode timed_out => some (attempt s thread path mode timed_out)
    | _ => none
  | .release handle =>
    let (released, locks) := do_release s.locks handle
    some (none, { s with locks, notices := s.notices + released.toNat })
  | .notify =>
    if s.notices = 0 then none
    else
      some (none,
        { s with
          notices := s.notices - 1
          threads := fun t =>
            match s.threads t with
            | .parked path mode => .woken path mode false
            | stand => stand })

def Opposed (s : LockManager) (path : String) (mode : LockMode) : Prop :=
  ∃ handle info, s.handles.get handle = some info ∧ Conflict info ⟨normalize_path path, mode⟩

/-- The condition on a step: an attempt finds room in the counters, and a handle is not released
while a thread that it stands against is between its refusal and its sleep. -/
def Unhurried (s : Waiting) : WaitOp → Prop
  | .acquire _ path mode _ => Fits s.locks (.blocking_acquire path mode)
  | .retry thread =>
    ∀ path mode timed_out, s.threads thread = .woken path mode timed_out →
      Fits s.locks (.blocking_acquire path mode)
  | .release handle =>
    ∀ info thread path mode, s.locks.handles.get handle = some info →
      s.threads thread = .refused path mode → ¬ Conflict info ⟨normalize_path path, mode⟩
  | _ => True

/-- A refused thread is opposed as long as it has not gone to sleep. -/
structure Awake (s : Waiting) : Prop where
  exact : Exact s.locks
  opposed : ∀ thread path mode, s.threads thread = .refused path mode → Opposed s.locks path mode

variable {s s' : Waiting} {op : WaitOp} {answer : Option UInt64} {thread : ℕ} {path : String}
variable {mode : LockMode}

theorem Awake.put {stand : Stand} (h : Awake s)
    (hstand : ∀ path mode, stand = .refused path mode → Opposed s.locks path mode) :
    Awake (s.put thread stand) := by
  refine ⟨h.exact, fun t p m ht => ?_⟩
  simp only [Waiting.put] at ht
  split_ifs at ht
  · exact hstand p m ht
  · exact h.opposed t p m ht

theorem Awake.attempt (h : Awake s) (hfits : Fits s.locks (.blocking_acquire path mode)) (last : Bool) :
    Awake (attempt s thread path mode last).2 := by
  obtain ⟨hexact, -⟩ := h.exact.step hfits rfl
  unfold IoLocks.attempt
  rcases h.exact.granted_iff path mode with ⟨heq, -⟩ | ⟨heq, hopposed⟩
  · obtain ⟨hnonzero, -, hfresh⟩ := h.exact.fresh hfits.1
    rw [heq] at hexact ⊢
    have hgranted : Awake { s with locks := granted s.locks (normalize_path path) mode } := by
      refine ⟨hexact, fun t p m ht => ?_⟩
      obtain ⟨handle, info, hget, hconflict⟩ := h.opposed t p m ht
      refine ⟨handle, info, ?_, hconflict⟩
      have hne : handle ≠ s.locks.next_handle + 1 := by
        rintro rfl
        rw [hfresh] at hget
        cases hget
      exact (get_insert_of_ne _ _ hne).trans hget
    dsimp only
    rw [if_pos (.inl hnonzero)]
    exact hgranted.put (by simp)
  · rw [heq]
    dsimp only
    split_ifs
    · exact h.put (by simp)
    · refine h.put fun p m hstand => ?_
      cases hstand
      exact hopposed

theorem Awake.release {handle : UInt64} (h : Awake s) (hok : Unhurried s (.release handle)) (notices : ℕ) :
    Awake { s with locks := (do_release s.locks handle).2, notices } := by
  obtain ⟨hexact, -⟩ := h.exact.step (show Fits s.locks (.do_release handle) from trivial) rfl
  refine ⟨hexact, fun t p m ht => ?_⟩
  obtain ⟨other, info, hget, hconflict⟩ := h.opposed t p m ht
  refine ⟨other, info, ?_, hconflict⟩
  rw [(h.exact.release handle).handles, get_remove, if_neg]
  · exact hget
  · rintro rfl
    exact hok info t p m hget ht hconflict

theorem Awake.step (h : Awake s) (hok : Unhurried s op) (hstep : wait_step s op = some (answer, s')) :
    Awake s' := by
  cases op with
  | acquire thread path mode timeout_ms =>
    simp only [wait_step] at hstep
    split_ifs at hstep
    obtain ⟨-, rfl⟩ := Prod.mk.inj (some.inj hstep)
    exact h.attempt hok _
  | wait thread expired =>
    simp only [wait_step] at hstep
    split at hstep
    · split_ifs at hstep <;> cases hstep <;> exact h.put (by simp)
    · cases hstep
  | time_out thread =>
    simp only [wait_step] at hstep
    split at hstep
    · cases hstep
      exact h.put (by simp)
    · cases hstep
  | retry thread =>
    simp only [wait_step] at hstep
    split at hstep
    · rename_i hstand
      obtain ⟨-, rfl⟩ := Prod.mk.inj (some.inj hstep)
      exact h.attempt (hok _ _ _ hstand) _
    · cases hstep
  | release handle =>
    cases hstep
    exact h.release hok _
  | notify =>
    simp only [wait_step] at hstep
    split_ifs at hstep
    cases hstep
    refine ⟨h.exact, fun t p m ht => h.opposed t p m ?_⟩
    dsimp only at ht
    split at ht
    · cases ht
    · exact ht

/-- **Who goes to sleep is opposed**, in every run in which no handle is released behind the back of
a thread that was refused and does not sleep yet. -/
theorem sleepers_are_opposed (ops : List WaitOp) (answers : List (Option UInt64)) (s : Waiting)
    (hok : along wait_step Unhurried .new ops) (hrun : run wait_step .new ops = some (answers, s))
    (thread : ℕ) (answer : Option UInt64) (s' : Waiting)
    (hsleeps : wait_step s (.wait thread false) = some (answer, s')) :
    ∃ path mode, s'.threads thread = .parked path mode ∧ Opposed s.locks path mode := by
  have hawake : Awake s := run_invariant Awake (fun _ _ _ _ h hok hstep => h.step hok hstep)
    ⟨exact_new, by simp [Waiting.new]⟩ hok hrun
  simp only [wait_step] at hsleeps
  split at hsleeps
  · rename_i path mode hstand
    cases hsleeps
    exact ⟨path, mode, by simp [Waiting.put], hawake.opposed thread path mode hstand⟩
  · cases hsleeps

def contended : List WaitOp := [.acquire 0 "/a" .Write 0, .acquire 1 "/a" .Write 9]

def fits_check (s : Waiting) : WaitOp → Bool
  | .acquire _ path mode _ => decide (Fits s.locks (.blocking_acquire path mode))
  | _ => false

theorem sleepers_are_opposed_contended :
    ∃ answers s s', run wait_step .new contended = some (answers, s) ∧
      wait_step s (.wait 1 false) = some (none, s') ∧
      ∃ path mode, s'.threads 1 = .parked path mode ∧ Opposed s.locks path mode := by
  obtain ⟨answers, s, hrun, hstand⟩ := run_decides wait_step .new contended
    (fun _ s => s.threads 1 = .refused "/a" .Write) (by decide +kernel)
  have hsleeps : wait_step s (.wait 1 false) = some (none, s.put 1 (.parked "/a" .Write)) := by
    simp [wait_step, hstand]
  refine ⟨answers, s, _, hrun, hsleeps, sleepers_are_opposed contended answers s ?_ hrun 1 none _ hsleeps⟩
  refine along_of_check (fun s op (h : fits_check s op = true) => ?_) (by decide +kernel)
  cases op with
  | acquire thread path mode timeout_ms => exact of_decide_eq_true (p := Fits _ _) h
  | _ => cases h

/-- The lock is released and announced before the other thread goes to sleep: it sleeps, nobody has
a handle, and no announcement is to come. -/
theorem sleeps_on_a_free_lock :
    ∃ answers s, run wait_step .new (contended ++ [.release 1, .notify, .wait 1 false]) =
        some (answers, s) ∧ s.threads 1 = .parked "/a" .Write ∧ s.notices = 0 ∧
      ∀ handle, s.locks.handles.get handle = none := by
  refine exists_run (fun _ s => s.threads 1 = .parked "/a" .Write ∧ s.notices = 0 ∧
    s.locks.handles.scan (fun _ => true) = []) (by decide +kernel) ?_
  rintro answers s - ⟨hparked, hnotices, hscan⟩
  refine ⟨hparked, hnotices, fun handle => ?_⟩
  refine eq_none_iff_forall_ne_some.mpr fun info hget => ?_
  have hmem : (handle, info) ∈ s.locks.handles.scan fun _ => true := mem_scan.mpr ⟨rfl, hget⟩
  rw [hscan] at hmem
  cases hmem

end NexusVfs.IoLocks
