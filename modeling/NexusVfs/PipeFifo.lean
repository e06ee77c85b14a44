/-
Runs of the two ring pipes against the bounded queue.

The in-memory pipe follows the queue except that it may answer `Full` for want of room
in the ring (`push_follows`). The shared-memory pipe is the queue in runs that never
need more room than the ring has (`shm_runs_as_bounded_queue`).
-/
import NexusVfs.PipeRefinement

namespace NexusVfs.PipeRing

open List Words ByteRing Runs Option

/-! ## In and out of a queue -/

theorem delivered_cons (r : PipeAnswer) (rs : List PipeAnswer) :
    delivered (r :: rs) = delivered [r] ++ delivered rs := by
  rw [delivered, delivered, delivered, ← filterMap_append]
  rfl

theorem accepted_cons (op : PipeOp) (r : PipeAnswer) (ops : List PipeOp) (rs : List PipeAnswer) :
    accepted (op :: ops) (r :: rs) = accepted [op] [r] ++ accepted ops rs := by
  rw [accepted, accepted, accepted, ← filterMap_append]
  rfl

/-- The queue's own step, or a push refused for want of room. -/
def Follows (q : BoundedQueue) (op : PipeOp) (r : PipeAnswer) (q' : BoundedQueue) : Prop :=
  q.step op = some (r, q') ∨
    ∃ data, op = .push data ∧ r = .pushed (.error (.Full q.used q.capacity)) ∧ q' = q

variable {q q' : BoundedQueue} {op : PipeOp} {r : PipeAnswer} {segs : List Seg} {p p' : Pipe}
variable {data : Bytes} {ops : List PipeOp} {rs : List PipeAnswer} {capacity : ℕ}

theorem BoundedQueue.step_ledger (h : q.step op = some (r, q')) :
    delivered [r] ++ q'.items = q.items ++ accepted [op] [r] := by
  cases op with
  | push data =>
    obtain ⟨rfl, rfl⟩ := h
    unfold BoundedQueue.push
    split_ifs with hclosed hempty hover hfull
    · simp [delivered, accepted, taken_in, given_out, filterMap_cons]
    · simp [delivered, accepted, taken_in, given_out, filterMap_cons]
    · simp [delivered, accepted, taken_in, given_out, filterMap_cons]
    · simp [delivered, accepted, taken_in, given_out, filterMap_cons]
    · obtain ⟨n, hn⟩ := Nat.exists_eq_succ_of_ne_zero hempty
      simp [delivered, accepted, taken_in, given_out, hn]
  | pop =>
    obtain ⟨rfl, rfl⟩ := h
    unfold BoundedQueue.pop
    split <;> simp_all [delivered, accepted, taken_in, given_out, filterMap_cons]
  | close =>
    obtain ⟨rfl, rfl⟩ := h
    simp [delivered, accepted, taken_in, given_out, filterMap_cons]

theorem Follows.ledger (h : Follows q op r q') :
    delivered [r] ++ q'.items = q.items ++ accepted [op] [r] := by
  rcases h with h | ⟨data, rfl, rfl, rfl⟩
  · exact BoundedQueue.step_ledger h
  · simp [delivered, accepted, taken_in, given_out, filterMap_cons]

/-! ## One call -/

variable (h : Represents segs p)
include h

theorem Represents.close :
    Represents segs (close p) := { h with }

theorem write_frame_follows (hopen : p.closed = false)
    (hne : data.length ≠ 0) (hshort : data.length < 2 ^ 32)
    (hfit : p.used_bytes + data.length ≤ p.user_capacity) (hroom : Room p data) :
    ∃ segs' p', write_frame p data = .ok (((queue_of segs p).push data).1, p') ∧
      Represents segs' p' ∧ queue_of segs' p' = ((queue_of segs p).push data).2 := by
  obtain ⟨xs, p', hrun, hrep, hmsg, hclosed, hcap⟩ :=
    write_frame_of_room h ⟨by omega, hshort⟩ hfit hroom
  have hpush : (queue_of segs p).push data =
      (.ok data.length, { queue_of segs p with items := messages segs ++ [data] }) := by
    unfold BoundedQueue.push
    rw [h.used_queue_of]
    simp only [queue_of, hopen, Bool.false_eq_true, if_false, if_neg hne,
      if_neg (show ¬ p.user_capacity < data.length by omega),
      if_neg (show ¬ p.user_capacity < p.used_bytes + data.length by omega)]
  refine ⟨segs ++ xs, p', ?_, hrep, ?_⟩
  · rw [hpush]
    exact hrun
  · rw [hpush]
    simp only [queue_of, messages_append, hmsg, hclosed, hcap]

/-- A push that the checks before the ring refuse is refused alike by both
backends and by the queue. -/
theorem push_of_not_accounted (hpass : ¬ (p.closed = false ∧ data.length ≠ 0 ∧
      p.used_bytes + data.length ≤ p.user_capacity)) :
    ∃ r, (queue_of segs p).push data = (r, queue_of segs p) ∧
      SharedMemoryPipeBackend.push_inner p data = .ok (r, p) ∧
      MemoryPipeBackend.push p data = .ok (r, p) := by
  unfold SharedMemoryPipeBackend.push_inner MemoryPipeBackend.push BoundedQueue.push
  rw [h.used_queue_of]
  by_cases hclosed : p.closed = true
  · exact ⟨_, if_pos hclosed, if_pos hclosed, if_pos hclosed⟩
  have hqclosed : ¬ (queue_of segs p).closed = true := hclosed
  simp only [if_neg hclosed, if_neg hqclosed]
  by_cases hempty : data.length = 0
  · exact ⟨_, if_pos hempty, if_pos hempty, if_pos hempty⟩
  simp only [if_neg hempty]
  by_cases hover : p.user_capacity < data.length
  · exact ⟨_, if_pos hover, if_pos hover, if_pos hover⟩
  have hqover : ¬ (queue_of segs p).capacity < data.length := hover
  simp only [if_neg hover, if_neg hqover]
  have hfull : p.user_capacity < p.used_bytes + data.length := by
    by_contra hle
    exact hpass ⟨by simpa using hclosed, hempty, by omega⟩
  exact ⟨_, if_pos hfull, if_pos hfull, if_pos hfull⟩

/-- The pushes that the byte accounting lets through find room in the ring, and
their length fits the header. -/
def PushFits (p : Pipe) : PipeOp → Prop
  | .push data =>
    p.closed = false → data.length ≠ 0 → p.used_bytes + data.length ≤ p.user_capacity →
      data.length < 2 ^ 32 ∧ Room p data
  | _ => True

theorem push_inner_follows (hfits : PushFits p (.push data)) :
    ∃ segs' p', SharedMemoryPipeBackend.push_inner p data =
        .ok (((queue_of segs p).push data).1, p') ∧
      Represents segs' p' ∧ queue_of segs' p' = ((queue_of segs p).push data).2 := by
  by_cases hpass : p.closed = false ∧ data.length ≠ 0 ∧
      p.used_bytes + data.length ≤ p.user_capacity
  · obtain ⟨hopen, hne, hfit⟩ := hpass
    obtain ⟨hshort, hroom⟩ := hfits hopen hne hfit
    obtain ⟨segs', p', hrun, hrep, hq⟩ := write_frame_follows h hopen hne hshort hfit hroom
    refine ⟨segs', p', ?_, hrep, hq⟩
    unfold SharedMemoryPipeBackend.push_inner
    rw [if_neg (by rw [hopen]; exact Bool.false_ne_true), if_neg hne, if_neg (by omega),
      if_neg (by omega)]
    exact hrun
  · obtain ⟨r, hq, hrun, -⟩ := push_of_not_accounted h hpass
    rw [hq]
    exact ⟨segs, p, hrun, h, rfl⟩

omit h in
theorem need_iff_room :
    (∃ n, MemoryPipeBackend.need p data = some n ∧ (p.tail - p.head) + n ≤ p.ring_cap) ↔
      Room p data := by
  unfold MemoryPipeBackend.need Room
  dsimp only
  split_ifs with hwrap hmark
  · simp only [false_and, exists_false, false_iff]
    omega
  · simp only [some.injEq, exists_eq_left']
    omega
  · simp only [some.injEq, exists_eq_left']
    omega

omit h in
/-- A push that passes the byte accounting writes its frame if there is room,
and is refused as `Full` if not. -/
theorem push_of_accounted (hopen : p.closed = false) (hne : data.length ≠ 0)
    (hfit : p.used_bytes + data.length ≤ p.user_capacity) :
    MemoryPipeBackend.push p data = if Room p data then write_frame p data
      else refuse p (.Full p.used_bytes p.user_capacity) := by
  unfold MemoryPipeBackend.push
  rw [if_neg (by rw [hopen]; exact Bool.false_ne_true), if_neg hne, if_neg (by omega),
    if_neg (by omega)]
  by_cases hroom : Room p data
  · obtain ⟨n, hn, hle⟩ := need_iff_room.mpr hroom
    rw [if_pos hroom, hn]
    dsimp only
    rw [if_neg (by omega)]
  · rw [if_neg hroom]
    cases hn : MemoryPipeBackend.need p data with
    | none => rfl
    | some n =>
      dsimp only
      rw [if_pos]
      by_contra hle
      exact hroom (need_iff_room.mp ⟨n, hn, by omega⟩)

theorem push_follows (hshort : data.length < 2 ^ 32) :
    ∃ segs' p' r, MemoryPipeBackend.push p data = .ok (r, p') ∧ Represents segs' p' ∧
      Follows (queue_of segs p) (.push data) (.pushed r) (queue_of segs' p') := by
  by_cases hpass : p.closed = false ∧ data.length ≠ 0 ∧
      p.used_bytes + data.length ≤ p.user_capacity
  · obtain ⟨hopen, hne, hfit⟩ := hpass
    rw [push_of_accounted hopen hne hfit]
    by_cases hroom : Room p data
    · obtain ⟨segs', p', hrun, hrep, hq⟩ := write_frame_follows h hopen hne hshort hfit hroom
      rw [if_pos hroom]
      refine ⟨segs', p', _, hrun, hrep, Or.inl ?_⟩
      rw [hq]
      rfl
    · rw [if_neg hroom]
      refine ⟨segs, p, _, rfl, h, Or.inr ⟨data, rfl, ?_, rfl⟩⟩
      rw [h.used_queue_of]
      rfl
  · obtain ⟨r, hq, -, hrun⟩ := push_of_not_accounted h hpass
    refine ⟨segs, p, r, hrun, h, Or.inl ?_⟩
    rw [BoundedQueue.step, hq]

/-! ## The shared-memory pipe -/

theorem shm_step_follows (hfits : PushFits p op) :
    ∃ segs' p' r, shm_step p op = some (r, p') ∧ Represents segs' p' ∧
      (queue_of segs p).step op = some (r, queue_of segs' p') := by
  cases op with
  | push data =>
    obtain ⟨segs', p', hrun, hrep, hq⟩ := push_inner_follows h hfits
    refine ⟨segs', p', .pushed ((queue_of segs p).push data).1, ?_, hrep, ?_⟩
    · simp only [shm_step, pipe_step, hrun]
    · rw [hq]
      rfl
  | pop =>
    obtain ⟨segs', p', hrun, hrep, hq⟩ := pop_of_represents h
    refine ⟨segs', p', .popped (queue_of segs p).pop.1, ?_, hrep, ?_⟩
    · simp only [shm_step, pipe_step, hrun]
    · rw [hq]
      rfl
  | close => exact ⟨segs, close p, _, rfl, h.close, rfl⟩

theorem shm_run_follows (hok : along shm_step PushFits p ops) :
    ∃ segs' p' rs, run shm_step p ops = some (rs, p') ∧ Represents segs' p' ∧
      run BoundedQueue.step (queue_of segs p) ops = some (rs, queue_of segs' p') := by
  induction ops generalizing segs p with
  | nil => exact ⟨segs, p, [], rfl, h, rfl⟩
  | cons op ops ih =>
    obtain ⟨segs₁, p₁, r, hstep, hrep, hq⟩ := shm_step_follows h hok.1
    obtain ⟨segs₂, p₂, rs, hrun, hrep₂, hq₂⟩ := ih hrep (hok.2 r p₁ hstep)
    exact ⟨segs₂, p₂, r :: rs, run_cons.mpr ⟨r, p₁, rs, hstep, hrun, rfl⟩, hrep₂,
      run_cons.mpr ⟨r, _, rs, hq, hq₂, rfl⟩⟩

omit h

theorem queue_run_ledger (h : run BoundedQueue.step q ops = some (rs, q')) :
    delivered rs ++ q'.items = q.items ++ accepted ops rs := by
  induction ops generalizing q rs with
  | nil =>
    cases h
    simp [delivered, accepted]
  | cons op ops ih =>
    obtain ⟨r, q₁, rs', hstep, hrun, rfl⟩ := run_cons.mp h
    rw [delivered_cons, accepted_cons, append_assoc, ih hrun, ← append_assoc,
      BoundedQueue.step_ledger hstep, append_assoc]

/-- The shared-memory pipe, in every run whose pushes find room when the byte
accounting lets them through: no call crashes, every answer is the bounded
queue's, what was popped and what is left are what was accepted, in order, and
the frames still to be popped are whole. -/
theorem shm_runs_as_bounded_queue {capacity : ℕ} {p₀ : Pipe}
    (hcreate : SharedMemoryPipeBackend.create_native capacity = .ok p₀)
    (husize : capacity * 2 < 2 ^ 64) {ops : List PipeOp} (hok : along shm_step PushFits p₀ ops) :
    ∃ rs p q, run shm_step p₀ ops = some (rs, p) ∧
      run BoundedQueue.step ⟨capacity, [], false⟩ ops = some (rs, q) ∧
      delivered rs ++ q.items = accepted ops rs ∧
      ∃ segs, Represents segs p ∧ queue_of segs p = q := by
  unfold SharedMemoryPipeBackend.create_native at hcreate
  split_ifs at hcreate
  cases hcreate
  obtain ⟨segs, p, rs, hrun, hrep, hq⟩ := shm_run_follows (represents_new husize) hok
  exact ⟨rs, p, _, hrun, hq, queue_run_ledger hq, segs, hrep, rfl⟩

/-- Two messages on a pipe of ten bytes. -/
theorem shm_runs_as_bounded_queue_two :
    along shm_step PushFits (new 10) [.push [1, 2, 3], .pop, .push [4], .pop, .pop] ∧
      ∃ rs p q, run shm_step (new 10) [.push [1, 2, 3], .pop, .push [4], .pop, .pop] = some (rs, p) ∧
        run BoundedQueue.step ⟨10, [], false⟩ [.push [1, 2, 3], .pop, .push [4], .pop, .pop] =
          some (rs, q) ∧
        delivered rs ++ q.items = accepted [.push [1, 2, 3], .pop, .push [4], .pop, .pop] rs ∧
        ∃ segs, Represents segs p ∧ queue_of segs p = q := by
  have hok : along shm_step PushFits (new 10) [.push [1, 2, 3], .pop, .push [4], .pop, .pop] := by
    refine ⟨fun _ _ _ => by decide, fun r p h => ?_⟩
    cases h
    refine ⟨trivial, fun r p h => ?_⟩
    cases h
    refine ⟨fun _ _ _ => by decide, fun r p h => ?_⟩
    cases h
    exact ⟨trivial, fun _ _ _ => ⟨trivial, fun _ _ _ => trivial⟩⟩
  exact ⟨hok, shm_runs_as_bounded_queue rfl (by decide) hok⟩

/-- Five messages of one byte on a pipe of ten: the fifth is written over the
first, and is delivered in its place. On a pipe of one byte the first push panics. -/
theorem shm_overwrites_unpopped :
    (run shm_step (new 10)
        [.push [1], .push [2], .push [3], .push [4], .push [5], .pop, .pop, .pop, .pop, .pop]).map
      Prod.fst =
      some [.pushed (.ok 1), .pushed (.ok 1), .pushed (.ok 1), .pushed (.ok 1), .pushed (.ok 1),
        .popped (.ok [5]), .popped (.ok [2]), .popped (.ok [3]), .popped (.ok [4]),
        .popped (.ok [5])] ∧
    SharedMemoryPipeBackend.push_inner (new 1) [1] = .error .panic := by
  decide +kernel

/-! ## The in-memory pipe -/

def PipeOp.Short : PipeOp → Prop
  | .push data => data.length < 2 ^ 32
  | _ => True

theorem memory_step_follows (h : Represents segs p) (hshort : op.Short)
    (hstep : memory_step p op = some (r, p')) :
    ∃ segs', Represents segs' p' ∧ Follows (queue_of segs p) op r (queue_of segs' p') := by
  cases op with
  | push data =>
    obtain ⟨segs', p₁, a, hrun, hrep, hf⟩ := push_follows h hshort
    simp only [memory_step, pipe_step, hrun, some.injEq, Prod.mk.injEq] at hstep
    obtain ⟨rfl, rfl⟩ := hstep
    exact ⟨segs', hrep, hf⟩
  | pop =>
    obtain ⟨segs', p₁, hrun, hrep, hq⟩ := pop_of_represents h
    simp only [memory_step, pipe_step, hrun, some.injEq, Prod.mk.injEq] at hstep
    obtain ⟨rfl, rfl⟩ := hstep
    refine ⟨segs', hrep, Or.inl ?_⟩
    rw [hq]
    rfl
  | close =>
    obtain ⟨rfl, rfl⟩ := hstep
    exact ⟨segs, h.close, Or.inl rfl⟩

theorem memory_run_ledger (h : Represents segs p) (hshort : ∀ op ∈ ops, op.Short)
    (hrun : run memory_step p ops = some (rs, p')) :
    ∃ segs', Represents segs' p' ∧
      delivered rs ++ messages segs' = messages segs ++ accepted ops rs := by
  induction ops generalizing segs p rs with
  | nil =>
    cases hrun
    exact ⟨segs, h, by simp [delivered, accepted]⟩
  | cons op ops ih =>
    obtain ⟨r, p₁, rs', hstep, hrest, rfl⟩ := run_cons.mp hrun
    obtain ⟨segs₁, h₁, hf⟩ := memory_step_follows h (hshort op mem_cons_self) hstep
    obtain ⟨segs₂, h₂, hledger⟩ :=
      ih h₁ (fun op' hop' => hshort op' (mem_cons_of_mem _ hop')) hrest
    have hone : delivered [r] ++ messages segs₁ = messages segs ++ accepted [op] [r] := hf.ledger
    refine ⟨segs₂, h₂, ?_⟩
    rw [delivered_cons, accepted_cons, append_assoc, hledger, ← append_assoc, hone,
      append_assoc]

/-- The fields that never change, and the ring's length. -/
structure Sized (capacity : ℕ) (p : Pipe) : Prop where
  ring_len : p.ring.length = p.ring_cap
  ring_cap : p.ring_cap = capacity * 2
  user_capacity : p.user_capacity = capacity

theorem sized_new (capacity : ℕ) : Sized capacity (new capacity) :=
  ⟨length_replicate, rfl, rfl⟩

theorem length_copy_from_slice {ring ring' bs : Bytes} {start : ℕ}
    (h : copy_from_slice ring start bs = .ok ring') : ring'.length = ring.length := by
  unfold copy_from_slice at h
  cases hw : write_slice ring start bs with
  | none =>
    rw [hw] at h
    cases h
  | some r =>
    rw [hw] at h
    cases h
    exact length_write_slice hw

theorem length_write_sentinel {frame_len : ℕ} {out : Bytes × ℕ}
    (h : write_sentinel p frame_len = .ok out) : out.1.length = p.ring.length := by
  unfold write_sentinel at h
  split_ifs at h
  · obtain ⟨ring, hring, h⟩ := bind_eq_ok.mp h
    cases pure_eq_ok.mp h
    exact length_copy_from_slice hring
  · cases pure_eq_ok.mp h
    rfl

theorem Sized.write_frame {r : Except PipeError ℕ} (h : Sized capacity p)
    (hrun : write_frame p data = .ok (r, p')) : Sized capacity p' := by
  obtain ⟨out, hout, hrun⟩ := bind_eq_ok.mp hrun
  obtain ⟨ring₁, h₁, hrun⟩ := bind_eq_ok.mp hrun
  obtain ⟨ring₂, h₂, hrun⟩ := bind_eq_ok.mp hrun
  cases pure_eq_ok.mp hrun
  have hlen : ring₂.length = p.ring.length :=
    ((length_copy_from_slice h₂).trans (length_copy_from_slice h₁)).trans
      (length_write_sentinel hout)
  exact { h with ring_len := hlen.trans h.ring_len }

theorem Sized.push {r : Except PipeError ℕ} (h : Sized capacity p)
    (hrun : MemoryPipeBackend.push p data = .ok (r, p')) : Sized capacity p' := by
  unfold MemoryPipeBackend.push refuse at hrun
  split_ifs at hrun
  · cases hrun
    exact h
  · cases hrun
    exact h
  · cases hrun
    exact h
  · cases hrun
    exact h
  · cases hn : MemoryPipeBackend.need p data with
    | none =>
      rw [hn] at hrun
      cases hrun
      exact h
    | some n =>
      rw [hn] at hrun
      dsimp only at hrun
      split_ifs at hrun
      · cases hrun
        exact h
      · exact h.write_frame hrun

theorem Sized.pop {r : Except PipeError Bytes} (h : Sized capacity p) (hrun : pop p = .ok (r, p')) :
    Sized capacity p' := by
  obtain ⟨⟨answer, p₁⟩, hpos, hrun⟩ := bind_eq_ok.mp hrun
  obtain ⟨⟨answer', head⟩, -, hpos⟩ := bind_eq_ok.mp hpos
  cases pure_eq_ok.mp hpos
  have h₁ : Sized capacity { p with head := head } := { h with }
  cases answer with
  | error e =>
    cases pure_eq_ok.mp hrun
    exact h₁
  | ok found =>
    cases hread : read_slice p.ring found.1 found.2.1 with
    | none =>
      simp only [hread] at hrun
      cases hrun
    | some data =>
      simp only [hread] at hrun
      cases pure_eq_ok.mp hrun
      exact { h₁ with }

theorem Sized.step (h : Sized capacity p) (hstep : memory_step p op = some (r, p')) :
    Sized capacity p' := by
  cases op with
  | push data =>
    simp only [memory_step, pipe_step] at hstep
    split at hstep
    · cases hstep
      exact h.push (by assumption)
    · cases hstep
  | pop =>
    simp only [memory_step, pipe_step] at hstep
    split at hstep
    · cases hstep
      exact h.pop (by assumption)
    · cases hstep
  | close =>
    cases hstep
    exact { h with }

/-- A push of a payload that is neither empty nor oversized succeeds exactly if
the bytes are within the capacity and the ring has room. -/
theorem push_succeeds_iff (h : Sized capacity p) (hopen : p.closed = false) (hne : 1 ≤ data.length)
    (hover : data.length ≤ capacity) :
    (∃ p', MemoryPipeBackend.push p data = .ok (.ok data.length, p')) ↔
      p.used_bytes + data.length ≤ capacity ∧ Room p data := by
  have hcap := h.user_capacity
  by_cases hfit : p.used_bytes + data.length ≤ p.user_capacity
  · rw [push_of_accounted hopen (by omega) hfit, ← hcap]
    by_cases hroom : Room p data
    · rw [if_pos hroom]
      simp only [hfit, hroom, and_self, iff_true]
      exact write_frame_succeeds h.ring_len hroom
    · rw [if_neg hroom]
      simp [refuse, hroom]
  · unfold MemoryPipeBackend.push
    rw [if_neg (by rw [hopen]; exact Bool.false_ne_true), if_neg (by omega), if_neg (by omega),
      if_pos (by omega)]
    simp only [refuse, Except.ok.injEq, Prod.mk.injEq, reduceCtorEq, false_and, exists_false,
      false_iff]
    omega

/-- A drained pipe is empty in every sense: nothing between head and tail, no byte in use. -/
theorem drained_of_ledger (husize : capacity * 2 < 2 ^ 64)
    (hrun : run memory_step (new capacity) ops = some (rs, p)) (hshort : ∀ op ∈ ops, op.Short)
    (hdrained : delivered rs = accepted ops rs) : p.head = p.tail ∧ p.used_bytes = 0 := by
  obtain ⟨segs, hrep, hledger⟩ := memory_run_ledger (represents_new husize) hshort hrun
  rw [hdrained] at hledger
  have hnone : messages segs = [] := by
    have hlen := congrArg length hledger
    simp only [length_append, messages, filterMap_nil, length_nil] at hlen
    exact eq_nil_of_length_eq_zero (by simp only [messages]; omega)
  have hnil : segs = [] := hrep.tidy.eq_nil_of_messages hnone
  subst hnil
  exact ⟨by rw [hrep.tail]; rfl, hrep.used⟩

/-- After any history a push of a payload of at most the capacity succeeds
exactly if the bytes in use leave room for it and the ring does. After a history
whose payloads fit the header and that has delivered all it accepted, that is a
condition on where the tail stands: the frame fits before the end of the ring,
or the sentinel does and the frame fits in what the skipped cells leave. -/
theorem drained_push_succeeds_iff {capacity : ℕ} (husize : capacity * 2 < 2 ^ 64)
    {ops : List PipeOp} {rs : List PipeAnswer} {p : Pipe}
    (hrun : run memory_step (new capacity) ops = some (rs, p)) (hopen : p.closed = false)
    {data : Bytes} (hne : 1 ≤ data.length) (hover : data.length ≤ capacity) :
    ((∃ p', MemoryPipeBackend.push p data = .ok (.ok data.length, p')) ↔
      p.used_bytes + data.length ≤ capacity ∧ Room p data) ∧
    ((∀ op ∈ ops, op.Short) → delivered rs = accepted ops rs →
      ((∃ p', MemoryPipeBackend.push p data = .ok (.ok data.length, p')) ↔
        HEADER_SIZE + data.length ≤ p.contiguous ∨
          HEADER_SIZE ≤ p.contiguous ∧
            p.contiguous + (HEADER_SIZE + data.length) ≤ capacity * 2)) := by
  have halong : along memory_step (fun _ _ => True) (new capacity) ops :=
    along_of_forall_mem fun _ _ _ => trivial
  have hsized : Sized capacity p :=
    run_invariant (Sized capacity) (fun s i r s' hs _ => hs.step) (sized_new capacity) halong hrun
  have hiff := push_succeeds_iff hsized hopen hne hover
  refine ⟨hiff, fun hshort hdrained => ?_⟩
  obtain ⟨hhead, hused⟩ := drained_of_ledger husize hrun hshort hdrained
  have hcap := hsized.ring_cap
  have hle : p.contiguous ≤ p.ring_cap := Nat.sub_le _ _
  rw [hiff, Room]
  omega

/-- A message pushed and popped on a pipe of ten bytes, and one more. -/
theorem drained_push_succeeds_iff_ten :
    ∃ p, run memory_step (new 10) [.push [1], .pop] =
        some ([.pushed (.ok 1), .popped (.ok [1])], p) ∧
      ((∃ p', MemoryPipeBackend.push p [2, 3] = .ok (.ok 2, p')) ↔
        HEADER_SIZE + 2 ≤ p.contiguous ∨
          HEADER_SIZE ≤ p.contiguous ∧ p.contiguous + (HEADER_SIZE + 2) ≤ 20) := by
  refine ⟨_, rfl, ?_⟩
  refine (@drained_push_succeeds_iff 10 (by decide) [.push [1], .pop] _ _ rfl rfl [2, 3]
    (by decide) (by decide)).2 ?_ rfl
  intro op hop
  rcases mem_cons.mp hop with rfl | hop
  · exact (by decide : [(1 : UInt8)].length < 2 ^ 32)
  · cases mem_singleton.mp hop
    trivial

/-- One byte pushed and popped leaves a pipe of four bytes with its tail three
cells before the end of the ring. No frame fits there and neither does a
sentinel, so every later payload is refused, and the refusal changes nothing. -/
theorem drained_pipe_wedged :
    ∃ p, run memory_step (new 4) [.push [1], .pop] =
        some ([.pushed (.ok 1), .popped (.ok [1])], p) ∧ p.closed = false ∧
      ∀ data : Bytes, 1 ≤ data.length → data.length ≤ 4 →
        MemoryPipeBackend.push p data = .ok (.error (.Full 0 4), p) := by
  refine ⟨_, rfl, rfl, fun data hne hover => ?_⟩
  rw [push_of_accounted rfl (by omega) (by change 0 + data.length ≤ 4; omega), if_neg]
  · rfl
  · rw [Room]
    change ¬ (4 + data.length ≤ 3 ∧ _ ∨ _ ∧ 4 ≤ 3 ∧ _)
    omega

end NexusVfs.PipeRing
