/-
What every interleaving of the in-memory pipe keeps, and the one thing it loses: `pop`
loads the tail first and `closed` later, so a message pushed between the two loads,
before the pipe is closed, is not seen.
-/
import NexusVfs.PipeInterleavings

namespace NexusVfs.PipeConcurrent

open List Words ByteRing Runs WeakMemory Option
open PipeRing (HEADER_SIZE PipeError Seg pieces messages eq_nil_of_total_eq_zero)

variable {segs : List Seg} {s s' : State} {t i : ℕ} {view : View Loc} {e : Event}
  {r : Unit}

/-! ## Every event keeps the invariant -/

variable {note : Note} {data : Bytes} {w : View Loc} {start n : ℕ}

variable (h : Inv segs s)
include h

theorem Inv.returns (hin : accepted [note] = [])
    (hout : delivered [note] = []) : Inv segs (s.returns t view note) := by
  have hidle : Inv segs (s.set_thread t .idle view) := h.set_thread (by simp)
  refine { hidle with ledger := ?_ }
  change delivered (s.log ++ [note]) ++ _ ++ _ = accepted (s.log ++ [note]) ++ _
  rw [delivered_append, accepted_append, hin, hout, append_nil, append_nil]
  exact h.ledger

theorem Inv.load_closed (hstep : load_closed s t data i = some s') : Next s e s' := by
  obtain ⟨st, -, hstep⟩ := bind_eq_some_iff.mp hstep
  split_ifs at hstep with hclosed hempty hover
  · cases hstep
    exact .note (h.returns rfl rfl) rfl fun h => by cases h
  · cases hstep
    exact .note (h.returns rfl rfl) rfl fun h => by cases h
  · cases hstep
    exact .note (h.returns rfl rfl) rfl fun h => by cases h
  · cases hstep
    refine .same (h.set_thread fun data' hdata' => ?_) rfl
    cases hdata'
    exact ⟨by omega, by omega⟩

theorem Inv.lock_writer (hw : s.writer = .free w) (hdata : Payload s data) :
    Inv segs { s.set_thread t .inside .bot with
      writer := .held t (.load_used data) (view.join w) } := by
  have hledger := h.ledger
  rw [hw] at hledger
  refine (h.set_thread (by simp)).set_writer ?_ (fun t₁ pc₁ view₁ heq => ?_) hledger
  · rw [State.set_thread, hw]
    exact View.le_join_right _ _
  · cases heq
    exact hdata

theorem Inv.lock_reader (hr : s.reader = .free w) :
    Inv segs { s.set_thread t .inside .bot with
      reader := .held t .load_head (view.join w) } := by
  have hledger := h.ledger
  rw [hr] at hledger
  refine (h.set_thread (by simp)).set_reader ?_ (fun t₁ pc₁ view₁ heq => ?_) hledger
  · rw [State.set_thread, hr]
    exact View.le_join_right _ _
  · cases heq
    trivial

theorem Inv.outside_step (hstep : outside_step s t i = some s') : Next s e s' := by
  unfold PipeConcurrent.outside_step at hstep
  cases hstage : (s.threads t).stage with
  | idle | inside =>
    rw [hstage] at hstep
    cases hstep
  | push_closed data =>
    rw [hstage] at hstep
    exact h.load_closed hstep
  | push_lock data =>
    rw [hstage] at hstep
    cases hw : s.writer with
    | free w =>
      simp only [hw] at hstep
      cases hstep
      exact .same (h.lock_writer hw (h.payloads t data hstage)) rfl
    | held t' pc w =>
      simp only [hw] at hstep
      cases hstep
  | pop_lock =>
    rw [hstage] at hstep
    cases hr : s.reader with
    | free w =>
      simp only [hr] at hstep
      cases hstep
      exact .same (h.lock_reader hr) rfl
    | held t' pc w =>
      simp only [hr] at hstep
      cases hstep

theorem Inv.close : Inv segs (close s t) := by
  have hclosed : ∀ closed, Inv segs { s with closed := closed } := fun closed => { h with }
  exact (hclosed _).returns rfl rfl


theorem Inv.event_step (hstep : event_step s e = some (r, s')) : Next s e s' := by
  cases e with
  | push t data | pop t =>
    simp only [PipeConcurrent.event_step] at hstep
    split_ifs at hstep
    cases hstep
    exact .same (h.set_thread (by simp)) rfl
  | close t =>
    simp only [PipeConcurrent.event_step] at hstep
    split_ifs at hstep
    cases hstep
    exact .note h.close rfl nofun
  | outside t i =>
    obtain ⟨s₁, hs₁, heq⟩ := map_eq_some_iff.mp hstep
    cases heq
    exact h.outside_step hs₁
  | writer i =>
    cases hw : s.writer with
    | free w =>
      simp only [PipeConcurrent.event_step, hw] at hstep
      cases hstep
    | held t pc w =>
      simp only [PipeConcurrent.event_step, hw] at hstep
      obtain ⟨s₁, hs₁, heq⟩ := map_eq_some_iff.mp hstep
      cases heq
      exact h.push_access hw hs₁
  | reader seen =>
    cases hr : s.reader with
    | free w =>
      simp only [PipeConcurrent.event_step, hr] at hstep
      cases hstep
    | held t pc w =>
      simp only [PipeConcurrent.event_step, hr] at hstep
      obtain ⟨s₁, hs₁, heq⟩ := map_eq_some_iff.mp hstep
      cases heq
      exact h.pop_access hr hs₁

/-! ## Copies into the ring -/

/-- The cells the writer's next access copies into: first cell and number. -/
def PushPc.copy (ring_cap : ℕ) : PushPc → Option (ℕ × ℕ)
  | .write_sentinel _ tail => some (tail % ring_cap, HEADER_SIZE)
  | .write_header _ write_idx => some (write_idx, HEADER_SIZE)
  | .write_payload data write_idx => some (write_idx + HEADER_SIZE, data.length)
  | _ => none

def State.next_copy (s : State) : Option (ℕ × ℕ) :=
  match s.writer with
  | .free _ => none
  | .held _ pc _ => pc.copy s.ring_cap

theorem Inv.copy_behind_tail {pc : PushPc}
    (hw : s.writer = .held t pc view) (hcopy : pc.copy s.ring_cap = some (start, n)) :
    ∃ q, start = q % s.ring_cap ∧ s.tail.now.value ≤ q ∧ start + n ≤ s.ring_cap ∧
      q + n ≤ s.head.now.value + s.ring_cap := by
  have hat := h.writer_at t pc view hw
  have hheader : HEADER_SIZE = 4 := rfl
  cases pc with
  | write_sentinel data tail =>
    cases hcopy
    obtain ⟨⟨hdata, hmark, hturn⟩, rfl⟩ := hat
    exact ⟨s.tail.now.value, rfl, Nat.le_refl _, by omega, by omega⟩
  | write_header data write_idx =>
    cases hcopy
    obtain ⟨⟨hdata, hfit, hturn⟩, rfl⟩ := hat
    exact ⟨s.tail.now.value, rfl, Nat.le_refl _, by omega, by omega⟩
  | write_payload data write_idx =>
    cases hcopy
    obtain ⟨⟨hdata, hfit, hturn⟩, rfl, -⟩ := hat
    have hpos := hdata.1
    refine ⟨s.tail.now.value + HEADER_SIZE, ?_, by omega, by omega, by omega⟩
    exact (add_mod_of_lt (by omega)).symm
  | _ => cases hcopy

theorem Inv.copy_off_frames (hcopy : s.next_copy = some (start, n)) :
    start + n ≤ s.ring_cap ∧ ∀ q, s.head.now.value ≤ q → q < s.tail.now.value →
      ¬ (start ≤ q % s.ring_cap ∧ q % s.ring_cap < start + n) := by
  unfold State.next_copy at hcopy
  cases hw : s.writer with
  | free w =>
    rw [hw] at hcopy
    cases hcopy
  | held t pc w =>
    rw [hw] at hcopy
    obtain ⟨p, rfl, hp, hfit, hturn⟩ := h.copy_behind_tail hw hcopy
    refine ⟨hfit, fun q hhead htail => ?_⟩
    have hcap : 0 < s.ring_cap := by
      by_contra hzero
      omega
    rcases cells_disjoint hcap hfit (m := 1) (show q + 1 ≤ p by omega) (by omega) with hd | hd
    · omega
    · omega

/-! ## The end of the stream -/

/-- Everything accepted before a `ClosedEmpty` is delivered before it. -/
def Orderly (log : List Note) : Prop :=
  ∀ before after, log = before ++ .popped (.error .ClosedEmpty) :: after →
    accepted before <+: delivered before

omit h in
theorem Orderly.snoc {log : List Note} (h : Orderly log)
    (hnote : note = .popped (.error .ClosedEmpty) → accepted log <+: delivered log) :
    Orderly (log ++ [note]) := by
  intro before after heq
  rcases append_eq_append_iff.mp heq with ⟨rest, hbefore, hrest⟩ | ⟨rest, hlog, hrest⟩
  · -- the mark is the new note itself
    cases rest with
    | nil =>
      rw [append_nil] at hbefore
      cases hrest
      rw [hbefore]
      exact hnote rfl
    | cons x rest =>
      simp at hrest
  · cases rest with
    | nil =>
      rw [append_nil] at hlog
      cases hrest
      rw [← hlog]
      exact hnote rfl
    | cons x rest =>
      cases hrest
      exact h before rest hlog

/-- A pop that loads `closed` as set still has the newest tail in hand. -/
def ReadsNewestTail (s : State) (e : Event) : Prop :=
  ∀ seen t view tail st, e = .reader seen → s.reader = .held t (.scan tail tail) view →
    s.closed.read view .closed (seen 0) = some st → st.value = true → tail = s.tail.now.value

theorem Inv.delivered_of_newest_tail {tail : ℕ}
    (hr : s.reader = .held t (.scan tail tail) view) (htail : tail = s.tail.now.value) :
    accepted s.log <+: delivered s.log := by
  obtain ⟨hhead, -⟩ := h.reader_at t _ view hr
  have hnow := h.tail_now
  have hnil : segs = [] := eq_nil_of_total_eq_zero (by omega)
  have hledger := h.ledger
  rw [hr, hnil] at hledger
  refine ⟨s.writer.in_flight, ?_⟩
  rw [← hledger]
  simp [messages, Lock.in_hand, PopPc.in_hand]

omit h

theorem Orderly.event_step (hlog : Orderly s.log) (h : Inv segs s) (hnewest : ReadsNewestTail s e)
    (hstep : event_step s e = some (r, s')) : Orderly s'.log := by
  rcases (h.event_step hstep).2 with hsame | ⟨note, hsnoc, hnote⟩
  · rw [hsame]
    exact hlog
  · rw [hsnoc]
    refine hlog.snoc fun heq => ?_
    obtain ⟨seen, t, view, tail, st, rfl, hr, hread, hset⟩ := hnote heq
    exact h.delivered_of_newest_tail hr (hnewest seen t view tail st rfl hr hread hset)

/-! ## Whole runs -/

/-- A message pushed by thread 1 and then popped by thread 2, each load returning the newest
store. -/
def one_message : List Event :=
  [.push 1 [7], .outside 1 0, .outside 1 0, .writer 0, .writer 0, .writer 0, .writer 0, .writer 0,
    .writer 0, .writer 0, .writer 0, .pop 2, .outside 2 0, .reader fun _ => 0, .reader fun _ => 1,
    .reader fun _ => 2, .reader fun _ => 2, .reader fun _ => 0, .reader fun _ => 0,
    .reader fun _ => 0]

end NexusVfs.PipeConcurrent
