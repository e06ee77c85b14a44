/-
The in-memory pipe is a queue at every single access.

`Inv` names what lies between head and tail at any moment. A sentinel may be published
without its frame yet, so the last piece may be a skip. A consumer works from a tail it
loaded some time ago: `published` says of every tail ever stored that the pieces below
it are in all the contents of the ring that an acquire load of that store leaves
visible. What the writer knows is newest, since only the holder of its lock stores to
`tail` and to the ring; the same holds of the reader and `head`.
-/
import NexusVfs.PipeConcurrent

namespace NexusVfs.PipeConcurrent

open Option List Words ByteRing Runs WeakMemory
open PipeRing (HEADER_SIZE PipeError Seg pieces messages SkipsEnd frame_bytes
  pieces_append messages_append skipsEnd_append length_frame_bytes eq_nil_of_total_eq_zero)

/-! ## The invariant -/

/-- A payload that passed the checks of `push` before the lock. -/
def Payload (s : State) (data : Bytes) : Prop := 0 < data.length ∧ data.length ≤ s.user_capacity

/-- The frame of `data` fits behind the tail without coming round to the head. -/
def FrameRoom (s : State) (data : Bytes) : Prop :=
  Payload s data ∧ s.tail.now.value % s.ring_cap + (HEADER_SIZE + data.length) ≤ s.ring_cap ∧
    s.tail.now.value + (HEADER_SIZE + data.length) ≤ s.head.now.value + s.ring_cap

/-- A sentinel fits at the tail, and the frame behind the cells it skips. -/
def WrapRoom (s : State) (data : Bytes) : Prop :=
  Payload s data ∧ HEADER_SIZE ≤ s.ring_cap - s.tail.now.value % s.ring_cap ∧
    s.tail.now.value + (s.ring_cap - s.tail.now.value % s.ring_cap + (HEADER_SIZE + data.length)) ≤
      s.head.now.value + s.ring_cap

def AtTail (s : State) (bs : Bytes) : Prop :=
  Holds s.ring.now.value (s.tail.now.value % s.ring_cap) bs

/-- What the holder of the writer lock has made sure of before its next access. -/
def WriterAt (s : State) : PushPc → Prop
  | .load_used data => Payload s data
  | .load_tail data _ => Payload s data
  | .load_head data _ tail => Payload s data ∧ tail = s.tail.now.value
  | .write_sentinel data tail => WrapRoom s data ∧ tail = s.tail.now.value
  | .store_wrap data tail =>
    WrapRoom s data ∧ tail = s.tail.now.value ∧ AtTail s (u32_to_le_bytes 0)
  | .write_header data write_idx =>
    FrameRoom s data ∧ write_idx = s.tail.now.value % s.ring_cap
  | .write_payload data write_idx =>
    FrameRoom s data ∧ write_idx = s.tail.now.value % s.ring_cap ∧
      AtTail s (u32_to_le_bytes data.length)
  | .load_current data => FrameRoom s data ∧ AtTail s (frame_bytes data)
  | .store_tail data current_tail =>
    FrameRoom s data ∧ AtTail s (frame_bytes data) ∧ current_tail = s.tail.now.value
  | .add_used data => Payload s data

/-- A tail the reader has loaded: the pieces below it are in every contents of the ring the
reader may see, and it sees no older tail. -/
def Ahead (s : State) (segs : List Seg) (view : View Loc) (tail : ℕ) : Prop :=
  (∃ pre post, segs = pre ++ post ∧ tail = s.head.now.value + total (pieces pre) ∧
    Since s.ring (view .ring) fun ring => Laid ring s.ring_cap s.head.now.value (pieces pre)) ∧
  Since s.tail (view .tail) fun x => tail ≤ x

/-- The frame of `data` is the first between head and tail, and the reader sees no tail before
its end. -/
def Taken (s : State) (segs : List Seg) (view : View Loc) (data : Bytes) (advance : ℕ) : Prop :=
  (∃ hm rest, segs = .frame data hm :: rest ∧ advance = HEADER_SIZE + data.length) ∧
    Since s.tail (view .tail) fun x => s.head.now.value + advance ≤ x

def ReaderAt (s : State) (segs : List Seg) (view : View Loc) : PopPc → Prop
  | .load_head => True
  | .load_tail head => head = s.head.now.value
  | .scan head tail => head = s.head.now.value ∧ Ahead s segs view tail
  | .store_skip head tail =>
    (∃ waste hw rest, segs = .skip waste hw :: rest ∧ head = s.head.now.value + waste) ∧
      head ≤ tail ∧ Ahead s segs view tail
  | .copy_payload payload_start payload_len total_advance =>
    ∃ m, Taken s segs view m total_advance ∧ payload_len = m.length ∧
      payload_start = s.head.now.value % s.ring_cap + HEADER_SIZE ∧
      s.head.now.value % s.ring_cap + (HEADER_SIZE + m.length) ≤ s.ring_cap ∧
      Since s.ring (view .ring) fun ring =>
        Holds ring (s.head.now.value % s.ring_cap) (frame_bytes m)
  | .load_current data total_advance => Taken s segs view data total_advance
  | .store_head data total_advance head =>
    Taken s segs view data total_advance ∧ head = s.head.now.value
  | .sub_used _ => True

/-- A message that is published while its push has not returned. -/
def PushPc.in_flight : PushPc → List Bytes
  | .add_used data => [data]
  | _ => []

/-- A message that the head has passed while its pop has not returned. -/
def PopPc.in_hand : PopPc → List Bytes
  | .sub_used data => [data]
  | _ => []

def Lock.in_flight : Lock PushPc → List Bytes
  | .free _ => []
  | .held _ pc _ => pc.in_flight

def Lock.in_hand : Lock PopPc → List Bytes
  | .free _ => []
  | .held _ pc _ => pc.in_hand

structure Inv (segs : List Seg) (s : State) : Prop where
  capacity : s.user_capacity < 2 ^ 32
  ring_cap : s.ring_cap = s.user_capacity * 2
  ring_len : s.ring.now.value.length = s.ring_cap
  calm : s.panicked = false
  tail_now : s.tail.now.value = s.head.now.value + total (pieces segs)
  skips : SkipsEnd s.ring_cap s.head.now.value segs
  laid : Laid s.ring.now.value s.ring_cap s.head.now.value (pieces segs)
  heads : ∀ st ∈ s.head.all, st.value ≤ s.head.now.value
  tails : Ascending s.tail
  published : ∀ st ∈ s.tail.all, s.head.now.value ≤ st.value →
    ∃ pre post, segs = pre ++ post ∧ st.value = s.head.now.value + total (pieces pre) ∧
      Since s.ring (st.view .ring) fun ring =>
        Laid ring s.ring_cap s.head.now.value (pieces pre)
  payloads : ∀ t data, (s.threads t).stage = .push_lock data → Payload s data
  writer_tail : s.tail.old.length ≤ s.writer.view .tail
  writer_ring : s.ring.old.length ≤ s.writer.view .ring
  writer_at : ∀ t pc view, s.writer = .held t pc view → WriterAt s pc
  reader_head : s.head.old.length ≤ s.reader.view .head
  reader_tail : Since s.tail (s.reader.view .tail) fun x => s.head.now.value ≤ x
  reader_at : ∀ t pc view, s.reader = .held t pc view → ReaderAt s segs view pc
  ledger : delivered s.log ++ s.reader.in_hand ++ messages segs =
    accepted s.log ++ s.writer.in_flight

theorem inv_new {capacity : ℕ} (h : capacity < 2 ^ 32) : Inv [] (new capacity) where
  capacity := h
  ring_cap := rfl
  ring_len := length_replicate
  calm := rfl
  tail_now := rfl
  skips := trivial
  laid := trivial
  heads := by
    intro st hst
    cases mem_singleton.mp hst
    exact Nat.le_refl _
  tails := by
    intro i st hget j st' _ _
    cases mem_singleton.mp (mem_of_getElem? hget)
    exact Nat.zero_le _
  published := by
    intro st hst _
    cases mem_singleton.mp hst
    exact ⟨[], [], rfl, rfl, fun _ _ _ _ => trivial⟩
  payloads := by
    intro t data hstage
    cases hstage
  writer_tail := Nat.le_refl _
  writer_ring := Nat.le_refl _
  writer_at := by
    intro t pc view hw
    cases hw
  reader_head := Nat.le_refl _
  reader_tail := fun _ _ _ _ => Nat.zero_le _
  reader_at := by
    intro t pc view hr
    cases hr
  ledger := rfl

/-! ## The log -/

theorem accepted_append (as bs : List Note) : accepted (as ++ bs) = accepted as ++ accepted bs :=
  filterMap_append

theorem delivered_append (as bs : List Note) :
    delivered (as ++ bs) = delivered as ++ delivered bs := filterMap_append

variable {segs : List Seg} {s : State} {t : ℕ} {view view' : View Loc}

/-- A pop is about to load `closed` as set: its `head` has met the tail it loaded. -/
def AtClosedLoad (s : State) (e : Event) : Prop :=
  ∃ seen t view tail st, e = .reader seen ∧ s.reader = .held t (.scan tail tail) view ∧
    s.closed.read view .closed (seen 0) = some st ∧ st.value = true

/-- What a step adds to the log, and when that is a `ClosedEmpty`. -/
def LogsFor (s : State) (e : Event) (s' : State) : Prop :=
  s'.log = s.log ∨ ∃ note, s'.log = s.log ++ [note] ∧
    (note = .popped (.error .ClosedEmpty) → AtClosedLoad s e)

/-- A step from `s` keeps the invariant and logs what it may. -/
def Next (s : State) (e : Event) (s' : State) : Prop := (∃ segs, Inv segs s') ∧ LogsFor s e s'

variable {e : Event}

variable {s₀ : State} {log : List Note} {st : Store Loc ℕ} {m hdr : Bytes}

variable (h : Inv segs s)
include h

theorem Next.same (hlog : s.log = s₀.log) : Next s₀ e s :=
  ⟨⟨segs, h⟩, .inl hlog⟩

theorem Next.note {note : Note} (hlog : s.log = s₀.log ++ [note])
    (hnote : note = .popped (.error .ClosedEmpty) → AtClosedLoad s₀ e) : Next s₀ e s :=
  ⟨⟨segs, h⟩, .inr ⟨note, hlog, hnote⟩⟩

/-! ## One side moves on -/

variable {pc pc' : PushPc} {data : Bytes} {w : View Loc} {x : Seg} {i k value : ℕ} {s' : State}
variable {seen : ℕ → ℕ} {hist : History Loc Bytes}

theorem Inv.set_thread {stage : Stage} (hstage : ∀ data, stage = .push_lock data → Payload s data) :
    Inv segs (s.set_thread t stage view) where
  __ := h
  payloads u data hu := by
    simp only [State.set_thread] at hu
    split_ifs at hu
    · exact hstage data hu
    · exact h.payloads u data hu

theorem Inv.set_writer {lock : Lock PushPc} (hview : ∀ l, s.writer.view l ≤ lock.view l)
    (hat : ∀ t pc view, lock = .held t pc view → WriterAt s pc)
    (hledger : delivered log ++ s.reader.in_hand ++ messages segs = accepted log ++ lock.in_flight) :
    Inv segs { s with writer := lock, log } where
  __ := h
  writer_tail := Nat.le_trans h.writer_tail (hview _)
  writer_ring := Nat.le_trans h.writer_ring (hview _)
  writer_at := hat
  ledger := hledger

theorem Inv.set_reader {lock : Lock PopPc} (hview : ∀ l, s.reader.view l ≤ lock.view l)
    (hat : ∀ t pc view, lock = .held t pc view → ReaderAt s segs view pc)
    (hledger : delivered log ++ lock.in_hand ++ messages segs = accepted log ++ s.writer.in_flight) :
    Inv segs { s with reader := lock, log } where
  __ := h
  reader_head := Nat.le_trans h.reader_head (hview _)
  reader_tail := h.reader_tail.mono (hview _)
  reader_at := hat
  ledger := hledger

theorem Inv.push_goes (hw : s.writer = .held t pc view)
    (hview : ∀ l, view l ≤ view' l) (hat : WriterAt s pc')
    (hflight : pc'.in_flight = pc.in_flight) : Inv segs (s.push_goes t pc' view') := by
  have hledger := h.ledger
  rw [hw, Lock.in_flight, ← hflight] at hledger
  refine h.set_writer (by rw [hw]; exact hview) (fun t₁ pc₁ view₁ heq => ?_) hledger
  cases heq
  exact hat

theorem Inv.pop_goes {pc pc' : PopPc} (hr : s.reader = .held t pc view)
    (hview : ∀ l, view l ≤ view' l) (hat : ReaderAt s segs view' pc')
    (hhand : pc'.in_hand = pc.in_hand) : Inv segs (s.pop_goes t pc' view') := by
  have hledger := h.ledger
  rw [hr, Lock.in_hand, ← hhand] at hledger
  refine h.set_reader (by rw [hr]; exact hview) (fun t₁ pc₁ view₁ heq => ?_) hledger
  cases heq
  exact hat

/-! ## A call returns -/

theorem Inv.push_returns {r : Except PipeError ℕ} (hw : s.writer = .held t pc view)
    (hview : ∀ l, view l ≤ view' l) (hflight : accepted [.pushed data r] = pc.in_flight) :
    Inv segs (s.push_returns t view' data r) := by
  have hledger := h.ledger
  have hdel : delivered [Note.pushed data r] = [] := rfl
  rw [hw, Lock.in_flight, ← hflight, ← accepted_append] at hledger
  refine (h.set_thread (by simp)).set_writer ?_ nofun ?_
  · rw [State.set_thread, hw]
    exact hview
  · change delivered (s.log ++ [.pushed data r]) ++ _ ++ _ = accepted (s.log ++ [.pushed data r]) ++ []
    rw [delivered_append, hdel, append_nil, append_nil]
    exact hledger

theorem Inv.pop_returns {pc : PopPc} {r : Except PipeError Bytes}
    (hr : s.reader = .held t pc view) (hview : ∀ l, view l ≤ view' l)
    (hhand : delivered [.popped r] = pc.in_hand) : Inv segs (s.pop_returns t view' r) := by
  have hledger := h.ledger
  have hacc : accepted [Note.popped r] = [] := rfl
  rw [hr, Lock.in_hand, ← hhand, ← delivered_append] at hledger
  refine (h.set_thread (by simp)).set_reader ?_ nofun ?_
  · rw [State.set_thread, hr]
    exact hview
  · change delivered (s.log ++ [.popped r]) ++ [] ++ _ = accepted (s.log ++ [.popped r]) ++ _
    rw [accepted_append, hacc, append_nil, append_nil]
    exact hledger

/-! ## The ring is written -/

theorem Inv.ring_cap_pos (hdata : Payload s data) : 0 < s.ring_cap := by
  have hcap := h.ring_cap
  unfold Payload at hdata
  omega

omit h in
/-- New contents of the ring that keep the pieces between head and tail keep what the reader
relies on. -/
theorem ReaderAt.store_ring {pc : PopPc} {ring : Bytes}
    (hlaid : Laid ring s.ring_cap s.head.now.value (pieces segs)) (h : ReaderAt s segs view pc) :
    ReaderAt { s with ring := s.ring.store ring w } segs view pc := by
  have hahead : ∀ {tail : ℕ}, Ahead s segs view tail →
      Ahead { s with ring := s.ring.store ring w } segs view tail := by
    rintro tail ⟨⟨pre, post, rfl, htail, hsince⟩, hbound⟩
    rw [pieces_append] at hlaid
    exact ⟨⟨pre, post, rfl, htail, hsince.store (laid_append.mp hlaid).1⟩, hbound⟩
  cases pc with
  | scan head tail => exact ⟨h.1, hahead h.2⟩
  | store_skip head tail => exact ⟨h.1, h.2.1, hahead h.2.2⟩
  | copy_payload start len advance =>
    obtain ⟨m, htaken, hlen, hstart, hfit, hsince⟩ := h
    obtain ⟨⟨hm, rest, rfl, hadv⟩, hbound⟩ := htaken
    exact ⟨m, ⟨⟨hm, rest, rfl, hadv⟩, hbound⟩, hlen, hstart, hfit, hsince.store hlaid.2.1⟩
  | _ => exact h

omit h in
theorem log_write_ring (s : State) (t : ℕ) (view : View Loc) (start : ℕ) (bs : Bytes) (pc : PushPc) :
    (write_ring s t view start bs pc).log = s.log := by
  unfold write_ring
  cases write_slice s.ring.now.value start bs with
  | none => rfl
  | some ring => rfl

/-- A copy into the ring behind the tail, less than a turn ahead of the head: it stays inside the
ring and leaves the pieces between head and tail alone. -/
theorem Inv.write_ring {q : ℕ} {bs : Bytes}
    (hw : s.writer = .held t pc view) (hcap : 0 < s.ring_cap) (hq : s.tail.now.value ≤ q)
    (hfit : q % s.ring_cap + bs.length ≤ s.ring_cap)
    (hturn : q + bs.length ≤ s.head.now.value + s.ring_cap)
    (hat : ∀ ring w, write_slice s.ring.now.value (q % s.ring_cap) bs = some ring →
      WriterAt { s with ring := s.ring.store ring w } pc')
    (hflight : pc'.in_flight = pc.in_flight) :
    Inv segs (write_ring s t view (q % s.ring_cap) bs pc') := by
  obtain ⟨ring, hring⟩ := write_slice_of_le s.ring.now.value (q % s.ring_cap) bs
    (by rw [h.ring_len]; exact hfit)
  have hlaid : Laid ring s.ring_cap s.head.now.value (pieces segs) :=
    h.laid.write hcap (by rw [← h.tail_now]; exact hq) hturn hfit hring
  have htail := h.writer_tail
  have hledger := h.ledger
  rw [hw] at htail hledger
  rw [PipeConcurrent.write_ring, hring]
  exact
    { h with
      ring_len := (length_write_slice hring).trans h.ring_len
      laid := hlaid
      published := by
        intro st hst hle
        obtain ⟨pre, post, rfl, hval, hsince⟩ := h.published st hst hle
        rw [pieces_append] at hlaid
        exact ⟨pre, post, rfl, hval, hsince.store (laid_append.mp hlaid).1⟩
      writer_tail := Nat.le_trans htail (View.le_raise _ _ _ _)
      writer_ring := by
        change (s.ring.store ring _).old.length ≤ _
        rw [History.old_store]
        exact View.le_raise_self _ _ _
      writer_at := by
        intro t₁ pc₁ view₁ heq
        cases heq
        exact hat ring _ hring
      reader_at := fun t₁ pc₁ view₁ hr => (h.reader_at t₁ pc₁ view₁ hr).store_ring hlaid
      ledger := by
        change _ = accepted s.log ++ pc'.in_flight
        rw [hflight]
        exact hledger }

/-! ## The tail is stored -/

omit h in
theorem ReaderAt.store_tail {pc : PopPc} (hinv : Inv segs s) (hle : s.tail.now.value ≤ value)
    (h : ReaderAt s segs view pc) :
    ReaderAt { s with tail := s.tail.store value w } (segs ++ [x]) view pc := by
  have htail := hinv.tail_now
  have hahead : ∀ {tail : ℕ}, Ahead s segs view tail →
      Ahead { s with tail := s.tail.store value w } (segs ++ [x]) view tail := by
    rintro tail ⟨⟨pre, post, rfl, htl, hsince⟩, hbound⟩
    rw [pieces_append, total_append] at htail
    exact ⟨⟨pre, post ++ [x], append_assoc _ _ _, htl, hsince⟩, hbound.store (by omega)⟩
  have htaken : ∀ {m : Bytes} {advance : ℕ}, Taken s segs view m advance →
      Taken { s with tail := s.tail.store value w } (segs ++ [x]) view m advance := by
    rintro m advance ⟨⟨hm, rest, rfl, hadv⟩, hbound⟩
    refine ⟨⟨hm, rest ++ [x], rfl, hadv⟩, hbound.store ?_⟩
    simp only [pieces, map_cons, total_cons, Seg.piece] at htail
    omega
  cases pc with
  | scan head tail => exact ⟨h.1, hahead h.2⟩
  | store_skip head tail =>
    obtain ⟨⟨waste, hw, rest, rfl, hhead⟩, hle', ha⟩ := h
    exact ⟨⟨waste, hw, rest ++ [x], rfl, hhead⟩, hle', hahead ha⟩
  | copy_payload start len advance =>
    obtain ⟨m, ht, hrest⟩ := h
    exact ⟨m, htaken ht, hrest⟩
  | load_current data advance => exact htaken h
  | store_head data advance head => exact ⟨htaken h.1, h.2⟩
  | _ => exact h

theorem Inv.store_tail (hw : s.writer = .held t pc view)
    (hvalue : value = s.tail.now.value + x.piece.len)
    (hlaid : Laid s.ring.now.value s.ring_cap s.head.now.value (pieces (segs ++ [x])))
    (hskip : SkipsEnd s.ring_cap s.tail.now.value [x])
    (hat : ∀ w, WriterAt { s with tail := s.tail.store value w } pc') (hnone : pc.in_flight = [])
    (hflight : pc'.in_flight = messages [x]) :
    Inv (segs ++ [x]) (store_tail s t view value pc') := by
  have htail := h.tail_now
  have hring := h.writer_ring
  have hledger := h.ledger
  rw [hw] at hring hledger
  rw [Lock.in_flight, hnone, append_nil] at hledger
  have hlast : total (pieces [x]) = x.piece.len := by simp [pieces]
  have htotal : value = s.head.now.value + total (pieces (segs ++ [x])) := by
    rw [pieces_append, total_append]
    omega
  exact
    { h with
      tail_now := htotal
      skips := by
        refine skipsEnd_append.mpr ⟨h.skips, ?_⟩
        change SkipsEnd s.ring_cap (s.head.now.value + _) [x]
        rw [← htail]
        exact hskip
      laid := hlaid
      tails := h.tails.store (by omega)
      published := by
        intro st hst hle
        rcases History.mem_store.mp hst with hst | rfl
        · obtain ⟨pre, post, rfl, hval, hsince⟩ := h.published st hst hle
          exact ⟨pre, post ++ [x], append_assoc _ _ _, hval, hsince⟩
        · refine ⟨segs ++ [x], [], (append_nil _).symm, htotal, ?_⟩
          exact Since.of_newest
            (Nat.le_trans hring (View.le_raise view .tail s.tail.size .ring)) hlaid
      writer_tail := by
        change (s.tail.store value _).old.length ≤ _
        rw [History.old_store]
        exact View.le_raise_self _ _ _
      writer_ring := Nat.le_trans hring (View.le_raise _ _ _ _)
      writer_at := by
        intro t₁ pc₁ view₁ heq
        cases heq
        exact hat _
      reader_tail := h.reader_tail.store (by omega)
      reader_at := fun t₁ pc₁ view₁ hr => (h.reader_at t₁ pc₁ view₁ hr).store_tail h (by omega)
      ledger := by
        change delivered s.log ++ s.reader.in_hand ++ messages (segs ++ [x]) =
          accepted s.log ++ pc'.in_flight
        rw [messages_append, ← append_assoc, hledger, hflight] }

/-! ## The head is stored -/

omit h in
theorem WriterAt.store_head (hle : s.head.now.value ≤ value) (h : WriterAt s pc) :
    WriterAt { s with head := s.head.store value w } pc := by
  have hframe : ∀ {data : Bytes}, FrameRoom s data →
      FrameRoom { s with head := s.head.store value w } data := by
    rintro data ⟨hp, hfit, hturn⟩
    exact ⟨hp, hfit, Nat.le_trans hturn (Nat.add_le_add_right hle _)⟩
  have hwrap : ∀ {data : Bytes}, WrapRoom s data →
      WrapRoom { s with head := s.head.store value w } data := by
    rintro data ⟨hp, hfit, hturn⟩
    exact ⟨hp, hfit, Nat.le_trans hturn (Nat.add_le_add_right hle _)⟩
  cases pc with
  | write_sentinel data tail => exact ⟨hwrap h.1, h.2⟩
  | store_wrap data tail => exact ⟨hwrap h.1, h.2⟩
  | write_header data write_idx | write_payload data write_idx | load_current data
  | store_tail data current_tail => exact ⟨hframe h.1, h.2⟩
  | _ => exact h

variable {rest : List Seg} {tail start : ℕ}

omit h in
theorem drop_first {pre post : List Seg} (hsplit : x :: rest = pre ++ post)
    (hle : x.piece.len ≤ total (pieces pre)) : ∃ pre', pre = x :: pre' ∧ rest = pre' ++ post := by
  cases pre with
  | nil =>
    have hx := x.len_pos
    simp only [pieces, map_nil, total_nil] at hle
    omega
  | cons y pre' =>
    cases hsplit
    exact ⟨pre', rfl, rfl⟩

omit h in
theorem Inv.store_head {pc pc' : PopPc} (h : Inv (x :: rest) s) (hr : s.reader = .held t pc view)
    (hvalue : value = s.head.now.value + x.piece.len)
    (hbound : Since s.tail (view .tail) fun y => value ≤ y)
    (hat : ∀ w, ReaderAt { s with head := s.head.store value w } rest
      (view.raise .head s.head.size) pc') (hnone : pc.in_hand = [])
    (hhand : pc'.in_hand = messages [x]) : Inv rest (store_head s t view value pc') := by
  have htail := h.tail_now
  have hledger := h.ledger
  rw [hr, Lock.in_hand, hnone, append_nil] at hledger
  have hcons : total (pieces (x :: rest)) = x.piece.len + total (pieces rest) := by
    simp [pieces]
  have hskips : SkipsEnd s.ring_cap value rest := by
    have hsplit := (@skipsEnd_append [x] rest _ _).mp h.skips
    have hlast : total (pieces [x]) = x.piece.len := by simp [pieces]
    rw [hlast, ← hvalue] at hsplit
    exact hsplit.2
  have hlaid : Laid s.ring.now.value s.ring_cap value (pieces rest) := by
    rw [hvalue]
    exact h.laid.2.2
  have hle : s.head.now.value ≤ value := by omega
  exact
    { h with
      tail_now := by
        change s.tail.now.value = value + _
        omega
      skips := hskips
      laid := hlaid
      heads := by
        intro st hst
        change st.value ≤ value
        rcases History.mem_store.mp hst with hst | rfl
        · have := h.heads st hst
          omega
        · exact Nat.le_refl _
      published := by
        intro st hst hle
        change value ≤ st.value at hle
        obtain ⟨pre, post, hsplit, hval, hsince⟩ := h.published st hst (by omega)
        obtain ⟨pre', rfl, rfl⟩ := drop_first hsplit (by omega)
        refine ⟨pre', post, rfl, ?_, ?_⟩
        · change st.value = value + _
          simp only [pieces, map_cons, total_cons] at hval ⊢
          omega
        · refine hsince.imp fun st' _ hl => ?_
          change Laid _ _ value _
          rw [hvalue]
          exact hl.2.2
      writer_at := fun t₁ pc₁ view₁ hw =>
        WriterAt.store_head (s := s) hle (h.writer_at t₁ pc₁ view₁ hw)
      reader_head := by
        change (s.head.store value _).old.length ≤ _
        rw [History.old_store]
        exact View.le_raise_self _ _ _
      reader_tail := by
        change Since s.tail ((view.raise .head s.head.size) .tail) _
        exact hbound
      reader_at := by
        intro t₁ pc₁ view₁ heq
        cases heq
        exact hat _
      ledger := by
        change delivered s.log ++ pc'.in_hand ++ messages rest = _
        have hmsg : messages (x :: rest) = messages [x] ++ messages rest :=
          messages_append [x] rest
        rw [hmsg, ← append_assoc, ← hhand] at hledger
        exact hledger }

/-! ## Every access of a push -/

omit h in
theorem check_room_spec {ring_cap head : ℕ} (h : check_room ring_cap head tail data = some pc) :
    pc = .write_sentinel data tail ∧ HEADER_SIZE ≤ ring_cap - tail % ring_cap ∧
        (tail - head) + (ring_cap - tail % ring_cap + (HEADER_SIZE + data.length)) ≤ ring_cap ∨
      pc = .write_header data (tail % ring_cap) ∧
        HEADER_SIZE + data.length ≤ ring_cap - tail % ring_cap ∧
        (tail - head) + (HEADER_SIZE + data.length) ≤ ring_cap := by
  unfold check_room at h
  dsimp only at h
  split_ifs at h with hwrap hmark hfull hfull
  · left
    cases h
    exact ⟨rfl, by omega, by omega⟩
  · right
    cases h
    exact ⟨rfl, by omega, by omega⟩

/-- The check against a head that may be behind is on the safe side. -/
theorem Inv.writer_at_check_room (hdata : Payload s data) (hst : st ∈ s.head.all)
    (hcheck : check_room s.ring_cap st.value s.tail.now.value data = some pc) : WriterAt s pc := by
  have hhead := h.heads st hst
  have hcap := h.ring_cap_pos hdata
  have hidx : s.tail.now.value % s.ring_cap < s.ring_cap := Nat.mod_lt _ hcap
  rcases check_room_spec hcheck with ⟨rfl, hmark, hturn⟩ | ⟨rfl, hfit, hturn⟩
  · exact ⟨⟨hdata, hmark, by omega⟩, rfl⟩
  · exact ⟨⟨hdata, by omega, by omega⟩, rfl⟩

theorem Inv.write_sentinel (hw : s.writer = .held t (.write_sentinel data s.tail.now.value) view)
    (hroom : WrapRoom s data) :
    Inv segs (PipeConcurrent.write_ring s t view (s.tail.now.value % s.ring_cap)
      (u32_to_le_bytes 0) (.store_wrap data s.tail.now.value)) := by
  have hcap := h.ring_cap_pos hroom.1
  obtain ⟨hdata, hmark, hturn⟩ := hroom
  have hheader : HEADER_SIZE = 4 := rfl
  refine h.write_ring hw hcap (Nat.le_refl _) ?_ ?_ ?_ rfl
  · rw [length_u32_to_le_bytes]
    omega
  · rw [length_u32_to_le_bytes]
    omega
  · intro ring w hring
    exact ⟨⟨hdata, hmark, hturn⟩, rfl, holds_write_slice hring⟩

theorem Inv.store_wrap
    (hw : s.writer = .held t (.store_wrap data s.tail.now.value) view) (hroom : WrapRoom s data)
    (hmark : AtTail s (u32_to_le_bytes 0)) :
    Inv (segs ++ [.skip (s.ring_cap - s.tail.now.value % s.ring_cap) hroom.2.1])
      (PipeConcurrent.store_tail s t view
        (s.tail.now.value + (s.ring_cap - s.tail.now.value % s.ring_cap))
        (.write_header data 0)) := by
  have hcap := h.ring_cap_pos hroom.1
  have hidx : s.tail.now.value % s.ring_cap < s.ring_cap := Nat.mod_lt _ hcap
  have hend : s.tail.now.value % s.ring_cap +
      (s.ring_cap - s.tail.now.value % s.ring_cap) = s.ring_cap := by omega
  have htail := h.tail_now
  have hturn := hroom.2.2
  refine h.store_tail hw rfl ?_ ⟨hend, trivial⟩ ?_ rfl rfl
  · rw [pieces_append, laid_append, ← htail]
    exact ⟨h.laid, Nat.le_of_eq hend, hmark, trivial⟩
  · -- behind the skipped cells the tail stands at the start of the ring
    intro w
    have hzero : (s.tail.now.value + (s.ring_cap - s.tail.now.value % s.ring_cap)) % s.ring_cap =
        0 := add_mod_of_eq hend
    refine ⟨⟨hroom.1, ?_, ?_⟩, hzero.symm⟩
    · change (s.tail.now.value + (s.ring_cap - s.tail.now.value % s.ring_cap)) % s.ring_cap + _ ≤
        s.ring_cap
      omega
    · change s.tail.now.value + (s.ring_cap - s.tail.now.value % s.ring_cap) + _ ≤
        s.head.now.value + s.ring_cap
      omega

theorem Inv.write_header
    (hw : s.writer = .held t (.write_header data (s.tail.now.value % s.ring_cap)) view)
    (hroom : FrameRoom s data) :
    Inv segs (PipeConcurrent.write_ring s t view (s.tail.now.value % s.ring_cap)
      (u32_to_le_bytes data.length) (.write_payload data (s.tail.now.value % s.ring_cap))) := by
  have hheader : HEADER_SIZE = 4 := rfl
  have hfit := hroom.2.1
  have hturn := hroom.2.2
  refine h.write_ring hw (h.ring_cap_pos hroom.1) (Nat.le_refl _) ?_ ?_ ?_ rfl
  · rw [length_u32_to_le_bytes]
    omega
  · rw [length_u32_to_le_bytes]
    omega
  · intro ring w hring
    exact ⟨hroom, rfl, holds_write_slice hring⟩

theorem Inv.write_payload
    (hw : s.writer = .held t (.write_payload data (s.tail.now.value % s.ring_cap)) view)
    (hroom : FrameRoom s data) (hhdr : AtTail s (u32_to_le_bytes data.length)) :
    Inv segs (PipeConcurrent.write_ring s t view
      (s.tail.now.value % s.ring_cap + HEADER_SIZE) data (.load_current data)) := by
  have hpos := hroom.1.1
  have hfit := hroom.2.1
  have hturn := hroom.2.2
  have hidx : (s.tail.now.value + HEADER_SIZE) % s.ring_cap =
      s.tail.now.value % s.ring_cap + HEADER_SIZE := add_mod_of_lt (by omega)
  rw [← hidx]
  refine h.write_ring hw (h.ring_cap_pos hroom.1) (by omega) ?_ (by omega) ?_ rfl
  · rw [hidx]
    omega
  · intro ring w hring
    rw [hidx] at hring
    refine ⟨hroom, holds_append.mpr ⟨?_, ?_⟩⟩
    · refine Holds.write hhdr hring (Or.inl ?_)
      exact Nat.le_refl _
    · rw [length_u32_to_le_bytes]
      exact holds_write_slice hring

theorem Inv.publish
    (hw : s.writer = .held t (.store_tail data s.tail.now.value) view) (hroom : FrameRoom s data)
    (hframe : AtTail s (frame_bytes data)) :
    ∃ segs', Inv segs' (PipeConcurrent.store_tail s t view
      (s.tail.now.value + (HEADER_SIZE + data.length)) (.add_used data)) := by
  have htail := h.tail_now
  have hcapacity := h.capacity
  have hdata : 0 < data.length ∧ data.length < 2 ^ 32 := ⟨hroom.1.1, by have := hroom.1.2; omega⟩
  refine ⟨segs ++ [.frame data hdata], ?_⟩
  refine h.store_tail (x := .frame data hdata) hw rfl ?_ trivial ?_ rfl rfl
  · rw [pieces_append, laid_append, ← htail]
    exact ⟨h.laid, hroom.2.1, hframe, trivial⟩
  · intro w
    exact hroom.1

theorem Inv.push_access (hw : s.writer = .held t pc view)
    (hstep : push_access s t view i pc = some s') : Next s e s' := by
  have hat := h.writer_at t pc view hw
  have hnewest : s.tail.old.length ≤ view .tail := by
    have := h.writer_tail
    rw [hw] at this
    exact this
  have hraise : ∀ (l : Loc) (i : ℕ) (k : Loc), view k ≤ view.raise l i k := view.le_raise
  cases pc with
  | load_used data =>
    obtain ⟨st, hread, hstep⟩ := bind_eq_some_iff.mp hstep
    split_ifs at hstep
    · cases hstep
      exact .note (h.push_returns hw (hraise _ _) rfl) rfl nofun
    · cases hstep
      exact .same (h.push_goes hw (hraise _ _) hat rfl) rfl
  | load_tail data used =>
    obtain ⟨st, hread, hstep⟩ := bind_eq_some_iff.mp hstep
    cases hstep
    have hst : st = s.tail.now := History.read_newest hnewest hread
    exact .same (h.push_goes hw (hraise _ _) ⟨hat, by rw [hst]⟩ rfl) rfl
  | load_head data used tail =>
    obtain ⟨hdata, rfl⟩ := hat
    obtain ⟨st, hread, hstep⟩ := bind_eq_some_iff.mp hstep
    have hjoin : ∀ l, view l ≤ ((view.raise .head i).join st.view) l := fun l =>
      Nat.le_trans (hraise _ _ l) (View.le_join_left _ _ l)
    cases hcheck : check_room s.ring_cap st.value s.tail.now.value data with
    | none =>
      simp only [hcheck] at hstep
      cases hstep
      exact .note (h.push_returns hw hjoin rfl) rfl nofun
    | some pc =>
      simp only [hcheck] at hstep
      cases hstep
      have hat' := h.writer_at_check_room hdata (History.mem_of_read hread) hcheck
      refine .same (h.push_goes hw hjoin hat' ?_) rfl
      rcases check_room_spec hcheck with ⟨rfl, -⟩ | ⟨rfl, -⟩
      · rfl
      · rfl
  | write_sentinel data tail =>
    obtain ⟨hroom, rfl⟩ := hat
    cases hstep
    exact .same (h.write_sentinel hw hroom) (log_write_ring _ _ _ _ _ _)
  | store_wrap data tail =>
    obtain ⟨hroom, rfl, hmark⟩ := hat
    cases hstep
    exact .same (h.store_wrap hw hroom hmark) rfl
  | write_header data write_idx =>
    obtain ⟨hroom, rfl⟩ := hat
    cases hstep
    exact .same (h.write_header hw hroom) (log_write_ring _ _ _ _ _ _)
  | write_payload data write_idx =>
    obtain ⟨hroom, rfl, hhdr⟩ := hat
    cases hstep
    exact .same (h.write_payload hw hroom hhdr) (log_write_ring _ _ _ _ _ _)
  | load_current data =>
    obtain ⟨st, hread, hstep⟩ := bind_eq_some_iff.mp hstep
    cases hstep
    have hst : st = s.tail.now := History.read_newest hnewest hread
    exact .same (h.push_goes hw (hraise _ _) ⟨hat.1, hat.2, by rw [hst]⟩ rfl) rfl
  | store_tail data current_tail =>
    obtain ⟨hroom, hframe, rfl⟩ := hat
    cases hstep
    exact ⟨h.publish hw hroom hframe, .inl rfl⟩
  | add_used data =>
    cases hstep
    have hused : ∀ used, Inv segs { s with used_bytes := used } := fun used => { h with }
    refine .note ((hused _).push_returns hw (hraise _ _) ?_) rfl nofun
    obtain ⟨n, hn⟩ := Nat.exists_eq_succ_of_ne_zero (show data.length ≠ 0 by
      have : 0 < data.length := hat.1
      omega)
    rw [hn]
    rfl

/-! ## Every access of a pop -/

/-- A tail loaded from any store the reader may still see is ahead of the head. -/
theorem Inv.ahead_of_read (htail : Since s.tail (view .tail) fun x => s.head.now.value ≤ x)
    (hread : s.tail.read view .tail i = some st) :
    Ahead s segs ((view.raise .tail i).join st.view) st.value := by
  obtain ⟨pre, post, hsplit, hval, hsince⟩ :=
    h.published st (History.mem_of_read hread) (htail.read hread)
  refine ⟨⟨pre, post, hsplit, hval, hsince.mono (View.le_join_right _ _ _)⟩, ?_⟩
  refine (h.tails.since_read hread).mono ?_
  exact Nat.le_trans (View.le_raise_self _ _ _) (View.le_join_left _ _ _)

omit h

theorem Ahead.first (h : Ahead s segs view tail) (hne : s.head.now.value ≠ tail) :
    ∃ x rest, segs = x :: rest ∧ s.head.now.value + x.piece.len ≤ tail ∧
      Since s.ring (view .ring) fun ring =>
        Holds ring (s.head.now.value % s.ring_cap) x.piece.bytes := by
  obtain ⟨⟨pre, post, rfl, htail, hsince⟩, -⟩ := h
  cases pre with
  | nil =>
    simp only [pieces, map_nil, total_nil] at htail
    omega
  | cons x pre' =>
    refine ⟨x, pre' ++ post, rfl, ?_, hsince.imp fun st _ hl => hl.2.1⟩
    simp only [pieces, map_cons, total_cons] at htail
    omega

theorem Ahead.raise_head (h : Ahead s (x :: rest) view tail)
    (hvalue : value = s.head.now.value + x.piece.len) (hle : value ≤ tail) :
    Ahead { s with head := s.head.store value w } rest (view.raise .head i) tail := by
  obtain ⟨⟨pre, post, hsplit, htail, hsince⟩, hbound⟩ := h
  obtain ⟨pre', rfl, rfl⟩ := drop_first hsplit (by omega)
  have hring : (view.raise .head i) .ring = view .ring := View.raise_of_ne _ _ (by decide)
  have htl : (view.raise .head i) .tail = view .tail := View.raise_of_ne _ _ (by decide)
  refine ⟨⟨pre', post, rfl, ?_, ?_⟩, ?_⟩
  · change tail = value + _
    simp only [pieces, map_cons, total_cons] at htail ⊢
    omega
  · rw [hring]
    refine hsince.imp fun st _ hl => ?_
    change Laid _ _ value _
    rw [hvalue]
    exact hl.2.2
  · rw [htl]
    exact hbound

theorem see_header
    (hs : Since hist k fun ring => Holds ring start (frame_bytes m)) (hm : m.length < 2 ^ 32)
    (hsee : see hist k seen start HEADER_SIZE = some hdr) : u32_from_le_bytes hdr = m.length := by
  have hhdr : Since hist k fun ring => Holds ring start (u32_to_le_bytes m.length) :=
    hs.imp fun st _ hl => (holds_append.mp hl).1
  have hlen : (u32_to_le_bytes m.length).length = HEADER_SIZE := length_u32_to_le_bytes _
  rw [see_of_since hhdr (Nat.le_of_eq hlen.symm) hsee, ← hlen, take_length,
    u32_from_to_le_bytes hm]

theorem see_sentinel (hs : Since hist k fun ring => Holds ring start (u32_to_le_bytes 0))
    (hsee : see hist k seen start HEADER_SIZE = some hdr) : u32_from_le_bytes hdr = 0 := by
  have hlen : (u32_to_le_bytes 0).length = HEADER_SIZE := length_u32_to_le_bytes _
  rw [see_of_since hs (Nat.le_of_eq hlen.symm) hsee, ← hlen, take_length,
    u32_from_to_le_bytes (by decide)]

theorem see_payload (hs : Since hist k fun ring => Holds ring start (frame_bytes m))
    (hsee : see hist k seen (start + HEADER_SIZE) m.length = some data) : data = m := by
  have hpay : Since hist k fun ring => Holds ring (start + HEADER_SIZE) m := by
    refine hs.imp fun st _ hl => ?_
    have := (holds_append.mp hl).2
    exact this
  rw [see_of_since hpay (Nat.le_refl _) hsee, take_length]

theorem Inv.read_header (h : Inv segs s)
    (hr : s.reader = .held t (.scan s.head.now.value tail) view) (hahead : Ahead s segs view tail)
    (hne : s.head.now.value ≠ tail)
    (hstep : read_header s t view seen s.head.now.value tail = some s') : Next s e s' := by
  obtain ⟨x, rest, rfl, hle, hsince⟩ := hahead.first hne
  have hfit : s.head.now.value % s.ring_cap + x.piece.len ≤ s.ring_cap := h.laid.1
  have hheader : HEADER_SIZE ≤ x.piece.len := by
    cases x with
    | frame m hm => exact Nat.le_add_right _ _
    | skip waste hw => exact hw
  unfold PipeConcurrent.read_header at hstep
  rw [if_neg (by omega)] at hstep
  obtain ⟨hdr, hsee, hstep⟩ := bind_eq_some_iff.mp hstep
  cases x with
  | frame m hm =>
    have hval : u32_from_le_bytes hdr = m.length := see_header hsince hm.2 hsee
    rw [hval, if_neg (by omega)] at hstep
    cases hstep
    refine .same (h.pop_goes hr (fun _ => Nat.le_refl _) ⟨m, ⟨⟨hm, rest, rfl, rfl⟩, ?_⟩, rfl, rfl, hfit,
      hsince⟩ rfl) rfl
    exact hahead.2.imp fun st _ hst => Nat.le_trans hle hst
  | skip waste hw =>
    have hval : u32_from_le_bytes hdr = 0 := see_sentinel hsince hsee
    rw [hval] at hstep
    cases hstep
    have hend : s.head.now.value % s.ring_cap + waste = s.ring_cap := h.skips.1
    have hwaste : s.ring_cap - s.head.now.value % s.ring_cap = waste := by omega
    rw [hwaste]
    refine .same (h.pop_goes hr (fun _ => Nat.le_refl _) ?_ rfl) rfl
    exact ⟨⟨waste, hw, rest, rfl, rfl⟩, hle, hahead⟩

theorem Inv.pop_access {pc : PopPc} (h : Inv segs s) (hr : s.reader = .held t pc view)
    (hstep : pop_access s t view seen pc = some s') : Next s (.reader seen) s' := by
  have hat := h.reader_at t pc view hr
  have hnewest : s.head.old.length ≤ view .head := by
    have := h.reader_head
    rw [hr] at this
    exact this
  have htail : Since s.tail (view .tail) fun x => s.head.now.value ≤ x := by
    have := h.reader_tail
    rw [hr] at this
    exact this
  have hraise : ∀ (l : Loc) (i : ℕ) (k : Loc), view k ≤ view.raise l i k := view.le_raise
  have hjoin : ∀ (l : Loc) (i : ℕ) (w : View Loc) (k : Loc), view k ≤ ((view.raise l i).join w) k :=
    fun l i w k => Nat.le_trans (hraise l i k) (View.le_join_left _ _ k)
  cases pc with
  | load_head =>
    obtain ⟨st, hread, hstep⟩ := bind_eq_some_iff.mp hstep
    cases hstep
    have hst : st = s.head.now := History.read_newest hnewest hread
    exact .same (h.pop_goes hr (hjoin _ _ _) (by rw [hst]; rfl) rfl) rfl
  | load_tail head =>
    obtain ⟨st, hread, hstep⟩ := bind_eq_some_iff.mp hstep
    cases hstep
    exact .same (h.pop_goes hr (hjoin _ _ _) ⟨hat, h.ahead_of_read htail hread⟩ rfl) rfl
  | scan head tail =>
    obtain ⟨rfl, hahead⟩ := hat
    rw [PipeConcurrent.pop_access] at hstep
    split_ifs at hstep with heq
    · obtain ⟨st, hread, hstep⟩ := bind_eq_some_iff.mp hstep
      cases hstep
      refine .note (h.pop_returns hr (hjoin _ _ _) rfl) rfl fun hnote => ?_
      subst heq
      refine ⟨seen, t, view, _, st, rfl, hr, hread, ?_⟩
      by_contra hst
      rw [if_neg hst] at hnote
      cases hnote
    · exact h.read_header hr hahead heq hstep
  | store_skip head tail =>
    obtain ⟨⟨waste, hw, rest, rfl, hhead⟩, hle, hahead⟩ := hat
    cases hstep
    refine .same (h.store_head (x := .skip waste hw) hr hhead ?_ ?_ rfl rfl) rfl
    · exact hahead.2.imp fun st _ hst => Nat.le_trans hle hst
    · intro w
      exact ⟨rfl, hahead.raise_head hhead hle⟩
  | copy_payload payload_start payload_len total_advance =>
    obtain ⟨m, htaken, rfl, rfl, hfit, hsince⟩ := hat
    rw [PipeConcurrent.pop_access, if_neg (by omega)] at hstep
    obtain ⟨data, hsee, hstep⟩ := bind_eq_some_iff.mp hstep
    cases hstep
    have hdata : data = m := see_payload hsince hsee
    exact .same (h.pop_goes hr (fun _ => Nat.le_refl _) (by rw [hdata]; exact htaken) rfl) rfl
  | load_current data total_advance =>
    obtain ⟨st, hread, hstep⟩ := bind_eq_some_iff.mp hstep
    cases hstep
    have hst : st = s.head.now := History.read_newest hnewest hread
    refine .same (h.pop_goes hr (hraise _ _) ⟨⟨hat.1, ?_⟩, by rw [hst]⟩ rfl) rfl
    exact hat.2
  | store_head data total_advance head =>
    obtain ⟨⟨⟨hm, rest, rfl, rfl⟩, hbound⟩, rfl⟩ := hat
    cases hstep
    refine .same (h.store_head (x := .frame data hm) hr rfl hbound ?_ rfl rfl) rfl
    intro w
    trivial
  | sub_used data =>
    cases hstep
    have hused : ∀ used, Inv segs { s with used_bytes := used } := fun used => { h with }
    exact .note ((hused _).pop_returns hr (hraise _ _) rfl) rfl nofun

end NexusVfs.PipeConcurrent
