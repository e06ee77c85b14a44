/-
What a ring pipe is for: a queue of messages bounded by their bytes.

`Represents` says which frames and skipped cells lie between the head and the tail of a
ring, and so which queue it stands for. A push keeps it where the ring has room for the
frame (`write_frame_of_room`), a pop always (`pop_of_represents`).
-/
import NexusVfs.PipeRing

namespace NexusVfs.PipeRing

open List Words ByteRing Runs

/-! ## The abstract queue -/

/-- A queue of messages whose lengths together stay within `capacity`. -/
structure BoundedQueue where
  capacity : ℕ
  items : List Bytes
  closed : Bool
deriving DecidableEq, Repr

namespace BoundedQueue

def used (q : BoundedQueue) : ℕ := (q.items.map length).sum

def push (q : BoundedQueue) (data : Bytes) : Except PipeError ℕ × BoundedQueue :=
  if q.closed then (.error (.Closed "write to closed pipe"), q)
  else if data.length = 0 then (.ok 0, q)
  else if q.capacity < data.length then (.error (.Oversized data.length q.capacity), q)
  else if q.capacity < q.used + data.length then (.error (.Full q.used q.capacity), q)
  else (.ok data.length, { q with items := q.items ++ [data] })

def pop (q : BoundedQueue) : Except PipeError Bytes × BoundedQueue :=
  match q.items with
  | [] => (.error (if q.closed then .ClosedEmpty else .Empty), q)
  | m :: ms => (.ok m, { q with items := ms })

def step (q : BoundedQueue) : PipeOp → Option (PipeAnswer × BoundedQueue)
  | .push data => some (.pushed (q.push data).1, (q.push data).2)
  | .pop => some (.popped q.pop.1, q.pop.2)
  | .close => some (.closed, { q with closed := true })

end BoundedQueue

/-! ## Frames in the ring -/

def frame_bytes (m : Bytes) : Bytes := u32_to_le_bytes m.length ++ m

theorem length_frame_bytes (m : Bytes) : (frame_bytes m).length = HEADER_SIZE + m.length := by
  rw [frame_bytes, length_append]
  rfl

/-- What lies between head and tail: frames whose length the header can say and
that are not taken for a sentinel, and cells skipped behind a sentinel. -/
inductive Seg where
  | frame (m : Bytes) (hm : 0 < m.length ∧ m.length < 2 ^ 32)
  | skip (waste : ℕ) (hw : HEADER_SIZE ≤ waste)

def Seg.piece : Seg → Piece UInt8
  | .frame m _ => ⟨frame_bytes m, HEADER_SIZE + m.length, Nat.le_of_eq (length_frame_bytes m)⟩
  | .skip waste hw => ⟨u32_to_le_bytes 0, waste, by rw [length_u32_to_le_bytes]; exact hw⟩

def Seg.message : Seg → Option Bytes
  | .frame m _ => some m
  | .skip _ _ => none

def messages (segs : List Seg) : List Bytes := segs.filterMap Seg.message

def pieces (segs : List Seg) : List (Piece UInt8) := segs.map Seg.piece

@[simp] theorem messages_append (as bs : List Seg) :
    messages (as ++ bs) = messages as ++ messages bs := filterMap_append

@[simp] theorem pieces_append (as bs : List Seg) : pieces (as ++ bs) = pieces as ++ pieces bs :=
  map_append

theorem Seg.len_pos (x : Seg) : 0 < x.piece.len := by
  cases x with
  | frame m hm =>
    change 0 < HEADER_SIZE + m.length
    omega
  | skip waste hw =>
    change 0 < waste
    unfold HEADER_SIZE at hw
    omega

variable {segs : List Seg} {p : Pipe} {data m ring : Bytes}

theorem eq_nil_of_total_eq_zero (h : total (pieces segs) = 0) : segs = [] := by
  cases segs with
  | nil => rfl
  | cons x rest =>
    have hx := x.len_pos
    simp only [pieces, map_cons, total_cons] at h
    omega

def SkipsEnd (cap : ℕ) : ℕ → List Seg → Prop
  | _, [] => True
  | p, .frame m _ :: rest => SkipsEnd cap (p + (HEADER_SIZE + m.length)) rest
  | p, .skip waste _ :: rest => p % cap + waste = cap ∧ SkipsEnd cap (p + waste) rest

variable {as bs : List Seg} {head waste skipped : ℕ} {hm : 0 < m.length ∧ m.length < 2 ^ 32}

theorem skipsEnd_append {cap p : ℕ} :
    SkipsEnd cap p (as ++ bs) ↔ SkipsEnd cap p as ∧ SkipsEnd cap (p + total (pieces as)) bs := by
  induction as generalizing p with
  | nil => simp [SkipsEnd, pieces]
  | cons x as ih =>
    cases x with
    | frame m hm =>
      simp only [cons_append, SkipsEnd, ih, pieces, map_cons, total_cons, Seg.piece,
        Nat.add_assoc]
    | skip waste hw =>
      simp only [cons_append, SkipsEnd, ih, pieces, map_cons, total_cons, Seg.piece,
        Nat.add_assoc, and_assoc]

/-- Between calls a sentinel has its frame behind it. -/
def Tidy : List Seg → Prop
  | [] => True
  | .frame _ _ :: rest => Tidy rest
  | .skip _ _ :: .frame _ _ :: rest => Tidy rest
  | .skip _ _ :: _ => False

theorem Tidy.append (ha : Tidy as) (hb : Tidy bs) : Tidy (as ++ bs) := by
  fun_induction Tidy as with
  | case1 => exact hb
  | case2 m hm rest ih => exact ih ha
  | case3 w hw m hm rest ih => exact ih ha
  | case4 => exact ha.elim

theorem Tidy.eq_nil_of_messages (h : Tidy segs) (hm : messages segs = []) : segs = [] := by
  fun_cases Tidy segs with
  | case1 => rfl
  | case2 m hm' rest => cases hm
  | case3 w hw m hm' rest => cases hm
  | case4 => simp only [Tidy] at h

/-- The ring of `p` holds `segs` from its head to its tail, and the counters agree. -/
structure Represents (segs : List Seg) (p : Pipe) : Prop where
  ring_len : p.ring.length = p.ring_cap
  ring_cap : p.ring_cap = p.user_capacity * 2
  usize : p.ring_cap < 2 ^ 64
  tail : p.tail = p.head + total (pieces segs)
  laid : Laid p.ring p.ring_cap p.head (pieces segs)
  skips : SkipsEnd p.ring_cap p.head segs
  tidy : Tidy segs
  used : p.used_bytes = ((messages segs).map length).sum
  bounded : p.used_bytes ≤ p.user_capacity

theorem represents_new {capacity : ℕ} (h : capacity * 2 < 2 ^ 64) :
    Represents [] (new capacity) where
  ring_len := length_replicate
  ring_cap := rfl
  usize := h
  tail := rfl
  laid := trivial
  skips := trivial
  tidy := trivial
  used := rfl
  bounded := Nat.zero_le _

def queue_of (segs : List Seg) (p : Pipe) : BoundedQueue where
  capacity := p.user_capacity
  items := messages segs
  closed := p.closed

theorem Represents.used_queue_of (h : Represents segs p) :
    (queue_of segs p).used = p.used_bytes := h.used.symm

/-! ## A push with room -/

/-- The ring has room for the frame of `data`: as it stands if it fits before
the end, and otherwise with a sentinel and the cells behind it. -/
def Room (p : Pipe) (data : Bytes) : Prop :=
  HEADER_SIZE + data.length ≤ p.contiguous ∧
      (p.tail - p.head) + (HEADER_SIZE + data.length) ≤ p.ring_cap ∨
    p.contiguous < HEADER_SIZE + data.length ∧ HEADER_SIZE ≤ p.contiguous ∧
      (p.tail - p.head) + (p.contiguous + (HEADER_SIZE + data.length)) ≤ p.ring_cap

instance (p : Pipe) (data : Bytes) : Decidable (Room p data) := by
  unfold Room
  infer_instance

variable {start : ℕ} {rest : List Seg}

theorem copy_from_slice_of_eq {ring' bs : Bytes}
    (h : write_slice ring start bs = some ring') : copy_from_slice ring start bs = .ok ring' := by
  rw [copy_from_slice, h]

theorem copy_frame (ring : Bytes) (start : ℕ) (data : Bytes)
    (h : start + (HEADER_SIZE + data.length) ≤ ring.length) :
    ∃ ring₁ ring₂, copy_from_slice ring start (u32_to_le_bytes data.length) = .ok ring₁ ∧
      copy_from_slice ring₁ (start + HEADER_SIZE) data = .ok ring₂ ∧
      write_slice ring start (frame_bytes data) = some ring₂ := by
  obtain ⟨ring₂, h₂⟩ := write_slice_of_le ring start (frame_bytes data)
    (by rw [length_frame_bytes]; exact h)
  have hsplit := h₂
  rw [frame_bytes, write_slice_append, Option.bind_eq_some_iff] at hsplit
  obtain ⟨ring₁, h₁, hdata⟩ := hsplit
  exact ⟨ring₁, ring₂, copy_from_slice_of_eq h₁, copy_from_slice_of_eq hdata, h₂⟩

/-- The pipe once `data` is written and the tail has moved by `advance`. -/
def extend (p : Pipe) (ring : Bytes) (advance : ℕ) (data : Bytes) : Pipe :=
  { p with
    ring := ring
    tail := p.tail + advance
    used_bytes := (p.used_bytes + data.length) % 2 ^ 64 }

theorem Pipe.tail_add_contiguous (hcap : 0 < p.ring_cap) :
    p.tail % p.ring_cap + p.contiguous = p.ring_cap := by
  have hidx : p.tail % p.ring_cap < p.ring_cap := Nat.mod_lt _ hcap
  unfold Pipe.contiguous
  omega

theorem write_frame_here (hlen : p.ring.length = p.ring_cap) (hcap : 0 < p.ring_cap)
    (hhere : HEADER_SIZE + data.length ≤ p.contiguous) :
    ∃ ring, write_slice p.ring (p.tail % p.ring_cap) (frame_bytes data) = some ring ∧
      write_frame p data =
        .ok (.ok data.length, extend p ring (HEADER_SIZE + data.length) data) := by
  have hend := Pipe.tail_add_contiguous hcap
  obtain ⟨ring₁, ring₂, h₁, h₂, hw⟩ := copy_frame p.ring (p.tail % p.ring_cap) data (by omega)
  have hnowrap : ¬ p.contiguous < HEADER_SIZE + data.length := by omega
  refine ⟨ring₂, hw, ?_⟩
  simp only [write_frame, write_sentinel, if_neg hnowrap, h₁, h₂, bind, Except.bind, pure,
    Except.pure]
  rfl

theorem write_frame_wrapped (hlen : p.ring.length = p.ring_cap) (hcap : 0 < p.ring_cap)
    (hwrap : p.contiguous < HEADER_SIZE + data.length) (hmark : HEADER_SIZE ≤ p.contiguous)
    (hturn : p.contiguous + (HEADER_SIZE + data.length) ≤ p.ring_cap) :
    ∃ ring₀ ring, write_slice p.ring (p.tail % p.ring_cap) (u32_to_le_bytes 0) = some ring₀ ∧
      write_slice ring₀ 0 (frame_bytes data) = some ring ∧ write_frame p data =
        .ok (.ok data.length, extend p ring (p.contiguous + (HEADER_SIZE + data.length)) data) := by
  have hend := Pipe.tail_add_contiguous hcap
  obtain ⟨ring₀, h₀⟩ := write_slice_of_le p.ring (p.tail % p.ring_cap) (u32_to_le_bytes 0)
    (by rw [length_u32_to_le_bytes]; unfold HEADER_SIZE at hmark; omega)
  have hlen₀ := length_write_slice h₀
  obtain ⟨ring₁, ring₂, h₁, h₂, hw⟩ := copy_frame ring₀ 0 data (by omega)
  refine ⟨ring₀, ring₂, h₀, hw, ?_⟩
  simp only [write_frame, write_sentinel, if_pos hwrap, copy_from_slice_of_eq h₀, h₁, h₂, bind,
    Except.bind, pure, Except.pure, extend, Nat.add_assoc]

theorem write_frame_succeeds (hlen : p.ring.length = p.ring_cap) (hroom : Room p data) :
    ∃ p', write_frame p data = .ok (.ok data.length, p') := by
  have hheader : HEADER_SIZE = 4 := rfl
  rcases hroom with ⟨hhere, hturn⟩ | ⟨hwrap, hmark, hturn⟩
  · obtain ⟨ring, -, hrun⟩ := write_frame_here hlen (by omega) hhere
    exact ⟨_, hrun⟩
  · obtain ⟨ring₀, ring, -, -, hrun⟩ :=
      write_frame_wrapped hlen (by omega) hwrap hmark (by omega)
    exact ⟨_, hrun⟩

theorem Represents.extend {xs : List Seg} {advance : ℕ} (h : Represents segs p)
    (hfit : p.used_bytes + data.length ≤ p.user_capacity) (hlen : ring.length = p.ring.length)
    (hadvance : total (pieces xs) = advance)
    (hlaid : Laid ring p.ring_cap p.head (pieces (segs ++ xs)))
    (hskips : SkipsEnd p.ring_cap p.tail xs) (htidy : Tidy xs) (hmsg : messages xs = [data]) :
    Represents (segs ++ xs) (extend p ring advance data) := by
  have husize := h.usize
  have hcap := h.ring_cap
  have hused : (p.used_bytes + data.length) % 2 ^ 64 = p.used_bytes + data.length :=
    Nat.mod_eq_of_lt (by omega)
  exact
    { ring_len := hlen.trans h.ring_len
      ring_cap := h.ring_cap
      usize := h.usize
      tail := by
        change p.tail + advance = p.head + _
        rw [h.tail, pieces_append, total_append, hadvance, Nat.add_assoc]
      laid := hlaid
      skips := by
        refine skipsEnd_append.mpr ⟨h.skips, ?_⟩
        change SkipsEnd p.ring_cap (p.head + _) xs
        rw [← h.tail]
        exact hskips
      tidy := h.tidy.append htidy
      used := by
        change (p.used_bytes + data.length) % 2 ^ 64 = _
        rw [hused, messages_append, hmsg, map_append, sum_append, ← h.used]
        rfl
      bounded := by
        change (p.used_bytes + data.length) % 2 ^ 64 ≤ _
        rw [hused]
        exact hfit }

variable (h : Represents segs p) (hdata : 0 < data.length ∧ data.length < 2 ^ 32)
include h hdata

theorem laid_frame_here (hhere : HEADER_SIZE + data.length ≤ p.contiguous)
    (hturn : (p.tail - p.head) + (HEADER_SIZE + data.length) ≤ p.ring_cap)
    (hw : write_slice p.ring (p.tail % p.ring_cap) (frame_bytes data) = some ring) :
    Laid ring p.ring_cap p.head (pieces (segs ++ [.frame data hdata])) := by
  have htail := h.tail
  have hcap : 0 < p.ring_cap := by omega
  have hend := Pipe.tail_add_contiguous hcap
  have hfit : p.tail % p.ring_cap + (HEADER_SIZE + data.length) ≤ p.ring_cap := by omega
  rw [pieces_append]
  rw [htail] at hw hfit
  exact h.laid.snoc hcap hfit (by change _ + (HEADER_SIZE + data.length) ≤ _; omega) hw

theorem laid_frame_wrapped {ring₀ : Bytes} (hmark : HEADER_SIZE ≤ p.contiguous)
    (hturn : (p.tail - p.head) + (p.contiguous + (HEADER_SIZE + data.length)) ≤ p.ring_cap)
    (h₀ : write_slice p.ring (p.tail % p.ring_cap) (u32_to_le_bytes 0) = some ring₀)
    (hw : write_slice ring₀ 0 (frame_bytes data) = some ring) :
    Laid ring p.ring_cap p.head
      (pieces (segs ++ [.skip p.contiguous hmark, .frame data hdata])) := by
  have htail := h.tail
  have hcap : 0 < p.ring_cap := by omega
  have hend := Pipe.tail_add_contiguous hcap
  have hskip : Laid ring₀ p.ring_cap p.head (pieces (segs ++ [.skip p.contiguous hmark])) := by
    rw [pieces_append]
    rw [htail] at h₀ hend
    exact h.laid.snoc hcap (Nat.le_of_eq hend) (by change _ + p.contiguous ≤ _; omega) h₀
  have htotal : p.head + total (pieces (segs ++ [Seg.skip p.contiguous hmark])) =
      p.tail + p.contiguous := by
    rw [pieces_append, total_append, htail, Nat.add_assoc]
    rfl
  -- behind the sentinel the tail stands at the start of the ring
  have hzero : (p.head + total (pieces (segs ++ [Seg.skip p.contiguous hmark]))) % p.ring_cap = 0 := by
    rw [htotal]
    exact add_mod_of_eq hend
  have hassoc : segs ++ [Seg.skip p.contiguous hmark, .frame data hdata] =
      (segs ++ [Seg.skip p.contiguous hmark]) ++ [.frame data hdata] := by
    rw [append_assoc]
    rfl
  rw [hassoc, pieces_append]
  refine hskip.snoc hcap ?_ ?_ ?_
  · rw [hzero]
    change 0 + (HEADER_SIZE + data.length) ≤ _
    omega
  · change total _ + (HEADER_SIZE + data.length) ≤ _
    omega
  · rw [hzero]
    exact hw

theorem write_frame_of_room
    (hfit : p.used_bytes + data.length ≤ p.user_capacity) (hroom : Room p data) :
    ∃ xs p', write_frame p data = .ok (.ok data.length, p') ∧ Represents (segs ++ xs) p' ∧
      messages xs = [data] ∧ p'.closed = p.closed ∧ p'.user_capacity = p.user_capacity := by
  rcases hroom with ⟨hhere, hturn⟩ | ⟨hwrap, hmark, hturn⟩
  · have hcap : 0 < p.ring_cap := by omega
    obtain ⟨ring, hw, hrun⟩ := write_frame_here h.ring_len hcap hhere
    refine ⟨[.frame data hdata], _, hrun, ?_, rfl, rfl, rfl⟩
    exact h.extend hfit (length_write_slice hw) rfl (laid_frame_here h hdata hhere hturn hw)
      trivial trivial rfl
  · have hcap : 0 < p.ring_cap := by omega
    have hend := Pipe.tail_add_contiguous hcap
    obtain ⟨ring₀, ring, h₀, hw, hrun⟩ :=
      write_frame_wrapped h.ring_len hcap hwrap hmark (by omega)
    refine ⟨[.skip p.contiguous hmark, .frame data hdata], _, hrun, ?_, rfl, rfl, rfl⟩
    exact h.extend hfit ((length_write_slice hw).trans (length_write_slice h₀)) rfl
      (laid_frame_wrapped h hdata hmark hturn h₀ hw) ⟨hend, trivial⟩ trivial rfl

omit h hdata

/-! ## A pop -/

theorem Represents.laid_cons {x : Seg} (h : Represents (x :: rest) p) :
    p.head % p.ring_cap + x.piece.len ≤ p.ring_cap ∧
      Holds p.ring (p.head % p.ring_cap) x.piece.bytes ∧
      Laid p.ring p.ring_cap (p.head + x.piece.len) (pieces rest) := h.laid

theorem read_header (hm : m.length < 2 ^ 32) (h : Holds ring start (frame_bytes m))
    (hlen : start + (HEADER_SIZE + m.length) ≤ ring.length) :
    ∃ hdr, read_slice ring start HEADER_SIZE = some hdr ∧ u32_from_le_bytes hdr = m.length := by
  have hhdr : Holds ring start (u32_to_le_bytes m.length) := (holds_append.mp h).1
  have hread := hhdr.read (by rw [length_u32_to_le_bytes]; unfold HEADER_SIZE at hlen; omega)
  exact ⟨_, hread, u32_from_to_le_bytes hm⟩

theorem read_payload (h : Holds ring start (frame_bytes m))
    (hlen : start + (HEADER_SIZE + m.length) ≤ ring.length) :
    read_slice ring (start + HEADER_SIZE) m.length = some m := by
  have hpay : Holds ring (start + (u32_to_le_bytes m.length).length) m := (holds_append.mp h).2
  rw [length_u32_to_le_bytes] at hpay
  exact hpay.read (by unfold HEADER_SIZE at hlen; omega)

theorem pop_loop_frame {fuel : ℕ} (hm : 0 < m.length ∧ m.length < 2 ^ 32)
    (htail : head ≠ p.tail) (h : Holds p.ring (head % p.ring_cap) (frame_bytes m))
    (hlen : head % p.ring_cap + (HEADER_SIZE + m.length) ≤ p.ring.length) :
    pop_loop p (fuel + 1) head =
      .ok (.ok (head % p.ring_cap + HEADER_SIZE, m.length, HEADER_SIZE + m.length), head) := by
  obtain ⟨hdr, hread, hval⟩ := read_header hm.2 h hlen
  rw [pop_loop, if_neg htail, hread]
  dsimp only
  rw [hval, if_neg (by omega)]

theorem pop_loop_skip (fuel : ℕ) (htail : head ≠ p.tail)
    (h : Holds p.ring (head % p.ring_cap) (u32_to_le_bytes 0))
    (hlen : head % p.ring_cap + HEADER_SIZE ≤ p.ring.length)
    (hend : head % p.ring_cap + waste = p.ring_cap) :
    pop_loop p (fuel + 1) head = pop_loop p fuel (head + waste) := by
  have hread := h.read (by rw [length_u32_to_le_bytes]; exact hlen)
  rw [length_u32_to_le_bytes] at hread
  have hwaste : p.ring_cap - head % p.ring_cap = waste := by omega
  rw [pop_loop, if_neg htail, HEADER_SIZE, hread]
  dsimp only
  rw [u32_from_to_le_bytes (by omega), if_pos rfl, hwaste]

/-- The pipe behind the frame of `m`, with `skipped` cells in front of it. -/
def retire (p : Pipe) (skipped : ℕ) (m : Bytes) : Pipe :=
  commit_pop { p with head := p.head + skipped } (HEADER_SIZE + m.length) m.length

theorem pop_of_loop (hloop : pop_loop p (p.tail - p.head + 2) p.head =
      .ok (.ok ((p.head + skipped) % p.ring_cap + HEADER_SIZE, m.length, HEADER_SIZE + m.length),
        p.head + skipped)) (h : Holds p.ring ((p.head + skipped) % p.ring_cap) (frame_bytes m))
    (hlen : (p.head + skipped) % p.ring_cap + (HEADER_SIZE + m.length) ≤ p.ring.length) :
    pop p = .ok (.ok m, retire p skipped m) := by
  simp only [pop, pop_position, hloop, bind, Except.bind, pure, Except.pure,
    read_payload h hlen]
  rfl

theorem Represents.retire (xs : List Seg) (h : Represents (xs ++ rest) p) (hxs : messages xs = [m])
    (htotal : total (pieces xs) = skipped + (HEADER_SIZE + m.length)) (htidy : Tidy rest) :
    Represents rest (retire p skipped m) := by
  have hlaid := h.laid
  rw [pieces_append, laid_append] at hlaid
  have hskips := (skipsEnd_append.mp h.skips).2
  have hhead : p.head + skipped + (HEADER_SIZE + m.length) = p.head + total (pieces xs) := by
    rw [htotal, Nat.add_assoc]
  have hused := h.used
  rw [messages_append, hxs, map_append, sum_append] at hused
  have hm : ([m].map length).sum = m.length := rfl
  have hbounded := h.bounded
  have husize := h.usize
  have hcap := h.ring_cap
  have hsub : (p.used_bytes + (2 ^ 64 - m.length)) % 2 ^ 64 =
      ((messages rest).map length).sum := by
    have hback : p.used_bytes + (2 ^ 64 - m.length) =
        ((messages rest).map length).sum + 2 ^ 64 := by
      omega
    rw [hback, Nat.add_mod_right, Nat.mod_eq_of_lt (by omega)]
  exact
    { ring_len := h.ring_len
      ring_cap := h.ring_cap
      usize := h.usize
      tail := by
        change p.tail = p.head + skipped + (HEADER_SIZE + m.length) + _
        rw [hhead, h.tail, pieces_append, total_append, Nat.add_assoc]
      laid := by
        change Laid _ _ (p.head + skipped + (HEADER_SIZE + m.length)) _
        rw [hhead]
        exact hlaid.2
      skips := by
        change SkipsEnd _ (p.head + skipped + (HEADER_SIZE + m.length)) _
        rw [hhead]
        exact hskips
      tidy := htidy
      used := hsub
      bounded := by
        change (p.used_bytes + (2 ^ 64 - m.length)) % 2 ^ 64 ≤ p.user_capacity
        omega }

theorem pop_frame (h : Represents (.frame m hm :: rest) p) :
    pop p = .ok (.ok m, PipeRing.retire p 0 m) ∧ Represents rest (PipeRing.retire p 0 m) := by
  obtain ⟨hfit, hholds, -⟩ := h.laid_cons
  have hlen := h.ring_len
  have htail : p.head ≠ p.tail := by
    have := h.tail
    simp only [pieces, map_cons, total_cons, Seg.piece] at this
    omega
  have hroom : p.head % p.ring_cap + (HEADER_SIZE + m.length) ≤ p.ring.length := by
    rw [hlen]
    exact hfit
  refine ⟨pop_of_loop (pop_loop_frame hm htail hholds hroom) hholds hroom, ?_⟩
  exact Represents.retire [.frame m hm] h rfl (by simp [pieces, Seg.piece]) h.tidy

theorem pop_skip {hw : HEADER_SIZE ≤ waste}
    (h : Represents (.skip waste hw :: .frame m hm :: rest) p) :
    pop p = .ok (.ok m, PipeRing.retire p waste m) ∧ Represents rest (PipeRing.retire p waste m) := by
  obtain ⟨hfit, hmark, hfit', hholds, -⟩ := h.laid_cons
  have hend : p.head % p.ring_cap + waste = p.ring_cap := h.skips.1
  have hlen := h.ring_len
  have htail := h.tail
  simp only [pieces, map_cons, total_cons, Seg.piece] at htail
  have hroom : (p.head + waste) % p.ring_cap + (HEADER_SIZE + m.length) ≤ p.ring.length := by
    rw [hlen]
    exact hfit'
  have hloop := (pop_loop_skip (p.tail - p.head + 1) (by omega) hmark (by omega) hend).trans
    (pop_loop_frame hm (by omega) hholds hroom)
  refine ⟨pop_of_loop hloop hholds hroom, ?_⟩
  exact Represents.retire [.skip waste hw, .frame m hm] h rfl (by simp [pieces, Seg.piece]) h.tidy

theorem pop_nil (h : Represents [] p) :
    pop p = .ok (.error (if p.closed then .ClosedEmpty else .Empty), p) := by
  have htail : p.head = p.tail := by
    have := h.tail
    simp only [pieces, map_nil, total_nil] at this
    omega
  simp only [pop, pop_position, pop_loop, if_pos htail, bind, Except.bind, pure, Except.pure]

theorem pop_of_represents (h : Represents segs p) :
    ∃ rest p', pop p = .ok ((queue_of segs p).pop.1, p') ∧ Represents rest p' ∧
      queue_of rest p' = (queue_of segs p).pop.2 := by
  have htidy := h.tidy
  fun_cases Tidy segs with
  | case1 => exact ⟨[], p, pop_nil h, h, rfl⟩
  | case2 m hm rest =>
    obtain ⟨hpop, hrep⟩ := pop_frame h
    exact ⟨rest, _, hpop, hrep, rfl⟩
  | case3 waste hw m hm rest =>
    obtain ⟨hpop, hrep⟩ := pop_skip h
    exact ⟨rest, _, hpop, hrep, rfl⟩
  | case4 => simp only [Tidy] at htidy

end NexusVfs.PipeRing
