/-
The two ring pipes: `MemoryPipeBackend` and `SharedMemoryPipeBackend`.

A frame is a four-byte length and the payload, written as one slice; if it does not fit
before the end of the ring it goes to the start, and a zero length marks the cells left
over. `head` and `tail` are natural numbers: a pipe that has moved `2 ^ 64` bytes is not
modelled. Calls run one after the other here. Both backends pop the same way; only the
in-memory one looks at the room left before a push.
-/
import NexusVfs.Words
import NexusVfs.ByteRing
import NexusVfs.Runs

namespace NexusVfs.PipeRing

open Words ByteRing Runs

/-! ## State, errors -/

def HEADER_SIZE : ℕ := 4

inductive PipeError where
  | Closed (msg : String)
  | Full (used capacity : ℕ)
  | Empty
  | ClosedEmpty
  | Oversized (len capacity : ℕ)
deriving DecidableEq, Repr

/-- How a call can fail to return: a slice index leaves the ring, or the loop
of `pop_position` never meets its exit. -/
inductive Crash where
  | panic
  | spin
deriving DecidableEq, Repr

/-- The fields that `push` and `pop` decide by; `msg_count`, `push_count` and
`pop_count` are only ever reported. -/
structure Pipe where
  ring : Bytes
  ring_cap : ℕ
  user_capacity : ℕ
  head : ℕ
  tail : ℕ
  closed : Bool
  used_bytes : ℕ
deriving DecidableEq, Repr

/-- `MemoryPipeBackend::new`; `create_native` lays out the same in a file. -/
def new (capacity : ℕ) : Pipe where
  ring := List.replicate (capacity * 2) 0
  ring_cap := capacity * 2
  user_capacity := capacity
  head := 0
  tail := 0
  closed := false
  used_bytes := 0

/-- What a call that returns answers, with the pipe it leaves. -/
abbrev Answer (α : Type) := Except PipeError α × Pipe

def refuse {α : Type} (p : Pipe) (e : PipeError) : Except Crash (Answer α) := .ok (.error e, p)

/-! ## Writing a frame -/

def Pipe.contiguous (p : Pipe) : ℕ := p.ring_cap - p.tail % p.ring_cap

/-- `ring[start..start + bs.len()].copy_from_slice(bs)`. -/
def copy_from_slice (ring : Bytes) (start : ℕ) (bs : Bytes) : Except Crash Bytes :=
  match write_slice ring start bs with
  | some ring' => .ok ring'
  | none => .error .panic

/-- The ring and the position of the frame once the sentinel is written, where
one is needed. -/
def write_sentinel (p : Pipe) (frame_len : ℕ) : Except Crash (Bytes × ℕ) :=
  if p.contiguous < frame_len then do
    let ring ← copy_from_slice p.ring (p.tail % p.ring_cap) (u32_to_le_bytes 0)
    return (ring, p.tail + p.contiguous)
  else
    return (p.ring, p.tail)

/-- The part of `push` and `push_inner` behind the checks. The index a frame is
written at is `0` after a wrap and the tail's own cell otherwise. -/
def write_frame (p : Pipe) (data : Bytes) : Except Crash (Answer ℕ) := do
  let frame_len := HEADER_SIZE + data.length
  let (ring, tail) ← write_sentinel p frame_len
  let write_idx := if p.contiguous < frame_len then 0 else p.tail % p.ring_cap
  let ring ← copy_from_slice ring write_idx (u32_to_le_bytes data.length)
  let ring ← copy_from_slice ring (write_idx + HEADER_SIZE) data
  return (.ok data.length,
    { p with
      ring := ring
      tail := tail + frame_len
      used_bytes := (p.used_bytes + data.length) % 2 ^ 64 })

namespace MemoryPipeBackend

/-- What a push of `data` takes from the ring, `none` where a sentinel is
needed and does not fit before the end. -/
def need (p : Pipe) (data : Bytes) : Option ℕ :=
  let frame_len := HEADER_SIZE + data.length
  if p.contiguous < frame_len then
    if p.contiguous < HEADER_SIZE then none else some (p.contiguous + frame_len)
  else
    some frame_len

def push (p : Pipe) (data : Bytes) : Except Crash (Answer ℕ) :=
  if p.closed then refuse p (.Closed "write to closed pipe")
  else if data.length = 0 then .ok (.ok 0, p)
  else if p.user_capacity < data.length then refuse p (.Oversized data.length p.user_capacity)
  else if p.user_capacity < p.used_bytes + data.length then
    refuse p (.Full p.used_bytes p.user_capacity)
  else
    match need p data with
    | none => refuse p (.Full p.used_bytes p.user_capacity)
    | some n =>
      if p.ring_cap < (p.tail - p.head) + n then refuse p (.Full p.used_bytes p.user_capacity)
      else write_frame p data

end MemoryPipeBackend

namespace SharedMemoryPipeBackend

/-- The same without a look at the room in the ring. -/
def push_inner (p : Pipe) (data : Bytes) : Except Crash (Answer ℕ) :=
  if p.closed then refuse p (.Closed "write to closed pipe")
  else if data.length = 0 then .ok (.ok 0, p)
  else if p.user_capacity < data.length then refuse p (.Oversized data.length p.user_capacity)
  else if p.user_capacity < p.used_bytes + data.length then
    refuse p (.Full p.used_bytes p.user_capacity)
  else write_frame p data

/-- `create_native`, where it does not fail for want of a file. -/
def create_native (capacity : ℕ) : Except String Pipe :=
  if capacity = 0 then .error "capacity must be > 0" else .ok (new capacity)

end SharedMemoryPipeBackend

/-! ## Reading a frame -/

/-- The loop of `pop_position`: the answer, and the head that was persisted on
the way. Every round but the last moves the head up, so a loop that is not done
after `tail - head` rounds has left the tail behind and is never done. -/
def pop_loop (p : Pipe) : ℕ → ℕ → Except Crash (Except PipeError (ℕ × ℕ × ℕ) × ℕ)
  | 0, _ => .error .spin
  | fuel + 1, head =>
    if head = p.tail then
      .ok (.error (if p.closed then .ClosedEmpty else .Empty), head)
    else
      match read_slice p.ring (head % p.ring_cap) HEADER_SIZE with
      | none => .error .panic
      | some hdr =>
        let payload_len := u32_from_le_bytes hdr
        if payload_len = 0 then
          pop_loop p fuel (head + (p.ring_cap - head % p.ring_cap))
        else
          .ok (.ok (head % p.ring_cap + HEADER_SIZE, payload_len, HEADER_SIZE + payload_len), head)

/-- Start of the payload, its length, and how far the head is to move. -/
def pop_position (p : Pipe) : Except Crash (Answer (ℕ × ℕ × ℕ)) := do
  let (answer, head) ← pop_loop p (p.tail - p.head + 2) p.head
  return (answer, { p with head := head })

def commit_pop (p : Pipe) (total_advance payload_len : ℕ) : Pipe :=
  { p with
    head := p.head + total_advance
    used_bytes := (p.used_bytes + (2 ^ 64 - payload_len)) % 2 ^ 64 }

def pop (p : Pipe) : Except Crash (Answer Bytes) := do
  let (answer, p) ← pop_position p
  match answer with
  | .error e => return (.error e, p)
  | .ok (payload_start, payload_len, total_advance) =>
    match read_slice p.ring payload_start payload_len with
    | none => .error .panic
    | some data => return (.ok data, commit_pop p total_advance payload_len)

def close (p : Pipe) : Pipe := { p with closed := true }

/-! ## Calls on a pipe -/

inductive PipeOp where
  | push (data : Bytes)
  | pop
  | close
deriving DecidableEq, Repr

inductive PipeAnswer where
  | pushed (r : Except PipeError ℕ)
  | popped (r : Except PipeError Bytes)
  | closed
deriving DecidableEq, Repr

/-- A pipe whose `push` is `push`; a crash ends the run. -/
def pipe_step (push : Pipe → Bytes → Except Crash (Answer ℕ)) (p : Pipe) : PipeOp → Option (PipeAnswer × Pipe)
  | .push data =>
    match push p data with
    | .ok (r, p') => some (.pushed r, p')
    | .error _ => none
  | .pop =>
    match pop p with
    | .ok (r, p') => some (.popped r, p')
    | .error _ => none
  | .close => some (.closed, close p)

def memory_step : Pipe → PipeOp → Option (PipeAnswer × Pipe) := pipe_step MemoryPipeBackend.push

def shm_step : Pipe → PipeOp → Option (PipeAnswer × Pipe) :=
  pipe_step SharedMemoryPipeBackend.push_inner

/-- The message a call put in, if it was a push of a non-empty payload that returned `Ok`. -/
def taken_in : PipeOp × PipeAnswer → Option Bytes
  | (.push data, .pushed (.ok (_ + 1))) => some data
  | _ => none

def given_out : PipeAnswer → Option Bytes
  | .popped (.ok data) => some data
  | _ => none

def accepted (ops : List PipeOp) (rs : List PipeAnswer) : List Bytes :=
  (ops.zip rs).filterMap taken_in

def delivered (rs : List PipeAnswer) : List Bytes := rs.filterMap given_out

end NexusVfs.PipeRing
