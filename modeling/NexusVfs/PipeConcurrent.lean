/-
The in-memory pipe under any interleaving of producers and consumers.

One event is one access: an atomic load or store, a read-modify-write, a copy into or
out of the ring, taking a lock. A load names the store it returns, any that the thread's
view still allows; a copy out of the ring names one for every byte. Where a thread
stands between two accesses is kept with the lock it holds, together with its view. No
step reads `log`, the history of returns and closes.
-/
import NexusVfs.PipeRefinement
import NexusVfs.WeakMemory

namespace NexusVfs.PipeConcurrent

open Words ByteRing Runs WeakMemory
open PipeRing (HEADER_SIZE PipeError)

/-! ## State -/

inductive Loc where
  | closed
  | used_bytes
  | tail
  | head
  | ring
deriving DecidableEq, Repr

/-- The next access of a thread that holds the writer lock, with the local variables of
`push` that are still needed. -/
inductive PushPc where
  | load_used (data : Bytes)
  | load_tail (data : Bytes) (used : ℕ)
  | load_head (data : Bytes) (used tail : ℕ)
  | write_sentinel (data : Bytes) (tail : ℕ)
  | store_wrap (data : Bytes) (tail : ℕ)
  | write_header (data : Bytes) (write_idx : ℕ)
  | write_payload (data : Bytes) (write_idx : ℕ)
  | load_current (data : Bytes)
  | store_tail (data : Bytes) (current_tail : ℕ)
  | add_used (data : Bytes)
deriving DecidableEq, Repr

inductive PopPc where
  | load_head
  | load_tail (head : ℕ)
  | scan (head tail : ℕ)
  | store_skip (head tail : ℕ)
  | copy_payload (payload_start payload_len total_advance : ℕ)
  | load_current (data : Bytes) (total_advance : ℕ)
  | store_head (data : Bytes) (total_advance head : ℕ)
  | sub_used (data : Bytes)
deriving DecidableEq, Repr

/-- A lock: free, with what its last holder knew, or held. -/
inductive Lock (Pc : Type) where
  | free (view : View Loc)
  | held (t : ℕ) (pc : Pc) (view : View Loc)

def Lock.view {Pc : Type} : Lock Pc → View Loc
  | .free view => view
  | .held _ _ view => view

inductive Stage where
  | idle
  | push_closed (data : Bytes)
  | push_lock (data : Bytes)
  | pop_lock
  | inside
deriving DecidableEq, Repr

structure Thread where
  stage : Stage
  view : View Loc

inductive Note where
  | pushed (data : Bytes) (r : Except PipeError ℕ)
  | popped (r : Except PipeError Bytes)
  | closed
deriving DecidableEq, Repr

structure State where
  ring_cap : ℕ
  user_capacity : ℕ
  ring : History Loc Bytes
  head : History Loc ℕ
  tail : History Loc ℕ
  used_bytes : History Loc ℕ
  closed : History Loc Bool
  writer : Lock PushPc
  reader : Lock PopPc
  threads : ℕ → Thread
  panicked : Bool
  log : List Note

def new (capacity : ℕ) : State where
  ring_cap := capacity * 2
  user_capacity := capacity
  ring := .init (List.replicate (capacity * 2) 0)
  head := .init 0
  tail := .init 0
  used_bytes := .init 0
  closed := .init false
  writer := .free .bot
  reader := .free .bot
  threads := fun _ => ⟨.idle, .bot⟩
  panicked := false
  log := []

/-- The non-empty messages whose push returned `Ok`, in the order of the returns. -/
def accepted (log : List Note) : List Bytes :=
  log.filterMap fun
    | .pushed data (.ok (_ + 1)) => some data
    | _ => none

def delivered (log : List Note) : List Bytes :=
  log.filterMap fun
    | .popped (.ok data) => some data
    | _ => none

/-! ## Outside the locks -/

def State.set_thread (s : State) (t : ℕ) (stage : Stage) (view : View Loc) : State :=
  { s with threads := fun u => if u = t then ⟨stage, view⟩ else s.threads u }

/-- A call returns: `note` is logged and the thread is idle. -/
def State.returns (s : State) (t : ℕ) (view : View Loc) (note : Note) : State :=
  { s.set_thread t .idle view with log := s.log ++ [note] }

/-- The checks of `push` up to the lock. -/
def load_closed (s : State) (t : ℕ) (data : Bytes) (i : ℕ) : Option State := do
  let view := (s.threads t).view
  let st ← s.closed.read view .closed i
  let view := (view.raise .closed i).join st.view
  if st.value then
    return s.returns t view (.pushed data (.error (.Closed "write to closed pipe")))
  else if data.length = 0 then
    return s.returns t view (.pushed data (.ok 0))
  else if s.user_capacity < data.length then
    return s.returns t view (.pushed data (.error (.Oversized data.length s.user_capacity)))
  else
    return s.set_thread t (.push_lock data) view

/-- The next access of a thread that holds no lock; `i` is the store a load returns. -/
def outside_step (s : State) (t i : ℕ) : Option State :=
  match (s.threads t).stage with
  | .push_closed data => load_closed s t data i
  | .push_lock data =>
    match s.writer with
    | .free view =>
      some { s.set_thread t .inside .bot with
        writer := .held t (.load_used data) ((s.threads t).view.join view) }
    | .held _ _ _ => none
  | .pop_lock =>
    match s.reader with
    | .free view =>
      some { s.set_thread t .inside .bot with
        reader := .held t .load_head ((s.threads t).view.join view) }
    | .held _ _ _ => none
  | .idle => none
  | .inside => none

/-! ## `push` under the writer lock -/

/-- `push` returns and releases the lock. -/
def State.push_returns (s : State) (t : ℕ) (view : View Loc) (data : Bytes)
    (r : Except PipeError ℕ) : State :=
  { s.returns t view (.pushed data r) with writer := .free view }

def State.push_goes (s : State) (t : ℕ) (pc : PushPc) (view : View Loc) : State :=
  { s with writer := .held t pc view }

def State.push_panics (s : State) (view : View Loc) : State :=
  { s with panicked := true, writer := .free view }

/-- `ring[start..start + bs.len()].copy_from_slice(bs)`, then on to `pc`. -/
def write_ring (s : State) (t : ℕ) (view : View Loc) (start : ℕ) (bs : Bytes) (pc : PushPc) :
    State :=
  match write_slice s.ring.now.value start bs with
  | none => s.push_panics view
  | some ring =>
    let view := view.raise .ring s.ring.size
    { s with ring := s.ring.store ring view }.push_goes t pc view

/-- `self.tail.store(x, Release)`, then on to `pc`. -/
def store_tail (s : State) (t : ℕ) (view : View Loc) (x : ℕ) (pc : PushPc) : State :=
  let view := view.raise .tail s.tail.size
  { s with tail := s.tail.store x view }.push_goes t pc view

/-- The physical ring-space check: where to go on, `none` for `Full`. -/
def check_room (ring_cap head tail : ℕ) (data : Bytes) : Option PushPc :=
  let frame_len := HEADER_SIZE + data.length
  let tail_idx := tail % ring_cap
  let contiguous := ring_cap - tail_idx
  if contiguous < frame_len then
    if contiguous < HEADER_SIZE then none
    else if ring_cap < (tail - head) + (contiguous + frame_len) then none
    else some (.write_sentinel data tail)
  else
    if ring_cap < (tail - head) + frame_len then none
    else some (.write_header data tail_idx)

def push_access (s : State) (t : ℕ) (view : View Loc) (i : ℕ) : PushPc → Option State
  | .load_used data => do
    let st ← s.used_bytes.read view .used_bytes i
    let view := view.raise .used_bytes i
    if s.user_capacity < st.value + data.length then
      return s.push_returns t view data (.error (.Full st.value s.user_capacity))
    else
      return s.push_goes t (.load_tail data st.value) view
  | .load_tail data used => do
    let st ← s.tail.read view .tail i
    return s.push_goes t (.load_head data used st.value) (view.raise .tail i)
  | .load_head data used tail => do
    let st ← s.head.read view .head i
    let view := (view.raise .head i).join st.view
    match check_room s.ring_cap st.value tail data with
    | none => return s.push_returns t view data (.error (.Full used s.user_capacity))
    | some pc => return s.push_goes t pc view
  | .write_sentinel data tail =>
    some (write_ring s t view (tail % s.ring_cap) (u32_to_le_bytes 0) (.store_wrap data tail))
  | .store_wrap data tail =>
    some (store_tail s t view (tail + (s.ring_cap - tail % s.ring_cap)) (.write_header data 0))
  | .write_header data write_idx =>
    some (write_ring s t view write_idx (u32_to_le_bytes data.length)
      (.write_payload data write_idx))
  | .write_payload data write_idx =>
    some (write_ring s t view (write_idx + HEADER_SIZE) data (.load_current data))
  | .load_current data => do
    let st ← s.tail.read view .tail i
    return s.push_goes t (.store_tail data st.value) (view.raise .tail i)
  | .store_tail data current_tail =>
    some (store_tail s t view (current_tail + (HEADER_SIZE + data.length)) (.add_used data))
  | .add_used data =>
    let view := view.raise .used_bytes s.used_bytes.size
    let used := (s.used_bytes.now.value + data.length) % 2 ^ 64
    some ({ s with used_bytes := s.used_bytes.store used .bot }.push_returns t view data
      (.ok data.length))

/-! ## `pop` under the reader lock -/

def State.pop_returns (s : State) (t : ℕ) (view : View Loc) (r : Except PipeError Bytes) : State :=
  { s.returns t view (.popped r) with reader := .free view }

def State.pop_goes (s : State) (t : ℕ) (pc : PopPc) (view : View Loc) : State :=
  { s with reader := .held t pc view }

def State.pop_panics (s : State) (view : View Loc) : State :=
  { s with panicked := true, reader := .free view }

/-- `self.head.store(x, Release)`, then on to `pc`. -/
def store_head (s : State) (t : ℕ) (view : View Loc) (x : ℕ) (pc : PopPc) : State :=
  let view := view.raise .head s.head.size
  { s with head := s.head.store x view }.pop_goes t pc view

/-- The header at `head`: a sentinel is skipped, a frame is copied. -/
def read_header (s : State) (t : ℕ) (view : View Loc) (seen : ℕ → ℕ) (head tail : ℕ) :
    Option State :=
  let head_idx := head % s.ring_cap
  if s.ring_cap < head_idx + HEADER_SIZE then some (s.pop_panics view)
  else do
    let hdr ← see s.ring (view .ring) seen head_idx HEADER_SIZE
    let payload_len := u32_from_le_bytes hdr
    if payload_len = 0 then
      return s.pop_goes t (.store_skip (head + (s.ring_cap - head_idx)) tail) view
    else
      return s.pop_goes t
        (.copy_payload (head_idx + HEADER_SIZE) payload_len (HEADER_SIZE + payload_len)) view

def pop_access (s : State) (t : ℕ) (view : View Loc) (seen : ℕ → ℕ) : PopPc → Option State
  | .load_head => do
    let st ← s.head.read view .head (seen 0)
    return s.pop_goes t (.load_tail st.value) ((view.raise .head (seen 0)).join st.view)
  | .load_tail head => do
    let st ← s.tail.read view .tail (seen 0)
    return s.pop_goes t (.scan head st.value) ((view.raise .tail (seen 0)).join st.view)
  | .scan head tail =>
    if head = tail then do
      let st ← s.closed.read view .closed (seen 0)
      return s.pop_returns t ((view.raise .closed (seen 0)).join st.view)
        (.error (if st.value then .ClosedEmpty else .Empty))
    else read_header s t view seen head tail
  | .store_skip head tail => some (store_head s t view head (.scan head tail))
  | .copy_payload payload_start payload_len total_advance =>
    if s.ring_cap < payload_start + payload_len then some (s.pop_panics view)
    else do
      let data ← see s.ring (view .ring) seen payload_start payload_len
      return s.pop_goes t (.load_current data total_advance) view
  | .load_current data total_advance => do
    let st ← s.head.read view .head (seen 0)
    return s.pop_goes t (.store_head data total_advance st.value) (view.raise .head (seen 0))
  | .store_head data total_advance head =>
    some (store_head s t view (head + total_advance) (.sub_used data))
  | .sub_used data =>
    let view := view.raise .used_bytes s.used_bytes.size
    let used := (s.used_bytes.now.value + (2 ^ 64 - data.length)) % 2 ^ 64
    some ({ s with used_bytes := s.used_bytes.store used .bot }.pop_returns t view (.ok data))

/-! ## Events -/

inductive Event where
  | push (t : ℕ) (data : Bytes)
  | pop (t : ℕ)
  | close (t : ℕ)
  | outside (t i : ℕ)
  | writer (i : ℕ)
  | reader (seen : ℕ → ℕ)

def close (s : State) (t : ℕ) : State :=
  let view := (s.threads t).view.raise .closed s.closed.size
  { s with closed := s.closed.store true view }.returns t view .closed

def event_step (s : State) : Event → Option (Unit × State)
  | .push t data =>
    if (s.threads t).stage = .idle then
      some ((), s.set_thread t (.push_closed data) (s.threads t).view)
    else none
  | .pop t =>
    if (s.threads t).stage = .idle then some ((), s.set_thread t .pop_lock (s.threads t).view)
    else none
  | .close t => if (s.threads t).stage = .idle then some ((), close s t) else none
  | .outside t i => (outside_step s t i).map fun s' => ((), s')
  | .writer i =>
    match s.writer with
    | .free _ => none
    | .held t pc view => (push_access s t view i pc).map fun s' => ((), s')
  | .reader seen =>
    match s.reader with
    | .free _ => none
    | .held t pc view => (pop_access s t view seen pc).map fun s' => ((), s')

end NexusVfs.PipeConcurrent
