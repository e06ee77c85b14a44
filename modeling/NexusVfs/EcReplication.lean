/-
Replication of EC writes: `propose_ec_local` (`raft/node.rs`), the drain pass
(`transport/transport_loop.rs`) and the two handlers of a peer (`transport/server.rs`).

One writer with any number of concurrent calls, its driver and its peers. A step is what
happens between two points where another thread can come in. A request stays deliverable
for ever and an answer may be used any number of times, so lost, late and duplicated
messages are all runs of the model, and the driver's steps may come in any order.

`calls`, `applied` and `snapshots` record what happened: the phase of every call, the
entries each peer has applied, and for each state snapshot a peer has applied the
numbers that were applied at the writer when it was read.
-/
import NexusVfs.EcWrites
import NexusVfs.ReplicationLog
import NexusVfs.Cumulative

namespace NexusVfs

open Option List Runs Cumulative Table

/-! ## A peer -/

structure Replica where
  machine : FullStateMachine
  applied : List ℕ
  snapshots : List (List ℕ)

def apply_ec_from_peer (codec : MetadataCodec) (m : FullStateMachine) (c : Command)
    (entry_timestamp : UInt64) : Except RaftError (CommandResult × FullStateMachine) := do
  if ← requires_strong_consistency m.store c then return (.Success, m)
  else apply_ec_with_lww codec m c entry_timestamp

/-- `error` holds the number and the cause its text is made of. -/
structure ReplicateEntriesResponse where
  success : Bool
  error : Option (ℕ × RaftError)
  applied_up_to : ℕ

/-- The loop of `replicate_entries`; `readable` says which commands this build can decode. -/
def replicate_entries (codec : MetadataCodec) (readable : Command → Bool) (r : Replica) :
    List (ℕ × ReplicationEntry) → ℕ → ReplicateEntriesResponse × Replica
  | [], max_applied => (⟨true, none, max_applied⟩, r)
  | (seq, entry) :: rest, max_applied =>
    if readable entry.command then
      match apply_ec_from_peer codec r.machine entry.command entry.timestamp with
      | .ok (_, m) =>
        replicate_entries codec readable { r with machine := m, applied := seq :: r.applied } rest
          (max max_applied seq)
      | .error e => (⟨false, some (seq, e), max_applied⟩, r)
    else
      -- An undecodable entry is skipped and acknowledged.
      replicate_entries codec readable r rest (max max_applied seq)

/-- The loop of `snapshot_ec_state`: the failure it stops at, if any, and the state it leaves. -/
def snapshot_loop (codec : MetadataCodec) (readable : Command → Bool) (m : FullStateMachine) :
    List Command → Option RaftError × FullStateMachine
  | [] => (none, m)
  | c :: rest =>
    if readable c then
      match apply_ec_from_peer codec m c 0 with
      | .ok (_, m) => snapshot_loop codec readable m rest
      | .error e => (some e, m)
    else snapshot_loop codec readable m rest

structure SnapshotEcStateResponse where
  success : Bool
  error : Option (ℕ × RaftError)
  acked_up_to : ℕ

/-- `taken` goes into the history if every command of the image was applied. -/
def snapshot_ec_state (codec : MetadataCodec) (readable : Command → Bool) (r : Replica)
    (covering_seq : ℕ) (commands : List Command) (taken : List ℕ) :
    SnapshotEcStateResponse × Replica :=
  match snapshot_loop codec readable r.machine commands with
  | (some e, m) => (⟨false, some (covering_seq, e), 0⟩, { r with machine := m })
  | (none, m) =>
    (⟨true, none, covering_seq⟩, { r with
      machine := m
      snapshots := if commands.all readable then taken :: r.snapshots else r.snapshots })

/-! ## The writer -/

inductive CallPhase where
  /-- has its number, but no row yet -/
  | reserved
  /-- the row is committed -/
  | written
  /-- applied locally and acknowledged to the caller -/
  | applied
  /-- the caller got an error -/
  | failed
  deriving DecidableEq, Repr

structure Call where
  entry : ReplicationEntry
  phase : CallPhase

structure PeerReplicationState where
  acked_seq : ℕ
  needs_snapshot : Bool
  in_flight : Bool

def PeerReplicationState.new : PeerReplicationState := ⟨0, false, false⟩

inductive PeerPlan where
  | skip
  | snapshot
  | entries (batch : List (ℕ × ReplicationEntry))

def EC_MAX_ENTRIES_PER_BATCH : ℕ := 500

/-- One round of the per-peer loop of `spawn_ec_replications`. -/
def plan_peer (st : PeerReplicationState) (earliest : ℕ) (entries : List (ℕ × ReplicationEntry)) :
    PeerReplicationState × PeerPlan :=
  if st.in_flight then (st, .skip)
  else if st.needs_snapshot ∧ st.acked_seq < earliest then (st, .snapshot)
  else if st.acked_seq + 1 < earliest then ({ st with needs_snapshot := true }, .skip)
  else
    match (entries.filter fun row => decide (st.acked_seq < row.1)).take EC_MAX_ENTRIES_PER_BATCH with
    | [] => ({ st with needs_snapshot := false }, .skip)
    | row :: rows => ({ st with needs_snapshot := false, in_flight := true }, .entries (row :: rows))

def ec_compact_floor (peer_acked_seqs : List ℕ) (max_seq retention : ℕ) : ℕ :=
  max (peer_acked_seqs.min?.getD 0) (max_seq - retention)

inductive EcRequest where
  | entries (peer : ℕ) (batch : List (ℕ × ReplicationEntry))
  | snapshot (peer covering_seq : ℕ) (commands : List Command) (taken : List ℕ)

structure EcSystem where
  machine : FullStateMachine
  log : ReplicationLog
  /-- commands whose call has passed the admission check -/
  admitted : List Command
  calls : Table ℕ Call
  /-- what the drain has loaded: `earliest_seq` and `next_seq` -/
  bounds : ℕ × ℕ
  drained : List (ℕ × ReplicationEntry)
  ec_peer_state : Table ℕ PeerReplicationState
  /-- peers a snapshot is to be sent to -/
  snapshot_peers : List ℕ
  /-- spawned snapshot sends: the peer and its `covering_seq` -/
  snapshot_tasks : List (ℕ × ℕ)
  requests : List EcRequest
  /-- successful answers: the peer and the number it acknowledges -/
  answers : List (ℕ × ℕ)
  replicas : ℕ → Replica

def EcSystem.new (machine : FullStateMachine) (replicas : ℕ → FullStateMachine) : EcSystem where
  machine := machine
  log := .new
  admitted := []
  calls := ∅
  bounds := (1, 1)
  drained := []
  ec_peer_state := ∅
  snapshot_peers := []
  snapshot_tasks := []
  requests := []
  answers := []
  replicas id := ⟨replicas id, [], []⟩

inductive EcOp where
  | propose (command : Command)
  | reserve (command : Command) (now : UInt64)
  | write_row (seq : ℕ)
  | write_fails (seq : ℕ)
  | apply_local (seq : ℕ)
  | remove_entry (seq : ℕ)
  | load_bounds
  | read_rows
  | plan (peer : ℕ)
  | spawn_snapshot
  | read_snapshot (task : ℕ)
  | compact (peers : List ℕ)
  | deliver (request : ℕ)
  | acked (answer : ℕ)
  | failed (peer : ℕ)

/-- The codec, what each peer's build can decode, and the retention of the log. -/
structure EcConfig where
  codec : MetadataCodec
  readable : ℕ → Command → Bool
  retention : ℕ

namespace EcSystem

def set_phase (sys : EcSystem) (seq : ℕ) (call : Call) (phase : CallPhase) : EcSystem :=
  { sys with calls := sys.calls.insert seq { call with phase } }

def applied_seqs (sys : EcSystem) : List ℕ :=
  ((sys.calls.scan fun _ => true).filter fun row => decide (row.2.phase = .applied)).map Prod.fst

def peer_state (sys : EcSystem) (peer : ℕ) : PeerReplicationState :=
  (sys.ec_peer_state.get peer).getD .new

def put_peer (sys : EcSystem) (peer : ℕ) (st : PeerReplicationState) : EcSystem :=
  { sys with ec_peer_state := sys.ec_peer_state.insert peer st }

def put_replica (sys : EcSystem) (peer : ℕ) (r : Replica) : EcSystem :=
  { sys with replicas := Function.update sys.replicas peer r }

/-- A peer handles a request; only a success is answered with a number. -/
def deliver (sys : EcSystem) (cfg : EcConfig) : EcRequest → EcSystem
  | .entries peer batch =>
    match replicate_entries cfg.codec (cfg.readable peer) (sys.replicas peer) batch 0 with
    | (response, r) =>
      if response.success then
        { sys.put_replica peer r with answers := sys.answers ++ [(peer, response.applied_up_to)] }
      else sys.put_replica peer r
  | .snapshot peer covering_seq commands taken =>
    match snapshot_ec_state cfg.codec (cfg.readable peer) (sys.replicas peer) covering_seq commands
      taken with
    | (response, r) =>
      if response.success then
        { sys.put_replica peer r with answers := sys.answers ++ [(peer, response.acked_up_to)] }
      else sys.put_replica peer r

/-- Where the driver compacts to; `peers` are those in the peer map. -/
def compact_up_to (sys : EcSystem) (cfg : EcConfig) (peers : List ℕ) : ℕ :=
  ec_compact_floor
    (peers.filterMap fun id => (sys.ec_peer_state.get id).map PeerReplicationState.acked_seq)
    sys.log.max_seq cfg.retention

def call_in (sys : EcSystem) (seq : ℕ) (phase : CallPhase) : Option Call :=
  (sys.calls.get seq).filter fun call => decide (call.phase = phase)

theorem call_in_eq_some {sys : EcSystem} {seq : ℕ} {phase : CallPhase} {call : Call} :
    sys.call_in seq phase = some call ↔ sys.calls.get seq = some call ∧ call.phase = phase := by
  rw [call_in, filter_eq_some_iff, decide_eq_true_iff]

end EcSystem

def ec_step (cfg : EcConfig) (sys : EcSystem) : EcOp → Option (Unit × EcSystem)
  | .propose c =>
    match requires_strong_consistency sys.machine.store c with
    | .ok false => some ((), { sys with admitted := c :: sys.admitted })
    | _ => some ((), sys)
  | .reserve c now =>
    if c ∈ sys.admitted then
      some ((), { sys with
        admitted := sys.admitted.erase c
        log := sys.log.reserve
        calls := sys.calls.insert sys.log.next_seq ⟨⟨c, now⟩, .reserved⟩ })
    else none
  | .write_row seq =>
    (sys.call_in seq .reserved).map fun call =>
      ((), { sys.set_phase seq call .written with log := sys.log.write_row seq call.entry })
  | .write_fails seq =>
    (sys.call_in seq .reserved).map fun call => ((), sys.set_phase seq call .failed)
  | .apply_local seq =>
    (sys.call_in seq .written).map fun call =>
      match apply_local sys.machine call.entry.command with
      | .ok (_, m) => ((), { sys.set_phase seq call .applied with machine := m })
      | .error _ => ((), sys.set_phase seq call .failed)
  | .remove_entry seq =>
    (sys.call_in seq .failed).map fun _ => ((), { sys with log := sys.log.remove_entry seq })
  | .load_bounds => some ((), { sys with bounds := (sys.log.earliest_seq, sys.log.max_seq) })
  | .read_rows =>
    some ((), { sys with drained := sys.log.drain_unreplicated sys.bounds.1 sys.bounds.2 })
  | .plan peer =>
    match plan_peer (sys.peer_state peer) sys.log.earliest_seq sys.drained with
    | (st, .skip) => some ((), sys.put_peer peer st)
    | (st, .snapshot) =>
      some ((), { sys.put_peer peer st with snapshot_peers := sys.snapshot_peers ++ [peer] })
    | (st, .entries batch) =>
      some ((), { sys.put_peer peer st with requests := sys.requests ++ [.entries peer batch] })
  | .spawn_snapshot =>
    match sys.snapshot_peers with
    | [] => none
    | peer :: rest =>
      some ((), { sys.put_peer peer { sys.peer_state peer with in_flight := true } with
        snapshot_peers := rest
        snapshot_tasks := sys.snapshot_tasks ++ [(peer, sys.log.max_seq - 1)] })
  | .read_snapshot task =>
    match sys.snapshot_tasks[task]? with
    | none => none
    | some (peer, covering_seq) =>
      match ec_state_snapshot sys.machine with
      | .error _ => some ((), { sys with snapshot_tasks := sys.snapshot_tasks.eraseIdx task })
      | .ok commands => some ((), { sys with
          snapshot_tasks := sys.snapshot_tasks.eraseIdx task
          requests := sys.requests ++ [.snapshot peer covering_seq commands sys.applied_seqs] })
  | .compact peers =>
    if 0 < sys.compact_up_to cfg peers then
      some ((), { sys with log := sys.log.compact (sys.compact_up_to cfg peers) })
    else some ((), sys)
  | .deliver request => (sys.requests[request]?).map fun req => ((), sys.deliver cfg req)
  | .acked answer =>
    match sys.answers[answer]? with
    | none => none
    | some (peer, applied_up_to) =>
      match sys.ec_peer_state.get peer with
      | none => some ((), sys)
      | some st => some ((), sys.put_peer peer
          { st with in_flight := false, acked_seq := max st.acked_seq applied_up_to })
  | .failed peer =>
    match sys.ec_peer_state.get peer with
    | none => some ((), sys)
    | some st => some ((), sys.put_peer peer { st with in_flight := false })

/-! ## What an acknowledgement stands for -/

namespace EcSystem

/-- No call with this number, or one whose caller got an error. -/
def Void (sys : EcSystem) (s : ℕ) : Prop :=
  ∀ call, sys.calls.get s = some call → call.phase = .failed

variable {sys sys' : EcSystem} {peer s : ℕ} {cfg : EcConfig} {u : Unit}

theorem Void.of_none (h : sys.calls.get s = none) : sys.Void s := by
  intro call hcall
  rw [h] at hcall
  cases hcall

variable {call : Call} {seq : ℕ}

theorem Void.of_failed (h : sys.calls.get s = some call)
    (hphase : call.phase = .failed) : sys.Void s := by
  intro call' hcall
  rw [h] at hcall
  cases hcall
  exact hphase

/-- The peer has applied the entry, or a state snapshot that was read after the writer had. -/
def Covered (sys : EcSystem) (peer s : ℕ) : Prop :=
  s ∈ (sys.replicas peer).applied ∨ ∃ taken ∈ (sys.replicas peer).snapshots, s ∈ taken

def Done (sys : EcSystem) (peer s : ℕ) : Prop := sys.Void s ∨ sys.Covered peer s

/-- A number below `next_seq` up to which the peer has everything. -/
def AckOk (sys : EcSystem) (peer a : ℕ) : Prop := a < sys.log.next_seq ∧ UpTo (sys.Done peer) a

def RequestOk (sys : EcSystem) : EcRequest → Prop
  | .entries peer batch =>
    (∀ r ∈ batch, r.1 < sys.log.next_seq) ∧ Closed (sys.Done peer) batch
  | .snapshot _ covering_seq _ taken =>
    covering_seq < sys.log.next_seq ∧ UpTo (fun s => sys.Void s ∨ s ∈ taken) covering_seq

/-- What no step takes back: numbers in use, errors given to callers, what peers have applied. -/
structure Grows (sys sys' : EcSystem) : Prop where
  next : sys.log.next_seq ≤ sys'.log.next_seq
  void : ∀ s, s < sys.log.next_seq → sys.Void s → sys'.Void s
  covered : ∀ peer s, sys.Covered peer s → sys'.Covered peer s

section Grows

variable {sys sys' : EcSystem}

theorem Grows.done (g : Grows sys sys') {peer s : ℕ} (hs : s < sys.log.next_seq)
    (h : sys.Done peer s) : sys'.Done peer s := by
  rcases h with hv | hc
  · exact .inl (g.void s hs hv)
  · exact .inr (g.covered peer s hc)

theorem Grows.ackOk (g : Grows sys sys') {peer a : ℕ} (h : sys.AckOk peer a) :
    sys'.AckOk peer a := by
  refine ⟨Nat.lt_of_lt_of_le h.1 g.next, h.2.imp fun s hs hd => ?_⟩
  exact g.done (Nat.lt_of_le_of_lt hs h.1) hd

theorem Grows.requestOk (g : Grows sys sys') {req : EcRequest} (h : sys.RequestOk req) :
    sys'.RequestOk req := by
  cases req with
  | entries peer batch =>
    refine ⟨fun r hr => Nat.lt_of_lt_of_le (h.1 r hr) g.next, h.2.imp fun r hr s hs hd => ?_⟩
    exact g.done (Nat.lt_of_le_of_lt hs (h.1 r hr)) hd
  | snapshot peer covering_seq commands taken =>
    refine ⟨Nat.lt_of_lt_of_le h.1 g.next, h.2.imp fun s hs hd => ?_⟩
    rcases hd with hv | hmem
    · exact .inl (g.void s (Nat.lt_of_le_of_lt hs h.1) hv)
    · exact .inr hmem

end Grows

/-- The invariant of the protocol. `drained` is the part that the interleaving of calls can break:
from the lower bound of the log on, the rows read leave out only failed calls. -/
structure Inv (sys : EcSystem) : Prop where
  next_pos : 0 < sys.log.next_seq
  numbered : ∀ s call, sys.calls.get s = some call → 0 < s ∧ s < sys.log.next_seq
  rows : ∀ s call, sys.calls.get s = some call → call.phase = .written ∨ call.phase = .applied →
    sys.log.earliest_seq ≤ s → sys.log.rows.get s = some call.entry
  bounds : sys.bounds.1 ≤ sys.log.earliest_seq ∧ sys.bounds.2 ≤ sys.log.next_seq
  drained_lt : ∀ r ∈ sys.drained, r.1 < sys.log.next_seq
  drained_sorted : sys.drained.Pairwise fun a b => a.1 < b.1
  drained : Complete sys.Void (sys.log.earliest_seq - 1) sys.drained
  tasks : ∀ t ∈ sys.snapshot_tasks, t.2 < sys.log.next_seq
  requests : ∀ req ∈ sys.requests, sys.RequestOk req
  answers : ∀ a ∈ sys.answers, sys.AckOk a.1 a.2
  peers : ∀ peer st, sys.ec_peer_state.get peer = some st → sys.AckOk peer st.acked_seq

theorem Inv.new (machine : FullStateMachine) (replicas : ℕ → FullStateMachine) :
    (EcSystem.new machine replicas).Inv where
  next_pos := Nat.one_pos
  numbered s call h := by
    cases h
  rows s call h := by
    cases h
  bounds := ⟨Nat.le_refl 1, Nat.le_refl 1⟩
  drained_lt r h := by cases h
  drained_sorted := .nil
  drained r h := by cases h
  tasks t h := by cases h
  requests req h := by cases h
  answers a h := by cases h
  peers peer st h := by
    cases h

variable (h : sys.Inv)
include h

theorem Inv.void_zero : sys.Void 0 := by
  intro call hcall
  exact absurd (h.numbered 0 call hcall).1 (Nat.lt_irrefl 0)

theorem Inv.peer_state (peer : ℕ) : sys.AckOk peer (sys.peer_state peer).acked_seq := by
  unfold EcSystem.peer_state
  cases hst : sys.ec_peer_state.get peer with
  | some st => exact h.peers peer st hst
  | none =>
    refine ⟨h.next_pos, fun s hs => .inl ?_⟩
    have hzero : s = 0 := Nat.le_zero.mp hs
    rw [hzero]
    exact h.void_zero

variable {admitted : List Command} {machine : FullStateMachine} {log : ReplicationLog}
variable {st : PeerReplicationState} {req : EcRequest} {batch : List (ℕ × ReplicationEntry)}

theorem Inv.of_grows {calls : Table ℕ Call} {replicas : ℕ → Replica}
    (g : Grows sys { sys with admitted, machine, log, calls, replicas })
    (hnumbered : ∀ s call, calls.get s = some call → 0 < s ∧ s < log.next_seq)
    (hrows : ∀ s call, calls.get s = some call → call.phase = .written ∨ call.phase = .applied →
      log.earliest_seq ≤ s → log.rows.get s = some call.entry)
    (hearliest : sys.log.earliest_seq ≤ log.earliest_seq) :
    Inv { sys with admitted, machine, log, calls, replicas } where
  next_pos := Nat.lt_of_lt_of_le h.next_pos g.next
  numbered := hnumbered
  rows := hrows
  bounds := ⟨Nat.le_trans h.bounds.1 hearliest, Nat.le_trans h.bounds.2 g.next⟩
  drained_lt r hr := Nat.lt_of_lt_of_le (h.drained_lt r hr) g.next
  drained_sorted := h.drained_sorted
  drained := by
    refine h.drained.imp (Nat.sub_le_sub_right hearliest 1) fun r hr s hs hv => ?_
    exact g.void s (Nat.lt_of_le_of_lt hs (h.drained_lt r hr)) hv
  tasks t ht := Nat.lt_of_lt_of_le (h.tasks t ht) g.next
  requests req hreq := g.requestOk (h.requests req hreq)
  answers a ha := g.ackOk (h.answers a ha)
  peers peer st hst := g.ackOk (h.peers peer st hst)

/-! ## Calls -/

theorem Inv.insert_call
    (hvoid : seq < sys.log.next_seq → ¬ sys.Void seq) (hnumber : 0 < seq ∧ seq < log.next_seq)
    (hnext : sys.log.next_seq ≤ log.next_seq) (hearliest : log.earliest_seq = sys.log.earliest_seq)
    (hother : ∀ s, s ≠ seq → log.rows.get s = sys.log.rows.get s)
    (hself : call.phase = .written ∨ call.phase = .applied → sys.log.earliest_seq ≤ seq →
      log.rows.get seq = some call.entry) :
    Inv { sys with admitted, machine, log, calls := sys.calls.insert seq call } := by
  have hget {s : ℕ} {call' : Call} (hcall : (sys.calls.insert seq call).get s = some call') :
      (s = seq ∧ call' = call) ∨ (s ≠ seq ∧ sys.calls.get s = some call') := by
    rw [get_insert] at hcall
    split_ifs at hcall with hs
    · exact .inl ⟨hs, (some.inj hcall).symm⟩
    · exact .inr ⟨hs, hcall⟩
  refine h.of_grows ⟨hnext, ?_, fun _ _ hc => hc⟩ ?_ ?_ (Nat.le_of_eq hearliest.symm)
  · intro s hs hv call' hcall'
    rcases hget hcall' with ⟨rfl, -⟩ | ⟨-, hold⟩
    · exact absurd hv (hvoid hs)
    · exact hv call' hold
  · intro s call' hcall'
    rcases hget hcall' with ⟨rfl, -⟩ | ⟨-, hold⟩
    · exact hnumber
    · have hlt := h.numbered s call' hold
      omega
  · intro s call' hcall' hphase hle
    rw [hearliest] at hle
    rcases hget hcall' with ⟨rfl, rfl⟩ | ⟨hs, hold⟩
    · exact hself hphase hle
    · rw [hother s hs]
      exact h.rows s call' hold hphase hle

theorem Inv.reserve (c : Command) (now : UInt64) :
    Inv { sys with
      admitted := sys.admitted.erase c
      log := sys.log.reserve
      calls := sys.calls.insert sys.log.next_seq ⟨⟨c, now⟩, .reserved⟩ } := by
  refine h.insert_call (fun hlt => absurd hlt (Nat.lt_irrefl _)) ⟨h.next_pos, Nat.lt_succ_self _⟩
    (Nat.le_succ _) rfl (fun _ _ => rfl) fun hphase => ?_
  -- a number without a row owes none
  rcases hphase with hphase | hphase
  · cases hphase
  · cases hphase

theorem Inv.set_phase
    (hcall : sys.calls.get seq = some call) (hne : call.phase ≠ .failed) (phase : CallPhase)
    (machine : FullStateMachine) (log : ReplicationLog) (hnext : log.next_seq = sys.log.next_seq)
    (hearliest : log.earliest_seq = sys.log.earliest_seq)
    (hother : ∀ s, s ≠ seq → log.rows.get s = sys.log.rows.get s)
    (hself : phase = .written ∨ phase = .applied → sys.log.earliest_seq ≤ seq →
      log.rows.get seq = some call.entry) :
    Inv { sys.set_phase seq call phase with machine, log } :=
  h.insert_call (fun _ hv => hne (hv call hcall)) (hnext ▸ h.numbered seq call hcall)
    (Nat.le_of_eq hnext.symm) hearliest hother hself

theorem Inv.remove_entry (hcall : sys.calls.get seq = some call) (hphase : call.phase = .failed) :
    Inv { sys with log := sys.log.remove_entry seq } := by
  refine h.of_grows ⟨Nat.le_refl _, fun _ _ hv => hv, fun _ _ hc => hc⟩ h.numbered ?_ (Nat.le_refl _)
  intro s call' hcall' hphase' hle
  have hne : s ≠ seq := by
    rintro rfl
    rw [hcall] at hcall'
    cases hcall'
    rw [hphase] at hphase'
    rcases hphase' with hphase' | hphase'
    · cases hphase'
    · cases hphase'
  exact (get_remove_of_ne _ hne).trans (h.rows s call' hcall' hphase' hle)

theorem Inv.compact (up_to_seq : ℕ) : Inv { sys with log := sys.log.compact up_to_seq } := by
  have hearliest : sys.log.earliest_seq ≤ (sys.log.compact up_to_seq).earliest_seq := by
    rw [ReplicationLog.earliest_compact]
    omega
  have hnext := sys.log.next_seq_compact up_to_seq
  refine h.of_grows ⟨Nat.le_of_eq hnext.symm, fun _ _ hv => hv, fun _ _ hc => hc⟩ ?_ ?_ hearliest
  · rw [hnext]
    exact h.numbered
  · intro s call hcall hphase hle
    rw [ReplicationLog.get_compact_of_le hle]
    exact h.rows s call hcall hphase (Nat.le_trans hearliest hle)

/-! ## The driver -/

/-- Rows read while no lower number still waits for its row leave out nothing. -/
theorem Inv.read_rows (hok : ∀ r ∈ sys.log.drain_unreplicated sys.bounds.1 sys.bounds.2,
      ∀ s call, sys.calls.get s = some call → s ≤ r.1 → call.phase ≠ .reserved) :
    Inv { sys with drained := sys.log.drain_unreplicated sys.bounds.1 sys.bounds.2 } := by
  have hlt (r : ℕ × ReplicationEntry)
      (hr : r ∈ sys.log.drain_unreplicated sys.bounds.1 sys.bounds.2) : r.1 < sys.bounds.2 :=
    (ReplicationLog.mem_drain.mp hr).1.2
  refine ⟨h.next_pos, h.numbered, h.rows, h.bounds,
    fun r hr => Nat.lt_of_lt_of_le (hlt r hr) h.bounds.2, ReplicationLog.sorted_drain _ _ _, ?_,
    h.tasks, h.requests, h.answers, h.peers⟩
  intro r hr s hlo hs
  cases hcall : sys.calls.get s with
  | none => exact .inl (.of_none hcall)
  | some call =>
    have hrow (hphase : call.phase = .written ∨ call.phase = .applied) :
        s ∈ (sys.log.drain_unreplicated sys.bounds.1 sys.bounds.2).map Prod.fst := by
      have hearliest : sys.log.earliest_seq ≤ s := by
        dsimp only at hlo
        omega
      have hrange : sys.bounds.1 ≤ s ∧ s < sys.bounds.2 :=
        ⟨Nat.le_trans h.bounds.1 hearliest, Nat.lt_of_le_of_lt hs (hlt r hr)⟩
      exact mem_map.mpr ⟨(s, call.entry),
        ReplicationLog.mem_drain.mpr ⟨hrange, h.rows s call hcall hphase hearliest⟩, rfl⟩
    cases hphase : call.phase with
    | reserved => exact absurd hphase (hok r hr s call hcall hs)
    | written => exact .inr (hrow (.inl hphase))
    | applied => exact .inr (hrow (.inr hphase))
    | failed => exact .inl (.of_failed hcall hphase)

theorem Inv.put_peer (hack : sys.AckOk peer st.acked_seq) : (sys.put_peer peer st).Inv := by
  refine { h with peers := ?_ }
  intro p st' hst'
  have hst' : (sys.ec_peer_state.insert peer st).get p = some st' := hst'
  rw [get_insert] at hst'
  by_cases hp : p = peer
  · rw [if_pos hp] at hst'
    cases hst'
    rw [hp]
    exact hack
  · rw [if_neg hp] at hst'
    exact h.peers p st' hst'

theorem Inv.push_request (hreq : sys.RequestOk req) :
    Inv { sys with requests := sys.requests ++ [req] } := by
  exact { h with
    requests := forall_mem_append.mpr ⟨h.requests, forall_mem_singleton.mpr hreq⟩ }

theorem Inv.push_answer {a : ℕ} (hack : sys.AckOk peer a) :
    Inv { sys with answers := sys.answers ++ [(peer, a)] } := by
  exact { h with
    answers := forall_mem_append.mpr ⟨h.answers, forall_mem_singleton.mpr hack⟩ }

omit h in
theorem plan_peer_acked (st : PeerReplicationState) (earliest : ℕ)
    (entries : List (ℕ × ReplicationEntry)) :
    (plan_peer st earliest entries).1.acked_seq = st.acked_seq := by
  unfold plan_peer
  split_ifs
  · rfl
  · rfl
  · rfl
  · split
    · rfl
    · rfl

omit h in
theorem plan_peer_entries {earliest : ℕ} {entries : List (ℕ × ReplicationEntry)}
    (h : (plan_peer st earliest entries).2 = .entries batch) :
    earliest ≤ st.acked_seq + 1 ∧
    batch = (entries.filter fun row => decide (st.acked_seq < row.1)).take
      EC_MAX_ENTRIES_PER_BATCH := by
  unfold plan_peer at h
  split_ifs at h with hflight hsnap hbehind
  refine ⟨Nat.not_lt.mp hbehind, ?_⟩
  split at h
  · cases h
  · rename_i row rows hcut
    cases h
    exact hcut.symm

theorem Inv.planned
    (hplan : (plan_peer (sys.peer_state peer) sys.log.earliest_seq sys.drained).2 = .entries batch) :
    sys.RequestOk (.entries peer batch) := by
  obtain ⟨hlo, rfl⟩ := plan_peer_entries hplan
  have hmem {r : ℕ × ReplicationEntry} (hr : r ∈ (sys.drained.filter fun row =>
      decide ((sys.peer_state peer).acked_seq < row.1)).take EC_MAX_ENTRIES_PER_BATCH) :
      r ∈ sys.drained :=
    mem_of_mem_filter (mem_of_mem_take hr)
  refine ⟨fun r hr => h.drained_lt r (hmem hr), ?_⟩
  have hcomplete : Complete (sys.Done peer) (sys.log.earliest_seq - 1) sys.drained :=
    h.drained.imp (Nat.le_refl _) fun _ _ _ _ hv => .inl hv
  exact hcomplete.batch h.drained_sorted (by omega) (h.peer_state peer).2 _

/-! ## Delivery -/

omit h in
/-- What handling a batch adds to a peer, and what its answer says. -/
theorem replicate_entries_spec (codec : MetadataCodec) (readable : Command → Bool) (r : Replica)
    (batch : List (ℕ × ReplicationEntry)) (max_applied : ℕ) :
    let out := replicate_entries codec readable r batch max_applied
    (∀ s ∈ r.applied, s ∈ out.2.applied) ∧ out.2.snapshots = r.snapshots ∧ (out.1.success = true →
      (∀ row ∈ batch, readable row.2.command = true → row.1 ∈ out.2.applied) ∧
      (out.1.applied_up_to = max_applied ∨ out.1.applied_up_to ∈ batch.map Prod.fst)) := by
  -- entry by entry, as the loop goes
  induction batch generalizing r max_applied with
  | nil => exact ⟨fun s hs => hs, rfl, fun _ => ⟨(fun row hrow => by cases hrow), .inl rfl⟩⟩
  | cons row rest ih =>
    obtain ⟨seq, entry⟩ := row
    have hmax (a : ℕ) (h : a = max max_applied seq ∨ a ∈ rest.map Prod.fst) :
        a = max_applied ∨ a ∈ ((seq, entry) :: rest).map Prod.fst := by
      rw [map_cons, mem_cons]
      rcases h with h | h
      · omega
      · exact .inr (.inr h)
    rw [replicate_entries]
    by_cases hread : readable entry.command = true
    · rw [if_pos hread]
      cases happ : apply_ec_from_peer codec r.machine entry.command entry.timestamp with
      | error e => exact ⟨fun s hs => hs, rfl, fun hsucc => by cases hsucc⟩
      | ok p =>
        obtain ⟨hkeep, hsnap, hsucc⟩ :=
          ih { r with machine := p.2, applied := seq :: r.applied } (max max_applied seq)
        refine ⟨fun s hs => hkeep s (mem_cons_of_mem _ hs), hsnap, fun hs => ?_⟩
        obtain ⟨hall, hup⟩ := hsucc hs
        refine ⟨fun row hrow hr => ?_, hmax _ hup⟩
        rcases mem_cons.mp hrow with rfl | hrest
        · exact hkeep seq mem_cons_self
        · exact hall row hrest hr
    · -- an unreadable entry is skipped, yet its number counts as applied
      rw [if_neg hread]
      obtain ⟨hkeep, hsnap, hsucc⟩ := ih r (max max_applied seq)
      refine ⟨hkeep, hsnap, fun hs => ?_⟩
      obtain ⟨hall, hup⟩ := hsucc hs
      refine ⟨fun row hrow hr => ?_, hmax _ hup⟩
      rcases mem_cons.mp hrow with rfl | hrest
      · exact absurd hr hread
      · exact hall row hrest hr

omit h in
theorem snapshot_ec_state_spec (codec : MetadataCodec) (readable : Command → Bool) (r : Replica)
    (covering_seq : ℕ) (commands : List Command) (taken : List ℕ) :
    let out := snapshot_ec_state codec readable r covering_seq commands taken
    out.2.applied = r.applied ∧ (∀ t ∈ r.snapshots, t ∈ out.2.snapshots) ∧
    (out.1.success = true → out.1.acked_up_to = covering_seq ∧
      (commands.all readable = true → taken ∈ out.2.snapshots)) := by
  unfold snapshot_ec_state
  split
  · exact ⟨rfl, fun t ht => ht, fun hs => by cases hs⟩
  · refine ⟨rfl, fun t ht => ?_, fun _ => ⟨rfl, fun hall => ?_⟩⟩
    · split_ifs
      · exact mem_cons_of_mem _ ht
      · exact ht
    · rw [if_pos hall]
      exact mem_cons_self

theorem Inv.put_replica {r : Replica} (happlied : ∀ s ∈ (sys.replicas peer).applied, s ∈ r.applied)
    (hsnapshots : ∀ t ∈ (sys.replicas peer).snapshots, t ∈ r.snapshots) :
    (sys.put_replica peer r).Inv ∧ Grows sys (sys.put_replica peer r) := by
  have g : Grows sys (sys.put_replica peer r) := by
    refine ⟨Nat.le_refl _, fun _ _ hv => hv, fun p s hc => ?_⟩
    unfold Covered at hc ⊢
    unfold EcSystem.put_replica
    dsimp only
    by_cases hp : p = peer
    · subst hp
      rw [Function.update_self]
      rcases hc with hc | ⟨t, ht, hs⟩
      · exact .inl (happlied s hc)
      · exact .inr ⟨t, hsnapshots t ht, hs⟩
    · rw [Function.update_of_ne hp]
      exact hc
  exact ⟨h.of_grows g h.numbered h.rows (Nat.le_refl _), g⟩

/-- The peer can decode everything in the request. -/
def Readable (cfg : EcConfig) : EcRequest → Prop
  | .entries peer batch => ∀ row ∈ batch, cfg.readable peer row.2.command = true
  | .snapshot peer _ commands _ => commands.all (cfg.readable peer) = true

theorem Inv.deliver (cfg : EcConfig) (hmem : req ∈ sys.requests)
    (hread : Readable cfg req) : (sys.deliver cfg req).Inv := by
  have hreq := h.requests req hmem
  cases req with
  | entries peer batch =>
    obtain ⟨hkeep, hsnap, hsucc⟩ :=
      replicate_entries_spec cfg.codec (cfg.readable peer) (sys.replicas peer) batch 0
    obtain ⟨hinv, g⟩ := h.put_replica hkeep (fun t ht => hsnap ▸ ht)
    unfold EcSystem.deliver
    dsimp only
    split_ifs with hs
    · obtain ⟨hall, hup⟩ := hsucc hs
      refine hinv.push_answer ?_
      obtain ⟨hlt, hclosed⟩ := g.requestOk hreq
      -- the answer is 0 for an empty batch, else the number of a row in it
      rcases hup with hzero | hin
      · rw [hzero]
        refine ⟨hinv.next_pos, fun s hs => ?_⟩
        rw [Nat.le_zero.mp hs]
        exact .inl hinv.void_zero
      · obtain ⟨row, hrow, heq⟩ := mem_map.mp hin
        rw [← heq]
        refine ⟨hlt row hrow, hclosed.upTo (fun s hs => .inr (.inl ?_)) hrow⟩
        obtain ⟨row', hrow', rfl⟩ := mem_map.mp hs
        have happlied := hall row' hrow' (hread row' hrow')
        unfold EcSystem.put_replica
        dsimp only
        rw [Function.update_self]
        exact happlied
    · exact hinv
  | snapshot peer covering_seq commands taken =>
    obtain ⟨happlied, hkeep, hsucc⟩ := snapshot_ec_state_spec cfg.codec (cfg.readable peer)
      (sys.replicas peer) covering_seq commands taken
    obtain ⟨hinv, g⟩ := h.put_replica (fun s hs => happlied ▸ hs) hkeep
    unfold EcSystem.deliver
    dsimp only
    split_ifs with hs
    · obtain ⟨hup, htaken⟩ := hsucc hs
      refine hinv.push_answer ?_
      rw [hup]
      obtain ⟨hlt, hcover⟩ := g.requestOk hreq
      refine ⟨hlt, hcover.imp fun s _ hd => ?_⟩
      rcases hd with hv | hin
      · exact .inl hv
      · refine .inr (.inr ⟨taken, ?_, hin⟩)
        unfold EcSystem.put_replica
        dsimp only
        rw [Function.update_self]
        exact htaken hread
    · exact hinv

/-! ## Whole runs -/

/-- What the interleaving has to respect. Rows are read only while no lower number still waits for
its row; a snapshot is read only after every call up to the number it covers is through; a peer can
decode what it is sent. -/
def InOrder (cfg : EcConfig) (sys : EcSystem) : EcOp → Prop
  | .read_rows => ∀ r ∈ sys.log.drain_unreplicated sys.bounds.1 sys.bounds.2,
      ∀ s call, sys.calls.get s = some call → s ≤ r.1 → call.phase ≠ .reserved
  | .read_snapshot task => ∀ peer covering_seq, sys.snapshot_tasks[task]? = some (peer, covering_seq) →
      ∀ s call, sys.calls.get s = some call → s ≤ covering_seq →
        call.phase = .applied ∨ call.phase = .failed
  | .deliver request => ∀ req, sys.requests[request]? = some req → Readable cfg req
  | _ => True

theorem Inv.read_snapshot {covering_seq : ℕ}
    (htask : (peer, covering_seq) ∈ sys.snapshot_tasks) (commands : List Command)
    (hok : ∀ s call, sys.calls.get s = some call → s ≤ covering_seq →
      call.phase = .applied ∨ call.phase = .failed) :
    sys.RequestOk (.snapshot peer covering_seq commands sys.applied_seqs) := by
  refine ⟨h.tasks _ htask, fun s hs => ?_⟩
  cases hcall : sys.calls.get s with
  | none => exact .inl (.of_none hcall)
  | some call =>
    rcases hok s call hcall hs with hphase | hphase
    · exact .inr (mem_map.mpr ⟨(s, call), mem_filter.mpr
        ⟨mem_scan.mpr ⟨rfl, hcall⟩, decide_eq_true hphase⟩, rfl⟩)
    · exact .inl (.of_failed hcall hphase)

theorem Inv.plan_step (hstep : ec_step cfg sys (.plan peer) = some (u, sys')) : sys'.Inv := by
  have hack := h.peer_state peer
  rw [← plan_peer_acked _ sys.log.earliest_seq sys.drained] at hack
  have hput := h.put_peer hack
  unfold ec_step at hstep
  dsimp only at hstep
  split at hstep
  · rename_i st hplan
    rw [hplan] at hput
    cases hstep
    exact hput
  · rename_i st hplan
    rw [hplan] at hput
    cases hstep
    exact { hput with }
  · rename_i st batch hplan
    have hreq := h.planned (congrArg Prod.snd hplan)
    rw [hplan] at hput
    cases hstep
    exact hput.push_request hreq

theorem Inv.spawn_snapshot_step
    (hstep : ec_step cfg sys .spawn_snapshot = some (u, sys')) : sys'.Inv := by
  unfold ec_step at hstep
  dsimp only at hstep
  split at hstep
  · cases hstep
  · rename_i peer rest hpeers
    cases hstep
    have hput := h.put_peer (show sys.AckOk peer
      { sys.peer_state peer with in_flight := true }.acked_seq from h.peer_state peer)
    have hlast : (peer, sys.log.max_seq - 1).2 < sys.log.next_seq :=
      Nat.sub_lt h.next_pos Nat.one_pos
    exact { hput with
      tasks := forall_mem_append.mpr ⟨h.tasks, forall_mem_singleton.mpr hlast⟩ }

theorem Inv.read_snapshot_step {task : ℕ} (hok : InOrder cfg sys (.read_snapshot task))
    (hstep : ec_step cfg sys (.read_snapshot task) = some (u, sys')) : sys'.Inv := by
  have herased : Inv { sys with snapshot_tasks := sys.snapshot_tasks.eraseIdx task } :=
    { h with tasks := fun t ht => h.tasks t (mem_of_mem_eraseIdx ht) }
  unfold ec_step at hstep
  dsimp only at hstep
  split at hstep
  · cases hstep
  · rename_i peer covering_seq htask
    split at hstep
    · cases hstep
      exact herased
    · rename_i commands hcommands
      cases hstep
      exact herased.push_request (h.read_snapshot (mem_of_getElem? htask) commands
        (hok peer covering_seq htask))

theorem Inv.acked_step {answer : ℕ}
    (hstep : ec_step cfg sys (.acked answer) = some (u, sys')) : sys'.Inv := by
  unfold ec_step at hstep
  dsimp only at hstep
  split at hstep
  · cases hstep
  · rename_i peer applied_up_to hanswer
    have hack := h.answers _ (mem_of_getElem? hanswer)
    split at hstep
    · cases hstep
      exact h
    · rename_i st hst
      have hold := h.peers peer st hst
      cases hstep
      exact h.put_peer ⟨Nat.max_lt.mpr ⟨hold.1, hack.1⟩, hold.2.max hack.2⟩

theorem Inv.step {op : EcOp} (hok : InOrder cfg sys op)
    (hstep : ec_step cfg sys op = some (u, sys')) : sys'.Inv := by
  cases op with
  | propose c =>
    unfold ec_step at hstep
    dsimp only at hstep
    split at hstep
    · cases hstep
      exact { h with }
    · cases hstep
      exact h
  | reserve c now =>
    unfold ec_step at hstep
    dsimp only at hstep
    split_ifs at hstep
    cases hstep
    exact h.reserve c now
  | write_row seq =>
    obtain ⟨call, hin, heq⟩ := map_eq_some_iff.mp hstep
    obtain ⟨hcall, hphase⟩ := call_in_eq_some.mp hin
    cases heq
    refine h.set_phase hcall (by rw [hphase]; decide) .written sys.machine _ rfl rfl
      (fun s hs => get_insert_of_ne _ _ hs) (fun _ _ => get_insert_self _ _ _)
  | write_fails seq =>
    obtain ⟨call, hin, heq⟩ := map_eq_some_iff.mp hstep
    obtain ⟨hcall, hphase⟩ := call_in_eq_some.mp hin
    cases heq
    refine h.set_phase hcall (by rw [hphase]; decide) .failed sys.machine sys.log rfl rfl
      (fun _ _ => rfl) (fun hf => ?_)
    rcases hf with hf | hf
    · cases hf
    · cases hf
  | apply_local seq =>
    obtain ⟨call, hin, heq⟩ := map_eq_some_iff.mp hstep
    obtain ⟨hcall, hphase⟩ := call_in_eq_some.mp hin
    have hrow := h.rows seq call hcall (.inl hphase)
    have hne : call.phase ≠ .failed := by rw [hphase]; decide
    split at heq
    · cases heq
      exact h.set_phase hcall hne .applied _ sys.log rfl rfl (fun _ _ => rfl) (fun _ => hrow)
    · cases heq
      exact h.set_phase hcall hne .failed sys.machine sys.log rfl rfl (fun _ _ => rfl)
        (fun _ => hrow)
  | remove_entry seq =>
    obtain ⟨call, hin, heq⟩ := map_eq_some_iff.mp hstep
    obtain ⟨hcall, hphase⟩ := call_in_eq_some.mp hin
    cases heq
    exact h.remove_entry hcall hphase
  | load_bounds =>
    cases hstep
    exact { h with bounds := ⟨Nat.le_refl _, Nat.le_refl _⟩ }
  | read_rows =>
    cases hstep
    exact h.read_rows hok
  | plan peer => exact h.plan_step hstep
  | spawn_snapshot => exact h.spawn_snapshot_step hstep
  | read_snapshot task => exact h.read_snapshot_step hok hstep
  | compact peers =>
    unfold ec_step at hstep
    dsimp only at hstep
    split_ifs at hstep
    · cases hstep
      exact h.compact _
    · cases hstep
      exact h
  | deliver request =>
    obtain ⟨req, hreq, heq⟩ := map_eq_some_iff.mp hstep
    cases heq
    exact h.deliver cfg (mem_of_getElem? hreq) (hok req hreq)
  | acked answer => exact h.acked_step hstep
  | failed peer =>
    unfold ec_step at hstep
    dsimp only at hstep
    split at hstep
    · cases hstep
      exact h
    · rename_i st hst
      have hold := h.peers peer st hst
      cases hstep
      exact h.put_peer hold

/-- Up to the number a peer has acknowledged, it has every write that a caller was told of. -/
def NothingLost (sys : EcSystem) : Prop :=
  ∀ peer st s call, sys.ec_peer_state.get peer = some st → s ≤ st.acked_seq →
    sys.calls.get s = some call → call.phase = .applied → sys.Covered peer s

theorem Inv.nothingLost : sys.NothingLost := by
  intro peer st s call hst hs hcall hphase
  rcases (h.peers peer st hst).2 s hs with hv | hc
  · have hfailed := hv call hcall
    rw [hphase] at hfailed
    cases hfailed
  · exact hc

omit h

/-- Every peer decodes everything; nothing is old enough to be compacted for its age. -/
def plain_config : EcConfig := ⟨.unreadable, fun _ _ => true, 10000⟩

/-- Two calls that take their numbers before either has a row. -/
def two_calls : List EcOp :=
  [.propose (.SetMetadata "/t/a" [1]), .propose (.SetMetadata "/t/b" [2]),
    .reserve (.SetMetadata "/t/a" [1]) 5, .reserve (.SetMetadata "/t/b" [2]) 5]

/-- A drain pass for peer 7 up to the answer of the first request. -/
def drain_to_peer : List EcOp := [.load_bounds, .read_rows, .plan 7, .deliver 0, .acked 0]

theorem readable_plain (req : EcRequest) : Readable plain_config req := by
  cases req with
  | entries peer batch => exact fun _ _ => rfl
  | snapshot peer covering_seq commands taken => exact all_eq_true.mpr fun _ _ => rfl

-- A snapshot loses a write the same way: number 2 is covered while it is not applied yet.
example : (run (ec_step { plain_config with retention := 1 }) (.new .fresh fun _ => .fresh)
    (two_calls ++ [.write_row 1, .write_row 2, .apply_local 1, .compact [], .plan 7, .plan 7,
      .spawn_snapshot, .read_snapshot 0, .deliver 0, .acked 0, .apply_local 2])).any
    (fun p => decide ((p.2.peer_state 7).acked_seq = 2 ∧
      (p.2.calls.get 2).map Call.phase = some .applied ∧
      (p.2.replicas 7).applied = [] ∧ (p.2.replicas 7).snapshots = [[1]])) = true := by
  decide +kernel

end EcSystem

end NexusVfs
