/-
The agent registry: `kernel/src/core/agents/registry.rs`.

A method holds the guard of a map entry for one critical section at a time, so a thread
is the list of the sections it has still to run, and a run picks a thread and runs its
next section. A registry call made by a callback is a thread of its own, which allows
more runs than the code has. Identities of records are numbers, handed out in order, for
the addresses of their `Arc`s.
-/
import NexusVfs.Table
import NexusVfs.Runs

namespace NexusVfs.Agents

open Runs

/-! ## Data -/

inductive AgentState where
  | Registered
  | WarmingUp
  | Ready
  | Busy
  | AwaitingInput
  | Terminated
  deriving DecidableEq, Repr

def AgentState.is_terminal (state : AgentState) : Bool := state == .Terminated

def AgentState.can_transition_to : AgentState → AgentState → Bool
  | .Registered, next => next == .WarmingUp || next == .Terminated
  | .WarmingUp, next => next == .Ready || next == .Terminated
  | .Ready, next => next == .Busy || next == .Terminated
  | .Busy, next => next == .Ready || next == .AwaitingInput || next == .Terminated
  | .AwaitingInput, next => next == .Busy || next == .Ready || next == .Terminated
  | .Terminated, _ => false

inductive AgentKind where
  | Worker
  | Daemon
  | Unmanaged
  | Managed
  deriving DecidableEq, Repr

inductive AgentSignal where
  | Sigterm
  | Sigkill
  | Sigusr1
  deriving DecidableEq, Repr

structure ExternalProcessInfo where
  connection_id : String
  last_heartbeat_ms : Option ℕ

/-- The fields that the registry itself reads or changes after a spawn. -/
structure AgentDescriptor where
  pid : String
  kind : AgentKind
  parent_pid : Option String
  state : AgentState
  exit_code : Option ℤ
  children : List String
  updated_at_ms : ℕ
  last_heartbeat_ms : Option ℕ
  external_info : Option ExternalProcessInfo
  labels : Table String String
  reason : Option String

inductive AgentError where
  | NotFound (pid : String)
  | AlreadyExists (pid : String)
  | InvalidTransition (pid : String) (source target : AgentState)
  | InvalidKind (message : String)
  | PidExhausted
  | Protocol (message : String)
  deriving DecidableEq, Repr

structure AgentInstance where
  pid : String
  identity : ℕ
  deriving DecidableEq, Repr

structure AgentRecord where
  descriptor : AgentDescriptor
  identity : ℕ
  callbacks_running : Bool
  removing : Bool
  managed_host_bound : Bool

def AgentRecord.is (record : AgentRecord) (inst : AgentInstance) : Bool :=
  record.identity == inst.identity

def AgentRecord.instance_of (record : AgentRecord) : AgentInstance :=
  ⟨record.descriptor.pid, record.identity⟩

/-- `expected.is_some_and(|instance| !entry.matches(instance))` -/
def AgentRecord.differs (record : AgentRecord) : Option AgentInstance → Bool
  | none => false
  | some inst => !record.is inst

/-- A callback is the number of the closure that was registered. -/
structure AgentRegistry where
  agents : Table String AgentRecord
  on_terminate : List (String × ℕ)
  next_identity : ℕ

def AgentRegistry.new : AgentRegistry := ⟨∅, [], 0⟩

/-! ## Critical sections -/

inductive Answer where
  | bool (b : Bool)
  | instance_of (inst : Option AgentInstance)
  | descriptor (d : AgentDescriptor)
  | option (d : Option AgentDescriptor)
  | unit
  | error (e : AgentError)

/-- What a caller makes of the descriptor that a removal or a kill may find. -/
inductive Report where
  | silent
  | found
  | refreshed
  | option
  | bool
  | unit

/-- The rest of a method, from a critical section on. `callbacks` stands for the calls that are
left of `fire_on_terminate` and the section after them; `unlink` and `remove_if` are the two later
sections of `remove_instance`. -/
inductive Section where
  | register_on_terminate (id : String) (callback : ℕ)
  | register (desc : AgentDescriptor)
  | register_instance (desc : AgentDescriptor)
  | spawn (kind : AgentKind) (parent_pid pid : Option String)
      (external_info : Option ExternalProcessInfo) (labels : Table String String)
  | spawn_pid (desc : AgentDescriptor) (pid : Option String) (attempts : ℕ)
  | spawn_link (desc : AgentDescriptor) (parent_pid : String)
  | remove_instance (pid : String) (expected : Option AgentInstance) (reap : Bool) (report : Report)
  | unlink (inst : AgentInstance) (parent_pid : String) (reap : Bool) (desc : AgentDescriptor)
      (report : Report)
  | remove_if (inst : AgentInstance) (reap : Bool) (desc : AgentDescriptor) (report : Report)
  | bind_managed_host (inst : AgentInstance)
  | update_instance_state_with_reason (pid : String) (expected : Option AgentInstance)
      (new_state : AgentState) (reason : Option String)
  | update_state_with_exit (pid : String) (new_state : AgentState) (exit_code : ℤ)
  | heartbeat_inner (pid : String) (expected : Option AgentInstance) (report : Report)
  | signal_usr1 (pid : String) (expected : Option AgentInstance)
      (payload : Option (List (String × String))) (report : Report)
  | kill_instance_inner (pid : String) (expected : Option AgentInstance) (exit_code : ℤ)
      (force_reap : Bool) (report : Report)
  | unregister_external (pid : String)
  | unregister_external_instance (inst : AgentInstance) (report : Report)
  | close_all (instances : List AgentInstance)
  | fire_on_terminate (inst : AgentInstance)
  | callbacks (inst : AgentInstance) (left : List (String × ℕ))
  | answer (a : Answer)

/-- What a section takes from outside: the clock, a random pid, and the next entry an iteration
over the map comes to. -/
structure Input where
  now : ℕ
  candidate : String
  visited : Option String

def Report.sections (report : Report) (pid : String) (d : Option AgentDescriptor) : List Section :=
  match report with
  | .silent => []
  | .found =>
    match d with
    | some d => [.answer (.descriptor d)]
    | none => [.answer (.error (.NotFound pid))]
  | .refreshed =>
    match d with
    | some _ => [.answer (.bool true)]
    | none => [.answer (.error (.NotFound pid))]
  | .option => [.answer (.option d)]
  | .bool => [.answer (.bool d.isSome)]
  | .unit => [.answer .unit]

namespace AgentRegistry

def put (r : AgentRegistry) (pid : String) (record : AgentRecord) : AgentRegistry :=
  { r with agents := r.agents.insert pid record }

def register_on_terminate (r : AgentRegistry) (id : String) (callback : ℕ) : AgentRegistry :=
  if id ∈ r.on_terminate.map Prod.fst then
    { r with on_terminate :=
        r.on_terminate.map fun slot => if slot.1 = id then (slot.1, callback) else slot }
  else { r with on_terminate := r.on_terminate ++ [(id, callback)] }

def register_instance (r : AgentRegistry) (desc : AgentDescriptor) :
    Option AgentInstance × AgentRegistry :=
  match r.agents.get desc.pid with
  | some _ => (none, r)
  | none =>
    let record : AgentRecord :=
      { descriptor := desc
        identity := r.next_identity
        callbacks_running := false
        removing := false
        managed_host_bound := false }
    (some record.instance_of,
      { r.put desc.pid record with next_identity := r.next_identity + 1 })

/-- The check of the parent, and the descriptor that is then built. -/
def spawn (r : AgentRegistry) (now : ℕ) (kind : AgentKind) (parent_pid pid : Option String)
    (external_info : Option ExternalProcessInfo) (labels : Table String String) : List Section :=
  let desc : AgentDescriptor :=
    { pid := "", kind, parent_pid, state := .Registered, exit_code := none, children := []
      updated_at_ms := now, last_heartbeat_ms := none, external_info, labels, reason := none }
  match parent_pid with
  | none => [.spawn_pid desc pid 100]
  | some ppid =>
    if (r.agents.get ppid).isSome then [.spawn_pid desc pid 100]
    else [.answer (.error (.NotFound ("parent not found: " ++ ppid)))]

/-- After the pid is taken: `parent.children.push` if there is a parent. -/
def spawned (desc : AgentDescriptor) : List Section :=
  match desc.parent_pid with
  | none => [.answer (.descriptor desc)]
  | some ppid => [.spawn_link desc ppid]

/-- One attempt to take a pid: the given one, or a random one of at most 100. -/
def spawn_pid (r : AgentRegistry) (candidate : String) (desc : AgentDescriptor) (pid : Option String)
    (attempts : ℕ) : List Section × AgentRegistry :=
  match pid with
  | some p =>
    match r.register_instance { desc with pid := p } with
    | (some _, r) => (spawned { desc with pid := p }, r)
    | (none, r) => ([.answer (.error (.AlreadyExists p))], r)
  | none =>
    match attempts with
    | 0 => ([.answer (.error .PidExhausted)], r)
    | attempts + 1 =>
      match r.register_instance { desc with pid := candidate } with
      | (some _, r) => (spawned { desc with pid := candidate }, r)
      | (none, r) => ([.spawn_pid { desc with pid := candidate } none attempts], r)

def spawn_link (r : AgentRegistry) (desc : AgentDescriptor) (parent_pid : String) : AgentRegistry :=
  match r.agents.get parent_pid with
  | none => r
  | some parent =>
    r.put parent_pid { parent with descriptor := { parent.descriptor with
      children := parent.descriptor.children ++ [desc.pid]
      updated_at_ms := desc.updated_at_ms } }

/-- The first section of `remove_instance`: the pid stays occupied until the last one. -/
def remove_instance (r : AgentRegistry) (pid : String) (expected : Option AgentInstance) (reap : Bool)
    (report : Report) : List Section × AgentRegistry :=
  match r.agents.get pid with
  | none => (report.sections pid none, r)
  | some entry =>
    if entry.callbacks_running || entry.removing || entry.differs expected then
      (report.sections pid none, r)
    else
      let inst := entry.instance_of
      let desc := entry.descriptor
      let next : Section :=
        match reap, desc.parent_pid with
        | true, some ppid => .unlink inst ppid reap desc report
        | _, _ => .remove_if inst reap desc report
      ([next], r.put pid { entry with removing := true })

def unlink (r : AgentRegistry) (now : ℕ) (inst : AgentInstance) (parent_pid : String) : AgentRegistry :=
  match r.agents.get parent_pid with
  | none => r
  | some parent =>
    r.put parent_pid { parent with descriptor := { parent.descriptor with
      children := parent.descriptor.children.filter fun c => c != inst.pid
      updated_at_ms := now } }

def remove_if (r : AgentRegistry) (inst : AgentInstance) : AgentRegistry :=
  match r.agents.get inst.pid with
  | none => r
  | some record => if record.is inst then { r with agents := r.agents.remove inst.pid } else r

/-- The last section of `finish_state_change`. -/
def callbacks_done (r : AgentRegistry) (inst : AgentInstance) : AgentRegistry :=
  match r.agents.get inst.pid with
  | none => r
  | some entry => if entry.is inst then r.put inst.pid { entry with callbacks_running := false } else r

/-- `finish_state_change` up to its last section. -/
def finish_state_change (inst : AgentInstance) (terminated : Bool) : List Section :=
  if terminated then [.fire_on_terminate inst] else []

def bind_managed_host (r : AgentRegistry) (inst : AgentInstance) : Bool × AgentRegistry :=
  match r.agents.get inst.pid with
  | none => (false, r)
  | some record =>
    if record.removing || !record.is inst || record.descriptor.kind != .Managed ||
        record.descriptor.state.is_terminal then (false, r)
    else (true, r.put inst.pid { record with managed_host_bound := true })

def update_instance_state_with_reason (r : AgentRegistry) (now : ℕ) (pid : String)
    (expected : Option AgentInstance) (new_state : AgentState) (reason : Option String) :
    List Section × AgentRegistry :=
  match r.agents.get pid with
  | none => ([.answer (.bool false)], r)
  | some entry =>
    if entry.removing || entry.differs expected then ([.answer (.bool false)], r)
    else
      let source := entry.descriptor.state
      let effective_reason := if new_state = .AwaitingInput then reason else none
      if source = new_state then
        ([.answer (.bool true)],
          r.put pid { entry with descriptor := { entry.descriptor with reason := effective_reason } })
      else if !source.can_transition_to new_state then
        ([.answer (.error (.InvalidTransition pid source new_state))], r)
      else
        let terminated := new_state == .Terminated && source != .Terminated
        (finish_state_change entry.instance_of terminated ++ [.answer (.bool true)],
          r.put pid { entry with
            descriptor := { entry.descriptor with
              state := new_state, reason := effective_reason, updated_at_ms := now }
            callbacks_running := if terminated then true else entry.callbacks_running })

def update_state_with_exit (r : AgentRegistry) (now : ℕ) (pid : String) (new_state : AgentState)
    (exit_code : ℤ) : List Section × AgentRegistry :=
  match r.agents.get pid with
  | none => ([.answer (.bool false)], r)
  | some entry =>
    if entry.removing then ([.answer (.bool false)], r)
    else
      let source := entry.descriptor.state
      if source != new_state && !source.can_transition_to new_state then
        ([.answer (.error (.InvalidTransition pid source new_state))], r)
      else
        let terminated := new_state == .Terminated && source != .Terminated
        (finish_state_change entry.instance_of terminated ++ [.answer (.bool true)],
          r.put pid { entry with
            descriptor := { entry.descriptor with
              state := new_state, exit_code := some exit_code, reason := none, updated_at_ms := now }
            callbacks_running := if terminated then true else entry.callbacks_running })

def heartbeat_inner (r : AgentRegistry) (now : ℕ) (pid : String) (expected : Option AgentInstance)
    (report : Report) : List Section × AgentRegistry :=
  match r.agents.get pid with
  | none => (report.sections pid none, r)
  | some entry =>
    if entry.removing || entry.differs expected then (report.sections pid none, r)
    else if entry.descriptor.kind != .Unmanaged then
      ([.answer (.error (.InvalidKind ("heartbeat only for unmanaged processes: " ++ pid)))], r)
    else
      match entry.descriptor.external_info with
      | none => ([.answer (.error (.Protocol ("missing external_info: " ++ pid)))], r)
      | some info =>
        let desc := { entry.descriptor with
          last_heartbeat_ms := some now
          external_info := some { info with last_heartbeat_ms := some now }
          updated_at_ms := now }
        (report.sections pid (some desc), r.put pid { entry with descriptor := desc })

/-- The branch of `signal_inner` for `Sigusr1`. -/
def signal_usr1 (r : AgentRegistry) (now : ℕ) (pid : String) (expected : Option AgentInstance)
    (payload : Option (List (String × String))) (report : Report) : List Section × AgentRegistry :=
  match r.agents.get pid with
  | none => (report.sections pid none, r)
  | some entry =>
    if entry.removing || entry.differs expected then (report.sections pid none, r)
    else
      let desc :=
        match payload with
        | none => entry.descriptor
        | some p => { entry.descriptor with
            labels := p.foldl (fun labels row => labels.insert row.1 row.2) entry.descriptor.labels
            updated_at_ms := now }
      (finish_state_change entry.instance_of false ++ report.sections pid (some desc),
        r.put pid { entry with descriptor := desc })

def kill_instance_inner (r : AgentRegistry) (now : ℕ) (pid : String) (expected : Option AgentInstance)
    (exit_code : ℤ) (force_reap : Bool) (report : Report) : List Section × AgentRegistry :=
  match r.agents.get pid with
  | none => (report.sections pid none, r)
  | some entry =>
    if entry.removing || entry.differs expected then (report.sections pid none, r)
    else
      let terminated := entry.descriptor.state != .Terminated
      let updated :=
        if terminated then { entry.descriptor with
          state := .Terminated, exit_code := some exit_code, reason := none, updated_at_ms := now }
        else entry.descriptor
      let entry := { entry with
        descriptor := updated
        callbacks_running := if terminated then true else entry.callbacks_running }
      let reaping : List Section :=
        if force_reap || (terminated && updated.parent_pid.isNone) then
          [.remove_instance pid (some entry.instance_of) true .silent]
        else []
      (finish_state_change entry.instance_of terminated ++ reaping ++ report.sections pid (some updated),
        r.put pid entry)

/-- `unregister_external`, up to the instance it captures. -/
def unregister_external (r : AgentRegistry) (pid : String) : List Section :=
  match r.agents.get pid with
  | none => [.answer (.error (.NotFound pid))]
  | some record =>
    if record.removing then [.answer (.error (.NotFound pid))]
    else [.unregister_external_instance record.instance_of .unit]

def unregister_external_instance (r : AgentRegistry) (inst : AgentInstance) (report : Report) :
    List Section :=
  match r.agents.get inst.pid with
  | none => report.sections inst.pid none
  | some entry =>
    if entry.removing || !entry.is inst then report.sections inst.pid none
    else if entry.descriptor.kind != .Unmanaged then
      [.answer (.error (.InvalidKind ("unregister_external only for unmanaged processes: " ++ inst.pid)))]
    else [.kill_instance_inner inst.pid (some inst) 0 true report]

/-- `close_all` first collects the instances, one entry of the map after another, and then kills
them. -/
def close_all (r : AgentRegistry) (visited : Option String) (instances : List AgentInstance) :
    List Section :=
  match visited with
  | none =>
    instances.map (fun inst => .kill_instance_inner inst.pid (some inst) 0 true .silent) ++ [.answer .unit]
  | some pid =>
    match r.agents.get pid with
    | none => [.close_all instances]
    | some record => [.close_all (instances ++ [record.instance_of])]

/-- Runs one section: what is left of it, and the registry after it. -/
def exec (r : AgentRegistry) (input : Input) : Section → List Section × AgentRegistry
  | .register_on_terminate id callback => ([.answer .unit], r.register_on_terminate id callback)
  | .register desc =>
    ([.answer (.bool (r.register_instance desc).1.isSome)], (r.register_instance desc).2)
  | .register_instance desc =>
    ([.answer (.instance_of (r.register_instance desc).1)], (r.register_instance desc).2)
  | .spawn kind parent_pid pid external_info labels =>
    (r.spawn input.now kind parent_pid pid external_info labels, r)
  | .spawn_pid desc pid attempts => r.spawn_pid input.candidate desc pid attempts
  | .spawn_link desc parent_pid => ([.answer (.descriptor desc)], r.spawn_link desc parent_pid)
  | .remove_instance pid expected reap report => r.remove_instance pid expected reap report
  | .unlink inst parent_pid reap desc report =>
    ([.remove_if inst reap desc report], r.unlink input.now inst parent_pid)
  | .remove_if inst _ desc report => (report.sections inst.pid (some desc), r.remove_if inst)
  | .bind_managed_host inst =>
    ([.answer (.bool (r.bind_managed_host inst).1)], (r.bind_managed_host inst).2)
  | .update_instance_state_with_reason pid expected new_state reason =>
    r.update_instance_state_with_reason input.now pid expected new_state reason
  | .update_state_with_exit pid new_state exit_code =>
    r.update_state_with_exit input.now pid new_state exit_code
  | .heartbeat_inner pid expected report => r.heartbeat_inner input.now pid expected report
  | .signal_usr1 pid expected payload report => r.signal_usr1 input.now pid expected payload report
  | .kill_instance_inner pid expected exit_code force_reap report =>
    r.kill_instance_inner input.now pid expected exit_code force_reap report
  | .unregister_external pid => (r.unregister_external pid, r)
  | .unregister_external_instance inst report => (r.unregister_external_instance inst report, r)
  | .close_all instances => (r.close_all input.visited instances, r)
  | .fire_on_terminate inst => ([.callbacks inst r.on_terminate], r)
  | .callbacks inst (_ :: left) => ([.callbacks inst left], r)
  | .callbacks inst [] => ([], r.callbacks_done inst)
  | .answer _ => ([], r)

end AgentRegistry

/-! ## Methods -/

inductive Call where
  | register_on_terminate (id : String) (callback : ℕ)
  | register (desc : AgentDescriptor)
  | register_instance (desc : AgentDescriptor)
  | spawn (kind : AgentKind) (parent_pid pid : Option String)
      (external_info : Option ExternalProcessInfo) (labels : Table String String)
  | unregister (pid : String)
  | unregister_instance (inst : AgentInstance)
  | reap (pid : String)
  | bind_managed_host (inst : AgentInstance)
  | update_state_with_reason (pid : String) (new_state : AgentState) (reason : Option String)
  | update_instance_state (inst : AgentInstance) (new_state : AgentState) (reason : Option String)
  | update_state (pid : String) (new_state : AgentState)
  | update_state_with_exit (pid : String) (new_state : AgentState) (exit_code : ℤ)
  | heartbeat (pid : String)
  | heartbeat_instance (inst : AgentInstance)
  | signal (pid : String) (sig : AgentSignal) (payload : Option (List (String × String)))
  | signal_instance (inst : AgentInstance) (sig : AgentSignal)
      (payload : Option (List (String × String)))
  | kill (pid : String) (exit_code : ℤ)
  | kill_instance (inst : AgentInstance) (exit_code : ℤ)
  | unregister_external (pid : String)
  | unregister_external_instance (inst : AgentInstance)
  | close_all

def signal_inner (pid : String) (expected : Option AgentInstance) (sig : AgentSignal)
    (payload : Option (List (String × String))) (report : Report) : Section :=
  match sig with
  | .Sigterm => .kill_instance_inner pid expected 0 false report
  | .Sigkill => .kill_instance_inner pid expected (-9) true report
  | .Sigusr1 => .signal_usr1 pid expected payload report

def Call.enter : Call → Section
  | .register_on_terminate id callback => .register_on_terminate id callback
  | .register desc => .register desc
  | .register_instance desc => .register_instance desc
  | .spawn kind parent_pid pid external_info labels => .spawn kind parent_pid pid external_info labels
  | .unregister pid => .remove_instance pid none false .option
  | .unregister_instance inst => .remove_instance inst.pid (some inst) false .option
  | .reap pid => .remove_instance pid none true .bool
  | .bind_managed_host inst => .bind_managed_host inst
  | .update_state_with_reason pid new_state reason =>
    .update_instance_state_with_reason pid none new_state reason
  | .update_instance_state inst new_state reason =>
    .update_instance_state_with_reason inst.pid (some inst) new_state reason
  | .update_state pid new_state => .update_instance_state_with_reason pid none new_state none
  | .update_state_with_exit pid new_state exit_code => .update_state_with_exit pid new_state exit_code
  | .heartbeat pid => .heartbeat_inner pid none .refreshed
  | .heartbeat_instance inst => .heartbeat_inner inst.pid (some inst) .option
  | .signal pid sig payload => signal_inner pid none sig payload .found
  | .signal_instance inst sig payload => signal_inner inst.pid (some inst) sig payload .option
  | .kill pid exit_code => .kill_instance_inner pid none exit_code false .found
  | .kill_instance inst exit_code => .kill_instance_inner inst.pid (some inst) exit_code false .option
  | .unregister_external pid => .unregister_external pid
  | .unregister_external_instance inst => .unregister_external_instance inst .bool
  | .close_all => .close_all []

/-! ## The system -/

/-- `ran` lists the callbacks that were run, latest first; no section reads it. -/
structure System where
  registry : AgentRegistry
  threads : List (List Section)
  ran : List (AgentInstance × String)

def System.new : System := ⟨.new, [], []⟩

inductive Event where
  | call (c : Call)
  | advance (thread : ℕ) (input : Input)

def Section.answers : Section → Option Answer
  | .answer a => some a
  | _ => none

def Section.runs : Section → List (AgentInstance × String)
  | .callbacks inst (slot :: _) => [(inst, slot.1)]
  | _ => []

/-- A method is called on a new thread, or a thread runs its next section. -/
def agent_step (s : System) : Event → Option (Option Answer × System)
  | .call c => some (none, { s with threads := s.threads ++ [[c.enter]] })
  | .advance thread input =>
    match s.threads[thread]? with
    | some (sec :: rest) =>
      some (sec.answers,
        { registry := (s.registry.exec input sec).2
          threads := s.threads.set thread ((s.registry.exec input sec).1 ++ rest)
          ran := sec.runs ++ s.ran })
    | _ => none

end NexusVfs.Agents
