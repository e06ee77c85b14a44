/-
An agent's incarnation ends once.

`Effect` says for each critical section what it does to the record, its end and the two
flags that occupy the pid; every invariant is derived from it. The callbacks of an
incarnation that were run, are held by a thread or are yet to be fetched add up to 0
before the terminal transition and to 1 after it. `reap` removes a record without ending
the agent.
-/
import Mathlib.Algebra.BigOperators.Group.List.Basic
import NexusVfs.AgentRegistry

namespace NexusVfs.Agents

open List Runs Table AgentRegistry AgentRecord Section

/-! ## What an incarnation's end depends on -/

def AgentRegistry.view (r : AgentRegistry) (f : AgentRecord → Bool) (inst : AgentInstance) : Bool :=
  match r.agents.get inst.pid with
  | some record => record.is inst && f record
  | none => false

def AgentRecord.alive (record : AgentRecord) : Bool := record.descriptor.state != .Terminated

/-- The section keeps the callbacks of `inst` from being over. -/
def Section.ends (inst : AgentInstance) : Section → Bool
  | .fire_on_terminate i => i == inst
  | .callbacks i _ => i == inst
  | _ => false

def Section.removes (inst : AgentInstance) : Section → Bool
  | .unlink i _ _ _ _ => i == inst
  | .remove_if i _ _ _ => i == inst
  | _ => false

def Section.plain : Section → Bool
  | .fire_on_terminate _ => false
  | .callbacks _ _ => false
  | .unlink _ _ _ _ _ => false
  | .remove_if _ _ _ _ => false
  | _ => true

def Section.reaps_instance : Section → Bool
  | .remove_instance _ (some _) true _ => true
  | _ => false

def Section.tame (sec : Section) : Bool := sec.plain && !sec.reaps_instance

/-- How often the callback `id` will be run for `inst` by a section, if `ids` are registered. -/
def Section.owed (ids : List String) (inst : AgentInstance) (id : String) : Section → ℕ
  | .fire_on_terminate i => if i = inst then ids.count id else 0
  | .callbacks i left => if i = inst then (left.map Prod.fst).count id else 0
  | _ => 0

def AgentRegistry.ids (r : AgentRegistry) : List String := r.on_terminate.map Prod.fst

/-- Callbacks `id` of `inst` that the pending sections will run. -/
def owing (ids : List String) (inst : AgentInstance) (id : String) (pending : List Section) : ℕ :=
  (pending.map (owed ids inst id)).sum

def AgentRegistry.registered (r : AgentRegistry) (desc : AgentDescriptor) : AgentRegistry :=
  { r.put desc.pid ⟨desc, r.next_identity, false, false, false⟩ with
    next_identity := r.next_identity + 1 }

/-! ## Views -/

theorem view_put (r : AgentRegistry) (f : AgentRecord → Bool) (pid : String) (record : AgentRecord)
    (inst : AgentInstance) :
    (r.put pid record).view f inst =
      if inst.pid = pid then record.is inst && f record else r.view f inst := by
  unfold view put
  rw [get_insert]
  by_cases hpid : inst.pid = pid
  · rw [if_pos hpid, if_pos hpid]
  · rw [if_neg hpid, if_neg hpid]

variable {r : AgentRegistry} {f : AgentRecord → Bool} {inst : AgentInstance} {pid : String}
variable {a b : AgentRecord} {s : System} {e : Event} {sec : Section}

theorem view_eq_true :
    r.view f inst = true ↔
      ∃ record, r.agents.get inst.pid = some record ∧ record.identity = inst.identity ∧ f record = true := by
  unfold view
  cases hget : r.agents.get inst.pid with
  | none => simp
  | some record => simp [AgentRecord.is]

variable {record : AgentRecord} {n : Section} {xs : List Section} {s' : System}
variable {answer : Option Answer}

theorem view_of_get (h : r.agents.get pid = some record)
    (f : AgentRecord → Bool) (hpid : inst.pid = pid) :
    r.view f inst = (record.is inst && f record) := by
  unfold view
  rw [hpid, h]

theorem view_self (h : r.agents.get pid = some record) :
    r.view f ⟨pid, record.identity⟩ = f record := by
  rw [view_of_get h f rfl]
  simp [AgentRecord.is]

theorem view_put_of_get (hget : r.agents.get pid = some a) (hidentity : b.identity = a.identity)
    (f : AgentRecord → Bool) (inst : AgentInstance) :
    (r.put pid b).view f inst = if inst = ⟨pid, a.identity⟩ then f b else r.view f inst := by
  obtain ⟨key, identity⟩ := inst
  rw [view_put]
  by_cases hkey : key = pid
  · rw [if_pos hkey, view_of_get hget f hkey]
    simp only [AgentRecord.is, hidentity, AgentInstance.mk.injEq, hkey, true_and]
    by_cases hid : identity = a.identity
    · simp [hid]
    · have hne : (a.identity == identity) = false := beq_eq_false_iff_ne.mpr (Ne.symm hid)
      simp [hid, hne]
  · rw [if_neg hkey, if_neg (fun heq => hkey (AgentInstance.mk.inj heq).1)]

theorem view_put_same (hget : r.agents.get pid = some a) (hidentity : b.identity = a.identity)
    (hf : f b = f a) (inst : AgentInstance) : (r.put pid b).view f inst = r.view f inst := by
  rw [view_put_of_get hget hidentity]
  by_cases hself : inst = ⟨pid, a.identity⟩
  · rw [if_pos hself, hself, view_self hget, hf]
  · rw [if_neg hself]

/-- Two records of one incarnation that differ in nothing its end depends on. -/
structure SameLife (a b : AgentRecord) : Prop where
  pid : a.descriptor.pid = b.descriptor.pid
  identity : a.identity = b.identity
  callbacks_running : a.callbacks_running = b.callbacks_running
  removing : a.removing = b.removing
  alive : a.alive = b.alive

theorem SameLife.refl (a : AgentRecord) : SameLife a a := ⟨rfl, rfl, rfl, rfl, rfl⟩

/-- No incarnation's end depends on where the two differ. -/
structure Quiet (r r' : AgentRegistry) : Prop where
  on_terminate : r'.on_terminate = r.on_terminate
  next_identity : r'.next_identity = r.next_identity
  agents : ∀ pid, Option.Rel SameLife (r.agents.get pid) (r'.agents.get pid)

theorem Quiet.refl (r : AgentRegistry) : Quiet r r := by
  refine ⟨rfl, rfl, fun pid => ?_⟩
  cases r.agents.get pid with
  | none => exact .none
  | some record => exact .some (.refl record)

theorem Quiet.put (hget : r.agents.get pid = some a) (hsame : SameLife a b) :
    Quiet r (r.put pid b) := by
  refine ⟨rfl, rfl, fun key => ?_⟩
  unfold AgentRegistry.put
  rw [get_insert]
  by_cases hkey : key = pid
  · rw [if_pos hkey, hkey, hget]
    exact .some hsame
  · rw [if_neg hkey]
    exact (Quiet.refl r).agents key

theorem Quiet.view {r' : AgentRegistry} (h : Quiet r r') (hf : ∀ a b, SameLife a b → f a = f b)
    (inst : AgentInstance) : r'.view f inst = r.view f inst := by
  have hrel := h.agents inst.pid
  unfold AgentRegistry.view
  revert hrel
  cases r.agents.get inst.pid with
  | none =>
    cases r'.agents.get inst.pid with
    | none => exact fun _ => rfl
    | some b => exact fun hrel => nomatch hrel
  | some a =>
    cases r'.agents.get inst.pid with
    | none => exact fun hrel => nomatch hrel
    | some b =>
      intro hrel
      obtain ⟨hsame⟩ := hrel
      simp only [AgentRecord.is, hsame.identity, hf a b hsame]

theorem Quiet.ids_eq {r' : AgentRegistry} (h : Quiet r r') : r'.ids = r.ids := by
  unfold ids
  rw [h.on_terminate]

/-! ## What a section does -/

/-- A section that is left to run needs no care, or it is the removal at the end of a kill. -/
def Follows (pid : String) (record : AgentRecord) (sec : Section) : Prop :=
  sec.tame = true ∨
    record.alive = false ∧ ∃ report, sec = .remove_instance pid (some record.instance_of) true report

inductive Effect (r : AgentRegistry) : Section → List Section → AgentRegistry → Prop
  | quiet {sec : Section} {next : List Section} {r' : AgentRegistry}
      (hsec : sec.plain = true) (hnext : ∀ n ∈ next, n.tame = true) (hquiet : Quiet r r') :
      Effect r sec next r'
  | rekill {sec : Section} {next : List Section} {pid : String} {record : AgentRecord}
      {r' : AgentRegistry} (hsec : sec.plain = true) (hget : r.agents.get pid = some record)
      (hnext : ∀ n ∈ next, Follows pid record n) (hquiet : Quiet r r') : Effect r sec next r'
  | register {sec : Section} {next : List Section} {desc : AgentDescriptor}
      (hsec : sec.plain = true) (hnext : ∀ n ∈ next, n.tame = true)
      (hfree : r.agents.get desc.pid = none) :
      Effect r sec next (r.registered desc)
  | terminate {sec : Section} {next : List Section} {pid : String} {a b : AgentRecord}
      {inst : AgentInstance} (hinst : inst = a.instance_of) (hsec : sec.plain = true) (hget : r.agents.get pid = some a) (halive : a.alive = true)
      (hstays : a.removing = false) (hpid : b.descriptor.pid = a.descriptor.pid)
      (hidentity : b.identity = a.identity) (hrunning : b.callbacks_running = true)
      (hremoving : b.removing = false) (hended : b.alive = false)
      (hnext : ∀ n ∈ next, Follows pid b n) :
      Effect r sec (.fire_on_terminate inst :: next) (r.put pid b)
  | begin_removal {pid : String} {expected : Option AgentInstance} {reap : Bool} {report : Report}
      {a : AgentRecord} {n : Section} (hget : r.agents.get pid = some a)
      (hidle : a.callbacks_running = false) (hstays : a.removing = false)
      (hexpected : a.differs expected = false)
      (hnext : (∃ parent_pid, n = .unlink a.instance_of parent_pid reap a.descriptor report) ∨
        n = .remove_if a.instance_of reap a.descriptor report) :
      Effect r (.remove_instance pid expected reap report) [n] (r.put pid { a with removing := true })
  | unlink {inst : AgentInstance} {parent_pid : String} {reap : Bool} {desc : AgentDescriptor}
      {report : Report} {r' : AgentRegistry} (hquiet : Quiet r r') :
      Effect r (.unlink inst parent_pid reap desc report) [.remove_if inst reap desc report] r'
  | remove_if {inst : AgentInstance} {reap : Bool} {desc : AgentDescriptor} {report : Report} :
      Effect r (.remove_if inst reap desc report) (report.sections inst.pid (some desc)) (r.remove_if inst)
  | fire {inst : AgentInstance} :
      Effect r (.fire_on_terminate inst) [.callbacks inst r.on_terminate] r
  | callback {inst : AgentInstance} {slot : String × ℕ} {left : List (String × ℕ)} :
      Effect r (.callbacks inst (slot :: left)) [.callbacks inst left] r
  | callbacks_done {inst : AgentInstance} : Effect r (.callbacks inst []) [] (r.callbacks_done inst)
  | register_on_terminate {id : String} {callback : ℕ} :
      Effect r (.register_on_terminate id callback) [.answer .unit] (r.register_on_terminate id callback)

theorem tame_one (h : n.tame = true) : ∀ m ∈ [n], m.tame = true :=
  forall_mem_singleton.mpr h

theorem tame_sections (report : Report) (pid : String) (d : Option AgentDescriptor) :
    ∀ n ∈ report.sections pid d, n.tame = true := by
  cases report with
  | silent => exact fun n hn => nomatch hn
  | found | refreshed => cases d <;> exact tame_one rfl
  | _ => exact tame_one rfl

section Sections

variable (r : AgentRegistry)

/-- A section that looks an agent up and refuses some records does one of two things. -/
theorem lookup_cases {α : Type} {P : α → AgentRegistry → Prop} {pid : String} {refuses : AgentRecord → Bool}
    {refused : α × AgentRegistry} {go : AgentRecord → α × AgentRegistry} (hrefused : P refused.1 refused.2)
    (hgo : ∀ entry, r.agents.get pid = some entry → refuses entry = false → P (go entry).1 (go entry).2) :
    let out := match r.agents.get pid with
      | none => refused
      | some entry => if refuses entry = true then refused else go entry
    P out.1 out.2 := by
  cases hget : r.agents.get pid with
  | none => exact hrefused
  | some entry =>
    dsimp only
    split_ifs with hcase
    · exact hrefused
    · exact hgo entry hget (eq_false_of_ne_true hcase)

theorem register_instance_effect {sec : Section} {next : List Section} (desc : AgentDescriptor)
    (hsec : sec.plain = true) (hnext : ∀ n ∈ next, n.tame = true) :
    Effect r sec next (r.register_instance desc).2 := by
  unfold AgentRegistry.register_instance
  cases hget : r.agents.get desc.pid with
  | some record => exact .quiet hsec hnext (.refl r)
  | none => exact .register hsec hnext hget

theorem tame_spawned (desc : AgentDescriptor) : ∀ n ∈ spawned desc, n.tame = true := by
  unfold spawned
  cases desc.parent_pid <;> exact tame_one rfl

theorem spawn_attempt_effect {sec : Section} (hsec : sec.plain = true) (desc : AgentDescriptor)
    {taken : List Section} (htaken : ∀ n ∈ taken, n.tame = true) :
    let out := match r.register_instance desc with
      | (some _, r') => (spawned desc, r')
      | (none, r') => (taken, r')
    Effect r sec out.1 out.2 := by
  cases hreg : r.register_instance desc with
  | mk inst r' =>
    rw [← show (r.register_instance desc).2 = r' by rw [hreg]]
    cases inst with
    | some inst => exact register_instance_effect r desc hsec (tame_spawned desc)
    | none => exact register_instance_effect r desc hsec htaken

theorem spawn_pid_effect (candidate : String) (desc : AgentDescriptor) (pid : Option String)
    (attempts : ℕ) :
    Effect r (.spawn_pid desc pid attempts) (r.spawn_pid candidate desc pid attempts).1
      (r.spawn_pid candidate desc pid attempts).2 := by
  cases pid with
  | some p => exact spawn_attempt_effect r rfl { desc with pid := p } (tame_one rfl)
  | none =>
    cases attempts with
    | zero => exact .quiet rfl (tame_one rfl) (.refl r)
    | succ attempts => exact spawn_attempt_effect r rfl { desc with pid := candidate } (tame_one rfl)

theorem quiet_spawn_link (desc : AgentDescriptor) (parent_pid : String) :
    Quiet r (r.spawn_link desc parent_pid) := by
  unfold AgentRegistry.spawn_link
  cases hget : r.agents.get parent_pid with
  | none => exact .refl r
  | some parent => exact .put hget ⟨rfl, rfl, rfl, rfl, rfl⟩

theorem quiet_unlink (now : ℕ) (inst : AgentInstance) (parent_pid : String) :
    Quiet r (r.unlink now inst parent_pid) := by
  unfold AgentRegistry.unlink
  cases hget : r.agents.get parent_pid with
  | none => exact .refl r
  | some parent => exact .put hget ⟨rfl, rfl, rfl, rfl, rfl⟩

theorem quiet_bind_managed_host (inst : AgentInstance) : Quiet r (r.bind_managed_host inst).2 := by
  exact lookup_cases r (P := fun _ => Quiet r) (.refl r) fun record hget _ =>
    .put hget ⟨rfl, rfl, rfl, rfl, rfl⟩

theorem remove_instance_effect (pid : String) (expected : Option AgentInstance) (reap : Bool)
    (report : Report) :
    Effect r (.remove_instance pid expected reap report) (r.remove_instance pid expected reap report).1
      (r.remove_instance pid expected reap report).2 := by
  refine lookup_cases r (P := Effect r _)
    (.quiet rfl (tame_sections report pid none) (.refl r)) fun entry hget hgoes => ?_
  simp only [Bool.or_eq_false_iff] at hgoes
  obtain ⟨⟨hidle, hstays⟩, hexpected⟩ := hgoes
  refine .begin_removal hget hidle hstays hexpected ?_
  cases reap with
  | false => exact .inr rfl
  | true =>
    cases entry.descriptor.parent_pid with
    | none => exact .inr rfl
    | some parent_pid => exact .inl ⟨parent_pid, rfl⟩

theorem source_ne_terminated {source target : AgentState}
    (h : source.can_transition_to target = true) : source ≠ .Terminated := by
  rintro rfl
  cases h

/-- Both ways to set a state: to `Terminated` from another one it is the end, else nobody's. -/
theorem set_state_effect {sec : Section} {pid : String} {entry : AgentRecord} {new_state : AgentState}
    (hsec : sec.plain = true) (hget : r.agents.get pid = some entry) (hstays : entry.removing = false)
    (hvalid : entry.descriptor.state = new_state ∨
      entry.descriptor.state.can_transition_to new_state = true)
    (desc : AgentDescriptor) (hpid : desc.pid = entry.descriptor.pid) (hstate : desc.state = new_state)
    (answer : Answer) :
    Effect r sec (AgentRegistry.finish_state_change entry.instance_of
        (new_state == .Terminated && entry.descriptor.state != .Terminated) ++ [.answer answer])
      (r.put pid { entry with
        descriptor := desc
        callbacks_running :=
          if (new_state == .Terminated && entry.descriptor.state != .Terminated) = true then true
          else entry.callbacks_running }) := by
  cases hterminated : (new_state == .Terminated && entry.descriptor.state != .Terminated) with
  | true =>
    obtain ⟨hnew, halive⟩ := (Bool.and_eq_true _ _).mp hterminated
    refine .terminate rfl hsec hget halive hstays hpid rfl rfl hstays ?_ ?_
    · simp [alive, hstate, beq_iff_eq.mp hnew]
    · exact fun n hn => .inl (tame_one rfl n hn)
  | false =>
    refine .quiet hsec (tame_one rfl) (.put hget ⟨hpid.symm, rfl, by simp, rfl, ?_⟩)
    unfold alive
    rw [hstate]
    rcases hvalid with hsame | hmove
    · rw [hsame]
    · -- no transition leaves `Terminated`, and this one does not lead there
      have hsource := source_ne_terminated hmove
      have hnew : new_state ≠ .Terminated := by
        rintro rfl
        simp [hsource] at hterminated
      rw [bne_iff_ne.mpr hsource, bne_iff_ne.mpr hnew]

variable (now : ℕ) (pid : String) (expected : Option AgentInstance)

theorem update_instance_state_effect (new_state : AgentState) (reason : Option String) :
    Effect r (.update_instance_state_with_reason pid expected new_state reason)
      (r.update_instance_state_with_reason now pid expected new_state reason).1
      (r.update_instance_state_with_reason now pid expected new_state reason).2 := by
  refine lookup_cases r (P := Effect r _) (.quiet rfl (tame_one rfl) (.refl r))
    fun entry hget hgoes => ?_
  by_cases hsame : entry.descriptor.state = new_state
  · rw [if_pos hsame]
    exact .quiet rfl (tame_one rfl) (.put hget ⟨rfl, rfl, rfl, rfl, rfl⟩)
  · rw [if_neg hsame]
    cases hmove : entry.descriptor.state.can_transition_to new_state with
    | false => exact .quiet rfl (tame_one rfl) (.refl r)
    | true =>
      exact set_state_effect r rfl hget (Bool.or_eq_false_iff.mp hgoes).1 (.inr hmove)
        { entry.descriptor with
          state := new_state
          reason := if new_state = .AwaitingInput then reason else none
          updated_at_ms := now } rfl rfl _

theorem update_state_with_exit_effect (new_state : AgentState) (exit_code : ℤ) :
    Effect r (.update_state_with_exit pid new_state exit_code)
      (r.update_state_with_exit now pid new_state exit_code).1
      (r.update_state_with_exit now pid new_state exit_code).2 := by
  refine lookup_cases r (P := Effect r _) (.quiet rfl (tame_one rfl) (.refl r))
    fun entry hget hremoving => ?_
  by_cases hinvalid : (entry.descriptor.state != new_state &&
      !entry.descriptor.state.can_transition_to new_state) = true
  · rw [if_pos hinvalid]
    exact .quiet rfl (tame_one rfl) (.refl r)
  · rw [if_neg hinvalid]
    simp only [Bool.and_eq_true, bne_iff_ne, Bool.not_eq_true', not_and_or, not_not,
      Bool.not_eq_false] at hinvalid
    exact set_state_effect r rfl hget hremoving hinvalid { entry.descriptor with
      state := new_state, exit_code := some exit_code, reason := none, updated_at_ms := now } rfl rfl _

theorem heartbeat_effect (report : Report) :
    Effect r (.heartbeat_inner pid expected report) (r.heartbeat_inner now pid expected report).1
      (r.heartbeat_inner now pid expected report).2 := by
  refine lookup_cases r (P := Effect r _)
    (.quiet rfl (tame_sections report pid none) (.refl r)) fun entry hget _ => ?_
  by_cases hkind : (entry.descriptor.kind != .Unmanaged) = true
  · rw [if_pos hkind]
    exact .quiet rfl (tame_one rfl) (.refl r)
  · rw [if_neg hkind]
    cases entry.descriptor.external_info with
    | none => exact .quiet rfl (tame_one rfl) (.refl r)
    | some info => exact .quiet rfl (tame_sections report pid (some _)) (.put hget ⟨rfl, rfl, rfl, rfl, rfl⟩)

theorem signal_usr1_effect (payload : Option (List (String × String))) (report : Report) :
    Effect r (.signal_usr1 pid expected payload report)
      (r.signal_usr1 now pid expected payload report).1
      (r.signal_usr1 now pid expected payload report).2 := by
  refine lookup_cases r (P := Effect r _)
    (.quiet rfl (tame_sections report pid none) (.refl r)) fun entry hget _ => ?_
  refine .quiet rfl (tame_sections report pid (some _)) (.put hget ?_)
  cases payload with
  | none | some p => exact ⟨rfl, rfl, rfl, rfl, rfl⟩

theorem kill_effect (exit_code : ℤ) (force_reap : Bool) (report : Report) :
    Effect r (.kill_instance_inner pid expected exit_code force_reap report)
      (r.kill_instance_inner now pid expected exit_code force_reap report).1
      (r.kill_instance_inner now pid expected exit_code force_reap report).2 := by
  refine lookup_cases r (P := Effect r _)
    (.quiet rfl (tame_sections report pid none) (.refl r)) fun entry hget hgoes => ?_
  rw [Bool.or_eq_false_iff] at hgoes
  have hfollows (record : AgentRecord) (hended : record.alive = false) (reaping : Bool)
      (d : AgentDescriptor) :
      ∀ n ∈ (if reaping = true then
          [remove_instance pid (some record.instance_of) true .silent] else []) ++
        report.sections pid (some d), Follows pid record n := by
    intro n hn
    rcases mem_append.mp hn with hreap | hreport
    · cases reaping with
      | false => cases hreap
      | true =>
        rw [if_pos rfl, mem_singleton] at hreap
        exact .inr ⟨hended, .silent, hreap⟩
    · exact .inl (tame_sections report pid _ n hreport)
  cases hstate : (entry.descriptor.state != .Terminated) with
  | true =>
    exact .terminate (a := entry) rfl rfl hget hstate hgoes.1 rfl rfl rfl hgoes.1 rfl
      (hfollows _ rfl _ _)
  | false =>
    exact .rekill rfl hget (hfollows _ hstate _ _) (.put hget (.refl entry))

theorem tame_unregister_external (pid : String) :
    ∀ n ∈ r.unregister_external pid, n.tame = true := by
  unfold AgentRegistry.unregister_external
  cases r.agents.get pid with
  | none => exact tame_one rfl
  | some record =>
    dsimp only
    split_ifs <;> exact tame_one rfl

theorem tame_unregister_external_instance (inst : AgentInstance) (report : Report) :
    ∀ n ∈ r.unregister_external_instance inst report, n.tame = true := by
  unfold AgentRegistry.unregister_external_instance
  cases r.agents.get inst.pid with
  | none => exact tame_sections report _ _
  | some entry =>
    dsimp only
    split_ifs
    · exact tame_sections report _ _
    · exact tame_one rfl
    · exact tame_one rfl

theorem tame_close_all (visited : Option String) (instances : List AgentInstance) :
    ∀ n ∈ r.close_all visited instances, n.tame = true := by
  unfold AgentRegistry.close_all
  cases visited with
  | none =>
    intro n hn
    rcases mem_append.mp hn with hkill | hanswer
    · obtain ⟨inst, -, rfl⟩ := mem_map.mp hkill
      rfl
    · exact tame_one rfl n hanswer
  | some pid =>
    dsimp only
    cases r.agents.get pid <;> exact tame_one rfl

theorem exec_effect (input : Input) (sec : Section) :
    Effect r sec (r.exec input sec).1 (r.exec input sec).2 := by
  cases sec with
  | register_on_terminate id callback => exact .register_on_terminate
  | register desc | register_instance desc =>
    exact register_instance_effect r desc rfl (tame_one rfl)
  | spawn kind parent_pid pid external_info labels =>
    refine .quiet rfl ?_ (.refl r)
    dsimp only [exec, AgentRegistry.spawn]
    cases parent_pid with
    | none => exact tame_one rfl
    | some ppid =>
      dsimp only
      split_ifs <;> exact tame_one rfl
  | spawn_pid desc pid attempts => exact spawn_pid_effect r input.candidate desc pid attempts
  | spawn_link desc parent_pid => exact .quiet rfl (tame_one rfl) (quiet_spawn_link r desc parent_pid)
  | remove_instance pid expected reap report => exact remove_instance_effect r pid expected reap report
  | unlink inst parent_pid reap desc report => exact .unlink (quiet_unlink r input.now inst parent_pid)
  | remove_if inst reap desc report => exact .remove_if
  | bind_managed_host inst => exact .quiet rfl (tame_one rfl) (quiet_bind_managed_host r inst)
  | update_instance_state_with_reason pid expected new_state reason =>
    exact update_instance_state_effect r input.now pid expected new_state reason
  | update_state_with_exit pid new_state exit_code =>
    exact update_state_with_exit_effect r input.now pid new_state exit_code
  | heartbeat_inner pid expected report => exact heartbeat_effect r input.now pid expected report
  | signal_usr1 pid expected payload report =>
    exact signal_usr1_effect r input.now pid expected payload report
  | kill_instance_inner pid expected exit_code force_reap report =>
    exact kill_effect r input.now pid expected exit_code force_reap report
  | unregister_external pid => exact .quiet rfl (tame_unregister_external r pid) (.refl r)
  | unregister_external_instance inst report =>
    exact .quiet rfl (tame_unregister_external_instance r inst report) (.refl r)
  | close_all instances => exact .quiet rfl (tame_close_all r input.visited instances) (.refl r)
  | fire_on_terminate inst => exact .fire
  | callbacks inst left =>
    cases left with
    | nil => exact .callbacks_done
    | cons slot left => exact .callback
  | answer a =>
    refine .quiet rfl ?_ (.refl r)
    intro n hn
    cases hn

end Sections

/-! ## Counting -/

theorem countP_plain (p : Section → Bool) (hp : ∀ n, n.plain = true → p n = false) {next : List Section}
    (hnext : ∀ n ∈ next, n.plain = true) : next.countP p = 0 := by
  rw [countP_eq_zero]
  intro n hn
  simp [hp n (hnext n hn)]

theorem ends_of_plain (inst : AgentInstance) (n : Section) (h : n.plain = true) :
    n.ends inst = false := by
  cases n <;> first | rfl | cases h

theorem removes_of_plain (inst : AgentInstance) (n : Section) (h : n.plain = true) :
    n.removes inst = false := by
  cases n <;> first | rfl | cases h

theorem owed_of_plain (ids : List String) (inst : AgentInstance) (id : String) (n : Section)
    (h : n.plain = true) : n.owed ids inst id = 0 := by
  cases n <;> first | rfl | cases h

theorem runs_of_plain (n : Section) (h : n.plain = true) : n.runs = [] := by
  cases n <;> first | rfl | cases h

theorem plain_of_tame (h : n.tame = true) : n.plain = true :=
  ((Bool.and_eq_true _ _).mp h).1

theorem plain_of_follows (h : Follows pid record n) : n.plain = true := by
  rcases h with htame | ⟨-, report, rfl⟩
  · exact plain_of_tame htame
  · rfl

section

variable (ids : List String) (inst : AgentInstance) (id : String)

theorem owing_append (xs ys : List Section) :
    owing ids inst id (xs ++ ys) = owing ids inst id xs + owing ids inst id ys := by
  unfold owing
  rw [map_append, sum_append]

theorem owing_cons (sec : Section) (xs : List Section) :
    owing ids inst id (sec :: xs) = sec.owed ids inst id + owing ids inst id xs := by
  unfold owing
  rw [map_cons, sum_cons]

theorem owing_plain (h : ∀ n ∈ xs, n.plain = true) : owing ids inst id xs = 0 := by
  induction xs with
  | nil => rfl
  | cons n xs ih =>
    rw [owing_cons, owed_of_plain ids inst id n (h n mem_cons_self), Nat.zero_add]
    exact ih fun m hm => h m (mem_cons_of_mem n hm)

end

theorem owing_eq_zero (ids : List String) (id : String)
    (h : xs.countP (ends inst) = 0) : owing ids inst id xs = 0 := by
  induction xs with
  | nil => rfl
  | cons n xs ih =>
    rw [countP_cons] at h
    have hxs : xs.countP (ends inst) = 0 := by omega
    rw [owing_cons, ih hxs]
    cases n <;> first | rfl | simp_all [ends, owed]

/-- Two lists of sections that come to the same for every incarnation. -/
structure Balanced (xs ys : List Section) : Prop where
  ends : ∀ inst, xs.countP (ends inst) = ys.countP (ends inst)
  removes : ∀ inst, xs.countP (removes inst) = ys.countP (removes inst)
  owing : ∀ ids inst id, owing ids inst id xs = owing ids inst id ys
  callbacks : ∀ inst left, .callbacks inst left ∈ xs ↔ .callbacks inst left ∈ ys

theorem Balanced.of_perm {ys : List Section} (h : xs.Perm ys) : Balanced xs ys :=
  ⟨fun _ => h.countP_eq _, fun _ => h.countP_eq _,
    fun ids inst id => (h.map (owed ids inst id)).sum_eq, fun _ _ => h.mem_iff⟩

theorem balanced_plain {ys : List Section} (hxs : ∀ n ∈ xs, n.plain = true)
    (hys : ∀ n ∈ ys, n.plain = true) (others : List Section) :
    Balanced (xs ++ others) (ys ++ others) := by
  refine ⟨fun inst => ?_, fun inst => ?_, fun ids inst id => ?_, fun inst left => ?_⟩
  · rw [countP_append, countP_append, countP_plain _ (ends_of_plain inst) hxs,
      countP_plain _ (ends_of_plain inst) hys]
  · rw [countP_append, countP_append, countP_plain _ (removes_of_plain inst) hxs,
      countP_plain _ (removes_of_plain inst) hys]
  · rw [owing_append, owing_append, owing_plain ids inst id hxs, owing_plain ids inst id hys]
  · rw [mem_append, mem_append]
    exact or_congr_left (iff_of_false (fun hin => nomatch hxs _ hin) fun hin => nomatch hys _ hin)

theorem plain_one (h : sec.plain = true) : ∀ n ∈ [sec], n.plain = true :=
  forall_mem_singleton.mpr h

/-! ## The invariant -/

/-- What holds of the registry, the sections that are left to run, and the callbacks that were run. -/
structure Inv (r : AgentRegistry) (pending : List Section) (ran : List (AgentInstance × String)) :
    Prop where
  ids : r.ids.Nodup
  keyed : ∀ pid record, r.agents.get pid = some record →
    record.descriptor.pid = pid ∧ record.identity < r.next_identity
  running : ∀ inst, pending.countP (ends inst) = (r.view callbacks_running inst).toNat
  removing : ∀ inst, pending.countP (removes inst) = (r.view AgentRecord.removing inst).toNat
  apart : ∀ inst, r.view AgentRecord.removing inst = true → r.view callbacks_running inst = false
  calm : ∀ inst, r.view alive inst = true → r.view callbacks_running inst = false
  unheard : ∀ inst id, r.view alive inst = true ∨ r.next_identity ≤ inst.identity →
    (inst, id) ∉ ran
  known : (∀ entry ∈ ran, entry.2 ∈ r.ids) ∧
    ∀ inst left, .callbacks inst left ∈ pending → ∀ slot ∈ left, slot.1 ∈ r.ids
  once : ∀ inst id, ran.count (inst, id) + owing r.ids inst id pending ≤ 1

section Step

variable {r r' : AgentRegistry} {pending pending' : List Section}
  {ran ran' : List (AgentInstance × String)}

variable {inst : AgentInstance} {desc : AgentDescriptor} {id pid : String} {a : AgentRecord}
variable {n : Section} {after before : String → ℕ}

/-- A flag that counts the sections of a kind is set while one is pending. -/
theorem flag_of_mem {p : Section → Bool} {flag : Bool} (hcount : pending.countP p = flag.toNat)
    {sec : Section} (hmem : sec ∈ pending) (hsec : p sec = true) : flag = true := by
  have hpos : 0 < pending.countP p := countP_pos_iff.mpr ⟨sec, hmem, hsec⟩
  rw [hcount] at hpos
  cases flag with
  | true => rfl
  | false => cases hpos

variable (h : Inv r pending ran)
include h

theorem Inv.issued {f : AgentRecord → Bool} (hview : r.view f inst = true) :
    inst.identity < r.next_identity := by
  obtain ⟨record, hget, hidentity, -⟩ := view_eq_true.mp hview
  rw [← hidentity]
  exact (h.keyed inst.pid record hget).2

/-- Where nothing changes that an end depends on, the books only have to balance. -/
theorem Inv.of_quiet (hquiet : Quiet r r')
    (hends : ∀ inst, pending'.countP (ends inst) = pending.countP (ends inst))
    (hremoves : ∀ inst, pending'.countP (removes inst) = pending.countP (removes inst))
    (howed : ∀ inst id, ran'.count (inst, id) + owing r.ids inst id pending' =
      ran.count (inst, id) + owing r.ids inst id pending)
    (hran : ∀ entry ∈ ran', entry ∈ ran ∨ r.view callbacks_running entry.1 = true ∧ entry.2 ∈ r.ids)
    (hknown : ∀ inst left, .callbacks inst left ∈ pending' → ∀ slot ∈ left, slot.1 ∈ r.ids) :
    Inv r' pending' ran' := by
  have hids := hquiet.ids_eq
  have hrunning := hquiet.view (fun a b hsame => hsame.callbacks_running)
  have hremoving := hquiet.view (fun a b hsame => hsame.removing)
  have halive := hquiet.view (fun a b hsame => hsame.alive)
  constructor
  case ids => rw [hids]; exact h.ids
  case keyed =>
    intro pid record hget
    have hrel := hquiet.agents pid
    rw [hget] at hrel
    cases hold : r.agents.get pid with
    | none =>
      rw [hold] at hrel
      cases hrel
    | some a =>
      rw [hold] at hrel
      obtain ⟨hsame⟩ := hrel
      rw [← hsame.pid, ← hsame.identity, hquiet.next_identity]
      exact h.keyed pid a hold
  case running => exact fun inst => by rw [hends, h.running, hrunning]
  case removing => exact fun inst => by rw [hremoves, h.removing, hremoving]
  case apart => exact fun inst => by rw [hremoving, hrunning]; exact h.apart inst
  case calm => exact fun inst => by rw [halive, hrunning]; exact h.calm inst
  case unheard =>
    intro inst id hcase hmem
    rw [halive, hquiet.next_identity] at hcase
    rcases hran _ hmem with hold | ⟨hview, -⟩
    · exact h.unheard inst id hcase hold
    · rcases hcase with hlive | hfresh
      · rw [h.calm inst hlive] at hview
        cases hview
      · exact absurd (h.issued hview) (Nat.not_lt.mpr hfresh)
  case known =>
    rw [hids]
    refine ⟨fun entry hmem => ?_, hknown⟩
    rcases hran entry hmem with hold | ⟨-, hid⟩
    · exact h.known.1 entry hold
    · exact hid
  case once => exact fun inst id => by rw [hids, howed]; exact h.once inst id

variable {sec : Section} {next others : List Section}

theorem Inv.of_balanced (hquiet : Quiet r r')
    (hsame : Balanced pending' pending) : Inv r' pending' ran :=
  h.of_quiet hquiet hsame.ends hsame.removes (fun inst id => by rw [hsame.owing])
    (fun _ hmem => .inl hmem) fun inst left hmem => h.known.2 inst left ((hsame.callbacks inst left).mp hmem)

theorem Inv.perm (hperm : pending.Perm pending') : Inv r pending' ran :=
  h.of_balanced (.refl r) (.of_perm hperm.symm)

omit h in
theorem Inv.of_plain (h : Inv r (sec :: others) ran) (hquiet : Quiet r r') (hsec : sec.plain = true)
    (hnext : ∀ n ∈ next, n.plain = true) : Inv r' (next ++ others) ran :=
  h.of_balanced hquiet (balanced_plain hnext (plain_one hsec) others)

/-- Where the record of one incarnation is added, written back or taken out, its books have to follow
its two flags. -/
theorem Inv.of_views {self : AgentInstance} {v : (AgentRecord → Bool) → Bool}
    (hids : r'.ids = r.ids) (hgrows : r.next_identity ≤ r'.next_identity)
    (hkeyed : ∀ pid record, r'.agents.get pid = some record →
      record.descriptor.pid = pid ∧ record.identity < r'.next_identity)
    (hview : ∀ f inst, r'.view f inst = if inst = self then v f else r.view f inst)
    (hends : pending'.countP (ends self) = (v callbacks_running).toNat)
    (hremoves : pending'.countP (removes self) = (v AgentRecord.removing).toNat)
    (hothers : ∀ inst ≠ self, pending'.countP (ends inst) = pending.countP (ends inst) ∧
      pending'.countP (removes inst) = pending.countP (removes inst))
    (hidle : v AgentRecord.removing = true ∨ v alive = true → v callbacks_running = false)
    (halive : v alive = true → ∀ id, (self, id) ∉ ran)
    (hknown : ∀ inst left, .callbacks inst left ∈ pending' → .callbacks inst left ∈ pending)
    (honce : ∀ inst id, ran.count (inst, id) + owing r.ids inst id pending' ≤ 1) :
    Inv r' pending' ran := by
  constructor
  case ids => rw [hids]; exact h.ids
  case keyed => exact hkeyed
  case running =>
    intro inst
    rw [hview]
    split_ifs with hself
    · rw [hself, hends]
    · rw [(hothers inst hself).1, h.running]
  case removing =>
    intro inst
    rw [hview]
    split_ifs with hself
    · rw [hself, hremoves]
    · rw [(hothers inst hself).2, h.removing]
  case apart =>
    intro inst
    rw [hview, hview]
    split_ifs
    · exact fun hremoving => hidle (.inl hremoving)
    · exact h.apart inst
  case calm =>
    intro inst
    rw [hview, hview]
    split_ifs
    · exact fun hlive => hidle (.inr hlive)
    · exact h.calm inst
  case unheard =>
    rintro inst id (hlive | hfresh)
    · rw [hview] at hlive
      split_ifs at hlive with hself
      · rw [hself]
        exact halive hlive id
      · exact h.unheard inst id (.inl hlive)
    · exact h.unheard inst id (.inr (Nat.le_trans hgrows hfresh))
  case known =>
    rw [hids]
    exact ⟨h.known.1, fun inst left hmem => h.known.2 inst left (hknown inst left hmem)⟩
  case once => rw [hids]; exact honce

omit h in
theorem view_registered (hfree : r.agents.get desc.pid = none) (f : AgentRecord → Bool)
    (inst : AgentInstance) :
    (r.registered desc).view f inst =
      if inst = ⟨desc.pid, r.next_identity⟩ then f ⟨desc, r.next_identity, false, false, false⟩
      else r.view f inst := by
  obtain ⟨pid, identity⟩ := inst
  refine (view_put r f desc.pid _ _).trans ?_
  by_cases hpid : pid = desc.pid
  · simp only [view, AgentRecord.is, AgentInstance.mk.injEq, hpid, hfree, true_and, if_true]
    by_cases hid : identity = r.next_identity
    · simp [hid]
    · simp [hid, Ne.symm hid]
  · rw [if_neg hpid, if_neg (fun heq => hpid (AgentInstance.mk.inj heq).1)]

omit h in
/-- A new incarnation has a number nobody has heard of. -/
theorem Inv.of_register (h : Inv r (sec :: others) ran) (hsec : sec.plain = true)
    (hnext : ∀ n ∈ next, n.plain = true) (hfree : r.agents.get desc.pid = none) :
    Inv (r.registered desc) (next ++ others) ran := by
  have hplain := h.of_plain (Quiet.refl r) hsec hnext
  have hnone (f : AgentRecord → Bool) : r.view f ⟨desc.pid, r.next_identity⟩ = false := by
    unfold view
    rw [hfree]
  refine hplain.of_views rfl (Nat.le_succ _) ?_ (view_registered hfree) ?_ ?_ (fun _ _ => ⟨rfl, rfl⟩)
    (fun _ => rfl) (fun _ id => h.unheard _ id (.inr (Nat.le_refl _))) (fun _ _ hmem => hmem) hplain.once
  · intro pid record hget
    rw [AgentRegistry.registered, put, get_insert] at hget
    split_ifs at hget with hpid
    · cases hget
      exact ⟨hpid.symm, Nat.lt_succ_self _⟩
    · obtain ⟨hkey, hlt⟩ := h.keyed pid record hget
      exact ⟨hkey, Nat.lt_succ_of_lt hlt⟩
  · rw [hplain.running, hnone]
  · rw [hplain.removing, hnone]

theorem Inv.of_put {b : AgentRecord}
    (hget : r.agents.get pid = some a) (hpid : b.descriptor.pid = a.descriptor.pid)
    (hidentity : b.identity = a.identity)
    (hends : pending'.countP (ends ⟨pid, a.identity⟩) = b.callbacks_running.toNat)
    (hremoves : pending'.countP (removes ⟨pid, a.identity⟩) = b.removing.toNat)
    (hothers : ∀ inst ≠ ⟨pid, a.identity⟩,
      pending'.countP (ends inst) = pending.countP (ends inst) ∧
      pending'.countP (removes inst) = pending.countP (removes inst))
    (hidle : b.removing = true ∨ b.alive = true → b.callbacks_running = false)
    (halive : b.alive = true → a.alive = true)
    (hknown : ∀ inst left, .callbacks inst left ∈ pending' → .callbacks inst left ∈ pending)
    (honce : ∀ inst id, ran.count (inst, id) + owing r.ids inst id pending' ≤ 1) :
    Inv (r.put pid b) pending' ran := by
  refine h.of_views rfl (Nat.le_refl _) ?_ (view_put_of_get hget hidentity) hends hremoves hothers hidle
    (fun hlive id => h.unheard _ id (.inl ((view_self hget).trans (halive hlive)))) hknown honce
  intro key record hkey
  rw [put, get_insert] at hkey
  split_ifs at hkey with heq
  · cases hkey
    rw [hpid, hidentity, heq]
    exact h.keyed pid a hget
  · exact h.keyed key record hkey

theorem Inv.instance_of_eq (hget : r.agents.get pid = some a) :
    a.instance_of = ⟨pid, a.identity⟩ := by
  rw [AgentRecord.instance_of, (h.keyed pid a hget).1]

theorem Inv.none_owed (hlive : r.view alive inst = true) : pending.countP (ends inst) = 0 := by
  rw [h.running, h.calm _ hlive]
  rfl

omit h

/-- The terminal transition: nothing was owed before it, every registered callback is after it. -/
theorem Inv.of_terminate (h : Inv r (sec :: others) ran) {b : AgentRecord}
    (hsec : sec.plain = true) (hget : r.agents.get pid = some a) (halive : a.alive = true)
    (hpid : b.descriptor.pid = a.descriptor.pid) (hidentity : b.identity = a.identity)
    (hrunning : b.callbacks_running = true) (hstays : a.removing = false) (hremoving : b.removing = false)
    (hended : b.alive = false) (hnext : ∀ n ∈ next, n.plain = true) :
    Inv (r.put pid b) (.fire_on_terminate a.instance_of :: (next ++ others)) ran := by
  have hplain := h.of_plain (Quiet.refl r) hsec hnext
  have hlive : r.view alive ⟨pid, a.identity⟩ = true := by rw [view_self hget, halive]
  have hzero := hplain.none_owed hlive
  rw [h.instance_of_eq hget]
  refine hplain.of_put hget hpid hidentity ?_ ?_ ?_ ?_ (fun _ => halive) ?_ ?_
  · rw [countP_cons, hzero, hrunning]
    simp [ends]
  · rw [countP_cons, hplain.removing, view_self hget, hstays, hremoving]
    rfl
  · intro inst hinst
    simp [ends, removes, Ne.symm hinst]
  · rintro (hfalse | hfalse)
    · rw [hremoving] at hfalse
      cases hfalse
    · rw [hended] at hfalse
      cases hfalse
  · intro inst left hmem
    rcases mem_cons.mp hmem with heq | hin
    · cases heq
    · exact hin
  · intro inst id
    rw [owing_cons]
    by_cases hinst : inst = ⟨pid, a.identity⟩
    · rw [hinst, count_eq_zero.mpr (h.unheard _ id (.inl hlive)), owing_eq_zero r.ids id hzero]
      simp only [owed, if_true, Nat.zero_add, Nat.add_zero]
      exact nodup_iff_count_le_one.mp h.ids id
    · have hother : owed r.ids inst id (.fire_on_terminate ⟨pid, a.identity⟩) = 0 :=
        if_neg (Ne.symm hinst)
      rw [hother, Nat.zero_add]
      exact hplain.once inst id

/-- From the first section of a removal to the last, the record is marked. -/
theorem Inv.of_begin_removal (h : Inv r (sec :: others) ran) (hsec : sec.plain = true)
    (hget : r.agents.get pid = some a) (hidle : a.callbacks_running = false)
    (hstays : a.removing = false) (hremoves : ∀ inst, n.removes inst = (a.instance_of == inst))
    (hends : ∀ inst, n.ends inst = false) (howed : ∀ inst id, n.owed r.ids inst id = 0)
    (hcallbacks : ∀ inst left, n ≠ .callbacks inst left) :
    Inv (r.put pid { a with removing := true }) (n :: others) ran := by
  have hplain : Inv r ([] ++ others) ran := h.of_plain (Quiet.refl r) hsec (fun n hn => nomatch hn)
  rw [nil_append] at hplain
  have hself := h.instance_of_eq hget
  refine hplain.of_put hget rfl rfl ?_ ?_ ?_ (fun _ => hidle) (fun hlive => hlive) ?_ ?_
  · rw [countP_cons, hends, hplain.running, view_self hget]
    rfl
  · rw [countP_cons, hremoves, hself, hplain.removing, view_self hget, hstays]
    simp
  · intro inst hinst
    simp [hends, hremoves, hself, Ne.symm hinst]
  · intro inst left hmem
    rcases mem_cons.mp hmem with heq | hin
    · exact absurd heq.symm (hcallbacks inst left)
    · exact hin
  · intro inst id
    rw [owing_cons, howed, Nat.zero_add]
    exact hplain.once inst id

variable {reap : Bool} {report : Report} {ids : List String} {new : String}

theorem Inv.remove_if_eq (h : Inv r (.remove_if inst reap desc report :: others) ran) :
    r.view AgentRecord.removing inst = true ∧
      r.remove_if inst = { r with agents := r.agents.remove inst.pid } ∧
      ∀ f inst', (r.remove_if inst).view f inst' = if inst' = inst then false else r.view f inst' := by
  have hmarked : r.view AgentRecord.removing inst = true :=
    flag_of_mem (h.removing _) mem_cons_self (beq_self_eq_true inst)
  obtain ⟨record, hget, hidentity, -⟩ := view_eq_true.mp hmarked
  have hremoved : r.remove_if inst = { r with agents := r.agents.remove inst.pid } := by
    unfold AgentRegistry.remove_if
    rw [hget]
    simp [AgentRecord.is, hidentity]
  refine ⟨hmarked, hremoved, fun f inst' => ?_⟩
  obtain ⟨pid, identity⟩ := inst
  obtain ⟨pid', identity'⟩ := inst'
  unfold view
  rw [hremoved]
  rw [get_remove]
  by_cases hpid : pid' = pid
  · rw [if_pos hpid, hpid, hget]
    simp only [AgentRecord.is, AgentInstance.mk.injEq, true_and]
    by_cases hid : identity' = identity
    · rw [if_pos hid]
    · rw [if_neg hid, hidentity, beq_eq_false_iff_ne.mpr (Ne.symm hid)]
      rfl
  · rw [if_neg hpid, if_neg (fun heq => hpid (AgentInstance.mk.inj heq).1)]

theorem Inv.once_tail (h : Inv r (sec :: others) ran) (inst : AgentInstance) (id : String) :
    ran.count (inst, id) + owing r.ids inst id others ≤ 1 := by
  have honce := h.once inst id
  rw [owing_cons] at honce
  omega

/-- Only the thread that marked a record takes it out. -/
theorem Inv.of_remove_if (h : Inv r (.remove_if inst reap desc report :: others) ran)
    (hnext : ∀ n ∈ next, n.plain = true) : Inv (r.remove_if inst) (next ++ others) ran := by
  obtain ⟨hmarked, hremoved, hview⟩ := h.remove_if_eq
  have hsame := balanced_plain hnext (forall_mem_nil _) others
  refine h.of_views (by rw [hremoved]; rfl) (by rw [hremoved]) ?_ hview ?_ ?_ ?_
    (fun hcase => hcase.elim nofun nofun) nofun ?_ ?_
  · intro key rec hkey
    rw [hremoved] at hkey ⊢
    rw [get_remove] at hkey
    split_ifs at hkey
    exact h.keyed key rec hkey
  · have hcount := h.running inst
    rw [h.apart inst hmarked] at hcount
    exact (hsame.ends inst).trans hcount
  · have hcount := h.removing inst
    rw [countP_cons, hmarked, show removes inst (.remove_if inst reap desc report) = true from
      beq_self_eq_true inst] at hcount
    exact (hsame.removes inst).trans (Nat.succ.inj hcount)
  · intro other hother
    rw [hsame.ends, hsame.removes]
    simp [ends, removes, Ne.symm hother]
  · exact fun other left hmem => mem_cons_of_mem _ ((hsame.callbacks other left).mp hmem)
  · intro other id
    rw [hsame.owing]
    exact h.once_tail other id

theorem Inv.callbacks_done_eq (h : Inv r (.callbacks inst [] :: others) ran) :
    ∃ a, r.agents.get inst.pid = some a ∧ a.identity = inst.identity ∧
      r.callbacks_done inst = r.put inst.pid { a with callbacks_running := false } := by
  have hmarked : r.view callbacks_running inst = true :=
    flag_of_mem (h.running _) mem_cons_self (beq_self_eq_true inst)
  obtain ⟨a, hget, hidentity, -⟩ := view_eq_true.mp hmarked
  refine ⟨a, hget, hidentity, ?_⟩
  unfold AgentRegistry.callbacks_done
  rw [hget]
  simp [AgentRecord.is, hidentity]

theorem Inv.of_callbacks_done (h : Inv r (.callbacks inst [] :: others) ran) :
    Inv (r.callbacks_done inst) others ran := by
  obtain ⟨a, hget, hidentity, hdone⟩ := h.callbacks_done_eq
  have hself : (⟨inst.pid, a.identity⟩ : AgentInstance) = inst := by rw [hidentity]
  have hmarked : r.view callbacks_running inst = true :=
    flag_of_mem (h.running _) mem_cons_self (beq_self_eq_true inst)
  rw [hdone]
  refine h.of_put hget rfl rfl ?_ ?_ ?_ (fun _ => rfl) (fun hlive => hlive)
    (fun _ _ hmem => mem_cons_of_mem _ hmem) h.once_tail
  · have hcount := h.running inst
    rw [countP_cons, hmarked, show ends inst (.callbacks inst []) = true from
      beq_self_eq_true inst] at hcount
    rw [hself]
    exact Nat.succ.inj hcount
  · have hcount := h.removing ⟨inst.pid, a.identity⟩
    rw [view_self hget] at hcount
    exact hcount
  · intro other hother
    rw [hself] at hother
    simp [ends, removes, Ne.symm hother]

/-! ### Registering a callback -/

section

variable (r : AgentRegistry) (id : String) (callback : ℕ)

theorem ids_register_on_terminate :
    (r.register_on_terminate id callback).ids = if id ∈ r.ids then r.ids else r.ids ++ [id] := by
  unfold AgentRegistry.register_on_terminate ids
  split_ifs
  · rw [map_map]
    refine map_congr_left fun slot _ => ?_
    dsimp only [Function.comp]
    split_ifs <;> rfl
  · simp

theorem agents_register_on_terminate :
    (r.register_on_terminate id callback).agents = r.agents ∧
      (r.register_on_terminate id callback).next_identity = r.next_identity := by
  unfold AgentRegistry.register_on_terminate
  split_ifs
  · exact ⟨rfl, rfl⟩
  · exact ⟨rfl, rfl⟩

theorem view_register_on_terminate (f : AgentRecord → Bool) (inst : AgentInstance) :
    (r.register_on_terminate id callback).view f inst = r.view f inst := by
  unfold view
  rw [(agents_register_on_terminate r id callback).1]

end

theorem owing_append_id (hne : id ≠ new) (pending : List Section) :
    owing (ids ++ [new]) inst id pending = owing ids inst id pending := by
  unfold owing
  congr 1
  refine map_congr_left fun n _ => ?_
  cases n <;> first | rfl | simp [owed, count_append, Ne.symm hne]

theorem owing_new_id (hnew : new ∉ ids) {pending : List Section}
    (hknown : ∀ inst left, .callbacks inst left ∈ pending → ∀ slot ∈ left, slot.1 ∈ ids) :
    owing (ids ++ [new]) inst new pending ≤ pending.countP (ends inst) := by
  induction pending with
  | nil => exact Nat.le_refl 0
  | cons n pending ih =>
    rw [owing_cons, countP_cons, Nat.add_comm]
    refine Nat.add_le_add (ih fun i left hmem => hknown i left (mem_cons_of_mem n hmem)) ?_
    have hcount : (ids ++ [new]).count new = 1 := by
      rw [count_append, count_eq_zero.mpr hnew, count_singleton_self]
    cases n with
    | fire_on_terminate i =>
      simp only [owed, ends, hcount, beq_iff_eq]
      exact Nat.le_refl _
    | callbacks i left =>
      have hzero : (left.map Prod.fst).count new = 0 := by
        rw [count_eq_zero]
        intro hmem
        obtain ⟨slot, hslot, heq⟩ := mem_map.mp hmem
        rw [← heq] at hnew
        exact hnew (hknown i left mem_cons_self slot hslot)
      simp only [owed, hzero, ite_self]
      exact Nat.zero_le _
    | _ => exact Nat.zero_le _

theorem Inv.of_register_on_terminate {callback : ℕ}
    (h : Inv r (.register_on_terminate id callback :: others) ran) :
    Inv (r.register_on_terminate id callback) ([.answer .unit] ++ others) ran := by
  have hplain : Inv r ([.answer .unit] ++ others) ran :=
    h.of_plain (Quiet.refl r) rfl fun n hn => plain_of_tame (tame_one rfl n hn)
  obtain ⟨hagents, hnext⟩ := agents_register_on_terminate r id callback
  have hids := ids_register_on_terminate r id callback
  have hview := view_register_on_terminate r id callback
  have hsub (x : String) (hx : x ∈ r.ids) : x ∈ (r.register_on_terminate id callback).ids := by
    rw [hids]
    split_ifs
    · exact hx
    · exact mem_append_left _ hx
  constructor
  case ids =>
    rw [hids]
    split_ifs with hmem
    · exact h.ids
    · rw [nodup_append]
      refine ⟨h.ids, nodup_singleton id, fun x hx y hy heq => ?_⟩
      rw [mem_singleton.mp hy] at heq
      exact hmem (heq ▸ hx)
  case keyed => rw [hagents, hnext]; exact h.keyed
  case running => exact fun inst => by rw [hview]; exact hplain.running inst
  case removing => exact fun inst => by rw [hview]; exact hplain.removing inst
  case apart => exact fun inst => by rw [hview, hview]; exact h.apart inst
  case calm => exact fun inst => by rw [hview, hview]; exact h.calm inst
  case unheard => exact fun inst id => by rw [hview, hnext]; exact h.unheard inst id
  case known =>
    refine ⟨fun entry hmem => hsub _ (h.known.1 entry hmem), fun inst left hmem slot hslot => ?_⟩
    exact hsub _ (hplain.known.2 inst left hmem slot hslot)
  case once =>
    intro inst id'
    rw [hids]
    split_ifs with hmem
    · exact hplain.once inst id'
    · by_cases hnew : id' = id
      · have hran : ran.count (inst, id) = 0 :=
          count_eq_zero.mpr fun hin => hmem (h.known.1 _ hin)
        rw [hnew, hran, Nat.zero_add]
        refine Nat.le_trans (owing_new_id hmem hplain.known.2) ?_
        rw [hplain.running]
        exact Bool.toNat_le _
      · rw [owing_append_id hnew]
        exact hplain.once inst id'

/-! ### Every section -/

theorem callback_moves (ids : List String) {inst' : AgentInstance} {slot : String × ℕ}
    {left : List (String × ℕ)} (others : List Section) (ran : List (AgentInstance × String)) :
    (runs (.callbacks inst (slot :: left)) ++ ran).count (inst', id) +
        owing ids inst' id ([.callbacks inst left] ++ others) =
      ran.count (inst', id) + owing ids inst' id (.callbacks inst (slot :: left) :: others) := by
  rw [singleton_append, owing_cons, owing_cons, runs, singleton_append,
    count_cons, owed, owed]
  by_cases hinst : inst = inst'
  · subst hinst
    rw [map_cons, count_cons]
    by_cases hid : slot.1 = id
    · subst hid
      simp only [beq_self_eq_true, if_true]
      omega
    · have hpair : ((inst, slot.1) == (inst, id)) = false :=
        beq_eq_false_iff_ne.mpr fun heq => hid (Prod.mk.inj heq).2
      rw [hpair, beq_eq_false_iff_ne.mpr hid]
      simp
  · have hpair : ((inst, slot.1) == (inst', id)) = false :=
      beq_eq_false_iff_ne.mpr fun heq => hinst (Prod.mk.inj heq).1
    rw [hpair, if_neg hinst, if_neg hinst]
    simp

theorem Inv.effect (h : Inv r (sec :: others) ran) (heffect : Effect r sec next r') :
    Inv r' (next ++ others) (sec.runs ++ ran) := by
  cases heffect with
  | quiet hsec hnext hquiet =>
    rw [runs_of_plain _ hsec]
    exact h.of_plain hquiet hsec fun n hn => plain_of_tame (hnext n hn)
  | rekill hsec hget hnext hquiet =>
    rw [runs_of_plain _ hsec]
    exact h.of_plain hquiet hsec fun n hn => plain_of_follows (hnext n hn)
  | register hsec hnext hfree =>
    rw [runs_of_plain _ hsec]
    exact h.of_register hsec (fun n hn => plain_of_tame (hnext n hn)) hfree
  | terminate hinst hsec hget halive hstays hpid hidentity hrunning hremoving hended hnext =>
    rw [runs_of_plain _ hsec, hinst]
    exact h.of_terminate hsec hget halive hpid hidentity hrunning hstays hremoving hended
      fun n hn => plain_of_follows (hnext n hn)
  | begin_removal hget hidle hstays hexpected hnext =>
    rcases hnext with ⟨parent_pid, rfl⟩ | rfl
    all_goals
      exact h.of_begin_removal rfl hget hidle hstays (fun _ => rfl) (fun _ => rfl) (fun _ _ => rfl)
        (fun _ _ heq => nomatch heq)
  | unlink hquiet =>
    refine h.of_quiet hquiet (fun _ => rfl) (fun _ => rfl) (fun _ _ => rfl) (fun _ hmem => .inl hmem) ?_
    intro inst left hmem
    rcases mem_cons.mp hmem with heq | hin
    · cases heq
    · exact h.known.2 inst left (mem_cons_of_mem _ hin)
  | remove_if => exact h.of_remove_if fun n hn => plain_of_tame (tame_sections _ _ _ n hn)
  | fire =>
    refine h.of_quiet (Quiet.refl r) (fun _ => rfl) (fun _ => rfl) (fun _ _ => rfl)
      (fun _ hmem => .inl hmem) ?_
    intro inst left hmem slot hslot
    rcases mem_cons.mp hmem with heq | hin
    · cases heq
      exact mem_map_of_mem hslot
    · exact h.known.2 inst left (mem_cons_of_mem _ hin) slot hslot
  | @callback inst slot left =>
    have hrunning := flag_of_mem (h.running _) mem_cons_self
      (show ends inst (.callbacks inst (slot :: left)) = true from beq_self_eq_true inst)
    have hslot := h.known.2 inst _ mem_cons_self slot mem_cons_self
    refine h.of_quiet (Quiet.refl r) (fun _ => rfl) (fun _ => rfl)
      (fun _ _ => callback_moves r.ids others ran) ?_ ?_
    · intro entry hmem
      rcases mem_cons.mp hmem with rfl | hin
      · exact .inr ⟨hrunning, hslot⟩
      · exact .inl hin
    · intro inst' left' hmem slot' hslot'
      rcases mem_cons.mp hmem with heq | hin
      · cases heq
        exact h.known.2 inst _ mem_cons_self slot' (mem_cons_of_mem _ hslot')
      · exact h.known.2 inst' left' (mem_cons_of_mem _ hin) slot' hslot'
  | callbacks_done => exact h.of_callbacks_done
  | register_on_terminate => exact h.of_register_on_terminate

/-! ### What happens to one incarnation -/

def AgentRegistry.present (r : AgentRegistry) (inst : AgentInstance) : Bool := r.view (fun _ => true) inst

/-- Callbacks of `inst` under `id`: those that were run and those that will be. -/
def total (r : AgentRegistry) (pending : List Section) (ran : List (AgentInstance × String))
    (inst : AgentInstance) (id : String) : ℕ :=
  ran.count (inst, id) + owing r.ids inst id pending

/-- A section leaves an incarnation as it was, registers it, ends it, or takes its record out. The
totals before and after it are of callbacks that are registered. -/
inductive Change (r r' : AgentRegistry) (inst : AgentInstance) (before after : String → ℕ) : Prop
  | same (halive : r'.view alive inst = r.view alive inst)
      (hpresent : r'.present inst = r.present inst) (htotal : ∀ id ∈ r.ids, after id = before id)
  | registered (hnew : r.next_identity ≤ inst.identity)
  | ended (halive : r.view alive inst = true)
      (hended : r'.view alive inst = false) (htotal : ∀ id ∈ r.ids, after id = 1)
  | gone (hgone : r'.present inst = false) (htotal : ∀ id ∈ r.ids, after id = before id)

theorem Change.of_view (hview : ∀ f, r'.view f inst = r.view f inst)
    (htotal : ∀ id ∈ r.ids, after id = before id) : Change r r' inst before after :=
  .same (hview _) (hview _) htotal

theorem Change.of_quiet (hquiet : Quiet r r') (htotal : ∀ id ∈ r.ids, after id = before id) :
    Change r r' inst before after :=
  .same (hquiet.view (fun _ _ hsame => hsame.alive) inst) (hquiet.view (fun _ _ _ => rfl) inst) htotal

theorem Change.of_put (hget : r.agents.get pid = some a) (b : AgentRecord)
    (hidentity : b.identity = a.identity) (halive : b.alive = a.alive)
    (htotal : ∀ id ∈ r.ids, after id = before id) : Change r (r.put pid b) inst before after :=
  .same (view_put_same hget hidentity halive inst) (view_put_same hget hidentity rfl inst) htotal

theorem total_plain (hids : r'.ids = r.ids) (hsec : sec.plain = true) (hnext : ∀ n ∈ next, n.plain = true)
    (inst : AgentInstance) (id : String) :
    total r' (next ++ others) (sec.runs ++ ran) inst id = total r (sec :: others) ran inst id := by
  unfold total
  rw [hids, runs_of_plain sec hsec, (balanced_plain hnext (plain_one hsec) others).owing]
  rfl

theorem Inv.change (h : Inv r (sec :: others) ran) (heffect : Effect r sec next r') (inst : AgentInstance) :
    Change r r' inst (total r (sec :: others) ran inst)
      (total r' (next ++ others) (sec.runs ++ ran) inst) := by
  cases heffect with
  | quiet hsec hnext hquiet =>
    refine .of_quiet hquiet fun id _ => total_plain hquiet.ids_eq hsec ?_ inst id
    exact fun n hn => plain_of_tame (hnext n hn)
  | rekill hsec hget hnext hquiet =>
    refine .of_quiet hquiet fun id _ => total_plain hquiet.ids_eq hsec ?_ inst id
    exact fun n hn => plain_of_follows (hnext n hn)
  | @register sec next desc hsec hnext hfree =>
    by_cases hnew : inst = ⟨desc.pid, r.next_identity⟩
    · exact .registered (by rw [hnew])
    · refine .of_view (fun f => by rw [view_registered hfree, if_neg hnew]) fun id _ =>
        total_plain rfl hsec ?_ inst id
      exact fun n hn => plain_of_tame (hnext n hn)
  | @terminate sec next pid a b self hinst hsec hget halive hstays hpid hidentity hrunning hremoving
      hended hnext =>
      have hplain : ∀ n ∈ next, n.plain = true := fun n hn => plain_of_follows (hnext n hn)
      have hview := view_put_of_get hget hidentity
      rw [hinst, h.instance_of_eq hget]
      by_cases hself : inst = ⟨pid, a.identity⟩
      · have hlive : r.view alive inst = true := by rw [hself, view_self hget, halive]
        refine .ended hlive (by rw [hview, if_pos hself, hended]) fun id hid => ?_
        have hzero := (h.of_plain (Quiet.refl r) hsec hplain).none_owed hlive
        show (sec.runs ++ ran).count (inst, id) + owing r.ids inst id _ = 1
        rw [cons_append, owing_cons, owing_eq_zero r.ids id hzero, runs_of_plain sec hsec,
          nil_append, count_eq_zero.mpr (h.unheard inst id (.inl hlive)), hself]
        simp only [owed, if_true, Nat.zero_add, Nat.add_zero]
        exact count_eq_one_of_mem h.ids hid
      · refine .of_view (fun f => by rw [hview, if_neg hself]) fun id _ => ?_
        have hsame : total r (next ++ others) (sec.runs ++ ran) inst id =
            total r (sec :: others) ran inst id := total_plain rfl hsec hplain inst id
        refine Eq.trans ?_ hsame
        show (sec.runs ++ ran).count (inst, id) + owing r.ids inst id _ = _
        rw [cons_append, owing_cons]
        have hother : owed r.ids inst id (.fire_on_terminate ⟨pid, a.identity⟩) = 0 :=
          if_neg (Ne.symm hself)
        rw [hother, Nat.zero_add]
        rfl
  | begin_removal hget hidle hstays hexpected hnext =>
    refine .of_put hget _ rfl rfl fun id _ => ?_
    rcases hnext with ⟨parent_pid, rfl⟩ | rfl
    · rfl
    · rfl
  | unlink hquiet =>
    refine .of_quiet hquiet fun id _ => ?_
    unfold total
    rw [hquiet.ids_eq]
    rfl
  | @remove_if self reap desc report =>
    obtain ⟨-, hremoved, hview⟩ := h.remove_if_eq
    have htotal (id : String) : total (r.remove_if self) (report.sections self.pid (some desc) ++ others)
        ran inst id = total r (.remove_if self reap desc report :: others) ran inst id := by
      unfold total
      rw [hremoved, owing_append, owing_plain _ inst id fun n hn =>
        plain_of_tame (tame_sections report _ _ n hn), owing_cons]
      rfl
    by_cases hself : inst = self
    · refine .gone ?_ fun id _ => htotal id
      unfold AgentRegistry.present
      rw [hview, if_pos hself]
    · exact .of_view (fun f => by rw [hview, if_neg hself]) fun id _ => htotal id
  | fire => exact .of_quiet (Quiet.refl r) fun _ _ => rfl
  | callback => exact .of_quiet (Quiet.refl r) fun _ _ => callback_moves r.ids others ran
  | callbacks_done =>
    obtain ⟨a, hget, hidentity, hdone⟩ := h.callbacks_done_eq
    rw [hdone]
    refine .of_put hget _ rfl rfl fun id _ => ?_
    unfold total
    rw [owing_cons, show owed r.ids inst id (.callbacks _ []) = 0 from ite_self 0]
    exact congrArg _ (Nat.zero_add _).symm
  | @register_on_terminate new callback =>
    refine .of_view (fun f => view_register_on_terminate r new callback f inst) fun id hid => ?_
    unfold total
    rw [ids_register_on_terminate]
    split_ifs with hmem
    · rfl
    · have hne : id ≠ new := fun heq => hmem (heq ▸ hid)
      rw [owing_append_id hne]
      rfl

/-! ### Nothing comes back -/

theorem Quiet.grows (h : Quiet r r') : r.next_identity ≤ r'.next_identity ∧ ∀ id ∈ r.ids, id ∈ r'.ids :=
  ⟨Nat.le_of_eq h.next_identity.symm, fun id hid => by rw [h.ids_eq]; exact hid⟩

theorem Effect.grows (heffect : Effect r sec next r') :
    r.next_identity ≤ r'.next_identity ∧ ∀ id ∈ r.ids, id ∈ r'.ids := by
  cases heffect with
  | quiet hsec hnext hquiet | rekill hsec hget hnext hquiet | unlink hquiet => exact hquiet.grows
  | register hsec hnext hfree => exact ⟨Nat.le_succ _, fun id hid => hid⟩
  | terminate | begin_removal => exact ⟨Nat.le_refl _, fun id hid => hid⟩
  | remove_if =>
    unfold AgentRegistry.remove_if
    split
    · exact (Quiet.refl r).grows
    · split_ifs <;> exact ⟨Nat.le_refl _, fun id hid => hid⟩
  | fire | callback => exact (Quiet.refl r).grows
  | callbacks_done =>
    unfold AgentRegistry.callbacks_done
    split
    · exact (Quiet.refl r).grows
    · split_ifs <;> exact ⟨Nat.le_refl _, fun id hid => hid⟩
  | @register_on_terminate new callback =>
    refine ⟨Nat.le_of_eq (agents_register_on_terminate r new callback).2.symm, fun id hid => ?_⟩
    rw [ids_register_on_terminate]
    split_ifs
    · exact hid
    · exact mem_append_left _ hid

theorem present_of_alive (h : r.view alive inst = true) : r.present inst = true := by
  obtain ⟨record, hget, hidentity, -⟩ := view_eq_true.mp h
  exact view_eq_true.mpr ⟨record, hget, hidentity, rfl⟩

theorem Change.dead_stays (h : Change r r' inst before after)
    (hissued : inst.identity < r.next_identity) (hdead : r.view alive inst = false) :
    r'.view alive inst = false := by
  cases h with
  | same halive hpresent htotal => rw [halive, hdead]
  | registered hnew => exact absurd hissued (Nat.not_lt.mpr hnew)
  | ended halive hended htotal => exact hended
  | gone hgone htotal =>
    cases hlive : r'.view alive inst with
    | false => rfl
    | true =>
      rw [present_of_alive hlive] at hgone
      cases hgone

/-- The callback `id` was registered when `inst` lived: since then `inst` lives, or its callback is
owed or was run, or its record was taken out. -/
def Owes (r : AgentRegistry) (pending : List Section) (ran : List (AgentInstance × String))
    (inst : AgentInstance) (id : String) : Prop :=
  id ∈ r.ids ∧ inst.identity < r.next_identity ∧
    (r.view alive inst = true ∨ total r pending ran inst id = 1 ∨ r.present inst = false)

theorem Owes.effect (howes : Owes r (sec :: others) ran inst id) (h : Inv r (sec :: others) ran)
    (heffect : Effect r sec next r') : Owes r' (next ++ others) (sec.runs ++ ran) inst id := by
  obtain ⟨hid, hissued, hcase⟩ := howes
  obtain ⟨hle, hids⟩ := heffect.grows
  refine ⟨hids id hid, Nat.lt_of_lt_of_le hissued hle, ?_⟩
  cases h.change heffect inst with
  | same halive hpresent htotal =>
    rw [halive, hpresent, htotal id hid]
    exact hcase
  | registered hnew => exact absurd hissued (Nat.not_lt.mpr hnew)
  | ended halive hended htotal => exact .inr (.inl (htotal id hid))
  | gone hgone htotal => exact .inr (.inr hgone)

/-! ### Who is reaped -/

/-- A removal that reaps was started for an incarnation that no longer lives. -/
def Section.reaped (r : AgentRegistry) : Section → Prop
  | .remove_instance pid (some inst) true _ =>
    inst.pid = pid ∧ inst.identity < r.next_identity ∧ r.view alive inst = false
  | .unlink inst _ true _ _ => inst.identity < r.next_identity ∧ r.view alive inst = false
  | .remove_if inst true _ _ => inst.identity < r.next_identity ∧ r.view alive inst = false
  | _ => True

/-- `reap` finds the agent terminated, or finds nothing it would remove. -/
def Section.settled (r : AgentRegistry) : Section → Bool
  | .remove_instance pid none true _ =>
    match r.agents.get pid with
    | some record => record.callbacks_running || record.removing || !record.alive
    | none => true
  | _ => true

theorem reaped_of_tame (h : n.tame = true) : n.reaped r := by
  cases n with
  | remove_instance pid expected reap report =>
    cases expected with
    | none => exact trivial
    | some inst =>
      cases reap with
      | false => exact trivial
      | true => cases h
  | unlink => cases h
  | remove_if => cases h
  | _ => exact trivial

theorem Section.reaped.effect (hn : n.reaped r) (h : Inv r (sec :: others) ran)
    (heffect : Effect r sec next r') : n.reaped r' := by
  have hstays {inst : AgentInstance}
      (hdead : inst.identity < r.next_identity ∧ r.view alive inst = false) :
      inst.identity < r'.next_identity ∧ r'.view alive inst = false :=
    ⟨Nat.lt_of_lt_of_le hdead.1 heffect.grows.1, (h.change heffect inst).dead_stays hdead.1 hdead.2⟩
  cases n with
  | remove_instance pid expected reap report =>
    cases expected with
    | none => exact trivial
    | some inst =>
      cases reap with
      | false => exact trivial
      | true => exact ⟨hn.1, hstays hn.2⟩
  | unlink inst parent_pid reap desc report | remove_if inst reap desc report =>
    cases reap with
    | false => exact trivial
    | true => exact hstays hn
  | _ => exact trivial

theorem Inv.reaped_next (h : Inv r (sec :: others) ran) (heffect : Effect r sec next r')
    (hsec : sec.reaped r) (hsettled : sec.settled r = true) : ∀ n ∈ next, n.reaped r' := by
  have hrecord {pid : String} {a b : AgentRecord} (hget : r.agents.get pid = some a)
      (hidentity : b.identity = a.identity) (hpid : b.descriptor.pid = a.descriptor.pid)
      {r'' : AgentRegistry} (hnext : r.next_identity ≤ r''.next_identity)
      (hview : r''.view alive ⟨pid, a.identity⟩ = false) {n : Section}
      (hfollows : Follows pid b n) : n.reaped r'' := by
    rcases hfollows with htame | ⟨-, report, rfl⟩
    · exact reaped_of_tame htame
    · obtain ⟨hkey, hlt⟩ := h.keyed pid a hget
      have hself : b.instance_of = ⟨pid, a.identity⟩ := by
        rw [AgentRecord.instance_of, hpid, hkey, hidentity]
      rw [hself]
      exact ⟨rfl, Nat.lt_of_lt_of_le hlt hnext, hview⟩
  cases heffect with
  | quiet hplain hnext hquiet | register hplain hnext hfree =>
    exact fun n hn => reaped_of_tame (hnext n hn)
  | @rekill sec next pid record r' hplain hget hnext hquiet =>
    intro n hn
    cases hlive : record.alive with
    | true =>
      rcases hnext n hn with htame | ⟨hended, -⟩
      · exact reaped_of_tame htame
      · rw [hlive] at hended
        cases hended
    | false =>
      refine hrecord hget rfl rfl (Nat.le_of_eq hquiet.next_identity.symm) ?_ (hnext n hn)
      rw [hquiet.view (fun _ _ hsame => hsame.alive), view_self hget, hlive]
  | @terminate sec next pid a b self hinst hplain hget halive hstays hpid hidentity hrunning hremoving
      hended hnext =>
      intro n hn
      rcases mem_cons.mp hn with rfl | hn
      · exact trivial
      · have hview : (r.put pid b).view alive ⟨pid, a.identity⟩ = false := by
          rw [view_put_of_get hget hidentity, if_pos rfl, hended]
        exact hrecord hget hidentity hpid (show r.next_identity ≤ (r.put pid b).next_identity from
          Nat.le_refl _) hview (hnext n hn)
  | @begin_removal pid expected reap report a n hget hidle hstays hexpected hnext =>
    intro n' hn'
    rw [mem_singleton.mp hn']
    cases reap with
    | false => rcases hnext with ⟨parent_pid, rfl⟩ | rfl <;> exact trivial
    | true =>
      -- it was a kill, or the caller of `reap` saw to it
      have hdead : a.alive = false := by
        cases expected with
        | none =>
          simpa [settled, hget, hidle, hstays] using hsettled
        | some inst =>
          have hsame : a.identity = inst.identity := by
            simpa [AgentRecord.differs, AgentRecord.is] using hexpected
          obtain ⟨hpid, -, hview⟩ := hsec
          rw [view_of_get hget _ hpid] at hview
          simpa [AgentRecord.is, hsame] using hview
      have hview : (r.put pid { a with removing := true }).view alive a.instance_of = false := by
        rw [h.instance_of_eq hget, view_put_of_get hget (b := { a with removing := true }) rfl, if_pos rfl]
        exact hdead
      have hlt : a.instance_of.identity < r.next_identity := (h.keyed pid a hget).2
      rcases hnext with ⟨parent_pid, rfl⟩ | rfl <;> exact ⟨hlt, hview⟩
  | @unlink inst parent_pid reap desc report r' hquiet =>
    intro n hn
    rw [mem_singleton.mp hn]
    cases reap with
    | false => exact trivial
    | true =>
      refine ⟨by rw [hquiet.next_identity]; exact hsec.1, ?_⟩
      rw [hquiet.view (fun _ _ hsame => hsame.alive)]
      exact hsec.2
  | remove_if => exact fun n hn => reaped_of_tame (tame_sections _ _ _ n hn)
  | fire | callback =>
    intro n hn
    rw [mem_singleton.mp hn]
    exact trivial
  | callbacks_done => exact fun n hn => by cases hn
  | register_on_terminate => exact fun n hn => reaped_of_tame (tame_one rfl n hn)

end Step

/-! ## Operations that carry an instance -/

def Section.carries : Section → Option AgentInstance
  | .remove_instance _ expected _ _ => expected
  | .unlink inst _ _ _ _ => some inst
  | .remove_if inst _ _ _ => some inst
  | .bind_managed_host inst => some inst
  | .update_instance_state_with_reason _ expected _ _ => expected
  | .heartbeat_inner _ expected _ => expected
  | .signal_usr1 _ expected _ _ => expected
  | .kill_instance_inner _ expected _ _ _ => expected
  | .unregister_external_instance inst _ => some inst
  | .fire_on_terminate inst => some inst
  | .callbacks inst _ => some inst
  | _ => none

/-- At most one record is written, after it was checked against the instance. -/
def Guarded (r : AgentRegistry) (pid : String) (expected : Option AgentInstance) (r' : AgentRegistry) : Prop :=
  r' = r ∨ ∃ entry b, r.agents.get pid = some entry ∧ entry.differs expected = false ∧ r' = r.put pid b

section Guards

variable (r : AgentRegistry) (now : ℕ) (pid : String) (expected : Option AgentInstance)
  (report : Report)

theorem guarded_remove_instance (reap : Bool) :
    Guarded r pid expected (r.remove_instance pid expected reap report).2 :=
  lookup_cases r (P := fun _ => Guarded r pid expected) (.inl rfl) fun entry hget hgoes =>
    .inr ⟨entry, _, hget, (Bool.or_eq_false_iff.mp hgoes).2, rfl⟩

theorem guarded_update (new_state : AgentState) (reason : Option String) :
    Guarded r pid expected (r.update_instance_state_with_reason now pid expected new_state reason).2 := by
  refine lookup_cases r (P := fun _ => Guarded r pid expected) (.inl rfl) fun entry hget hgoes => ?_
  have hsame := (Bool.or_eq_false_iff.mp hgoes).2
  by_cases hstate : entry.descriptor.state = new_state
  · rw [if_pos hstate]
    exact .inr ⟨entry, _, hget, hsame, rfl⟩
  · rw [if_neg hstate]
    cases entry.descriptor.state.can_transition_to new_state with
    | false => exact .inl rfl
    | true => exact .inr ⟨entry, _, hget, hsame, rfl⟩

theorem guarded_heartbeat : Guarded r pid expected (r.heartbeat_inner now pid expected report).2 := by
  refine lookup_cases r (P := fun _ => Guarded r pid expected) (.inl rfl) fun entry hget hgoes => ?_
  split_ifs
  · exact .inl rfl
  · cases entry.descriptor.external_info with
    | none => exact .inl rfl
    | some info => exact .inr ⟨entry, _, hget, (Bool.or_eq_false_iff.mp hgoes).2, rfl⟩

theorem guarded_signal_usr1 (payload : Option (List (String × String))) :
    Guarded r pid expected (r.signal_usr1 now pid expected payload report).2 :=
  lookup_cases r (P := fun _ => Guarded r pid expected) (.inl rfl) fun entry hget hgoes =>
    .inr ⟨entry, _, hget, (Bool.or_eq_false_iff.mp hgoes).2, rfl⟩

theorem guarded_kill (exit_code : ℤ) (force_reap : Bool) :
    Guarded r pid expected (r.kill_instance_inner now pid expected exit_code force_reap report).2 :=
  lookup_cases r (P := fun _ => Guarded r pid expected) (.inl rfl) fun entry hget hgoes =>
    .inr ⟨entry, _, hget, (Bool.or_eq_false_iff.mp hgoes).2, rfl⟩

end Guards

section Spared

variable {r : AgentRegistry} {inst : AgentInstance} {other : AgentRecord}

theorem Guarded.spares {pid : String} {r' : AgentRegistry} (h : Guarded r pid (some inst) r')
    (hother : r.agents.get inst.pid = some other) (hne : other.identity ≠ inst.identity) :
    r'.agents.get inst.pid = some other := by
  rcases h with rfl | ⟨entry, b, hget, hsame, rfl⟩
  · exact hother
  · unfold put
    rw [get_insert_of_ne _ _ ?_, hother]
    rintro rfl
    rw [hother] at hget
    cases hget
    simp only [AgentRecord.differs, AgentRecord.is, Bool.not_eq_false', beq_iff_eq] at hsame
    exact hne hsame

theorem exec_spares {sec : Section} {others : List Section} {ran : List (AgentInstance × String)}
    (h : Inv r (sec :: others) ran) (hcarries : sec.carries = some inst)
    (hother : r.agents.get inst.pid = some other) (hne : other.identity ≠ inst.identity) (input : Input) :
    (r.exec input sec).2.agents.get inst.pid = some other := by
  -- an incarnation that is being removed, or whose callbacks run, has its record in the map
  have hnot (f : AgentRecord → Bool) (hview : r.view f inst = true) : False := by
    obtain ⟨record, hget, hidentity, -⟩ := view_eq_true.mp hview
    rw [hother] at hget
    cases hget
    exact hne hidentity
  cases sec with
  | remove_instance pid expected reap report =>
    cases hcarries
    exact (guarded_remove_instance r pid _ report reap).spares hother hne
  | unlink i parent_pid reap desc report | remove_if i reap desc report =>
    cases hcarries
    exact (hnot _ (flag_of_mem (h.removing _) mem_cons_self (beq_self_eq_true inst))).elim
  | bind_managed_host i =>
    cases hcarries
    have hdiffers : other.is inst = false := beq_eq_false_iff_ne.mpr hne
    unfold AgentRegistry.exec AgentRegistry.bind_managed_host
    simp [hother, hdiffers]
  | update_instance_state_with_reason pid expected new_state reason =>
    cases hcarries
    exact (guarded_update r input.now pid _ new_state reason).spares hother hne
  | heartbeat_inner pid expected report =>
    cases hcarries
    exact (guarded_heartbeat r input.now pid _ report).spares hother hne
  | signal_usr1 pid expected payload report =>
    cases hcarries
    exact (guarded_signal_usr1 r input.now pid _ report payload).spares hother hne
  | kill_instance_inner pid expected exit_code force_reap report =>
    cases hcarries
    exact (guarded_kill r input.now pid _ report exit_code force_reap).spares hother hne
  | unregister_external_instance i report => exact hother
  | fire_on_terminate i => exact hother
  | callbacks i left =>
    cases hcarries
    exact (hnot _ (flag_of_mem (h.running _) mem_cons_self (beq_self_eq_true inst))).elim
  | _ => cases hcarries

end Spared

/-! ## Runs -/

def System.pending (s : System) : List Section := s.threads.flatten

def next_section (s : System) : Event → Option Section
  | .call _ => none
  | .advance thread _ => s.threads[thread]?.bind head?

theorem flatten_set_perm {α : Type} {xss : List (List α)} {i : ℕ} {x : α} {rest : List α}
    (h : xss[i]? = some (x :: rest)) :
    ∃ others, xss.flatten.Perm (x :: others) ∧
      ∀ ys, (xss.set i (ys ++ rest)).flatten.Perm (ys ++ others) := by
  induction xss generalizing i with
  | nil => cases h
  | cons xs xss ih =>
    cases i with
    | zero =>
      cases h
      refine ⟨rest ++ xss.flatten, List.Perm.refl _, fun ys => ?_⟩
      rw [set_cons_zero, flatten_cons, append_assoc]
    | succ i =>
      obtain ⟨others, hperm, hset⟩ := ih h
      refine ⟨xs ++ others, ?_, fun ys => ?_⟩
      · rw [flatten_cons]
        exact (hperm.append_left xs).trans perm_middle
      · rw [set_cons_succ, flatten_cons]
        refine ((hset ys).append_left xs).trans ?_
        rw [← append_assoc, ← append_assoc]
        exact perm_append_comm.append_right others

theorem step_cases (h : agent_step s e = some (answer, s')) :
    (∃ c, next_section s e = none ∧ s'.registry = s.registry ∧ s'.ran = s.ran ∧
      s'.pending = s.pending ++ [Call.enter c]) ∨
    ∃ input sec others, next_section s e = some sec ∧ s.pending.Perm (sec :: others) ∧
      s'.registry = (s.registry.exec input sec).2 ∧
      s'.pending.Perm ((s.registry.exec input sec).1 ++ others) ∧ s'.ran = sec.runs ++ s.ran := by
  cases e with
  | call c =>
    cases h
    exact .inl ⟨c, rfl, rfl, rfl, by simp [System.pending]⟩
  | advance thread input =>
    rw [agent_step] at h
    cases hthread : s.threads[thread]? with
    | none =>
      rw [hthread] at h
      cases h
    | some sections =>
      rw [hthread] at h
      cases sections with
      | nil => cases h
      | cons sec rest =>
        cases h
        obtain ⟨others, hperm, hset⟩ := flatten_set_perm hthread
        exact .inr ⟨input, sec, others, by simp [next_section, hthread], hperm, rfl, hset _, rfl⟩

theorem tame_enter (c : Call) : c.enter.tame = true := by
  cases c with
  | signal pid sig payload => cases sig <;> rfl
  | signal_instance inst sig payload => cases sig <;> rfl
  | _ => rfl

theorem Inv.enter {pending : List Section} {ran : List (AgentInstance × String)}
    (h : Inv r pending ran) (hsec : sec.plain = true) : Inv r (pending ++ [sec]) ran := by
  have hfront := h.of_balanced (.refl r) (balanced_plain (plain_one hsec) (forall_mem_nil _) pending)
  exact hfront.perm perm_append_comm

def System.Sound (s : System) : Prop := Inv s.registry s.pending s.ran

def System.Reaped (s : System) : Prop := ∀ n ∈ s.pending, n.reaped s.registry

/-- The condition on an event: `reap` is run only on agents that have terminated. -/
def reap_settled (s : System) (e : Event) : Prop :=
  ∀ sec, next_section s e = some sec → sec.settled s.registry = true

section Steps

variable {s s' : System} {e : Event} {answer : Option Answer}

theorem System.Sound.step (h : s.Sound) (hstep : agent_step s e = some (answer, s')) : s'.Sound := by
  unfold System.Sound
  rcases step_cases hstep with ⟨c, -, hreg, hran, hpending⟩ | ⟨input, sec, others, -, hperm, hreg, hpending, hran⟩
  · rw [hreg, hran, hpending]
    exact Inv.enter h (plain_of_tame (tame_enter c))
  · rw [hreg, hran]
    exact ((Inv.perm h hperm).effect (exec_effect s.registry input sec)).perm hpending.symm

theorem System.Reaped.step (h : s.Reaped) (hsound : s.Sound) (hok : reap_settled s e)
    (hstep : agent_step s e = some (answer, s')) : s'.Reaped := by
  intro n hn
  rcases step_cases hstep with ⟨c, -, hreg, -, hpending⟩ | ⟨input, sec, others, hnext, hperm, hreg, hpending, -⟩
  · rw [hpending] at hn
    rw [hreg]
    rcases mem_append.mp hn with hold | hnew
    · exact h n hold
    · rw [mem_singleton.mp hnew]
      exact reaped_of_tame (tame_enter c)
  · have hinv := Inv.perm hsound hperm
    have heffect := exec_effect s.registry input sec
    have hold (m : Section) (hm : m ∈ sec :: others) : m.reaped s.registry := h m (hperm.mem_iff.mpr hm)
    rw [hreg]
    rcases mem_append.mp (hpending.mem_iff.mp hn) with hnew | hrest
    · exact hinv.reaped_next heffect (hold sec mem_cons_self) (hok sec hnext) n hnew
    · exact (hold n (mem_cons_of_mem sec hrest)).effect hinv heffect

theorem dead_step {inst : AgentInstance} (hsound : s.Sound)
    (hissued : inst.identity < s.registry.next_identity)
    (hdead : s.registry.view alive inst = false) (hstep : agent_step s e = some (answer, s')) :
    inst.identity < s'.registry.next_identity ∧ s'.registry.view alive inst = false := by
  rcases step_cases hstep with ⟨c, -, hreg, -, -⟩ | ⟨input, sec, others, -, hperm, hreg, -, -⟩
  · rw [hreg]
    exact ⟨hissued, hdead⟩
  · have heffect := exec_effect s.registry input sec
    rw [hreg]
    exact ⟨Nat.lt_of_lt_of_le hissued heffect.grows.1,
      ((Inv.perm hsound hperm).change heffect inst).dead_stays hissued hdead⟩

theorem total_perm {r : AgentRegistry} {pending pending' : List Section} (h : pending.Perm pending')
    (ran : List (AgentInstance × String)) (inst : AgentInstance) (id : String) :
    total r pending ran inst id = total r pending' ran inst id := by
  unfold total
  rw [(Balanced.of_perm h).owing]

theorem owes_step {inst : AgentInstance} {id : String} (hsound : s.Sound)
    (howes : Owes s.registry s.pending s.ran inst id) (hstep : agent_step s e = some (answer, s')) :
    Owes s'.registry s'.pending s'.ran inst id := by
  rcases step_cases hstep with ⟨c, -, hreg, hran, hpending⟩ | ⟨input, sec, others, -, hperm, hreg, hpending, hran⟩
  · unfold Owes at howes ⊢
    have hsame : total s.registry (s.pending ++ [c.enter]) s.ran inst id =
        total s.registry s.pending s.ran inst id := by
      unfold total
      rw [owing_append, owing_plain _ inst id (plain_one (plain_of_tame (tame_enter c)))]
      rfl
    rw [hreg, hran, hpending, hsame]
    exact howes
  · have hbefore : Owes s.registry (sec :: others) s.ran inst id := by
      unfold Owes at howes ⊢
      rw [← total_perm hperm]
      exact howes
    have hafter := hbefore.effect (Inv.perm hsound hperm) (exec_effect s.registry input sec)
    unfold Owes at hafter ⊢
    rw [hreg, hran, total_perm hpending]
    exact hafter

end Steps

theorem sound_new : System.new.Sound := by
  have hview (f : AgentRecord → Bool) (inst : AgentInstance) :
      System.new.registry.view f inst = false := by
    unfold view
    rw [System.new, AgentRegistry.new, get_empty]
  constructor
  case ids => exact nodup_nil
  case keyed =>
    intro pid record hget
    cases hget
  case running => exact fun inst => by rw [hview]; rfl
  case removing => exact fun inst => by rw [hview]; rfl
  case apart => exact fun inst _ => hview _ inst
  case calm => exact fun inst _ => hview _ inst
  case unheard => exact fun inst id _ hmem => nomatch hmem
  case known => exact ⟨fun entry hmem => (nomatch hmem), fun inst left hmem => nomatch hmem⟩
  case once => exact fun inst id => Nat.zero_le 1

/-- The event takes the record of `inst` out of the map, at the end of a kill, a signal, `reap` or
`unregister_external`; `unregister` and `unregister_instance` do not reap. -/
def Reaps (s : System) (e : Event) (inst : AgentInstance) : Prop :=
  s.registry.present inst = true ∧
    ∃ desc report, next_section s e = some (.remove_if inst true desc report)

theorem ran_once_of_reaps {id : String} (hsound : s.Sound) (hreaped : s.Reaped)
    (howes : Owes s.registry s.pending s.ran inst id) (hreaps : Reaps s e inst) :
    s.ran.count (inst, id) = 1 := by
  obtain ⟨hpresent, desc, report, hnext⟩ := hreaps
  have hmem : .remove_if inst true desc report ∈ s.pending := by
    cases e with
    | call c => cases hnext
    | advance thread input =>
      obtain ⟨sections, hthread, hhead⟩ := Option.bind_eq_some_iff.mp hnext
      exact mem_flatten.mpr ⟨sections, mem_of_getElem? hthread, mem_of_head? hhead⟩
  have hdead : s.registry.view alive inst = false := (hreaped _ hmem).2
  have hremoving := flag_of_mem (Inv.removing hsound inst) hmem (beq_self_eq_true inst)
  have hzero : s.pending.countP (ends inst) = 0 := by
    rw [Inv.running hsound, Inv.apart hsound inst hremoving]
    rfl
  obtain ⟨-, -, hlive | htotal | hgone⟩ := howes
  · rw [hdead] at hlive
    cases hlive
  · unfold total at htotal
    rw [owing_eq_zero s.registry.ids id hzero] at htotal
    exact htotal
  · rw [hpresent] at hgone
    cases hgone

theorem occupied_while_callbacks_run (hsound : s.Sound) (hmem : sec ∈ s.pending)
    (hends : sec.ends inst = true) :
    s.registry.present inst = true ∧
      ∀ desc, desc.pid = inst.pid → s.registry.register_instance desc = (none, s.registry) := by
  obtain ⟨record, hget, hidentity, -⟩ := view_eq_true.mp (flag_of_mem (Inv.running hsound inst) hmem hends)
  refine ⟨view_eq_true.mpr ⟨record, hget, hidentity, rfl⟩, fun desc hpid => ?_⟩
  unfold AgentRegistry.register_instance
  rw [hpid, hget]

theorem step_spares (hsound : s.Sound)
    (hstep : agent_step s e = some (answer, s')) (hnext : next_section s e = some sec)
    (hcarries : sec.carries = some inst) {other : AgentRecord}
    (hother : s.registry.agents.get inst.pid = some other) (hne : other.identity ≠ inst.identity) :
    s'.registry.agents.get inst.pid = some other := by
  rcases step_cases hstep with ⟨c, hnone, -⟩ | ⟨input, sec', others, hsec, hperm, hreg, -, -⟩
  · rw [hnone] at hnext
    cases hnext
  · rw [hnext] at hsec
    cases hsec
    rw [hreg]
    exact exec_spares (Inv.perm hsound hperm) hcarries hother hne input

/-- In every run of any number of threads, split at the critical sections: an incarnation that has
terminated stays so; a callback is run for it at most once; if `reap` is called on terminated agents
only, every callback registered while it lived has been run exactly once when its record is reaped;
its pid is taken while its callbacks run; and a section that carries an instance leaves the records
of other incarnations alone. -/
theorem incarnations_end_once (es₁ es₂ : List Event) (answers₁ answers₂ : List (Option Answer))
    (s₁ s₂ : System) (hrun₁ : run agent_step .new es₁ = some (answers₁, s₁))
    (hrun₂ : run agent_step s₁ es₂ = some (answers₂, s₂)) (inst : AgentInstance) :
    (∀ record₁ record₂, s₁.registry.agents.get inst.pid = some record₁ →
      record₁.identity = inst.identity → record₁.descriptor.state = .Terminated →
      s₂.registry.agents.get inst.pid = some record₂ → record₂.identity = inst.identity →
      record₂.descriptor.state = .Terminated) ∧
    (∀ id, s₂.ran.count (inst, id) ≤ 1) ∧
    (along agent_step reap_settled .new es₁ → along agent_step reap_settled s₁ es₂ →
      ∀ record, s₁.registry.agents.get inst.pid = some record → record.identity = inst.identity →
      record.descriptor.state ≠ .Terminated → ∀ id ∈ s₁.registry.on_terminate.map Prod.fst,
      ∀ e, Reaps s₂ e inst → s₂.ran.count (inst, id) = 1) ∧
    ((∃ sec ∈ s₂.pending, sec.ends inst = true) → s₂.registry.present inst = true ∧
      ∀ desc, desc.pid = inst.pid → s₂.registry.register_instance desc = (none, s₂.registry)) ∧
    ∀ e answer s₃ sec other, agent_step s₂ e = some (answer, s₃) → next_section s₂ e = some sec →
      sec.carries = some inst → s₂.registry.agents.get inst.pid = some other →
      other.identity ≠ inst.identity → s₃.registry.agents.get inst.pid = some other := by
  have hfree {s : System} {es : List Event} : along agent_step (fun _ _ => True) s es :=
    along_of_forall_mem fun _ _ _ => trivial
  have hsound₁ : s₁.Sound :=
    run_invariant System.Sound (fun s e r s' h _ hstep => h.step hstep) sound_new hfree hrun₁
  have hsound₂ : s₂.Sound :=
    run_invariant System.Sound (fun s e r s' h _ hstep => h.step hstep) hsound₁ hfree hrun₂
  refine ⟨?_, ?_, ?_, ?_, ?_⟩
  · intro record₁ record₂ hget₁ hid₁ hstate hget₂ hid₂
    have hdead₁ : s₁.registry.view alive inst = false := by
      rw [view_of_get hget₁ _ rfl]
      simp [alive, hstate]
    have hissued : inst.identity < s₁.registry.next_identity := by
      rw [← hid₁]
      exact (Inv.keyed hsound₁ _ _ hget₁).2
    have hdead₂ := run_invariant (fun s : System => s.Sound ∧ inst.identity < s.registry.next_identity ∧
        s.registry.view alive inst = false)
      (fun s e r s' h _ hstep => ⟨h.1.step hstep, dead_step h.1 h.2.1 h.2.2 hstep⟩)
      ⟨hsound₁, hissued, hdead₁⟩ hfree hrun₂
    have hview := hdead₂.2.2
    rw [view_of_get hget₂ _ rfl] at hview
    simpa [AgentRecord.is, alive, hid₂] using hview
  · exact fun id => Nat.le_trans (Nat.le_add_right _ _) (Inv.once hsound₂ inst id)
  · intro hok₁ hok₂ record hget hid hstate id hmem e hreaps
    have hreaped₁ := run_invariant (fun s : System => s.Sound ∧ s.Reaped)
      (fun s e r s' h hok hstep => ⟨h.1.step hstep, h.2.step h.1 hok hstep⟩)
      (show System.new.Sound ∧ System.new.Reaped from ⟨sound_new, fun n hn => nomatch hn⟩) hok₁ hrun₁
    have hreaped₂ := run_invariant (fun s : System => s.Sound ∧ s.Reaped)
      (fun s e r s' h hok hstep => ⟨h.1.step hstep, h.2.step h.1 hok hstep⟩) hreaped₁ hok₂ hrun₂
    have hlive : s₁.registry.view alive inst = true :=
      view_eq_true.mpr ⟨record, hget, hid, bne_iff_ne.mpr hstate⟩
    have howes := run_invariant
      (fun s : System => s.Sound ∧ Owes s.registry s.pending s.ran inst id)
      (fun s e r s' h _ hstep => ⟨h.1.step hstep, owes_step h.1 h.2 hstep⟩)
      ⟨hsound₁, hmem, Inv.issued hsound₁ hlive, .inl hlive⟩ hfree hrun₂
    exact ran_once_of_reaps hsound₂ hreaped₂.2 howes.2 hreaps
  · rintro ⟨sec, hmem, hends⟩
    exact occupied_while_callbacks_run hsound₂ hmem hends
  · intro e answer s₃ sec other hstep hnext hcarries hother hne
    exact step_spares hsound₂ hstep hnext hcarries hother hne

instance (s : System) (e : Event) : Decidable (reap_settled s e) :=
  match h : next_section s e with
  | none => .isTrue fun sec hsec => by rw [h] at hsec; cases hsec
  | some sec =>
    if hs : sec.settled s.registry = true then
      .isTrue fun sec' hsec => by rw [h] at hsec; cases hsec; exact hs
    else .isFalse fun hall => hs (hall sec h)

def reaps_check (s : System) (e : Event) (inst : AgentInstance) : Bool :=
  s.registry.present inst &&
    match next_section s e with
    | some (.remove_if i true _ _) => i == inst
    | _ => false

theorem reaps_of_check (h : reaps_check s e inst = true) : Reaps s e inst := by
  obtain ⟨hpresent, hnext⟩ := (Bool.and_eq_true _ _).mp h
  refine ⟨hpresent, ?_⟩
  split at hnext
  · next i desc report heq =>
      rw [heq, beq_iff_eq.mp hnext]
      exact ⟨desc, report, rfl⟩
  · cases hnext

def worker (pid : String) : AgentDescriptor :=
  { pid, kind := .Worker, parent_pid := none, state := .Ready, exit_code := none, children := []
    updated_at_ms := 0, last_heartbeat_ms := none, external_info := none, labels := ∅, reason := none }

def tick (thread : ℕ) : Event := .advance thread ⟨0, "", none⟩

def one_agent : List Event :=
  [.call (.register_on_terminate "workspace" 0), tick 0, .call (.register (worker "1")), tick 1]

/-- A kill, up to the section that takes the record out. -/
def killing : List Event := [.call (.kill "1" 0), tick 2, tick 2, tick 2, tick 2, tick 2]

/-- `reap` of an agent that is at work, up to the section that takes the record out. -/
def reaping : List Event := [.call (.reap "1"), tick 2]

theorem one_agent_ready :
    ((run agent_step .new one_agent).any fun p =>
      p.2.registry.view alive ⟨"1", 0⟩ && decide ("workspace" ∈ p.2.registry.ids) &&
      along_check agent_step (fun s e => decide (reap_settled s e)) .new one_agent &&
      along_check agent_step (fun s e => decide (reap_settled s e)) p.2 killing &&
      ((run agent_step p.2 killing).any fun q => reaps_check q.2 (tick 2) ⟨"1", 0⟩) &&
      ((run agent_step p.2 reaping).any fun q =>
        reaps_check q.2 (tick 2) ⟨"1", 0⟩ && decide (q.2.ran = []))) = true := by
  decide +kernel

/-- A killed agent: its one callback has been run when the record goes. -/
theorem incarnations_end_once_killed :
    ∃ answers₁ s₁ answers₂ s₂, run agent_step .new one_agent = some (answers₁, s₁) ∧
      run agent_step s₁ killing = some (answers₂, s₂) ∧ Reaps s₂ (tick 2) ⟨"1", 0⟩ ∧
      s₂.ran.count (⟨"1", 0⟩, "workspace") = 1 := by
  obtain ⟨⟨answers₁, s₁⟩, hrun₁, hready⟩ := (Option.any_eq_true _ _).mp one_agent_ready
  simp only [Bool.and_eq_true, decide_eq_true_eq] at hready
  obtain ⟨⟨⟨⟨⟨hlive, hid⟩, hok₁⟩, hok₂⟩, hkill⟩, -⟩ := hready
  obtain ⟨⟨answers₂, s₂⟩, hrun₂, hreaps⟩ := (Option.any_eq_true _ _).mp hkill
  obtain ⟨record, hget, hidentity, halive⟩ := view_eq_true.mp hlive
  obtain ⟨-, -, honce, -⟩ := incarnations_end_once one_agent killing answers₁ answers₂ s₁ s₂ hrun₁ hrun₂
    ⟨"1", 0⟩
  have hsettled {s : System} {es : List Event}
      (h : along_check agent_step (fun s e => decide (reap_settled s e)) s es = true) :
      along agent_step reap_settled s es := along_of_check (fun s e h => of_decide_eq_true h) h
  refine ⟨answers₁, s₁, answers₂, s₂, hrun₁, hrun₂, reaps_of_check hreaps, ?_⟩
  exact honce (hsettled hok₁) (hsettled hok₂) record hget hidentity (bne_iff_ne.mp halive) "workspace" hid
    (tick 2) (reaps_of_check hreaps)

/-- `reap` of an agent that is at work takes its record out and runs no callback. -/
theorem reap_runs_no_callback :
    ∃ answers₁ s₁ answers₂ s₂, run agent_step .new one_agent = some (answers₁, s₁) ∧
      s₁.registry.view alive ⟨"1", 0⟩ = true ∧ "workspace" ∈ s₁.registry.ids ∧
      run agent_step s₁ reaping = some (answers₂, s₂) ∧ Reaps s₂ (tick 2) ⟨"1", 0⟩ ∧
      s₂.ran.count (⟨"1", 0⟩, "workspace") = 0 := by
  obtain ⟨⟨answers₁, s₁⟩, hrun₁, hready⟩ := (Option.any_eq_true _ _).mp one_agent_ready
  simp only [Bool.and_eq_true, decide_eq_true_eq] at hready
  obtain ⟨⟨⟨⟨⟨hlive, hid⟩, -⟩, -⟩, -⟩, hreap⟩ := hready
  obtain ⟨⟨answers₂, s₂⟩, hrun₂, hcheck⟩ := (Option.any_eq_true _ _).mp hreap
  obtain ⟨hreaps, hran⟩ := (Bool.and_eq_true _ _).mp hcheck
  refine ⟨answers₁, s₁, answers₂, s₂, hrun₁, hlive, hid, hrun₂, reaps_of_check hreaps, ?_⟩
  rw [of_decide_eq_true hran]
  rfl

end NexusVfs.Agents
