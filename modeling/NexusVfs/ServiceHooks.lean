/-
Hooks and observers of services: `kernel/src/kernel/dispatch.rs`, with the two
registries of `core/dispatch/mod.rs`.

A registration through a service's handle is an entry of the registry and a name under
the service. When the service goes, the registry drops the first entry of each of these
names.
-/
import NexusVfs.Hooks
import NexusVfs.Runs
import NexusVfs.Table

namespace NexusVfs.Hooks

open List Runs Table

/-! ## A registry -/

/-- A registry, with the names each service has registered. The first component of an entry is
history: the handle it was registered through. -/
structure Registry (α : Type) where
  entries : List (String × α)
  service_names : Table String (List String)

namespace Registry

variable {α : Type} (name_of : α → String)

def unregister (entries : List (String × α)) (name : String) : List (String × α) :=
  entries.eraseP fun e => name_of e.2 == name

def register (r : Registry α) (handle : String) (item : α) : Registry α where
  entries := r.entries ++ [(handle, item)]
  service_names :=
    r.service_names.insert handle ((r.service_names.get handle).getD [] ++ [name_of item])

def unhook (r : Registry α) (service_name : String) : Registry α :=
  match r.service_names.get service_name with
  | some names => ⟨names.foldl (unregister name_of) r.entries, r.service_names.remove service_name⟩
  | none => r

/-- The names noted for a service are those of its entries. -/
def Tracked (r : Registry α) : Prop :=
  ∀ service, (r.service_names.get service).getD [] =
    (r.entries.filter (·.1 = service)).map (name_of ·.2)

/-- No entry of another service comes before one of this service with the same name. -/
def Foremost (service : String) (entries : List (String × α)) : Prop :=
  entries.Pairwise fun a b => a.1 ≠ service → b.1 = service → name_of a.2 ≠ name_of b.2

instance (service : String) (entries : List (String × α)) :
    Decidable (Foremost name_of service entries) :=
  inferInstanceAs (Decidable (List.Pairwise _ _))

variable {name_of} {r : Registry α} {service : String} {entries : List (String × α)}

theorem foldl_unregister_cons {e : String × α} {names : List String} (h : name_of e.2 ∉ names) :
    names.foldl (unregister name_of) (e :: entries) = e :: names.foldl (unregister name_of) entries := by
  induction names generalizing entries with
  | nil => rfl
  | cons name names ih =>
    rw [mem_cons, not_or] at h
    rw [foldl_cons, foldl_cons, unregister, eraseP_cons_of_neg (by simpa using h.1), ih h.2]
    rfl

theorem foldl_unregister (h : Foremost name_of service entries) :
    ((entries.filter (·.1 = service)).map (name_of ·.2)).foldl (unregister name_of) entries =
      entries.filter (·.1 ≠ service) := by
  induction entries with
  | nil => rfl
  | cons e entries ih =>
    obtain ⟨hfirst, hrest⟩ := pairwise_cons.mp h
    by_cases hown : e.1 = service
    · rw [filter_cons_of_pos (by simpa using hown), filter_cons_of_neg (by simpa using hown), map_cons,
        foldl_cons, unregister, eraseP_cons_of_pos (by simp)]
      exact ih hrest
    · rw [filter_cons_of_neg (by simpa using hown), filter_cons_of_pos (by simpa using hown),
        foldl_unregister_cons, ih hrest]
      intro hmem
      obtain ⟨other, hother, hname⟩ := mem_map.mp hmem
      rw [mem_filter, decide_eq_true_eq] at hother
      exact hfirst other hother.1 hown hother.2 hname.symm

theorem Tracked.register (h : r.Tracked name_of) (handle : String) (item : α) :
    (r.register name_of handle item).Tracked name_of := by
  intro service
  simp only [Registry.register, get_insert, filter_append, map_append]
  by_cases hs : service = handle
  · subst hs
    simp [h service]
  · simp [h service, hs, Ne.symm hs]

theorem Tracked.unhook (h : r.Tracked name_of) (hfirst : Foremost name_of service r.entries) :
    (r.unhook name_of service).Tracked name_of ∧
      (r.unhook name_of service).entries = r.entries.filter (·.1 ≠ service) := by
  have hentries := foldl_unregister hfirst
  rw [← h service] at hentries
  have hrest (other : String) (hne : other ≠ service) :
      ((r.entries.filter (·.1 ≠ service)).filter (·.1 = other)) = r.entries.filter (·.1 = other) := by
    rw [filter_filter]
    refine filter_congr fun e _ => ?_
    by_cases he : e.1 = other <;> simp [he, hne]
  unfold Registry.unhook
  cases hget : r.service_names.get service with
  | some names =>
    rw [hget] at hentries
    refine ⟨fun other => ?_, hentries⟩
    dsimp only [Option.getD_some] at hentries ⊢
    rw [hentries, get_remove]
    split_ifs with hs
    · simp [hs]
    · rw [hrest other hs, h other]
  | none =>
    rw [hget] at hentries
    exact ⟨h, hentries⟩

end Registry

/-! ## The kernel -/

/-- An observer is known by its name; what it does with an event plays no part here. -/
structure ObserverEntry where
  name : String
  event_mask : UInt32

structure Kernel where
  services : List String
  /-- The handles given out so far; a handle stays valid when its service goes. -/
  handles : List String
  native_hooks : Registry NativeInterceptHook
  observers : Registry ObserverEntry

def Kernel.new : Kernel := ⟨[], [], ⟨[], ∅⟩, ⟨[], ∅⟩⟩

/-- `enlist` stands for all ways to enlist a service, where they are not refused. -/
inductive ServiceOp where
  | enlist (name : String)
  | service_handle (name : String)
  | register_service_hook (handle : String) (hook : NativeInterceptHook)
  | register_service_observer (handle : String) (observer : ObserverEntry)
  | unregister_service (name : String)

def Kernel.unhook_service (k : Kernel) (service_name : String) : Kernel :=
  { k with
    native_hooks := k.native_hooks.unhook (·.name) service_name
    observers := k.observers.unhook (·.name) service_name }

/-- The answer says whether the service was found. Nobody can register without a handle. -/
def service_step (k : Kernel) : ServiceOp → Option (Bool × Kernel)
  | .enlist name => some (true, { k with services := name :: k.services })
  | .service_handle name =>
    if name ∈ k.services then some (true, { k with handles := name :: k.handles })
    else some (false, k)
  | .register_service_hook handle hook =>
    if handle ∈ k.handles then
      some (true, { k with native_hooks := k.native_hooks.register (·.name) handle hook })
    else none
  | .register_service_observer handle observer =>
    if handle ∈ k.handles then
      some (true, { k with observers := k.observers.register (·.name) handle observer })
    else none
  | .unregister_service name =>
    some (name ∈ k.services,
      { k.unhook_service name with services := k.services.filter (· ≠ name) })

/-- A removal finds the service's own entries before others of the same name. -/
def own_first (k : Kernel) : ServiceOp → Bool
  | .unregister_service name =>
    Registry.Foremost (·.name) name k.native_hooks.entries &&
      Registry.Foremost (·.name) name k.observers.entries
  | _ => true

def Kernel.Tracked (k : Kernel) : Prop :=
  k.native_hooks.Tracked (·.name) ∧ k.observers.Tracked (·.name)

variable {k k' : Kernel}

theorem Kernel.Tracked.unregister {name : String} (h : k.Tracked)
    (hok : own_first k (.unregister_service name) = true) : (k.unhook_service name).Tracked ∧
      (k.unhook_service name).native_hooks.entries = k.native_hooks.entries.filter (·.1 ≠ name) ∧
      (k.unhook_service name).observers.entries = k.observers.entries.filter (·.1 ≠ name) := by
  simp only [own_first, Bool.and_eq_true, decide_eq_true_eq] at hok
  obtain ⟨hhooks, hhooks'⟩ := h.1.unhook hok.1
  obtain ⟨hobservers, hobservers'⟩ := h.2.unhook hok.2
  exact ⟨⟨hhooks, hobservers⟩, hhooks', hobservers'⟩

theorem Kernel.Tracked.step {op : ServiceOp} {found : Bool} (h : k.Tracked)
    (hok : own_first k op = true) (hstep : service_step k op = some (found, k')) : k'.Tracked := by
  cases op with
  | enlist name =>
    cases hstep
    exact h
  | service_handle name =>
    simp only [service_step] at hstep
    split_ifs at hstep <;> cases hstep <;> exact h
  | register_service_hook handle hook =>
    simp only [service_step] at hstep
    split_ifs at hstep
    cases hstep
    exact ⟨h.1.register handle hook, h.2⟩
  | register_service_observer handle observer =>
    simp only [service_step] at hstep
    split_ifs at hstep
    cases hstep
    exact ⟨h.1, h.2.register handle observer⟩
  | unregister_service name =>
    cases hstep
    exact (h.unregister hok).1

/-- **A removal removes what the service registered**, and leaves the rest in its order, in every run
whose removals find the service's own entries first. -/
theorem unregister_service_removes_own (ops : List ServiceOp) (answers : List Bool) (k k' : Kernel)
    (name : String) (found : Bool)
    (hok : along service_step (fun k op => own_first k op = true) .new (ops ++ [.unregister_service name]))
    (hrun : run service_step .new ops = some (answers, k))
    (hstep : service_step k (.unregister_service name) = some (found, k')) :
    k'.native_hooks.entries = k.native_hooks.entries.filter (·.1 ≠ name) ∧
      k'.observers.entries = k.observers.entries.filter (·.1 ≠ name) := by
  obtain ⟨hbefore, hlast⟩ := along_append.mp hok
  have htracked : k.Tracked := run_invariant Kernel.Tracked (fun _ _ _ _ h hok hstep => h.step hok hstep)
    ⟨fun _ => rfl, fun _ => rfl⟩ hbefore hrun
  cases hstep
  exact (htracked.unregister (hlast answers k hrun).1).2

def passing (name : String) : NativeInterceptHook := ⟨name, fun _ => .ok .Pass, []⟩

def two_services (name name' : String) : List ServiceOp :=
  [.enlist "a", .enlist "b", .service_handle "a", .service_handle "b",
    .register_service_hook "a" (passing name), .register_service_hook "b" (passing name')]

theorem unregister_service_removes_own_two_services :
    ∃ answers k k', run service_step .new (two_services "stamp" "gate") = some (answers, k) ∧
      service_step k (.unregister_service "b") = some (true, k') ∧
      k'.native_hooks.entries = k.native_hooks.entries.filter (·.1 ≠ "b") ∧
        k'.observers.entries = k.observers.entries.filter (·.1 ≠ "b") := by
  obtain ⟨answers, k, hrun, hstep⟩ := run_decides service_step .new (two_services "stamp" "gate")
    (fun _ k => (service_step k (.unregister_service "b")).any Prod.fst = true) (by decide +kernel)
  obtain ⟨⟨found, k'⟩, hstep, rfl⟩ := (Option.any_eq_true _ _).mp hstep
  refine ⟨answers, k, k', hrun, hstep,
    unregister_service_removes_own _ answers k k' "b" _ ?_ hrun hstep⟩
  exact along_of_check (fun _ _ h => h) (by decide +kernel)

/-- Two hooks of one name: with `b` goes the hook of `a`, and the one of `b` stays. -/
theorem removal_takes_another_hook :
    (run service_step .new (two_services "gate" "gate" ++ [.unregister_service "b"])).map
      (fun p => p.2.native_hooks.entries.map Prod.fst) = some ["b"] := by
  decide +kernel

end NexusVfs.Hooks
