/-
The per-zone graph cache under any interleaving with the tuple store.

One event is one step of the source: a change of the store's rows, the publication of
its revision, and the steps of `graph_for_zone`. Both stores are covered: the in-memory
one changes rows and revision under one write lock; a raft store applies the rows first
and publishes the applied index afterwards, and its index also moves for other
namespaces and restored snapshots. Revisions do not wrap.

`moments`, `publications`, `returned` and `served` are history. No step reads them
except for `start`, which notes `returned`.
-/
import NexusVfs.RebacProvider
import NexusVfs.Runs
import NexusVfs.Table

namespace NexusVfs.Rebac

open Words Runs Table List

/-! ## State -/

inductive StoreKind where
  | InMemory
  | Raft
deriving DecidableEq, Repr

abbrev Rows := Table String Bytes

/-- What changes the rows. The last two are changes of a raft store: an applied command of another
namespace, and the restore of a snapshot. -/
inductive Change where
  | put (key : String) (value : Bytes)
  | delete (key : String)
  | unrelated
  | restore (rows : Rows)

def Change.apply (rows : Rows) : Change → Rows
  | .put key value => rows.insert key value
  | .delete key => rows.remove key
  | .unrelated => rows
  | .restore rows' => rows'

def REV_ALWAYS_STALE : ℕ := 0

structure ZoneEntry where
  revision : ℕ
  graph : ReBACGraph

/-- Where a call of `graph_for_zone` stands. `since` is the latest change that had returned when the
call started. -/
inductive Call where
  | idle
  | read_revision (zone : String) (since : ℕ)
  | lookup (zone : String) (since revision : ℕ)
  | build (zone : String) (since revision : ℕ)
  | reread (zone : String) (since revision : ℕ) (graph : ReBACGraph)
  | insert (zone : String) (since revision : ℕ) (graph : ReBACGraph)

structure Served where
  zone : String
  since : ℕ
  graph : ReBACGraph

structure System where
  rows : Rows
  revision : ℕ
  /-- The revision that the change under way will publish. -/
  applying : Option ℕ
  zones : Table String ZoneEntry
  calls : ℕ → Call
  moments : List Rows
  published : ℕ
  publications : List (ℕ × ℕ)
  returned : ℕ
  served : List Served

/-- An in-memory store starts empty, a raft store with what it recovered. -/
def initial : StoreKind → Rows → ℕ → System
  | .InMemory, _, _ => ⟨∅, 0, none, ∅, fun _ => .idle, [∅], 0, [(0, 0)], 0, []⟩
  | .Raft, rows, revision =>
    ⟨rows, revision, none, ∅, fun _ => .idle, [rows], 0, [(revision, 0)], 0, []⟩

/-! ## Steps -/

inductive CacheOp where
  | write (revision : ℕ) (change : Change)
  | publish
  | delete_absent (key : String)
  | returns (moment : ℕ)
  | start (t : ℕ) (zone : String)
  | read_revision (t : ℕ)
  | lookup (t : ℕ)
  | build (t : ℕ) (list : Except ReBACTupleStoreError (List (String × Bytes)))
  | reread (t : ℕ)
  | insert (t : ℕ)
  | invalidate (zone : String)

/-- Whether the store may make the change now, under that revision. -/
def may_write (kind : StoreKind) (s : System) (revision : ℕ) (change : Change) : Bool :=
  s.applying.isNone &&
    match kind, change with
    | .InMemory, .put _ _ => revision == s.revision + 1
    | .InMemory, .delete key => revision == s.revision + 1 && (s.rows.get key).isSome
    | .InMemory, _ => false
    | .Raft, _ => s.revision < revision

/-- Whether the store may answer a listing so now: in any order, not while the in-memory store's
write lock is held, and only a raft store can fail. -/
def may_list (kind : StoreKind) (s : System) :
    Except ReBACTupleStoreError (List (String × Bytes)) → Bool
  | .error _ => kind == .Raft
  | .ok entries =>
    (kind == .Raft || s.applying.isNone) && entries.isPerm (s.rows.scan fun _ => true)

def set_call (s : System) (t : ℕ) (call : Call) : System :=
  { s with calls := fun t' => if t' = t then call else s.calls t' }

def serve (s : System) (t : ℕ) (zone : String) (since : ℕ) (graph : ReBACGraph) : System :=
  { set_call s t .idle with served := ⟨zone, since, graph⟩ :: s.served }

def cache_step (kind : StoreKind) (s : System) : CacheOp → Option (Unit × System)
  | .write revision change =>
    if may_write kind s revision change then
      let rows := change.apply s.rows
      some ((), { s with rows, applying := some revision, moments := s.moments ++ [rows] })
    else none
  | .publish =>
    match s.applying with
    | none => none
    | some revision =>
      let published := s.moments.length - 1
      some ((), { s with
        revision, applying := none, published
        publications := (revision, published) :: s.publications })
  -- a delete that finds nothing in the in-memory store: no change, no new revision
  | .delete_absent key =>
    if kind = .InMemory ∧ s.applying = none ∧ s.rows.get key = none then
      some ((), { s with returned := s.published })
    else none
  | .returns moment =>
    if moment ≤ s.published then some ((), { s with returned := max s.returned moment }) else none
  | .start t zone =>
    match s.calls t with
    | .idle => some ((), set_call s t (.read_revision zone s.returned))
    | _ => none
  | .read_revision t =>
    match s.calls t with
    | .read_revision zone since =>
      if s.revision ≠ REV_ALWAYS_STALE then some ((), set_call s t (.lookup zone since s.revision))
      else some ((), set_call s t (.build zone since s.revision))
    | _ => none
  | .lookup t =>
    match s.calls t with
    | .lookup zone since revision =>
      match s.zones.get zone with
      | some entry =>
        if entry.revision = revision then some ((), serve s t zone since entry.graph)
        else some ((), set_call s t (.build zone since revision))
      | none => some ((), set_call s t (.build zone since revision))
    | _ => none
  | .build t list =>
    match s.calls t with
    | .build zone since revision =>
      if may_list kind s list then
        match build_graph_for_zone list zone with
        | .error _ => some ((), set_call s t .idle)
        | .ok graph =>
          if revision ≠ REV_ALWAYS_STALE then some ((), set_call s t (.reread zone since revision graph))
          else some ((), serve s t zone since graph)
      else none
    | _ => none
  | .reread t =>
    match s.calls t with
    | .reread zone since revision graph =>
      if s.revision = revision then some ((), set_call s t (.insert zone since revision graph))
      else some ((), serve s t zone since graph)
    | _ => none
  | .insert t =>
    match s.calls t with
    | .insert zone since revision graph =>
      some ((), { serve s t zone since graph with zones := s.zones.insert zone ⟨revision, graph⟩ })
    | _ => none
  | .invalidate zone => some ((), { s with zones := s.zones.remove zone })

/-! ## What a graph shows -/

/-- The graph of the rows, listed in some order. -/
def GraphOf (rows : Rows) (zone : String) (graph : ReBACGraph) : Prop :=
  ∃ entries : List (String × Bytes), entries.Perm (rows.scan fun _ => true) ∧
    graph = .from_tuples (tuples_of_zone entries zone)

/-- The graph is one of rows that the store held at the moment or later. -/
def ShownSince (moments : List Rows) (moment : ℕ) (zone : String) (graph : ReBACGraph) : Prop :=
  ∃ m rows, moment ≤ m ∧ moments[m]? = some rows ∧ GraphOf rows zone graph

def PublishedAt (s : System) (revision moment : ℕ) : Prop := (revision, moment) ∈ s.publications

/-- What a call knows: its revision was published after every change that had returned when it
started, and its graph is not older than that revision. -/
def CallInv (s : System) : Call → Prop
  | .idle => True
  | .read_revision _ since => since ≤ s.published
  | .lookup _ since revision => ∃ p, PublishedAt s revision p ∧ since ≤ p
  | .build _ since revision => ∃ p, PublishedAt s revision p ∧ since ≤ p
  | .reread zone since revision graph =>
    ∃ p, PublishedAt s revision p ∧ since ≤ p ∧ ShownSince s.moments p zone graph
  | .insert zone since revision graph =>
    ∃ p, PublishedAt s revision p ∧ since ≤ p ∧ ShownSince s.moments p zone graph

structure CacheInv (s : System) : Prop where
  rows_last : s.moments.getLast? = some s.rows
  applying : ∀ revision, s.applying = some revision → s.revision < revision
  published_lt : s.published < s.moments.length
  current : PublishedAt s s.revision s.published
  bounded : ∀ r p, PublishedAt s r p → r ≤ s.revision ∧ p ≤ s.published
  once : ∀ r p p', PublishedAt s r p → PublishedAt s r p' → p = p'
  returned_le : s.returned ≤ s.published
  cached : ∀ zone entry, s.zones.get zone = some entry →
    ∃ p, PublishedAt s entry.revision p ∧ ShownSince s.moments p zone entry.graph
  calls : ∀ t, CallInv s (s.calls t)
  served : ∀ c ∈ s.served, ShownSince s.moments c.since c.zone c.graph

/-! ## What a step keeps -/

structure Grows (s s' : System) : Prop where
  moments : s.moments <+: s'.moments
  publications : ∀ r p, PublishedAt s r p → PublishedAt s' r p
  published : s.published ≤ s'.published

variable {s s' : System}

theorem Grows.of_same (hmoments : s'.moments = s.moments)
    (hpublications : s'.publications = s.publications) (hpublished : s'.published = s.published) :
    Grows s s' := by
  refine ⟨hmoments ▸ prefix_rfl, fun r p hp => ?_, hpublished.ge⟩
  rw [PublishedAt, hpublications]
  exact hp

variable {moments : List Rows} {moment : ℕ} {zone : String} {graph : ReBACGraph}

theorem ShownSince.mono {moments' : List Rows}
    (h : ShownSince moments moment zone graph) (hpre : moments <+: moments') :
    ShownSince moments' moment zone graph := by
  obtain ⟨m, rows, hle, hrows, hgraph⟩ := h
  obtain ⟨later, rfl⟩ := hpre
  obtain ⟨hm, -⟩ := List.getElem?_eq_some_iff.mp hrows
  refine ⟨m, rows, hle, ?_, hgraph⟩
  rw [List.getElem?_append_left hm]
  exact hrows

theorem ShownSince.of_le {moment' : ℕ}
    (h : ShownSince moments moment' zone graph) (hle : moment ≤ moment') :
    ShownSince moments moment zone graph := by
  obtain ⟨m, rows, hm, hrest⟩ := h
  exact ⟨m, rows, hle.trans hm, hrest⟩

theorem CallInv.mono {call : Call} (h : CallInv s call) (hgrows : Grows s s') :
    CallInv s' call := by
  cases call with
  | idle => trivial
  | read_revision zone since => exact Nat.le_trans h hgrows.published
  | lookup zone since revision | build zone since revision =>
    obtain ⟨p, hp, hsince⟩ := h
    exact ⟨p, hgrows.publications _ _ hp, hsince⟩
  | reread zone since revision graph | insert zone since revision graph =>
    obtain ⟨p, hp, hsince, hshown⟩ := h
    exact ⟨p, hgrows.publications _ _ hp, hsince, hshown.mono hgrows.moments⟩

namespace CacheInv

variable {s : System} {t since revision : ℕ} {zone : String} {graph : ReBACGraph}

variable (h : CacheInv s)
include h

theorem set_call {call : Call} (hcall : CallInv s call) : CacheInv (set_call s t call) := by
  have hgrows : Grows s (Rebac.set_call s t call) := .of_same rfl rfl rfl
  refine { h with calls := fun t' => ?_ }
  change CallInv (Rebac.set_call s t call) (if t' = t then call else s.calls t')
  split_ifs with ht
  · exact hcall.mono hgrows
  · exact (h.calls t').mono hgrows

theorem serve (hshown : ShownSince s.moments since zone graph) :
    CacheInv (serve s t zone since graph) := by
  have hidle : CacheInv (Rebac.set_call s t .idle) := h.set_call trivial
  refine { hidle with
    calls := fun t' => (hidle.calls t').mono (.of_same rfl rfl rfl)
    served := fun c hc => ?_ }
  rcases mem_cons.mp hc with rfl | hc
  · exact hshown
  · exact h.served c hc

variable {kind : StoreKind}

theorem shown_now {list : Except ReBACTupleStoreError (List (String × Bytes))} (hlist : may_list kind s list = true)
    (hbuild : build_graph_for_zone list zone = .ok graph) :
    ShownSince s.moments s.published zone graph := by
  cases list with
  | error e => cases hbuild
  | ok entries =>
    cases hbuild
    have hperm : entries.isPerm (s.rows.scan fun _ => true) = true := by
      simp only [may_list, Bool.and_eq_true] at hlist
      exact hlist.2
    refine ⟨s.moments.length - 1, s.rows, ?_, ?_, entries, isPerm_iff.mp hperm, rfl⟩
    · have := h.published_lt
      omega
    · rw [← getLast?_eq_getElem?]
      exact h.rows_last

theorem write {change : Change} (hmay : may_write kind s revision change = true) :
    CacheInv { s with
      rows := change.apply s.rows, applying := some revision
      moments := s.moments ++ [change.apply s.rows] } := by
  have hpre : s.moments <+: s.moments ++ [change.apply s.rows] := prefix_append _ _
  have hgrows : Grows s { s with
      rows := change.apply s.rows, applying := some revision
      moments := s.moments ++ [change.apply s.rows] } :=
    ⟨hpre, fun _ _ hp => hp, Nat.le_refl _⟩
  refine { h with
    rows_last := by simp
    applying := fun r hr => ?_
    published_lt := ?_
    cached := fun zone entry hentry => ?_
    calls := fun t => (h.calls t).mono hgrows
    served := fun c hc => (h.served c hc).mono hpre }
  · cases hr
    simp only [may_write, Bool.and_eq_true] at hmay
    have hmay := hmay.2
    cases kind with
    | Raft => simpa using hmay
    | InMemory =>
      cases change with
      | put key value =>
        simp only [beq_iff_eq] at hmay
        change s.revision < revision
        omega
      | delete key =>
        simp only [Bool.and_eq_true, beq_iff_eq] at hmay
        change s.revision < revision
        omega
      | unrelated => cases hmay
      | restore rows => cases hmay
  · have := h.published_lt
    simp only [length_append, length_singleton]
    omega
  · obtain ⟨p, hp, hshown⟩ := h.cached zone entry hentry
    exact ⟨p, hp, hshown.mono hpre⟩

theorem publish (happlying : s.applying = some revision) :
    CacheInv { s with
      revision, applying := none, published := s.moments.length - 1
      publications := (revision, s.moments.length - 1) :: s.publications } := by
  have hnew := h.applying revision happlying
  have hlt := h.published_lt
  have hgrows : Grows s { s with
      revision, applying := none, published := s.moments.length - 1
      publications := (revision, s.moments.length - 1) :: s.publications } := by
    refine ⟨prefix_rfl, fun _ _ hp => mem_cons_of_mem _ hp, ?_⟩
    change s.published ≤ s.moments.length - 1
    omega
  refine { h with
    applying := nofun
    published_lt := ?_
    current := mem_cons_self
    bounded := fun r p hp => ?_
    once := fun r p p' hp hp' => ?_
    returned_le := Nat.le_trans h.returned_le hgrows.published
    cached := fun zone entry hentry => ?_
    calls := fun t => (h.calls t).mono hgrows }
  · change s.moments.length - 1 < s.moments.length
    omega
  · rcases mem_cons.mp hp with heq | hp
    · cases heq
      exact ⟨Nat.le_refl _, Nat.le_refl _⟩
    · obtain ⟨hr, hp⟩ := h.bounded r p hp
      exact ⟨Nat.le_trans hr hnew.le, Nat.le_trans hp hgrows.published⟩
  · -- a revision published before is smaller than the new one
    have hold : ∀ p, ¬ PublishedAt s revision p := by
      intro p hp
      have := (h.bounded revision p hp).1
      omega
    rcases mem_cons.mp hp with heq | hp
    · cases heq
      rcases mem_cons.mp hp' with heq | hp'
      · cases heq
        rfl
      · exact (hold p' hp').elim
    · rcases mem_cons.mp hp' with heq | hp'
      · cases heq
        exact (hold p hp).elim
      · exact h.once r p p' hp hp'
  · obtain ⟨p, hp, hshown⟩ := h.cached zone entry hentry
    exact ⟨p, hgrows.publications _ _ hp, hshown⟩

theorem insert (hcall : s.calls t = .insert zone since revision graph) :
    CacheInv { Rebac.serve s t zone since graph with
      zones := s.zones.insert zone ⟨revision, graph⟩ } := by
  have hown := h.calls t
  rw [hcall] at hown
  obtain ⟨p, hp, hsince, hshown⟩ := hown
  have hserved : CacheInv (Rebac.serve s t zone since graph) := h.serve (hshown.of_le hsince)
  refine { hserved with
    calls := fun t' => (hserved.calls t').mono (.of_same rfl rfl rfl)
    cached := fun zone' entry hentry => ?_ }
  by_cases hzone : zone' = zone
  · subst hzone
    rw [get_insert, if_pos rfl] at hentry
    cases hentry
    exact ⟨p, hp, hshown⟩
  · rw [get_insert_of_ne _ _ hzone] at hentry
    exact h.cached zone' entry hentry

theorem invalidate : CacheInv { s with zones := s.zones.remove zone } := by
  refine { h with
    calls := fun t' => (h.calls t').mono (.of_same rfl rfl rfl)
    cached := fun zone' entry hentry => ?_ }
  by_cases hzone : zone' = zone
  · rw [get_remove, if_pos hzone] at hentry
    cases hentry
  · rw [get_remove_of_ne _ hzone] at hentry
    exact h.cached zone' entry hentry

theorem returned {moment : ℕ} (hle : moment ≤ s.published) :
    CacheInv { s with returned := moment } :=
  { h with
    returned_le := hle
    calls := fun t' => (h.calls t').mono (.of_same rfl rfl rfl) }

omit h

end CacheInv

theorem cache_step_inv {kind : StoreKind} {op : CacheOp} {u : Unit} (h : CacheInv s)
    (hstep : cache_step kind s op = some (u, s')) : CacheInv s' := by
  cases op with
  | write revision change =>
    simp only [cache_step] at hstep
    split_ifs at hstep with hmay
    cases hstep
    exact h.write hmay
  | publish =>
    simp only [cache_step] at hstep
    split at hstep
    · cases hstep
    · cases hstep
      rename_i happlying
      exact h.publish happlying
  | delete_absent key =>
    simp only [cache_step] at hstep
    split_ifs at hstep
    cases hstep
    exact h.returned (Nat.le_refl _)
  | returns moment =>
    simp only [cache_step] at hstep
    split_ifs at hstep with hle
    cases hstep
    exact h.returned (Nat.max_le.mpr ⟨h.returned_le, hle⟩)
  | start t zone =>
    simp only [cache_step] at hstep
    split at hstep
    · cases hstep
      exact h.set_call h.returned_le
    · cases hstep
  | read_revision t =>
    simp only [cache_step] at hstep
    split at hstep
    · rename_i zone since hcall
      have hown := h.calls t
      rw [hcall] at hown
      split_ifs at hstep
      all_goals
        cases hstep
        exact h.set_call ⟨s.published, h.current, hown⟩
    · cases hstep
  | lookup t =>
    simp only [cache_step] at hstep
    split at hstep
    · rename_i zone since revision hcall
      have hown := h.calls t
      rw [hcall] at hown
      split at hstep
      · rename_i entry hentry
        split_ifs at hstep with hrevision
        · cases hstep
          -- the entry and the call agree on the revision, so on the moment it was published
          obtain ⟨p, hp, hsince⟩ := hown
          obtain ⟨p', hp', hshown⟩ := h.cached zone entry hentry
          rw [hrevision] at hp'
          cases h.once revision p p' hp hp'
          exact h.serve (hshown.of_le hsince)
        · cases hstep
          exact h.set_call hown
      · cases hstep
        exact h.set_call hown
    · cases hstep
  | build t list =>
    simp only [cache_step] at hstep
    split at hstep
    · rename_i zone since revision hcall
      have hown := h.calls t
      rw [hcall] at hown
      obtain ⟨p, hp, hsince⟩ := hown
      cases hlist : may_list kind s list with
      | false => simp [hlist] at hstep
      | true =>
        rw [hlist] at hstep
        cases hbuild : build_graph_for_zone list zone with
        | error e =>
          rw [hbuild] at hstep
          cases hstep
          exact h.set_call trivial
        | ok graph =>
          have hshown := (h.shown_now hlist hbuild).of_le (h.bounded revision p hp).2
          rw [hbuild] at hstep
          split_ifs at hstep
          · cases hstep
            exact h.set_call ⟨p, hp, hsince, hshown⟩
          · cases hstep
            exact h.serve (hshown.of_le hsince)
    · cases hstep
  | reread t =>
    simp only [cache_step] at hstep
    split at hstep
    · rename_i zone since revision graph hcall
      have hown := h.calls t
      rw [hcall] at hown
      split_ifs at hstep
      · cases hstep
        exact h.set_call hown
      · cases hstep
        obtain ⟨p, hp, hsince, hshown⟩ := hown
        exact h.serve (hshown.of_le hsince)
    · cases hstep
  | insert t =>
    simp only [cache_step] at hstep
    split at hstep
    · rename_i zone since revision graph hcall
      cases hstep
      exact h.insert hcall
    · cases hstep
  | invalidate zone =>
    cases hstep
    exact h.invalidate

theorem cacheInv_initial (kind : StoreKind) (rows : Rows) (revision : ℕ) :
    CacheInv (initial kind rows revision) := by
  have hempty : ∀ (rows : Rows) (revision : ℕ), CacheInv
      ⟨rows, revision, none, ∅, fun _ => .idle, [rows], 0, [(revision, 0)], 0, []⟩ := by
    intro rows revision
    refine ⟨rfl, nofun, Nat.zero_lt_one, mem_cons_self, fun r p hp => ?_,
      fun r p p' hp hp' => ?_, Nat.le_refl 0, fun zone entry hentry => ?_, fun _ => trivial, nofun⟩
    · cases mem_singleton.mp hp
      exact ⟨Nat.le_refl _, Nat.le_refl _⟩
    · cases mem_singleton.mp hp
      cases mem_singleton.mp hp'
      rfl
    · simp [Table.get] at hentry
  cases kind with
  | InMemory => exact hempty ∅ 0
  | Raft => exact hempty rows revision

/-- In every interleaving a call returns the graph of rows the store held after every `put` and
`delete` that had returned when the call started, and a cached entry is the graph of rows the store
held when its revision was published or later. -/
theorem served_graphs_are_current (kind : StoreKind) (rows : Rows) (revision : ℕ)
    (ops : List CacheOp) (answers : List Unit) (s : System)
    (hrun : run (cache_step kind) (initial kind rows revision) ops = some (answers, s)) :
    (∀ c ∈ s.served, ShownSince s.moments c.since c.zone c.graph) ∧
      (∀ zone entry, s.zones.get zone = some entry →
        ∃ p, (∀ p', PublishedAt s entry.revision p' ↔ p' = p) ∧
          ShownSince s.moments p zone entry.graph) := by
  have hany : along (cache_step kind) (fun _ _ => True) (initial kind rows revision) ops :=
    along_of_forall_mem fun _ _ _ => trivial
  have hinv : CacheInv s :=
    run_invariant CacheInv (fun s op u s' h _ hstep => cache_step_inv h hstep)
      (cacheInv_initial kind rows revision) hany hrun
  refine ⟨hinv.served, fun zone entry hentry => ?_⟩
  obtain ⟨p, hp, hshown⟩ := hinv.cached zone entry hentry
  refine ⟨p, fun p' => ⟨fun hp' => hinv.once _ _ _ hp' hp, fun heq => ?_⟩, hshown⟩
  rw [heq]
  exact hp

/-- A grant, a call that caches its graph, the revocation, and another call. -/
def revocation : List CacheOp :=
  let key := "z|file|/p|viewer|user|u"
  [.write 1 (.put key []), .publish, .returns 1,
    .start 0 "z", .read_revision 0, .lookup 0, .build 0 (.ok [(key, [])]), .reread 0, .insert 0,
    .write 2 (.delete key), .publish, .returns 2,
    .start 0 "z", .read_revision 0, .lookup 0, .build 0 (.ok []), .reread 0, .insert 0]

theorem served_graphs_are_current_revocation :
    ∃ answers s, run (cache_step .InMemory) (initial .InMemory ∅ 0) revocation = some (answers, s) ∧
      s.served.map Served.since = [2, 1] ∧
      ∀ c ∈ s.served, ShownSince s.moments c.since c.zone c.graph := by
  refine exists_run (fun _ s => s.served.map Served.since = [2, 1]) (by decide +kernel) ?_
  intro answers s hrun hsince
  exact ⟨hsince, (served_graphs_are_current .InMemory ∅ 0 revocation answers s hrun).1⟩

end NexusVfs.Rebac
