/-
Keys and the context cache: `resolve_by_store_key` in `auth/src/provider.rs`, with the
eviction observer of the cluster profile.

A request takes five steps: it looks into the cache, drops what it found to be expired,
reads the record from the store, checks it, and caches the context. Between any two of
them other requests take theirs, records are committed, and the observer evicts the key
of each commit, in commit order. Nothing ties the insert to the read.
-/
import NexusVfs.AuthKeys
import NexusVfs.Runs

namespace NexusVfs.Auth

open List Runs Table

variable {β : Type}

/-! ## The system -/

structure CachedContext where
  ctx : OperationContext
  expires_at : ℕ
  deriving DecidableEq, Repr

/-- Where a request stands in `resolve_by_store_key`. -/
inductive Stage (β : Type) where
  | lookup
  | remove
  | get
  | check (bytes : β)
  | insert (ctx : OperationContext)

structure Request (β : Type) where
  store_key : String
  stage : Stage β

/-- A committed `PutControlState` (with its record) or `DeleteControlState` of a key. -/
structure Commit (β : Type) where
  key : String
  record : Option β

structure KeyPlane (β : Type) where
  store : Table String β
  cache : Table String CachedContext
  requests : Table ℕ (Request β)
  /-- The commits whose observer has still to run, oldest first. -/
  applied : List (Commit β)
  /-- History: the keys with a revocation that has been evicted, and no valid record since. -/
  revoked : String → Bool

def KeyPlane.new (store : Table String β) : KeyPlane β := ⟨store, ∅, ∅, [], fun _ => false⟩

inductive Event (β : Type) where
  | resolve_token (id : ℕ) (token : String)
  | lookup (id : ℕ) (now : ℕ)
  | remove (id : ℕ)
  /-- The store read; it may fail. -/
  | get (id : ℕ) (fails : Bool)
  | check (id : ℕ) (now_ms : ℕ)
  | insert (id : ℕ) (now : ℕ)
  | commit (commit : Commit β)
  /-- The observer's `invalidate` for the oldest commit. -/
  | invalidate

/-- The answer of a step: the request it ends, with its result. -/
abbrev Reply := Option (ℕ × Except Status OperationContext)

section Step

variable (hash_key : String → String) (decode : β → Option AuthKeyRecord) (cache_ttl : ℕ)

/-- The commit leaves a record that authenticates. -/
def Commit.valid (commit : Commit β) : Bool :=
  match commit.record with
  | some bytes => Auth.valid decode bytes
  | none => false

def KeyPlane.at_stage (s : KeyPlane β) (id : ℕ) (request : Request β) (stage : Stage β) : KeyPlane β :=
  { s with requests := s.requests.insert id { request with stage } }

def KeyPlane.finish (s : KeyPlane β) (id : ℕ) (result : Except Status OperationContext) :
    Reply × KeyPlane β :=
  (some (id, result), { s with requests := s.requests.remove id })

def KeyPlane.commit (s : KeyPlane β) (commit : Commit β) : KeyPlane β :=
  { s with
    store :=
      match commit.record with
      | some bytes => s.store.insert commit.key bytes
      | none => s.store.remove commit.key
    applied := s.applied ++ [commit]
    revoked := fun key => s.revoked key && !(decide (key = commit.key) && commit.valid decode) }

/-- `invalidate(key_hash)` for the commit, with `rest` still to come. -/
def KeyPlane.invalidate (s : KeyPlane β) (commit : Commit β) (rest : List (Commit β)) : KeyPlane β :=
  { s with
    cache := s.cache.remove commit.key
    applied := rest
    revoked := fun key =>
      if key = commit.key ∧ commit.valid decode = false then
        !(rest.any fun later => decide (later.key = key) && later.valid decode)
      else s.revoked key }

def key_step (s : KeyPlane β) : Event β → Option (Reply × KeyPlane β)
  | .resolve_token id token =>
    match s.requests.get id with
    | some _ => none
    | none =>
      if is_well_formed token then
        some (none, { s with requests := s.requests.insert id ⟨hash_key token, .lookup⟩ })
      else some (some (id, .error unauthenticated), s)
  | .lookup id now =>
    match s.requests.get id with
    | some ⟨store_key, .lookup⟩ =>
      match s.cache.get store_key with
      | some entry =>
        if now < entry.expires_at then some (s.finish id (.ok entry.ctx))
        else some (none, s.at_stage id ⟨store_key, .lookup⟩ .remove)
      | none => some (none, s.at_stage id ⟨store_key, .lookup⟩ .remove)
    | _ => none
  | .remove id =>
    match s.requests.get id with
    | some ⟨store_key, .remove⟩ =>
      let s := { s with cache := s.cache.remove store_key }
      some (none, s.at_stage id ⟨store_key, .remove⟩ .get)
    | _ => none
  | .get id fails =>
    match s.requests.get id with
    | some ⟨store_key, .get⟩ =>
      if fails then
        some (s.finish id (.error (.unavailable "auth key store unavailable")))
      else
        match s.store.get store_key with
        | none => some (s.finish id (.error unauthenticated))
        | some bytes => some (none, s.at_stage id ⟨store_key, .get⟩ (.check bytes))
    | _ => none
  | .check id now_ms =>
    match s.requests.get id with
    | some ⟨store_key, .check bytes⟩ =>
      match check_record decode bytes now_ms with
      | .error status => some (s.finish id (.error status))
      | .ok ctx => some (none, s.at_stage id ⟨store_key, .check bytes⟩ (.insert ctx))
    | _ => none
  | .insert id now =>
    match s.requests.get id with
    | some ⟨store_key, .insert ctx⟩ =>
      let s := { s with cache := s.cache.insert store_key ⟨ctx, now + cache_ttl⟩ }
      some (s.finish id (.ok ctx))
    | _ => none
  | .commit commit => some (none, s.commit decode commit)
  | .invalidate =>
    match s.applied with
    | [] => none
    | commit :: rest => some (none, s.invalidate decode commit rest)

end Step

/-! ## What a step of a request touches -/

section Requests

variable {hash_key : String → String} {decode : β → Option AuthKeyRecord} {cache_ttl : ℕ}
  {s s' : KeyPlane β} {event : Event β} {reply : Reply}

/-- The event is the commit of a record, or the eviction that follows one. -/
def Event.isCommit : Event β → Bool
  | .commit _ | .invalidate => true
  | _ => false

/-- A request leaves the store alone, and puts nothing into the cache but its own context in its last
step. -/
structure Reads (s s' : KeyPlane β) (event : Event β) : Prop where
  store : s'.store = s.store
  applied : s'.applied = s.applied
  revoked : s'.revoked = s.revoked
  cache : ∀ key entry, s'.cache.get key = some entry → s.cache.get key = some entry ∨
    ∃ id now request, event = .insert id now ∧ s.requests.get id = some request ∧
      request.store_key = key

theorem Reads.of_cache_eq (hstore : s'.store = s.store) (happlied : s'.applied = s.applied)
    (hrevoked : s'.revoked = s.revoked) (hcache : s'.cache = s.cache) : Reads s s' event :=
  ⟨hstore, happlied, hrevoked, fun _ _ h => .inl (hcache ▸ h)⟩

theorem reads_of_request (hevent : event.isCommit = false)
    (hstep : key_step hash_key decode cache_ttl s event = some (reply, s')) : Reads s s' event := by
  cases event with
  | commit commit => cases hevent
  | invalidate => cases hevent
  | resolve_token id token =>
    simp only [key_step] at hstep
    split at hstep
    · cases hstep
    · split_ifs at hstep
      all_goals
        cases hstep
        exact .of_cache_eq rfl rfl rfl rfl
  | lookup id now =>
    simp only [key_step] at hstep
    split at hstep
    · split at hstep
      · split_ifs at hstep
        all_goals
          cases hstep
          exact .of_cache_eq rfl rfl rfl rfl
      · cases hstep
        exact .of_cache_eq rfl rfl rfl rfl
    · cases hstep
  | remove id =>
    simp only [key_step] at hstep
    split at hstep
    · cases hstep
      refine ⟨rfl, rfl, rfl, fun key entry h => .inl ?_⟩
      simp only [KeyPlane.at_stage] at h
      rw [get_remove] at h
      split_ifs at h
      exact h
    · cases hstep
  | get id fails =>
    simp only [key_step] at hstep
    split at hstep
    · split_ifs at hstep
      · cases hstep
        exact .of_cache_eq rfl rfl rfl rfl
      · split at hstep
        all_goals
          cases hstep
          exact .of_cache_eq rfl rfl rfl rfl
    · cases hstep
  | check id now_ms =>
    simp only [key_step] at hstep
    split at hstep
    · split at hstep
      all_goals
        cases hstep
        exact .of_cache_eq rfl rfl rfl rfl
    · cases hstep
  | insert id now =>
    simp only [key_step] at hstep
    split at hstep
    · rename_i store_key ctx hget
      cases hstep
      refine ⟨rfl, rfl, rfl, fun key entry h => ?_⟩
      rw [get_insert] at h
      split_ifs at h with hkey
      · exact .inr ⟨id, now, _, rfl, hget, hkey.symm⟩
      · exact .inl h
    · cases hstep

theorem invalidate_eq (hstep : key_step hash_key decode cache_ttl s .invalidate = some (reply, s')) :
    ∃ commit rest, s.applied = commit :: rest ∧ reply = none ∧ s' = s.invalidate decode commit rest := by
  simp only [key_step] at hstep
  split at hstep
  · cases hstep
  · rename_i commit rest happlied
    cases hstep
    exact ⟨commit, rest, happlied, rfl, rfl⟩

end Requests

/-! ## Revoked keys stay out of the cache -/

section Revoked

variable (decode : β → Option AuthKeyRecord)

/-- A context goes into the cache before the revocation of its key has been evicted, or after the key
has got a valid record again. -/
def FillsInTime (s : KeyPlane β) : Event β → Prop
  | .insert id _ => ∀ request, s.requests.get id = some request → s.revoked request.store_key = false
  | _ => True

def Refuses (s : KeyPlane β) (key : String) : Prop :=
  ∀ bytes, s.store.get key = some bytes → valid decode bytes = false

structure Evicted (s : KeyPlane β) : Prop where
  cache : ∀ key, s.revoked key = true → s.cache.get key = none
  store : ∀ key, s.revoked key = true → Refuses decode s key
  later : ∀ key, s.revoked key = true → ∀ c ∈ s.applied, c.key = key → c.valid decode = false
  /-- A revocation without a valid commit behind it is what the store holds. -/
  last : ∀ before c after, s.applied = before ++ c :: after → c.valid decode = false →
    (∀ d ∈ after, d.key = c.key → d.valid decode = false) → Refuses decode s c.key

theorem evicted_new (store : Table String β) : Evicted decode (KeyPlane.new store) := by
  refine ⟨fun key h => ?_, fun key h => ?_, fun key h => ?_, fun before c after h => ?_⟩
  · cases h
  · cases h
  · cases h
  · exact absurd h.symm (by simp [KeyPlane.new])

variable {decode} {s : KeyPlane β}

variable (h : Evicted decode s)
include h

theorem Evicted.reads {s' : KeyPlane β} {event : Event β}
    (hreads : Reads s s' event) (hok : FillsInTime s event) : Evicted decode s' := by
  have hstore (key : String) : Refuses decode s' key ↔ Refuses decode s key := by
    unfold Refuses
    rw [hreads.store]
  refine ⟨fun key hkey => ?_, fun key hkey => ?_, fun key hkey => ?_, fun before c after happ => ?_⟩
  · rw [hreads.revoked] at hkey
    cases hentry : s'.cache.get key with
    | none => rfl
    | some entry =>
      rcases hreads.cache key entry hentry with hold | ⟨id, now, request, rfl, hrequest, rfl⟩
      · rw [h.cache key hkey] at hold
        cases hold
      · -- the one insert that would break it is late
        rw [hok request hrequest] at hkey
        cases hkey
  · rw [hreads.revoked] at hkey
    exact (hstore key).mpr (h.store key hkey)
  · rw [hreads.revoked] at hkey
    rw [hreads.applied]
    exact h.later key hkey
  · rw [hreads.applied] at happ
    rw [hstore]
    exact h.last before c after happ

omit h in
theorem refuses_commit {commit : Commit β} {key : String}
    (h : key = commit.key → commit.valid decode = false) (hold : key ≠ commit.key → Refuses decode s key) :
    Refuses decode (s.commit decode commit) key := by
  intro bytes hget
  simp only [KeyPlane.commit] at hget
  by_cases hkey : key = commit.key
  · have hvalid := h hkey
    unfold Commit.valid at hvalid
    cases hrecord : commit.record with
    | none =>
      rw [hrecord] at hget
      rw [hkey, get_remove_self] at hget
      cases hget
    | some new =>
      rw [hrecord] at hget hvalid
      rw [hkey, get_insert_self] at hget
      obtain rfl := Option.some.inj hget
      exact hvalid
  · apply hold hkey bytes
    cases hrecord : commit.record with
    | none =>
      rw [hrecord] at hget
      rwa [get_remove, if_neg hkey] at hget
    | some new =>
      rw [hrecord] at hget
      rwa [get_insert, if_neg hkey] at hget

theorem Evicted.commit (commit : Commit β) :
    Evicted decode (s.commit decode commit) := by
  have hrevoked {key : String} (hkey : (s.commit decode commit).revoked key = true) :
      s.revoked key = true ∧ (key = commit.key → commit.valid decode = false) := by
    simp only [KeyPlane.commit, Bool.and_eq_true, Bool.not_eq_true', Bool.and_eq_false_iff,
      decide_eq_false_iff_not] at hkey
    exact ⟨hkey.1, fun heq => hkey.2.resolve_left fun hne => hne heq⟩
  refine ⟨fun key hkey => ?_, fun key hkey => ?_, fun key hkey => ?_, fun before c after happ => ?_⟩
  · exact h.cache key (hrevoked hkey).1
  · exact refuses_commit (hrevoked hkey).2 fun _ => h.store key (hrevoked hkey).1
  · intro c hc hckey
    rcases mem_append.mp hc with hc | hc
    · exact h.later key (hrevoked hkey).1 c hc hckey
    · rw [mem_singleton.mp hc] at hckey ⊢
      exact (hrevoked hkey).2 hckey.symm
  · intro hc hafter
    -- the new commit is the last one of the queue
    rcases eq_nil_or_concat after with rfl | ⟨after, d, rfl⟩
    · obtain ⟨-, hlast⟩ := append_inj' happ rfl
      obtain ⟨rfl, -⟩ := cons.inj hlast
      exact refuses_commit (fun _ => hc) fun hne => absurd rfl hne
    · have happ' : s.applied ++ [commit] = (before ++ c :: after) ++ [d] := by
        simpa [KeyPlane.commit] using happ
      obtain ⟨hold, hlast⟩ := append_inj' happ' rfl
      obtain ⟨rfl, -⟩ := cons.inj hlast
      refine refuses_commit (fun hkey => ?_) fun _ => ?_
      · exact hafter commit (by simp) hkey.symm
      · exact h.last before c after hold hc fun d hd => hafter d (by simp [hd])

theorem Evicted.invalidate {commit : Commit β} {rest : List (Commit β)}
    (happlied : s.applied = commit :: rest) : Evicted decode (s.invalidate decode commit rest) := by
  have hmem {d : Commit β} (hd : d ∈ rest) : d ∈ s.applied := by
    rw [happlied]
    exact mem_cons_of_mem _ hd
  have hrevoked {key : String} (hkey : (s.invalidate decode commit rest).revoked key = true) :
      (key = commit.key ∧ commit.valid decode = false ∧
        ∀ d ∈ rest, d.key = key → d.valid decode = false) ∨ s.revoked key = true := by
    simp only [KeyPlane.invalidate] at hkey
    split_ifs at hkey with hthis
    · refine .inl ⟨hthis.1, hthis.2, fun d hd hdkey => ?_⟩
      simp only [Bool.not_eq_true', any_eq_false, Bool.and_eq_true, decide_eq_true_eq,
        not_and, Bool.not_eq_true] at hkey
      exact hkey d hd hdkey
    · exact .inr hkey
  refine ⟨fun key hkey => ?_, fun key hkey => ?_, fun key hkey => ?_, fun before c after happ => ?_⟩
  · simp only [KeyPlane.invalidate]
    rw [get_remove]
    split_ifs with heq
    · rfl
    · rcases hrevoked hkey with ⟨hthis, -⟩ | hold
      · exact absurd hthis heq
      · exact h.cache key hold
  · rcases hrevoked hkey with ⟨rfl, hc, hrest⟩ | hold
    · exact h.last [] commit rest happlied hc hrest
    · exact h.store key hold
  · rcases hrevoked hkey with ⟨-, -, hrest⟩ | hold
    · exact hrest
    · exact fun c hc => h.later key hold c (hmem hc)
  · have happ : rest = before ++ c :: after := happ
    exact h.last (commit :: before) c after (by rw [happlied, happ]; rfl)

theorem evicted_step {hash_key : String → String} {cache_ttl : ℕ} {s' : KeyPlane β} {event : Event β}
    {reply : Reply} (hok : FillsInTime s event)
    (hstep : key_step hash_key decode cache_ttl s event = some (reply, s')) : Evicted decode s' := by
  cases hcommit : event.isCommit with
  | false => exact h.reads (reads_of_request hcommit hstep) hok
  | true =>
    cases event with
    | commit commit =>
      cases hstep
      exact h.commit commit
    | invalidate =>
      obtain ⟨commit, rest, happlied, -, rfl⟩ := invalidate_eq hstep
      exact h.invalidate happlied
    | _ => cases hcommit

end Revoked

/-! ## A request for a revoked key -/

section Rejected

variable {hash_key : String → String} {decode : β → Option AuthKeyRecord} {cache_ttl : ℕ}
  {s s' : KeyPlane β} {event : Event β} {reply : Reply} {key : String} {id : ℕ}

/-- The request is for the key and holds nothing that would authenticate. -/
structure Doomed (decode : β → Option AuthKeyRecord) (key : String) (request : Request β) : Prop where
  key : request.store_key = key
  check : ∀ bytes, request.stage = .check bytes → valid decode bytes = false
  insert : ∀ ctx, request.stage ≠ .insert ctx

/-- The request with this id, if it is still there, is doomed. -/
def Rejecting (decode : β → Option AuthKeyRecord) (key : String) (id : ℕ) (s : KeyPlane β) : Prop :=
  ∀ request, s.requests.get id = some request → Doomed decode key request

theorem Rejecting.at_stage (h : Rejecting decode key id s) {id' : ℕ} {request : Request β}
    {stage : Stage β} (hnew : id = id' → Doomed decode key { request with stage }) :
    Rejecting decode key id (s.at_stage id' request stage) := by
  intro r hr
  simp only [KeyPlane.at_stage] at hr
  rw [get_insert] at hr
  split_ifs at hr with hid
  · obtain rfl := Option.some.inj hr
    exact hnew hid
  · exact h r hr

theorem Rejecting.finish (h : Rejecting decode key id s) (id' : ℕ) :
    Rejecting decode key id { s with requests := s.requests.remove id' } := by
  intro r hr
  rw [get_remove] at hr
  split_ifs at hr
  exact h r hr

/-- The events of a run in which the key gets no valid record and the id is not used again. -/
structure Unrelieved (decode : β → Option AuthKeyRecord) (key : String) (id : ℕ) (event : Event β) :
    Prop where
  resolve_token : ∀ token, event ≠ .resolve_token id token
  commit : ∀ c, event = .commit c → c.key = key → c.valid decode = false

variable (h : Evicted decode s) (hkey : s.revoked key = true)
include h hkey

theorem revoked_step (hevent : Unrelieved decode key id event)
    (hstep : key_step hash_key decode cache_ttl s event = some (reply, s')) : s'.revoked key = true := by
  cases hcommit : event.isCommit with
  | false =>
    rw [(reads_of_request hcommit hstep).revoked]
    exact hkey
  | true =>
    cases event with
    | commit commit =>
      cases hstep
      have hvalid := hevent.commit commit rfl
      by_cases heq : key = commit.key
      · simp [KeyPlane.commit, hkey, hvalid heq.symm]
      · simp [KeyPlane.commit, hkey, heq]
    | invalidate =>
      obtain ⟨commit, rest, happlied, -, rfl⟩ := invalidate_eq hstep
      simp only [KeyPlane.invalidate]
      split_ifs with hthis
      · rw [Bool.not_eq_true', any_eq_false]
        intro d hd
        have hmem : d ∈ s.applied := by
          rw [happlied]
          exact mem_cons_of_mem _ hd
        have hlater := h.later key hkey d hmem
        by_cases hdkey : d.key = key
        · simp [hlater hdkey]
        · simp [hdkey]
      · exact hkey
    | _ => cases hcommit

theorem rejecting_step (hid : Rejecting decode key id s) (hevent : Unrelieved decode key id event)
    (hstep : key_step hash_key decode cache_ttl s event = some (reply, s')) :
    Rejecting decode key id s' ∧ ∀ result, reply = some (id, result) → ∃ status, result = .error status := by
  have hnone (result : Except Status OperationContext) (hreply : (none : Reply) = some (id, result)) :
      ∃ status, result = .error status := by cases hreply
  cases event with
  | resolve_token id' token =>
    have hne : id ≠ id' := fun heq => hevent.resolve_token token (by rw [heq])
    simp only [key_step] at hstep
    split at hstep
    · cases hstep
    · split_ifs at hstep
      · cases hstep
        refine ⟨fun r hr => ?_, hnone⟩
        rw [get_insert, if_neg hne] at hr
        exact hid r hr
      · cases hstep
        refine ⟨hid, fun result hreply => ?_⟩
        cases hreply
        exact absurd rfl hne
  | lookup id' now =>
    simp only [key_step] at hstep
    split at hstep
    · rename_i store_key hrequest
      have hmiss : Rejecting decode key id (s.at_stage id' ⟨store_key, .lookup⟩ .remove) := by
        refine hid.at_stage fun heq => ?_
        subst heq
        exact ⟨(hid _ hrequest).key, by simp, by simp⟩
      split at hstep
      · rename_i entry hentry
        split_ifs at hstep
        · cases hstep
          refine ⟨hid.finish id', fun result hreply => ?_⟩
          -- a hit would be a cached context of a revoked key
          cases hreply
          have hkey' : store_key = key := (hid _ hrequest).key
          rw [hkey', h.cache key hkey] at hentry
          cases hentry
        · cases hstep
          exact ⟨hmiss, hnone⟩
      · cases hstep
        exact ⟨hmiss, hnone⟩
    · cases hstep
  | remove id' =>
    simp only [key_step] at hstep
    split at hstep
    · rename_i store_key hrequest
      cases hstep
      refine ⟨Rejecting.at_stage (fun r hr => hid r hr) fun heq => ?_, hnone⟩
      subst heq
      exact ⟨(hid _ hrequest).key, by simp, by simp⟩
    · cases hstep
  | get id' fails =>
    simp only [key_step] at hstep
    split at hstep
    · rename_i store_key hrequest
      split_ifs at hstep
      · cases hstep
        exact ⟨hid.finish id', fun result hreply => by cases hreply; exact ⟨_, rfl⟩⟩
      · split at hstep
        · cases hstep
          exact ⟨hid.finish id', fun result hreply => by cases hreply; exact ⟨_, rfl⟩⟩
        · rename_i bytes hbytes
          cases hstep
          refine ⟨hid.at_stage fun heq => ?_, hnone⟩
          subst heq
          have hkey' : store_key = key := (hid _ hrequest).key
          refine ⟨hkey', fun bytes' hstage => ?_, by simp⟩
          obtain rfl := Stage.check.inj hstage
          exact h.store key hkey bytes (hkey' ▸ hbytes)
    · cases hstep
  | check id' now_ms =>
    simp only [key_step] at hstep
    split at hstep
    · rename_i store_key bytes hrequest
      split at hstep
      · cases hstep
        exact ⟨hid.finish id', fun result hreply => by cases hreply; exact ⟨_, rfl⟩⟩
      · rename_i ctx hctx
        cases hstep
        refine ⟨hid.at_stage fun heq => ?_, hnone⟩
        subst heq
        have hinvalid := (hid _ hrequest).check bytes rfl
        rw [valid_of_check_record hctx] at hinvalid
        cases hinvalid
    · cases hstep
  | insert id' now =>
    simp only [key_step] at hstep
    split at hstep
    · rename_i store_key ctx hrequest
      cases hstep
      refine ⟨Rejecting.finish (fun r hr => hid r hr) id', fun result hreply => ?_⟩
      cases hreply
      exact absurd rfl ((hid _ hrequest).insert ctx)
    · cases hstep
  | commit commit =>
    cases hstep
    exact ⟨hid, hnone⟩
  | invalidate =>
    obtain ⟨commit, rest, -, rfl, rfl⟩ := invalidate_eq hstep
    exact ⟨hid, hnone⟩

theorem run_of_revoked {events : List (Event β)} {replies : List Reply} (hid : Rejecting decode key id s)
    (hevents : ∀ event ∈ events, Unrelieved decode key id event)
    (hok : along (key_step hash_key decode cache_ttl) FillsInTime s events)
    (hrun : run (key_step hash_key decode cache_ttl) s events = some (replies, s')) :
    Evicted decode s' ∧ s'.revoked key = true ∧ Rejecting decode key id s' := by
  induction events generalizing s replies with
  | nil =>
    cases hrun
    exact ⟨h, hkey, hid⟩
  | cons event events ih =>
    obtain ⟨reply, t, replies, hstep, hrest, rfl⟩ := run_cons.mp hrun
    have hevent := hevents event mem_cons_self
    exact ih (evicted_step h hok.1 hstep) (revoked_step h hkey hevent hstep)
      (rejecting_step h hkey hid hevent hstep).1
      (fun event hmem => hevents event (mem_cons_of_mem _ hmem)) (hok.2 reply t hstep) hrest

omit h hkey

/-- **A revoked key stops authenticating.** In a run whose inserts are all in time: a request that
starts after the revocation of its key was evicted, and ends before the key gets a valid record
again, ends with an error. -/
theorem revoked_key_is_rejected (hash_key : String → String) (decode : β → Option AuthKeyRecord)
    (cache_ttl : ℕ) (s : KeyPlane β) (id : ℕ) (store : Table String β) (before during : List (Event β))
    (last : Event β) (token : String) (replies replies' : List Reply) (t t' : KeyPlane β)
    (result : Except Status OperationContext)
    (hok : along (key_step hash_key decode cache_ttl) FillsInTime (KeyPlane.new store)
      (before ++ .resolve_token id token :: during))
    (hbefore : run (key_step hash_key decode cache_ttl) (KeyPlane.new store) before
      = some (replies, s))
    (hrevoked : s.revoked (hash_key token) = true)
    (hduring : run (key_step hash_key decode cache_ttl) s (.resolve_token id token :: during)
      = some (replies', t))
    (hevents : ∀ event ∈ during ++ [last], Unrelieved decode (hash_key token) id event)
    (hlast : key_step hash_key decode cache_ttl t last = some (some (id, result), t')) :
    ∃ status, result = .error status := by
  obtain ⟨hokBefore, hokAfter⟩ := along_append.mp hok
  have hs : Evicted decode s := run_invariant (Evicted decode)
    (fun _ _ _ _ h hok hstep => evicted_step h hok hstep) (evicted_new decode store) hokBefore hbefore
  obtain ⟨reply, u, rest, hstart, hrun, -⟩ := run_cons.mp hduring
  have hokDuring := (hokAfter replies s hbefore).2 reply u hstart
  have hu : Evicted decode u := evicted_step hs (hokAfter replies s hbefore).1 hstart
  have hukey : u.revoked (hash_key token) = true := by
    rw [(reads_of_request rfl hstart).revoked]
    exact hrevoked
  have huid : Rejecting decode (hash_key token) id u := by
    intro request hrequest
    simp only [key_step] at hstart
    split at hstart
    · cases hstart
    · rename_i hfree
      split_ifs at hstart
      · cases hstart
        rw [get_insert_self] at hrequest
        obtain rfl := Option.some.inj hrequest
        exact ⟨rfl, by simp, by simp⟩
      · cases hstart
        rw [hfree] at hrequest
        cases hrequest
  obtain ⟨ht, htkey, htid⟩ := run_of_revoked hu hukey huid
    (fun event hmem => hevents event (mem_append_left _ hmem)) hokDuring hrun
  exact (rejecting_step ht htkey htid (hevents last (by simp)) hlast).2 result rfl

end Rejected

/-! ### A late insert -/

/-- A record is its own encoding here, and a key its own hash. -/
def agent_record : AuthKeyRecord := ⟨"key-agent", "mac-ai", .Agent, "mac-ai", false, false, none,
  [("sharedzone", "rw")]⟩

def agent_key : String := "sk-mac-ai-0123456789abcdef0123456789"

def revocation : List (Event AuthKeyRecord) := [.commit ⟨agent_key, none⟩, .invalidate]

/-- Request 1 reads the record before the revocation, and caches its context after the eviction. -/
def late_insert : List (Event AuthKeyRecord) :=
  [.resolve_token 1 agent_key, .lookup 1 0, .remove 1, .get 1 false, .check 1 0] ++ revocation ++
    [.insert 1 0]

abbrev plain_step : KeyPlane AuthKeyRecord → Event AuthKeyRecord → Option (Reply × KeyPlane AuthKeyRecord) :=
  key_step id some 30

/-- **A revoked key that authenticates.** Request 2 starts after the revocation was evicted, with no
record in the store, and gets the context that request 1 put into the cache. -/
theorem late_insert_outlives_revocation :
    (run plain_step (KeyPlane.new (Table.insert ∅ agent_key agent_record)) late_insert).any (fun p =>
      p.2.revoked agent_key && (p.2.store.get agent_key).isNone &&
      (run plain_step p.2 [.resolve_token 2 agent_key, .lookup 2 1]).any fun q =>
        decide (q.1 = [none, some (2, .ok (context_from_record agent_record))])) = true := by
  decide +kernel

def timely_insert : List (Event AuthKeyRecord) :=
  [.resolve_token 1 agent_key, .lookup 1 0, .remove 1, .get 1 false, .check 1 0, .insert 1 0] ++
    revocation

def fills_check (s : KeyPlane AuthKeyRecord) : Event AuthKeyRecord → Bool
  | .insert id _ => (s.requests.get id).all fun request => !s.revoked request.store_key
  | _ => true

theorem fills_of_check (s : KeyPlane AuthKeyRecord) (event : Event AuthKeyRecord)
    (h : fills_check s event = true) : FillsInTime s event := by
  cases event with
  | insert id now =>
    intro request hrequest
    simpa [fills_check, hrequest] using h
  | _ => trivial

/-- The request that found the key revoked. -/
theorem revoked_key_is_rejected_in_time :
    ∃ replies s replies' t result t',
      run plain_step (KeyPlane.new (Table.insert ∅ agent_key agent_record)) timely_insert
        = some (replies, s) ∧
      s.revoked agent_key = true ∧
      run plain_step s [.resolve_token 2 agent_key, .lookup 2 1, .remove 2] = some (replies', t) ∧
      plain_step t (.get 2 false) = some (some (2, result), t') ∧ ∃ status, result = .error status := by
  obtain ⟨replies, s, hbefore, hrevoked, h⟩ := run_decides plain_step
    (KeyPlane.new (Table.insert ∅ agent_key agent_record)) timely_insert (fun _ s =>
      s.revoked agent_key = true ∧
      ((run plain_step s [.resolve_token 2 agent_key, .lookup 2 1, .remove 2]).any fun q =>
        (plain_step q.2 (.get 2 false)).any fun r =>
          r.1.any fun reply => decide (reply.1 = 2)) = true) (by decide +kernel)
  obtain ⟨⟨replies', t⟩, hduring, h⟩ := (Option.any_eq_true _ _).mp h
  obtain ⟨⟨reply, t'⟩, hlast, h⟩ := (Option.any_eq_true _ _).mp h
  obtain ⟨⟨id', result⟩, rfl, h⟩ := (Option.any_eq_true _ _).mp h
  obtain rfl : id' = 2 := of_decide_eq_true h
  refine ⟨replies, s, replies', t, result, t', hbefore, hrevoked, hduring, hlast, ?_⟩
  refine revoked_key_is_rejected id some 30 s 2
    (Table.insert ∅ agent_key agent_record) timely_insert [.lookup 2 1, .remove 2] (.get 2 false)
    agent_key replies replies' t t' result ?_ hbefore hrevoked hduring ?_ hlast
  · exact along_of_check fills_of_check (by decide +kernel)
  · intro event hmem
    simp only [cons_append, nil_append, mem_cons, not_mem_nil, or_false] at hmem
    rcases hmem with rfl | rfl | rfl <;> exact ⟨by simp, by simp⟩

end NexusVfs.Auth
