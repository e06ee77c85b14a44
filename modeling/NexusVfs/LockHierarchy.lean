/-
Advisory locks exclude each other along the path hierarchy, and a lease keeps others
out.

`apply_acquire` looks upwards by cutting the path at its `/`s and downwards by one range
of the ordered map; on normalised paths both come down to `Above`. The other operations
leave an entry with some of the holders it had (`Fewer`).
-/
import NexusVfs.IoLocks
import NexusVfs.LockState

namespace NexusVfs.LockState

open Option List Text IoLocks Table

/-! ## The two walks -/

structure Absolute (path : String) : Prop where
  normal : Normal path.toList
  rooted : path.toList.head? = some '/'

instance (p : String) : Decidable (Absolute p) :=
  decidable_of_iff (p.toList ≠ [] ∧ ¬ ['/', '/'] <:+: p.toList ∧
      (1 < p.toList.length → p.toList.getLast? ≠ some '/') ∧ p.toList.head? = some '/')
    ⟨fun ⟨hne, hsingle, hend, hhead⟩ => ⟨⟨hne, hsingle, hend⟩, hhead⟩,
      fun h => ⟨h.normal.nonempty, h.normal.single, h.normal.ending, h.rooted⟩⟩

variable {a lock_id : String} {s : LockState} {old : LockEntry} {expires_at : UInt64}
variable {hs : List HolderInfo}

theorem mem_ancestors_walk (hne : a ≠ "") (after : List Char) :
    a ∈ LockState.ancestors_loop (after ++ '/' :: a.toList.reverse) := by
  induction after with
  | nil =>
    have hrev : a.toList.reverse ≠ [] := by simpa using hne
    simp [LockState.ancestors_loop, hrev]
  | cons c after ih =>
    rw [cons_append, LockState.ancestors_loop]
    split_ifs with hc hnil
    · simp at hnil
    · exact mem_cons_of_mem _ ih
    · exact ih

theorem root_mem_walk (after : List Char) : "/" ∈ LockState.ancestors_loop (after ++ ['/']) := by
  induction after with
  | nil => simp [LockState.ancestors_loop]
  | cons c after ih =>
    rw [cons_append, LockState.ancestors_loop]
    split_ifs with hc hnil
    · simp at hnil
    · exact mem_cons_of_mem _ ih
    · exact ih

theorem mem_ancestors_of_above {b : String} (ha : Absolute a) (hb : Absolute b) (h : Above a b) :
    a ∈ LockState.ancestors b := by
  obtain ⟨hab, t, ht⟩ := h
  have hempty {p : String} (hp : Absolute p) : p ≠ "" :=
    fun h => hp.normal.nonempty (String.toList_eq_nil_iff.mpr h)
  rw [toList_subtree ha.normal] at ht
  have hroot : b ≠ "/" := by
    rintro rfl
    rw [if_neg hab] at ht
    have hlen := congrArg length ht
    have hpos := length_pos_of_ne_nil ha.normal.nonempty
    simp at hlen
    omega
  unfold LockState.ancestors
  rw [if_neg (not_or.mpr ⟨hroot, hempty hb⟩), ← ht]
  split_ifs with hslash
  · rw [hslash]
    simpa using root_mem_walk t.reverse
  · simpa using mem_ancestors_walk (hempty ha) t.reverse

theorem descendant_range_eq (path : String) :
    descendant_range path = (subtree path, subtree_end path) := rfl

/-! ## Held locks -/

def Held (s : LockState) (path : String) : Prop :=
  ∃ entry, s.locks.get path = some entry ∧ entry.holders ≠ []

theorem ancestor_conflict_of_held {path : String} (ha : a ∈ LockState.ancestors path) (h : s.Held a) :
    s.ancestor_conflict path = true := by
  obtain ⟨entry, hget, hne⟩ := h
  exact any_eq_true.mpr ⟨a, ha, by simpa [hget] using hne⟩

theorem descendant_conflict_of_held {path key : String} (hpath : Normal path.toList)
    (hkey : (subtree path).toList <+: key.toList) (h : s.Held key) :
    s.descendant_conflict path = true := by
  obtain ⟨entry, hget, hne⟩ := h
  unfold descendant_conflict
  rw [descendant_range_eq]
  obtain ⟨hlo, hhi⟩ := (in_range_iff hpath).mpr hkey
  refine any_eq_true.mpr ⟨(key, entry), mem_scan.mpr ⟨?_, hget⟩, by simpa using hne⟩
  simp [hlo, hhi]

/-- An entry within its capacity, with one holder for each id. -/
structure Fits (entry : LockEntry) : Prop where
  capacity : entry.holders.length ≤ entry.max_holders.toNat
  ids : (entry.holders.map HolderInfo.lock_id).Nodup

/-- What every reachable state satisfies. -/
structure Exclusive (s : LockState) : Prop where
  absolute : ∀ p, s.locks.get p ≠ none → Absolute p
  apart : ∀ p q, s.Held p → s.Held q → ¬ Above p q
  fits : ∀ p entry, s.locks.get p = some entry → Fits entry

theorem fits_default : Fits ⟨0, []⟩ := ⟨by simp, by simp⟩

theorem exclusive_new : Exclusive LockState.new := by
  constructor
  · intro p h
    simp [LockState.new] at h
  · rintro p q ⟨entry, h, -⟩
    simp [LockState.new] at h
  · intro p entry h
    simp [LockState.new] at h

/-! ## Operations that only take holders away -/

/-- The entry has the capacity it had and some of its holders. -/
structure FewerHolders (old entry : LockEntry) : Prop where
  capacity : entry.max_holders = old.max_holders
  ids : (entry.holders.map HolderInfo.lock_id).Sublist (old.holders.map HolderInfo.lock_id)

variable {entry : LockEntry}

theorem FewerHolders.fits (h : FewerHolders old entry) (hold : Fits old) : Fits entry := by
  have hlen := h.ids.length_le
  simp only [length_map] at hlen
  refine ⟨?_, h.ids.nodup hold.ids⟩
  rw [h.capacity]
  exact hlen.trans hold.capacity

theorem FewerHolders.trans {a b c : LockEntry} (h : FewerHolders a b) (h' : FewerHolders b c) :
    FewerHolders a c :=
  ⟨h'.capacity.trans h.capacity, h'.ids.trans h.ids⟩

theorem FewerHolders.ne_nil (h : FewerHolders old entry)
    (hne : entry.holders ≠ []) : old.holders ≠ [] := by
  intro hnil
  have hsub := h.ids
  rw [hnil, map_nil, sublist_nil, map_eq_nil_iff] at hsub
  exact hne hsub

theorem fewerHolders_filter (entry : LockEntry) (p : HolderInfo → Bool) :
    FewerHolders entry { entry with holders := entry.holders.filter p } :=
  ⟨rfl, filter_sublist.map _⟩

theorem fewerHolders_retain_live (entry : LockEntry) (now_secs : UInt64) :
    FewerHolders entry (retain_live entry now_secs) := fewerHolders_filter entry _

theorem ids_bump_expiry {hs' : List HolderInfo} (h : bump_expiry lock_id expires_at hs = some hs') :
    hs'.map HolderInfo.lock_id = hs.map HolderInfo.lock_id := by
  induction hs generalizing hs' with
  | nil => simp [bump_expiry] at h
  | cons x hs ih =>
    unfold bump_expiry at h
    split_ifs at h with hid
    · obtain rfl := some.inj h
      rfl
    · obtain ⟨tail, htail, rfl⟩ := map_eq_some_iff.mp h
      simp [ih htail]

theorem notMem_of_bump_expiry (h : bump_expiry lock_id expires_at hs = none) :
    lock_id ∉ hs.map HolderInfo.lock_id := by
  induction hs with
  | nil => simp
  | cons x hs ih =>
    unfold bump_expiry at h
    split_ifs at h with hid
    · rw [map_eq_none_iff] at h
      simpa [Ne.symm hid] using ih h

theorem fewerHolders_bump_expiry (h : bump_expiry lock_id expires_at entry.holders = some hs) :
    FewerHolders entry { entry with holders := hs } :=
  ⟨rfl, by rw [ids_bump_expiry h]⟩

/-- Every entry of `t` was in `s`, with at least its holders. -/
def Fewer (s t : LockState) : Prop :=
  ∀ p entry, t.locks.get p = some entry → ∃ old, s.locks.get p = some old ∧ FewerHolders old entry

theorem Fewer.exclusive {t : LockState} (h : Fewer s t) (hs : Exclusive s) : Exclusive t := by
  have hheld {p : String} (hp : t.Held p) : s.Held p := by
    obtain ⟨entry, hget, hne⟩ := hp
    obtain ⟨old, hold, hfewer⟩ := h p entry hget
    exact ⟨old, hold, hfewer.ne_nil hne⟩
  constructor
  · intro p hp
    obtain ⟨entry, hget⟩ := ne_none_iff_exists'.mp hp
    obtain ⟨old, hold, -⟩ := h p entry hget
    exact hs.absolute p (by simp [hold])
  · intro p q hp hq
    exact hs.apart p q (hheld hp) (hheld hq)
  · intro p entry hget
    obtain ⟨old, hold, hfewer⟩ := h p entry hget
    exact hfewer.fits (hs.fits p old hold)

theorem fewer_refl (s : LockState) : Fewer s s := by
  intro p entry h
  exact ⟨entry, h, rfl, List.Sublist.refl _⟩

theorem fewer_remove (s : LockState) (path : String) : Fewer s ⟨s.locks.remove path⟩ := by
  intro p entry h
  rw [get_remove] at h
  split_ifs at h
  exact fewer_refl s p entry h

theorem fewer_put {path : String} (hold : s.locks.get path = some old)
    (h : FewerHolders old entry) : Fewer s (s.put path entry) := by
  intro p entry' hget
  unfold put at hget
  rw [get_insert] at hget
  split_ifs at hget with hp
  · obtain rfl := some.inj hget
    exact ⟨old, by rw [hp, hold], h⟩
  · exact fewer_refl s p entry' hget

theorem fewer_apply_release (s : LockState) (path lock_id : String) :
    Fewer s (s.apply_release path lock_id).2 := by
  unfold apply_release
  cases hget : s.locks.get path with
  | none => exact fewer_refl s
  | some entry =>
    dsimp only
    split_ifs
    · exact fewer_remove s path
    · exact fewer_put hget (fewerHolders_filter entry _)

theorem fewer_apply_extend (s : LockState) (path lock_id : String) (new_ttl_secs : UInt32)
    (now_secs : UInt64) : Fewer s (s.apply_extend path lock_id new_ttl_secs now_secs).2 := by
  unfold apply_extend
  cases hget : s.locks.get path with
  | none => exact fewer_refl s
  | some entry =>
    have hlive := fewerHolders_retain_live entry now_secs
    dsimp only
    split
    · rename_i holders hbump
      exact fewer_put hget (hlive.trans (fewerHolders_bump_expiry hbump))
    · split_ifs
      · exact fewer_remove s path
      · exact fewer_put hget hlive

theorem fewer_gc_expired (s : LockState) (now_secs : UInt64) : Fewer s (s.gc_expired now_secs) := by
  intro p entry h
  unfold gc_expired prune_expired at h
  rw [get_retain] at h
  obtain ⟨old, hold, h⟩ := bind_eq_some_iff.mp h
  dsimp only at h
  split_ifs at h
  obtain rfl := some.inj h
  exact ⟨old, hold, fewerHolders_retain_live old now_secs⟩

/-! ## Acquiring -/

theorem fits_push (h : Fits entry) (hroom : accepts_new_holder entry = true)
    {holder : HolderInfo} (hid : holder.lock_id ∉ entry.holders.map HolderInfo.lock_id) :
    Fits { entry with holders := entry.holders ++ [holder] } := by
  have hlt : entry.holders.length < entry.max_holders.toNat := by
    have hmax := entry.max_holders.toNat_lt
    have hcap := h.capacity
    have hroom : (UInt32.ofNat entry.holders.length).toNat < entry.max_holders.toNat := by
      simpa [accepts_new_holder, UInt32.lt_iff_toNat_lt] using hroom
    rw [UInt32.toNat_ofNat_of_lt' (by simp only [UInt32.size]; omega)] at hroom
    exact hroom
  constructor
  · simp only [length_append, length_singleton]
    omega
  · rw [map_append, map_singleton]
    refine nodup_append.mpr ⟨h.ids, by simp, ?_⟩
    intro id hmem id' hid'
    rw [mem_singleton.mp hid']
    exact ne_of_mem_of_not_mem hmem hid

/-- An acquire that passed both walks leaves its own entry within capacity; every other entry is
left alone. -/
theorem acquire_cases (s : LockState) (path lock_id : String) (max_holders ttl_secs : UInt32)
    (holder_info : String) (now_secs : UInt64) :
    (s.apply_acquire path lock_id max_holders ttl_secs holder_info now_secs).2 = s ∨
      (s.ancestor_conflict path = false ∧ s.descendant_conflict path = false ∧ ∃ entry,
        (Fits ((s.locks.get path).getD ⟨0, []⟩) → Fits entry) ∧
        (s.apply_acquire path lock_id max_holders ttl_secs holder_info now_secs).2
          = s.put path entry) := by
  unfold apply_acquire
  by_cases hconflict : (s.ancestor_conflict path || s.descendant_conflict path) = true
  · rw [if_pos hconflict]
    exact .inl rfl
  · rw [if_neg hconflict]
    obtain ⟨hup, hdown⟩ := Bool.or_eq_false_iff.mp (Bool.eq_false_iff.mpr hconflict)
    refine .inr ⟨hup, hdown, ?_⟩
    have hlive := fewerHolders_retain_live ((s.locks.get path).getD ⟨0, []⟩) now_secs
    dsimp only
    split
    · rename_i holders hbump
      exact ⟨_, (hlive.trans (fewerHolders_bump_expiry hbump)).fits, rfl⟩
    · rename_i hbump
      have hid := notMem_of_bump_expiry hbump
      split_ifs with hshape hroom
      · exact ⟨_, hlive.fits, rfl⟩
      all_goals
        -- either nobody is left, or the capacities agree
        have hseed (hfits : Fits ((s.locks.get path).getD ⟨0, []⟩)) :
            Fits { retain_live ((s.locks.get path).getD ⟨0, []⟩) now_secs with max_holders } := by
          have hold := hlive.fits hfits
          by_cases hnil : (retain_live ((s.locks.get path).getD ⟨0, []⟩) now_secs).holders = []
          · exact ⟨by simp [hnil], hold.ids⟩
          · have hmax : (retain_live ((s.locks.get path).getD ⟨0, []⟩) now_secs).max_holders
                = max_holders := by simpa [hnil] using hshape
            exact ⟨hmax ▸ hold.capacity, hold.ids⟩
      · exact ⟨_, fun hfits => fits_push (hseed hfits) hroom hid, rfl⟩
      · exact ⟨_, hseed, rfl⟩

theorem exclusive_apply_acquire (hs : Exclusive s) {path : String} (hpath : Absolute path)
    (lock_id : String) (max_holders ttl_secs : UInt32) (holder_info : String) (now_secs : UInt64) :
    Exclusive (s.apply_acquire path lock_id max_holders ttl_secs holder_info now_secs).2 := by
  obtain hsame | ⟨hup, hdown, entry, hentry, hput⟩ :=
    acquire_cases s path lock_id max_holders ttl_secs holder_info now_secs
  · rw [hsame]
    exact hs
  · rw [hput]
    have hget (p : String) : (s.put path entry).locks.get p
        = if p = path then some entry else s.locks.get p := by
      unfold put
      rw [get_insert]
    have hheld {p : String} (hp : p ≠ path) (h : (s.put path entry).Held p) : s.Held p := by
      obtain ⟨e, he, hne⟩ := h
      rw [hget, if_neg hp] at he
      exact ⟨e, he, hne⟩
    have habsolute {p : String} (h : s.Held p) : Absolute p := by
      obtain ⟨e, he, -⟩ := h
      exact hs.absolute p (by simp [he])
    constructor
    · intro p hp
      rw [hget] at hp
      split_ifs at hp with heq
      · rw [heq]
        exact hpath
      · exact hs.absolute p hp
    · intro p q hp hq habove
      by_cases hpp : p = path
      · -- the new lock above an old one: the range found the old one
        subst hpp
        have hq := hheld (Ne.symm habove.1) hq
        rw [descendant_conflict_of_held hpath.normal habove.2 hq] at hdown
        cases hdown
      · have hpold := hheld hpp hp
        by_cases hqp : q = path
        · -- an old lock above the new one: the walk passed it
          subst hqp
          have hmem := mem_ancestors_of_above (habsolute hpold) hpath habove
          rw [ancestor_conflict_of_held hmem hpold] at hup
          cases hup
        · exact hs.apart p q hpold (hheld hqp hq) habove
    · intro p e he
      rw [hget] at he
      split_ifs at he with heq
      · obtain rfl := some.inj he
        apply hentry
        cases hold : s.locks.get path with
        | none => exact fits_default
        | some old => exact hs.fits path old hold
      · exact hs.fits p e he

/-! ## Runs -/

inductive LockOp where
  | apply_acquire (path lock_id : String) (max_holders ttl_secs : UInt32) (holder_info : String)
      (now_secs : UInt64)
  | apply_release (path lock_id : String)
  | apply_force_release (path : String)
  | apply_extend (path lock_id : String) (new_ttl_secs : UInt32) (now_secs : UInt64)
  | gc_expired (now_secs : UInt64)

def LockOp.path : LockOp → Option String
  | .apply_acquire path .. | .apply_release path _ | .apply_force_release path
  | .apply_extend path .. => some path
  | .gc_expired _ => none

def apply (s : LockState) : LockOp → LockState
  | .apply_acquire path lock_id max_holders ttl_secs holder_info now_secs =>
    (s.apply_acquire path lock_id max_holders ttl_secs holder_info now_secs).2
  | .apply_release path lock_id => (s.apply_release path lock_id).2
  | .apply_force_release path => (s.apply_force_release path).2
  | .apply_extend path lock_id new_ttl_secs now_secs =>
    (s.apply_extend path lock_id new_ttl_secs now_secs).2
  | .gc_expired now_secs => s.gc_expired now_secs

theorem exclusive_apply (hs : Exclusive s) {op : LockOp} (hop : ∀ path ∈ op.path, Absolute path) :
    Exclusive (s.apply op) := by
  cases op with
  | apply_acquire path lock_id max_holders ttl_secs holder_info now_secs =>
    exact exclusive_apply_acquire hs (hop path rfl) _ _ _ _ _
  | apply_release path lock_id => exact (fewer_apply_release s path lock_id).exclusive hs
  | apply_force_release path => exact (fewer_remove s path).exclusive hs
  | apply_extend path lock_id new_ttl_secs now_secs =>
    exact (fewer_apply_extend s path lock_id new_ttl_secs now_secs).exclusive hs
  | gc_expired now_secs => exact (fewer_gc_expired s now_secs).exclusive hs

theorem exclusive_run {ops : List LockOp} (hops : ∀ op ∈ ops, ∀ path ∈ op.path, Absolute path) :
    Exclusive (ops.foldl LockState.apply LockState.new) := by
  refine foldlRecOn ops _ exclusive_new ?_
  intro s hs op hop
  exact exclusive_apply hs (hops op hop)

/-- Whatever is acquired, released, extended or collected, in any order and at any times: held
locks never stand above one another, and no entry is over its capacity or has an id twice. -/
theorem held_locks_exclude_hierarchy (ops : List LockOp)
    (hops : ∀ op ∈ ops, ∀ path ∈ op.path, Absolute path) :
    (∀ p q, (ops.foldl LockState.apply LockState.new).Held p →
        (ops.foldl LockState.apply LockState.new).Held q → ¬ Above p q) ∧
      ∀ p entry, (ops.foldl LockState.apply LockState.new).locks.get p = some entry →
        entry.holders.length ≤ entry.max_holders.toNat ∧
          (entry.holders.map HolderInfo.lock_id).Nodup := by
  have hrun := exclusive_run hops
  exact ⟨hrun.apart, fun p entry h => ⟨(hrun.fits p entry h).capacity, (hrun.fits p entry h).ids⟩⟩

/-- Two neighbours of `/a` that sort before `/a/`, and a path below `/a` that is refused. -/
def neighbours : List LockOp :=
  [.apply_acquire "/a" "one" 1 60 "" 100, .apply_acquire "/a!" "two" 1 60 "" 100,
    .apply_acquire "/a.b" "three" 2 60 "" 50, .apply_acquire "/a/b" "four" 1 60 "" 100]

theorem held_locks_exclude_hierarchy_neighbours :
    (["/a", "/a!", "/a.b"].all fun p =>
        ((neighbours.foldl LockState.apply LockState.new).get_lock p).isSome) = true ∧
      (∀ p q, (neighbours.foldl LockState.apply LockState.new).Held p →
        (neighbours.foldl LockState.apply LockState.new).Held q → ¬ Above p q) := by
  exact ⟨by decide +kernel, (held_locks_exclude_hierarchy neighbours (by decide +kernel)).1⟩

/-! ## Leases -/

/-- The operation is not the holder's own, takes nothing from the path by force and reads no clock
at which the hold has expired. -/
def LockOp.Spares (p : String) (h : HolderInfo) : LockOp → Prop
  | .apply_acquire path lock_id _ _ _ now_secs | .apply_extend path lock_id _ now_secs =>
    path = p → lock_id ≠ h.lock_id ∧ now_secs < h.expires_at
  | .apply_release path lock_id => path = p → lock_id ≠ h.lock_id
  | .apply_force_release path => path ≠ p
  | .gc_expired now_secs => now_secs < h.expires_at

/-- The path has the holder, in a lock of this capacity. -/
def Leased (s : LockState) (p : String) (h : HolderInfo) (max_holders : UInt32) : Prop :=
  ∃ entry, s.locks.get p = some entry ∧ h ∈ entry.holders ∧ entry.max_holders = max_holders

variable {s : LockState} {p : String} {h : HolderInfo} {max_holders : UInt32}

theorem mem_bump_expiry {lock_id : String} {expires_at : UInt64} {hs hs' : List HolderInfo}
    (hbump : bump_expiry lock_id expires_at hs = some hs') (hmem : h ∈ hs)
    (hid : lock_id ≠ h.lock_id) : h ∈ hs' := by
  induction hs generalizing hs' with
  | nil => cases hmem
  | cons x hs ih =>
    unfold bump_expiry at hbump
    split_ifs at hbump with hx
    · obtain rfl := some.inj hbump
      obtain rfl | hmem := mem_cons.mp hmem
      · exact absurd hx.symm hid
      · exact mem_cons_of_mem _ hmem
    · obtain ⟨tail, htail, rfl⟩ := map_eq_some_iff.mp hbump
      obtain rfl | hmem := mem_cons.mp hmem
      · exact mem_cons_self
      · exact mem_cons_of_mem _ (ih htail hmem)

theorem mem_retain_live {entry : LockEntry} {now_secs : UInt64} (hmem : h ∈ entry.holders)
    (hlive : now_secs < h.expires_at) : h ∈ (retain_live entry now_secs).holders :=
  mem_filter.mpr ⟨hmem, decide_eq_true hlive⟩

theorem leased_put {entry : LockEntry} (hmem : h ∈ entry.holders)
    (hmax : entry.max_holders = max_holders) : (s.put p entry).Leased p h max_holders :=
  ⟨entry, get_insert_self _ _ _, hmem, hmax⟩

theorem Leased.of_get {t : LockState} (hs : s.Leased p h max_holders)
    (hget : t.locks.get p = s.locks.get p) : t.Leased p h max_holders := by
  unfold Leased
  rw [hget]
  exact hs

theorem Leased.acquire (hs : s.Leased p h max_holders) {path lock_id : String}
    {asked ttl_secs : UInt32} {holder_info : String} {now_secs : UInt64}
    (hspares : (LockOp.apply_acquire path lock_id asked ttl_secs holder_info now_secs).Spares p h) :
    (s.apply_acquire path lock_id asked ttl_secs holder_info now_secs).2.Leased p h max_holders := by
  by_cases hpath : path = p
  case neg =>
    obtain hsame | ⟨-, -, entry, -, hput⟩ :=
      acquire_cases s path lock_id asked ttl_secs holder_info now_secs
    · rw [hsame]
      exact hs
    · rw [hput]
      exact hs.of_get (get_insert_of_ne _ _ (Ne.symm hpath))
  obtain ⟨hid, hlive⟩ := hspares hpath
  obtain ⟨entry, hget, hmem, hmax⟩ := id hs
  have hmem := mem_retain_live hmem hlive
  subst hpath
  unfold apply_acquire
  rw [hget]
  split_ifs
  · exact hs
  dsimp only [getD_some]
  split
  next holders hbump => exact leased_put (mem_bump_expiry hbump hmem hid) hmax
  next =>
    -- with a holder left, another capacity is refused
    have hempty : (retain_live entry now_secs).holders.isEmpty = false := by
      rw [List.isEmpty_eq_false_iff]
      exact ne_nil_of_mem hmem
    rw [hempty]
    split_ifs with hshape
    · exact leased_put hmem hmax
    all_goals
      rw [Bool.not_false, Bool.true_and, bne_iff_ne, not_not] at hshape
      have hsame : asked = max_holders := hshape.symm.trans hmax
    · exact leased_put (mem_append_left _ hmem) hsame
    · exact leased_put hmem hsame

theorem Leased.release (hs : s.Leased p h max_holders) {path lock_id : String}
    (hspares : (LockOp.apply_release path lock_id).Spares p h) :
    (s.apply_release path lock_id).2.Leased p h max_holders := by
  unfold apply_release
  by_cases hpath : path = p
  case neg =>
    split
    next entry _ =>
      dsimp only
      split_ifs
      · exact hs.of_get (get_remove_of_ne _ (Ne.symm hpath))
      · exact hs.of_get (get_insert_of_ne _ _ (Ne.symm hpath))
    next => exact hs
  obtain ⟨entry, hget, hmem, hmax⟩ := hs
  subst hpath
  have hkept : h ∈ entry.holders.filter fun h => h.lock_id ≠ lock_id :=
    mem_filter.mpr ⟨hmem, decide_eq_true (Ne.symm (hspares rfl))⟩
  rw [hget]
  dsimp only
  rw [if_neg (by simpa using ne_nil_of_mem hkept)]
  exact leased_put hkept hmax

theorem Leased.extend (hs : s.Leased p h max_holders) {path lock_id : String}
    {new_ttl_secs : UInt32} {now_secs : UInt64}
    (hspares : (LockOp.apply_extend path lock_id new_ttl_secs now_secs).Spares p h) :
    (s.apply_extend path lock_id new_ttl_secs now_secs).2.Leased p h max_holders := by
  unfold apply_extend
  by_cases hpath : path = p
  case neg =>
    dsimp only
    split
    next entry _ =>
      split
      · exact hs.of_get (get_insert_of_ne _ _ (Ne.symm hpath))
      split_ifs
      · exact hs.of_get (get_remove_of_ne _ (Ne.symm hpath))
      · exact hs.of_get (get_insert_of_ne _ _ (Ne.symm hpath))
    next => exact hs
  obtain ⟨hid, hlive⟩ := hspares hpath
  obtain ⟨entry, hget, hmem, hmax⟩ := hs
  have hmem := mem_retain_live hmem hlive
  subst hpath
  rw [hget]
  dsimp only
  split
  next holders hbump => exact leased_put (mem_bump_expiry hbump hmem hid) hmax
  next =>
    rw [if_neg (by simpa using ne_nil_of_mem hmem)]
    exact leased_put hmem hmax

theorem Leased.apply (hs : s.Leased p h max_holders) {op : LockOp} (hop : op.Spares p h) :
    (s.apply op).Leased p h max_holders := by
  cases op with
  | apply_acquire path lock_id asked ttl_secs holder_info now_secs => exact hs.acquire hop
  | apply_release path lock_id => exact hs.release hop
  | apply_force_release path => exact hs.of_get (get_remove_of_ne _ (Ne.symm hop))
  | apply_extend path lock_id new_ttl_secs now_secs => exact hs.extend hop
  | gc_expired now_secs =>
    obtain ⟨entry, hget, hmem, hmax⟩ := hs
    -- with this holder left, the sweep keeps the entry
    have hmem := mem_retain_live hmem hop
    refine ⟨retain_live entry now_secs, ?_, hmem, hmax⟩
    rw [LockState.apply, gc_expired, prune_expired, get_retain, hget]
    exact if_neg (by simpa using ne_nil_of_mem hmem)

/-- **A lease keeps others out.** From every reachable state on, until its holder gives it back,
someone breaks it by force or its time is up: whatever others do, the hold stays as it is, in a
lock whose capacity nobody can change and that is never over it, and nothing above or below the path
is held. -/
theorem lease_keeps_others_out (ops later : List LockOp)
    (hops : ∀ op ∈ ops ++ later, ∀ path ∈ op.path, Absolute path) (p : String) (entry : LockEntry)
    (h : HolderInfo) (hget : (ops.foldl LockState.apply LockState.new).locks.get p = some entry)
    (hmem : h ∈ entry.holders) (hspares : ∀ op ∈ later, op.Spares p h) :
    let s := (ops ++ later).foldl LockState.apply LockState.new
    (∃ entry', s.locks.get p = some entry' ∧ h ∈ entry'.holders ∧
      entry'.max_holders = entry.max_holders ∧
      entry'.holders.length ≤ entry.max_holders.toNat) ∧
    ∀ q, Above p q ∨ Above q p → ¬ s.Held q := by
  intro s
  have hrun : Exclusive s := exclusive_run hops
  obtain ⟨entry', hget', hmem', hmax⟩ : s.Leased p h entry.max_holders := by
    have hstart : (ops.foldl LockState.apply LockState.new).Leased p h entry.max_holders :=
      ⟨entry, hget, hmem, rfl⟩
    rw [show s = _ from foldl_append]
    exact foldlRecOn (motive := fun t => Leased t p h entry.max_holders) later _ hstart
      fun t ht op hop => ht.apply (hspares op hop)
  have hheld : s.Held p := ⟨entry', hget', ne_nil_of_mem hmem'⟩
  refine ⟨⟨entry', hget', hmem', hmax, ?_⟩, ?_⟩
  · rw [← hmax]
    exact (hrun.fits p entry' hget').capacity
  · rintro q (habove | habove) hq
    · exact hrun.apart p q hheld hq habove
    · exact hrun.apart q p hq hheld habove

/-- Another client asks for the lock with more room, for a path below it, and gives back a hold it
does not have; a sweep comes by in between. -/
def intruder : List LockOp :=
  [.apply_acquire "/a" "two" 2 60 "" 120, .gc_expired 150, .apply_acquire "/a/b" "two" 1 60 "" 150,
    .apply_release "/a" "two"]

theorem lease_keeps_intruder_out :
    ∃ entry', (([LockOp.apply_acquire "/a" "one" 1 60 "" 100] ++ intruder).foldl LockState.apply
      LockState.new).locks.get "/a" = some entry' ∧ ⟨"one", "", 100, 160⟩ ∈ entry'.holders ∧
      entry'.max_holders = 1 ∧ entry'.holders.length ≤ 1 := by
  refine (lease_keeps_others_out [.apply_acquire "/a" "one" 1 60 "" 100] intruder (by decide +kernel)
    "/a" ⟨1, [⟨"one", "", 100, 160⟩]⟩ _ (by decide +kernel) mem_cons_self ?_).1
  simp only [intruder, mem_cons, not_mem_nil, or_false, forall_eq_or_imp, forall_eq, LockOp.Spares]
  decide

end NexusVfs.LockState
