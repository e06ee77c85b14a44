/-
When an acquire is admitted.

Expired holders are pruned only on the path that is acquired; elsewhere an entry counts
as long as it has a holder, live or not. And the range below the root has the root
itself in it.
-/
import NexusVfs.LockHierarchy

namespace NexusVfs.LockState

open List Text IoLocks Table

/-! ## What the walks find -/

/-- A holder on `q` is in the way of an acquire on `p`. -/
def InTheWay (p q : String) : Prop := Above q p ∨ Above p q ∨ (p = "/" ∧ q = "/")

variable {s : LockState} {p lock_id : String} {now_secs : UInt64}

variable {a q : String} {hs : List HolderInfo} {max_holders : UInt32}

theorem of_mem_ancestors_loop {chars : List Char} (h : a ∈ LockState.ancestors_loop chars) :
    (a ≠ "" ∧ ∃ after, chars = after ++ '/' :: a.toList.reverse) ∨
      (a = "/" ∧ ∃ after, chars = after ++ ['/']) := by
  induction chars with
  | nil => simp [LockState.ancestors_loop] at h
  | cons c rest ih =>
    have hlater (h : a ∈ LockState.ancestors_loop rest) :
        (a ≠ "" ∧ ∃ after, c :: rest = after ++ '/' :: a.toList.reverse) ∨
          (a = "/" ∧ ∃ after, c :: rest = after ++ ['/']) := by
      rcases ih h with ⟨hne, after, hrest⟩ | ⟨ha, after, hrest⟩
      · exact .inl ⟨hne, c :: after, by simp [hrest]⟩
      · exact .inr ⟨ha, c :: after, by simp [hrest]⟩
    rw [LockState.ancestors_loop] at h
    split_ifs at h with hslash hrest
    · exact .inr ⟨by simpa using h, [], by simp [hslash, hrest]⟩
    · rcases mem_cons.mp h with rfl | h
      · refine .inl ⟨?_, [], by simp [hslash]⟩
        intro hempty
        have hnil := congrArg String.toList hempty
        simp [hrest] at hnil
      · exact hlater h
    · exact hlater h

theorem above_of_mem_ancestors (hp : Absolute p) (h : a ∈ LockState.ancestors p) : Above a p := by
  unfold LockState.ancestors at h
  split_ifs at h with hroot
  · simp at h
  obtain ⟨hslash, -⟩ := not_or.mp hroot
  rcases of_mem_ancestors_loop h with ⟨hne, after, hafter⟩ | ⟨rfl, after, hafter⟩
  · have hchars : p.toList = a.toList ++ '/' :: after.reverse := by
      simpa using congrArg reverse hafter
    have hend : ends_with a '/' = false := by
      -- Otherwise the path has two slashes in a row.
      by_contra hslash
      rw [Bool.not_eq_false, ends_with, beq_iff_eq, getLast?_eq_some_iff] at hslash
      obtain ⟨init, hinit⟩ := hslash
      refine hp.normal.single ⟨init, after.reverse, ?_⟩
      simp [hchars, hinit]
    refine ⟨?_, after.reverse, by simp [subtree, hend, hchars]⟩
    rintro rfl
    simpa using congrArg length hchars
  · refine ⟨Ne.symm hslash, after.reverse, ?_⟩
    have hchars : p.toList = '/' :: after.reverse := by simpa using congrArg reverse hafter
    simp [subtree, ends_with, hchars]

theorem ancestor_conflict_iff (hs : Exclusive s) (hp : Absolute p) :
    s.ancestor_conflict p = true ↔ ∃ q, Above q p ∧ s.Held q := by
  constructor
  · intro h
    obtain ⟨q, hq, hheld⟩ := any_eq_true.mp h
    cases hget : s.locks.get q with
    | none => simp [hget] at hheld
    | some entry =>
      exact ⟨q, above_of_mem_ancestors hp hq, entry, hget, by simpa [hget] using hheld⟩
  · rintro ⟨q, habove, hheld⟩
    have hq : Absolute q := by
      obtain ⟨entry, hget, -⟩ := hheld
      exact hs.absolute q (by simp [hget])
    exact ancestor_conflict_of_held (mem_ancestors_of_above hq hp habove) hheld

theorem descendant_conflict_iff (hp : Absolute p) :
    s.descendant_conflict p = true ↔ ∃ q, (Above p q ∨ (p = "/" ∧ q = "/")) ∧ s.Held q := by
  constructor
  · intro h
    obtain ⟨⟨q, entry⟩, hmem, hne⟩ := any_eq_true.mp h
    obtain ⟨hrange, hget⟩ := mem_scan.mp hmem
    simp only [Bool.and_eq_true, decide_eq_true_eq] at hrange
    have hprefix := (in_range_iff hp.normal).mp hrange
    refine ⟨q, ?_, entry, hget, by simpa using hne⟩
    by_cases heq : p = q
    · -- Only the root is a prefix of itself with its slash.
      subst heq
      refine .inr ?_
      rw [toList_subtree hp.normal] at hprefix
      split_ifs at hprefix with hroot
      · exact ⟨hroot, hroot⟩
      · have hlen := hprefix.length_le
        simp only [length_append, length_singleton] at hlen
        omega
    · exact .inl ⟨heq, hprefix⟩
  · rintro ⟨q, habove | ⟨rfl, rfl⟩, hheld⟩
    · exact descendant_conflict_of_held hp.normal habove.2 hheld
    · refine descendant_conflict_of_held hp.normal ?_ hheld
      exact prefix_rfl

theorem conflict_iff (hs : Exclusive s) (hp : Absolute p) :
    (s.ancestor_conflict p || s.descendant_conflict p) = true ↔ ∃ q, InTheWay p q ∧ s.Held q := by
  rw [Bool.or_eq_true, ancestor_conflict_iff hs hp, descendant_conflict_iff hp, ← exists_or]
  simp only [InTheWay, or_and_right]

/-! ## Live holders -/

def live (s : LockState) (p : String) (now_secs : UInt64) : List HolderInfo :=
  (retain_live ((s.locks.get p).getD ⟨0, []⟩) now_secs).holders

/-- Nobody holds the path, or the caller does, or there is room in a lock of the same shape. -/
def Room (s : LockState) (p lock_id : String) (max_holders : UInt32) (now_secs : UInt64) : Prop :=
  s.live p now_secs = [] ∨ (∃ h ∈ s.live p now_secs, h.lock_id = lock_id) ∨
    ((s.live p now_secs).length < max_holders.toNat ∧
      (s.locks.get p).map LockEntry.max_holders = some max_holders)

theorem bump_expiry_eq_none_iff {expires_at : UInt64} :
    bump_expiry lock_id expires_at hs = none ↔ ∀ h ∈ hs, h.lock_id ≠ lock_id := by
  constructor
  · intro hnone h hh heq
    exact notMem_of_bump_expiry hnone (heq ▸ mem_map_of_mem hh)
  · intro h
    induction hs with
    | nil => rfl
    | cons x hs ih =>
      rw [bump_expiry, if_neg (h x mem_cons_self)]
      simp [ih fun y hy => h y (mem_cons_of_mem x hy)]

theorem live_length_lt (hs : Exclusive s) (p : String) (now_secs : UInt64) :
    (s.live p now_secs).length < 2 ^ 32 := by
  have hold : Fits ((s.locks.get p).getD ⟨0, []⟩) := by
    cases hget : s.locks.get p with
    | none => exact fits_default
    | some entry => exact hs.fits p entry hget
  have hfits := (fewerHolders_retain_live _ now_secs).fits hold
  exact hfits.capacity.trans_lt (UInt32.toNat_lt _)

theorem max_holders_of_live (h : s.live p now_secs ≠ []) :
    (s.locks.get p).map LockEntry.max_holders = some max_holders ↔
      ((s.locks.get p).getD ⟨0, []⟩).max_holders = max_holders := by
  cases hget : s.locks.get p with
  | none => simp [live, retain_live, hget] at h
  | some entry => simp

/-- An acquire succeeds exactly when the walks find nothing and there is room. -/
theorem acquired_iff (hs : Exclusive s) (hmax : 1 ≤ max_holders)
    (ttl_secs : UInt32) (holder_info : String) :
    (s.apply_acquire p lock_id max_holders ttl_secs holder_info now_secs).1.acquired = true ↔
      (s.ancestor_conflict p || s.descendant_conflict p) = false ∧
        s.Room p lock_id max_holders now_secs := by
  have hpos : 1 ≤ max_holders.toNat := by simpa [UInt32.le_iff_toNat_le] using hmax
  have hlen : (UInt32.ofNat (s.live p now_secs).length).toNat = (s.live p now_secs).length :=
    UInt32.toNat_ofNat_of_lt' (live_length_lt hs p now_secs)
  unfold apply_acquire
  by_cases hconflict : (s.ancestor_conflict p || s.descendant_conflict p) = true
  · simp [hconflict, empty_result]
  simp only [hconflict, true_and, Room]
  cases hfound : bump_expiry lock_id (saturating_add now_secs ttl_secs.toUInt64)
      (retain_live ((s.locks.get p).getD ⟨0, []⟩) now_secs).holders with
  | some holders =>
    have hbump : bump_expiry lock_id _ (s.live p now_secs) = some holders := hfound
    have hmine : ∃ h ∈ s.live p now_secs, h.lock_id = lock_id := by
      by_contra hnone
      rw [bump_expiry_eq_none_iff.mpr fun h hh heq => hnone ⟨h, hh, heq⟩] at hbump
      simp at hbump
    exact iff_of_true rfl (.inr (.inl hmine))
  | none =>
    have hnew : ¬ ∃ h ∈ s.live p now_secs, h.lock_id = lock_id := by
      have hbump : bump_expiry lock_id _ (s.live p now_secs) = none := hfound
      simpa using bump_expiry_eq_none_iff.mp hbump
    simp only [hnew, false_or]
    by_cases hnil : s.live p now_secs = []
    · -- The first holder brings its own capacity.
      have hnil' : (retain_live ((s.locks.get p).getD ⟨0, []⟩) now_secs).holders = [] := hnil
      have hzero : (0 : UInt32) < max_holders := by
        exact hpos
      simp [hnil, hnil', accepts_new_holder, hzero, to_result]
    · rw [max_holders_of_live hnil]
      have hempty : (retain_live ((s.locks.get p).getD ⟨0, []⟩) now_secs).holders.isEmpty = false := by
        simpa [live] using hnil
      have haccepts : (UInt32.ofNat (s.live p now_secs).length < max_holders) ↔
          (s.live p now_secs).length < max_holders.toNat := by
        rw [UInt32.lt_iff_toNat_lt, hlen]
      simp only [hempty, hnil, false_or, ← haccepts]
      have hasks : accepts_new_holder
          { retain_live ((s.locks.get p).getD ⟨0, []⟩) now_secs with max_holders }
            = decide (UInt32.ofNat (s.live p now_secs).length < max_holders) := rfl
      simp only [hasks]
      by_cases hshape : ((s.locks.get p).getD ⟨0, []⟩).max_holders = max_holders
      · by_cases hroom : UInt32.ofNat (s.live p now_secs).length < max_holders <;>
          simp [hshape, hroom, retain_live, to_result]
      · simp [hshape, retain_live, to_result]

/-! ## The sweep -/

theorem get_gc_expired (s : LockState) (p : String) (now_secs : UInt64) :
    (s.gc_expired now_secs).locks.get p = (s.locks.get p).bind fun entry =>
      if (retain_live entry now_secs).holders.isEmpty then none
      else some (retain_live entry now_secs) := by
  unfold gc_expired prune_expired
  rw [get_retain]

theorem live_gc_expired (s : LockState) (p : String) (now_secs : UInt64) :
    (s.gc_expired now_secs).live p now_secs = s.live p now_secs := by
  unfold live
  rw [get_gc_expired]
  cases s.locks.get p with
  | none => rfl
  | some entry =>
    simp only [Option.bind_some, Option.getD_some]
    split_ifs with hempty
    · simpa [retain_live] using hempty
    · simp [retain_live]

theorem room_of_gc_expired (h : (s.gc_expired now_secs).Room p lock_id max_holders now_secs) :
    s.Room p lock_id max_holders now_secs := by
  unfold Room at h ⊢
  rw [live_gc_expired] at h
  refine h.imp_right (Or.imp_right (And.imp_right ?_))
  intro hmax
  rw [get_gc_expired] at hmax
  cases hget : s.locks.get p with
  | none => simp [hget] at hmax
  | some entry =>
    simp only [hget, Option.bind_some] at hmax
    split_ifs at hmax
    · simp at hmax
    · simpa [retain_live] using hmax

theorem held_of_live (h : s.live q now_secs ≠ []) : s.Held q := by
  cases hget : s.locks.get q with
  | none => simp [live, retain_live, hget] at h
  | some entry =>
    refine ⟨entry, hget, ?_⟩
    intro hnil
    simp [live, retain_live, hget, hnil] at h

/-! ## What reachable states admit -/

/-- In every reachable state: an acquire that no live holder excludes succeeds, and so does every
acquire that would succeed after a sweep, exactly when no holder at all, live or expired, is left
in an entry above or below the path, nor at the root where the root is acquired. -/
theorem acquire_succeeds_iff_nothing_in_the_way (ops : List LockOp)
    (hops : ∀ op ∈ ops, ∀ path ∈ op.path, Absolute path) (p : String) (hp : Absolute p)
    (lock_id : String) (max_holders : UInt32) (hmax : 1 ≤ max_holders) (ttl_secs : UInt32)
    (holder_info : String) (now_secs : UInt64) :
    let s := ops.foldl LockState.apply LockState.new
    let acquired (s : LockState) :=
      (s.apply_acquire p lock_id max_holders ttl_secs holder_info now_secs).1.acquired = true
    let Permitted := (∀ q, Above q p ∨ Above p q → s.live q now_secs = []) ∧
      s.Room p lock_id max_holders now_secs
    (Permitted → acquired s) ∧ (acquired (s.gc_expired now_secs) → acquired s) ↔
      (Permitted → ∀ q, InTheWay p q → ¬ s.Held q) := by
  intro s acquired Permitted
  have hs : Exclusive s := exclusive_run hops
  have hswept : Exclusive (s.gc_expired now_secs) := (fewer_gc_expired s now_secs).exclusive hs
  constructor
  · rintro ⟨h, -⟩ hpermitted q hway hheld
    have hfree := ((acquired_iff hs hmax ttl_secs holder_info).mp (h hpermitted)).1
    rw [(conflict_iff hs hp).mpr ⟨q, hway, hheld⟩] at hfree
    simp at hfree
  · intro h
    have hacquired : Permitted → acquired s := by
      intro hpermitted
      refine (acquired_iff hs hmax ttl_secs holder_info).mpr ⟨?_, hpermitted.2⟩
      rw [← Bool.not_eq_true, conflict_iff hs hp]
      rintro ⟨q, hway, hheld⟩
      exact h hpermitted q hway hheld
    refine ⟨hacquired, fun hafter => hacquired ?_⟩
    obtain ⟨hfree, hroom⟩ := (acquired_iff hswept hmax ttl_secs holder_info).mp hafter
    refine ⟨?_, room_of_gc_expired hroom⟩
    intro q hrelated
    -- A live holder outlives the sweep, and would have been in the way there.
    by_contra hlive
    rw [← live_gc_expired] at hlive
    have hway : InTheWay p q := hrelated.imp_right .inl
    rw [(conflict_iff hswept hp).mpr ⟨q, hway, held_of_live hlive⟩] at hfree
    simp at hfree

def lapsed : List LockOp := [.apply_acquire "/a" "one" 1 60 "" 100]

theorem held_lapsed (h : (lapsed.foldl LockState.apply LockState.new).Held q) : q = "/a" := by
  by_contra hne
  obtain ⟨entry, hget, -⟩ := h
  change (LockState.new.apply_acquire "/a" "one" 1 60 "" 100).2.locks.get q = _ at hget
  rcases acquire_cases LockState.new "/a" "one" 1 60 "" 100 with hsame | ⟨-, -, new, -, hput⟩
  · rw [hsame] at hget
    simp [LockState.new] at hget
  · rw [hput, put, get_insert_of_ne _ _ hne] at hget
    simp [LockState.new] at hget

theorem acquire_succeeds_iff_nothing_in_the_way_lapsed :
    ((lapsed.foldl LockState.apply LockState.new).apply_acquire "/a" "two" 1 60 "" 500).1.acquired
      = true := by
  have h := (acquire_succeeds_iff_nothing_in_the_way lapsed (by decide +kernel) "/a"
    (by decide +kernel) "two" 1 (by decide) 60 "" 500).mpr ?_
  · exact h.2 (by decide +kernel)
  · rintro - q hway hheld
    obtain rfl := held_lapsed hheld
    rcases hway with ⟨hne, -⟩ | ⟨hne, -⟩ | ⟨hroot, -⟩
    · exact hne rfl
    · exact hne rfl
    · simp at hroot

/-- No lock is live at 500, but a path below `/a` cannot be locked before a sweep. -/
theorem lapsed_ancestor_refuses :
    (∀ q, (lapsed.foldl LockState.apply LockState.new).live q 500 = []) ∧
      ((lapsed.foldl LockState.apply LockState.new).gc_expired 500 |>.apply_acquire
        "/a/b" "two" 1 60 "" 500).1.acquired = true ∧
      ((lapsed.foldl LockState.apply LockState.new).apply_acquire
        "/a/b" "two" 1 60 "" 500).1.acquired = false := by
  refine ⟨?_, by decide +kernel, by decide +kernel⟩
  intro q
  by_contra hlive
  obtain rfl := held_lapsed (held_of_live hlive)
  exact hlive (by decide +kernel)

/-! ## Acquiring again -/

theorem saturating_add_eq (a b : UInt64) :
    saturating_add a b = UInt64.ofNat (min (a.toNat + b.toNat) (2 ^ 64 - 1)) := by
  unfold saturating_add
  split_ifs with hlt
  · rw [min_eq_left (by omega), UInt64.ofNat_add]
    simp
  · rw [min_eq_right (by omega)]

/-- The holder with the id gets the new expiry, and the others stay. -/
def refresh (lock_id : String) (expires_at : UInt64) (h : HolderInfo) : HolderInfo :=
  if h.lock_id = lock_id then { h with expires_at } else h

theorem bump_expiry_eq_map (expires_at : UInt64)
    (hids : (hs.map HolderInfo.lock_id).Nodup) (h : ∃ x ∈ hs, x.lock_id = lock_id) :
    bump_expiry lock_id expires_at hs = some (hs.map (refresh lock_id expires_at)) := by
  induction hs with
  | nil => simp at h
  | cons x hs ih =>
    obtain ⟨hx, hids⟩ := nodup_cons.mp hids
    rw [bump_expiry, map_cons, refresh]
    split_ifs with hid
    · -- The ids are distinct, so the rest keeps its expiries.
      have hrest : hs.map (refresh lock_id expires_at) = hs := by
        refine (map_congr_left fun y hy => ?_).trans (map_id hs)
        refine if_neg fun hyid => hx ?_
        rw [hid, ← hyid]
        exact mem_map_of_mem hy
      rw [hrest]
    · obtain ⟨y, hy, hyid⟩ := h
      have hy : y ∈ hs := (mem_cons.mp hy).resolve_left fun heq => hid (heq ▸ hyid)
      rw [ih hids ⟨y, hy, hyid⟩, Option.map_some]

theorem no_conflict_of_held (hs : Exclusive s) (hp : Absolute p) (hheld : s.Held p)
    (hroot : p ≠ "/") : (s.ancestor_conflict p || s.descendant_conflict p) = false := by
  rw [← Bool.not_eq_true, conflict_iff hs hp]
  rintro ⟨q, habove | hbelow | ⟨rfl, -⟩, hq⟩
  · exact hs.apart q p hq hheld habove
  · exact hs.apart p q hheld hq hbelow
  · exact hroot rfl

/-- The acquire succeeded, and all it did was to refresh the caller's hold. -/
structure Refreshed (s : LockState) (p lock_id : String) (max_holders : UInt32)
    (now_secs expires_at : UInt64) (answer : LockAcquireResult × LockState) : Prop where
  acquired : answer.1.acquired = true
  others : ∀ q, q ≠ p → answer.2.locks.get q = s.locks.get q
  entry : answer.2.locks.get p =
    some ⟨max_holders, (s.live p now_secs).map (refresh lock_id expires_at)⟩

/-- In every reachable state, for every live holder of a path: acquiring again succeeds whatever
capacity is asked for and refreshes the hold, and the lock admits further holders up to its
capacity, exactly when the path is not the root. -/
theorem reacquire_refreshes_iff_not_root (ops : List LockOp)
    (hops : ∀ op ∈ ops, ∀ path ∈ op.path, Absolute path) (p : String) (hp : Absolute p)
    (entry : LockEntry) (h : HolderInfo) (now_secs : UInt64)
    (hget : (ops.foldl LockState.apply LockState.new).locks.get p = some entry)
    (hmem : h ∈ entry.holders) (hlive : now_secs < h.expires_at) :
    let s := ops.foldl LockState.apply LockState.new
    (∀ m ttl_secs holder_info, Refreshed s p h.lock_id entry.max_holders now_secs
        (UInt64.ofNat (min (now_secs.toNat + ttl_secs.toNat) (2 ^ 64 - 1)))
        (s.apply_acquire p h.lock_id m ttl_secs holder_info now_secs)) ∧
      (∀ lock_id ttl_secs holder_info, (s.live p now_secs).length < entry.max_holders.toNat →
        (s.apply_acquire p lock_id entry.max_holders ttl_secs holder_info now_secs).1.acquired
          = true) ↔ p ≠ "/" := by
  intro s
  have hs : Exclusive s := exclusive_run hops
  have hheld : s.Held p := ⟨entry, hget, ne_nil_of_mem hmem⟩
  have hsome : (s.locks.get p).getD ⟨0, []⟩ = entry := by rw [hget, Option.getD_some]
  have hmine : ∃ x ∈ s.live p now_secs, x.lock_id = h.lock_id :=
    ⟨h, by simp [live, hsome, retain_live, hmem, hlive], rfl⟩
  constructor
  · rintro ⟨hagain, -⟩ rfl
    have hacquired := (hagain 1 0 "").acquired
    have hfree := ((acquired_iff hs (by decide) 0 "").mp hacquired).1
    rw [(conflict_iff hs hp).mpr ⟨"/", .inr (.inr ⟨rfl, rfl⟩), hheld⟩] at hfree
    simp at hfree
  · intro hroot
    have hfree := no_conflict_of_held hs hp hheld hroot
    refine ⟨?_, ?_⟩
    · intro m ttl_secs holder_info
      have hids : ((s.live p now_secs).map HolderInfo.lock_id).Nodup := by
        have hfits := (fewerHolders_retain_live entry now_secs).fits (hs.fits p entry hget)
        simpa [live, hsome] using hfits.ids
      have hstep : s.apply_acquire p h.lock_id m ttl_secs holder_info now_secs =
          let new : LockEntry := ⟨entry.max_holders, (s.live p now_secs).map
            (refresh h.lock_id (saturating_add now_secs ttl_secs.toUInt64))⟩
          (to_result new true, s.put p new) := by
        unfold apply_acquire
        rw [if_neg (by simp [hfree])]
        have hbump := bump_expiry_eq_map (saturating_add now_secs ttl_secs.toUInt64) hids hmine
        simp only [live, hsome, retain_live] at hbump ⊢
        rw [hbump]
      rw [hstep, saturating_add_eq]
      constructor
      · rfl
      · intro q hq
        exact get_insert_of_ne _ _ hq
      · simp [put]
    · intro lock_id ttl_secs holder_info hroom
      have hpos : 1 ≤ entry.max_holders := by
        exact Nat.one_le_of_lt hroom
      refine (acquired_iff hs hpos ttl_secs holder_info).mpr ⟨hfree, .inr (.inr ⟨hroom, ?_⟩)⟩
      rw [hget, Option.map_some]

theorem reacquire_refreshes_iff_not_root_lapsed :
    ((lapsed.foldl LockState.apply LockState.new).apply_acquire "/a" "one" 5 30 "" 120).1.acquired
      = true := by
  have hget : (lapsed.foldl LockState.apply LockState.new).locks.get "/a"
      = some ⟨1, [⟨"one", "", 100, 160⟩]⟩ := by decide +kernel
  exact (((reacquire_refreshes_iff_not_root lapsed (by decide +kernel) "/a" (by decide +kernel) _
    ⟨"one", "", 100, 160⟩ 120 hget (by simp) (by decide)).mpr (by decide)).1 5 30 "").acquired

/-- The holder of the root is refused by its own entry. -/
theorem root_holder_refused :
    (LockState.new.apply_acquire "/" "one" 1 60 "" 100).1.acquired = true ∧
      ((LockState.new.apply_acquire "/" "one" 1 60 "" 100).2.live "/" 120).length = 1 ∧
      ((LockState.new.apply_acquire "/" "one" 1 60 "" 100).2.apply_acquire
        "/" "one" 1 60 "" 120).1.acquired = false := by
  decide +kernel

end NexusVfs.LockState
