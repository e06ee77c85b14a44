/-
The I/O lock manager does what a set of handles would do.

Seen from outside the state is the set of live handles, each a path and a mode, and the
entries count them. The counters are machine words: with 2³² readers on one path its
count is 0 again.
-/
import NexusVfs.IoLocks

namespace NexusVfs.IoLocks

open Option List Text Runs Table

/-! ## The set of live handles -/

/-- On related paths, and one of them writes. -/
def Conflict (a b : HandleInfo) : Prop := Related a.path b.path ∧ (a.mode = .Write ∨ b.mode = .Write)

def readers (s : LockManager) (path : String) : ℕ :=
  (s.handles.scan fun _ => true).countP fun row => decide (row.2 = ⟨path, .Read⟩)

/-- The counts of an entry are those of the live handles on its path. -/
structure Describes (s : LockManager) (path : String) (entry : IOEntry) : Prop where
  io_readers : entry.io_readers.toNat = readers s path
  io_writer : ∀ h, entry.io_writer = some h ↔ s.handles.get h = some ⟨path, .Write⟩

def Held (s : LockManager) (path : String) : Prop := ∃ h mode, s.handles.get h = some ⟨path, mode⟩

structure Exact (s : LockManager) : Prop where
  normal : ∀ h info, s.handles.get h = some info → Normal info.path.toList
  issued : ∀ h info, s.handles.get h = some info → h ≠ 0 ∧ h.toNat ≤ s.next_handle.toNat
  entry : ∀ path entry, s.locks.get path = some entry → Describes s path entry
  held : ∀ path entry, s.locks.get path = some entry → Held s path
  present : ∀ h info, s.handles.get h = some info → (s.locks.get info.path).isSome = true
  disjoint : ∀ h h' info info', s.handles.get h = some info → s.handles.get h' = some info' →
    h ≠ h' → ¬ Conflict info info'

/-- The counters have room for one more handle. -/
def Fits (s : LockManager) : LockOp → Prop
  | .blocking_acquire path mode =>
    s.next_handle.toNat + 1 < 2 ^ 64 ∧
      (mode = .Read → readers s (normalize_path path) + 1 < 2 ^ 32)
  | .do_release _ => True

variable {s : LockManager} {mode : LockMode}

variable {path : String}

theorem readers_pos_iff : 0 < readers s path ↔ ∃ h, s.handles.get h = some ⟨path, .Read⟩ := by
  unfold readers
  rw [countP_pos_iff]
  constructor
  · rintro ⟨⟨h, info⟩, hmem, hinfo⟩
    refine ⟨h, ?_⟩
    rw [← of_decide_eq_true hinfo]
    exact (mem_scan.mp hmem).2
  · rintro ⟨h, hget⟩
    exact ⟨(h, ⟨path, .Read⟩), mem_scan.mpr ⟨rfl, hget⟩, by simp⟩

variable {entry : IOEntry} {answers : List LockAnswer}

theorem Describes.is_idle_iff (h : Describes s path entry) :
    entry.is_idle = true ↔ ¬ Held s path := by
  have hreaders : entry.io_readers = 0 ↔ ¬ 0 < readers s path := by
    rw [← h.io_readers, ← UInt32.toNat_inj, UInt32.toNat_zero, Nat.pos_iff_ne_zero, not_not]
  unfold IOEntry.is_idle
  rw [Bool.and_eq_true, beq_iff_eq, isNone_iff_eq_none, hreaders, readers_pos_iff,
    eq_none_iff_forall_ne_some]
  constructor
  · rintro ⟨hread, hwrite⟩ ⟨handle, mode, hget⟩
    cases mode with
    | Read => exact hread ⟨handle, hget⟩
    | Write => exact hwrite handle ((h.io_writer handle).mpr hget)
  · intro hheld
    refine ⟨fun ⟨handle, hget⟩ => hheld ⟨handle, .Read, hget⟩, fun handle hwriter => ?_⟩
    exact hheld ⟨handle, .Write, (h.io_writer handle).mp hwriter⟩

theorem Describes.blocks_iff (h : Describes s path entry) (mode : LockMode) :
    entry.blocks mode = true ↔ ∃ handle info, s.handles.get handle = some info ∧ info.path = path ∧
        (info.mode = .Write ∨ mode = .Write) := by
  have hwriter : entry.io_writer.isSome = true ↔
      ∃ handle, s.handles.get handle = some ⟨path, .Write⟩ := by
    rw [isSome_iff_exists]
    exact exists_congr h.io_writer
  cases mode with
  | Read =>
    rw [IOEntry.blocks, hwriter]
    constructor
    · rintro ⟨handle, hget⟩
      exact ⟨handle, _, hget, rfl, .inl rfl⟩
    · rintro ⟨handle, ⟨p, m⟩, hget, rfl, hmode | hmode⟩
      · subst hmode
        exact ⟨handle, hget⟩
      · cases hmode
  | Write =>
    rw [IOEntry.blocks, Bool.or_eq_true, hwriter, decide_eq_true_eq, UInt32.lt_iff_toNat_lt,
      h.io_readers, UInt32.toNat_zero, readers_pos_iff]
    constructor
    · rintro (⟨handle, hget⟩ | ⟨handle, hget⟩)
      · exact ⟨handle, _, hget, rfl, .inr rfl⟩
      · exact ⟨handle, _, hget, rfl, .inr rfl⟩
    · rintro ⟨handle, ⟨p, m⟩, hget, rfl, -⟩
      cases m with
      | Read => exact .inr ⟨handle, hget⟩
      | Write => exact .inl ⟨handle, hget⟩

/-- The three checks of an acquire together are a check against every live handle. -/
theorem Exact.blocked_iff_conflict (h : Exact s) (mode : LockMode) (hpath : Normal path.toList) :
    (ancestor_io_conflict s.locks path mode = true ∨ descendant_io_conflict s.locks path mode = true ∨
      ((s.locks.get path).getD .default).blocks mode = true) ↔
    ∃ handle info, s.handles.get handle = some info ∧ Conflict info ⟨path, mode⟩ := by
  have hkeys (path : String) (entry : IOEntry) (hget : s.locks.get path = some entry) :
      Normal path.toList := by
    obtain ⟨handle, mode, hlive⟩ := h.held path entry hget
    exact h.normal handle _ hlive
  rw [blocked_iff hpath hkeys]
  constructor
  · rintro ⟨key, entry, hget, hrelated, hblocks⟩
    obtain ⟨handle, info, hlive, rfl, hmode⟩ := ((h.entry key entry hget).blocks_iff mode).mp hblocks
    exact ⟨handle, info, hlive, hrelated, hmode⟩
  · rintro ⟨handle, info, hlive, hrelated, hmode⟩
    obtain ⟨entry, hget⟩ := isSome_iff_exists.mp (h.present handle info hlive)
    refine ⟨info.path, entry, hget, hrelated, ?_⟩
    exact ((h.entry info.path entry hget).blocks_iff mode).mpr ⟨handle, info, hlive, rfl, hmode⟩

/-! ## What the two operations do -/

def IOEntry.acquired (entry : IOEntry) (handle : UInt64) : LockMode → IOEntry
  | .Read => { entry with io_readers := entry.io_readers + 1 }
  | .Write => { entry with io_writer := some handle }

def granted (s : LockManager) (path : String) (mode : LockMode) : LockManager :=
  { locks := s.locks.insert path
      (((s.locks.get path).getD .default).acquired (s.next_handle + 1) mode)
    handles := s.handles.insert (s.next_handle + 1) ⟨path, mode⟩
    next_handle := s.next_handle + 1 }

/-- An acquire is refused and leaves the state as it was, or it is granted. An entry that a refused
acquire looks up is there already. -/
theorem blocking_acquire_cases (s : LockManager) (path : String) (mode : LockMode) :
    ((ancestor_io_conflict s.locks (normalize_path path) mode = true ∨
        descendant_io_conflict s.locks (normalize_path path) mode = true ∨
        ((s.locks.get (normalize_path path)).getD .default).blocks mode = true) ∧
      blocking_acquire s path mode = (0, s)) ∨
    (¬ (ancestor_io_conflict s.locks (normalize_path path) mode = true ∨
        descendant_io_conflict s.locks (normalize_path path) mode = true ∨
        ((s.locks.get (normalize_path path)).getD .default).blocks mode = true) ∧
      blocking_acquire s path mode = (s.next_handle + 1, granted s (normalize_path path) mode)) := by
  unfold blocking_acquire try_acquire_io_locked
  by_cases hup : ancestor_io_conflict s.locks (normalize_path path) mode = true
  · rw [if_pos hup]
    exact .inl ⟨.inl hup, rfl⟩
  · rw [if_neg hup]
    by_cases hdown : descendant_io_conflict s.locks (normalize_path path) mode = true
    · rw [if_pos hdown]
      exact .inl ⟨.inr (.inl hdown), rfl⟩
    · rw [if_neg hdown]
      by_cases hown : ((s.locks.get (normalize_path path)).getD .default).blocks mode = true
      · rw [if_pos hown]
        refine .inl ⟨.inr (.inr hown), ?_⟩
        cases hget : s.locks.get (normalize_path path) with
        | none =>
          -- an entry that was just created blocks nobody
          rw [hget] at hown
          cases mode <;> exact absurd hown (by decide)
        | some entry =>
          have hsame : s.locks.insert (normalize_path path) entry = s.locks := by
            refine ext_get fun key => ?_
            rw [get_insert]
            split_ifs with hkey
            · rw [hkey, hget]
            · rfl
          simp only [getD_some, hsame]
      · rw [if_neg hown]
        refine .inr ⟨?_, by cases mode <;> rfl⟩
        rintro (h | h | h)
        · exact hup h
        · exact hdown h
        · exact hown h

theorem Exact.granted_iff (h : Exact s) (path : String) (mode : LockMode) :
    (blocking_acquire s path mode = (s.next_handle + 1, granted s (normalize_path path) mode) ∧
      ∀ handle info, s.handles.get handle = some info → ¬ Conflict info ⟨normalize_path path, mode⟩) ∨
    (blocking_acquire s path mode = (0, s) ∧
      ∃ handle info, s.handles.get handle = some info ∧ Conflict info ⟨normalize_path path, mode⟩) := by
  have hiff := h.blocked_iff_conflict mode (normal_normalize_path path)
  rcases blocking_acquire_cases s path mode with ⟨hblocked, heq⟩ | ⟨hfree, heq⟩
  · exact .inr ⟨heq, hiff.mp hblocked⟩
  · refine .inl ⟨heq, fun handle info hlive hconflict => ?_⟩
    exact hfree (hiff.mpr ⟨handle, info, hlive, hconflict⟩)

/-! ## Grants -/

theorem Exact.fresh (h : Exact s) (hfits : s.next_handle.toNat + 1 < 2 ^ 64) :
    s.next_handle + 1 ≠ 0 ∧ (s.next_handle + 1).toNat = s.next_handle.toNat + 1 ∧
      s.handles.get (s.next_handle + 1) = none := by
  have hnat : (s.next_handle + 1).toNat = s.next_handle.toNat + 1 := by
    exact Nat.mod_eq_of_lt hfits
  refine ⟨fun hzero => ?_, hnat, ?_⟩
  · rw [hzero] at hnat
    exact absurd hnat (by simp)
  · cases hget : s.handles.get (s.next_handle + 1) with
    | none => rfl
    | some info =>
      have hle := (h.issued _ info hget).2
      omega

theorem readers_granted (hfresh : s.handles.get (s.next_handle + 1) = none) (key : String) :
    readers (granted s path mode) key =
      readers s key + if path = key ∧ mode = .Read then 1 else 0 := by
  unfold readers
  rw [show (granted s path mode).handles = s.handles.insert (s.next_handle + 1) ⟨path, mode⟩ from rfl,
    (scan_insert_perm _ _ hfresh).countP_eq, countP_cons]
  simp only [HandleInfo.mk.injEq, decide_eq_true_eq]

theorem live_granted (hfresh : s.handles.get (s.next_handle + 1) = none)
    {handle : UInt64} {info : HandleInfo} :
    (granted s path mode).handles.get handle = some info ↔
      (handle = s.next_handle + 1 ∧ info = ⟨path, mode⟩) ∨ s.handles.get handle = some info := by
  rw [show (granted s path mode).handles = s.handles.insert (s.next_handle + 1) ⟨path, mode⟩ from rfl,
    get_insert]
  by_cases hhandle : handle = s.next_handle + 1
  · rw [if_pos hhandle, hhandle, hfresh]
    simp [eq_comm]
  · rw [if_neg hhandle]
    simp [hhandle]

theorem Exact.describes_getD (h : Exact s) (path : String) :
    Describes s path ((s.locks.get path).getD .default) := by
  cases hget : s.locks.get path with
  | some entry => exact h.entry path entry hget
  | none =>
    have hnone (handle : UInt64) (mode : LockMode) : s.handles.get handle ≠ some ⟨path, mode⟩ := by
      intro hlive
      have hsome := h.present handle _ hlive
      rw [hget] at hsome
      cases hsome
    refine ⟨?_, fun handle => ?_⟩
    · have hzero : ¬ 0 < readers s path := fun hpos =>
        (readers_pos_iff.mp hpos).elim fun handle hlive => hnone handle .Read hlive
      exact (Nat.eq_zero_of_not_pos hzero).symm
    · constructor
      · intro hwriter
        cases hwriter
      · intro hlive
        exact absurd hlive (hnone handle .Write)

theorem describes_granted (h : Describes s path entry)
    (hfresh : s.handles.get (s.next_handle + 1) = none)
    (hfits : mode = .Read → readers s path + 1 < 2 ^ 32)
    (hfree : ∀ handle info, s.handles.get handle = some info → ¬ Conflict info ⟨path, mode⟩) :
    Describes (granted s path mode) path (entry.acquired (s.next_handle + 1) mode) := by
  cases mode with
  | Read =>
    constructor
    · rw [readers_granted hfresh, if_pos ⟨rfl, rfl⟩, IOEntry.acquired, UInt32.toNat_add,
        UInt32.toNat_one, h.io_readers]
      exact Nat.mod_eq_of_lt (hfits rfl)
    · intro handle
      rw [live_granted hfresh]
      simp [IOEntry.acquired, h.io_writer]
  | Write =>
    constructor
    · rw [readers_granted hfresh, if_neg (fun hmode => by cases hmode.2)]
      exact h.io_readers
    · intro handle
      rw [live_granted hfresh]
      constructor
      · intro hwriter
        exact .inl ⟨(some.inj hwriter).symm, rfl⟩
      · rintro (⟨rfl, -⟩ | hlive)
        · rfl
        · -- a writer that was there would have refused this one
          exact absurd ⟨.inl rfl, .inl rfl⟩ (hfree handle _ hlive)

theorem Conflict.symm {a b : HandleInfo} (h : Conflict a b) : Conflict b a := by
  obtain ⟨hrelated, hmode⟩ := h
  refine ⟨?_, hmode.symm⟩
  rcases hrelated with heq | habove | habove
  · exact .inl heq.symm
  · exact .inr (.inr habove)
  · exact .inr (.inl habove)

theorem Exact.granted (h : Exact s) (hpath : Normal path.toList)
    (hroom : s.next_handle.toNat + 1 < 2 ^ 64) (hfits : mode = .Read → readers s path + 1 < 2 ^ 32)
    (hfree : ∀ handle info, s.handles.get handle = some info → ¬ Conflict info ⟨path, mode⟩) :
    Exact (granted s path mode) := by
  obtain ⟨hnonzero, hnat, hfresh⟩ := h.fresh hroom
  have hlocks (key : String) (hkey : key ≠ path) :
      (IoLocks.granted s path mode).locks.get key = s.locks.get key := get_insert_of_ne _ _ hkey
  have hlocks_self : (IoLocks.granted s path mode).locks.get path =
      some (((s.locks.get path).getD .default).acquired (s.next_handle + 1) mode) :=
    get_insert_self _ _ _
  constructor
  case normal =>
    intro handle info hlive
    rcases (live_granted hfresh).mp hlive with ⟨-, rfl⟩ | hold
    · exact hpath
    · exact h.normal handle info hold
  case issued =>
    intro handle info hlive
    rw [show (IoLocks.granted s path mode).next_handle = s.next_handle + 1 from rfl, hnat]
    rcases (live_granted hfresh).mp hlive with ⟨rfl, -⟩ | hold
    · exact ⟨hnonzero, Nat.le_of_eq hnat⟩
    · exact ⟨(h.issued handle info hold).1, Nat.le_succ_of_le (h.issued handle info hold).2⟩
  case entry =>
    intro key entry hget
    by_cases hkey : key = path
    · subst hkey
      rw [hlocks_self] at hget
      cases hget
      exact describes_granted (h.describes_getD key) hfresh hfits hfree
    · rw [hlocks key hkey] at hget
      have hdescribes := h.entry key entry hget
      refine ⟨?_, fun handle => ?_⟩
      · rw [readers_granted hfresh, if_neg (fun heq => hkey heq.1.symm)]
        exact hdescribes.io_readers
      · rw [live_granted hfresh, hdescribes.io_writer]
        simp [hkey]
  case held =>
    intro key entry hget
    by_cases hkey : key = path
    · exact ⟨_, mode, (live_granted hfresh).mpr (.inl ⟨rfl, by rw [hkey]⟩)⟩
    · rw [hlocks key hkey] at hget
      obtain ⟨handle, m, hlive⟩ := h.held key entry hget
      exact ⟨handle, m, (live_granted hfresh).mpr (.inr hlive)⟩
  case present =>
    intro handle info hlive
    by_cases hkey : info.path = path
    · rw [hkey, hlocks_self]
      rfl
    · rw [hlocks info.path hkey]
      rcases (live_granted hfresh).mp hlive with ⟨-, rfl⟩ | hold
      · exact absurd rfl hkey
      · exact h.present handle info hold
  case disjoint =>
    intro handle handle' info info' hlive hlive' hne
    rcases (live_granted hfresh).mp hlive with ⟨rfl, rfl⟩ | hold
    · rcases (live_granted hfresh).mp hlive' with ⟨rfl, -⟩ | hold'
      · exact absurd rfl hne
      · exact fun hconflict => hfree handle' info' hold' hconflict.symm
    · rcases (live_granted hfresh).mp hlive' with ⟨-, rfl⟩ | hold'
      · exact hfree handle info hold
      · exact h.disjoint handle handle' info info' hold hold' hne

/-! ## Releases -/

def released (s : LockManager) (handle : UInt64) (info : HandleInfo) (entry : IOEntry) : LockManager :=
  { s with
    handles := s.handles.remove handle
    locks :=
      if (entry.released handle info.mode).is_idle then s.locks.remove info.path
      else s.locks.insert info.path (entry.released handle info.mode) }

theorem Exact.do_release_cases (h : Exact s) (handle : UInt64) :
    (s.handles.get handle = none ∧ do_release s handle = (false, s)) ∨
    ∃ info entry, s.handles.get handle = some info ∧ s.locks.get info.path = some entry ∧
      do_release s handle = (true, released s handle info entry) := by
  unfold do_release
  cases hlive : s.handles.get handle with
  | none => exact .inl ⟨rfl, rfl⟩
  | some info =>
    obtain ⟨entry, hget⟩ := isSome_iff_exists.mp (h.present handle info hlive)
    refine .inr ⟨info, entry, rfl, hget, ?_⟩
    dsimp only
    rw [hget]
    rfl

section Release

variable {s : LockManager} {handle : UInt64} {info : HandleInfo} {entry : IOEntry}

theorem live_released {handle' : UInt64} {info' : HandleInfo} :
    (released s handle info entry).handles.get handle' = some info' ↔
      handle' ≠ handle ∧ s.handles.get handle' = some info' := by
  rw [show (released s handle info entry).handles = s.handles.remove handle from rfl, get_remove]
  by_cases hhandle : handle' = handle
  · simp [hhandle]
  · simp [hhandle]

theorem readers_released (hlive : s.handles.get handle = some info) (key : String) :
    readers s key =
      readers (released s handle info entry) key + if info = ⟨key, .Read⟩ then 1 else 0 := by
  unfold readers
  rw [(scan_remove_perm _ hlive).countP_eq, countP_cons]
  simp only [decide_eq_true_eq]
  rfl

theorem released_get_of_ne {key : String} (hkey : key ≠ info.path) :
    (released s handle info entry).locks.get key = s.locks.get key := by
  unfold released
  split_ifs
  · exact get_remove_of_ne _ hkey
  · exact get_insert_of_ne _ _ hkey

theorem describes_released (h : Describes s info.path entry) (hlive : s.handles.get handle = some info) :
    Describes (released s handle info entry) info.path (entry.released handle info.mode) := by
  obtain ⟨path, mode⟩ := info
  have hreaders : readers s path = readers (released s handle ⟨path, mode⟩ entry) path + _ :=
    readers_released hlive path
  cases mode with
  | Read =>
    rw [if_pos rfl] at hreaders
    constructor
    · have hone : (1 : UInt32) ≤ entry.io_readers := by
        rw [UInt32.le_iff_toNat_le, h.io_readers, hreaders, UInt32.toNat_one]
        omega
      rw [IOEntry.released, UInt32.toNat_sub_of_le _ _ hone, h.io_readers, hreaders]
      exact Nat.add_sub_cancel _ _
    · intro handle'
      rw [live_released, IOEntry.released, h.io_writer]
      constructor
      · intro hwriter
        refine ⟨?_, hwriter⟩
        rintro rfl
        rw [hlive] at hwriter
        cases hwriter
      · exact fun hwriter => hwriter.2
  | Write =>
    have hwriter : entry.io_writer = some handle := (h.io_writer handle).mpr hlive
    rw [if_neg (fun heq => nomatch heq), Nat.add_zero] at hreaders
    rw [IOEntry.released, if_pos hwriter]
    constructor
    · rw [← hreaders]
      exact h.io_readers
    · intro handle'
      rw [live_released]
      constructor
      · intro hnone
        cases hnone
      · rintro ⟨hne, hother⟩
        -- there is one writer, and it was released
        have hsame := (h.io_writer handle').mpr hother
        rw [hwriter] at hsame
        exact absurd (some.inj hsame).symm hne

theorem Exact.released (h : Exact s) (hlive : s.handles.get handle = some info)
    (hget : s.locks.get info.path = some entry) : Exact (released s handle info entry) := by
  have hdescribes := describes_released (h.entry _ entry hget) hlive
  have hown : (IoLocks.released s handle info entry).locks.get info.path =
      if (entry.released handle info.mode).is_idle then none
      else some (entry.released handle info.mode) := by
    unfold IoLocks.released
    split_ifs
    · exact get_remove_self _ _
    · exact get_insert_self _ _ _
  constructor
  case normal =>
    intro handle' info' hlive'
    exact h.normal handle' info' (live_released.mp hlive').2
  case issued =>
    intro handle' info' hlive'
    exact h.issued handle' info' (live_released.mp hlive').2
  case entry =>
    intro key entry' hget'
    by_cases hkey : key = info.path
    · subst hkey
      rw [hown] at hget'
      split_ifs at hget'
      cases hget'
      exact hdescribes
    · rw [released_get_of_ne hkey] at hget'
      have hold := h.entry key entry' hget'
      have hother : info ≠ ⟨key, .Read⟩ := fun heq => hkey (by rw [heq])
      refine ⟨?_, fun handle' => ?_⟩
      · have hreaders : readers s key = readers (IoLocks.released s handle info entry) key + _ :=
          readers_released hlive key
        rw [if_neg hother, Nat.add_zero] at hreaders
        rw [← hreaders]
        exact hold.io_readers
      · rw [live_released, hold.io_writer]
        constructor
        · intro hlive'
          refine ⟨?_, hlive'⟩
          rintro rfl
          rw [hlive] at hlive'
          exact hkey (by rw [some.inj hlive'])
        · exact fun hlive' => hlive'.2
  case held =>
    intro key entry' hget'
    by_cases hkey : key = info.path
    · subst hkey
      by_contra hheld
      rw [hown, if_pos (hdescribes.is_idle_iff.mpr hheld)] at hget'
      cases hget'
    · rw [released_get_of_ne hkey] at hget'
      obtain ⟨handle', mode, hlive'⟩ := h.held key entry' hget'
      refine ⟨handle', mode, live_released.mpr ⟨?_, hlive'⟩⟩
      rintro rfl
      rw [hlive] at hlive'
      exact hkey (by rw [some.inj hlive'])
  case present =>
    intro handle' info' hlive'
    by_cases hkey : info'.path = info.path
    · have hbusy : ¬ (entry.released handle info.mode).is_idle = true := by
        rw [hdescribes.is_idle_iff, not_not, ← hkey]
        exact ⟨handle', info'.mode, hlive'⟩
      rw [hkey, hown, if_neg hbusy]
      rfl
    · rw [released_get_of_ne hkey]
      exact h.present handle' info' (live_released.mp hlive').2
  case disjoint =>
    intro handle₁ handle₂ info₁ info₂ hlive₁ hlive₂ hne
    exact h.disjoint handle₁ handle₂ info₁ info₂ (live_released.mp hlive₁).2 (live_released.mp hlive₂).2 hne

end Release

/-! ## Runs -/

theorem exact_new : Exact .new := by
  have hlive (handle : UInt64) (info : HandleInfo) :
      LockManager.new.handles.get handle ≠ some info := by
    exact fun h => nomatch h
  have hlocks (path : String) (entry : IOEntry) : LockManager.new.locks.get path ≠ some entry := by
    exact fun h => nomatch h
  constructor
  case normal => exact fun handle info h => absurd h (hlive handle info)
  case issued => exact fun handle info h => absurd h (hlive handle info)
  case entry => exact fun path entry h => absurd h (hlocks path entry)
  case held => exact fun path entry h => absurd h (hlocks path entry)
  case present => exact fun handle info h => absurd h (hlive handle info)
  case disjoint => exact fun handle _ info _ h => absurd h (hlive handle info)

theorem Exact.step {s' : LockManager} (h : Exact s) {op : LockOp} {answer : LockAnswer}
    (hfits : Fits s op) (hstep : lock_step s op = some (answer, s')) :
    Exact s' ∧ s.next_handle.toNat ≤ s'.next_handle.toNat ∧
      ∀ handle, answer = .handle handle → handle.toNat ≤ s'.next_handle.toNat := by
  cases op with
  | blocking_acquire path mode =>
    obtain ⟨rfl, rfl⟩ := Prod.mk.inj (some.inj hstep)
    rcases h.granted_iff path mode with ⟨heq, hfree⟩ | ⟨heq, -⟩
    · rw [heq]
      refine ⟨h.granted (normal_normalize_path path) hfits.1 hfits.2 hfree, ?_, ?_⟩
      · show s.next_handle.toNat ≤ (s.next_handle + 1).toNat
        rw [(h.fresh hfits.1).2.1]
        exact Nat.le_succ _
      · rintro handle hanswer
        cases hanswer
        exact Nat.le_refl _
    · rw [heq]
      refine ⟨h, Nat.le_refl _, ?_⟩
      rintro handle hanswer
      cases hanswer
      exact Nat.zero_le _
  | do_release handle =>
    obtain ⟨rfl, rfl⟩ := Prod.mk.inj (some.inj hstep)
    refine ⟨?_, ?_, fun handle hanswer => nomatch hanswer⟩
    · rcases h.do_release_cases handle with ⟨-, heq⟩ | ⟨info, entry, hlive, hget, heq⟩
      · rw [heq]
        exact h
      · rw [heq]
        exact h.released hlive hget
    · rcases h.do_release_cases handle with ⟨-, heq⟩ | ⟨info, entry, hlive, hget, heq⟩
      · rw [heq]
      · rw [heq]
        exact Nat.le_refl _

theorem Exact.run {t : LockManager} (h : Exact s) {ops : List LockOp}
    (hok : along lock_step Fits s ops) (hrun : run lock_step s ops = some (answers, t)) :
    Exact t ∧ s.next_handle.toNat ≤ t.next_handle.toNat ∧
      ∀ handle, .handle handle ∈ answers → handle.toNat ≤ t.next_handle.toNat := by
  induction ops generalizing s answers with
  | nil =>
    cases hrun
    exact ⟨h, Nat.le_refl _, fun handle hmem => nomatch hmem⟩
  | cons op ops ih =>
    obtain ⟨answer, s', answers', hstep, hrest, rfl⟩ := run_cons.mp hrun
    obtain ⟨hexact, hle, hanswer⟩ := h.step hok.1 hstep
    obtain ⟨hfinal, hle', hanswers⟩ := ih hexact (hok.2 answer s' hstep) hrest
    refine ⟨hfinal, Nat.le_trans hle hle', fun handle hmem => ?_⟩
    rcases mem_cons.mp hmem with heq | hmem
    · exact Nat.le_trans (hanswer handle heq.symm) hle'
    · exact hanswers handle hmem

/-- What an acquire does after a run that gave `answers`. -/
structure AcquireExact (s : LockManager) (answers : List LockAnswer) (path : String)
    (mode : LockMode) : Prop where
  granted_iff : (blocking_acquire s path mode).1 ≠ 0 ↔
    ∀ handle info, s.handles.get handle = some info → ¬ Conflict info ⟨normalize_path path, mode⟩
  refused : (blocking_acquire s path mode).1 = 0 → (blocking_acquire s path mode).2 = s
  fresh : (blocking_acquire s path mode).1 ≠ 0 →
    .handle (blocking_acquire s path mode).1 ∉ answers ∧
      s.handles.get (blocking_acquire s path mode).1 = none ∧
      (blocking_acquire s path mode).2.handles =
        s.handles.insert (blocking_acquire s path mode).1 ⟨normalize_path path, mode⟩

/-- What a release does: an unknown handle changes nothing, a live one is the only one removed. -/
structure ReleaseExact (s : LockManager) (handle : UInt64) : Prop where
  answer : (do_release s handle).1 = (s.handles.get handle).isSome
  handles : (do_release s handle).2.handles = s.handles.remove handle
  others : ∀ path, (∀ mode, s.handles.get handle ≠ some ⟨path, mode⟩) →
    (do_release s handle).2.locks.get path = s.locks.get path

theorem Exact.acquire (h : Exact s)
    (hanswers : ∀ handle, .handle handle ∈ answers → handle.toNat ≤ s.next_handle.toNat)
    (hfits : Fits s (.blocking_acquire path mode)) : AcquireExact s answers path mode := by
  obtain ⟨hnonzero, hnat, hfresh⟩ := h.fresh hfits.1
  rcases h.granted_iff path mode with ⟨heq, hfree⟩ | ⟨heq, handle, info, hlive, hconflict⟩
  · constructor
    · rw [heq]
      exact ⟨fun _ => hfree, fun _ => hnonzero⟩
    · rw [heq]
      exact fun hzero => absurd hzero hnonzero
    · rw [heq]
      refine fun _ => ⟨fun hmem => ?_, hfresh, rfl⟩
      have hle : (s.next_handle + 1).toNat ≤ s.next_handle.toNat := hanswers _ hmem
      omega
  · constructor
    · rw [heq]
      exact ⟨fun hne => absurd rfl hne, fun hfree => absurd hconflict (hfree handle info hlive)⟩
    · rw [heq]
      exact fun _ => rfl
    · rw [heq]
      exact fun hne => absurd rfl hne

theorem Exact.release (h : Exact s) (handle : UInt64) : ReleaseExact s handle := by
  rcases h.do_release_cases handle with ⟨hnone, heq⟩ | ⟨info, entry, hlive, hget, heq⟩
  · constructor
    · rw [heq, hnone]
      rfl
    · rw [heq]
      refine ext_get fun key => ?_
      rw [get_remove]
      split_ifs with hkey
      · rw [hkey, hnone]
      · rfl
    · intro path _
      rw [heq]
  · constructor
    · rw [heq, hlive]
      rfl
    · rw [heq]
      rfl
    · intro path hother
      rw [heq]
      refine released_get_of_ne ?_
      rintro rfl
      exact hother info.mode hlive

/-- As long as the counters have room, a run of acquires and releases behaves as the set of its
live handles does: the tables describe it, an acquire is granted exactly if nothing in it conflicts,
and a release takes out its own handle. -/
theorem io_locks_are_exact (ops : List LockOp) (answers : List LockAnswer) (s : LockManager)
    (hok : along lock_step Fits .new ops) (hrun : run lock_step .new ops = some (answers, s)) :
    Exact s ∧
      (∀ path mode, Fits s (.blocking_acquire path mode) → AcquireExact s answers path mode) ∧
      ∀ handle, ReleaseExact s handle := by
  obtain ⟨hexact, -, hanswers⟩ := exact_new.run hok hrun
  exact ⟨hexact, fun path mode hfits => hexact.acquire hanswers hfits, hexact.release⟩

instance (s : LockManager) (op : LockOp) : Decidable (Fits s op) := by
  cases op with
  | blocking_acquire path mode => exact inferInstanceAs (Decidable (_ ∧ _))
  | do_release handle => exact inferInstanceAs (Decidable True)

/-- Two readers, a writer that is refused below one of them, and a release of an unknown handle. -/
theorem io_locks_are_exact_two_readers :
    ∃ answers s,
      run lock_step .new [.blocking_acquire "/a/" .Read, .blocking_acquire "//a" .Read,
        .blocking_acquire "/a/b" .Write, .do_release 7, .do_release 1] = some (answers, s) ∧
      answers = [.handle 1, .handle 2, .handle 0, .released false, .released true] ∧
      Exact s ∧ AcquireExact s answers "/a/b" .Write ∧ ReleaseExact s 2 := by
  refine exists_run (fun answers s =>
    answers = [.handle 1, .handle 2, .handle 0, .released false, .released true] ∧
      Fits s (.blocking_acquire "/a/b" .Write)) (by decide +kernel) ?_
  rintro answers s hrun ⟨hanswers, hfits⟩
  obtain ⟨hexact, hacquire, hrelease⟩ := io_locks_are_exact _ answers s (along_of_check
    (fun s op (h : decide (Fits s op) = true) => of_decide_eq_true h) (by decide +kernel)) hrun
  exact ⟨hanswers, hexact, hacquire _ _ hfits, hrelease 2⟩

/-! ## A count that wraps -/

/-- The state after `n` readers came to one path and none left. -/
def crowd : ℕ → LockManager
  | 0 => .new
  | n + 1 => granted (crowd n) "/a" .Read

theorem crowd_locks (n : ℕ) (key : String) :
    (crowd n).locks.get key = if key = "/a" ∧ 0 < n then some ⟨UInt32.ofNat n, none⟩ else none := by
  induction n generalizing key with
  | zero =>
    rw [if_neg (fun h => absurd h.2 (Nat.lt_irrefl 0))]
    exact get_empty key
  | succ n ih =>
    rw [crowd, granted, get_insert, ih "/a"]
    by_cases hkey : key = "/a"
    · rw [if_pos hkey, if_pos (c := key = "/a" ∧ 0 < n + 1) ⟨hkey, Nat.succ_pos n⟩, UInt32.ofNat_add]
      cases n with
      | zero => rfl
      | succ n => rfl
    · rw [if_neg hkey, ih key, if_neg (fun h => hkey h.1), if_neg (fun h => hkey h.1)]

theorem crowd_first (n : ℕ) (hn : n < 2 ^ 64) (hpos : 0 < n) :
    (crowd n).handles.get 1 = some ⟨"/a", .Read⟩ ∧ (crowd n).next_handle = UInt64.ofNat n := by
  induction n with
  | zero => exact absurd hpos (Nat.lt_irrefl 0)
  | succ n ih =>
    cases n with
    | zero => exact ⟨get_insert_self _ _ _, rfl⟩
    | succ n =>
      obtain ⟨hlive, hnext⟩ := ih (Nat.lt_of_succ_lt hn) (Nat.succ_pos n)
      rw [crowd, granted, hnext]
      refine ⟨?_, (UInt64.ofNat_add _ 1).symm⟩
      rw [get_insert_of_ne, hlive]
      intro heq
      have hnat := congrArg UInt64.toNat heq
      rw [UInt64.toNat_add, UInt64.toNat_ofNat'] at hnat
      omega

theorem granted_of_no_block
    (h : ∀ key entry, s.locks.get key = some entry → entry.blocks mode = false) :
    blocking_acquire s path mode = (s.next_handle + 1, granted s (normalize_path path) mode) := by
  rcases blocking_acquire_cases s path mode with ⟨hblocked, -⟩ | ⟨-, heq⟩
  · exfalso
    rcases hblocked with hup | hdown | hown
    · obtain ⟨anc, -, hblocks⟩ := any_eq_true.mp hup
      cases hget : s.locks.get anc with
      | none => simp [hget] at hblocks
      | some entry => simp [hget, h anc entry hget] at hblocks
    · obtain ⟨⟨key, entry⟩, hmem, hblocks⟩ := any_eq_true.mp hdown
      rw [h key entry (mem_scan.mp hmem).2] at hblocks
      cases hblocks
    · cases hget : s.locks.get (normalize_path path) with
      | none =>
        rw [hget] at hown
        cases mode <;> exact absurd hown (by decide)
      | some entry =>
        rw [hget, getD_some, h _ entry hget] at hown
        cases hown
  · exact heq

theorem normalize_path_a : normalize_path "/a" = "/a" := by decide

theorem crowd_run (n : ℕ) : ∀ m, ∃ answers,
    run lock_step (crowd m) (replicate n (.blocking_acquire "/a" .Read)) =
      some (answers, crowd (m + n)) := by
  induction n with
  | zero => exact fun m => ⟨[], rfl⟩
  | succ n ih =>
    intro m
    have hgrant : blocking_acquire (crowd m) "/a" .Read =
        ((crowd m).next_handle + 1, crowd (m + 1)) := by
      rw [granted_of_no_block]
      · rfl
      · intro key entry hget
        rw [crowd_locks] at hget
        split_ifs at hget
        cases hget
        rfl
    obtain ⟨answers, hrun⟩ := ih (m + 1)
    rw [Nat.add_right_comm] at hrun
    have hstep : lock_step (crowd m) (.blocking_acquire "/a" .Read) =
        some (.handle ((crowd m).next_handle + 1), crowd (m + 1)) := by rw [lock_step, hgrant]
    exact ⟨_, run_cons.mpr ⟨_, _, answers, hstep, hrun, rfl⟩⟩

theorem crowd_write {n : ℕ} (hn : n % 2 ^ 32 = 0) :
    (blocking_acquire (crowd n) "/a" .Write).1 = (crowd n).next_handle + 1 := by
  rw [granted_of_no_block]
  intro key entry hget
  rw [crowd_locks] at hget
  split_ifs at hget
  cases hget
  have hzero : UInt32.ofNat n = 0 := by
    rw [← UInt32.toNat_inj, UInt32.toNat_ofNat', hn]
    rfl
  rw [hzero]
  rfl

/-- After 2³² readers of one path, all still there, a writer of that path is let in. -/
theorem writer_beside_wrapped_readers :
    ∃ answers s,
      run lock_step .new (replicate (2 ^ 32) (.blocking_acquire "/a" .Read)) = some (answers, s) ∧
      s.handles.get 1 = some ⟨"/a", .Read⟩ ∧ Conflict ⟨"/a", .Read⟩ ⟨normalize_path "/a", .Write⟩ ∧
      (blocking_acquire s "/a" .Write).1 ≠ 0 := by
  obtain ⟨answers, hrun⟩ := crowd_run (2 ^ 32) 0
  obtain ⟨hlive, hnext⟩ := crowd_first (2 ^ 32) (by decide) (by decide)
  rw [Nat.zero_add] at hrun
  refine ⟨answers, crowd (2 ^ 32), hrun, hlive, ⟨.inl ?_, .inr rfl⟩, ?_⟩
  · exact normalize_path_a.symm
  · rw [crowd_write (Nat.mod_self _), hnext]
    decide

/-! ## Giving everything back -/

theorem live_of_run {ops : List LockOp} (h : Exact s) (hok : along lock_step Fits s ops)
    (hrun : run lock_step s ops = some (answers, t)) {handle : UInt64}
    (hlive : (t.handles.get handle).isSome = true) :
    (s.handles.get handle).isSome = true ∨ .handle handle ∈ answers := by
  induction ops generalizing s answers with
  | nil =>
    cases hrun
    exact .inl hlive
  | cons op ops ih =>
    obtain ⟨answer, s', answers', hstep, hrest, rfl⟩ := run_cons.mp hrun
    obtain hs' | hmem := ih (h.step hok.1 hstep).1 (hok.2 answer s' hstep) hrest
    -- live after the first step: live before it, or given out by it
    case inr => exact .inr (mem_cons_of_mem _ hmem)
    cases op with
    | blocking_acquire path mode =>
      obtain ⟨rfl, rfl⟩ := Prod.mk.inj (some.inj hstep)
      rcases h.granted_iff path mode with ⟨heq, -⟩ | ⟨heq, -⟩
      · rw [heq] at hs' ⊢
        by_cases hnew : handle = s.next_handle + 1
        · exact .inr (hnew ▸ mem_cons_self)
        · rw [granted, get_insert_of_ne _ _ hnew] at hs'
          exact .inl hs'
      · rw [heq] at hs'
        exact .inl hs'
    | do_release released =>
      obtain ⟨rfl, rfl⟩ := Prod.mk.inj (some.inj hstep)
      rw [(h.release released).handles, get_remove] at hs'
      split_ifs at hs'
      · cases hs'
      · exact .inl hs'

theorem Exact.release_all (h : Exact s) (handles : List UInt64) :
    Exact (handles.foldl (fun s handle => (do_release s handle).2) s) ∧
      ∀ handle, ((handles.foldl (fun s handle => (do_release s handle).2) s).handles.get handle) =
        if handle ∈ handles then none else s.handles.get handle := by
  induction handles generalizing s with
  | nil => exact ⟨h, fun handle => rfl⟩
  | cons first handles ih =>
    have hstep : lock_step s (.do_release first) = some (_, (do_release s first).2) := rfl
    have hfits : Fits s (.do_release first) := trivial
    obtain ⟨hexact, hget⟩ := ih (h.step hfits hstep).1
    refine ⟨hexact, fun handle => ?_⟩
    rw [foldl_cons, hget, (h.release first).handles, get_remove]
    by_cases hfirst : handle = first <;> by_cases hrest : handle ∈ handles <;> simp [hfirst, hrest]

/-- **No I/O lock leaks.** Once all handles that a run has given out are released, in any order, some
of them for the second time and among handles that nobody ever got, both tables are empty again. -/
theorem released_locks_leave_nothing (ops : List LockOp) (answers : List LockAnswer)
    (s : LockManager) (hok : along lock_step Fits .new ops)
    (hrun : run lock_step .new ops = some (answers, s)) (handles : List UInt64)
    (hall : ∀ handle, .handle handle ∈ answers → handle ∈ handles) :
    let t := handles.foldl (fun s handle => (do_release s handle).2) s
    t.locks = ∅ ∧ t.handles = ∅ := by
  intro t
  obtain ⟨hexact, hget⟩ := (exact_new.run hok hrun).1.release_all handles
  have hnone (handle : UInt64) : t.handles.get handle = none := by
    rw [hget handle]
    split_ifs with hmem
    · rfl
    · rw [← not_isSome_iff_eq_none]
      intro hlive
      obtain hlive | hanswer := live_of_run exact_new hok hrun hlive
      · cases hlive
      · exact hmem (hall handle hanswer)
  refine ⟨ext_get fun path => ?_, ext_get fun handle => ?_⟩
  · rw [get_empty, eq_none_iff_forall_ne_some]
    intro entry hentry
    -- an entry has a handle that holds it
    obtain ⟨handle, mode, hlive⟩ := hexact.held path entry hentry
    rw [hnone handle] at hlive
    cases hlive
  · rw [get_empty, hnone handle]

/-- Two readers and a writer elsewhere, given back in another order and once more. -/
theorem released_locks_leave_nothing_three :
    ∃ answers s, run lock_step .new [.blocking_acquire "/a" .Read, .blocking_acquire "/a" .Read,
        .blocking_acquire "/b" .Write] = some (answers, s) ∧
      ([3, 1, 9, 1, 2].foldl (fun s handle => (do_release s handle).2) s).locks = ∅ := by
  refine exists_run (fun answers _ => answers = [.handle 1, .handle 2, .handle 3])
    (by decide +kernel) ?_
  rintro answers s hrun rfl
  refine (released_locks_leave_nothing _ _ s (along_of_check
    (fun s op (h : decide (Fits s op) = true) => of_decide_eq_true h) (by decide +kernel)) hrun
    [3, 1, 9, 1, 2] ?_).1
  simp

end NexusVfs.IoLocks
