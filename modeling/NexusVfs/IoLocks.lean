/-
Hierarchical I/O locks: `kernel/src/core/lock/mod.rs`.

A new lock is checked against the entries above its path, which `Ancestors` finds by
cutting the path at its last `/` again and again, and against those below it, a range of
the ordered table. Both come down to `Above` on normalised paths. `io_readers` is a
`u32` and the handle counter a `u64`; neither addition is checked.
-/
import NexusVfs.Table
import NexusVfs.Text
import NexusVfs.Runs

namespace NexusVfs.IoLocks

open String Text Runs

/-! ## Paths -/

def collapse : List Char → Bool → List Char
  | [], _ => []
  | ch :: chars, prev_slash =>
    if ch = '/' then
      if prev_slash then collapse chars true else '/' :: collapse chars true
    else ch :: collapse chars false

/-- `if len > 1 && ends_with('/') { pop }` -/
def trim_slash (chars : List Char) : List Char :=
  if 1 < chars.length ∧ chars.getLast? = some '/' then chars.dropLast else chars

def normalize_path (path : String) : String :=
  if path = "" then "/"
  else if ¬ ['/', '/'] <:+: path.toList then ofList (trim_slash path.toList)
  else ofList (trim_slash (collapse path.toList false))

/-- The items of `Ancestors`, from `path[..end]` on. `fuel` bounds their number. -/
def ancestors_loop : ℕ → String → List String
  | 0, _ => []
  | fuel + 1, head =>
    match rsplit_once head '/' with
    | none => []
    | some (before, _) => if before = "" then ["/"] else before :: ancestors_loop fuel before

def ancestors (path : String) : List String :=
  if path = "/" ∨ path = "" then [] else ancestors_loop path.toList.length path

/-! ## The state -/

inductive LockMode where
  | Read
  | Write
  deriving DecidableEq, Repr

structure IOEntry where
  io_readers : UInt32
  io_writer : Option UInt64
  deriving DecidableEq, Repr

def IOEntry.default : IOEntry := ⟨0, none⟩

def IOEntry.is_idle (entry : IOEntry) : Bool := entry.io_readers == 0 && entry.io_writer.isNone

structure HandleInfo where
  path : String
  mode : LockMode
  deriving DecidableEq, Repr

structure LockManager where
  locks : Table String IOEntry
  handles : Table UInt64 HandleInfo
  next_handle : UInt64

def LockManager.new : LockManager := ⟨∅, ∅, 0⟩

/-! ## Conflicts -/

/-- The match on the mode that both walks make at each entry. -/
def IOEntry.blocks (entry : IOEntry) : LockMode → Bool
  | .Read => entry.io_writer.isSome
  | .Write => entry.io_writer.isSome || decide (0 < entry.io_readers)

def ancestor_io_conflict (locks : Table String IOEntry) (path : String) (mode : LockMode) : Bool :=
  (ancestors path).any fun anc =>
    match locks.get anc with
    | some entry => entry.blocks mode
    | none => false

/-- The lower end of the range of descendants. -/
def subtree (path : String) : String := if ends_with path '/' then path else path ++ "/"

/-- The upper end: the last character, `/`, becomes `0`. -/
def subtree_end (path : String) : String := ofList ((subtree path).toList.dropLast ++ ['0'])

def descendant_io_conflict (locks : Table String IOEntry) (path : String) (mode : LockMode) : Bool :=
  (locks.scan fun key => decide (subtree path ≤ key) && decide (key < subtree_end path)).any
    fun row => row.2.blocks mode

/-! ## Operations -/

/-- `None` still returns the state, since the entry is looked up with `or_default`. -/
def try_acquire_io_locked (s : LockManager) (path : String) (mode : LockMode) :
    Option UInt64 × LockManager :=
  if ancestor_io_conflict s.locks path mode then (none, s)
  else if descendant_io_conflict s.locks path mode then (none, s)
  else
    let entry := (s.locks.get path).getD .default
    if entry.blocks mode then (none, { s with locks := s.locks.insert path entry })
    else
      let handle := s.next_handle + 1
      let entry := match mode with
        | .Read => { entry with io_readers := entry.io_readers + 1 }
        | .Write => { entry with io_writer := some handle }
      (some handle,
        { locks := s.locks.insert path entry
          handles := s.handles.insert handle ⟨path, mode⟩
          next_handle := s.next_handle + 1 })

/-- `blocking_acquire` with a timeout of 0. -/
def blocking_acquire (s : LockManager) (path : String) (mode : LockMode) : UInt64 × LockManager :=
  match try_acquire_io_locked s (normalize_path path) mode with
  | (some handle, s) => (handle, s)
  | (none, s) => (0, s)

def IOEntry.released (entry : IOEntry) (handle : UInt64) : LockMode → IOEntry
  | .Read => { entry with io_readers := entry.io_readers - 1 }
  | .Write => if entry.io_writer = some handle then { entry with io_writer := none } else entry

def do_release (s : LockManager) (handle : UInt64) : Bool × LockManager :=
  match s.handles.get handle with
  | none => (false, s)
  | some info =>
    let handles := s.handles.remove handle
    match s.locks.get info.path with
    | none => (true, { s with handles })
    | some entry =>
      let entry := entry.released handle info.mode
      (true, { s with
        handles
        locks := if entry.is_idle then s.locks.remove info.path else s.locks.insert info.path entry })

inductive LockOp where
  | blocking_acquire (path : String) (mode : LockMode)
  | do_release (handle : UInt64)

inductive LockAnswer where
  | handle (h : UInt64)
  | released (b : Bool)
  deriving DecidableEq

def lock_step (s : LockManager) : LockOp → Option (LockAnswer × LockManager)
  | .blocking_acquire path mode =>
    some (.handle (blocking_acquire s path mode).1, (blocking_acquire s path mode).2)
  | .do_release handle => some (.released (do_release s handle).1, (do_release s handle).2)

/-! ## Normalised paths -/

/-- Not empty, no `//`, and no `/` at the end unless it is all there is. -/
structure Normal (chars : List Char) : Prop where
  nonempty : chars ≠ []
  single : ¬ ['/', '/'] <:+: chars
  ending : 1 < chars.length → chars.getLast? ≠ some '/'

variable {chars : List Char} {a : String}

theorem normal_trim_slash (hne : chars ≠ []) (hs : ¬ ['/', '/'] <:+: chars) :
    Normal (trim_slash chars) := by
  unfold trim_slash
  by_cases hend : 1 < chars.length ∧ chars.getLast? = some '/'
  · rw [if_pos hend]
    obtain ⟨hlen, hlast⟩ := hend
    have hsplit : chars = chars.dropLast ++ ['/'] := (List.dropLast_append_getLast? '/' hlast).symm
    refine ⟨?_, fun h => ?_, fun _ hlast' => ?_⟩
    · intro hnil
      rw [hsplit, hnil] at hlen
      simp at hlen
    · exact hs (h.trans (List.dropLast_prefix chars).isInfix)
    · -- a second `/` before the last one
      have hsplit' := (List.dropLast_append_getLast? '/' hlast').symm
      apply hs
      rw [hsplit, hsplit']
      exact ⟨chars.dropLast.dropLast, [], by simp⟩
  · rw [if_neg hend]
    exact ⟨hne, hs, fun hlen hlast => hend ⟨hlen, hlast⟩⟩

theorem infix_cons_iff {c : Char} :
    ['/', '/'] <:+: c :: chars ↔ (c = '/' ∧ chars.head? = some '/') ∨ ['/', '/'] <:+: chars := by
  rw [List.infix_cons_iff]
  refine or_congr ?_ Iff.rfl
  cases chars with
  | nil => simp
  | cons d chars => simp [List.cons_prefix_cons, eq_comm]

theorem collapse_single (chars : List Char) (prev_slash : Bool) :
    ¬ ['/', '/'] <:+: collapse chars prev_slash ∧
      (prev_slash = true → (collapse chars prev_slash).head? ≠ some '/') := by
  induction chars generalizing prev_slash with
  | nil => simp [collapse]
  | cons ch chars ih =>
    unfold collapse
    by_cases hch : ch = '/'
    · rw [if_pos hch]
      cases prev_slash with
      | true =>
        exact ih true
      | false =>
        obtain ⟨hsingle, hhead⟩ := ih true
        rw [if_neg Bool.false_ne_true]
        refine ⟨?_, fun h => absurd h Bool.false_ne_true⟩
        rw [infix_cons_iff]
        rintro (⟨-, h⟩ | h)
        · exact hhead rfl h
        · exact hsingle h
    · rw [if_neg hch]
      obtain ⟨hsingle, -⟩ := ih false
      refine ⟨?_, fun _ h => hch (by simpa using h)⟩
      rw [infix_cons_iff]
      rintro (⟨h, -⟩ | h)
      · exact hch h
      · exact hsingle h

theorem collapse_ne_nil (h : chars ≠ []) : collapse chars false ≠ [] := by
  cases chars with
  | nil => exact absurd rfl h
  | cons ch chars =>
    unfold collapse
    by_cases hch : ch = '/'
    · simp [hch]
    · simp [hch]

theorem normal_normalize_path (path : String) : Normal (normalize_path path).toList := by
  unfold normalize_path
  by_cases hempty : path = ""
  · rw [if_pos hempty]
    exact ⟨by decide, by decide, by decide⟩
  · have hne : path.toList ≠ [] := fun h => hempty (toList_eq_nil_iff.mp h)
    rw [if_neg hempty]
    by_cases hs : ¬ ['/', '/'] <:+: path.toList
    · rw [if_pos hs, toList_ofList]
      exact normal_trim_slash hne hs
    · rw [if_neg hs, toList_ofList]
      exact normal_trim_slash (collapse_ne_nil hne) (collapse_single _ false).1

/-! ## The two walks -/

/-- `b` lies strictly below `a`: it begins with `a/`, or, below the root, with `/`. -/
def Above (a b : String) : Prop := a ≠ b ∧ (subtree a).toList <+: b.toList

variable {path : String}

theorem ends_with_slash_iff (h : Normal path.toList) : ends_with path '/' = true ↔ path = "/" := by
  unfold ends_with
  constructor
  · intro hend
    have hlast : path.toList.getLast? = some '/' := by simpa using hend
    have hlen : ¬ 1 < path.toList.length := fun hlen => h.ending hlen hlast
    obtain ⟨init, hinit⟩ := List.getLast?_eq_some_iff.mp hlast
    rw [hinit, List.length_append, List.length_singleton] at hlen
    have hnil : init = [] := List.eq_nil_of_length_eq_zero (by omega)
    rw [← toList_inj, hinit, hnil]
    rfl
  · rintro rfl
    decide

theorem toList_subtree (h : Normal path.toList) :
    (subtree path).toList = if path = "/" then ['/'] else path.toList ++ ['/'] := by
  unfold subtree
  by_cases hroot : path = "/"
  · rw [if_pos ((ends_with_slash_iff h).mpr hroot), if_pos hroot, hroot]
    rfl
  · rw [if_neg (fun hend => hroot ((ends_with_slash_iff h).mp hend)), if_neg hroot, toList_append]
    rfl

/-- Nothing after the last `/` can be taken for the `/` behind `a`. -/
theorem slash_prefix_iff {before : String} {after : List Char} (hafter : '/' ∉ after) :
    a.toList ++ ['/'] <+: before.toList ++ '/' :: after ↔
      a = before ∨ a.toList ++ ['/'] <+: before.toList := by
  constructor
  · intro h
    have hbefore : before.toList ++ ['/'] <+: before.toList ++ '/' :: after := ⟨after, by simp⟩
    rcases Nat.lt_or_ge a.toList.length before.toList.length with hlt | hge
    · refine .inr (List.prefix_of_prefix_length_le h (List.prefix_append _ _) ?_)
      simp only [List.length_append, List.length_singleton]
      omega
    · obtain ⟨u, hu⟩ := List.prefix_of_prefix_length_le hbefore h (by simpa using hge)
      obtain ⟨v, hv⟩ := h
      have hrest : after = u ++ v := by
        rw [← hu] at hv
        simpa using hv.symm
      rcases List.eq_nil_or_concat u with rfl | ⟨w, c, rfl⟩
      · refine .inl (toList_inj.mp ?_)
        simpa using hu.symm
      · have hc : c = '/' := by
          have hlast := congrArg List.getLast? hu
          simpa [← List.append_assoc] using hlast
        exact absurd (by rw [hrest, hc]; simp) hafter
  · rintro (rfl | h)
    · exact ⟨after, by simp⟩
    · exact h.trans (List.prefix_append _ _)

/-- Cutting at the last `/` again and again reaches every `a` with `a/` at the beginning. -/
theorem mem_ancestors_loop {fuel : ℕ} {head : String} (hfuel : head.toList.length ≤ fuel) :
    a ∈ ancestors_loop fuel head ↔
      (a = "/" ∧ head.toList.head? = some '/') ∨ (a ≠ "" ∧ a.toList ++ ['/'] <+: head.toList) := by
  induction fuel generalizing head with
  | zero =>
    have hnil : head.toList = [] := List.eq_nil_of_length_eq_zero (Nat.le_zero.mp hfuel)
    simp [ancestors_loop, hnil]
  | succ fuel ih =>
    unfold ancestors_loop
    cases hsplit : rsplit_once head '/' with
    | none =>
      have hno := rsplit_once_eq_none.mp hsplit
      constructor
      · intro h
        cases h
      · rintro (⟨-, h⟩ | ⟨-, t, ht⟩)
        · exact absurd (List.mem_of_head? h) hno
        · exact absurd (by rw [← ht]; simp) hno
    | some p =>
      obtain ⟨before, after⟩ := p
      obtain ⟨hhead, hafter⟩ := rsplit_once_eq_some.mp hsplit
      dsimp only
      by_cases hbefore : before = ""
      · rw [if_pos hbefore, List.mem_singleton]
        subst hbefore
        have hlist : head.toList = '/' :: after.toList := by rw [hhead]; rfl
        constructor
        · rintro rfl
          exact .inl ⟨rfl, by rw [hlist]; rfl⟩
        · rintro (⟨h, -⟩ | ⟨hne, t, ht⟩)
          · exact h
          · -- the `/` behind `a` would be in the part after the last `/`
            obtain ⟨c, cs, hc⟩ := List.exists_cons_of_ne_nil
              (fun h => hne (toList_eq_nil_iff.mp h))
            rw [hlist, hc] at ht
            simp only [List.cons_append, List.cons.injEq] at ht
            exact absurd (by rw [← ht.2]; simp) hafter
      · rw [if_neg hbefore, List.mem_cons]
        have hlen : before.toList.length ≤ fuel := by
          rw [hhead] at hfuel
          simp only [List.length_append, List.length_cons] at hfuel
          omega
        rw [ih hlen, hhead]
        have hroot : (before.toList ++ '/' :: after.toList).head? = before.toList.head? := by
          cases hl : before.toList with
          | nil => exact absurd (toList_eq_nil_iff.mp hl) hbefore
          | cons c cs => rfl
        rw [hroot]
        have hcut : a.toList ++ ['/'] <+: before.toList ++ '/' :: after.toList ↔
            a = before ∨ a.toList ++ ['/'] <+: before.toList := slash_prefix_iff hafter
        rw [hcut]
        constructor
        · rintro (rfl | h | ⟨hne, h⟩)
          · exact .inr ⟨hbefore, .inl rfl⟩
          · exact .inl h
          · exact .inr ⟨hne, .inr h⟩
        · rintro (h | ⟨hne, rfl | h⟩)
          · exact .inr (.inl h)
          · exact .inl rfl
          · exact .inr (.inr ⟨hne, h⟩)

theorem mem_ancestors {b : String} (ha : Normal a.toList) (hb : Normal b.toList) :
    a ∈ ancestors b ↔ Above a b := by
  have hne : a ≠ "" := fun h => ha.nonempty (toList_eq_nil_iff.mpr h)
  have hbne : b ≠ "" := fun h => hb.nonempty (toList_eq_nil_iff.mpr h)
  unfold ancestors Above
  rw [toList_subtree ha]
  by_cases hroot : b = "/"
  · rw [if_pos (.inl hroot), hroot]
    constructor
    · intro h
      cases h
    · rintro ⟨hab, hprefix⟩
      -- only the root begins with `/` and has one character
      rw [if_neg hab] at hprefix
      have hlen := hprefix.length_le
      have hpos := List.length_pos_of_ne_nil ha.nonempty
      rw [List.length_append, List.length_singleton] at hlen
      have hone : "/".toList.length = 1 := rfl
      omega
  · rw [if_neg (not_or.mpr ⟨hroot, hbne⟩), mem_ancestors_loop (Nat.le_refl _)]
    by_cases hslash : a = "/"
    · subst hslash
      constructor
      · rintro (⟨-, hhead⟩ | ⟨-, hprefix⟩)
        · refine ⟨Ne.symm hroot, ?_⟩
          obtain ⟨cs, hcs⟩ := List.head?_eq_some_iff.mp hhead
          exact ⟨cs, by rw [hcs]; rfl⟩
        · exact absurd hprefix.isInfix hb.single
      · rintro ⟨-, cs, hcs⟩
        exact .inl ⟨rfl, by rw [← hcs]; rfl⟩
    · rw [if_neg hslash]
      constructor
      · rintro (⟨h, -⟩ | ⟨-, hprefix⟩)
        · exact absurd h hslash
        · refine ⟨?_, hprefix⟩
          rintro rfl
          have hlen := hprefix.length_le
          rw [List.length_append, List.length_singleton] at hlen
          omega
      · rintro ⟨-, hprefix⟩
        exact .inr ⟨hne, hprefix⟩

/-- `0` is the character after `/`, so between `l/` and `l0` there is what begins with `l/`. -/
theorem between_iff_prefix (l k : List Char) :
    (¬ k < l ++ ['/'] ∧ k < l ++ ['0']) ↔ l ++ ['/'] <+: k := by
  have hchar (d : Char) : '/' ≤ d ∧ d < '0' ↔ d = '/' := by
    constructor
    · rintro ⟨hle, hlt⟩
      have h1 : 47 ≤ d.val.toNat := hle
      have h2 : d.val.toNat < 48 := hlt
      exact Char.toNat_inj.mp (show d.val.toNat = 47 by omega)
    · rintro rfl
      decide
  rw [between_iff]
  simp only [hchar]
  constructor
  · rintro ⟨d, t, rfl, rfl⟩
    exact ⟨t, by simp⟩
  · rintro ⟨t, rfl⟩
    exact ⟨'/', t, by simp, rfl⟩

theorem subtree_ends_with_slash (h : Normal path.toList) :
    ∃ l, (subtree path).toList = l ++ ['/'] := by
  rw [toList_subtree h]
  split_ifs
  · exact ⟨[], rfl⟩
  · exact ⟨path.toList, rfl⟩

/-- The range of the table is the subtree. At the root it also has the root itself. -/
theorem in_range_iff {key : String} (h : Normal path.toList) :
    (subtree path ≤ key ∧ key < subtree_end path) ↔ (subtree path).toList <+: key.toList := by
  obtain ⟨l, hl⟩ := subtree_ends_with_slash h
  have hend : (subtree_end path).toList = l ++ ['0'] := by
    unfold subtree_end
    rw [toList_ofList, hl, List.dropLast_concat]
  have hle : subtree path ≤ key ↔ ¬ key.toList < l ++ ['/'] := by
    rw [← hl]
    exact Iff.rfl
  have hlt : key < subtree_end path ↔ key.toList < l ++ ['0'] := by
    rw [← hend]
    exact Iff.rfl
  rw [hle, hlt, hl]
  exact between_iff_prefix l key.toList

def Related (a b : String) : Prop := a = b ∨ Above a b ∨ Above b a

theorem blocked_iff {locks : Table String IOEntry} {mode : LockMode} (hpath : Normal path.toList)
    (hkeys : ∀ key entry, locks.get key = some entry → Normal key.toList) :
    (ancestor_io_conflict locks path mode = true ∨ descendant_io_conflict locks path mode = true ∨
      ((locks.get path).getD .default).blocks mode = true) ↔
    ∃ key entry, locks.get key = some entry ∧ Related key path ∧ entry.blocks mode = true := by
  have hup : ancestor_io_conflict locks path mode = true ↔
      ∃ key entry, locks.get key = some entry ∧ Above key path ∧ entry.blocks mode = true := by
    unfold ancestor_io_conflict
    rw [List.any_eq_true]
    constructor
    · rintro ⟨key, hmem, hblocks⟩
      cases hget : locks.get key with
      | none => rw [hget] at hblocks; cases hblocks
      | some entry =>
        rw [hget] at hblocks
        exact ⟨key, entry, hget, (mem_ancestors (hkeys key entry hget) hpath).mp hmem, hblocks⟩
    · rintro ⟨key, entry, hget, habove, hblocks⟩
      refine ⟨key, (mem_ancestors (hkeys key entry hget) hpath).mpr habove, ?_⟩
      rw [hget]
      exact hblocks
  have hdown : descendant_io_conflict locks path mode = true ↔
      ∃ key entry, locks.get key = some entry ∧ (subtree path).toList <+: key.toList ∧
        entry.blocks mode = true := by
    unfold descendant_io_conflict
    rw [List.any_eq_true]
    constructor
    · rintro ⟨⟨key, entry⟩, hmem, hblocks⟩
      obtain ⟨hrange, hget⟩ := Table.mem_scan.mp hmem
      simp only [Bool.and_eq_true, decide_eq_true_eq] at hrange
      exact ⟨key, entry, hget, (in_range_iff hpath).mp hrange, hblocks⟩
    · rintro ⟨key, entry, hget, hprefix, hblocks⟩
      refine ⟨(key, entry), Table.mem_scan.mpr ⟨?_, hget⟩, hblocks⟩
      simp only [Bool.and_eq_true, decide_eq_true_eq]
      exact (in_range_iff hpath).mpr hprefix
  have hown : ((locks.get path).getD .default).blocks mode = true ↔
      ∃ entry, locks.get path = some entry ∧ entry.blocks mode = true := by
    cases hget : locks.get path with
    | none =>
      cases mode <;> decide
    | some entry => simp
  rw [hup, hdown, hown]
  constructor
  · rintro (⟨key, entry, hget, habove, hb⟩ | ⟨key, entry, hget, hprefix, hb⟩ | ⟨entry, hget, hb⟩)
    · exact ⟨key, entry, hget, .inr (.inl habove), hb⟩
    · by_cases heq : key = path
      · exact ⟨key, entry, hget, .inl heq, hb⟩
      · exact ⟨key, entry, hget, .inr (.inr ⟨Ne.symm heq, hprefix⟩), hb⟩
    · exact ⟨path, entry, hget, .inl rfl, hb⟩
  · rintro ⟨key, entry, hget, rfl | habove | ⟨-, hprefix⟩, hb⟩
    · exact .inr (.inr ⟨entry, hget, hb⟩)
    · exact .inl ⟨key, entry, hget, habove, hb⟩
    · exact .inr (.inl ⟨key, entry, hget, hprefix, hb⟩)

end NexusVfs.IoLocks
