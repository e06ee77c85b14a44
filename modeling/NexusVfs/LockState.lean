/-
Advisory locks: `contracts/src/lock_state.rs`.

A `LockState` is a map from paths to entries, changed only by the four `apply_*`
primitives. They read no clock: the time a command carries is the time it was proposed
at.
-/
import NexusVfs.Table
import NexusVfs.Text

namespace NexusVfs

open Text

structure HolderInfo where
  lock_id : String
  holder_info : String
  acquired_at : UInt64
  expires_at : UInt64
  deriving DecidableEq, Repr

structure LockEntry where
  max_holders : UInt32
  holders : List HolderInfo
  deriving DecidableEq, Repr

structure LockAcquireResult where
  acquired : Bool
  current_holders : UInt32
  max_holders : UInt32
  holders : List HolderInfo
  deriving DecidableEq, Repr

structure LockState where
  locks : Table String LockEntry

/-- `u64::saturating_add`. -/
def saturating_add (a b : UInt64) : UInt64 :=
  if a.toNat + b.toNat < 2 ^ 64 then a + b else UInt64.ofNat (2 ^ 64 - 1)

namespace LockState

def new : LockState := ⟨∅⟩

@[ext] theorem ext {s t : LockState} (h : ∀ p, s.locks.get p = t.locks.get p) : s = t := by
  cases s
  cases t
  congr
  exact Table.ext_get h

/-! ## Hierarchy helpers -/

/-- The `while let Some(pos) = path[..end].rfind('/')` loop, on the reversed `path[..end]`. -/
def ancestors_loop : List Char → List String
  | [] => []
  | c :: rest =>
    if c = '/' then
      -- `pos == 0`: the root is pushed and the loop breaks.
      if rest = [] then ["/"] else String.ofList rest.reverse :: ancestors_loop rest
    else ancestors_loop rest

def ancestors (path : String) : List String :=
  if path = "/" ∨ path = "" then [] else ancestors_loop path.toList.reverse

example : ancestors "/a/b/c" = ["/a/b", "/a", "/"] := by decide

def descendant_range (path : String) : String × String :=
  let lo := if ends_with path '/' then path else path ++ "/"
  (lo, String.ofList (lo.toList.dropLast ++ ['0']))

/-! ## State transitions -/

def ancestor_conflict (s : LockState) (path : String) : Bool :=
  (ancestors path).any fun anc =>
    match s.locks.get anc with
    | some entry => !entry.holders.isEmpty
    | none => false

def descendant_conflict (s : LockState) (path : String) : Bool :=
  let (lo, hi) := descendant_range path
  (s.locks.scan fun k => decide (lo ≤ k) && decide (k < hi)).any fun row => !row.2.holders.isEmpty

def accepts_new_holder (entry : LockEntry) : Bool :=
  UInt32.ofNat entry.holders.length < entry.max_holders

def to_result (entry : LockEntry) (acquired : Bool) : LockAcquireResult :=
  { acquired, current_holders := UInt32.ofNat entry.holders.length,
    max_holders := entry.max_holders, holders := entry.holders }

def empty_result (max_holders : UInt32) : LockAcquireResult :=
  { acquired := false, current_holders := 0, max_holders, holders := [] }

/-- `holders.retain(|h| h.expires_at > now_secs)` -/
def retain_live (entry : LockEntry) (now_secs : UInt64) : LockEntry :=
  { entry with holders := entry.holders.filter fun h => now_secs < h.expires_at }

/-- `holders.iter_mut().find(|h| h.lock_id == lock_id)`, then `h.expires_at = expires_at`;
`None` where no holder has the id. -/
def bump_expiry (lock_id : String) (expires_at : UInt64) : List HolderInfo → Option (List HolderInfo)
  | [] => none
  | h :: hs =>
    if h.lock_id = lock_id then some ({ h with expires_at } :: hs)
    else (bump_expiry lock_id expires_at hs).map (h :: ·)

def put (s : LockState) (path : String) (entry : LockEntry) : LockState :=
  ⟨s.locks.insert path entry⟩

def apply_acquire (s : LockState) (path lock_id : String) (max_holders ttl_secs : UInt32)
    (holder_info : String) (now_secs : UInt64) : LockAcquireResult × LockState :=
  if s.ancestor_conflict path || s.descendant_conflict path then (empty_result max_holders, s)
  else
    let expires_at := saturating_add now_secs ttl_secs.toUInt64
    let entry := retain_live ((s.locks.get path).getD ⟨0, []⟩) now_secs
    match bump_expiry lock_id expires_at entry.holders with
    | some holders =>
      let entry := { entry with holders }
      (to_result entry true, s.put path entry)
    | none =>
      if !entry.holders.isEmpty && entry.max_holders != max_holders then
        (to_result entry false, s.put path entry)
      else
        -- An empty entry takes the caller's capacity; otherwise the two agree already.
        let entry := { entry with max_holders }
        if accepts_new_holder entry then
          let entry := { entry with
            holders := entry.holders ++ [⟨lock_id, holder_info, now_secs, expires_at⟩] }
          (to_result entry true, s.put path entry)
        else (to_result entry false, s.put path entry)

def apply_release (s : LockState) (path lock_id : String) : Bool × LockState :=
  match s.locks.get path with
  | some entry =>
    let kept := entry.holders.filter fun h => h.lock_id ≠ lock_id
    let removed := decide (kept.length < entry.holders.length)
    if kept.isEmpty then (removed, ⟨s.locks.remove path⟩)
    else (removed, s.put path { entry with holders := kept })
  | none => (false, s)

def apply_force_release (s : LockState) (path : String) : Bool × LockState :=
  ((s.locks.get path).isSome, ⟨s.locks.remove path⟩)

def apply_extend (s : LockState) (path lock_id : String) (new_ttl_secs : UInt32)
    (now_secs : UInt64) : Bool × LockState :=
  let new_expires := saturating_add now_secs new_ttl_secs.toUInt64
  match s.locks.get path with
  | some entry =>
    let entry := retain_live entry now_secs
    match bump_expiry lock_id new_expires entry.holders with
    | some holders => (true, s.put path { entry with holders })
    | none =>
      if entry.holders.isEmpty then (false, ⟨s.locks.remove path⟩) else (false, s.put path entry)
  | none => (false, s)

/-- Drops the expired holders of every entry, and the entries that have none left. -/
def prune_expired (s : LockState) (now_secs : UInt64) : LockState :=
  ⟨s.locks.retain fun entry =>
    let entry := retain_live entry now_secs
    if entry.holders.isEmpty then none else some entry⟩

def gc_expired (s : LockState) (now_secs : UInt64) : LockState := s.prune_expired now_secs

/-- The entry a reader sees: one without holders reads as absent. -/
def get_lock (s : LockState) (path : String) : Option LockEntry :=
  match s.locks.get path with
  | some entry => if entry.holders.isEmpty then none else some entry
  | none => none

end LockState

end NexusVfs
