/-
Zones, mounts and link counts: the mount half of `zone_manager.rs`.

Every zone is a replicated state machine of its own. A mount is a DT_MOUNT row in the
parent zone, the number of mounts of a zone a counter row in that zone, and no
transaction spans two zones. Mounting and unmounting move the counter by one, a pass
over the declared topology raises it to the number of declarations, and sharing a
subtree adds one for every DT_MOUNT row it copies. A node's local reads see what it has
committed. A write of a pass may be deferred, which the pass is told for each
declaration.
-/
import Mathlib.Data.List.Sort
import NexusVfs.Actions
import NexusVfs.StateMachine

namespace NexusVfs.ZoneManager

open Words Text Runs Actions Actions.Action

/-! ## Rows -/

def I_LINKS_COUNT_KEY : String := "__i_links_count__"

def VFS_ROOT : String := "/"

def RESERVED_ZONE_IDS : List String := ["root", "__control__"]

def DT_MOUNT : Int32 := 2

/-- The `FileMetadata` message; `unread` are the fields that are only copied. -/
structure FileMetadata where
  path : String
  entry_type : Int32
  zone_id : String
  target_zone_id : String
  target_subtree : String
  unread : Bytes
  deriving DecidableEq, Repr

/-- Its encoding, a prost message. -/
structure Protos where
  encode : FileMetadata → Bytes
  decode : Bytes → Except String FileMetadata

/-- A message that was encoded is decoded again, and its bytes contain its path. -/
structure Protos.Documented (p : Protos) : Prop where
  round_trip : ∀ m, p.decode (p.encode m) = .ok m
  holds_path : ∀ m, (as_bytes m.path).length ≤ (p.encode m).length

/-! ## The node -/

structure Zone where
  store : Store
  last_applied : UInt64

def Zone.fresh : Zone := ⟨Store.empty, 0⟩

def Zone.commit (z : Zone) (c : Command) : Except RaftError (CommandResult × Zone) := do
  let (result, store) ← execute_metadata_in_txn .unreadable z.store c
  return (result, ⟨put_marker store (z.last_applied + 1), z.last_applied + 1⟩)

/-- What a mount exposes, and of which zone. -/
structure MountDecl where
  zone : String
  subtree : String
  deriving DecidableEq, Repr

structure Node where
  zones : Table String Zone
  pending_mounts : Table String MountDecl
  /-- the recorded deletion of a zone outranks the replica on disk -/
  deleted_newer_than_disk : String → Bool

inductive ZoneError where
  | InvalidState (message : String)
  | Raft (message : String)
  /-- the state machine could not apply the command -/
  | Apply (error : RaftError)
  deriving DecidableEq, Repr

abbrev Call (α : Type) := Action Node ZoneError α

def require_node (zone_id message : String) : Call Zone := fun s =>
  match s.zones.get zone_id with
  | some z => (.ok z, s)
  | none => (.error (.InvalidState message), s)

def parent_not_found (zone_id : String) : String := s!"Parent zone '{zone_id}' not found"

def target_not_found (zone_id : String) : String := s!"Target zone '{zone_id}' not found"

def propose (zone_id : String) (c : Command) : Call CommandResult := fun s =>
  match s.zones.get zone_id with
  | none => (.error (.InvalidState s!"Zone '{zone_id}' not found"), s)
  | some z =>
    match z.commit c with
    | .error error => (.error (.Apply error), s)
    | .ok (result, z) => (.ok result, { s with zones := s.zones.insert zone_id z })

def propose_set_metadata (zone_id key : String) (value : Bytes) : Call Unit := do
  match ← propose zone_id (.SetMetadata key value) with
  | .Success | .Value _ => return ()
  | .Error message => fail (.Raft message)
  | _ => fail (.InvalidState "unexpected propose result")

def propose_adjust_counter (zone_id key : String) (delta : Int64) : Call Int64 := do
  match ← propose zone_id (.AdjustCounter key delta) with
  | .Value bytes =>
    match i64_from_be_bytes bytes with
    | some count => return count
    | none => fail (.InvalidState "invalid counter value encoding")
  -- A forwarded proposal answers without the value.
  | .Success => return Int64.minValue
  | .Error message => fail (.Raft message)
  | _ => fail (.InvalidState "unexpected counter result")

/-- The counter's row, zero if it is absent or no counter. -/
def Zone.links (z : Zone) : Int64 :=
  ((z.store.metadata.get I_LINKS_COUNT_KEY).bind i64_from_be_bytes).getD 0

def get_links_count (s : Node) (zone_id : String) : Option Int64 := (s.zones.get zone_id).map Zone.links

section Protos

variable (protos : Protos)

/-! ## Entries -/

def encode_file_metadata (path : String) (entry_type : Int32) (zone_id target_zone_id : String) :
    Bytes :=
  protos.encode ⟨path, entry_type, zone_id, target_zone_id, "", []⟩

def encode_mount_metadata (path parent_zone_id target_zone_id target_subtree : String) : Bytes :=
  protos.encode ⟨path, DT_MOUNT, parent_zone_id, target_zone_id, target_subtree, []⟩

def existing_entry (z : Zone) (path : String) : Call (Option FileMetadata) :=
  match z.store.metadata.get path with
  | none => return none
  | some bytes =>
    match protos.decode bytes with
    | .ok entry => return some entry
    | .error error => fail (.Raft s!"decode existing: {error}")

/-! ## Mounting and unmounting -/

def mount_subtree (parent_zone_id mount_path target_zone_id target_subtree : String)
    (increment_links : Bool) : Call Unit := do
  let parent ← require_node parent_zone_id (parent_not_found parent_zone_id)
  let _ ← require_node target_zone_id (target_not_found target_zone_id)
  if (← ask fun s => s.deleted_newer_than_disk target_zone_id) then
    fail (.InvalidState s!"Target zone '{target_zone_id}' was deprovisioned; mount refused")
  else
    match ← existing_entry protos parent mount_path with
    | some entry =>
      if entry.entry_type = DT_MOUNT then
        if entry.target_zone_id = target_zone_id then
          if entry.target_subtree = target_subtree then return ()
          else fail (.InvalidState (s!"Mount point '{mount_path}' already mounts a different " ++
            s!"subtree of zone '{target_zone_id}' ('{entry.target_subtree}' != " ++
            s!"'{target_subtree}'); unmount first"))
        else fail (.InvalidState (s!"Mount point '{mount_path}' is already a DT_MOUNT in " ++
          s!"zone '{parent_zone_id}'. Unmount first."))
      else if entry.entry_type ≠ DT_DIR then
        fail (.InvalidState (s!"Mount point '{mount_path}' is not a directory " ++
          s!"(type={entry.entry_type}) in zone '{parent_zone_id}'. Mount points must be directories."))
      else write_mount
    | none =>
      propose_set_metadata parent_zone_id mount_path
        (encode_file_metadata protos mount_path DT_DIR parent_zone_id "")
      write_mount
where
  write_mount : Call Unit := do
    propose_set_metadata parent_zone_id mount_path
      (encode_mount_metadata protos mount_path parent_zone_id target_zone_id target_subtree)
    if increment_links then
      let _ ← propose_adjust_counter target_zone_id I_LINKS_COUNT_KEY 1
      return ()
    else return ()

def mount (parent_zone_id mount_path target_zone_id : String) (increment_links : Bool) : Call Unit :=
  mount_subtree protos parent_zone_id mount_path target_zone_id VFS_ROOT increment_links

/-- Restores the directory; answers the former target. -/
def unmount (parent_zone_id mount_path : String) : Call (Option String) := do
  let parent ← require_node parent_zone_id (parent_not_found parent_zone_id)
  match (← existing_entry protos parent mount_path).filter (·.entry_type == DT_MOUNT) with
  | none =>
    fail (.InvalidState s!"'{mount_path}' is not a mount point in zone '{parent_zone_id}'")
  | some entry =>
    propose_set_metadata parent_zone_id mount_path
      (encode_file_metadata protos mount_path DT_DIR parent_zone_id "")
    if entry.target_zone_id = "" then return none
    else
      if (← ask fun s => (s.zones.get entry.target_zone_id).isSome) then
        let _ ← propose_adjust_counter entry.target_zone_id I_LINKS_COUNT_KEY (-1)
        return some entry.target_zone_id
      else return some entry.target_zone_id

/-! ## The declared topology -/

/-- Which writes of one declaration are deferred. The first write of its entry is the placeholder
directory if the row is absent, and the mount itself if not; the last is the mount. -/
structure Deferred where
  first : Bool
  last : Bool
  subtree : Bool
  links : Bool

def Deferred.nothing : Deferred := ⟨false, false, false, false⟩

/-- One call of `apply_topology`, with what is deferred: the root's own entry, and the writes of each
declared path. -/
structure Pass where
  root_zone_id : String
  root : Bool
  deferred : String → Deferred

def deferral : ZoneError := .Raft "no reachable leader"

def write_mount_entry (deferred : Deferred)
    (parent_zone local_path target_zone target_subtree : String) : Call Unit := do
  let parent ← require_node parent_zone (parent_not_found parent_zone)
  match ← existing_entry protos parent local_path with
  | some entry =>
    if entry.entry_type = DT_MOUNT ∧ entry.target_zone_id = target_zone ∧
        entry.target_subtree = target_subtree then return ()
    else if deferred.first || deferred.last then fail deferral
    else write_mount
  | none =>
    if deferred.first then fail deferral
    else
      propose_set_metadata parent_zone local_path
        (encode_file_metadata protos local_path DT_DIR parent_zone "")
      if deferred.last then fail deferral else write_mount
where
  write_mount : Call Unit :=
    propose_set_metadata parent_zone local_path
      (encode_mount_metadata protos local_path parent_zone target_zone target_subtree)

/-- Answers whether the directory is there. -/
def ensure_dir_entry (deferred : Bool) (zone_id key : String) : Call Bool := fun s =>
  match s.zones.get zone_id with
  | none => (.ok false, s)
  | some z =>
    if (z.store.metadata.get key).isSome then (.ok true, s)
    else if deferred then (.ok false, s)
    else
      match propose_set_metadata zone_id key (encode_file_metadata protos key DT_DIR zone_id "") s with
      | (.ok (), s) => (.ok true, s)
      | (.error _, s) => (.ok false, s)

/-- The loop of `ensure_links_count`, which reads the counter again after it has raised it. -/
def raise_links (deferred : Bool) (target_zone : String) (expected : Int64) : ℕ → Call Unit
  | 0 => fail (.Apply .NoReturn)
  | rounds + 1 => do
    let target ← require_node target_zone (target_not_found target_zone)
    if expected ≤ target.links then return ()
    else if deferred then fail deferral
    else
      let _ ← propose_adjust_counter target_zone I_LINKS_COUNT_KEY (expected - target.links)
      raise_links deferred target_zone expected rounds

def ensure_links_count (deferred : Bool) (target_zone : String) (expected : Int64) : Call Unit :=
  raise_links deferred target_zone expected 2

/-- Parent zone and path in it, by the longest mount above that is in `active`. -/
def resolve_parent (root_zone_id : String) (active : Table String String) (global_path : String) :
    String × String :=
  match (active.scan fun _ => true).reverse.find? fun row => global_path.startsWith (row.1 ++ "/") with
  | some (mount_path, zone) => (zone, ( strip_prefix global_path mount_path).getD global_path)
  | none => (root_zone_id, global_path)

/-- The subtree that a mount exposes has to exist as a directory. -/
def expose_subtree (deferred : Bool) (decl : MountDecl) : Call Bool :=
  if decl.subtree = VFS_ROOT then return true
  else ensure_dir_entry protos deferred decl.zone decl.subtree

/-- One declaration; answers whether it needs no retry. -/
def apply_declaration (deferred : Deferred) (expected : String → Int64) (place : String × String)
    (decl : MountDecl) : Call Bool := do
  match ← attempt
      (write_mount_entry protos deferred place.1 place.2 decl.zone decl.subtree) with
  | .error _ => return false
  | .ok () =>
    if !(← expose_subtree protos deferred.subtree decl) then return false
    else
      match ← attempt (ensure_links_count deferred.links decl.zone (expected decl.zone)) with
      | .error _ => return false
      | .ok () => return true

/-- Every declaration counts as active for those behind it, applied or not. -/
def apply_declarations (pass : Pass) (expected : String → Int64) :
    List (String × MountDecl) → Table String String → Table String MountDecl →
      Call (Table String MountDecl)
  | [], _, remaining => return remaining
  | (global_path, decl) :: rest, active, remaining => do
    let place := resolve_parent pass.root_zone_id active global_path
    let done ← apply_declaration protos (pass.deferred global_path) expected place decl
    apply_declarations pass expected rest (active.insert global_path decl.zone)
      (if done then remaining else remaining.insert global_path decl)

/-- `path.matches('/').count()` -/
def depth (path : String) : ℕ := path.toList.count '/'

def sorted_mounts (s : Node) : List (String × MountDecl) :=
  (s.pending_mounts.scan fun _ => true).insertionSort fun a b => depth a.1 ≤ depth b.1

def declared (mounts : List (String × MountDecl)) (zone : String) : ℕ :=
  mounts.countP fun row => row.2.zone == zone

def apply_topology (pass : Pass) : Call Bool := do
  if !(← ensure_dir_entry protos pass.root pass.root_zone_id "/") then return false
  else
    let sorted ← ask sorted_mounts
    if sorted = [] then return true
    else
      let remaining ← apply_declarations protos pass (fun zone => Int64.ofNat (declared sorted zone))
        sorted ∅ ∅
      Action.modify fun s => { s with pending_mounts := remaining }
      return (remaining.scan fun _ => true) = []

/-- A zone that has to be founded: an error of `create_zone` ends the call. -/
def found_zones (force : Bool) (create_zone : String → Except ZoneError Unit) :
    List String → Call (List String)
  | [] => return []
  | zone_id :: rest => do
    if (← ask fun s => (s.zones.get zone_id).isSome) then found_zones force create_zone rest
    else if (← ask fun s => !force && s.deleted_newer_than_disk zone_id) then
      return zone_id :: (← found_zones force create_zone rest)
    else
      of_except (create_zone zone_id)
      Action.modify fun s => { s with zones := s.zones.insert zone_id .fresh }
      found_zones force create_zone rest

/-- `force` stands for the environment variable that overrides recorded deletions. -/
def bootstrap_static (force : Bool) (create_zone : String → Except ZoneError Unit)
    (zones : List String) (mounts : Table String MountDecl) : Call Unit := do
  let deprovisioned ← found_zones force create_zone zones
  Action.modify fun s => { s with
    pending_mounts := Table.retain mounts fun decl =>
      if decl.zone ∈ deprovisioned then none
      else if !force && s.deleted_newer_than_disk decl.zone then none
      else some decl }

/-! ## Sharing a subtree -/

def normalize_subtree_prefix (subtree : String) : Except ZoneError String :=
  let normalized := trim_end_matches subtree '/'
  if normalized = "" ∧ subtree ≠ "/" then
    .error (.InvalidState s!"subtree prefix is empty (got '{subtree}')")
  else .ok normalized

def path_matches_prefix (path normalized : String) : Bool :=
  normalized = "" || path = normalized || path.startsWith (normalized ++ "/")

def subtree_entries (z : Zone) (normalized : String) : List (String × Bytes) :=
  z.store.metadata.scan fun path =>
    path.startsWith (if normalized = "" then "/" else normalized) && !is_internal_key path &&
      path_matches_prefix path normalized

def rebased_path (normalized path : String) : String :=
  if path = normalized then "/"
  else
    let relative := ( strip_prefix path normalized).getD path
    if relative.startsWith "/" then relative else "/" ++ relative

/-- The row that is written for it; the subtree's own row becomes the root directory. -/
def rebased (new_zone_id normalized path : String) (proto : FileMetadata) : FileMetadata :=
  { proto with
    path := rebased_path normalized path
    zone_id := new_zone_id
    entry_type := if path = normalized then DT_DIR else proto.entry_type }

/-- The mount that a copied row carries over. -/
def nested_target (normalized path : String) (proto : FileMetadata) : Option String :=
  if path ≠ normalized ∧ proto.entry_type = DT_MOUNT ∧ proto.target_zone_id ≠ "" then
    some proto.target_zone_id
  else none

/-- What the copy has seen: rows copied, nested mounts in reverse, whether the root was among them. -/
structure Copied where
  copied : ℕ
  nested_mount_targets : List String
  root_written : Bool

def copy_entries (new_zone_id normalized : String) : List (String × Bytes) → Copied → Call Copied
  | [], seen => return seen
  | (path, value) :: rest, seen =>
    match protos.decode value with
    | .error _ => copy_entries new_zone_id normalized rest seen
    | .ok proto => do
      propose_set_metadata new_zone_id (rebased_path normalized path)
        (protos.encode (rebased new_zone_id normalized path proto))
      copy_entries new_zone_id normalized rest
        { copied := seen.copied + 1
          nested_mount_targets :=
            (nested_target normalized path proto).toList ++ seen.nested_mount_targets
          root_written := seen.root_written || path = normalized }

/-- One more link for every nested mount of a hosted zone. -/
def count_nested : List String → Call Unit
  | [] => return ()
  | target :: rest => do
    if (← ask fun s => (s.zones.get target).isSome) then
      let _ ← propose_adjust_counter target I_LINKS_COUNT_KEY 1
      count_nested rest
    else count_nested rest

def share_subtree_core (parent_zone_id subtree new_zone_id : String) : Call ℕ := do
  let _ ← require_node new_zone_id
    s!"Target zone '{new_zone_id}' not found (was create_zone called?)"
  let normalized ← of_except ( normalize_subtree_prefix subtree)
  let parent ← require_node parent_zone_id (parent_not_found parent_zone_id)
  let seen ← copy_entries protos new_zone_id normalized (subtree_entries parent normalized)
    ⟨0, [], false⟩
  if !seen.root_written then
    propose_set_metadata new_zone_id "/" (encode_file_metadata protos "/" DT_DIR new_zone_id "")
    count_nested seen.nested_mount_targets.reverse
    return seen.copied
  else
    count_nested seen.nested_mount_targets.reverse
    return seen.copied

end Protos

/-! ## Removing a zone -/

/-- `fan_out` is what the calls to the peers answer. -/
def remove_zone (fan_out : Except ZoneError Unit) (zone_id : String) (force : Bool) : Call Unit :=
  fun s =>
    if zone_id ∈ RESERVED_ZONE_IDS then
      (.error (.InvalidState s!"Zone '{zone_id}' is reserved and cannot be removed"), s)
    else
      match if force then none else (get_links_count s zone_id).filter fun count => decide (0 < count) with
      | some count =>
        (.error (.InvalidState (s!"Zone '{zone_id}' still has {count} reference(s) " ++
          "(i_links_count > 0); unmount all references first, or pass force=true.")), s)
      | none =>
        match fan_out with
        | .error error => (.error error, s)
        | .ok () =>
          if (s.zones.get zone_id).isSome then (.ok (), { s with zones := s.zones.remove zone_id })
          else (.error (.Raft s!"Failed to remove zone: Zone '{zone_id}' not found"), s)

end NexusVfs.ZoneManager
