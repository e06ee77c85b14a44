/-
Routing a path, and observing what a backend holds: `VFSRouter::route` of
`kernel/src/core/vfs_router.rs` and `observe_backend_entry` of
`kernel/src/kernel/mod.rs`.

`route` takes the mount nearest to the path: in the caller's zone, in the root zone if
that has none, and once more in the zone a federation mount leads to.
`observe_backend_entry` looks for a row where the root zone routes and writes one where
its own zone routes.
-/
import NexusVfs.ConditionalContent
import NexusVfs.MountPaths

namespace NexusVfs.Routing

open Option IoLocks ZoneMetaCache

/-! ## The mount table -/

def ROOT_ZONE_ID : String := "root"

/-- A metadata store: which rows it holds, and the mount through which it translates paths to
keys. A store of full paths has none. -/
structure MetaStore where
  rows : ℕ
  mount : Option ZoneMount

def MetaStore.place (ms : MetaStore) (path : String) : ℕ × String :=
  (ms.rows, ms.mount.elim path fun mount => compose_zone_key mount path)

structure MountEntry where
  metastore : Option MetaStore
  target_zone_id : Option String
  /-- Empty if the mount exposes all of its zone. -/
  target_subtree : String

structure RouteResult where
  mount_point : String
  backend_path : String
  zone_id : String
  metastore : Option MetaStore
  target_zone_id : Option String

def route_in_zone (entries : Table String MountEntry) (path zone_id : String) : Option RouteResult :=
  let canonical := canonicalize_mount_path path zone_id
  -- The loop cuts the key at its last slash until it is known; `/` comes last.
  (canonical :: ancestors canonical).findSome? fun current =>
    (entries.get current).map fun entry =>
      { mount_point := current
        backend_path := zone_relative_path canonical ⟨current, entry.target_subtree⟩
        zone_id := entry.target_zone_id.getD zone_id
        metastore := entry.metastore
        target_zone_id := entry.target_zone_id }

def route (entries : Table String MountEntry) (path zone_id : String) : Option RouteResult :=
  let initial := (route_in_zone entries path zone_id).or
    (if zone_id ≠ ROOT_ZONE_ID then route_in_zone entries path ROOT_ZONE_ID else none)
  initial.map fun initial =>
    if initial.zone_id ≠ zone_id then
      match route_in_zone entries path initial.zone_id with
      | some deeper => if deeper.mount_point ≠ initial.mount_point then deeper else initial
      | none => initial
    else initial

/-! ## Rows -/

structure FileMetadata extends ConditionalContent.FileMetadata where
  zone_id : Option String
  created_at_ms : Option ℤ
  modified_at_ms : Option ℤ
  last_writer_address : Option String

structure Kernel where
  vfs_router : Table String MountEntry
  /-- For mounts without a store of their own. -/
  metastore : Option MetaStore
  self_address : Option String
  stores : ℕ → Table String FileMetadata

namespace Kernel

def get (k : Kernel) (place : ℕ × String) : Option FileMetadata := (k.stores place.1).get place.2

def put (k : Kernel) (place : ℕ × String) (metadata : FileMetadata) : Kernel :=
  { k with stores := Function.update k.stores place.1 ((k.stores place.1).insert place.2 metadata) }

def with_metastore (k : Kernel) (mount_point : String) : Option MetaStore :=
  ((k.vfs_router.get mount_point).bind (·.metastore)).or k.metastore

def with_metastore_route (k : Kernel) (route : RouteResult) : Option MetaStore :=
  route.metastore.or k.metastore

def resolve_mount_point (k : Kernel) (path zone_id : String) : String :=
  (route k.vfs_router path zone_id).elim "" (·.mount_point)

def metastore_get (k : Kernel) (path : String) : Except String (Option FileMetadata) :=
  match k.with_metastore (k.resolve_mount_point path ROOT_ZONE_ID) with
  | some ms => .ok (k.get (ms.place path))
  | none => .error "no metastore wired"

def metastore_put (k : Kernel) (path : String) (metadata : FileMetadata) : Except String Kernel :=
  let zone := metadata.zone_id.getD ROOT_ZONE_ID
  match k.with_metastore (k.resolve_mount_point path zone) with
  | some ms => .ok (k.put (ms.place path) { metadata with path := (ms.place path).2 })
  | none => .error "no metastore wired"

/-- `build_metadata`, with the arguments `observe_backend_entry` gives it. -/
def build_metadata (k : Kernel) (now_ms : ℤ) (path : String) (entry_type : UInt8) (zone_id : String)
    (size : UInt64) (content_id : Option String) : FileMetadata :=
  { path, size, content_id, gen := 0, version := 1, entry_type, zone_id := some zone_id
    created_at_ms := some now_ms, modified_at_ms := some now_ms, last_writer_address := k.self_address }

def observe_backend_entry (k : Kernel) (now_ms : ℤ) (path : String) (entry_type : UInt8)
    (zone_id : String) (size : UInt64) (content_id : Option String) : Bool × Kernel :=
  match k.metastore_get path with
  | .ok (some _) => (false, k)
  | _ =>
    match k.metastore_put path (k.build_metadata now_ms path entry_type zone_id size content_id) with
    | .error _ => (false, k)
    | .ok k' => (true, k')

/-- The row a caller of a zone finds, as `sys_stat` looks it up. -/
def visible (k : Kernel) (path zone_id : String) : Option FileMetadata :=
  match route k.vfs_router path zone_id with
  | some r => (k.with_metastore_route r).bind fun ms => k.get (ms.place path)
  | none => (k.metastore_get path).toOption.join

/-- Where the row of a path belongs for a caller of a zone. -/
def place (k : Kernel) (path zone_id : String) : Option (ℕ × String) :=
  (k.with_metastore (k.resolve_mount_point path zone_id)).map (·.place path)

/-! ## The place of a row -/

variable {entries : Table String MountEntry} {k : Kernel} {path zone_id : String} {r : RouteResult}

theorem get_put (k : Kernel) (p q : ℕ × String) (m : FileMetadata) :
    (k.put p m).get q = if q = p then some m else k.get q := by
  obtain ⟨i, key⟩ := p
  obtain ⟨j, key'⟩ := q
  simp only [get, put, Function.update_apply, Prod.mk.injEq]
  by_cases hi : j = i
  · simp [hi, Table.get_insert]
  · simp [hi]

theorem route_in_zone_entry (h : route_in_zone entries path zone_id = some r) :
    (entries.get r.mount_point).map (·.metastore) = some r.metastore := by
  obtain ⟨current, -, hget⟩ := List.exists_of_findSome?_eq_some h
  obtain ⟨entry, hentry, rfl⟩ := map_eq_some_iff.mp hget
  rw [hentry]
  rfl

theorem route_entry (h : route entries path zone_id = some r) :
    (entries.get r.mount_point).map (·.metastore) = some r.metastore := by
  obtain ⟨initial, hinitial, rfl⟩ := map_eq_some_iff.mp h
  have hfirst : (entries.get initial.mount_point).map (·.metastore) = some initial.metastore := by
    rcases or_eq_some_iff.mp hinitial with h | ⟨-, h⟩
    · exact route_in_zone_entry h
    · split_ifs at h
      exact route_in_zone_entry h
  split_ifs
  · cases hdeeper : route_in_zone entries path initial.zone_id with
    | none => exact hfirst
    | some deeper =>
      dsimp only
      split_ifs
      · exact route_in_zone_entry hdeeper
      · exact hfirst
  · exact hfirst

theorem route_root_of_none (h : route entries path zone_id = none) :
    route entries path ROOT_ZONE_ID = none := by
  by_cases hroot : zone_id = ROOT_ZONE_ID
  · rwa [← hroot]
  · have hnone := or_eq_none_iff.mp (map_eq_none_iff.mp h)
    rw [if_pos hroot] at hnone
    simp [route, hnone.2]

theorem metastore_get_eq (k : Kernel) (path : String) :
    (k.metastore_get path).toOption.join = (k.place path ROOT_ZONE_ID).bind k.get := by
  unfold metastore_get place
  cases k.with_metastore (k.resolve_mount_point path ROOT_ZONE_ID) <;> rfl

theorem visible_eq (k : Kernel) (path zone_id : String) :
    k.visible path zone_id = (k.place path zone_id).bind k.get := by
  unfold visible
  cases hroute : route k.vfs_router path zone_id with
  | none =>
    rw [metastore_get_eq, place, place, resolve_mount_point, resolve_mount_point, hroute,
      route_root_of_none hroute]
  | some r =>
    obtain ⟨entry, hentry, hstore⟩ := map_eq_some_iff.mp (route_entry hroute)
    rw [place, resolve_mount_point, hroute, elim_some, with_metastore, hentry, bind_some, hstore,
      ← with_metastore_route]
    dsimp only
    cases k.with_metastore_route r <;> rfl

/-! ## Observation -/

theorem observe_eq (k : Kernel) (now_ms : ℤ) (path : String) (entry_type : UInt8) (zone_id : String)
    (size : UInt64) (content_id : Option String) :
    k.observe_backend_entry now_ms path entry_type zone_id size content_id =
      match k.visible path ROOT_ZONE_ID, k.place path zone_id with
      | none, some p => (true, k.put p (k.build_metadata now_ms p.2 entry_type zone_id size content_id))
      | _, _ => (false, k) := by
  rw [visible_eq, ← metastore_get_eq, observe_backend_entry, metastore_put, place]
  dsimp only [build_metadata, getD_some]
  rcases k.metastore_get path with e | _ | row
  · cases k.with_metastore (k.resolve_mount_point path zone_id) <;> rfl
  · cases k.with_metastore (k.resolve_mount_point path zone_id) <;> rfl
  · rfl

/-- An observation leaves a visible row as it is, and makes one where there is none, once: this
holds iff the zone and the root zone lead to one place, or each of them finds a row. -/
theorem observation_is_idempotent_iff (k : Kernel) (path zone_id : String) (entry_type : UInt8)
    (size : UInt64) (content_id : Option String) (now_ms later_ms : ℤ) :
    (∀ created k', k.observe_backend_entry now_ms path entry_type zone_id size content_id = (created, k') →
      (∀ row, k.visible path zone_id = some row →
        created = false ∧ k'.visible path zone_id = some row) ∧
      (k.visible path zone_id = none → (k'.visible path zone_id).isSome = true ∧
        k'.observe_backend_entry later_ms path entry_type zone_id size content_id = (false, k'))) ↔
    k.place path zone_id = k.place path ROOT_ZONE_ID ∧ k.place path zone_id ≠ none ∨
      (k.visible path zone_id).isSome = true ∧ (k.visible path ROOT_ZONE_ID).isSome = true := by
  have hsame (h : k.place path zone_id = k.place path ROOT_ZONE_ID) :
      k.visible path zone_id = k.visible path ROOT_ZONE_ID := by rw [visible_eq, visible_eq, h]
  rw [observe_eq]
  cases hseen : k.visible path ROOT_ZONE_ID with
  | some found =>
    -- The check finds a row, and nothing is done.
    cases hrow : k.visible path zone_id with
    | some row => simp [hrow]
    | none => simp [hrow, mt hsame (by simp [hrow, hseen])]
  | none =>
    cases hplace : k.place path zone_id with
    | none => simp [visible_eq, hplace]
    | some p =>
      rw [hplace] at hsame
      cases hrow : k.visible path zone_id with
      | some row =>
        -- The row is overwritten.
        simp [mt hsame (by simp [hrow, hseen])]
      | none =>
        dsimp only
        generalize k.build_metadata now_ms p.2 entry_type zone_id size content_id = m
        have hagain := observe_eq (k.put p m) later_ms path entry_type zone_id size content_id
        have hplaces (zone : String) : (k.put p m).place path zone = k.place path zone := rfl
        have hseen' : (k.put p m).visible path ROOT_ZONE_ID =
            if some p = k.place path ROOT_ZONE_ID then some m else none := by
          rw [visible_eq] at hseen ⊢
          rw [hplaces]
          cases hq : k.place path ROOT_ZONE_ID with
          | none => rfl
          | some q =>
            rw [hq] at hseen
            rw [bind_some, get_put, show k.get q = none from hseen]
            simp [eq_comm]
        rw [hseen', hplaces, hplace] at hagain
        have hnew : (k.put p m).visible path zone_id = some m := by
          rw [visible_eq, hplaces, hplace, bind_some, get_put, if_pos rfl]
        by_cases heq : some p = k.place path ROOT_ZONE_ID
        · rw [if_pos heq] at hagain
          simp [hagain, hnew, ← heq]
        · rw [if_neg heq] at hagain
          simp [hagain, heq]

/-! ## A zone with a mount of its own -/

/-- The root mount's store, and one mounted at `/` for zone `z`. -/
def two_zones (row : FileMetadata) : Kernel where
  vfs_router := (Table.insert ∅ "/root" ⟨some ⟨0, none⟩, none, ""⟩).insert "/z" ⟨some ⟨1, none⟩, none, ""⟩
  metastore := none
  self_address := none
  stores i := if i = 1 then Table.insert ∅ "/f" row else ∅

/-- The row of `/f` that the callers of zone `z` see is replaced by a listing of the backend. -/
theorem observation_overwrites :
    let row : FileMetadata := ⟨⟨"/f", 5, some "id", 7, 3, 0⟩, some "z", none, none, none⟩
    ((two_zones row).visible "/f" "z").map (·.gen) = some 7 ∧
    ((two_zones row).observe_backend_entry 0 "/f" 0 "z" 0 (some "f")).1 = true ∧
    (((two_zones row).observe_backend_entry 0 "/f" 0 "z" 0 (some "f")).2.visible "/f" "z").map (·.gen) =
      some 0 := by
  decide +kernel

end Kernel

end NexusVfs.Routing
