/-
Link counts over runs of a node.

Each operation that writes mounts keeps the counters exact under a condition of its own
(`StepOk`). The one that matters is that of a pass over the topology, which knows the
number of declarations it has still to apply and not the number of mounts there are.
-/
import NexusVfs.ConditionalContent
import NexusVfs.ShareLinks

namespace NexusVfs.ZoneManager

open Words Text Runs Actions LinkLedger Table
open ConditionalContent (delimited undelimited undelimited_delimited)

/-! ## Operations -/

/-- The operations that write mounts, with link counting where there is a choice. -/
inductive ZoneOp where
  | mount_subtree (parent_zone_id mount_path target_zone_id target_subtree : String)
  | unmount (parent_zone_id mount_path : String)
  | bootstrap_static (force : Bool) (create_zone : String → Except ZoneError Unit)
      (zones : List String) (mounts : Table String MountDecl)
  | apply_topology (pass : Pass)
  | share_subtree_core (parent_zone_id subtree new_zone_id : String)

/-- Mounting a whole zone is mounting its root. -/
def ZoneOp.mount (parent_zone_id mount_path target_zone_id : String) : ZoneOp :=
  .mount_subtree parent_zone_id mount_path target_zone_id VFS_ROOT

section Protos

variable (protos : Protos)

/-- Whatever the call answers, the node goes on from the state it left. -/
def zone_step (s : Node) : ZoneOp → Option (Unit × Node)
  | .mount_subtree parent_zone_id mount_path target_zone_id target_subtree =>
    some ((), (mount_subtree protos parent_zone_id mount_path target_zone_id target_subtree true s).2)
  | .unmount parent_zone_id mount_path => some ((), (unmount protos parent_zone_id mount_path s).2)
  | .bootstrap_static force create_zone zones mounts =>
    some ((), (bootstrap_static force create_zone zones mounts s).2)
  | .apply_topology pass => some ((), (apply_topology protos pass s).2)
  | .share_subtree_core parent_zone_id subtree new_zone_id =>
    some ((), (share_subtree_core protos parent_zone_id subtree new_zone_id s).2)

/-- The step does not part a counter from the mounts that it counts. -/
def StepOk (s : Node) : ZoneOp → Prop
  | .mount_subtree _ mount_path target_zone_id _ =>
    is_number_row mount_path = false ∧ target_zone_id ≠ "" ∧ s.links target_zone_id + 1 < 2 ^ 63
  | .unmount _ mount_path => is_number_row mount_path = false
  | .bootstrap_static _ _ _ _ => True
  | .apply_topology pass =>
    (s.row (pass.root_zone_id, "/")).isSome ∨ pass.root = false → PassOk protos s pass
  | .share_subtree_core parent_zone_id subtree new_zone_id =>
    ∀ normalized parent, normalize_subtree_prefix subtree = .ok normalized →
      s.zones.get parent_zone_id = some parent →
      ShareOk protos s new_zone_id
        (shared_rows protos new_zone_id normalized (subtree_entries parent normalized))

/-- Zones without mounts. -/
structure Node.Unmounted (s : Node) : Prop where
  unprotected : s.Unprotected
  mounts : ∀ place, s.mount_at protos place = none
  links : ∀ zone_id, s.links zone_id = 0

/-- What the link counts are for. -/
structure LinksRight (s : Node) : Prop where
  counted : ∀ zone_id, s.links zone_id = {place | s.mount_at protos place = some zone_id}.ncard
  /-- a zone that is removed without force is mounted nowhere -/
  spared : ∀ fan_out zone_id, (remove_zone fan_out zone_id false s).1 = .ok () →
    ∀ place, s.mount_at protos place ≠ some zone_id
  /-- a hosted zone that is mounted nowhere is removed, if it is not one of the reserved ones and
  its peers agree -/
  removed : ∀ zone_id, zone_id ∉ RESERVED_ZONE_IDS → (s.zones.get zone_id).isSome →
    (∀ place, s.mount_at protos place ≠ some zone_id) →
    remove_zone (.ok ()) zone_id false s = (.ok (), { s with zones := s.zones.remove zone_id })

variable {protos} {s t : Node}

theorem Node.Unmounted.exact (h : s.Unmounted protos) : s.Exact protos := by
  refine ⟨h.unprotected, fun zone_id => ?_⟩
  have hnone : (ledger protos s).links zone_id = 0 := by
    refine Ledger.links_eq_zero fun place hplace => ?_
    have hmount : s.mount_at protos place = some zone_id := hplace
    rw [h.mounts] at hmount
    cases hmount
  show (ledger protos s).links zone_id - s.links zone_id = 0
  rw [hnone, h.links]
  rfl

theorem zone_step_exact (hdoc : protos.Documented) {op : ZoneOp} {answer : Unit} {s' : Node}
    (hs : s.Exact protos) (hok : StepOk protos s op)
    (hstep : zone_step protos s op = some (answer, s')) : s'.Exact protos := by
  cases op with
  | mount_subtree parent_zone_id mount_path target_zone_id target_subtree =>
    obtain ⟨hpath, htarget, hroom⟩ := hok
    cases hstep
    exact mount_subtree_exact hdoc hs hpath htarget hroom
  | unmount parent_zone_id mount_path =>
    cases hstep
    exact unmount_exact hdoc hs hok
  | bootstrap_static force create_zone zones mounts =>
    cases hstep
    exact (bootstrap_static_exact force create_zone zones mounts s hs trivial).1
  | apply_topology pass =>
    cases hstep
    exact apply_topology_exact hdoc hs hok
  | share_subtree_core parent_zone_id subtree new_zone_id =>
    cases hstep
    exact share_subtree_core_exact hdoc hs hok

/-! ## Removal -/

theorem remove_zone_ok {fan_out : Except ZoneError Unit} {zone_id : String}
    (h : (remove_zone fan_out zone_id false s).1 = .ok ()) : s.links zone_id ≤ 0 := by
  unfold remove_zone at h
  by_cases hreserved : zone_id ∈ RESERVED_ZONE_IDS
  · rw [if_pos hreserved] at h
    cases h
  rw [if_neg hreserved] at h
  cases hz : s.zones.get zone_id with
  | none => exact (Node.links_of_absent hz).le
  | some z =>
    rw [Node.links_of_get hz]
    by_contra hpos
    have hcount : (get_links_count s zone_id).filter (fun count => decide (0 < count)) = some z.links := by
      unfold get_links_count
      rw [hz]
      refine if_pos (decide_eq_true ?_)
      rw [Int64.lt_iff_toInt_lt, Int64.toInt_zero]
      omega
    rw [hcount] at h
    cases h

theorem remove_zone_of_unlinked {zone_id : String} (hreserved : zone_id ∉ RESERVED_ZONE_IDS)
    (hhosted : (s.zones.get zone_id).isSome) (hlinks : s.links zone_id = 0) :
    remove_zone (.ok ()) zone_id false s = (.ok (), { s with zones := s.zones.remove zone_id }) := by
  obtain ⟨z, hz⟩ := Option.isSome_iff_exists.mp hhosted
  rw [Node.links_of_get hz] at hlinks
  have hcount : (get_links_count s zone_id).filter (fun count => decide (0 < count)) = none := by
    unfold get_links_count
    rw [hz]
    refine if_neg ?_
    rw [decide_eq_true_eq, Int64.lt_iff_toInt_lt, Int64.toInt_zero]
    omega
  unfold remove_zone
  rw [if_neg hreserved]
  simp only [Bool.false_eq_true, if_false, hcount]
  rw [if_pos hhosted]

theorem Node.Exact.linksRight (h : s.Exact protos) : LinksRight protos s where
  counted zone_id := h.links_eq zone_id
  spared fan_out zone_id hok place hmount := by
    have hpos : 0 < (ledger protos s).links zone_id := Ledger.links_pos hmount
    have hle := remove_zone_ok hok
    rw [h.links_eq] at hle
    omega
  removed zone_id hreserved hhosted hnone := by
    apply remove_zone_of_unlinked hreserved hhosted
    rw [h.links_eq]
    exact Ledger.links_eq_zero hnone

/-- **Link counts.** A run of steps that meet `StepOk`, from zones without mounts, leaves every
counter at the number of mounts, and removal decides rightly. -/
theorem link_counts_right (hdoc : protos.Documented) {ops : List ZoneOp} {answers : List Unit}
    (hs : s.Unmounted protos) (hok : along (zone_step protos) (StepOk protos) s ops)
    (hrun : run (zone_step protos) s ops = some (answers, t)) : LinksRight protos t := by
  have hexact : t.Exact protos := run_invariant (Node.Exact protos)
    (fun _ _ _ _ hs hok hstep => zone_step_exact hdoc hs hok hstep) hs.exact hok hrun
  exact hexact.linksRight

end Protos

/-! ## Two runs -/

/-- Rows with texts that end themselves, with which runs can be evaluated. -/
def flat_protos : Protos where
  encode m := be 4 m.entry_type.toUInt32.toNat ++ (delimited m.path.toList ++
    (delimited m.zone_id.toList ++ (delimited m.target_zone_id.toList ++
      (delimited m.target_subtree.toList ++ m.unread))))
  decode bytes :=
    match (do
      let (path, rest) ← undelimited (bytes.drop 4)
      let (zone_id, rest) ← undelimited rest
      let (target_zone_id, rest) ← undelimited rest
      let (target_subtree, unread) ← undelimited rest
      return ⟨String.ofList path, (UInt32.ofNat (ofBe (bytes.take 4))).toInt32, String.ofList zone_id,
        String.ofList target_zone_id, String.ofList target_subtree, unread⟩) with
    | some m => .ok m
    | none => .error "truncated"

theorem length_delimited (cs : List Char) : (delimited cs).length = 5 * cs.length + 1 := by
  induction cs with
  | nil => rfl
  | cons c cs ih =>
    simp [delimited]
    omega

theorem flat_protos_documented : flat_protos.Documented where
  round_trip m := by
    have htype : m.entry_type.toUInt32.toNat < 256 ^ 4 := m.entry_type.toUInt32.toNat_lt
    have hback : (UInt32.ofNat m.entry_type.toUInt32.toNat).toInt32 = m.entry_type := by
      rw [UInt32.ofNat_toNat, Int32.toInt32_toUInt32]
    rw [UInt32.toInt32_ofNat'] at hback
    simp [flat_protos, undelimited_delimited, ofBe_be htype, hback]
  holds_path m := by
    have hpath := length_as_bytes_le m.path
    simp only [flat_protos, List.length_append, length_delimited]
    omega

def blank_node : Node := ⟨∅, ∅, fun _ => false⟩

theorem blank_node_unmounted : blank_node.Unmounted flat_protos where
  unprotected id z hz := by
    cases hz
  mounts place := by
    show (Table.get ∅ place.1).bind _ = none
    rfl
  links zone_id := Node.links_of_absent (get_empty zone_id)

def full_pass : Pass := ⟨"root", false, fun _ => .nothing⟩

def declared_once : Table String MountDecl := Table.insert ∅ "/s" ⟨"z", "/"⟩

def declared_run : List ZoneOp :=
  [.bootstrap_static false (fun _ => .ok ()) ["root", "z"] declared_once, .apply_topology full_pass,
    .unmount "root" "/s"]

def declared_node : Node :=
  (bootstrap_static false (fun _ => .ok ()) ["root", "z"] declared_once blank_node).2

theorem free_of_fresh (path : String) : Zone.fresh.Free path := by
  have hnone : revision_in_txn Zone.fresh.store path = none := rfl
  refine ⟨rfl, fun h => ?_⟩
  rw [hnone] at h
  exact absurd h.2 (by simp)

theorem declared_pass_ok : PassOk flat_protos declared_node full_pass := by
  have hzones : declared_node.zones = (Table.insert ∅ "root" .fresh).insert "z" .fresh := rfl
  have hsorted : sorted_mounts declared_node = [("/s", ⟨"z", "/"⟩)] := by decide +kernel
  have hplace : resolve_parent "root" ∅ "/s" = ("root", "/s") := by decide +kernel
  have hds : declarations declared_node full_pass = [⟨"/s", ⟨"z", "/"⟩, ("root", "/s")⟩] := by
    unfold declarations
    rw [hsorted]
    show [(⟨"/s", ⟨"z", "/"⟩, resolve_parent "root" ∅ "/s"⟩ : Declaration)] = _
    rw [hplace]
  have hlinks (zone_id : String) : declared_node.links zone_id = 0 := by
    unfold Node.links get_links_count
    rw [hzones, get_insert, get_insert]
    split_ifs <;> rfl
  have hlands : lands flat_protos declared_node full_pass ⟨"/s", ⟨"z", "/"⟩, ("root", "/s")⟩ = true := by
    decide +kernel
  have hmount : declared_node.mount_at flat_protos ("root", "/s") = none := by decide +kernel
  have hreaches (zone_id : String) :
      reaches flat_protos declared_node full_pass (declarations declared_node full_pass) zone_id =
        decide ("z" = zone_id) := by
    have hcounts : (full_pass.deferred "/s").links = false := rfl
    rw [hds]
    simp [reaches, raises, hlands, hcounts, subtree_ready, VFS_ROOT]
  refine ⟨?_, ?_, ?_, ?_, ?_⟩
  · intro d hd
    rw [hds, List.mem_singleton] at hd
    subst hd
    refine ⟨by decide, by decide +kernel, ⟨.fresh, rfl, free_of_fresh _⟩,
      ⟨.fresh, rfl, free_of_fresh _⟩, ?_⟩
    intro bytes hbytes
    cases hbytes
  · rw [hds]
    simp
  · intro zone_id
    rw [hsorted]
    have hle : declared [("/s", (⟨"z", "/"⟩ : MountDecl))] zone_id ≤ 1 := List.countP_le_length
    omega
  · intro zone_id
    rw [hreaches, hlinks, hsorted, hds]
    by_cases hz : "z" = zone_id
    · subst hz
      simp [gain, gain_of, hlands, hmount, declared]
    · simp [gain, gain_of, hlands, hmount, hz]
  · intro zone_id hnot
    refine .inr fun d hd _ _ => ?_
    rw [hds, List.mem_singleton] at hd
    subst hd
    rfl

/-- **A run that stays right.** -/
theorem link_counts_right_declared :
    ∃ answers t, run (zone_step flat_protos) blank_node declared_run = some (answers, t) ∧
      LinksRight flat_protos t := by
  have hrun : run (zone_step flat_protos) blank_node declared_run = some ([(), (), ()], _) := rfl
  refine ⟨_, _, hrun, link_counts_right flat_protos_documented blank_node_unmounted ?_ hrun⟩
  refine ⟨trivial, fun _ _ hstep => ?_⟩
  cases hstep
  refine ⟨fun _ => declared_pass_ok, fun _ _ hstep => ?_⟩
  cases hstep
  have hplain : is_number_row "/s" = false := by decide +kernel
  exact ⟨hplain, fun _ _ _ => trivial⟩

/-- `z` is mounted, then declared elsewhere. The pass finds the count at the number of declarations
and leaves it. -/
def mixed_run : List ZoneOp :=
  [.bootstrap_static false (fun _ => .ok ()) ["root", "z"] ∅, .mount "root" "/m" "z",
    .bootstrap_static false (fun _ => .ok ()) [] declared_once, .apply_topology full_pass,
    .unmount "root" "/m"]

/-- Then the unmounted place takes the other's link with it, and a mounted zone is removed. -/
theorem mixed_run_removes_mounted :
    flat_protos.Documented ∧ blank_node.Unmounted flat_protos ∧ ∃ answers t,
      run (zone_step flat_protos) blank_node mixed_run = some (answers, t) ∧
      t.links "z" = 0 ∧ t.mount_at flat_protos ("root", "/s") = some "z" ∧
      (remove_zone (.ok ()) "z" false t).1 = .ok () := by
  refine ⟨flat_protos_documented, blank_node_unmounted, exists_run (fun _ t =>
    t.links "z" = 0 ∧ t.mount_at flat_protos ("root", "/s") = some "z" ∧
      (remove_zone (.ok ()) "z" false t).1.isOk = true) (by decide +kernel) ?_⟩
  rintro answers t - ⟨hlinks, hmount, hremoved⟩
  refine ⟨hlinks, hmount, ?_⟩
  cases hres : (remove_zone (.ok ()) "z" false t).1 with
  | ok u => rfl
  | error error =>
    rw [hres] at hremoved
    cases hremoved

end NexusVfs.ZoneManager
