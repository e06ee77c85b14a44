/-
Mounting, unmounting and the link counts: each call is a short sequence of the
operations of the ledger, whose debts cancel.
-/
import NexusVfs.ZoneLedger

namespace NexusVfs.ZoneManager

open Words Text Runs Actions Actions.Action LinkLedger

section Protos

variable (protos : Protos)

/-- Every counter is the number of mounts, and no counter is protected. -/
structure Node.Exact (s : Node) : Prop where
  unprotected : s.Unprotected
  balanced : (ledger protos s).Balanced

variable {protos}

variable {s : Node} {zone_id : String} {z : Zone}

theorem Node.Exact.links_eq (h : s.Exact protos) (zone_id : String) :
    s.links zone_id = (ledger protos s).links zone_id := h.balanced.counts_eq zone_id

variable {target path : String}

theorem Node.Exact.hosted (h : s.Exact protos) {place : String × String}
    (hmount : s.mount_at protos place = some target) : ∃ z, s.zones.get target = some z := by
  cases hz : s.zones.get target with
  | some z => exact ⟨z, rfl⟩
  | none =>
    have hpos : 0 < (ledger protos s).links target := Ledger.links_pos hmount
    rw [← h.links_eq, Node.links_of_absent hz] at hpos
    exact absurd hpos (lt_irrefl 0)

/-! ## Reading the node -/

theorem require_node_of_get (message : String) (h : s.zones.get zone_id = some z) :
    require_node zone_id message s = (.ok z, s) := by
  unfold require_node
  rw [h]

theorem require_node_of_absent (message : String) (h : s.zones.get zone_id = none) :
    require_node zone_id message s = (.error (.InvalidState message), s) := by
  unfold require_node
  rw [h]

theorem existing_entry_cases (z : Zone) (path : String) (s : Node) :
    (z.store.metadata.get path = none ∧ existing_entry protos z path s = (.ok none, s)) ∨
    (∃ bytes entry, z.store.metadata.get path = some bytes ∧ protos.decode bytes = .ok entry ∧
      existing_entry protos z path s = (.ok (some entry), s)) ∨
    (∃ bytes error, z.store.metadata.get path = some bytes ∧ protos.decode bytes = .error error ∧
      existing_entry protos z path s = (.error (.Raft s!"decode existing: {error}"), s)) := by
  unfold existing_entry
  cases hget : z.store.metadata.get path with
  | none => exact .inl ⟨rfl, rfl⟩
  | some bytes =>
    cases hdec : protos.decode bytes with
    | ok entry => exact .inr (.inl ⟨bytes, entry, rfl, hdec, by simp only [hdec]; rfl⟩)
    | error error => exact .inr (.inr ⟨bytes, error, rfl, hdec, by simp only [hdec]; rfl⟩)

theorem mount_at_of_entry {bytes : Bytes} {entry : FileMetadata}
    (hz : s.zones.get zone_id = some z) (hpath : is_number_row path = false)
    (hget : z.store.metadata.get path = some bytes) (hdec : protos.decode bytes = .ok entry) :
    s.mount_at protos (zone_id, path) =
      if entry.entry_type = DT_MOUNT ∧ entry.target_zone_id ≠ "" then some entry.target_zone_id
      else none := by
  unfold Node.mount_at
  rw [hz]
  show Zone.mount_at protos z path = _
  unfold Zone.mount_at
  rw [if_neg (by simp [hpath]), hget]
  show mount_target protos bytes = _
  unfold mount_target
  rw [hdec]

theorem mount_at_of_absent (hz : s.zones.get zone_id = some z)
    (hget : z.store.metadata.get path = none) : s.mount_at protos (zone_id, path) = none := by
  unfold Node.mount_at
  rw [hz]
  show Zone.mount_at protos z path = _
  unfold Zone.mount_at
  rw [hget]
  exact ite_self _

theorem mount_target_encode (hdoc : protos.Documented) (entry : FileMetadata) :
    mount_target protos (protos.encode entry) =
      if entry.entry_type = DT_MOUNT ∧ entry.target_zone_id ≠ "" then some entry.target_zone_id
      else none := by
  unfold mount_target
  rw [hdoc.round_trip]

theorem mount_target_directory (hdoc : protos.Documented) (path zone_id : String) :
    mount_target protos (encode_file_metadata protos path DT_DIR zone_id "") = none := by
  unfold encode_file_metadata
  rw [mount_target_encode hdoc]
  have htype : DT_DIR ≠ DT_MOUNT := by decide
  exact if_neg fun hc => htype hc.1

theorem mount_target_mount (hdoc : protos.Documented) (path parent_zone_id subtree : String)
    (h : target ≠ "") :
    mount_target protos (encode_mount_metadata protos path parent_zone_id target subtree) =
      some target := by
  unfold encode_mount_metadata
  rw [mount_target_encode hdoc]
  exact if_pos ⟨rfl, h⟩

/-! ## Mounting and unmounting -/

theorem propose_directory (hdoc : protos.Documented)
    (hz : s.zones.get zone_id = some z) (hpath : is_number_row path = false)
    (hnone : s.mount_at protos (zone_id, path) = none) :
    ∃ result s', propose_set_metadata zone_id path
        (encode_file_metadata protos path DT_DIR zone_id "") s = (result, s') ∧ s.Grown s' ∧
      ledger protos s' = ledger protos s := by
  obtain ⟨result, s', hres, hgrown, ⟨-, hledger⟩ | ⟨-, hledger⟩⟩ :=
    propose_set_metadata_cases protos hz hpath (encode_file_metadata protos path DT_DIR zone_id "")
  · refine ⟨result, s', hres, hgrown, hledger.trans ?_⟩
    rw [mount_target_directory hdoc]
    exact Ledger.set_same hnone
  · exact ⟨result, s', hres, hgrown, hledger⟩

section Mount

variable {s : Node} {parent_zone_id mount_path target_zone_id target_subtree : String}

variable (hdoc : protos.Documented) (hs : s.Exact protos)
include hdoc hs

theorem write_mount_exact {z zt : Zone}
    (hz : s.zones.get parent_zone_id = some z) (hzt : s.zones.get target_zone_id = some zt)
    (hpath : is_number_row mount_path = false) (htarget : target_zone_id ≠ "")
    (hroom : s.links target_zone_id + 1 < 2 ^ 63)
    (hnone : s.mount_at protos (parent_zone_id, mount_path) = none) :
    (mount_subtree.write_mount protos parent_zone_id mount_path target_zone_id target_subtree true
      s).2.Exact protos := by
  unfold mount_subtree.write_mount
  obtain ⟨result, s₁, hres, hgrown, ⟨rfl, hledger⟩ | ⟨⟨error, rfl⟩, hledger⟩⟩ :=
    propose_set_metadata_cases protos hz hpath
      (encode_mount_metadata protos mount_path parent_zone_id target_zone_id target_subtree)
  · rw [bind_of_ok hres, if_pos rfl]
    rw [mount_target_mount hdoc _ _ _ htarget] at hledger
    obtain ⟨zt₁, hzt₁, -⟩ := hgrown.zone _ _ hzt
    have hlinks : s₁.links target_zone_id = s.links target_zone_id :=
      congrFun (congrArg Ledger.counts hledger) target_zone_id
    have hnonneg : 0 ≤ s.links target_zone_id := by
      rw [hs.links_eq]
      exact Ledger.links_nonneg _ _
    have hone : (1 : Int64).toInt = 1 := by decide
    have hlow : 0 ≤ s₁.links target_zone_id + (1 : Int64).toInt := by omega
    obtain ⟨count, s₂, hadjust, hgrown₂, hledger₂⟩ := propose_adjust_counter_spec protos hzt₁
      (hgrown.unprotected hs.unprotected) hlow (by omega)
    rw [bind_of_ok hadjust]
    refine ⟨(hgrown.trans hgrown₂).unprotected hs.unprotected, ?_⟩
    show (ledger protos s₂).Balanced
    rw [hledger₂, hledger]
    exact hs.balanced.link hnone target_zone_id
  · rw [bind_of_error hres]
    exact ⟨hgrown.unprotected hs.unprotected, hledger ▸ hs.balanced⟩

theorem mount_subtree_exact
    (hpath : is_number_row mount_path = false) (htarget : target_zone_id ≠ "")
    (hroom : s.links target_zone_id + 1 < 2 ^ 63) :
    (mount_subtree protos parent_zone_id mount_path target_zone_id target_subtree true
      s).2.Exact protos := by
  unfold mount_subtree
  cases hz : s.zones.get parent_zone_id with
  | none =>
    rw [bind_of_error (require_node_of_absent _ hz)]
    exact hs
  | some z =>
    rw [bind_of_ok (require_node_of_get _ hz)]
    cases hzt : s.zones.get target_zone_id with
    | none =>
      rw [bind_of_error (require_node_of_absent _ hzt)]
      exact hs
    | some zt =>
      rw [bind_of_ok (require_node_of_get _ hzt), bind_ask]
      split_ifs with hdeleted
      · exact hs
      · rcases existing_entry_cases z mount_path s with
          ⟨hget, hread⟩ | ⟨bytes, entry, hget, hdec, hread⟩ | ⟨bytes, error, hget, hdec, hread⟩
        · rw [bind_of_ok hread]
          dsimp only
          have hnone : s.mount_at protos (parent_zone_id, mount_path) = none :=
            mount_at_of_absent hz hget
          obtain ⟨result, s₁, hres, hgrown, hledger⟩ := propose_directory hdoc hz hpath hnone
          have hs₁ : s₁.Exact protos :=
            ⟨hgrown.unprotected hs.unprotected, hledger ▸ hs.balanced⟩
          cases result with
          | error error =>
            rw [bind_of_error hres]
            exact hs₁
          | ok u =>
            rw [bind_of_ok hres]
            obtain ⟨z₁, hz₁, -⟩ := hgrown.zone _ _ hz
            obtain ⟨zt₁, hzt₁, -⟩ := hgrown.zone _ _ hzt
            have hlinks : s₁.links target_zone_id = s.links target_zone_id :=
              congrFun (congrArg Ledger.counts hledger) target_zone_id
            refine write_mount_exact hdoc hs₁ hz₁ hzt₁ hpath htarget (by omega) ?_
            exact (congrFun (congrArg Ledger.refs hledger) _).trans hnone
        · rw [bind_of_ok hread]
          dsimp only
          split_ifs with hmount hzone hsub hdir
          · exact hs
          · exact hs
          · exact hs
          · exact hs
          · refine write_mount_exact hdoc hs hz hzt hpath htarget hroom ?_
            rw [mount_at_of_entry hz hpath hget hdec]
            exact if_neg fun hc => hmount hc.1
        · rw [bind_of_error hread]
          exact hs

theorem unmount_exact (hpath : is_number_row mount_path = false) :
    (unmount protos parent_zone_id mount_path s).2.Exact protos := by
  unfold unmount
  cases hz : s.zones.get parent_zone_id with
  | none =>
    rw [bind_of_error (require_node_of_absent _ hz)]
    exact hs
  | some z =>
    rw [bind_of_ok (require_node_of_get _ hz)]
    rcases existing_entry_cases z mount_path s with
      ⟨-, hread⟩ | ⟨bytes, entry, hget, hdec, hread⟩ | ⟨bytes, error, -, -, hread⟩
    · rw [bind_of_ok hread]
      exact hs
    · rw [bind_of_ok hread]
      by_cases hmount : entry.entry_type = DT_MOUNT
      · rw [show Option.filter (·.entry_type == DT_MOUNT) (some entry) = some entry by simp [hmount]]
        dsimp only
        have hat : s.mount_at protos (parent_zone_id, mount_path) = _ :=
          mount_at_of_entry hz hpath hget hdec
        obtain ⟨result, s₁, hres, hgrown, ⟨rfl, hledger⟩ | ⟨⟨error, rfl⟩, hledger⟩⟩ :=
          propose_set_metadata_cases protos hz hpath
            (encode_file_metadata protos mount_path DT_DIR parent_zone_id "")
        · rw [bind_of_ok hres]
          rw [mount_target_directory hdoc] at hledger
          split_ifs with htarget
          · -- The row named no zone, so it was no mount.
            rw [if_neg fun hc => hc.2 htarget] at hat
            refine ⟨hgrown.unprotected hs.unprotected, ?_⟩
            show (ledger protos s₁).Balanced
            rw [hledger, Ledger.set_same hat]
            exact hs.balanced
          · rw [if_pos ⟨hmount, htarget⟩] at hat
            obtain ⟨zt, hzt⟩ := hs.hosted hat
            obtain ⟨zt₁, hzt₁, -⟩ := hgrown.zone _ _ hzt
            have hlinks : s₁.links entry.target_zone_id = s.links entry.target_zone_id :=
              congrFun (congrArg Ledger.counts hledger) _
            have hpos : 0 < s.links entry.target_zone_id := by
              rw [hs.links_eq]
              exact Ledger.links_pos hat
            have hbound : s.links entry.target_zone_id < 2 ^ 63 := Int64.toInt_lt _
            have hone : (-1 : Int64).toInt = -1 := by decide
            have hlow : 0 ≤ s₁.links entry.target_zone_id + (-1 : Int64).toInt := by omega
            obtain ⟨count, s₂, hadjust, hgrown₂, hledger₂⟩ := propose_adjust_counter_spec protos
              hzt₁ (hgrown.unprotected hs.unprotected) hlow (by omega)
            rw [bind_ask, if_pos (by rw [hzt₁]; rfl), bind_of_ok hadjust]
            refine ⟨(hgrown.trans hgrown₂).unprotected hs.unprotected, ?_⟩
            show (ledger protos s₂).Balanced
            rw [hledger₂, hledger, hone]
            exact hs.balanced.unlink hat
        · rw [bind_of_error hres]
          exact ⟨hgrown.unprotected hs.unprotected, hledger ▸ hs.balanced⟩
      · rw [show Option.filter (·.entry_type == DT_MOUNT) (some entry) = none by simp [hmount]]
        exact hs
    · rw [bind_of_error hread]
      exact hs

omit hdoc hs

end Mount

end Protos

end NexusVfs.ZoneManager
