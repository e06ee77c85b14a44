/-
Sharing a subtree, and the link counts.

Sharing copies rows one proposal at a time and counts the mounts among them only when
all are in. `Copying` is the debt in between, with what has to hold of the writes to
come for it to be paid.
-/
import NexusVfs.TopologyLinks

namespace NexusVfs.ZoneManager

open List Words Text Runs Actions Actions.Action LinkLedger Option

/-! ## The rows of a copy -/

def FileMetadata.carried (entry : FileMetadata) : Option String :=
  if entry.entry_type = DT_MOUNT ∧ entry.target_zone_id ≠ "" then some entry.target_zone_id else none

def root_entry (zone_id : String) : FileMetadata := ⟨"/", DT_DIR, zone_id, "", "", []⟩

theorem carried_root (zone_id : String) : (root_entry zone_id).carried = none := by
  have htype : DT_DIR ≠ DT_MOUNT := by decide
  exact if_neg fun hc => htype hc.1

theorem carried_rebased (new_zone_id normalized path : String) (proto : FileMetadata) :
    (rebased new_zone_id normalized path proto).carried = nested_target normalized path proto := by
  have htype : DT_DIR ≠ DT_MOUNT := by decide
  unfold FileMetadata.carried nested_target rebased
  by_cases hpath : path = normalized
  · simp [hpath, htype]
  · simp [hpath]

theorem rebased_path_absolute (normalized path : String) :
    ∃ rest, rebased_path normalized path = "/" ++ rest := by
  unfold rebased_path
  dsimp only
  split_ifs with hroot hslash
  · exact ⟨"", rfl⟩
  · exact startsWith_iff_exists.mp hslash
  · exact ⟨_, rfl⟩

theorem absolute_not_number_row (rest : String) : is_number_row ("/" ++ rest) = false := by
  have hlinks : "/" ++ rest ≠ I_LINKS_COUNT_KEY ++ "" :=
    append_ne_of_take 1 (by decide +kernel) (by decide +kernel) (by decide +kernel)
  have hmarker : "/" ++ rest ≠ KEY_LAST_APPLIED ++ "" :=
    append_ne_of_take 1 (by decide +kernel) (by decide +kernel) (by decide +kernel)
  rw [String.append_empty] at hlinks hmarker
  simp [is_number_row, hlinks, hmarker]

theorem internal_of_number_row {path : String} (h : is_internal_key path = false) :
    is_number_row path = false := by
  have hlinks : is_internal_key I_LINKS_COUNT_KEY = true := by decide +kernel
  have hmarker : is_internal_key KEY_LAST_APPLIED = true := by decide +kernel
  rw [Bool.eq_false_iff]
  intro hnumber
  rcases (Bool.or_eq_true _ _).mp hnumber with hpath | hpath
  · rw [of_decide_eq_true hpath, hlinks] at h
    cases h
  · rw [of_decide_eq_true hpath, hmarker] at h
    cases h

section Protos

variable (protos : Protos)

def copied_rows (new_zone_id normalized : String) (entries : List (String × Bytes)) :
    List FileMetadata :=
  entries.filterMap fun entry =>
    (protos.decode entry.2).toOption.map (rebased new_zone_id normalized entry.1)

/-- The subtree's own row is among them. -/
def copies_root (normalized : String) (entries : List (String × Bytes)) : Bool :=
  entries.any fun entry => (protos.decode entry.2).isOk && entry.1 = normalized

/-- The rows that sharing writes: the root is added if the subtree has no row of its own. -/
def shared_rows (new_zone_id normalized : String) (entries : List (String × Bytes)) :
    List FileMetadata :=
  copied_rows protos new_zone_id normalized entries ++
    if copies_root protos normalized entries then [] else [root_entry new_zone_id]

/-! ## The debt of a copy -/

def Node.Free (s : Node) (zone_id path : String) : Prop :=
  ∀ z, s.zones.get zone_id = some z → z.Free path

variable {path : String} {w : FileMetadata} {value : Bytes} {rest : List (String × Bytes)}

theorem Node.Free.grown {s s' : Node} {zone_id : String} (h : s.Free zone_id path)
    (hgrown : s.Grown s') : s'.Free zone_id path := by
  intro z' hz'
  obtain ⟨z, hz, hzz'⟩ := hgrown.zone_before hz'
  exact hzz'.free (h z hz)

/-- Since `start` mounts of `targets` have been copied, and `ws` is still to be written. -/
structure Copying (start : Node) (zone_id : String) (s : Node) (targets : List String)
    (ws : List FileMetadata) : Prop where
  unprotected : s.Unprotected
  grown : start.Grown s
  hosted : ∃ z, s.zones.get zone_id = some z
  kept : ∀ id, s.links id = start.links id
  owed : ∀ id, (ledger protos s).debt id = targets.count id
  plain : ∀ w ∈ ws, is_number_row w.path = false
  clear : ∀ w ∈ ws, s.mount_at protos (zone_id, w.path) = none
  accepted : targets ≠ [] → ∀ w ∈ ws, s.Free zone_id w.path
  lasting : ws.Pairwise fun w w' => w.carried ≠ none → w.path ≠ w'.path ∧ s.Free zone_id w'.path

variable {protos} {start : Node} {zone_id : String} {s : Node} {targets : List String}

variable {ws : List FileMetadata}

/-- **One write of a copy.** It is refused while nothing is owed, or the zone it mounts, if any, is
owed one link more. -/
theorem Copying.write (hdoc : protos.Documented)
    (h : Copying protos start zone_id s targets (w :: ws)) :
    ∃ result s', propose_set_metadata zone_id w.path (protos.encode w) s = (result, s') ∧
      ((result = .ok () ∧ Copying protos start zone_id s' (w.carried.toList ++ targets) ws) ∨
        ((∃ error, result = .error error) ∧ s'.Exact protos)) := by
  obtain ⟨z, hz⟩ := h.hosted
  have hplain := h.plain w mem_cons_self
  have hclear := h.clear w mem_cons_self
  obtain ⟨hlast, hrest⟩ := pairwise_cons.mp h.lasting
  have htarget : mount_target protos (protos.encode w) = w.carried := mount_target_encode hdoc w
  obtain ⟨result, s', hres, hgrown, ⟨rfl, hledger⟩ | ⟨⟨error, rfl⟩, hledger⟩⟩ :=
    propose_set_metadata_cases protos hz hplain (protos.encode w)
  · rw [htarget] at hledger
    refine ⟨_, s', hres, .inl ⟨rfl, ?_⟩⟩
    obtain ⟨z', hz', -⟩ := hgrown.zone zone_id z hz
    refine ⟨hgrown.unprotected h.unprotected, h.grown.trans hgrown, ⟨z', hz'⟩, ?_, ?_, ?_, ?_, ?_, ?_⟩
    · intro id
      have hcount : s'.links id = s.links id := congrFun (congrArg Ledger.counts hledger) id
      rw [hcount, h.kept]
    · intro id
      have hnone : (ledger protos s).refs (zone_id, w.path) = none := hclear
      rw [hledger, Ledger.debt_set, h.owed, hnone, count_append]
      cases hcarried : w.carried with
      | none => simp
      | some target =>
        by_cases hid : target = id
        · simp [hid]
          omega
        · simp [hid]
    · intro w' hw'
      exact h.plain w' (mem_cons_of_mem _ hw')
    · -- A later row may go where this one went only if this one is no mount.
      intro w' hw'
      show (ledger protos s').refs (zone_id, w'.path) = none
      rw [hledger, Ledger.refs_set]
      split_ifs with hsame
      · by_contra hcarried
        exact (hlast w' hw' hcarried).1 (Prod.mk.inj hsame).2.symm
      · exact h.clear w' (mem_cons_of_mem _ hw')
    · intro hne w' hw'
      by_cases htargets : targets = []
      · have hcarried : w.carried ≠ none := by
          intro hnone
          simp [hnone, htargets] at hne
        exact (hlast w' hw' hcarried).2.grown hgrown
      · exact (h.accepted htargets w' (mem_cons_of_mem _ hw')).grown hgrown
    · exact hrest.imp fun himp hcarried => ⟨(himp hcarried).1, (himp hcarried).2.grown hgrown⟩
  · refine ⟨_, s', hres, .inr ⟨⟨error, rfl⟩, hgrown.unprotected h.unprotected, fun id => ?_⟩⟩
    -- The write was refused, so no mount has been copied.
    have hnothing : targets = [] := by
      by_contra hne
      obtain ⟨s₁, hok⟩ := propose_set_metadata_accepted hz
        (h.accepted hne w mem_cons_self z hz) (protos.encode w)
      cases (Prod.mk.inj (hres.symm.trans hok)).1
    rw [hledger, h.owed, hnothing]
    rfl

theorem copied_rows_cons_error {new_zone_id normalized message : String}
    (h : protos.decode value = .error message) :
    copied_rows protos new_zone_id normalized ((path, value) :: rest) =
      copied_rows protos new_zone_id normalized rest := by
  unfold copied_rows
  simp [h, Except.toOption]

theorem copied_rows_cons_ok {new_zone_id normalized : String}
    {proto : FileMetadata} (h : protos.decode value = .ok proto) :
    copied_rows protos new_zone_id normalized ((path, value) :: rest) =
      rebased new_zone_id normalized path proto ::
        copied_rows protos new_zone_id normalized rest := by
  unfold copied_rows
  simp [h, Except.toOption]

/-- **The copy.** It ends with what it has copied owed, or stops with nothing owed. -/
theorem copy_entries_spec (hdoc : protos.Documented) (normalized : String) (tail : List FileMetadata)
    (entries : List (String × Bytes)) {seen : Copied}
    (h : Copying protos start zone_id s seen.nested_mount_targets
      (copied_rows protos zone_id normalized entries ++ tail)) :
    ∃ result s', copy_entries protos zone_id normalized entries seen s = (result, s') ∧
      ((∃ seen', result = .ok seen' ∧
          Copying protos start zone_id s' seen'.nested_mount_targets tail ∧
          seen'.nested_mount_targets =
            ((copied_rows protos zone_id normalized entries).filterMap FileMetadata.carried).reverse ++
              seen.nested_mount_targets ∧
          seen'.root_written = (seen.root_written || copies_root protos normalized entries)) ∨
        ((∃ error, result = .error error) ∧ s'.Exact protos)) := by
  induction entries generalizing seen s with
  | nil => exact ⟨_, s, rfl, .inl ⟨seen, rfl, h, rfl, by simp [copies_root]⟩⟩
  | cons entry rest ih =>
    obtain ⟨path, value⟩ := entry
    unfold copy_entries
    cases hdec : protos.decode value with
    | error message =>
      rw [copied_rows_cons_error hdec] at h ⊢
      obtain ⟨result, s', hres, ⟨seen', rfl, hcopying, htargets, hroot⟩ | hstopped⟩ := ih h
      · refine ⟨_, s', hres, .inl ⟨seen', rfl, hcopying, htargets, hroot.trans ?_⟩⟩
        simp [copies_root, hdec, Except.toBool]
      · exact ⟨result, s', hres, .inr hstopped⟩
    | ok proto =>
      rw [copied_rows_cons_ok hdec] at h ⊢
      obtain ⟨result, s₁, hwrite, ⟨rfl, hcopying⟩ | ⟨⟨error, rfl⟩, hexact⟩⟩ := h.write hdoc
      · rw [carried_rebased] at hcopying
        obtain ⟨result, s', hres, ⟨seen', rfl, hdone, htargets, hroot⟩ | hstopped⟩ :=
          @ih s₁ ⟨seen.copied + 1, (nested_target normalized path proto).toList ++
            seen.nested_mount_targets, seen.root_written || path = normalized⟩ hcopying
        · refine ⟨.ok seen', s', (bind_of_ok hwrite).trans hres,
            .inl ⟨seen', rfl, hdone, htargets.trans ?_, hroot.trans ?_⟩⟩
          · rw [filterMap_cons, carried_rebased]
            cases nested_target normalized path proto with
            | none => simp
            | some target => simp
          · simp [copies_root, hdec, Except.isOk, Except.toBool, Bool.or_assoc]
        · exact ⟨result, s', (bind_of_ok hwrite).trans hres, .inr hstopped⟩
      · exact ⟨_, s₁, bind_of_error hwrite, .inr ⟨⟨error, rfl⟩, hexact⟩⟩

theorem count_nested_spec (targets : List String) {s : Node} (hs : s.Unprotected)
    (hhosted : ∀ target ∈ targets, ∃ z, s.zones.get target = some z)
    (howed : ∀ id, (ledger protos s).debt id = targets.count id) (hnonneg : ∀ id, 0 ≤ s.links id)
    (hroom : ∀ id, s.links id + targets.count id < 2 ^ 63) :
    ∃ s', count_nested targets s = (.ok (), s') ∧ s'.Exact protos := by
  induction targets generalizing s with
  | nil => exact ⟨s, rfl, hs, fun id => by simpa using howed id⟩
  | cons target rest ih =>
    obtain ⟨z, hz⟩ := hhosted target mem_cons_self
    have hone : (1 : Int64).toInt = 1 := by decide
    have htarget := hroom target
    rw [count_cons_self] at htarget
    have hlow := hnonneg target
    obtain ⟨count, s₁, hres, hgrown, hledger⟩ := propose_adjust_counter_spec protos hz hs
      (show 0 ≤ s.links target + (1 : Int64).toInt by omega) (by omega)
    have hlinks (id : String) : s₁.links id = s.links id + if id = target then 1 else 0 := by
      have hcounts := congrFun (congrArg Ledger.counts hledger) id
      rw [Ledger.counts_adjust] at hcounts
      exact hcounts
    have hcount (id : String) :
        ((target :: rest).count id : ℤ) = rest.count id + if id = target then 1 else 0 := by
      by_cases hid : id = target
      · simp [hid]
      · simp [hid, Ne.symm hid]
    obtain ⟨s', hrest, hexact⟩ := ih (hgrown.unprotected hs)
      (fun t ht => by
        obtain ⟨zt, hzt⟩ := hhosted t (mem_cons_of_mem _ ht)
        obtain ⟨zt', hzt', -⟩ := hgrown.zone t zt hzt
        exact ⟨zt', hzt'⟩)
      (fun id => by
        rw [hledger, Ledger.debt_adjust, howed, hcount]
        split_ifs <;> omega)
      (fun id => by
        rw [hlinks]
        have := hnonneg id
        split_ifs <;> omega)
      (fun id => by
        have := hroom id
        rw [hcount] at this
        rw [hlinks]
        omega)
    refine ⟨s', ?_, hexact⟩
    unfold count_nested
    rw [bind_ask, if_pos (by rw [hz]; rfl), bind_of_ok hres]
    exact hrest

/-! ## Sharing -/

variable (protos) in
/-- The rows `ws` can be shared into the zone. -/
structure ShareOk (s : Node) (zone_id : String) (ws : List FileMetadata) : Prop where
  clear : ∀ w ∈ ws, s.mount_at protos (zone_id, w.path) = none
  lasting : ws.Pairwise fun w w' => w.carried ≠ none → w.path ≠ w'.path ∧ s.Free zone_id w'.path
  room : ∀ id, s.links id + (ws.filterMap FileMetadata.carried).count id < 2 ^ 63

variable {parent_zone_id subtree normalized new_zone_id : String}

theorem shared_rows_plain {entries : List (String × Bytes)}
    (h : w ∈ shared_rows protos new_zone_id normalized entries) : is_number_row w.path = false := by
  rcases mem_append.mp h with hcopied | hroot
  · obtain ⟨entry, -, hentry⟩ := mem_filterMap.mp hcopied
    obtain ⟨proto, -, rfl⟩ := map_eq_some_iff.mp hentry
    obtain ⟨rest, hrest⟩ := rebased_path_absolute normalized entry.1
    show is_number_row (rebased_path normalized entry.1) = false
    rw [hrest]
    exact absolute_not_number_row rest
  · split_ifs at hroot
    · cases hroot
    · rw [mem_singleton.mp hroot]
      exact absolute_not_number_row ""

theorem carried_shared_rows (entries : List (String × Bytes)) :
    (shared_rows protos new_zone_id normalized entries).filterMap FileMetadata.carried =
      (copied_rows protos new_zone_id normalized entries).filterMap FileMetadata.carried := by
  unfold shared_rows
  split_ifs
  · simp
  · simp [carried_root]

theorem hosted_of_copied {parent : Zone} {target : String} (hs : s.Exact protos)
    (hparent : s.zones.get parent_zone_id = some parent)
    (h : target ∈ (copied_rows protos new_zone_id normalized
      (subtree_entries parent normalized)).filterMap FileMetadata.carried) :
    ∃ z, s.zones.get target = some z := by
  obtain ⟨w, hw, hcarried⟩ := mem_filterMap.mp h
  obtain ⟨⟨path, value⟩, hentry, hrow⟩ := mem_filterMap.mp hw
  obtain ⟨proto, hproto, rfl⟩ := map_eq_some_iff.mp hrow
  rw [carried_rebased] at hcarried
  have hdec : protos.decode value = .ok proto := by
    cases hvalue : protos.decode value with
    | ok p => simpa [hvalue, Except.toOption] using hproto
    | error message => simp [hvalue, Except.toOption] at hproto
  obtain ⟨hscan, hget⟩ := Table.mem_scan.mp hentry
  simp only [Bool.and_eq_true, Bool.not_eq_true'] at hscan
  have hmount := mount_at_of_entry hparent (internal_of_number_row hscan.1.2) hget hdec
  unfold nested_target at hcarried
  split_ifs at hcarried with hnested
  rw [if_pos hnested.2, some.inj hcarried] at hmount
  exact hs.hosted hmount

theorem Copying.count_nested (hs : start.Exact protos)
    (h : Copying protos start zone_id s targets [])
    (hhosted : ∀ target ∈ targets, ∃ z, start.zones.get target = some z)
    (hroom : ∀ id, start.links id + targets.count id < 2 ^ 63) :
    ∃ s', ZoneManager.count_nested targets.reverse s = (.ok (), s') ∧ s'.Exact protos := by
  apply count_nested_spec _ h.unprotected
  · intro target htarget
    obtain ⟨z, hz⟩ := hhosted target (mem_reverse.mp htarget)
    obtain ⟨z', hz', -⟩ := h.grown.zone target z hz
    exact ⟨z', hz'⟩
  · intro id
    rw [h.owed, count_reverse]
  · intro id
    rw [h.kept, hs.links_eq]
    exact Ledger.links_nonneg _ _
  · intro id
    rw [h.kept, count_reverse]
    exact hroom id

theorem share_subtree_core_exact (hdoc : protos.Documented) (hs : s.Exact protos)
    (hok : ∀ normalized parent, normalize_subtree_prefix subtree = .ok normalized →
      s.zones.get parent_zone_id = some parent → ShareOk protos s new_zone_id
        (shared_rows protos new_zone_id normalized (subtree_entries parent normalized))) :
    (share_subtree_core protos parent_zone_id subtree new_zone_id s).2.Exact protos := by
  unfold share_subtree_core
  cases hnew : s.zones.get new_zone_id with
  | none =>
    rw [bind_of_error (require_node_of_absent _ hnew)]
    exact hs
  | some z =>
    rw [bind_of_ok (require_node_of_get _ hnew)]
    obtain ⟨error, herror⟩ | ⟨normalized, hnormal⟩ :
        (∃ error, normalize_subtree_prefix subtree = .error error) ∨
          ∃ normalized, normalize_subtree_prefix subtree = .ok normalized := by
      cases normalize_subtree_prefix subtree <;> simp
    · rw [herror]
      exact hs
    have hanswer : (of_except ( normalize_subtree_prefix subtree) : Call String) s =
        (.ok normalized, s) := by
      rw [hnormal]
      rfl
    rw [bind_of_ok hanswer]
    cases hparent : s.zones.get parent_zone_id with
    | none =>
      rw [bind_of_error (require_node_of_absent _ hparent)]
      exact hs
    | some parent =>
      rw [bind_of_ok (require_node_of_get _ hparent)]
      have hshare := hok normalized parent hnormal hparent
      have hroom := hshare.room
      rw [carried_shared_rows] at hroom
      have hstart : Copying protos s new_zone_id s
          (Copied.mk 0 [] false).nested_mount_targets
          (shared_rows protos new_zone_id normalized (subtree_entries parent normalized)) :=
        { unprotected := hs.unprotected
          grown := .refl s
          hosted := ⟨z, hnew⟩
          kept _ := rfl
          owed := hs.balanced
          plain _ := shared_rows_plain
          clear := hshare.clear
          accepted h := absurd rfl h
          lasting := hshare.lasting }
      obtain ⟨result, s₁, hcopy, ⟨seen, rfl, hcopying, htargets, hroot⟩ | ⟨⟨error, rfl⟩, hexact⟩⟩ :=
        copy_entries_spec hdoc normalized _ _ hstart
      · rw [bind_of_ok hcopy]
        -- The targets are owed in the order in which they were seen, from last to first.
        have hcount {s₂ : Node}
            (h : Copying protos s new_zone_id s₂ seen.nested_mount_targets []) :
            ∃ s', count_nested seen.nested_mount_targets.reverse s₂ = (.ok (), s') ∧
              s'.Exact protos := by
          rw [htargets, append_nil] at h ⊢
          refine h.count_nested hs (fun target htarget => ?_) fun id => ?_
          · exact hosted_of_copied hs hparent (mem_reverse.mp htarget)
          · rw [count_reverse]
            exact hroom id
        rw [Bool.false_or] at hroot
        cases hwritten : seen.root_written with
        | true =>
          rw [if_pos (hroot.symm.trans hwritten)] at hcopying
          obtain ⟨s', hres, hexact⟩ := hcount hcopying
          rw [if_neg (by simp), bind_of_ok hres]
          exact hexact
        | false =>
          rw [if_neg (by simp [← hroot, hwritten])] at hcopying
          rw [if_pos (by simp)]
          obtain ⟨result, s₂, hwrite, hcases⟩ := hcopying.write hdoc
          change propose_set_metadata new_zone_id "/"
            (encode_file_metadata protos "/" DT_DIR new_zone_id "") s₁ = (result, s₂) at hwrite
          rcases hcases with ⟨rfl, hlast⟩ | ⟨⟨error, rfl⟩, hexact⟩
          · rw [carried_root] at hlast
            obtain ⟨s', hres, hexact⟩ := hcount hlast
            rw [bind_of_ok hwrite, bind_of_ok hres]
            exact hexact
          · rw [bind_of_error hwrite]
            exact hexact
      · rw [bind_of_error hcopy]
        exact hexact

end Protos

end NexusVfs.ZoneManager
