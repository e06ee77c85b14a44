/-
The ledger of a node: its mounts against the counters of its zones.

The places are the rows of all zones, the targets the zones that DT_MOUNT rows name. A
proposal is one of the ledger's two operations. Beside that, a call needs to know of its
earlier proposals only that the zones have grown (`Node.Grown`).
-/
import NexusVfs.LinkLedger
import NexusVfs.ZoneManager

namespace NexusVfs.ZoneManager

open Words Text Runs Actions LinkLedger Table Option

/-! ## The ledger of a node -/

/-- The rows in which the state machine itself keeps numbers. -/
def is_number_row (path : String) : Bool := path = I_LINKS_COUNT_KEY || path = KEY_LAST_APPLIED

section Protos

variable (protos : Protos)

/-- The zone that a DT_MOUNT row mounts. No zone has an empty name. -/
def mount_target (bytes : Bytes) : Option String :=
  match protos.decode bytes with
  | .ok entry =>
    if entry.entry_type = DT_MOUNT ∧ entry.target_zone_id ≠ "" then some entry.target_zone_id else none
  | .error _ => none

def Zone.mount_at (z : Zone) (path : String) : Option String :=
  if is_number_row path then none else (z.store.metadata.get path).bind (mount_target protos)

/-- The mount at a place: a zone and a path in it. -/
def Node.mount_at (s : Node) (place : String × String) : Option String :=
  (s.zones.get place.1).bind fun z => z.mount_at protos place.2

/-- The counter as it is read; a zone that is not hosted has none. -/
def Node.links (s : Node) (zone_id : String) : ℤ := ((get_links_count s zone_id).getD 0).toInt

theorem Node.finite_mounts (s : Node) : {place | s.mount_at protos place ≠ none}.Finite := by
  let rows : List (String × String) := (s.zones.scan fun _ => true).flatMap fun zone =>
    (zone.2.store.metadata.scan fun _ => true).map fun row => (zone.1, row.1)
  refine rows.finite_toSet.subset ?_
  rintro ⟨zone_id, path⟩ hplace
  obtain ⟨target, htarget⟩ := ne_none_iff_exists'.mp hplace
  obtain ⟨z, hz, hmount⟩ := bind_eq_some_iff.mp htarget
  unfold Zone.mount_at at hmount
  split_ifs at hmount
  obtain ⟨bytes, hbytes, -⟩ := bind_eq_some_iff.mp hmount
  refine List.mem_flatMap.mpr ⟨(zone_id, z), mem_scan.mpr ⟨rfl, hz⟩, ?_⟩
  exact List.mem_map.mpr ⟨(path, bytes), mem_scan.mpr ⟨rfl, hbytes⟩, rfl⟩

def ledger (s : Node) : Ledger (String × String) String where
  refs := s.mount_at protos
  counts := s.links
  finite := s.finite_mounts protos

variable {s : Node} {zone_id : String} {z : Zone}

theorem Node.links_of_get (h : s.zones.get zone_id = some z) : s.links zone_id = z.links.toInt := by
  unfold links get_links_count
  rw [h]
  rfl

theorem Node.links_of_absent (h : s.zones.get zone_id = none) : s.links zone_id = 0 := by
  unfold links get_links_count
  rw [h]
  rfl

theorem ledger_insert_set {key : String} {z' : Zone} {target : Option String}
    (hz : s.zones.get zone_id = some z) (hlinks : z'.links = z.links)
    (hmounts : ∀ path, z'.mount_at protos path =
      if path = key then target else z.mount_at protos path) :
    ledger protos { s with zones := s.zones.insert zone_id z' } =
      (ledger protos s).set (zone_id, key) target := by
  apply Ledger.ext
  · funext ⟨id, path⟩
    rw [Ledger.refs_set]
    unfold ledger Node.mount_at
    dsimp only
    rw [get_insert]
    by_cases hid : id = zone_id
    · subst hid
      rw [hz]
      simp [hmounts]
    · rw [if_neg hid, if_neg (by simp [hid])]
  · funext id
    show Node.links _ id = s.links id
    unfold Node.links get_links_count
    rw [get_insert]
    split_ifs with hid
    · rw [hid, hz]
      simp [hlinks]
    · rfl

theorem ledger_insert_same {z' : Zone} (hz : s.zones.get zone_id = some z)
    (hlinks : z'.links = z.links)
    (hmounts : ∀ path, z'.mount_at protos path = z.mount_at protos path) :
    ledger protos { s with zones := s.zones.insert zone_id z' } = ledger protos s := by
  have hcounter (path : String) : z'.mount_at protos path =
      if path = I_LINKS_COUNT_KEY then none else z.mount_at protos path := by
    rw [hmounts]
    split_ifs with hpath
    · simp [hpath, Zone.mount_at, is_number_row]
    · rfl
  rw [ledger_insert_set protos hz hlinks hcounter]
  apply Ledger.ext
  · funext ⟨id, path⟩
    rw [Ledger.refs_set]
    split_ifs with hplace
    · obtain ⟨rfl, rfl⟩ := Prod.mk.inj hplace
      show none = s.mount_at protos _
      simp [Node.mount_at, Zone.mount_at, is_number_row]
    · rfl
  · rfl

end Protos

/-! ## What a committed command does to a zone -/

/-- What the calls below rely on between their proposals: no path becomes protected or tracked, and
no row disappears. -/
structure Zone.Grown (z z' : Zone) : Prop where
  policy : ∀ path, z'.store.control (.policy path) = z.store.control (.policy path)
  tracked : ∀ path, (revision_in_txn z'.store path).isSome → (revision_in_txn z.store path).isSome
  rows : ∀ path, (z.store.metadata.get path).isSome → (z'.store.metadata.get path).isSome

def Zone.Free (z : Zone) (path : String) : Prop :=
  z.store.control (.policy path) = none ∧
    ¬ (is_managed_content_path path = true ∧ (revision_in_txn z.store path).isSome)

theorem Zone.Grown.refl (z : Zone) : z.Grown z := ⟨fun _ => rfl, fun _ h => h, fun _ h => h⟩

variable {z z' : Zone} {s s' : Node} {zone_id : String}

theorem Zone.Grown.trans {z'' : Zone} (h : z.Grown z') (h' : z'.Grown z'') : z.Grown z'' where
  policy path := (h'.policy path).trans (h.policy path)
  tracked path ht := h.tracked path (h'.tracked path ht)
  rows path hr := h'.rows path (h.rows path hr)

variable {path key : String} {place : String × String}

theorem Zone.Grown.free (h : z.Grown z') (hfree : z.Free path) : z'.Free path := by
  refine ⟨(h.policy path).trans hfree.1, fun ht => hfree.2 ⟨ht.1, h.tracked path ht.2⟩⟩

theorem execute_set_metadata (s : Store) (key : String) (value : Bytes) :
    execute_metadata_in_txn .unreadable s (.SetMetadata key value) =
      (do match ← ordinary_metadata_refusal s key with
          | some refusal => return (refusal, s)
          | none => set_metadata s key value) := rfl

theorem execute_adjust_counter (s : Store) (key : String) (delta : Int64) :
    execute_metadata_in_txn .unreadable s (.AdjustCounter key delta) =
      (do match ← ordinary_metadata_refusal s key with
          | some refusal => return (refusal, s)
          | none => adjust_counter s key delta) := rfl

theorem get_put_marker (s : Store) (index : UInt64) (h : path ≠ KEY_LAST_APPLIED) :
    (put_marker s index).metadata.get path = s.metadata.get path := by
  unfold put_marker
  rw [Store.metadata_put_metadata, get_insert_of_ne _ _ h]

theorem isSome_put_marker (s : Store) (index : UInt64)
    (h : (s.metadata.get path).isSome) : ((put_marker s index).metadata.get path).isSome := by
  by_cases hpath : path = KEY_LAST_APPLIED
  · unfold put_marker
    rw [Store.metadata_put_metadata, hpath, get_insert_self]
    rfl
  · rwa [get_put_marker s index hpath]

theorem Zone.commit_set_metadata {value : Bytes} {r : CommandResult}
    (h : z.commit (.SetMetadata key value) = .ok (r, z')) :
    z.Grown z' ∧ ((r = .Success ∧ ∀ path, path ≠ KEY_LAST_APPLIED →
        z'.store.metadata.get path = if path = key then some value else z.store.metadata.get path) ∨
      ((∃ message, r = .Error message) ∧ ∀ path, path ≠ KEY_LAST_APPLIED →
        z'.store.metadata.get path = z.store.metadata.get path)) := by
  obtain ⟨⟨result, store⟩, hexec, hz⟩ := bind_eq_ok.mp h
  obtain ⟨rfl, rfl⟩ := ok_pair_inj hz
  rw [execute_set_metadata] at hexec
  obtain ⟨refusal, href, hexec⟩ := bind_eq_ok.mp hexec
  cases refusal with
  | some refusal =>
    obtain ⟨rfl, rfl⟩ := ok_pair_inj hexec
    obtain ⟨is_protected, -, hret⟩ := bind_eq_ok.mp href
    have hrefusal := pure_eq_ok.mp hret
    refine ⟨⟨fun _ => rfl, fun _ ht => ht, fun _ hr => isSome_put_marker _ _ hr⟩, .inr ⟨?_, ?_⟩⟩
    · split_ifs at hrefusal
      exact ⟨_, (some.inj hrefusal).symm⟩
    · intro path hpath
      exact get_put_marker _ _ hpath
  | none =>
    obtain ⟨⟨b, s₁⟩, hrefresh, hset⟩ := bind_eq_ok.mp hexec
    obtain ⟨rfl, rfl⟩ := ok_pair_inj hset
    have hmeta : s₁.metadata = z.store.metadata := by
      rcases refresh_tracked_version_ok hrefresh with ⟨-, -, -, token, -, rfl⟩ | ⟨-, rfl, -⟩
      · rfl
      · rfl
    refine ⟨⟨?_, ?_, ?_⟩, .inl ⟨rfl, ?_⟩⟩
    · intro path
      rcases refresh_tracked_version_ok hrefresh with ⟨-, -, -, token, -, rfl⟩ | ⟨-, rfl, -⟩
      · exact (control_advance _ _ _ _).trans (if_neg (by simp))
      · rfl
    · intro path ht
      rcases refresh_tracked_version_ok hrefresh with ⟨-, -, hsome, token, -, rfl⟩ | ⟨-, rfl, -⟩
      · have hadv : (revision_in_txn (advance z.store key token) path).isSome := ht
        rw [revision_advance] at hadv
        split_ifs at hadv with hkey
        · rw [hkey]
          exact hsome
        · exact hadv
      · exact ht
    · intro path hr
      apply isSome_put_marker
      rw [Store.metadata_put_metadata, get_insert, hmeta]
      split_ifs
      · rfl
      · exact hr
    · intro path hpath
      show (put_marker _ _).metadata.get path = _
      rw [get_put_marker _ _ hpath, Store.metadata_put_metadata, get_insert, hmeta]

theorem Zone.commit_set_of_free (value : Bytes) (h : z.Free key) :
    ∃ z', z.commit (.SetMetadata key value) = .ok (.Success, z') := by
  have hord : ordinary_metadata_refusal z.store key = .ok none := by
    unfold ordinary_metadata_refusal protected_in_txn record_policy_in_txn
    rw [h.1]
    rfl
  have hrefresh : refresh_tracked_version z.store key = .ok (false, z.store) := by
    unfold refresh_tracked_version
    split_ifs with hm
    · cases hrev : revision_in_txn z.store key with
      | none => rfl
      | some v => exact absurd ⟨hm, by rw [hrev]; rfl⟩ h.2
    · rfl
  refine ⟨⟨put_marker (z.store.put_metadata key value) (z.last_applied + 1), z.last_applied + 1⟩, ?_⟩
  unfold Zone.commit
  rw [execute_set_metadata, hord]
  dsimp only [bind, Except.bind, set_metadata]
  rw [hrefresh]
  rfl

theorem Zone.commit_adjust_counter (hfree : z.store.control (.policy I_LINKS_COUNT_KEY) = none)
    (delta : Int64) :
    ∃ z', z.commit (.AdjustCounter I_LINKS_COUNT_KEY delta) =
        .ok (.Value (i64_to_be_bytes (max (z.links + delta) 0)), z') ∧ z.Grown z' ∧
      ∀ path, path ≠ KEY_LAST_APPLIED → z'.store.metadata.get path =
        if path = I_LINKS_COUNT_KEY then some (i64_to_be_bytes (max (z.links + delta) 0))
        else z.store.metadata.get path := by
  have hord : ordinary_metadata_refusal z.store I_LINKS_COUNT_KEY = .ok none := by
    unfold ordinary_metadata_refusal protected_in_txn record_policy_in_txn
    rw [hfree]
    rfl
  have hmanaged : is_managed_content_path I_LINKS_COUNT_KEY = false := by decide +kernel
  have hadjust : adjust_counter z.store I_LINKS_COUNT_KEY delta =
      .ok (.Value (i64_to_be_bytes (max (z.links + delta) 0)),
        z.store.put_metadata I_LINKS_COUNT_KEY (i64_to_be_bytes (max (z.links + delta) 0))) := by
    unfold adjust_counter
    rw [if_neg (by simp [hmanaged])]
    rfl
  refine ⟨⟨put_marker (z.store.put_metadata I_LINKS_COUNT_KEY
    (i64_to_be_bytes (max (z.links + delta) 0))) (z.last_applied + 1), z.last_applied + 1⟩, ?_,
    ⟨fun _ => rfl, fun _ ht => ht, ?_⟩, ?_⟩
  · unfold Zone.commit
    rw [execute_adjust_counter, hord]
    rw [hadjust]
    rfl
  · intro path hr
    apply isSome_put_marker
    rw [Store.metadata_put_metadata, get_insert]
    split_ifs
    · rfl
    · exact hr
  · intro path hpath
    show (put_marker _ _).metadata.get path = _
    rw [get_put_marker _ _ hpath, Store.metadata_put_metadata, get_insert]

/-! ## What a proposal does to the node -/

/-- The zones have grown, and nothing else of the node has changed. -/
structure Node.Grown (s s' : Node) : Prop where
  zone : ∀ id z, s.zones.get id = some z → ∃ z', s'.zones.get id = some z' ∧ z.Grown z'
  absent : ∀ id, s.zones.get id = none → s'.zones.get id = none
  pending : s'.pending_mounts = s.pending_mounts
  deleted : s'.deleted_newer_than_disk = s.deleted_newer_than_disk

/-- No zone has its counter protected. Only an absolute path can be. -/
def Node.Unprotected (s : Node) : Prop :=
  ∀ id z, s.zones.get id = some z → z.store.control (.policy I_LINKS_COUNT_KEY) = none

theorem Node.Grown.refl (s : Node) : s.Grown s :=
  ⟨fun _ z hz => ⟨z, hz, .refl z⟩, fun _ h => h, rfl, rfl⟩

theorem Node.Grown.trans {s'' : Node} (h : s.Grown s') (h' : s'.Grown s'') : s.Grown s'' where
  zone id z hz := by
    obtain ⟨z', hz', hgrown⟩ := h.zone id z hz
    obtain ⟨z'', hz'', hgrown'⟩ := h'.zone id z' hz'
    exact ⟨z'', hz'', hgrown.trans hgrown'⟩
  absent id hid := h'.absent id (h.absent id hid)
  pending := h'.pending.trans h.pending
  deleted := h'.deleted.trans h.deleted

theorem Node.Grown.zone_before (h : s.Grown s') {id : String} (hz' : s'.zones.get id = some z') :
    ∃ z, s.zones.get id = some z ∧ z.Grown z' := by
  cases hz : s.zones.get id with
  | none =>
    rw [h.absent id hz] at hz'
    cases hz'
  | some z =>
    obtain ⟨z'', hz'', hgrown⟩ := h.zone id z hz
    obtain rfl : z'' = z' := some.inj (hz''.symm.trans hz')
    exact ⟨z, rfl, hgrown⟩

theorem Node.Grown.unprotected (h : s.Grown s') (hs : s.Unprotected) : s'.Unprotected := by
  intro id z' hz'
  obtain ⟨z, hz, hgrown⟩ := h.zone_before hz'
  exact (hgrown.policy _).trans (hs id z hz)

theorem Node.grown_insert {id : String} (hz : s.zones.get id = some z) (h : z.Grown z') :
    s.Grown { s with zones := s.zones.insert id z' } where
  zone a za hza := by
    rw [get_insert]
    split_ifs with ha
    · obtain rfl : z = za := some.inj (hz.symm.trans (ha ▸ hza))
      exact ⟨z', rfl, h⟩
    · exact ⟨za, hza, .refl za⟩
  absent a ha := by
    rw [get_insert, if_neg]
    · exact ha
    · rintro rfl
      rw [hz] at ha
      cases ha
  pending := rfl
  deleted := rfl

theorem number_row_ne (h : is_number_row path = false) :
    path ≠ I_LINKS_COUNT_KEY ∧ path ≠ KEY_LAST_APPLIED := by
  simpa [is_number_row] using h

theorem Zone.links_congr
    (h : z'.store.metadata.get I_LINKS_COUNT_KEY = z.store.metadata.get I_LINKS_COUNT_KEY) :
    z'.links = z.links := by
  unfold Zone.links
  rw [h]

theorem links_key_ne_marker : I_LINKS_COUNT_KEY ≠ KEY_LAST_APPLIED := by decide +kernel

theorem propose_eq {c : Command} (hz : s.zones.get zone_id = some z)
    {r : Except ZoneError CommandResult} (h : propose zone_id c s = (r, s')) :
    (∃ error, z.commit c = .error error ∧ r = .error (.Apply error) ∧ s' = s) ∨
    (∃ result z', z.commit c = .ok (result, z') ∧ r = .ok result ∧
      s' = { s with zones := s.zones.insert zone_id z' }) := by
  unfold propose at h
  simp only [hz] at h
  cases hcommit : z.commit c with
  | error error =>
    rw [hcommit] at h
    obtain ⟨rfl, rfl⟩ := Prod.mk.inj h
    exact .inl ⟨error, rfl, rfl, rfl⟩
  | ok p =>
    rw [hcommit] at h
    obtain ⟨rfl, rfl⟩ := Prod.mk.inj h
    exact .inr ⟨p.1, p.2, rfl, rfl, rfl⟩

section Protos

variable (protos : Protos)

variable {z : Zone} {s : Node} {zone_id : String}

variable {key : String}

theorem Zone.mount_at_insert {z' : Zone} {value : Bytes} (hkey : is_number_row key = false)
    (h : ∀ path, path ≠ KEY_LAST_APPLIED →
      z'.store.metadata.get path = if path = key then some value else z.store.metadata.get path)
    (path : String) :
    z'.mount_at protos path = if path = key then mount_target protos value else z.mount_at protos path := by
  unfold Zone.mount_at
  by_cases hpath : is_number_row path = true
  · rw [if_pos hpath, if_pos hpath, if_neg]
    rintro rfl
    rw [hkey] at hpath
    cases hpath
  · rw [if_neg hpath, if_neg hpath, h path (number_row_ne (by simpa using hpath)).2]
    split_ifs <;> rfl

variable (hz : s.zones.get zone_id = some z)
include hz

/-- **A proposed row.** It is written, which sets one place of the ledger, or refused. -/
theorem propose_set_metadata_cases (hkey : is_number_row key = false) (value : Bytes) :
    ∃ result s', propose_set_metadata zone_id key value s = (result, s') ∧ s.Grown s' ∧
      ((result = .ok () ∧ ledger protos s' =
          (ledger protos s).set (zone_id, key) (mount_target protos value)) ∨
        ((∃ error, result = .error error) ∧ ledger protos s' = ledger protos s)) := by
  cases hp : propose zone_id (.SetMetadata key value) s with
  | mk r s' =>
    rcases propose_eq hz hp with ⟨error, -, rfl, rfl⟩ | ⟨result, z', hcommit, rfl, rfl⟩
    · refine ⟨.error (.Apply error), s', ?_, .refl s', .inr ⟨⟨_, rfl⟩, rfl⟩⟩
      exact Action.bind_of_error hp
    · obtain ⟨hgrown, ⟨rfl, hrows⟩ | ⟨⟨message, rfl⟩, hrows⟩⟩ := Zone.commit_set_metadata hcommit
      · have hcounter := hrows _ links_key_ne_marker
        rw [if_neg (Ne.symm (number_row_ne hkey).1)] at hcounter
        refine ⟨.ok (), _, Action.bind_of_ok hp, Node.grown_insert hz hgrown, .inl ⟨rfl, ?_⟩⟩
        exact ledger_insert_set protos hz (Zone.links_congr hcounter)
          (Zone.mount_at_insert protos hkey hrows)
      · refine ⟨.error (.Raft message), _, Action.bind_of_ok hp, Node.grown_insert hz hgrown,
          .inr ⟨⟨_, rfl⟩, ?_⟩⟩
        refine ledger_insert_same protos hz (Zone.links_congr (hrows _ links_key_ne_marker))
          fun path => ?_
        unfold Zone.mount_at
        split_ifs with hpath
        · rfl
        · rw [hrows path (number_row_ne (by simpa using hpath)).2]

theorem propose_set_metadata_accepted (hfree : z.Free key) (value : Bytes) :
    ∃ s', propose_set_metadata zone_id key value s = (.ok (), s') := by
  obtain ⟨z', hcommit⟩ := Zone.commit_set_of_free value hfree
  have hp : propose zone_id (.SetMetadata key value) s =
      (.ok .Success, { s with zones := s.zones.insert zone_id z' }) := by
    unfold propose
    simp only [hz, hcommit]
  exact ⟨_, Action.bind_of_ok hp⟩

theorem propose_set_metadata_free
    (hkey : is_number_row key = false) (hfree : z.Free key) (value : Bytes) :
    ∃ s', propose_set_metadata zone_id key value s = (.ok (), s') ∧ s.Grown s' ∧
      ledger protos s' = (ledger protos s).set (zone_id, key) (mount_target protos value) := by
  obtain ⟨s₁, hok⟩ := propose_set_metadata_accepted hz hfree value
  obtain ⟨result, s', hres, hgrown, hcases⟩ := propose_set_metadata_cases protos hz hkey value
  obtain ⟨rfl, rfl⟩ := Prod.mk.inj (hok.symm.trans hres)
  rcases hcases with ⟨-, hledger⟩ | ⟨⟨error, herror⟩, -⟩
  · exact ⟨_, hok, hgrown, hledger⟩
  · cases herror

omit hz in
theorem toInt_max_add {c d : Int64} (hlow : 0 ≤ c.toInt + d.toInt) (hhigh : c.toInt + d.toInt < 2 ^ 63) :
    (max (c + d) 0).toInt = c.toInt + d.toInt := by
  have hadd : (c + d).toInt = c.toInt + d.toInt := by
    rw [Int64.toInt_add]
    exact Int.bmod_eq_of_le (by omega) (by omega)
  show (if c + d ≤ 0 then (0 : Int64) else c + d).toInt = _
  split_ifs with hle
  · rw [Int64.le_iff_toInt_le, hadd, Int64.toInt_zero] at hle
    rw [Int64.toInt_zero]
    omega
  · exact hadd

theorem propose_adjust_counter_of_commit {delta n : Int64}
    (h : z.commit (.AdjustCounter I_LINKS_COUNT_KEY delta) = .ok (.Value (i64_to_be_bytes n), z')) :
    propose_adjust_counter zone_id I_LINKS_COUNT_KEY delta s =
      (.ok n, { s with zones := s.zones.insert zone_id z' }) := by
  have hp : propose zone_id (.AdjustCounter I_LINKS_COUNT_KEY delta) s =
      (.ok (.Value (i64_to_be_bytes n)), { s with zones := s.zones.insert zone_id z' }) := by
    unfold propose
    simp only [hz, h]
  unfold propose_adjust_counter
  rw [Action.bind_of_ok hp]
  simp only [i64_from_to_be_bytes]
  rfl

/-- **A proposed adjustment.** The counter moves by the amount, if it stays in range. -/
theorem propose_adjust_counter_spec (hs : s.Unprotected)
    {delta : Int64} (hlow : 0 ≤ s.links zone_id + delta.toInt)
    (hhigh : s.links zone_id + delta.toInt < 2 ^ 63) :
    ∃ count s', propose_adjust_counter zone_id I_LINKS_COUNT_KEY delta s = (.ok count, s') ∧
      s.Grown s' ∧ ledger protos s' = (ledger protos s).adjust zone_id delta.toInt := by
  rw [Node.links_of_get hz] at hlow hhigh
  obtain ⟨z', hcommit, hgrown, hrows⟩ := Zone.commit_adjust_counter (hs zone_id z hz) delta
  have hlinks : z'.links = max (z.links + delta) 0 := by
    unfold Zone.links
    rw [hrows _ links_key_ne_marker, if_pos rfl]
    simp [Zone.links]
  refine ⟨_, _, propose_adjust_counter_of_commit hz hcommit, Node.grown_insert hz hgrown, ?_⟩
  apply Ledger.ext
  · funext place
    obtain ⟨id, path⟩ := place
    show Node.mount_at protos _ (id, path) = s.mount_at protos (id, path)
    unfold Node.mount_at
    rw [get_insert]
    split_ifs with hid
    · rw [hid, hz]
      -- The one row that has changed holds a number.
      show z'.mount_at protos path = z.mount_at protos path
      unfold Zone.mount_at
      split_ifs with hpath
      · rfl
      · obtain ⟨hcounter, hmarker⟩ := number_row_ne (by simpa using hpath)
        rw [hrows path hmarker, if_neg hcounter]
    · rfl
  · funext id
    rw [Ledger.counts_adjust]
    show Node.links _ id = s.links id + _
    by_cases hid : id = zone_id
    · subst hid
      have hget : ({ s with zones := s.zones.insert id z' } : Node).zones.get id = some z' :=
        get_insert_self _ _ _
      rw [Node.links_of_get hget, Node.links_of_get hz, hlinks, toInt_max_add hlow hhigh, if_pos rfl]
    · rw [if_neg hid, add_zero]
      unfold Node.links get_links_count
      rw [get_insert_of_ne _ _ hid]

omit hz

end Protos

/-! ## Rows that a proposal leaves alone -/

def Node.row (s : Node) (place : String × String) : Option Bytes :=
  (s.zones.get place.1).bind fun z => z.store.metadata.get place.2

theorem Node.row_of_get (h : s.zones.get zone_id = some z) (path : String) :
    s.row (zone_id, path) = z.store.metadata.get path := by
  unfold Node.row
  rw [h]
  rfl

variable (hz : s.zones.get zone_id = some z)
include hz

theorem Node.row_insert_of_same
    (h : place.1 = zone_id → z'.store.metadata.get place.2 = z.store.metadata.get place.2) :
    ({ s with zones := s.zones.insert zone_id z' } : Node).row place = s.row place := by
  unfold Node.row
  rw [get_insert]
  split_ifs with hid
  · rw [hid, hz]
    exact h hid
  · rfl

theorem propose_set_metadata_row {value : Bytes} {result : Except ZoneError Unit}
    (h : propose_set_metadata zone_id key value s = (result, s'))
    (hplace : is_number_row place.2 = false) :
    s'.row place = if place = (zone_id, key) ∧ result.isOk = true then some value else s.row place := by
  cases hp : propose zone_id (.SetMetadata key value) s with
  | mk r s₁ =>
    rcases propose_eq hz hp with ⟨error, -, rfl, rfl⟩ | ⟨answer, z', hcommit, rfl, rfl⟩
    · obtain ⟨rfl, rfl⟩ := Prod.mk.inj ((Action.bind_of_error hp).symm.trans h)
      exact (if_neg fun hc => nomatch hc.2).symm
    · obtain ⟨-, ⟨rfl, hrows⟩ | ⟨⟨message, rfl⟩, hrows⟩⟩ := Zone.commit_set_metadata hcommit
      · obtain ⟨rfl, rfl⟩ := Prod.mk.inj ((Action.bind_of_ok hp).symm.trans h)
        by_cases hself : place = (zone_id, key)
        · subst hself
          rw [if_pos ⟨rfl, rfl⟩, Node.row_of_get (get_insert_self _ _ _),
            hrows key (number_row_ne hplace).2, if_pos rfl]
        · rw [if_neg fun hc => hself hc.1]
          refine Node.row_insert_of_same hz fun hid => ?_
          rw [hrows _ (number_row_ne hplace).2, if_neg]
          intro hkey
          exact hself (Prod.ext hid hkey)
      · obtain ⟨rfl, rfl⟩ := Prod.mk.inj ((Action.bind_of_ok hp).symm.trans h)
        rw [if_neg fun hc => nomatch hc.2]
        exact Node.row_insert_of_same hz fun _ => hrows _ (number_row_ne hplace).2

theorem propose_adjust_counter_row {delta : Int64} {result : Except ZoneError Int64} (hs : s.Unprotected)
    (h : propose_adjust_counter zone_id I_LINKS_COUNT_KEY delta s = (result, s'))
    (hplace : is_number_row place.2 = false) : s'.row place = s.row place := by
  obtain ⟨z', hcommit, -, hrows⟩ := Zone.commit_adjust_counter (hs zone_id z hz) delta
  obtain ⟨-, rfl⟩ := Prod.mk.inj ((propose_adjust_counter_of_commit hz hcommit).symm.trans h)
  refine Node.row_insert_of_same hz fun _ => ?_
  rw [hrows _ (number_row_ne hplace).2, if_neg (number_row_ne hplace).1]

omit hz

end NexusVfs.ZoneManager
