/-
A pass over the declared topology, and the link counts.

What it does to one zone's count is nothing or the maximum with the number of its
pending declarations (`apply_declarations_spec`), while the number of mounts moves by
what its declarations newly mount and replace (`gain`).
-/
import NexusVfs.LinkCounts

namespace NexusVfs.ZoneManager

open List Words Text Runs Actions Actions.Action LinkLedger Table

section Protos

variable {protos : Protos}

/-! ## The steps of a declaration -/

variable {bytes : Bytes} {s s' s₁ : Node} {zone_id : String} {z : Zone} {place : String × String}
variable {entry : FileMetadata} {expected : String → Int64} {pass : Pass}

theorem i64_from_long_bytes (h : 8 < bytes.length) : i64_from_be_bytes bytes = none := by
  unfold i64_from_be_bytes u64_from_be_bytes
  rw [if_neg (by omega)]
  rfl

/-- A directory at an absent key changes no mount and no counter, whichever key it is. -/
theorem propose_missing_directory {key : String}
    (hdoc : protos.Documented) (hz : s.zones.get zone_id = some z)
    (habsent : z.store.metadata.get key = none) :
    ∃ result s', propose_set_metadata zone_id key
        (encode_file_metadata protos key DT_DIR zone_id "") s = (result, s') ∧ s.Grown s' ∧
      ledger protos s' = ledger protos s := by
  cases hkey : is_number_row key with
  | false => exact propose_directory hdoc hz hkey (mount_at_of_absent hz habsent)
  | true =>
    have hlong : 8 < (encode_file_metadata protos I_LINKS_COUNT_KEY DT_DIR zone_id "").length := by
      have hpath : (as_bytes I_LINKS_COUNT_KEY).length = 17 := by decide +kernel
      have hholds := hdoc.holds_path ⟨I_LINKS_COUNT_KEY, DT_DIR, zone_id, "", "", []⟩
      dsimp only at hholds
      unfold encode_file_metadata
      omega
    cases hp : propose zone_id (.SetMetadata key
        (encode_file_metadata protos key DT_DIR zone_id "")) s with
    | mk r s' =>
      rcases propose_eq hz hp with ⟨error, -, rfl, rfl⟩ | ⟨answer, z', hcommit, rfl, rfl⟩
      · exact ⟨_, s', bind_of_error hp, .refl s', rfl⟩
      · obtain ⟨hgrown, hrows⟩ := Zone.commit_set_metadata hcommit
        have hledger : ledger protos { s with zones := s.zones.insert zone_id z' } =
            ledger protos s := by
          apply ledger_insert_same protos hz
          · rcases hrows with ⟨-, hrows⟩ | ⟨-, hrows⟩
            · have hcounter := hrows _ links_key_ne_marker
              split_ifs at hcounter with hlinks
              · -- The counter's row was absent and now holds no number.
                unfold Zone.links
                rw [hcounter, hlinks, habsent, ← hlinks]
                show (i64_from_be_bytes _).getD 0 = 0
                rw [i64_from_long_bytes hlong]
                rfl
              · exact Zone.links_congr hcounter
            · exact Zone.links_congr (hrows _ links_key_ne_marker)
          · intro path
            unfold Zone.mount_at
            split_ifs with hpath
            · rfl
            · have hne := (number_row_ne (by simpa using hpath)).2
              rcases hrows with ⟨-, hrows⟩ | ⟨-, hrows⟩
              · rw [hrows path hne, if_neg]
                rintro rfl
                exact hpath hkey
              · rw [hrows path hne]
        rcases hrows with ⟨rfl, -⟩ | ⟨⟨message, rfl⟩, -⟩
        · exact ⟨.ok (), _, bind_of_ok hp, Node.grown_insert hz hgrown, hledger⟩
        · exact ⟨.error (.Raft message), _, bind_of_ok hp, Node.grown_insert hz hgrown,
            hledger⟩

/-- The row is as it was, or it was absent and is a directory now. -/
def Settled (protos : Protos) (s s' : Node) (place : String × String) : Prop :=
  s'.row place = s.row place ∨ s.row place = none ∧
    ∃ bytes entry, s'.row place = some bytes ∧ protos.decode bytes = .ok entry ∧
      entry.entry_type = DT_DIR

def SettledBut (protos : Protos) (s s' : Node) (own : String × String) : Prop :=
  ∀ place, place ≠ own → is_number_row place.2 = false → Settled protos s s' place

theorem Settled.trans {s'' : Node} (h : Settled protos s s' place)
    (h' : Settled protos s' s'' place) : Settled protos s s'' place := by
  rcases h with h | ⟨habsent, bytes, entry, hrow, hdec, htype⟩
  · rcases h' with h' | ⟨habsent, hdir⟩
    · exact .inl (h'.trans h)
    · exact .inr ⟨h.symm.trans habsent, hdir⟩
  · rcases h' with h' | ⟨habsent', -⟩
    · exact .inr ⟨habsent, bytes, entry, h'.trans hrow, hdec, htype⟩
    · rw [hrow] at habsent'
      cases habsent'

theorem ensure_dir_entry_spec (hdoc : protos.Documented) (s : Node) (deferred : Bool)
    (zone_id key : String) :
    ∃ ready s', ensure_dir_entry protos deferred zone_id key s = (.ok ready, s') ∧ s.Grown s' ∧
      ledger protos s' = ledger protos s ∧
      (∀ place, is_number_row place.2 = false → Settled protos s s' place) ∧
      ((s.row (zone_id, key)).isSome → ready = true) ∧
      (deferred = false → ∀ z, s.zones.get zone_id = some z → z.Free key → ready = true) ∧
      (deferred = true → s.row (zone_id, key) = none → ready = false) := by
  have hsame (place : String × String) : Settled protos s s place := .inl rfl
  unfold ensure_dir_entry
  cases hz : s.zones.get zone_id with
  | none =>
    refine ⟨false, s, rfl, .refl s, rfl, fun place _ => hsame place, ?_,
      (fun _ _ h => by cases h), fun _ _ => rfl⟩
    intro hrow
    simp [Node.row, hz] at hrow
  | some z =>
    have hrow := Node.row_of_get hz key
    cases hget : z.store.metadata.get key with
    | some bytes =>
      refine ⟨true, s, by simp [hget], .refl s, rfl, fun place _ => hsame place, fun _ => rfl,
        fun _ _ _ _ => rfl, fun _ habsent => ?_⟩
      rw [hrow, hget] at habsent
      cases habsent
    | none =>
      rw [hget] at hrow
      cases deferred with
      | true =>
        refine ⟨false, s, by simp [hget], .refl s, rfl, fun place _ => hsame place, ?_,
          (fun h => by cases h), fun _ _ => rfl⟩
        intro hpresent
        rw [hrow] at hpresent
        cases hpresent
      | false =>
        obtain ⟨result, s', hres, hgrown, hledger⟩ := propose_missing_directory hdoc hz hget
        have hrows {place : String × String} (hplace : is_number_row place.2 = false) :=
          propose_set_metadata_row hz hres hplace
        cases result with
        | ok u =>
          refine ⟨true, s', by simp [hget, hres], hgrown, hledger, fun place hplace => ?_,
            fun _ => rfl, fun _ _ _ _ => rfl, fun h => by cases h⟩
          have hwritten := hrows hplace
          split_ifs at hwritten with hself
          · exact .inr ⟨hself.1 ▸ hrow, _, _, hwritten, hdoc.round_trip _, rfl⟩
          · exact .inl hwritten
        | error error =>
          refine ⟨false, s', by simp [hget, hres], hgrown, hledger, fun place hplace =>
            .inl ((hrows hplace).trans (if_neg fun hc => by cases hc.2)), ?_, ?_, fun h => by cases h⟩
          · intro hpresent
            rw [hrow] at hpresent
            cases hpresent
          · intro _ z' hz' hfree
            obtain rfl : z = z' := Option.some.inj hz'
            obtain ⟨s₁, hok⟩ := propose_set_metadata_accepted hz hfree
              (encode_file_metadata protos key DT_DIR zone_id "")
            cases hok.symm.trans hres

theorem toInt_sub_of_nonneg {c d : Int64} (hc : 0 ≤ c.toInt) (hd : 0 ≤ d.toInt) :
    (c - d).toInt = c.toInt - d.toInt := by
  have hc' := c.toInt_lt
  have hd' := d.toInt_lt
  rw [Int64.toInt_sub]
  exact Int.bmod_eq_of_le (by omega) (by omega)

variable (protos) in
theorem ensure_links_count_spec
    (hz : s.zones.get zone_id = some z) (hs : s.Unprotected) (hnonneg : 0 ≤ s.links zone_id)
    {expected : Int64} (hexpected : 0 ≤ expected.toInt) (deferred : Bool) :
    ∃ result s' amount, ensure_links_count deferred zone_id expected s = (result, s') ∧ s.Grown s' ∧
      (∀ place, is_number_row place.2 = false → s'.row place = s.row place) ∧
      ledger protos s' = (ledger protos s).adjust zone_id amount ∧
      amount = if deferred then 0 else max (s.links zone_id) expected.toInt - s.links zone_id := by
  have hlinks := Node.links_of_get hz
  have hkeep : ledger protos s = (ledger protos s).adjust zone_id 0 := (Ledger.adjust_zero _ _).symm
  unfold ensure_links_count raise_links
  rw [bind_of_ok (require_node_of_get _ hz)]
  by_cases hle : expected ≤ z.links
  · rw [if_pos hle]
    refine ⟨.ok (), s, 0, rfl, .refl s, fun _ _ => rfl, hkeep, ?_⟩
    rw [Int64.le_iff_toInt_le, ← hlinks] at hle
    split_ifs
    · rfl
    · rw [max_eq_left hle, sub_self]
  · rw [if_neg hle]
    cases deferred with
    | true => exact ⟨.error deferral, s, 0, rfl, .refl s, fun _ _ => rfl, hkeep, rfl⟩
    | false =>
      rw [if_neg (by simp)]
      have hlt : s.links zone_id < expected.toInt := by
        rw [Int64.le_iff_toInt_le, ← hlinks] at hle
        omega
      have hdelta : (expected - z.links).toInt = expected.toInt - s.links zone_id := by
        rw [toInt_sub_of_nonneg hexpected (hlinks ▸ hnonneg), hlinks]
      have hbound := expected.toInt_lt
      have hlow : 0 ≤ s.links zone_id + (expected - z.links).toInt := by omega
      obtain ⟨count, s₁, hadjust, hgrown, hledger⟩ := propose_adjust_counter_spec protos hz hs hlow
        (by omega)
      have hrows {place : String × String} (hplace : is_number_row place.2 = false) :=
        propose_adjust_counter_row hz hs hadjust hplace
      obtain ⟨z₁, hz₁, -⟩ := hgrown.zone _ _ hz
      rw [bind_of_ok hadjust]
      -- The second reading finds the counter raised.
      have hraised : s₁.links zone_id = expected.toInt := by
        have hcount : s₁.links zone_id = ((ledger protos s).adjust zone_id
            (expected - z.links).toInt).counts zone_id := congrFun (congrArg Ledger.counts hledger) _
        rw [hcount, Ledger.counts_adjust, if_pos rfl, hdelta]
        show s.links zone_id + _ = _
        omega
      have hdone : expected ≤ z₁.links := by
        rw [Int64.le_iff_toInt_le, ← Node.links_of_get hz₁, hraised]
      unfold raise_links
      rw [bind_of_ok (require_node_of_get _ hz₁), if_pos hdone]
      refine ⟨.ok (), s₁, _, rfl, hgrown, fun place hplace => hrows hplace, hledger, ?_⟩
      rw [if_neg (by simp), max_eq_right hlt.le, hdelta]

/-! ## One declaration -/

structure Declaration where
  path : String
  decl : MountDecl
  place : String × String

variable (protos) in
def mounted (s : Node) (d : Declaration) : Bool :=
  match s.row d.place with
  | none => false
  | some bytes =>
    match protos.decode bytes with
    | .ok entry =>
      entry.entry_type = DT_MOUNT && entry.target_zone_id = d.decl.zone &&
        entry.target_subtree = d.decl.subtree
    | .error _ => false

variable (protos) in
def lands (s : Node) (pass : Pass) (d : Declaration) : Bool :=
  mounted protos s d || !((pass.deferred d.path).first || (pass.deferred d.path).last)

variable (protos) in
def raises (s : Node) (pass : Pass) (d : Declaration) : Bool :=
  lands protos s pass d && !(pass.deferred d.path).links

/-- The directory that it exposes does not hold it up. -/
def subtree_ready (s : Node) (pass : Pass) (d : Declaration) : Bool :=
  d.decl.subtree = VFS_ROOT || (s.row (d.decl.zone, d.decl.subtree)).isSome ||
    !(pass.deferred d.path).subtree

variable (protos) in
/-- The writes of the declaration are possible: both zones are hosted, its rows are not protected,
and what stands at its place can be read. -/
structure Writable (s : Node) (d : Declaration) : Prop where
  named : d.decl.zone ≠ ""
  plain : is_number_row d.place.2 = false
  parent : ∃ z, s.zones.get d.place.1 = some z ∧ z.Free d.place.2
  target : ∃ z, s.zones.get d.decl.zone = some z ∧ z.Free d.decl.subtree
  readable : ∀ bytes, s.row d.place = some bytes → ∃ entry, protos.decode bytes = .ok entry

variable {d : Declaration}

theorem mounted_of_row
    (hrow : s.row d.place = some bytes) (hdec : protos.decode bytes = .ok entry) :
    mounted protos s d = true ↔ entry.entry_type = DT_MOUNT ∧ entry.target_zone_id = d.decl.zone ∧
      entry.target_subtree = d.decl.subtree := by
  unfold mounted
  simp [hrow, hdec, and_assoc]

theorem mounted_of_absent (hrow : s.row d.place = none) : mounted protos s d = false := by
  unfold mounted
  rw [hrow]

theorem mounted_of_settled (h : Settled protos s s' d.place) :
    mounted protos s' d = mounted protos s d := by
  rcases h with hsame | ⟨habsent, bytes, entry, hrow, hdec, htype⟩
  · unfold mounted
    rw [hsame]
  · rw [mounted_of_absent habsent, Bool.eq_false_iff]
    intro hmounted
    have hmount := ((mounted_of_row hrow hdec).mp hmounted).1
    rw [htype] at hmount
    exact absurd hmount (by decide)

theorem Writable.grown (h : Writable protos s d) (hgrown : s.Grown s')
    (hsettled : Settled protos s s' d.place) : Writable protos s' d where
  named := h.named
  plain := h.plain
  parent := by
    obtain ⟨z, hz, hfree⟩ := h.parent
    obtain ⟨z', hz', hzz'⟩ := hgrown.zone _ _ hz
    exact ⟨z', hz', hzz'.free hfree⟩
  target := by
    obtain ⟨z, hz, hfree⟩ := h.target
    obtain ⟨z', hz', hzz'⟩ := hgrown.zone _ _ hz
    exact ⟨z', hz', hzz'.free hfree⟩
  readable := by
    intro bytes hrow
    rcases hsettled with hsame | ⟨-, bytes', entry, hrow', hdec, -⟩
    · exact h.readable bytes (hsame.symm.trans hrow)
    · obtain rfl : bytes' = bytes := Option.some.inj (hrow'.symm.trans hrow)
      exact ⟨entry, hdec⟩

variable (hdoc : protos.Documented) (h : Writable protos s d)
include hdoc h

/-- **The entry of a declaration.** If it lands, its place refers to its zone; if not, no place has
changed what it refers to. -/
theorem write_mount_entry_spec (pass : Pass) :
    ∃ result s', write_mount_entry protos (pass.deferred d.path) d.place.1 d.place.2 d.decl.zone
        d.decl.subtree s = (result, s') ∧ s.Grown s' ∧
      (∀ place, place ≠ d.place → is_number_row place.2 = false → s'.row place = s.row place) ∧
      if lands protos s pass d then
        result = .ok () ∧ ledger protos s' = (ledger protos s).set d.place (some d.decl.zone)
      else (∃ error, result = .error error) ∧ ledger protos s' = ledger protos s := by
  obtain ⟨z, hz, hfree⟩ := h.parent
  have hrow := Node.row_of_get hz d.place.2
  have hmount := mount_target_mount hdoc d.place.2 d.place.1 d.decl.subtree h.named
  unfold write_mount_entry
  rw [bind_of_ok (require_node_of_get _ hz)]
  rcases existing_entry_cases z d.place.2 s with
    ⟨hget, hread⟩ | ⟨bytes, entry, hget, hdec, hread⟩ | ⟨bytes, error, hget, hdec, -⟩
  · rw [bind_of_ok hread]
    dsimp only
    rw [hget] at hrow
    have hnot : mounted protos s d = false := mounted_of_absent hrow
    cases hfirst : (pass.deferred d.path).first with
    | true =>
      refine ⟨_, s, rfl, .refl s, fun _ _ _ => rfl, ?_⟩
      simp [lands, hnot, hfirst]
    | false =>
      obtain ⟨s₁, hres, hgrown, hledger⟩ := propose_set_metadata_free protos hz h.plain hfree
        (encode_file_metadata protos d.place.2 DT_DIR d.place.1 "")
      rw [mount_target_directory hdoc, Ledger.set_same (mount_at_of_absent hz hget)] at hledger
      have hrows {place : String × String} (hne : place ≠ d.place)
          (hplace : is_number_row place.2 = false) : s₁.row place = s.row place :=
        (propose_set_metadata_row hz hres hplace).trans (if_neg fun hc => hne hc.1)
      rw [if_neg (by simp), bind_of_ok hres]
      cases hlast : (pass.deferred d.path).last with
      | true =>
        refine ⟨_, s₁, rfl, hgrown, fun _ hne hplace => hrows hne hplace, ?_⟩
        simp [lands, hnot, hlast, hledger]
      | false =>
        obtain ⟨z₁, hz₁, hgrown₁⟩ := hgrown.zone _ _ hz
        obtain ⟨s₂, hres₂, hgrown₂, hledger₂⟩ := propose_set_metadata_free protos hz₁ h.plain
          (hgrown₁.free hfree)
          (encode_mount_metadata protos d.place.2 d.place.1 d.decl.zone d.decl.subtree)
        refine ⟨.ok (), s₂, ?_, hgrown.trans hgrown₂, fun place hne hplace => ?_, ?_⟩
        · rw [if_neg (by simp)]
          exact hres₂
        · refine (propose_set_metadata_row hz₁ hres₂ hplace).trans ?_
          rw [if_neg fun hc => hne hc.1, hrows hne hplace]
        · rw [if_pos (by simp [lands, hfirst, hlast])]
          exact ⟨rfl, by rw [hledger₂, hledger, hmount]⟩
  · rw [bind_of_ok hread]
    dsimp only
    rw [hget] at hrow
    by_cases hthere : mounted protos s d = true
    · have hentry := (mounted_of_row hrow hdec).mp hthere
      rw [if_pos hentry]
      refine ⟨.ok (), s, rfl, .refl s, fun _ _ _ => rfl, ?_⟩
      rw [if_pos (by simp [lands, hthere])]
      refine ⟨rfl, (Ledger.set_same ?_).symm⟩
      obtain ⟨z, hz, hget⟩ := Option.bind_eq_some_iff.mp hrow
      show s.mount_at protos d.place = _
      rw [mount_at_of_entry hz h.plain hget hdec, if_pos ⟨hentry.1, hentry.2.1 ▸ h.named⟩, hentry.2.1]
    · rw [if_neg fun hentry => hthere ((mounted_of_row hrow hdec).mpr hentry)]
      cases hflags : ((pass.deferred d.path).first || (pass.deferred d.path).last) with
      | true =>
        refine ⟨_, s, rfl, .refl s, fun _ _ _ => rfl, ?_⟩
        rw [if_neg (by simp [lands, hthere, hflags])]
        exact ⟨⟨_, rfl⟩, rfl⟩
      | false =>
        obtain ⟨s₁, hres, hgrown, hledger⟩ := propose_set_metadata_free protos hz h.plain hfree
          (encode_mount_metadata protos d.place.2 d.place.1 d.decl.zone d.decl.subtree)
        refine ⟨.ok (), s₁, ?_, hgrown, fun place hne hplace => ?_, ?_⟩
        · rw [if_neg (by simp)]
          exact hres
        · exact (propose_set_metadata_row hz hres hplace).trans (if_neg fun hc => hne hc.1)
        · rw [if_pos (by simp [lands, hflags])]
          exact ⟨rfl, by rw [hledger, hmount]⟩
  · obtain ⟨entry, hok⟩ := h.readable bytes (hrow.trans hget)
    rw [hdec] at hok
    cases hok

theorem expose_subtree_spec (hgrown : s.Grown s₁) (pass : Pass) :
    ∃ ready s₂, expose_subtree protos (pass.deferred d.path).subtree d.decl s₁ = (.ok ready, s₂) ∧
      s₁.Grown s₂ ∧ ledger protos s₂ = ledger protos s₁ ∧
      (∀ place, is_number_row place.2 = false → Settled protos s₁ s₂ place) ∧
      (subtree_ready s pass d = true → ready = true) := by
  unfold expose_subtree
  by_cases hroot : d.decl.subtree = VFS_ROOT
  · rw [if_pos hroot]
    exact ⟨true, s₁, rfl, .refl s₁, rfl, fun _ _ => .inl rfl, fun _ => rfl⟩
  · rw [if_neg hroot]
    obtain ⟨ready, s₂, hdir, hgrown₂, hledger₂, hsettled₂, hpresent, hfree, -⟩ :=
      ensure_dir_entry_spec hdoc s₁ (pass.deferred d.path).subtree d.decl.zone d.decl.subtree
    refine ⟨ready, s₂, hdir, hgrown₂, hledger₂, hsettled₂, fun hsub => ?_⟩
    obtain ⟨zt, hzt, hztfree⟩ := h.target
    obtain ⟨zt₁, hzt₁, hztgrown⟩ := hgrown.zone _ _ hzt
    simp only [subtree_ready, Bool.or_eq_true, decide_eq_true_eq, Bool.not_eq_true'] at hsub
    rcases hsub with (hsub | hsub) | hsub
    · exact absurd hsub hroot
    · apply hpresent
      rw [Node.row_of_get hzt] at hsub
      rw [Node.row_of_get hzt₁]
      exact hztgrown.rows _ hsub
    · exact hfree hsub zt₁ hzt₁ (hztgrown.free hztfree)

variable (protos s pass expected d) in
/-- What the declaration adds to its zone's count: nothing, or what is missing to the expected number. -/
structure Raise (amount : ℤ) : Prop where
  count : amount = 0 ∨
    s.links d.decl.zone + amount = max (s.links d.decl.zone) (expected d.decl.zone).toInt
  kept : raises protos s pass d = false → amount = 0
  raised : raises protos s pass d = true → subtree_ready s pass d = true →
    s.links d.decl.zone + amount = max (s.links d.decl.zone) (expected d.decl.zone).toInt

/-- **One declaration.** Its place is set if it lands, and its zone's count either stays or becomes
the maximum with the expected number. -/
theorem apply_declaration_spec (hs : s.Unprotected) (pass : Pass)
    (hnonneg : 0 ≤ s.links d.decl.zone) (hexpected : 0 ≤ (expected d.decl.zone).toInt) :
    ∃ done s' amount, apply_declaration protos (pass.deferred d.path) expected d.place d.decl s =
        (.ok done, s') ∧ s.Grown s' ∧ SettledBut protos s s' d.place ∧
      ledger protos s' = ((ledger protos s).set d.place
        (if lands protos s pass d then some d.decl.zone else s.mount_at protos d.place)).adjust
          d.decl.zone amount ∧ Raise protos s expected pass d amount := by
  obtain ⟨result, s₁, hres, hgrown, hrows, hentry⟩ := write_mount_entry_spec hdoc h pass
  have hsettled : SettledBut protos s s₁ d.place := fun place hne hplace => .inl (hrows place hne hplace)
  unfold apply_declaration
  rw [bind_attempt hres]
  cases hlands : lands protos s pass d with
  | false =>
    rw [hlands] at hentry
    obtain ⟨⟨error, rfl⟩, hledger⟩ := hentry
    refine ⟨false, s₁, 0, rfl, hgrown, hsettled, ?_, .inl rfl, fun _ => rfl, ?_⟩
    · rw [Ledger.adjust_zero, hledger]
      exact (Ledger.set_same rfl).symm
    · simp [raises, hlands]
  | true =>
    rw [hlands] at hentry
    obtain ⟨rfl, hledger⟩ := hentry
    dsimp only
    obtain ⟨ready, s₂, hdir, hgrown₂, hledger₂, hsettled₂, hready⟩ :=
      expose_subtree_spec hdoc h hgrown pass
    rw [bind_of_ok hdir]
    have hledger₁₂ : ledger protos s₂ = (ledger protos s).set d.place (some d.decl.zone) :=
      hledger₂.trans hledger
    have hsettled₁₂ : SettledBut protos s s₂ d.place := fun place hne hplace =>
      (hsettled place hne hplace).trans (hsettled₂ place hplace)
    cases ready with
    | false =>
      refine ⟨false, s₂, 0, rfl, hgrown.trans hgrown₂, hsettled₁₂, ?_, .inl rfl, fun _ => rfl, ?_⟩
      · rw [Ledger.adjust_zero, hledger₁₂, if_pos rfl]
      · intro _ hsub
        cases hready hsub
    | true =>
      obtain ⟨zt, hzt, -⟩ := h.target
      obtain ⟨zt₂, hzt₂, -⟩ := (hgrown.trans hgrown₂).zone _ _ hzt
      have hlinks₂ : s₂.links d.decl.zone = s.links d.decl.zone :=
        congrFun (congrArg Ledger.counts hledger₁₂) _
      obtain ⟨result, s₃, amount, hcount, hgrown₃, hrows₃, hledger₃, hamount⟩ :=
        ensure_links_count_spec protos hzt₂
          ((hgrown.trans hgrown₂).unprotected hs) (hlinks₂ ▸ hnonneg) hexpected
          (pass.deferred d.path).links
      rw [hlinks₂] at hamount
      rw [if_neg (by simp), bind_attempt hcount]
      have hfinal : ledger protos s₃ =
          ((ledger protos s).set d.place (some d.decl.zone)).adjust d.decl.zone amount := by
        rw [hledger₃, hledger₁₂]
      have hraise : Raise protos s expected pass d amount := by
        have hraises : raises protos s pass d = !(pass.deferred d.path).links := by
          rw [raises, hlands, Bool.true_and]
        cases hdeferred : (pass.deferred d.path).links with
        | true =>
          rw [hdeferred] at hamount hraises
          exact ⟨.inl hamount, fun _ => hamount, fun hr => by rw [hraises] at hr; cases hr⟩
        | false =>
          rw [hdeferred] at hamount hraises
          have hmax := add_eq_of_eq_sub' hamount
          exact ⟨.inr hmax, fun hr => (by rw [hraises] at hr; cases hr), fun _ _ => hmax⟩
      have hsettled₃ : SettledBut protos s s₃ d.place := fun place hne hplace =>
        (hsettled₁₂ place hne hplace).trans (.inl (hrows₃ place hplace))
      cases result with
      | ok | error =>
        exact ⟨_, s₃, amount, rfl, (hgrown.trans hgrown₂).trans hgrown₃, hsettled₃, hfinal, hraise⟩

omit hdoc h

/-! ## All declarations -/

/-- The declarations with their places, as the pass resolves them one after the other. -/
def placed (root_zone_id : String) :
    List (String × MountDecl) → Table String String → List Declaration
  | [], _ => []
  | (path, decl) :: rest, active =>
    ⟨path, decl, resolve_parent root_zone_id active path⟩ ::
      placed root_zone_id rest (active.insert path decl.zone)

variable (protos) in
def gain_of (s : Node) (pass : Pass) (zone_id : String) (d : Declaration) : ℤ :=
  if lands protos s pass d then
    (if d.decl.zone = zone_id then 1 else 0) -
      if s.mount_at protos d.place = some zone_id then 1 else 0
  else 0

variable (protos) in
def gain (s : Node) (pass : Pass) (ds : List Declaration) (zone_id : String) : ℤ :=
  (ds.map (gain_of protos s pass zone_id)).sum

variable (protos) in
/-- Some declaration of the zone gets as far as raising the counter. -/
def reaches (s : Node) (pass : Pass) (ds : List Declaration) (zone_id : String) : Bool :=
  ds.any fun d => decide (d.decl.zone = zone_id) && raises protos s pass d && subtree_ready s pass d

section Later

variable {s s' : Node} {d : Declaration} (hgrown : s.Grown s')
  (hsettled : Settled protos s s' d.place)
include hsettled

theorem lands_later (pass : Pass) : lands protos s' pass d = lands protos s pass d := by
  unfold lands
  rw [mounted_of_settled hsettled]

theorem raises_later (pass : Pass) : raises protos s' pass d = raises protos s pass d := by
  unfold raises
  rw [lands_later hsettled]

theorem gain_later (pass : Pass) (zone_id : String)
    (hmount : s'.mount_at protos d.place = s.mount_at protos d.place) :
    gain_of protos s' pass zone_id d = gain_of protos s pass zone_id d := by
  unfold gain_of
  rw [lands_later hsettled, hmount]

omit hsettled in
include hgrown in
theorem subtree_ready_later {pass : Pass} (h : subtree_ready s pass d = true) :
    subtree_ready s' pass d = true := by
  simp only [subtree_ready, Bool.or_eq_true] at h ⊢
  rcases h with (h | h) | h
  · exact .inl (.inl h)
  · refine .inl (.inr ?_)
    obtain ⟨bytes, hbytes⟩ := Option.isSome_iff_exists.mp h
    obtain ⟨z, hz, hget⟩ := Option.bind_eq_some_iff.mp hbytes
    obtain ⟨z', hz', hzz'⟩ := hgrown.zone _ _ hz
    rw [Node.row_of_get hz']
    exact hzz'.rows _ (by rw [hget]; rfl)
  · exact .inr h

end Later

structure PassEffect (protos : Protos) (s s' : Node) (pass : Pass) (expected : String → Int64)
    (ds : List Declaration) (zone_id : String) : Prop where
  mounts : (ledger protos s').links zone_id =
    (ledger protos s).links zone_id + gain protos s pass ds zone_id
  count : s'.links zone_id = s.links zone_id ∨
    s'.links zone_id = max (s.links zone_id) (expected zone_id).toInt
  raised : reaches protos s pass ds zone_id = true →
    s'.links zone_id = max (s.links zone_id) (expected zone_id).toInt
  kept : (∀ d ∈ ds, d.decl.zone = zone_id → raises protos s pass d = false) →
    s'.links zone_id = s.links zone_id

theorem PassEffect.single {amount : ℤ} (zone_id : String)
    (hledger : ledger protos s' = ((ledger protos s).set d.place
      (if lands protos s pass d then some d.decl.zone else s.mount_at protos d.place)).adjust
        d.decl.zone amount) (hraise : Raise protos s expected pass d amount) :
    PassEffect protos s s' pass expected [d] zone_id := by
  have hlinks : s'.links zone_id = s.links zone_id + if zone_id = d.decl.zone then amount else 0 := by
    have hcounts := congrFun (congrArg Ledger.counts hledger) zone_id
    rw [Ledger.counts_adjust] at hcounts
    exact hcounts
  refine ⟨?_, ?_, ?_, ?_⟩
  · rw [hledger, Ledger.links_adjust, Ledger.links_set]
    show _ + _ - (if s.mount_at protos d.place = some zone_id then (1 : ℤ) else 0) = _
    simp only [gain, gain_of, map_cons, map_nil, sum_cons, sum_nil]
    cases lands protos s pass d with
    | true =>
      simp only [if_true, Option.some.injEq]
      omega
    | false =>
      simp only [Bool.false_eq_true, if_false]
      omega
  · rw [hlinks]
    by_cases hzone : zone_id = d.decl.zone
    · subst hzone
      rw [if_pos rfl]
      rcases hraise.count with rfl | hmax
      · exact .inl (add_zero _)
      · exact .inr hmax
    · rw [if_neg hzone]
      exact .inl (add_zero _)
  · intro hreaches
    simp only [reaches, any_cons, any_nil, Bool.or_false, Bool.and_eq_true,
      decide_eq_true_eq] at hreaches
    obtain ⟨⟨rfl, hr⟩, hready⟩ := hreaches
    rw [hlinks, if_pos rfl, hraise.raised hr hready]
  · intro hnone
    rw [hlinks]
    split_ifs with hzone
    · rw [hraise.kept (hnone d mem_cons_self hzone.symm), add_zero]
    · rw [add_zero]

theorem PassEffect.cons {s₂ : Node} {ds : List Declaration}
    (h : PassEffect protos s s₁ pass expected [d] zone_id)
    (h' : PassEffect protos s₁ s₂ pass expected ds zone_id)
    (hgain : ∀ d' ∈ ds, gain_of protos s₁ pass zone_id d' = gain_of protos s pass zone_id d')
    (hraises : ∀ d' ∈ ds, raises protos s₁ pass d' = raises protos s pass d')
    (hready : ∀ d' ∈ ds, subtree_ready s pass d' = true → subtree_ready s₁ pass d' = true) :
    PassEffect protos s s₂ pass expected (d :: ds) zone_id := by
  have hcount := h.count
  have hcount' := h'.count
  refine ⟨?_, ?_, ?_, ?_⟩
  · have hmounts := h.mounts
    have hsame : gain protos s₁ pass ds zone_id = gain protos s pass ds zone_id := by
      unfold gain
      rw [map_congr_left hgain]
    rw [h'.mounts, hmounts, hsame]
    simp only [gain, map_cons, map_nil, sum_cons, sum_nil]
    omega
  · omega
  · intro hreaches
    simp only [reaches, any_cons, Bool.or_eq_true] at hreaches
    rcases hreaches with hhead | htail
    · have hraised := h.raised (by simp [reaches, hhead])
      omega
    · have hraised := h'.raised (by
        obtain ⟨d', hd', hall⟩ := any_eq_true.mp htail
        simp only [Bool.and_eq_true] at hall
        refine any_eq_true.mpr ⟨d', hd', ?_⟩
        simp only [Bool.and_eq_true]
        exact ⟨⟨hall.1.1, (hraises d' hd').trans hall.1.2⟩, hready d' hd' hall.2⟩)
      omega
  · intro hnone
    have hhead := h.kept (by
      intro d' hd' hzone
      obtain rfl := mem_singleton.mp hd'
      exact hnone d' mem_cons_self hzone)
    have htail := h'.kept (by
      intro d' hd' hzone
      exact (hraises d' hd').trans (hnone d' (mem_cons_of_mem _ hd') hzone))
    omega

theorem apply_declarations_spec (hdoc : protos.Documented) (pass : Pass)
    (hexpected : ∀ zone_id, 0 ≤ (expected zone_id).toInt) (mounts : List (String × MountDecl))
    (active : Table String String) (remaining : Table String MountDecl)
    (hs : s.Unprotected) (hnonneg : ∀ zone_id, 0 ≤ s.links zone_id)
    (hwritable : ∀ d ∈ placed pass.root_zone_id mounts active, Writable protos s d)
    (hplaces : ((placed pass.root_zone_id mounts active).map Declaration.place).Nodup) :
    ∃ remaining' s', apply_declarations protos pass expected mounts active remaining s =
        (.ok remaining', s') ∧ s.Grown s' ∧
      ∀ zone_id, PassEffect protos s s' pass expected (placed pass.root_zone_id mounts active) zone_id := by
  induction mounts generalizing active remaining s with
  | nil =>
    refine ⟨remaining, s, rfl, .refl s, fun zone_id => ⟨?_, .inl rfl, nofun, fun _ => rfl⟩⟩
    simp [placed, gain]
  | cons head rest ih =>
    obtain ⟨path, decl⟩ := head
    rw [placed] at hwritable hplaces ⊢
    generalize hd : (⟨path, decl, resolve_parent pass.root_zone_id active path⟩ : Declaration) = d
      at hwritable hplaces ⊢
    rw [map_cons, nodup_cons] at hplaces
    have hdw := hwritable d mem_cons_self
    obtain ⟨done, s₁, amount, hres, hgrown, hsettled, hledger, hraise⟩ :=
      apply_declaration_spec hdoc hdw hs pass (hnonneg d.decl.zone) (hexpected d.decl.zone)
    -- The rest finds its own places as they were.
    have hother (d' : Declaration)
        (hd' : d' ∈ placed pass.root_zone_id rest (active.insert path decl.zone)) :
        Settled protos s s₁ d'.place ∧
          s₁.mount_at protos d'.place = s.mount_at protos d'.place := by
      have hne : d'.place ≠ d.place := by
        intro heq
        exact hplaces.1 (heq ▸ mem_map_of_mem hd')
      refine ⟨hsettled _ hne (hwritable d' (mem_cons_of_mem _ hd')).plain, ?_⟩
      have hrefs := congrFun (congrArg Ledger.refs hledger) d'.place
      rw [Ledger.refs_adjust, Ledger.refs_set, if_neg hne] at hrefs
      exact hrefs
    have hhead (zone_id : String) : PassEffect protos s s₁ pass expected [d] zone_id :=
      .single zone_id hledger hraise
    have hnonneg₁ (zone_id : String) : 0 ≤ s₁.links zone_id := by
      have hz := hnonneg zone_id
      have hc := (hhead zone_id).count
      omega
    obtain ⟨remaining', s₂, hrest, hgrown₂, heffect⟩ :=
      ih (active.insert path decl.zone) (if done then remaining else remaining.insert path decl)
        (hgrown.unprotected hs) hnonneg₁
        (fun d' hd' => (hwritable d' (mem_cons_of_mem _ hd')).grown hgrown (hother d' hd').1)
        hplaces.2
    refine ⟨remaining', s₂, ?_, hgrown.trans hgrown₂, fun zone_id => ?_⟩
    · rw [apply_declarations]
      subst hd
      rw [bind_of_ok hres]
      exact hrest
    · refine (hhead zone_id).cons (heffect zone_id) ?_ ?_ ?_
      · intro d' hd'
        exact gain_later (hother d' hd').1 pass zone_id (hother d' hd').2
      · intro d' hd'
        exact raises_later (hother d' hd').1 pass
      · intro d' _ hready
        exact subtree_ready_later hgrown hready

/-! ## The pass -/

/-- The pending declarations of a node with the places that a pass gives them. -/
def declarations (s : Node) (pass : Pass) : List Declaration :=
  placed pass.root_zone_id (sorted_mounts s) ∅

variable (protos) in
/-- The counters come out even. The maximum of a zone's mounts and its declarations, to which the
counter is raised if any declaration gets that far, has to be the number of mounts that the pass
leaves. -/
structure PassOk (s : Node) (pass : Pass) : Prop where
  writable : ∀ d ∈ declarations s pass, Writable protos s d
  places : ((declarations s pass).map Declaration.place).Nodup
  small : ∀ zone_id, declared (sorted_mounts s) zone_id < 2 ^ 63
  even : ∀ zone_id,
    (if reaches protos s pass (declarations s pass) zone_id then
      max (s.links zone_id) (declared (sorted_mounts s) zone_id) else s.links zone_id) =
      s.links zone_id + gain protos s pass (declarations s pass) zone_id
  /-- If no declaration gets that far, none is held up by its directory alone, which another
  declaration may make, unless there is nothing to raise. -/
  clear : ∀ zone_id, reaches protos s pass (declarations s pass) zone_id = false →
    (declared (sorted_mounts s) zone_id : ℤ) ≤ s.links zone_id ∨
      ∀ d ∈ declarations s pass, d.decl.zone = zone_id → lands protos s pass d = true →
        subtree_ready s pass d = true

section Even

variable {s s₁ s₂ : Node} {pass : Pass} {expected : String → Int64} {zone_id : String}

theorem PassOk.links_after (hok : PassOk protos s pass)
    (hexpected : (expected zone_id).toInt = declared (sorted_mounts s) zone_id)
    (hgrown : s.Grown s₁) (hlinks : s₁.links zone_id = s.links zone_id)
    (hplace : ∀ d ∈ declarations s pass, Settled protos s s₁ d.place)
    (heffect : PassEffect protos s₁ s₂ pass expected (declarations s pass) zone_id) :
    s₂.links zone_id = if reaches protos s pass (declarations s pass) zone_id then
        max (s.links zone_id) (declared (sorted_mounts s) zone_id) else s.links zone_id := by
  split_ifs with hreaches
  · rw [← hexpected, ← hlinks]
    apply heffect.raised
    obtain ⟨d, hd, hall⟩ := any_eq_true.mp hreaches
    simp only [Bool.and_eq_true] at hall
    refine any_eq_true.mpr ⟨d, hd, ?_⟩
    simp only [Bool.and_eq_true]
    exact ⟨⟨hall.1.1, (raises_later (hplace d hd) pass).trans hall.1.2⟩,
      subtree_ready_later hgrown hall.2⟩
  · rcases hok.clear zone_id (by simpa using hreaches) with hle | hready
    · have hcount := heffect.count
      rw [hexpected, hlinks, max_eq_left hle, or_self] at hcount
      exact hcount
    · -- A declaration of this zone that would raise the counter would have reached it.
      rw [← hlinks]
      apply heffect.kept
      intro d hd hdz
      rw [raises_later (hplace d hd), Bool.eq_false_iff]
      intro hraises
      apply hreaches
      have hlands : lands protos s pass d = true := by
        simp only [raises, Bool.and_eq_true] at hraises
        exact hraises.1
      refine any_eq_true.mpr ⟨d, hd, ?_⟩
      simp [hdz, hraises, hready d hd hdz hlands]

theorem PassOk.debt_after (hok : PassOk protos s pass) (hs : s.Exact protos)
    (hexpected : (expected zone_id).toInt = declared (sorted_mounts s) zone_id)
    (hgrown : s.Grown s₁) (hledger : ledger protos s₁ = ledger protos s)
    (hplace : ∀ d ∈ declarations s pass, Settled protos s s₁ d.place)
    (heffect : PassEffect protos s₁ s₂ pass expected (declarations s pass) zone_id) :
    (ledger protos s₂).debt zone_id = 0 := by
  have hlinks : s₁.links zone_id = s.links zone_id :=
    congrFun (congrArg Ledger.counts hledger) zone_id
  have hcount := hok.links_after hexpected hgrown hlinks hplace heffect
  have hgain : gain protos s₁ pass (declarations s pass) zone_id =
      gain protos s pass (declarations s pass) zone_id := by
    unfold gain
    rw [map_congr_left fun d hd => gain_later (hplace d hd) pass zone_id
      (congrFun (congrArg Ledger.refs hledger) _)]
  have hmounts := heffect.mounts
  rw [hledger, hgain, ← hs.links_eq, ← hok.even] at hmounts
  show (ledger protos s₂).links zone_id - s₂.links zone_id = 0
  omega

end Even

/-- **A pass that comes out even keeps the counts exact.** A pass that cannot write the root entry
does nothing else, so it needs no condition. -/
theorem apply_topology_exact (hdoc : protos.Documented) (hs : s.Exact protos)
    (hok : (s.row (pass.root_zone_id, "/")).isSome ∨ pass.root = false → PassOk protos s pass) :
    (apply_topology protos pass s).2.Exact protos := by
  obtain ⟨ready, s₁, hroot, hgrown, hledger, hsettled, -, -, hheld⟩ :=
    ensure_dir_entry_spec hdoc s pass.root pass.root_zone_id "/"
  have hs₁ : s₁.Exact protos := ⟨hgrown.unprotected hs.unprotected, hledger ▸ hs.balanced⟩
  have hsorted : sorted_mounts s₁ = sorted_mounts s := by
    unfold sorted_mounts
    rw [hgrown.pending]
  unfold apply_topology
  rw [bind_of_ok hroot]
  cases ready with
  | false => exact hs₁
  | true =>
    rw [if_neg (by simp), bind_ask, hsorted]
    by_cases hempty : sorted_mounts s = []
    · rw [if_pos hempty]
      exact hs₁
    · rw [if_neg hempty]
      have hpass : PassOk protos s pass := by
        apply hok
        by_contra hnot
        rw [not_or, Bool.not_eq_false] at hnot
        cases hheld hnot.2 (Option.not_isSome_iff_eq_none.mp hnot.1)
      have hexpected (zone_id : String) :
          (Int64.ofNat (declared (sorted_mounts s) zone_id)).toInt =
            declared (sorted_mounts s) zone_id :=
        Int64.toInt_ofNat_of_lt (hpass.small zone_id)
      have hnonneg (zone_id : String) : 0 ≤ s₁.links zone_id := by
        rw [hs₁.links_eq]
        exact Ledger.links_nonneg _ _
      have hplace (d : Declaration) (hd : d ∈ declarations s pass) : Settled protos s s₁ d.place :=
        hsettled d.place (hpass.writable d hd).plain
      obtain ⟨remaining, s₂, hres, hgrown₂, heffect⟩ := apply_declarations_spec hdoc pass
        (fun zone_id => by rw [hexpected]; exact Int.natCast_nonneg _) (sorted_mounts s) ∅ ∅
        hs₁.unprotected hnonneg (fun d hd => (hpass.writable d hd).grown hgrown (hplace d hd))
        hpass.places
      rw [bind_of_ok hres]
      refine ⟨hgrown₂.unprotected hs₁.unprotected, fun zone_id => ?_⟩
      have hdebt : (ledger protos s₂).debt zone_id = 0 :=
        hpass.debt_after hs (hexpected zone_id) hgrown hledger hplace (heffect zone_id)
      exact hdebt

/-! ## Founding zones -/

theorem Node.Exact.found (hs : s.Exact protos) (habsent : s.zones.get zone_id = none) :
    ({ s with zones := s.zones.insert zone_id .fresh } : Node).Exact protos := by
  have hledger : ledger protos { s with zones := s.zones.insert zone_id .fresh } =
      ledger protos s := by
    apply Ledger.ext
    · funext ⟨id, path⟩
      show Node.mount_at protos _ (id, path) = s.mount_at protos (id, path)
      unfold Node.mount_at
      rw [get_insert]
      split_ifs with hid
      · rw [hid, habsent]
        show Zone.mount_at protos .fresh path = none
        unfold Zone.mount_at
        split_ifs
        · rfl
        · show (Table.get ∅ path).bind _ = none
          rfl
      · rfl
    · funext id
      show Node.links _ id = s.links id
      unfold Node.links get_links_count
      rw [get_insert]
      split_ifs with hid
      · rw [hid, habsent]
        rfl
      · rfl
  refine ⟨?_, hledger ▸ hs.balanced⟩
  intro id z hz
  change (s.zones.insert zone_id Zone.fresh).get id = some z at hz
  rw [get_insert] at hz
  split_ifs at hz
  · obtain rfl := Option.some.inj hz
    exact get_empty _
  · exact hs.unprotected id z hz

theorem found_zones_exact (force : Bool) (create_zone : String → Except ZoneError Unit)
    (zones : List String) :
    Keeps (Node.Exact protos) Anyhow (found_zones force create_zone zones) := by
  induction zones with
  | nil => exact keeps_of_same fun _ => rfl
  | cons zone_id rest ih =>
    have hcreate : Triple (Node.Exact protos) Anyhow (fun s => s.zones.get zone_id = none)
        (do
          of_except (create_zone zone_id)
          Action.modify fun s => { s with zones := s.zones.insert zone_id .fresh }
          found_zones force create_zone rest) fun _ _ => True :=
      Triple.bind (triple_of_except _ fun _ _ habsent _ => habsent) fun _ =>
        Triple.bind (fun _ hs habsent => ⟨hs.found habsent, trivial, fun _ _ => trivial⟩) fun _ => ih
    intro s hs _
    unfold found_zones
    rw [bind_ask]
    split_ifs with hhosted
    · exact ih s hs trivial
    · rw [bind_ask]
      split_ifs
      · exact Keeps.bind ih (fun _ => keeps_of_same fun _ => rfl) s hs trivial
      · exact hcreate s hs (by simpa using hhosted)

theorem bootstrap_static_exact (force : Bool) (create_zone : String → Except ZoneError Unit)
    (zones : List String) (mounts : Table String MountDecl) :
    Keeps (Node.Exact protos) Anyhow (bootstrap_static force create_zone zones mounts) :=
  -- The declarations are not part of what is counted.
  Keeps.bind (found_zones_exact force create_zone zones) fun _ _ hs _ =>
    ⟨⟨hs.unprotected, hs.balanced⟩, trivial, fun _ _ => trivial⟩

end Protos

end NexusVfs.ZoneManager
