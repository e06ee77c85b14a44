/-
What one command can do to the store, said once.

`Write` lists the elementary writes with what holds when each of them is made, and every
command outside the stream arms is a sequence of them (`execute_arm_within`), so an
invariant is checked against seven writes instead of twenty-one commands. `written_rows`
names the metadata rows a command writes.
-/
import Mathlib.Logic.Relation
import NexusVfs.StateMachine

namespace NexusVfs

open List Words Text Runs Table

/-! ## Control commands and the reserved rows

A namespace is compared as a string, and neither it nor a key is checked for
NUL. The reserved rows are out of reach of `PutControlState` as long as the
path in them has no NUL; `NAMESPACE\0path:x\0y` is the key both of the namespace
`NAMESPACE\0path:x` and of the revision of the path `x\0y`. -/

def ControlRow.NulFree (c : ControlRow) : Prop := '\x00' ∉ c.name.toList

theorem ControlRow.nulFree_of_subject {c : ControlRow}
    (h : ∀ path ∈ c.subject, '\x00' ∉ path.toList) : c.NulFree := by
  have hlabel : '\x00' ∉ c.label.toList := by
    cases c <;> (simp only [label]; decide)
  unfold NulFree name
  cases hc : c.subject with
  | none => exact hlabel
  | some path =>
    have hcolon : '\x00' ∉ ":".toList := by decide
    simp only [String.toList_append, mem_append, not_or]
    exact ⟨hlabel, hcolon, h path hc⟩

variable {c : Command} {K namespace_ new_key old_key : String} {s s' : Store} {b is_pas : Bool}
variable {incarnation : Incarnation} {r : CommandResult} {expected_image : Option Bytes}
variable {changes : List (String × String × Bytes)} {codec : MetadataCodec}

theorem control_key_ne_control_row {key : String} (hns : namespace_ ≠ NAMESPACE) {c : ControlRow}
    (hc : c.NulFree) : control_row c ≠ control_key namespace_ key := by
  intro h
  have hl := congrArg String.toList h
  rw [control_row_eq, control_key, control_key] at hl
  simp only [String.toList_append] at hl
  have hreserved : '\x00' ∉ NAMESPACE.toList := by decide
  rw [append_assoc, append_assoc] at hl
  by_cases hnul : '\x00' ∈ namespace_.toList
  · -- The reserved namespace ends at the first NUL, so the rest of the other one lies in the name.
    obtain ⟨a, b, hab, ha⟩ := eq_append_cons_of_mem hnul
    rw [hab, append_assoc] at hl
    have hname : c.name.toList = b ++ '\x00' :: key.toList :=
      (first_delimiter_inj hreserved ha hl).2
    exact hc (by rw [hname]; simp)
  · exact hns (String.toList_inj.mp (first_delimiter_inj hreserved hnul hl).1).symm

/-! ## Elementary writes -/

inductive Write : Store → Store → Prop
  | metadata (s : Store) (t : Table String Bytes) : Write s { s with metadata := t }
  /-- A control command; the reserved rows answer as before. -/
  | control (s : Store) (t : Table String Bytes)
      (h : ∀ c : ControlRow, c.NulFree → t.get (control_row c) = s.control c) :
      Write s { s with control_state := t }
  | advance (s : Store) (key : String) {initial : Option Incarnation} {token : Bytes}
      (h : Fresh s initial token) : Write s (advance s key token)
  /-- A first policy is conditional-only; a path that has one only changes to a role of an owner. -/
  | policy (s : Store) (key : String) (v : Bytes)
      (h : (v = CONDITIONAL_ONLY ∧ s.control (.policy key) = none) ∨ v = RECORD_OWNER ∨
        v = RECORD_IO_OWNER) : Write s (s.put_control (.policy key) v)
  | requirement (s : Store) (v : Bytes) : Write s (s.put_control .requirement v)
  | binding (s : Store) (key guard_key : String) (hpath : first_invalid_path [key, guard_key] = none)
      (hfree : s.control (.binding key) = none) (hret : s.control (.retired key) = none)
      (hpol : s.control (.policy key) ≠ none) :
      Write s (s.put_control (.binding key) (as_bytes guard_key))
  | retired (s : Store) (key : String) (token : Bytes) (hfree : s.control (.retired key) = none)
      (hbind : s.control (.binding key) = none) (hpol : s.control (.policy key) ≠ none) :
      Write s (s.put_control (.retired key) token)

abbrev Writes : Store → Store → Prop := Relation.ReflTransGen Write

theorem Write.stream_entries (h : Write s s') : s'.stream_entries = s.stream_entries := by
  cases h <;> rfl

theorem Writes.stream_entries (h : Writes s s') : s'.stream_entries = s.stream_entries := by
  induction h with
  | refl => rfl
  | tail _ hw ih => rw [hw.stream_entries, ih]

theorem unprotected_policy_eq_none {key : String} (h : protected_in_txn s key = .ok false) :
    s.control (.policy key) = none := by
  unfold protected_in_txn record_policy_in_txn at h
  cases hp : s.control (.policy key) with
  | none => rfl
  | some v =>
    rw [hp, decode_policy] at h
    split_ifs at h
    cases h

theorem adopt_protected_rows {key : String}
    (h : adopt_protected_in_txn s key expected_image incarnation = .ok (r, s'))
    (himage : metadata_in_txn s key = expected_image) :
    s'.control (.policy key) ≠ none ∧ ∀ path,
      s'.control (.binding path) = s.control (.binding path) ∧
      s'.control (.retired path) = s.control (.retired path) := by
  rcases adopt_protected_ok h with ⟨-, rfl, hprot⟩ | ⟨rfl, rfl⟩ | ⟨-, -, s₁, v, hs₁, rfl⟩
  · refine ⟨fun hnone => ?_, fun _ => ⟨rfl, rfl⟩⟩
    rw [protected_in_txn, record_policy_in_txn, hnone] at hprot
    cases hprot
  · -- The image was compared already, so this answer is impossible; it leaves no policy.
    obtain ⟨prot, hprot, h⟩ := bind_eq_ok.mp h
    rw [himage] at h
    split_ifs at h with h1 h2
    · cases h
    · exact absurd rfl h2
    · obtain ⟨_, -, h⟩ := bind_eq_ok.mp h
      obtain ⟨_, -, h⟩ := bind_eq_ok.mp h
      cases h
  · have hs : ∀ path, s₁.control (.binding path) = s.control (.binding path) ∧
        s₁.control (.retired path) = s.control (.retired path) := by
      rcases hs₁ with ⟨-, rfl⟩ | ⟨token, -, rfl⟩
      · exact fun _ => ⟨rfl, rfl⟩
      · intro path
        simp only [control_advance, reduceCtorEq, or_self, if_false, and_self]
    refine ⟨by simp [Store.control_put_control], fun path => ?_⟩
    simp only [Store.control_put_control, reduceCtorEq, if_false]
    exact hs path

theorem mark_record_owner_write (s : Store) (path : String) :
    Write s (mark_record_owner_in_txn s path) := by
  unfold mark_record_owner_in_txn
  split_ifs
  · exact .policy s path _ (.inr (.inr rfl))
  · exact .policy s path _ (.inr (.inl rfl))

/-! ## Frames -/

/-- `s'` differs from `s` in the metadata rows of `M` and the control rows of `C` at most; a control
row with a NUL in its name is not spoken of. -/
structure Frame (M : String → Prop) (C : ControlRow → Prop) (s s' : Store) : Prop where
  metadata : ∀ key, ¬ M key → s'.metadata.get key = s.metadata.get key
  control : ∀ row : ControlRow, row.NulFree → ¬ C row → s'.control row = s.control row

structure WritesIn (M : String → Prop) (C : ControlRow → Prop) (s s' : Store) : Prop where
  writes : Writes s s'
  frame : Frame M C s s'

section WritesIn

variable {M : String → Prop} {C : ControlRow → Prop} {s₁ : Store} {key : String}

theorem WritesIn.refl : WritesIn M C s s := ⟨.refl, fun _ _ => rfl, fun _ _ _ => rfl⟩

variable {t : Table String Bytes} {source target : String}

variable (h : WritesIn M C s s')
include h

theorem WritesIn.table (ht : ∀ key, ¬ M key → t.get key = s'.metadata.get key) :
    WritesIn M C s { s' with metadata := t } :=
  ⟨h.writes.tail (.metadata s' t), fun key hkey => (ht key hkey).trans (h.frame.metadata key hkey),
    h.frame.control⟩

theorem WritesIn.put_metadata (hkey : M key) (value : Bytes) :
    WritesIn M C s (s'.put_metadata key value) :=
  h.table fun _ hother => get_insert_of_ne _ _ fun heq => hother (heq ▸ hkey)

omit h in
theorem Frame.put_control (h : Frame M C s s') {row : ControlRow} (hrow : C row) (v : Bytes) :
    Frame M C s (s'.put_control row v) := by
  refine ⟨h.metadata, fun other hfree hother => ?_⟩
  have hne : other ≠ row := by
    rintro rfl
    exact hother hrow
  rw [Store.control_put_control_of_ne _ _ hne]
  exact h.control other hfree hother

theorem WritesIn.put_control (row : ControlRow) {v : Bytes} (hrow : C row)
    (hw : Write s' (s'.put_control row v)) : WritesIn M C s (s'.put_control row v) :=
  ⟨h.writes.tail hw, h.frame.put_control hrow v⟩

theorem WritesIn.advance (hrev : C (.revision key)) (halloc : C .allocator)
    {initial : Option Incarnation} {token : Bytes} (hfresh : Fresh s' initial token) :
    WritesIn M C s (advance s' key token) :=
  ⟨h.writes.tail (.advance s' key hfresh), (h.frame.put_control halloc token).put_control hrev token⟩

theorem WritesIn.control
    (ht : ∀ row : ControlRow, row.NulFree → t.get (control_row row) = s'.control row) :
    WritesIn M C s { s' with control_state := t } :=
  ⟨h.writes.tail (.control s' t ht), h.frame.metadata,
    fun row hfree hrow => (ht row hfree).trans (h.frame.control row hfree hrow)⟩

omit h

/-! ## The primitives -/

theorem WritesIn.refresh (h : WritesIn M C s s₁) (hrev : C (.revision key)) (halloc : C .allocator)
    (hrefresh : refresh_tracked_version s₁ key = .ok (b, s')) : WritesIn M C s s' := by
  rcases refresh_tracked_version_ok hrefresh with ⟨-, -, -, token, hfresh, rfl⟩ | ⟨-, rfl, -⟩
  · exact h.advance hrev halloc hfresh
  · exact h

theorem rename_revisions_step_ok (h : rename_revisions_step s source target = .ok s') :
    ∃ tracked s₁, refresh_tracked_version s source = .ok (tracked, s₁) ∧
      ((tracked = true ∧ is_managed_content_path target = true ∧
          ∃ token, Fresh s₁ none token ∧ s' = advance s₁ target token) ∨
        ∃ b, refresh_tracked_version s₁ target = .ok (b, s')) := by
  obtain ⟨⟨tracked, s₁⟩, hsource, h⟩ := bind_eq_ok.mp h
  refine ⟨tracked, s₁, hsource, ?_⟩
  dsimp only at h
  split_ifs at h with hb
  · obtain ⟨⟨token, s₂⟩, halloc, h⟩ := bind_eq_ok.mp h
    obtain ⟨hfresh, rfl⟩ := allocate_revision_ok halloc
    rw [Bool.and_eq_true] at hb
    exact .inl ⟨hb.1, hb.2, token, hfresh, (pure_eq_ok.mp h).symm⟩
  · obtain ⟨⟨b, s₂⟩, htarget, h⟩ := bind_eq_ok.mp h
    cases pure_eq_ok.mp h
    exact .inr ⟨b, htarget⟩

theorem WritesIn.rename_revisions_step (h : WritesIn M C s s₁)
    (halloc : C .allocator) (hsource : C (.revision source)) (htarget : C (.revision target))
    (hstep : rename_revisions_step s₁ source target = .ok s') : WritesIn M C s s' := by
  obtain ⟨tracked, s₂, hrefresh, hstep⟩ := rename_revisions_step_ok hstep
  have hfirst := h.refresh hsource halloc hrefresh
  rcases hstep with ⟨-, -, token, hfresh, rfl⟩ | ⟨b, hrefresh'⟩
  · exact hfirst.advance htarget halloc hfresh
  · exact hfirst.refresh htarget halloc hrefresh'

theorem WritesIn.rename_revisions (h : WritesIn M C s s₁) (halloc : C .allocator)
    (hends : ∀ change ∈ changes, C (.revision change.1) ∧ C (.revision change.2.1))
    (hrev : rename_revisions s₁ changes = .ok s') : WritesIn M C s s' := by
  induction changes generalizing s₁ with
  | nil =>
    cases hrev
    exact h
  | cons change changes ih =>
    obtain ⟨s₂, h1, h2⟩ := bind_eq_ok.mp hrev
    obtain ⟨hsource, htarget⟩ := hends change mem_cons_self
    exact ih (h.rename_revisions_step halloc hsource htarget h1)
      (fun c hc => hends c (mem_cons_of_mem _ hc)) h2

theorem WritesIn.write_versioned {value : Bytes} {expected : Option Bytes}
    (hwrites : ∀ current, r = .ConditionalMetadata true current → M key ∧ C (.revision key))
    (halloc : C .allocator)
    (h : write_versioned_in_txn s key value expected incarnation = .ok (r, s')) :
    WritesIn M C s s' := by
  rcases write_versioned_ok h with ⟨-, rfl⟩ | ⟨-, _, token, -, -, hfresh, hr, rfl⟩
  · exact .refl
  · obtain ⟨hkey, hrev⟩ := hwrites _ hr
    exact (WritesIn.refl.advance hrev halloc hfresh).put_metadata hkey value

theorem WritesIn.adopt_protected (hrev : C (.revision key)) (halloc : C .allocator)
    (hpol : C (.policy key)) (hreq : C .requirement)
    (h : adopt_protected_in_txn s key expected_image incarnation = .ok (r, s')) :
    WritesIn M C s s' := by
  rcases adopt_protected_ok h with ⟨-, rfl, -⟩ | ⟨-, rfl⟩ | ⟨-, hun, s₁, v, hs₁, rfl⟩
  · exact .refl
  · exact .refl
  · have hnone := unprotected_policy_eq_none hun
    have hfirst : WritesIn M C s s₁ ∧ s₁.control (.policy key) = none := by
      rcases hs₁ with ⟨-, rfl⟩ | ⟨token, hfresh, rfl⟩
      · exact ⟨.refl, hnone⟩
      · refine ⟨WritesIn.refl.advance hrev halloc hfresh, ?_⟩
        rw [control_advance, if_neg (by simp), hnone]
    exact (hfirst.1.put_control _ hpol (.policy s₁ key _ (.inl ⟨rfl, hfirst.2⟩))).put_control _ hreq
      (.requirement _ v)

end WritesIn

theorem refresh_tracked_version_writes {key : String}
    (h : refresh_tracked_version s key = .ok (b, s')) : Writes s s' :=
  (WritesIn.refl.refresh (M := fun _ => False) (C := fun _ => True) trivial trivial h).writes

theorem rename_revisions_step_writes {source target : String}
    (h : rename_revisions_step s source target = .ok s') : Writes s s' :=
  (WritesIn.refl.rename_revisions_step (M := fun _ => False) (C := fun _ => True) trivial trivial trivial
    h).writes

theorem rename_revisions_within (h : rename_revisions s changes = .ok s') :
    WritesIn (fun _ => False) (fun _ => True) s s' :=
  WritesIn.refl.rename_revisions trivial (fun _ _ => ⟨trivial, trivial⟩) h

/-! ## Metadata rows -/

/-- The rows of the metadata table that a command writes or removes, given its answer. A rename that
moves something writes both ends of each move. -/
def written_rows (s : Store) (c : Command) (r : CommandResult) : List String :=
  match c, r with
  | .SetMetadata key _, .Success | .DeleteMetadata key, .Success
  | .CasSetMetadata key _ _, .CasResult true _ | .AdjustCounter key _, .Value _
  | .WriteVersionedMetadata key _ _ _, .ConditionalMetadata true _
  | .GuardedRecord _ (.ReplaceMetadata key _ _ _), .ConditionalMetadata true _
  | .RetireRecordGuard key _ _ _, .ConditionalMetadata true _ => [key]
  | .RenameMetadata old_key new_key _, .Success =>
    if old_key = new_key then []
    else
      let sources := (metadata_rename_rows s old_key (slashed old_key)).map Prod.fst
      sources ++ sources.map (rename_target old_key new_key)
  | _, _ => []

theorem rename_metadata_written
    (h : rename_metadata_in_txn codec s old_key new_key is_pas = .ok (.Success, s')) {key : String}
    (hkey : key ∈ written_rows s (.RenameMetadata old_key new_key is_pas) .Success) :
    protected_in_txn s key = .ok false ∧ ∃ changes s₁,
      (∃ change ∈ changes, key = change.1 ∨ key = change.2.1) ∧
      rename_revisions s changes = .ok s₁ ∧
      s' = { s₁ with metadata := move_rows s₁.metadata changes } := by
  rw [written_rows] at hkey
  rcases rename_metadata_ok h with ⟨-, hr | heq⟩ | ⟨-, hne, -, changes, s₁, hall, hkeys, -, hrev, rfl⟩
  · cases hr
  · rw [if_pos heq] at hkey
    cases hkey
  · rw [if_neg hne, ← hkeys, mem_append] at hkey
    rcases hkey with hsource | htarget
    · obtain ⟨change, hmem, rfl⟩ := mem_map.mp hsource
      exact ⟨(hall change hmem).2.2.1, changes, s₁, ⟨change, hmem, .inl rfl⟩, hrev, rfl⟩
    · obtain ⟨source, hsource, rfl⟩ := mem_map.mp htarget
      obtain ⟨change, hmem, rfl⟩ := mem_map.mp hsource
      obtain ⟨-, htgt, -, hun⟩ := hall change hmem
      rw [← htgt]
      exact ⟨hun, changes, s₁, ⟨change, hmem, .inr rfl⟩, hrev, rfl⟩

/-! ## Every command -/

/-- The paths whose revision a command may set without writing their row. -/
def Command.enrolled_path : Command → Option String
  | AdoptProtectedMetadata key _ _ | BindRecordGuard key _ _ _ _ => some key
  | _ => none

def Command.bound_path : Command → Option String
  | BindRecordGuard key _ _ _ _ => some key
  | _ => none

/-- The control rows that a command may set, given its answer. -/
def Command.sets (s : Store) (c : Command) (r : CommandResult) : ControlRow → Prop
  | .revision key => key ∈ written_rows s c r ∨ c.enrolled_path = some key
  | .binding key => c.bound_path = some key
  | _ => True

variable {M : String → Prop} {key : String}

theorem bind_record_guard_within {guard_key : String} {guard_version : Bytes}
    (h : bind_record_guard_in_txn s key expected_image guard_key guard_version incarnation =
      .ok (r, s')) :
    WritesIn M (Command.sets s (.BindRecordGuard key expected_image guard_key guard_version incarnation) r)
      s s' := by
  rcases bind_record_guard_ok h with
    rfl | ⟨-, hpath, -, -, -, -, hret, hbind, himage, r₁, s₁, v, hadopt, rfl⟩
  · exact .refl
  · obtain ⟨hpol, hrows⟩ := adopt_protected_rows hadopt himage
    have hadopted : WritesIn M (Command.sets s (.BindRecordGuard key expected_image guard_key guard_version
        incarnation) r) s s₁ := .adopt_protected (.inr rfl) trivial trivial trivial hadopt
    refine ((hadopted.put_control (.policy guard_key) trivial (mark_record_owner_write s₁ _)).put_control
      .requirement trivial (.requirement _ v)).put_control _ rfl (.binding _ key guard_key hpath ?_ ?_ ?_)
    · simp only [Store.control_put_control, reduceCtorEq, if_false]
      rw [(hrows key).1, hbind]
    · simp only [Store.control_put_control, reduceCtorEq, if_false]
      rw [(hrows key).2, hret]
    · simp only [Store.control_put_control, reduceCtorEq, if_false]
      by_cases hkey : (ControlRow.policy key) = .policy guard_key
      · rw [if_pos hkey]
        exact Option.some_ne_none _
      · rw [if_neg hkey]
        exact hpol

theorem retire_record_guard_within {expected terminal_image : Bytes}
    (h : retire_record_guard_in_txn s key expected terminal_image incarnation = .ok (r, s')) :
    WritesIn (· ∈ written_rows s (.RetireRecordGuard key expected terminal_image incarnation) r)
      (Command.sets s (.RetireRecordGuard key expected terminal_image incarnation) r) s s' := by
  rcases retire_record_guard_ok h with ⟨-, rfl⟩ | ⟨hbind, hlive, token, v, hfresh, rfl, rfl⟩
  · exact .refl
  · have hkey : key ∈ [key] := mem_cons_self
    have hwritten : WritesIn (· ∈ [key]) (Command.sets s (.RetireRecordGuard key expected terminal_image
        incarnation) (.ConditionalMetadata true ⟨some terminal_image, some token⟩)) s
        ((advance s key token).put_metadata key terminal_image) :=
      (WritesIn.refl.advance (.inl hkey) trivial hfresh).put_metadata hkey terminal_image
    refine ((hwritten.put_control (.policy key) trivial (mark_record_owner_write _ key)).put_control
      .requirement trivial (.requirement _ v)).put_control (.retired key) trivial
      (.retired _ key token ?_ ?_ ?_)
    · simp only [Store.control_put_control, reduceCtorEq, if_false]
      exact (control_advance s key token _).trans (by simpa using hlive.not_retired)
    · simp only [Store.control_put_control, reduceCtorEq, if_false]
      exact (control_advance s key token _).trans (by simpa using hbind)
    · simp [Store.control_put_control]

theorem rename_metadata_within
    (h : rename_metadata_in_txn codec s old_key new_key is_pas = .ok (r, s')) :
    WritesIn (· ∈ written_rows s (.RenameMetadata old_key new_key is_pas) r)
      (Command.sets s (.RenameMetadata old_key new_key is_pas) r) s s' := by
  rcases rename_metadata_ok h with ⟨rfl, -⟩ | ⟨rfl, hne, -, changes, s₁, hall, hkeys, -, hrev, rfl⟩
  · exact .refl
  · have hwritten : written_rows s (.RenameMetadata old_key new_key is_pas) .Success
        = changes.map Prod.fst ++ changes.map fun c => c.2.1 := by
      rw [written_rows, if_neg hne, ← hkeys]
      dsimp only
      rw [map_map]
      congr 1
      exact map_congr_left fun change hmem => (hall change hmem).2.1.symm
    have hends : ∀ change ∈ changes,
        change.1 ∈ written_rows s (.RenameMetadata old_key new_key is_pas) .Success ∧
        change.2.1 ∈ written_rows s (.RenameMetadata old_key new_key is_pas) .Success := by
      intro change hmem
      rw [hwritten, mem_append, mem_append]
      exact ⟨.inl (mem_map_of_mem hmem), .inr (mem_map.mpr ⟨change, hmem, rfl⟩)⟩
    refine (WritesIn.refl.rename_revisions trivial (fun change hmem => ?_) hrev).table fun key hkey => ?_
    · exact ⟨.inl (hends change hmem).1, .inl (hends change hmem).2⟩
    · rw [hwritten, mem_append, not_or] at hkey
      rw [move_rows, get_insert_all_of_notMem _ (by simpa using hkey.2), get_remove_all, if_neg hkey.1]

/-- **What a command can do.** Outside the stream arms, every command is a sequence of elementary
writes. A revision moves only with a write of its row or an enrolment, a binding only when it is
made. -/
theorem execute_arm_within (hc : c.stream_op = none) (h : execute_arm codec s c = .ok (r, s')) :
    WritesIn (· ∈ written_rows s c r) (c.sets s r) s s' := by
  have hversioned {key : String} (hw : ∀ current, r = .ConditionalMetadata true current →
      key ∈ written_rows s c r) : ∀ current, r = .ConditionalMetadata true current →
      key ∈ written_rows s c r ∧ c.sets s r (.revision key) :=
    fun current hr => ⟨hw current hr, .inl (hw current hr)⟩
  cases c with
  | SetMetadata k value =>
    obtain ⟨⟨b, s₁⟩, hrefresh, h⟩ := bind_eq_ok.mp h
    obtain ⟨rfl, rfl⟩ := ok_pair_inj h
    have hk : k ∈ [k] := mem_cons_self
    exact (WritesIn.refl.refresh (.inl hk) trivial hrefresh).put_metadata hk value
  | DeleteMetadata k =>
    obtain ⟨⟨b, s₁⟩, hrefresh, h⟩ := bind_eq_ok.mp h
    obtain ⟨rfl, rfl⟩ := ok_pair_inj h
    refine (WritesIn.refl.refresh (.inl mem_cons_self) trivial hrefresh).table fun key hkey => ?_
    exact get_remove_of_ne _ fun heq => hkey (mem_singleton.mpr heq)
  | CasSetMetadata k value expected_version =>
    obtain ⟨current, -, h⟩ := bind_eq_ok.mp h
    split_ifs at h
    · obtain ⟨-, rfl⟩ := ok_pair_inj h
      exact .refl
    · obtain ⟨⟨b, s₁⟩, hrefresh, h⟩ := bind_eq_ok.mp h
      obtain ⟨rfl, rfl⟩ := ok_pair_inj h
      have hk : k ∈ [k] := mem_cons_self
      exact (WritesIn.refl.refresh (.inl hk) trivial hrefresh).put_metadata hk value
  | AdjustCounter k delta =>
    rw [execute_arm, adjust_counter] at h
    split_ifs at h
    · obtain ⟨-, rfl⟩ := ok_pair_inj h
      exact .refl
    · obtain ⟨rfl, rfl⟩ := ok_pair_inj h
      exact WritesIn.refl.put_metadata (mem_singleton.mpr rfl) _
  | PutControlState namespace_ k value if_absent =>
    rw [execute_arm, put_control_state] at h
    split_ifs at h with hns <;> cases h
    · exact .refl
    · exact .refl
    · exact WritesIn.refl.control fun row hfree =>
        get_insert_of_ne _ _ (control_key_ne_control_row hns hfree)
  | DeleteControlState namespace_ k =>
    rw [execute_arm, delete_control_state] at h
    split_ifs at h with hns <;> cases h
    · exact .refl
    · exact WritesIn.refl.control fun row hfree =>
        get_remove_of_ne _ (control_key_ne_control_row hns hfree)
  | WriteVersionedMetadata k value expected incarnation =>
    refine .write_versioned (hversioned fun current hr => ?_) trivial h
    rw [hr]
    exact mem_cons_self
  | AdoptProtectedMetadata k expected_image incarnation =>
    exact .adopt_protected (.inr rfl) trivial trivial trivial h
  | RenameMetadata old_key new_key is_pas => exact rename_metadata_within h
  | BindRecordGuard k expected_image guard_key guard_version incarnation =>
    exact bind_record_guard_within h
  | RetireRecordGuard k expected_version value incarnation => exact retire_record_guard_within h
  | AdmitRecordIoOwner k expected_version =>
    rcases admit_record_io_ok h with ⟨-, rfl⟩ | ⟨-, -, -, v, rfl⟩
    · exact .refl
    · exact ((WritesIn.refl.put_control .requirement trivial (.requirement s v)).put_control (.policy k)
        trivial (.policy _ k _ (.inr (.inr rfl)))).put_control .requirement trivial (.requirement _ _)
  | GuardedRecord guard_version mutation =>
    cases mutation with
    | ReplaceMetadata k value expected incarnation =>
      refine .write_versioned (hversioned fun current hr => ?_) trivial h
      rw [hr]
      exact mem_cons_self
    | Append => cases hc
    | Seal => cases hc
    | Trim => cases hc
  | Noop =>
    cases h
    exact .refl
  | AppendStreamEntry => cases hc
  | SealStreamSegment => cases hc
  | TrimStreamSegment => cases hc
  | AcquireLock | ReleaseLock | ForceReleaseLock | ExtendLock => cases h

theorem execute_arm_frame (h : execute_arm codec s c = .ok (r, s')) :
    Frame (· ∈ written_rows s c r) (c.sets s r) s s' := by
  cases hop : c.stream_op with
  | none => exact (execute_arm_within hop h).frame
  | some p =>
    rw [execute_arm_of_stream_op hop] at h
    obtain ⟨-, rfl⟩ := ok_pair_inj h
    exact ⟨fun _ _ => rfl, fun _ _ _ => rfl⟩

theorem execute_writes (h : execute_metadata_in_txn codec s c = .ok (r, s')) :
    Writes s { s' with stream_entries := s.stream_entries } := by
  rcases execute_cases h with ⟨-, rfl⟩ | ⟨-, -, harm⟩
  · exact .refl
  · cases hop : c.stream_op with
    | none =>
      have hw := (execute_arm_within hop harm).writes
      rw [← hw.stream_entries]
      exact hw
    | some p =>
      rw [execute_arm_of_stream_op hop] at harm
      obtain ⟨-, rfl⟩ := ok_pair_inj harm
      exact .refl

section Apply

variable {m m' : FullStateMachine} {index : UInt64} (h : apply codec m index c = .ok (r, m'))
include h

theorem apply_writes : Writes m.store { m'.store with stream_entries := m.store.stream_entries } := by
  rcases apply_store_cases h with heq | ⟨-, -, store, hexec, heq⟩
  · rw [heq]
  · rw [heq]
    exact (execute_writes hexec).tail (.metadata _ (put_marker store index).metadata)

theorem apply_streams_frame (hc : c.stream_op = none) :
    m'.store.stream_entries = m.store.stream_entries := by
  rcases apply_store_cases h with heq | ⟨-, -, store, hexec, heq⟩
  · rw [heq]
  · rw [heq]
    rcases execute_cases hexec with ⟨-, rfl⟩ | ⟨-, -, harm⟩
    · rfl
    · exact (execute_arm_within hc harm).writes.stream_entries

theorem apply_metadata_frame {key : String} (hmarker : key ≠ KEY_LAST_APPLIED)
    (hw : m.last_applied < index → key ∉ written_rows m.store c r) :
    m'.store.metadata.get key = m.store.metadata.get key := by
  rcases apply_store_cases h with heq | ⟨-, hidx, store, hexec, heq⟩
  · rw [heq]
  · rw [heq, put_marker, Store.metadata_put_metadata, get_insert_of_ne _ _ hmarker]
    rcases execute_cases hexec with ⟨-, rfl⟩ | ⟨-, -, harm⟩
    · rfl
    · exact (execute_arm_frame harm).metadata key (hw hidx)

end Apply

end NexusVfs
