/-
Commands that do not look at some rows.

`reads_rows` says which rows a command looks at. Two stores that agree outside a set of
rows answer every command that looks at none of them the same way and agree outside the
set afterwards (`execute_abreast`). `P` holds of the metadata keys whose rows may
differ, `Q` of the keys of the control tree; the reserved control rows always agree.
-/
import NexusVfs.StateMachine
import NexusVfs.Alike

namespace NexusVfs

open List Words Text Runs Table

/-! ## Stores that differ in some rows only -/

structure AgreeOutside (P Q : String → Prop) (s s' : Store) : Prop where
  metadata : ∀ key, ¬ P key → s'.metadata.get key = s.metadata.get key
  stream_entries : s'.stream_entries = s.stream_entries
  control_state : ∀ key, ¬ Q key → s'.control_state.get key = s.control_state.get key
  reserved : ∀ c : ControlRow, s'.control c = s.control c

def Abreast (P Q : String → Prop) {α : Type} (p q : α × Store) : Prop :=
  p.1 = q.1 ∧ AgreeOutside P Q p.2 q.2

namespace AgreeOutside

variable {P Q : String → Prop} {s s' : Store}

theorem refl (s : Store) : AgreeOutside P Q s s := ⟨fun _ _ => rfl, rfl, fun _ _ => rfl, fun _ => rfl⟩

theorem symm (h : AgreeOutside P Q s s') : AgreeOutside P Q s' s :=
  ⟨fun key hkey => (h.metadata key hkey).symm, h.stream_entries.symm,
    fun key hkey => (h.control_state key hkey).symm, fun c => (h.reserved c).symm⟩

theorem trans {s'' : Store} (h : AgreeOutside P Q s s') (h' : AgreeOutside P Q s' s'') :
    AgreeOutside P Q s s'' :=
  ⟨fun key hkey => (h'.metadata key hkey).trans (h.metadata key hkey),
    h'.stream_entries.trans h.stream_entries,
    fun key hkey => (h'.control_state key hkey).trans (h.control_state key hkey),
    fun c => (h'.reserved c).trans (h.reserved c)⟩

theorem mono {P' Q' : String → Prop} (hP : ∀ key, P key → P' key) (hQ : ∀ key, Q key → Q' key)
    (h : AgreeOutside P Q s s') : AgreeOutside P' Q' s s' :=
  ⟨fun key hkey => h.metadata key fun hp => hkey (hP key hp), h.stream_entries,
    fun key hkey => h.control_state key fun hq => hkey (hQ key hq), h.reserved⟩

variable (h : AgreeOutside P Q s s')
include h

theorem control (c : ControlRow) : s'.control c = s.control c := h.reserved c

theorem revision_in_txn (key : String) : revision_in_txn s' key = revision_in_txn s key := h.control _

theorem protected_in_txn (path : String) : protected_in_txn s' path = protected_in_txn s path := by
  unfold NexusVfs.protected_in_txn record_policy_in_txn
  rw [h.control]

theorem conditional_in_txn (key : String) :
    conditional_in_txn s' key = conditional_in_txn s key := by
  unfold NexusVfs.conditional_in_txn
  rw [h.protected_in_txn]

theorem metadata_in_txn {key : String} (hkey : ¬ P key) :
    metadata_in_txn s' key = metadata_in_txn s key := h.metadata key hkey

theorem insert_control (key : String) (v : Bytes) :
    AgreeOutside P Q { s with control_state := s.control_state.insert key v }
      { s' with control_state := s'.control_state.insert key v } := by
  refine ⟨h.metadata, h.stream_entries, fun K hK => ?_, fun c => ?_⟩
  · rw [get_insert, get_insert, h.control_state K hK]
  · have hrow := h.reserved c
    unfold Store.control at hrow ⊢
    rw [get_insert, get_insert, hrow]

theorem remove_control (key : String) :
    AgreeOutside P Q { s with control_state := s.control_state.remove key }
      { s' with control_state := s'.control_state.remove key } := by
  refine ⟨h.metadata, h.stream_entries, fun K hK => ?_, fun c => ?_⟩
  · rw [get_remove, get_remove, h.control_state K hK]
  · have hrow := h.reserved c
    unfold Store.control at hrow ⊢
    rw [get_remove, get_remove, hrow]

theorem put_control (c : ControlRow) (v : Bytes) :
    AgreeOutside P Q (s.put_control c v) (s'.put_control c v) := h.insert_control _ v

theorem put_metadata (key : String) (v : Bytes) :
    AgreeOutside P Q (s.put_metadata key v) (s'.put_metadata key v) := by
  refine ⟨fun K hK => ?_, h.stream_entries, h.control_state, h.reserved⟩
  rw [Store.metadata_put_metadata, Store.metadata_put_metadata, get_insert, get_insert,
    h.metadata K hK]

theorem advance (key : String) (token : Bytes) :
    AgreeOutside P Q (advance s key token) (advance s' key token) :=
  (h.put_control _ _).put_control _ _

theorem mark_record_owner_in_txn (path : String) :
    AgreeOutside P Q (mark_record_owner_in_txn s path) (mark_record_owner_in_txn s' path) := by
  unfold NexusVfs.mark_record_owner_in_txn record_policy_in_txn
  rw [h.control]
  exact h.put_control _ _

end AgreeOutside

/-! ## Which rows a command looks at -/

/-- The rows that a valid rename looks at: both paths and what is below them. -/
def renamed_row (old_key new_key key : String) : Prop :=
  key = old_key ∨ key.startsWith (slashed old_key) = true ∨
    key = new_key ∨ key.startsWith (slashed new_key) = true

/-- The command looks at a row that may differ: it names the row, its rename reaches it, or its
record is bound to it. -/
def Command.reads_rows (P Q : String → Prop) (s : Store) : Command → Prop
  | .CasSetMetadata key _ _ | .AdjustCounter key _ | .WriteVersionedMetadata key _ _ _
  | .AdoptProtectedMetadata key _ _ | .RetireRecordGuard key _ _ _ => P key
  | .AdmitRecordIoOwner owner _ => validate_path_fast owner = none ∧ P owner
  | .BindRecordGuard key _ guard_key _ _ =>
    first_invalid_path [key, guard_key] = none ∧ (P key ∨ P guard_key)
  | .GuardedRecord _ mutation =>
    (∃ key value expected incarnation,
      mutation = .ReplaceMetadata key value expected incarnation ∧ P key) ∨
    ∃ key guard_key, mutation.key = some key ∧
      (s.control (.binding key)).bind from_utf8 = some guard_key ∧ P guard_key
  | .RenameMetadata old_key new_key _ =>
    first_invalid_path [old_key, new_key] = none ∧ ∃ key, P key ∧ renamed_row old_key new_key key
  | .PutControlState namespace_ key _ if_absent => if_absent = true ∧ Q (control_key namespace_ key)
  | _ => False

theorem rename_target_reaches (old_key new_key source : String) :
    renamed_row old_key new_key (rename_target old_key new_key source) := by
  unfold rename_target
  by_cases hsource : source = old_key
  · rw [if_pos hsource]
    exact .inr (.inr (.inl rfl))
  · rw [if_neg hsource]
    exact .inr (.inr (.inr (startsWith_iff_exists.mpr ⟨_, rfl⟩)))

/-! ## Valid paths -/

def Rooted (key : String) : Prop := ∃ rest, key.toList = '/' :: rest

variable {key path : String}

theorem Rooted.append (h : Rooted key) (t : String) : Rooted (key ++ t) := by
  obtain ⟨rest, hrest⟩ := h
  exact ⟨rest ++ t.toList, by rw [String.toList_append, hrest, cons_append]⟩

theorem rooted_of_valid (h : validate_path_fast path = none) : Rooted path := by
  unfold validate_path_fast at h
  split_ifs at h with h1 h2
  obtain ⟨t, rfl⟩ := startsWith_iff_exists.mp h2
  exact ⟨t.toList, by rw [String.toList_append]; rfl⟩

theorem rooted_of_valid_pair {path' : String} (h : first_invalid_path [path, path'] = none) :
    Rooted path ∧ Rooted path' := by
  unfold first_invalid_path at h
  rw [findSome?_eq_none_iff] at h
  exact ⟨rooted_of_valid (h path (by simp)), rooted_of_valid (h path' (by simp))⟩

theorem Rooted.slashed (h : Rooted key) : Rooted (slashed key) := by
  obtain ⟨rest, hrest⟩ := h
  -- what is left of the key after trimming begins like the key, or is empty
  have hprefix : (trim_end_matches key '/').toList <+: key.toList := by
    unfold trim_end_matches
    rw [String.toList_ofList, ← reverse_suffix, reverse_reverse]
    exact dropWhile_suffix _
  unfold Rooted NexusVfs.slashed
  rw [String.toList_append]
  cases hl : (trim_end_matches key '/').toList with
  | nil => exact ⟨[], rfl⟩
  | cons c l =>
    rw [hl, hrest] at hprefix
    obtain ⟨rfl, -⟩ := cons_prefix_cons.mp hprefix
    exact ⟨_, rfl⟩

theorem Rooted.of_startsWith (h : Rooted path)
    (hkey : key.startsWith path = true) : Rooted key := by
  obtain ⟨t, rfl⟩ := startsWith_iff_exists.mp hkey
  exact h.append t

theorem rooted_of_renamed_row {old_key new_key : String}
    (hvalid : first_invalid_path [old_key, new_key] = none) (hkey : renamed_row old_key new_key key) :
    Rooted key := by
  obtain ⟨hold, hnew⟩ := rooted_of_valid_pair hvalid
  rcases hkey with rfl | hkey | rfl | hkey
  · exact hold
  · exact hold.slashed.of_startsWith hkey
  · exact hnew
  · exact hnew.slashed.of_startsWith hkey

/-! ## Functions that do not look at the rows -/

section Alike

variable {P Q : String → Prop} {s s' : Store} (h : AgreeOutside P Q s s')
include h

theorem allocate_revision_alike (key : String) (initial : Option Incarnation) :
    Alike (Abreast P Q) (allocate_revision s key initial) (allocate_revision s' key initial) := by
  have htoken : allocator_token s' initial = allocator_token s initial := by
    unfold allocator_token
    rw [h.control]
  refine Alike.bind_same htoken fun previous _ => ?_
  refine Alike.bind_same rfl fun token _ => ?_
  exact .ok ⟨rfl, h.advance key token⟩

theorem refresh_tracked_version_alike (key : String) :
    Alike (Abreast P Q) (refresh_tracked_version s key) (refresh_tracked_version s' key) := by
  unfold refresh_tracked_version
  rw [h.revision_in_txn]
  refine .guard ⟨rfl, h⟩ fun _ => ?_
  cases revision_in_txn s key with
  | none => exact .ok ⟨rfl, h⟩
  | some v =>
    refine (allocate_revision_alike h key none).bind fun p q hpq => ?_
    exact .ok ⟨rfl, hpq.2⟩

theorem require_record_format_alike (guarded : Bool) :
    Alike (AgreeOutside P Q) (require_record_format_in_txn s guarded)
      (require_record_format_in_txn s' guarded) := by
  unfold require_record_format_in_txn
  rw [h.control]
  refine Alike.bind_same rfl fun _ _ => ?_
  exact .ok (h.put_control _ _)

variable {key : String}

theorem enroll_image_alike (hkey : ¬ P key) (incarnation : Incarnation) :
    Alike (AgreeOutside P Q) (enroll_image s key incarnation) (enroll_image s' key incarnation) := by
  unfold enroll_image
  rw [h.metadata_in_txn hkey]
  cases metadata_in_txn s key with
  | none => exact .ok h
  | some image =>
    refine (allocate_revision_alike h key _).bind fun p q hpq => ?_
    exact .ok hpq.2

theorem adopt_protected_alike (hkey : ¬ P key)
    (expected_image : Option Bytes) (incarnation : Incarnation) :
    Alike (Abreast P Q) (adopt_protected_in_txn s key expected_image incarnation)
      (adopt_protected_in_txn s' key expected_image incarnation) := by
  unfold adopt_protected_in_txn
  rw [h.metadata_in_txn hkey]
  refine Alike.bind_same (h.protected_in_txn key) fun is_protected _ => ?_
  refine .guard ⟨rfl, h⟩ fun _ => .guard ⟨rfl, h⟩ fun _ => ?_
  refine (enroll_image_alike h hkey incarnation).bind fun s₁ s₁' h₁ => ?_
  refine (require_record_format_alike (h₁.put_control _ _) false).bind fun s₂ s₂' h₂ => ?_
  exact .ok ⟨rfl, h₂⟩

theorem write_versioned_alike (hkey : ¬ P key) (value : Bytes)
    (expected : Option Bytes) (incarnation : Incarnation) :
    Alike (Abreast P Q) (write_versioned_in_txn s key value expected incarnation)
      (write_versioned_in_txn s' key value expected incarnation) := by
  unfold write_versioned_in_txn
  rw [h.metadata_in_txn hkey, h.revision_in_txn]
  refine Alike.bind_same (h.conditional_in_txn key) fun admitted _ => ?_
  refine .guard ⟨rfl, h⟩ fun _ => .guard ⟨rfl, h⟩ fun _ => ?_
  refine Alike.bind_same rfl fun current _ => .guard ⟨rfl, h⟩ fun _ => ?_
  refine (allocate_revision_alike h key _).bind fun p q hpq => ?_
  obtain ⟨version, s₁⟩ := p
  obtain ⟨rfl, h₁⟩ := hpq
  exact .ok ⟨rfl, h₁.put_metadata key value⟩

theorem live_record_guard_same {guard_key : String} (hguard : ¬ P guard_key) (expected : Bytes) :
    live_record_guard_in_txn s' guard_key expected = live_record_guard_in_txn s guard_key expected := by
  unfold live_record_guard_in_txn record_control_in_txn
  rw [h.protected_in_txn, h.control, h.metadata_in_txn hguard, h.revision_in_txn]

theorem bind_record_guard_alike {guard_key : String}
    (hpaths : first_invalid_path [key, guard_key] = none → ¬ P key ∧ ¬ P guard_key)
    (expected_image : Option Bytes) (guard_version : Bytes) (incarnation : Incarnation) :
    Alike (Abreast P Q) (bind_record_guard_in_txn s key expected_image guard_key guard_version incarnation)
      (bind_record_guard_in_txn s' key expected_image guard_key guard_version incarnation) := by
  unfold bind_record_guard_in_txn record_control_in_txn is_record_owner_in_txn record_policy_in_txn
  simp only [h.control]
  cases hpath : first_invalid_path [key, guard_key] with
  | some error => exact .ok ⟨rfl, h⟩
  | none =>
    obtain ⟨hkey, hguard⟩ := hpaths hpath
    refine .guard ⟨rfl, h⟩ fun _ => ?_
    refine Alike.bind_same (live_record_guard_same h hguard _) fun live _ => ?_
    refine .guard ⟨rfl, h⟩ fun _ => .guard ⟨rfl, h⟩ fun _ => ?_
    cases s.control (.binding key) with
    | some binding => exact .ok ⟨rfl, h⟩
    | none =>
      rw [h.metadata_in_txn hkey]
      refine .guard ⟨rfl, h⟩ fun _ => ?_
      refine (adopt_protected_alike h hkey _ _).bind fun p q hpq => ?_
      refine (require_record_format_alike (hpq.2.mark_record_owner_in_txn guard_key) true).bind
        fun s₁ s₁' h₁ => ?_
      exact .ok ⟨rfl, h₁.put_control _ _⟩

theorem retire_record_guard_alike (hkey : ¬ P key)
    (expected terminal_image : Bytes) (incarnation : Incarnation) :
    Alike (Abreast P Q) (retire_record_guard_in_txn s key expected terminal_image incarnation)
      (retire_record_guard_in_txn s' key expected terminal_image incarnation) := by
  unfold retire_record_guard_in_txn record_control_in_txn
  simp only [h.control]
  refine .guard ⟨rfl, h⟩ fun _ => ?_
  refine Alike.bind_same (live_record_guard_same h hkey _) fun live _ => ?_
  refine .guard ⟨rfl, h⟩ fun _ => ?_
  refine (write_versioned_alike h hkey _ _ _).bind fun p q hpq => ?_
  obtain ⟨result, s₁⟩ := p
  obtain ⟨result', s₁'⟩ := q
  obtain ⟨rfl, h₁⟩ := hpq
  refine (require_record_format_alike (h₁.mark_record_owner_in_txn key) true).bind fun s₂ s₂' h₂ => ?_
  dsimp only
  split
  · next current =>
      cases current.version with
      | none => exact .error _
      | some version => exact .ok ⟨rfl, h₂.put_control _ _⟩
  · exact .error _

theorem admit_record_io_alike {owner : String} (howner : validate_path_fast owner = none → ¬ P owner)
    (expected : Bytes) :
    Alike (Abreast P Q) (admit_record_io_in_txn s owner expected)
      (admit_record_io_in_txn s' owner expected) := by
  unfold admit_record_io_in_txn record_control_in_txn
  simp only [h.control]
  cases hpath : validate_path_fast owner with
  | some error => exact .ok ⟨rfl, h⟩
  | none =>
    refine .guard ⟨rfl, h⟩ fun _ => ?_
    refine Alike.bind_same (live_record_guard_same h (howner hpath) _) fun live _ => ?_
    refine .guard ⟨rfl, h⟩ fun _ => ?_
    refine Alike.bind (R := AgreeOutside P Q)
      ((require_record_format_alike h true).bind fun s₁ s₁' h₁ => ?_) fun s₁ s₁' h₁ => ?_
    · exact .ok ((h₁.put_control _ _).put_control _ _)
    · exact .ok ⟨rfl, h₁⟩

theorem guarded_record_refusal_same {guard_version : Bytes} {mutation : GuardedRecordMutation}
    (hguard : ∀ key guard_key, mutation.key = some key →
      (s.control (.binding key)).bind from_utf8 = some guard_key → ¬ P guard_key) :
    guarded_record_refusal s' guard_version mutation =
      guarded_record_refusal s guard_version mutation := by
  unfold guarded_record_refusal record_control_in_txn
  cases hkey : mutation.key with
  | none => rfl
  | some key =>
    dsimp only
    rw [h.control]
    cases hb : s.control (.binding key) with
    | none => rfl
    | some binding =>
      dsimp only
      cases hutf8 : from_utf8 binding with
      | none => rfl
      | some guard_key =>
        have hbound : (s.control (.binding key)).bind from_utf8 = some guard_key := by
          rw [hb, Option.bind_some, hutf8]
        dsimp only
        rw [live_record_guard_same h (hguard key guard_key hkey hbound)]

theorem plain_record_refusal_same (c : Command) :
    plain_record_refusal s' c = plain_record_refusal s c := by
  unfold plain_record_refusal record_control_in_txn
  simp only [h.control]

theorem ordinary_refusal_same (c : Command) : ordinary_refusal s' c = ordinary_refusal s c := by
  unfold ordinary_refusal ordinary_metadata_refusal
  simp only [h.protected_in_txn]

/-! ### Ordinary arms -/

theorem delete_metadata_alike (key : String) :
    Alike (Abreast P Q) (delete_metadata s key) (delete_metadata s' key) := by
  refine (refresh_tracked_version_alike h key).bind fun p q hpq => ?_
  obtain ⟨-, hpq⟩ := hpq
  refine .ok ⟨rfl, fun K hK => ?_, hpq.stream_entries, hpq.control_state, hpq.reserved⟩
  rw [get_remove, get_remove, hpq.metadata K hK]

theorem cas_set_metadata_alike (hkey : ¬ P key) (value : Bytes) (expected_version : UInt32) :
    Alike (Abreast P Q) (cas_set_metadata s key value expected_version)
      (cas_set_metadata s' key value expected_version) := by
  have hversion : current_version s' key = current_version s key := by
    unfold current_version
    rw [h.metadata key hkey]
  refine Alike.bind_same hversion fun current _ => .guard ⟨rfl, h⟩ fun _ => ?_
  refine (refresh_tracked_version_alike h key).bind fun p q hpq => ?_
  exact .ok ⟨rfl, hpq.2.put_metadata key value⟩

theorem adjust_counter_alike (hkey : ¬ P key) (delta : Int64) :
    Alike (Abreast P Q) (adjust_counter s key delta) (adjust_counter s' key delta) := by
  unfold adjust_counter adjusted_counter
  rw [h.metadata key hkey]
  exact .guard ⟨rfl, h⟩ fun _ => .ok ⟨rfl, h.put_metadata _ _⟩

theorem put_control_state_abreast {namespace_ : String} {if_absent : Bool}
    (hrow : ¬ (if_absent = true ∧ Q (control_key namespace_ key))) (value : Bytes) :
    Abreast P Q (put_control_state s namespace_ key value if_absent)
      (put_control_state s' namespace_ key value if_absent) := by
  -- the row is looked at only if it must be absent
  have hsame : (if_absent = true ∧ (s'.control_state.get (control_key namespace_ key)).isSome = true) ↔
      (if_absent = true ∧ (s.control_state.get (control_key namespace_ key)).isSome = true) := by
    refine and_congr_right fun habsent => ?_
    rw [h.control_state _ fun hq => hrow ⟨habsent, hq⟩]
  unfold put_control_state
  simp only [hsame]
  split_ifs
  · exact ⟨rfl, h⟩
  · exact ⟨rfl, h⟩
  · exact ⟨rfl, h.insert_control _ _⟩

theorem on_streams_abreast (arm : Table String Bytes → CommandResult × Table String Bytes) :
    Abreast P Q (on_streams s arm) (on_streams s' arm) := by
  unfold on_streams
  rw [h.stream_entries]
  exact ⟨rfl, h.metadata, rfl, h.control_state, h.reserved⟩

/-! ### Renames -/

theorem rename_target_refusal_same (codec : MetadataCodec) {path : String} (hpath : ¬ P path) :
    rename_target_refusal codec s' path = rename_target_refusal codec s path := by
  unfold rename_target_refusal
  rw [h.metadata path hpath]

variable {new_key old_key : String}

theorem metadata_rename_rows_same (hrows : ∀ key, renamed_row old_key new_key key → ¬ P key) :
    metadata_rename_rows s' old_key (slashed old_key) =
      metadata_rename_rows s old_key (slashed old_key) := by
  unfold metadata_rename_rows
  rw [h.metadata old_key (hrows _ (.inl rfl))]
  refine congrArg _ (scan_congr fun k hk => ?_)
  exact h.metadata k (hrows k (.inr (.inl hk)))

theorem rename_changes_same (codec : MetadataCodec)
    (hrows : ∀ key, renamed_row old_key new_key key → ¬ P key) (is_pas : Bool)
    (rows : List (String × Bytes)) :
    rename_changes codec s' old_key new_key is_pas rows =
      rename_changes codec s old_key new_key is_pas rows := by
  have hchange (source : String) (image : Bytes) :
      rename_change codec s' old_key new_key is_pas source image =
        rename_change codec s old_key new_key is_pas source image := by
    have htarget := hrows _ (rename_target_reaches old_key new_key source)
    unfold rename_change ordinary_metadata_refusal
    simp only [h.protected_in_txn, rename_target_refusal_same h codec htarget]
  induction rows with
  | nil => rfl
  | cons row rows ih =>
    unfold rename_changes
    rw [hchange, ih]

theorem rename_revisions_step_alike (source target : String) :
    Alike (AgreeOutside P Q) (rename_revisions_step s source target)
      (rename_revisions_step s' source target) := by
  refine (refresh_tracked_version_alike h source).bind fun p q hpq => ?_
  obtain ⟨tracked, s₁⟩ := p
  obtain ⟨rfl, h₁⟩ := hpq
  refine Alike.ite (fun _ => ?_) fun _ => ?_
  · refine (allocate_revision_alike h₁ target none).bind fun p q hpq => ?_
    exact .ok hpq.2
  · refine (refresh_tracked_version_alike h₁ target).bind fun p q hpq => ?_
    exact .ok hpq.2

omit h in
theorem rename_revisions_alike {s s' : Store} (h : AgreeOutside P Q s s')
    (changes : List (String × String × Bytes)) :
    Alike (AgreeOutside P Q) (rename_revisions s changes) (rename_revisions s' changes) := by
  induction changes generalizing s s' with
  | nil => exact .ok h
  | cons change changes ih =>
    obtain ⟨source, target, bytes⟩ := change
    exact (rename_revisions_step_alike h source target).bind fun s₁ s₁' h₁ => ih h₁

theorem move_rows_agree (changes : List (String × String × Bytes)) :
    AgreeOutside P Q { s with metadata := move_rows s.metadata changes }
      { s' with metadata := move_rows s'.metadata changes } := by
  refine ⟨fun K hK => ?_, h.stream_entries, h.control_state, h.reserved⟩
  refine get_insert_all_congr ?_
  rw [get_remove_all, get_remove_all, h.metadata K hK]

theorem rename_metadata_alike (codec : MetadataCodec) (hvalid : first_invalid_path [old_key, new_key] = none →
      ∀ key, renamed_row old_key new_key key → ¬ P key) (is_pas : Bool) :
    Alike (Abreast P Q) (rename_metadata_in_txn codec s old_key new_key is_pas)
      (rename_metadata_in_txn codec s' old_key new_key is_pas) := by
  unfold rename_metadata_in_txn
  cases hpath : first_invalid_path [old_key, new_key] with
  | some error => exact .ok ⟨rfl, h⟩
  | none =>
    have hrows := hvalid hpath
    have hnew := hrows new_key (.inr (.inr (.inl rfl)))
    simp only [metadata_rename_rows_same h hrows, rename_target_refusal_same h codec hnew,
      rename_changes_same h codec hrows]
    refine .guard ⟨rfl, h⟩ fun _ => .guard ⟨rfl, h⟩ fun _ => ?_
    cases rename_target_refusal codec s new_key with
    | some refusal => exact .ok ⟨rfl, h⟩
    | none =>
      refine Alike.bind_same rfl fun out _ => ?_
      cases out with
      | error refusal => exact .ok ⟨rfl, h⟩
      | ok changes =>
        refine (rename_revisions_alike h changes).bind fun s₁ s₁' h₁ => ?_
        exact .ok ⟨rfl, move_rows_agree h₁ changes⟩

end Alike

/-! ## Whole commands -/

variable {P Q : String → Prop} {s s' : Store} {c : Command}

theorem execute_abreast (codec : MetadataCodec) (h : AgreeOutside P Q s s')
    (hc : ¬ c.reads_rows P Q s) :
    Alike (Abreast P Q) (execute_metadata_in_txn codec s c) (execute_metadata_in_txn codec s' c) := by
  have hfence : record_guard_refusal s' c = record_guard_refusal s c := by
    unfold record_guard_refusal
    split
    · next guard_version mutation =>
        refine guarded_record_refusal_same h fun key guard_key hkey hbind hp => ?_
        exact hc (.inr ⟨key, guard_key, hkey, hbind, hp⟩)
    · rw [plain_record_refusal_same h]
  -- both checks come out the same, so either both stores refuse or both reach the same arm
  refine Alike.bind_same hfence fun refusal _ => ?_
  cases refusal with
  | some refusal => exact .ok ⟨rfl, h⟩
  | none =>
    refine Alike.bind_same (ordinary_refusal_same h c) fun refusal _ => ?_
    cases refusal with
    | some refusal => exact .ok ⟨rfl, h⟩
    | none =>
      cases c with
      | AdmitRecordIoOwner key expected =>
        exact admit_record_io_alike h (fun hvalid hp => hc ⟨hvalid, hp⟩) expected
      | BindRecordGuard key image guard_key version inc =>
        refine bind_record_guard_alike h (fun hvalid => ⟨fun hp => ?_, fun hp => ?_⟩) image version inc
        · exact hc ⟨hvalid, .inl hp⟩
        · exact hc ⟨hvalid, .inr hp⟩
      | RetireRecordGuard key expected value inc =>
        exact retire_record_guard_alike h hc expected value inc
      | SetMetadata key value =>
        refine (refresh_tracked_version_alike h key).bind fun p q hpq => ?_
        exact .ok ⟨rfl, hpq.2.put_metadata key value⟩
      | CasSetMetadata key value version => exact cas_set_metadata_alike h hc value version
      | DeleteMetadata key => exact delete_metadata_alike h key
      | AdjustCounter key delta => exact adjust_counter_alike h hc delta
      | AppendStreamEntry | SealStreamSegment | TrimStreamSegment =>
        exact .ok (on_streams_abreast h _)
      | PutControlState => exact .ok (put_control_state_abreast h hc _)
      | DeleteControlState =>
        refine .ok ?_
        unfold delete_control_state
        split_ifs
        · exact ⟨rfl, h⟩
        · exact ⟨rfl, h.remove_control _⟩
      | WriteVersionedMetadata key value expected inc =>
        exact write_versioned_alike h hc value expected inc
      | AdoptProtectedMetadata key image inc => exact adopt_protected_alike h hc image inc
      | RenameMetadata old_key new_key is_pas =>
        refine rename_metadata_alike h codec (fun hvalid key hkey hp => ?_) is_pas
        exact hc ⟨hvalid, key, hp, hkey⟩
      | GuardedRecord version mutation =>
        cases mutation with
        | ReplaceMetadata key value expected inc =>
          refine write_versioned_alike h (fun hp => ?_) value expected inc
          exact hc (.inl ⟨key, value, expected, inc, rfl, hp⟩)
        | Append | Seal | Trim => exact .ok (on_streams_abreast h _)
      | Noop => exact .ok ⟨rfl, h⟩
      | AcquireLock | ReleaseLock | ForceReleaseLock | ExtendLock => exact .error _

theorem reads_rows_agree (h : AgreeOutside P Q s s') :
    c.reads_rows P Q s ↔ c.reads_rows P Q s' := by
  unfold Command.reads_rows
  simp only [h.control]

/-- A counter is the one row that a command may look at without harm to the others: its new value
goes back into the same row. The answers may differ then. -/
theorem execute_agree (codec : MetadataCodec) (h : AgreeOutside P Q s s')
    (hc : c.reads_rows P Q s → ∃ key delta, c = .AdjustCounter key delta) :
    Alike (fun p q => AgreeOutside P Q p.2 q.2) (execute_metadata_in_txn codec s c)
      (execute_metadata_in_txn codec s' c) := by
  by_cases hreads : c.reads_rows P Q s
  · obtain ⟨key, delta, rfl⟩ := hc hreads
    have hfence : record_guard_refusal s' (.AdjustCounter key delta) =
        record_guard_refusal s (.AdjustCounter key delta) :=
      congrArg Except.ok (plain_record_refusal_same h _)
    refine Alike.bind_same hfence fun refusal _ => ?_
    cases refusal with
    | some refusal => exact .ok h
    | none =>
      refine Alike.bind_same (ordinary_refusal_same h _) fun refusal _ => ?_
      cases refusal with
      | some refusal => exact .ok h
      | none =>
        refine Alike.ite (fun _ => .ok h) fun _ => .ok ?_
        refine ⟨fun K hK => ?_, h.stream_entries, h.control_state, h.reserved⟩
        have hne : K ≠ key := by
          rintro rfl
          exact hK hreads
        rw [Store.metadata_put_metadata, Store.metadata_put_metadata,
          get_insert_of_ne _ _ hne, get_insert_of_ne _ _ hne, h.metadata K hK]
  · exact (execute_abreast codec h hreads).mono fun p q hpq => hpq.2

structure ObsEqOutside (P Q : String → Prop) (m m' : FullStateMachine) : Prop where
  store : AgreeOutside P Q m.store m'.store
  advisory : m'.advisory = m.advisory
  last_applied : m'.last_applied = m.last_applied

theorem apply_abreast (codec : MetadataCodec) {m m' : FullStateMachine} (h : ObsEqOutside P Q m m')
    (index : UInt64) (hc : ¬ c.reads_rows P Q m.store) :
    Alike (fun p q => p.1 = q.1 ∧ ObsEqOutside P Q p.2 q.2) (apply codec m index c)
      (apply codec m' index c) := by
  unfold apply
  rw [h.advisory, h.last_applied]
  cases apply_lock m.advisory c with
  | some p => exact .ok ⟨rfl, h.store, rfl, rfl⟩
  | none =>
    refine .guard ⟨rfl, h⟩ fun _ => ?_
    refine (execute_abreast codec h.store hc).bind fun p q hpq => ?_
    obtain ⟨result, store⟩ := p
    obtain ⟨rfl, hstore⟩ := hpq
    exact .ok ⟨rfl, hstore.put_metadata _ _, rfl, rfl⟩

end NexusVfs
