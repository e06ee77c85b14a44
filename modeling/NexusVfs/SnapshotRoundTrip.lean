/-
What a snapshot carries.

It leaves out the metadata rows whose key starts with `__`. Of these the marker row is
written by the restore itself, and no command looks at it unless it names it
(`execute_alike`); the others are lost, counters among them.
-/
import NexusVfs.RowAgreement

namespace NexusVfs

open Words Text Runs Table

/-! ## Stores that differ in the marker row only -/

structure AgreeOff (s s' : Store) : Prop where
  metadata : ∀ key, key ≠ KEY_LAST_APPLIED → s'.metadata.get key = s.metadata.get key
  stream_entries : s'.stream_entries = s.stream_entries
  control_state : s'.control_state = s.control_state

def Beside {α : Type} (p q : α × Store) : Prop := p.1 = q.1 ∧ AgreeOff p.2 q.2

namespace AgreeOff

variable {s s' : Store}

theorem iff_agree_outside :
    AgreeOff s s' ↔ AgreeOutside (· = KEY_LAST_APPLIED) (fun _ => False) s s' := by
  constructor
  · intro h
    refine ⟨h.metadata, h.stream_entries, fun key _ => by rw [h.control_state], fun c => ?_⟩
    unfold Store.control
    rw [h.control_state]
  · intro h
    exact ⟨h.metadata, h.stream_entries, ext_get fun key => h.control_state key not_false⟩

theorem put_metadata (h : AgreeOff s s') (key : String) (v : Bytes) :
    AgreeOff (s.put_metadata key v) (s'.put_metadata key v) :=
  iff_agree_outside.mpr ((iff_agree_outside.mp h).put_metadata key v)

end AgreeOff

/-! ## The marker row does not matter -/

theorem Rooted.ne_marker {key : String} (h : Rooted key) : key ≠ KEY_LAST_APPLIED := by
  rintro rfl
  obtain ⟨rest, hrest⟩ := h
  have hhead := congrArg List.head? hrest
  rw [List.head?_cons] at hhead
  exact absurd hhead (by decide)

/-- The command looks at the marker row: it names it as its key, or through a binding. -/
def Command.reads_marker (s : Store) : Command → Prop
  | .CasSetMetadata key _ _ | .AdjustCounter key _ | .WriteVersionedMetadata key _ _ _
  | .AdoptProtectedMetadata key _ _ | .RetireRecordGuard key _ _ _ => key = KEY_LAST_APPLIED
  | .GuardedRecord _ mutation => ∃ key, mutation.key = some key ∧
    (key = KEY_LAST_APPLIED ∨ (s.control (.binding key)).bind from_utf8 = some KEY_LAST_APPLIED)
  | _ => False

variable {c : Command}

theorem not_reads_rows_of_not_reads_marker {s : Store} (hc : ¬ c.reads_marker s) :
    ¬ c.reads_rows (· = KEY_LAST_APPLIED) (fun _ => False) s := by
  intro hreads
  cases c with
  | AdmitRecordIoOwner owner expected => exact valid_ne_marker hreads.1 hreads.2
  | BindRecordGuard key image guard_key version inc =>
    obtain ⟨hkey, hguard⟩ := rooted_of_valid_pair hreads.1
    exact hreads.2.elim hkey.ne_marker hguard.ne_marker
  | RenameMetadata old_key new_key is_pas =>
    obtain ⟨hvalid, key, hkey, hrow⟩ := hreads
    exact (rooted_of_renamed_row hvalid hrow).ne_marker hkey
  | GuardedRecord version mutation =>
    rcases hreads with ⟨key, value, expected, inc, rfl, hkey⟩ | ⟨key, guard_key, hkey, hbind, rfl⟩
    · exact hc ⟨key, rfl, .inl hkey⟩
    · exact hc ⟨key, hkey, .inr hbind⟩
  | PutControlState => exact hreads.2
  | _ => exact hc hreads

theorem execute_alike (codec : MetadataCodec) {s s' : Store} (h : AgreeOff s s')
    (hc : ¬ c.reads_marker s) :
    Alike Beside (execute_metadata_in_txn codec s c) (execute_metadata_in_txn codec s' c) := by
  have houtside := AgreeOff.iff_agree_outside.mp h
  refine (execute_abreast codec houtside (not_reads_rows_of_not_reads_marker hc)).mono ?_
  intro p q hpq
  exact ⟨hpq.1, AgreeOff.iff_agree_outside.mpr hpq.2⟩

structure ObsEq (m m' : FullStateMachine) : Prop where
  store : AgreeOff m.store m'.store
  advisory : m'.advisory = m.advisory
  last_applied : m'.last_applied = m.last_applied

theorem apply_alike (codec : MetadataCodec) {m m' : FullStateMachine} (h : ObsEq m m')
    (index : UInt64) (hc : ¬ c.reads_marker m.store) :
    Alike (fun p q => p.1 = q.1 ∧ ObsEq p.2 q.2) (apply codec m index c) (apply codec m' index c) := by
  unfold apply
  rw [h.advisory, h.last_applied]
  cases apply_lock m.advisory c with
  | some p => exact .ok ⟨rfl, h.store, rfl, rfl⟩
  | none =>
    refine Alike.ite (fun _ => .ok ⟨rfl, h⟩) fun _ => ?_
    refine (execute_alike codec h.store hc).bind fun p q hpq => ?_
    obtain ⟨result, store⟩ := p
    obtain ⟨rfl, hstore⟩ := hpq
    exact .ok ⟨rfl, hstore.put_metadata _ _, rfl, rfl⟩

/-! ## The round trip -/

/-- The snapshot of `m` leaves out no row but the marker. -/
def Carried (m : FullStateMachine) : Prop :=
  ∀ key v, m.store.metadata.get key = some v → is_internal_key key = true → key = KEY_LAST_APPLIED

theorem restored_obs_eq_iff (m target : FullStateMachine) :
    ObsEq m (restore_snapshot target (snapshot m)) ↔ Carried m := by
  constructor
  · intro h key v hv hinternal
    by_contra hkey
    have hrow := h.store.metadata key hkey
    rw [restored_row m target hkey, if_pos hinternal, hv] at hrow
    cases hrow
  · intro h
    refine ⟨⟨fun key hkey => ?_, insert_all_scan_true _, insert_all_scan_true _⟩, rfl, rfl⟩
    rw [restored_row m target hkey]
    by_cases hinternal : is_internal_key key = true
    · rw [if_pos hinternal]
      cases hv : m.store.metadata.get key with
      | none => rfl
      | some v => exact absurd (h key v hv hinternal) hkey
    · rw [if_neg hinternal]

/-- **What a snapshot round trip preserves.** Restoring the snapshot of `m` into any machine gives a
machine that agrees with `m` off the marker row, and answers every run of commands that do not look
at the marker row as `m` does, exactly if the only internal metadata row of `m` is the marker. The
two are the very same machine exactly if moreover the marker row of `m` holds its last index. -/
theorem snapshot_round_trip_iff (codec : MetadataCodec) (m : FullStateMachine) :
    ((∀ target, ObsEq m (restore_snapshot target (snapshot m)) ∧
        (restore_snapshot target (snapshot m)).store.metadata.get KEY_LAST_APPLIED =
          some (u64_to_be_bytes m.last_applied) ∧
        ∀ entries,
          along (apply_step codec) (fun m e => ¬ e.command.reads_marker m.store) m entries →
          SameAnswer ObsEq (run (apply_step codec) m entries)
            (run (apply_step codec) (restore_snapshot target (snapshot m)) entries)) ↔
      Carried m) ∧
    ((∀ target, restore_snapshot target (snapshot m) = m) ↔
      Carried m ∧ m.store.metadata.get KEY_LAST_APPLIED = some (u64_to_be_bytes m.last_applied)) := by
  constructor
  · constructor
    · intro h
      exact (restored_obs_eq_iff m m).mp (h m).1
    · intro h target
      have hobs := (restored_obs_eq_iff m target).mpr h
      refine ⟨hobs, restored_marker m target, fun entries hok => run_same ?_ hobs hok⟩
      intro m m' e h hc
      exact (apply_alike codec h e.index hc).toOption
  · constructor
    · intro h
      constructor
      · refine (restored_obs_eq_iff m m).mp ?_
        rw [h m]
        exact ⟨⟨fun _ _ => rfl, rfl, rfl⟩, rfl, rfl⟩
      · rw [← restored_marker m m, h m]
    · rintro ⟨h, hmarker⟩ target
      obtain ⟨⟨hmeta, hstream, hcontrol⟩, hadvisory, hlast⟩ := (restored_obs_eq_iff m target).mpr h
      have htable : (restore_snapshot target (snapshot m)).store.metadata = m.store.metadata := by
        refine ext_get fun key => ?_
        by_cases hkey : key = KEY_LAST_APPLIED
        · rw [hkey, restored_marker, hmarker]
        · exact hmeta key hkey
      exact FullStateMachine.ext (Store.ext htable hstream hcontrol) hadvisory hlast

/-- **A counter is lost.** After one increment of `__i_links_count__` the snapshot does not carry the
counter, and the next increment answers 2 here and 1 after the restore. -/
theorem snapshot_drops_counter :
    ∃ m, Reachable .unreadable m ∧ ¬ ObsEq m (restore_snapshot .fresh (snapshot m)) ∧
      ∃ p q, apply .unreadable m 2 (.AdjustCounter "__i_links_count__" 1) = .ok p ∧
        apply .unreadable (restore_snapshot .fresh (snapshot m)) 2
          (.AdjustCounter "__i_links_count__" 1) = .ok q ∧
        p.1 = .Value (i64_to_be_bytes 2) ∧ q.1 = .Value (i64_to_be_bytes 1) := by
  obtain ⟨results, m, hm, hrow, hp, hq⟩ := run_decides (apply_step .unreadable) .fresh
    [⟨1, .AdjustCounter "__i_links_count__" 1⟩] (fun _ m =>
      (m.store.metadata.get "__i_links_count__").isSome = true ∧
      succeeds (apply .unreadable m 2 (.AdjustCounter "__i_links_count__" 1))
        (fun q => decide (q.1 = .Value (i64_to_be_bytes 2))) = true ∧
      succeeds (apply .unreadable (restore_snapshot .fresh (snapshot m)) 2
        (.AdjustCounter "__i_links_count__" 1))
        (fun q => decide (q.1 = .Value (i64_to_be_bytes 1))) = true) (by decide +kernel)
  obtain ⟨p, hp, hp1⟩ := succeeds_iff.mp hp
  obtain ⟨q, hq, hq1⟩ := succeeds_iff.mp hq
  refine ⟨m, ⟨_, results, hm⟩, fun hobs => ?_, p, q, hp, hq, of_decide_eq_true hp1,
    of_decide_eq_true hq1⟩
  obtain ⟨v, hv⟩ := Option.isSome_iff_exists.mp hrow
  have hmarker := (restored_obs_eq_iff m .fresh).mp hobs _ v hv (by decide +kernel)
  exact absurd hmarker (by decide)

end NexusVfs
