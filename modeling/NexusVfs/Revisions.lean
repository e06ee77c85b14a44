/-
Revision tokens are never reused: the writes of a command are stamping steps of
`Stamps`, a command which writes a tracked row restamps it, and restarts and restores
keep the allocator.

Outside that are the marker row, which every command rewrites without a revision; paths
with a NUL, whose control rows a control command can forge; and restoring an image older
than the store.
-/
import NexusVfs.Effects
import NexusVfs.Stamps

namespace NexusVfs

open Option List Words Text Runs Stamps

/-! ## Revisions as stamps -/

/-- A path whose control rows only the apply primitives can write. -/
abbrev PlainPath : Type := { path : String // '\x00' ∉ path.toList }

theorem PlainPath.nulFree (K : PlainPath) {c : ControlRow} (hc : c.subject = some K.1) :
    c.NulFree := by
  refine ControlRow.nulFree_of_subject fun path hpath => ?_
  rw [hc] at hpath
  exact some.inj hpath ▸ K.2

theorem allocator_nulFree : ControlRow.allocator.NulFree :=
  ControlRow.nulFree_of_subject fun path hpath => by cases hpath

/-- The revision rows, and the tokens up to the allocator's. -/
def revisions : Stamping Store PlainPath Bytes where
  stamp s K := revision_in_txn s K.1
  issued s token := ∃ last, s.control .allocator = some last ∧ token.take 16 = last.take 16 ∧
    token_counter token ≤ token_counter last

variable {c : Command} {s s' : Store} {token v : Bytes} {K : PlainPath} {incarnation : Incarnation}
variable {r : CommandResult} {codec : MetadataCodec} {m m' : FullStateMachine} {index : UInt64}

variable {initial : Option Incarnation}

variable {previous value : Bytes} {path : String} {b : Bool}

theorem allocator_token_ok (h : allocator_token s initial = .ok previous) :
    previous.length = TOKEN_LEN ∧
      (s.control .allocator = some previous ∨ s.control .allocator = none) := by
  unfold allocator_token at h
  cases ha : s.control .allocator with
  | some token =>
    rw [ha] at h
    dsimp only at h
    split_ifs at h with hlen
    cases h
    exact ⟨hlen, .inl rfl⟩
  | none =>
    rw [ha] at h
    cases initial with
    | none => cases h
    | some incarnation =>
      cases h
      refine ⟨?_, .inr rfl⟩
      rw [length_append, incarnation.2]
      rfl

theorem next_token_ok (hlen : previous.length = TOKEN_LEN) (h : next_token previous = .ok token) :
    token.take 16 = previous.take 16 ∧ token_counter token = token_counter previous + 1 := by
  unfold next_token at h
  split_ifs at h with hroom
  cases h
  have htake : (previous.take 16).length = 16 := by
    rw [length_take, hlen]
    rfl
  constructor
  · rw [take_left' htake]
  · have hdrop : (previous.take 16 ++ be 8 (token_counter previous + 1)).drop 16 =
        be 8 (token_counter previous + 1) := drop_left' htake
    rw [token_counter, hdrop]
    exact ofBe_be hroom

theorem Fresh.not_issued (h : Fresh s initial token) : ¬ revisions.issued s token := by
  rintro ⟨last, hlast, -, hle⟩
  obtain ⟨previous, hprev, hnext⟩ := h
  obtain ⟨hlen, halloc⟩ := allocator_token_ok hprev
  obtain ⟨-, hcount⟩ := next_token_ok hlen hnext
  rw [hlast] at halloc
  rcases halloc with heq | hnone
  · rw [some.inj heq] at hle
    omega
  · cases hnone

theorem issued_advance (h : Fresh s initial token) (key : String) :
    revisions.issued (advance s key token) token ∧
      ∀ t, revisions.issued s t → revisions.issued (advance s key token) t := by
  have hlast : (advance s key token).control .allocator = some token := by
    rw [control_advance, if_pos (.inr rfl)]
  refine ⟨⟨token, hlast, rfl, Nat.le_refl _⟩, ?_⟩
  rintro t ⟨last, hold, htake, hle⟩
  obtain ⟨previous, hprev, hnext⟩ := h
  obtain ⟨hlen, halloc⟩ := allocator_token_ok hprev
  obtain ⟨htake', hcount⟩ := next_token_ok hlen hnext
  rw [hold] at halloc
  rcases halloc with heq | hnone
  · rw [some.inj heq] at htake hle
    exact ⟨token, hlast, htake.trans htake'.symm, by omega⟩
  · cases hnone

/-- **One write.** Every elementary write keeps the revisions sound and moves them forward. -/
theorem Write.revisions_sound (h : Sound revisions s) (hw : Write s s') :
    Sound revisions s' ∧ Moves revisions s s' := by
  -- all but `advance` leave the allocator and the revisions alone
  have hkeep (halloc : s'.control .allocator = s.control .allocator)
      (hrev : ∀ K : PlainPath, s'.control (.revision K.1) = s.control (.revision K.1)) :
      Sound revisions s' ∧ Moves revisions s s' := by
    refine h.keep (funext hrev) (funext fun token => ?_)
    simp only [revisions, halloc]
  cases hw with
  | metadata t => exact hkeep rfl fun _ => rfl
  | control t hrows => exact hkeep (hrows _ allocator_nulFree) fun K => hrows _ (K.nulFree rfl)
  | advance key hfresh =>
    obtain ⟨hissued, hmono⟩ := issued_advance hfresh key
    refine h.issue hfresh.not_issued hissued hmono (P := fun K => K.1 = key)
      (fun K L hK hL => Subtype.ext (hK.trans hL.symm)) fun K => ?_
    by_cases hK : K.1 = key
    · exact .inl ⟨hK, (revision_advance s key _ K.1).trans (if_pos hK)⟩
    · exact .inr ⟨hK, (revision_advance s key _ K.1).trans (if_neg hK)⟩
  | policy key v _ | requirement v | binding key guard_key _ _ _ _ | retired key token _ _ _ =>
    refine hkeep ?_ fun K => ?_ <;> rw [Store.control_put_control, if_neg (by simp)]

theorem Writes.revisions_sound (h : Sound revisions s) (hw : Writes s s') :
    Sound revisions s' ∧ Moves revisions s s' :=
  h.steps (fun _ _ hs => Write.revisions_sound hs) hw

/-! ## Conditional paths stay conditional -/

theorem protected_eq_true_iff :
    protected_in_txn s path = .ok true ↔ ∃ v, s.control (.policy path) = some v ∧
      (v = CONDITIONAL_ONLY ∨ v = RECORD_OWNER ∨ v = RECORD_IO_OWNER) := by
  unfold protected_in_txn record_policy_in_txn
  cases s.control (.policy path) with
  | none => simp [decode_policy]
  | some v =>
    simp only [decode_policy, some.injEq, exists_eq_left']
    split_ifs with hv
    · exact iff_of_true rfl hv
    · refine iff_of_false (fun h => ?_) hv
      cases h

theorem Write.protected_mono (hw : Write s s') (K : PlainPath)
    (h : protected_in_txn s K.1 = .ok true) : protected_in_txn s' K.1 = .ok true := by
  have hkeep (hpol : s'.control (.policy K.1) = s.control (.policy K.1)) :
      protected_in_txn s' K.1 = .ok true := by
    unfold protected_in_txn record_policy_in_txn at h ⊢
    rw [hpol]
    exact h
  cases hw with
  | metadata t => exact hkeep rfl
  | control t hrows => exact hkeep (hrows _ (K.nulFree rfl))
  | advance key hfresh =>
    refine hkeep ?_
    rw [control_advance, if_neg (by simp)]
  | policy key v hv =>
    by_cases hK : K.1 = key
    · refine protected_eq_true_iff.mpr ⟨v, ?_, ?_⟩
      · rw [Store.control_put_control, if_pos (by rw [hK])]
      · rcases hv with ⟨hv, -⟩ | hv
        · exact .inl hv
        · exact .inr hv
    · refine hkeep ?_
      rw [Store.control_put_control, if_neg (by simpa using hK)]
  | requirement v | binding key guard_key _ _ _ _ | retired key token _ _ _ =>
    refine hkeep ?_
    rw [Store.control_put_control, if_neg (by simp)]

theorem Writes.protected_mono (hw : Writes s s') (K : PlainPath)
    (h : protected_in_txn s K.1 = .ok true) : protected_in_txn s' K.1 = .ok true := by
  induction hw with
  | refl => exact h
  | tail _ hlast ih => exact hlast.protected_mono K ih

theorem conditional_eq_true_iff :
    conditional_in_txn s path = .ok true ↔
      is_managed_content_path path = true ∨ protected_in_txn s path = .ok true := by
  unfold conditional_in_txn
  split_ifs with hm
  · exact iff_of_true rfl (.inl hm)
  · simp [hm]

theorem Writes.conditional_mono (hw : Writes s s') (K : PlainPath)
    (h : conditional_in_txn s K.1 = .ok true) : conditional_in_txn s' K.1 = .ok true := by
  rw [conditional_eq_true_iff] at h ⊢
  rcases h with hm | hp
  · exact .inl hm
  · exact .inr (hw.protected_mono K hp)

/-! ## A command that writes a tracked row restamps it -/

structure Tracked (s : Store) (K : PlainPath) : Prop where
  conditional : conditional_in_txn s K.1 = .ok true
  stamped : (revision_in_txn s K.1).isSome

theorem Tracked.mono (h : Tracked s K) (hs : Sound revisions s) (hw : Writes s s') : Tracked s' K :=
  ⟨hw.conditional_mono K h.conditional, (hw.revisions_sound hs).2.stamp_isSome h.stamped⟩

theorem advance_restamps (h : Fresh s initial token) (K : PlainPath) :
    Restamped revisions s (advance s K.1 token) K := by
  refine ⟨token, ?_, h.not_issued⟩
  exact (revision_advance s K.1 token K.1).trans (if_pos rfl)

theorem Tracked.managed (h : Tracked s K) (hun : protected_in_txn s K.1 = .ok false) :
    is_managed_content_path K.1 = true := by
  rcases conditional_eq_true_iff.mp h.conditional with hm | hp
  · exact hm
  · rw [hun] at hp
    cases hp

theorem refresh_restamps (hm : is_managed_content_path K.1 = true)
    (hstamped : (revision_in_txn s K.1).isSome)
    (hrefresh : refresh_tracked_version s K.1 = .ok (b, s')) : Restamped revisions s s' K := by
  rcases refresh_tracked_version_ok hrefresh with ⟨-, -, -, token, hfresh, rfl⟩ | ⟨-, -, hno⟩
  · exact advance_restamps hfresh K
  · exact absurd ⟨hm, hstamped⟩ hno

theorem Tracked.ordinary_restamps (h : Tracked s K)
    (hord : ordinary_metadata_refusal s K.1 = .ok none)
    (hrefresh : refresh_tracked_version s K.1 = .ok (b, s')) : Restamped revisions s s' K :=
  refresh_restamps (h.managed (ordinary_metadata_refusal_none hord)) h.stamped hrefresh

variable (hs : Sound revisions s) (hm : is_managed_content_path K.1 = true)
  (hstamped : (revision_in_txn s K.1).isSome)
include hs hm hstamped

theorem rename_revisions_step_restamps {source target : String}
    (hK : K.1 = source ∨ K.1 = target) (h : rename_revisions_step s source target = .ok s') :
    Restamped revisions s s' K := by
  obtain ⟨tracked, s₁, hsource, htarget⟩ := rename_revisions_step_ok h
  obtain ⟨hs₁, hmoves⟩ := (refresh_tracked_version_writes hsource).revisions_sound hs
  -- what the source's refresh does, then what the target's revision does
  have hsecond : Moves revisions s₁ s' ∧ (K.1 = target → Restamped revisions s₁ s' K) := by
    rcases htarget with ⟨-, -, token, hfresh, rfl⟩ | ⟨b, hrefresh⟩
    · refine ⟨(Write.revisions_sound hs₁ (.advance s₁ target hfresh)).2, ?_⟩
      rintro rfl
      exact advance_restamps hfresh K
    · refine ⟨((refresh_tracked_version_writes hrefresh).revisions_sound hs₁).2, ?_⟩
      rintro rfl
      exact refresh_restamps hm (hmoves.stamp_isSome hstamped) hrefresh
  rcases hK with rfl | hK
  · exact hmoves.restamped_before hsecond.1 (refresh_restamps hm hstamped hsource)
  · exact hmoves.restamped_after (hsecond.2 hK)

theorem rename_revisions_restamps {changes : List (String × String × Bytes)}
    (hK : ∃ change ∈ changes, K.1 = change.1 ∨ K.1 = change.2.1)
    (h : rename_revisions s changes = .ok s') : Restamped revisions s s' K := by
  induction changes generalizing s with
  | nil =>
    obtain ⟨change, hmem, -⟩ := hK
    cases hmem
  | cons change changes ih =>
    obtain ⟨s₁, h1, h2⟩ := bind_eq_ok.mp h
    obtain ⟨hs₁, hmoves⟩ := (rename_revisions_step_writes h1).revisions_sound hs
    obtain ⟨c, hmem, hc⟩ := hK
    rcases mem_cons.mp hmem with rfl | hmem
    · refine hmoves.restamped_before ((rename_revisions_within h2).writes.revisions_sound hs₁).2 ?_
      exact rename_revisions_step_restamps hs hm hstamped hc h1
    · exact hmoves.restamped_after (ih hs₁ (hmoves.stamp_isSome hstamped) ⟨c, hmem, hc⟩ h2)

omit hs hm hstamped

theorem write_versioned_restamps {expected : Option Bytes}
    (h : write_versioned_in_txn s K.1 value expected incarnation = .ok (r, s'))
    (hr : r.refused = false) : Restamped revisions s s' K := by
  rcases write_versioned_ok h with ⟨href, -⟩ | ⟨-, _, token, -, -, hfresh, -, rfl⟩
  · rw [hr] at href
    cases href
  · exact advance_restamps hfresh K

theorem retire_restamps {expected terminal_image : Bytes}
    (h : retire_record_guard_in_txn s K.1 expected terminal_image incarnation = .ok (r, s'))
    (hr : r.refused = false) : Restamped revisions s s' K := by
  rcases retire_record_guard_ok h with ⟨href, -⟩ | ⟨-, -, token, v, hfresh, -, rfl⟩
  · rw [hr] at href
    cases href
  · obtain ⟨t, hstamp, hnew⟩ := advance_restamps hfresh K
    refine ⟨t, ?_, hnew⟩
    simp only [revisions, revision_in_txn, mark_record_owner_in_txn, Store.control_put_control,
      reduceCtorEq, if_false]
    exact hstamp

/-- **A write of a tracked row is a new revision.** -/
theorem execute_restamps (hs : Sound revisions s) (hK : Tracked s K)
    (h : execute_metadata_in_txn codec s c = .ok (r, s')) (hw : K.1 ∈ written_rows s c r) :
    Restamped revisions s s' K := by
  rcases execute_cases h with ⟨href, rfl⟩ | ⟨-, hord, harm⟩
  · -- a refusal writes no row
    unfold written_rows at hw
    split at hw <;> first | cases href | cases hw
  unfold written_rows at hw
  split at hw
  · next key value =>
      obtain rfl := mem_singleton.mp hw
      obtain ⟨⟨b, s₁⟩, hrefresh, harm⟩ := bind_eq_ok.mp harm
      obtain ⟨-, rfl⟩ := ok_pair_inj harm
      have hnew := hK.ordinary_restamps hord hrefresh
      exact hnew
  · next key =>
      obtain rfl := mem_singleton.mp hw
      obtain ⟨⟨b, s₁⟩, hrefresh, harm⟩ := bind_eq_ok.mp harm
      obtain ⟨-, rfl⟩ := ok_pair_inj harm
      have hnew := hK.ordinary_restamps hord hrefresh
      exact hnew
  · next key value expected_version current =>
      obtain rfl := mem_singleton.mp hw
      obtain ⟨current, -, harm⟩ := bind_eq_ok.mp harm
      split_ifs at harm
      · cases harm
      · obtain ⟨⟨b, s₁⟩, hrefresh, harm⟩ := bind_eq_ok.mp harm
        obtain ⟨-, rfl⟩ := ok_pair_inj harm
        have hnew := hK.ordinary_restamps hord hrefresh
        exact hnew
  · next key delta value =>
      -- a counter is never managed, so it is not tracked either
      obtain rfl := mem_singleton.mp hw
      have hm := hK.managed (ordinary_metadata_refusal_none hord)
      rw [execute_arm, adjust_counter, if_pos hm] at harm
      cases harm
  · next key value expected incarnation image =>
      obtain rfl := mem_singleton.mp hw
      exact write_versioned_restamps harm rfl
  · next guard_version key value expected incarnation image =>
      obtain rfl := mem_singleton.mp hw
      exact write_versioned_restamps harm rfl
  · next key expected value incarnation image =>
      obtain rfl := mem_singleton.mp hw
      exact retire_restamps harm rfl
  · next old_key new_key is_pas =>
      -- both ends of a move are restamped before any row is moved
      obtain ⟨hun, changes, s₁, hend, hrev, rfl⟩ := rename_metadata_written harm hw
      have hnew := rename_revisions_restamps hs (hK.managed hun) hK.stamped hend hrev
      exact hnew
  · cases hw

/-! ## Runs with restarts and restores -/

/-- What happens to a state machine: a log entry is applied, the process restarts over its store, or
an image is restored into some machine that goes on from there. -/
inductive Event where
  | apply (e : LogEntry)
  | restart
  | restore (image : Snapshot) (target : FullStateMachine)

def event_step (codec : MetadataCodec) (m : FullStateMachine) :
    Event → Option (Option CommandResult × FullStateMachine)
  | .apply e => (apply_step codec m e).map fun p => (some p.1, p.2)
  | .restart => (FullStateMachine.new m.store).toOption.map fun m' => (none, m')
  | .restore image target => some (none, restore_snapshot target image)

def RestoresCurrent (m : FullStateMachine) : Event → Prop
  | .restore image _ => image = snapshot m
  | _ => True

def Touches (codec : MetadataCodec) (K : String) (m : FullStateMachine) (event : Event) : Prop :=
  ∃ e r m', event = .apply e ∧ m.last_applied < e.index ∧
    apply codec m e.index e.command = .ok (r, m') ∧ K ∈ written_rows m.store e.command r

def Reports (m : FullStateMachine) (K : String) (version : Bytes) : Prop :=
  ∃ value, get_versioned_metadata m.store K = .ok ⟨value, some version⟩

theorem new_store {store : Store} (h : FullStateMachine.new store = .ok m) : m.store = store := by
  unfold FullStateMachine.new at h
  split at h
  · cases h
    rfl
  · split at h <;> cases h
    rfl

theorem revisions_congr (hc : s'.control_state = s.control_state) (hs : Sound revisions s) :
    (Sound revisions s' ∧ Moves revisions s s') ∧ ∀ K, Tracked s K → Tracked s' K := by
  have hrow (c : ControlRow) : s'.control c = s.control c := by
    unfold Store.control
    rw [hc]
  refine ⟨hs.keep (funext fun K => hrow _) (funext fun token => ?_), fun K hK => ⟨?_, ?_⟩⟩
  · simp only [revisions, hrow]
  · have hcond := hK.conditional
    unfold conditional_in_txn protected_in_txn record_policy_in_txn at hcond ⊢
    rw [hrow]
    exact hcond
  · have hstamped := hK.stamped
    unfold revision_in_txn at hstamped ⊢
    rw [hrow]
    exact hstamped

theorem not_lock_of_written {K : String} (h : K ∈ written_rows s c r) :
    c.is_lock_command = false := by
  cases c with
  | AcquireLock | ReleaseLock | ForceReleaseLock | ExtendLock => cases h
  | _ => rfl

theorem apply_restamps (hs : Sound revisions m.store) (hK : Tracked m.store K)
    (hidx : m.last_applied < index) (h : apply codec m index c = .ok (r, m'))
    (hw : K.1 ∈ written_rows m.store c r) : Restamped revisions m.store m'.store K := by
  rcases apply_cases (not_lock_of_written hw) h with ⟨hle, -, -⟩ | ⟨-, store, hexec, rfl⟩
  · exact absurd hidx (UInt64.not_lt.mpr hle)
  · have hnew := execute_restamps hs hK hexec hw
    exact hnew

/-- **One event.** The revisions stay sound and move forward, conditional paths stay conditional, a
tracked row that is written is restamped, and a row that is not written keeps its value unless a
restore leaves it out. -/
theorem event_step_revisions {event : Event} {r : Option CommandResult}
    (hs : Sound revisions m.store) (hok : RestoresCurrent m event)
    (h : event_step codec m event = some (r, m')) :
    (Sound revisions m'.store ∧ Moves revisions m.store m'.store) ∧ ∀ K : PlainPath,
      (Tracked m.store K → Tracked m'.store K ∧
        (Touches codec K.1 m event → Restamped revisions m.store m'.store K)) ∧
      (K.1 ≠ KEY_LAST_APPLIED → ¬ Touches codec K.1 m event →
        m'.store.metadata.get K.1 = m.store.metadata.get K.1 ∨ m'.store.metadata.get K.1 = none) := by
  have hquiet {K : String} (hne : ∀ e, event ≠ .apply e) : ¬ Touches codec K m event := by
    rintro ⟨e, -, -, heq, -⟩
    exact hne e heq
  cases event with
  | apply e =>
    obtain ⟨⟨r₁, m₁⟩, hstep, heq⟩ := map_eq_some_iff.mp h
    obtain ⟨rfl, rfl⟩ := Prod.mk.inj heq
    have happly := apply_step_eq_some.mp hstep
    -- `apply_writes` speaks of the store with the old streams; revisions do not see the difference
    have hw := apply_writes happly
    obtain ⟨hs₁, hmoves₁⟩ := hw.revisions_sound hs
    have hcontrol : m₁.store.control_state =
        { m₁.store with stream_entries := m.store.stream_entries }.control_state := rfl
    obtain ⟨⟨hs₂, hmoves₂⟩, htracked⟩ := revisions_congr hcontrol hs₁
    refine ⟨⟨hs₂, hmoves₁.trans hmoves₂⟩, fun K => ⟨fun hK => ⟨?_, ?_⟩, fun hmarker hno => ?_⟩⟩
    · exact htracked K (hK.mono hs hw)
    · rintro ⟨e', r', m', heq, hidx, happly', hwritten⟩
      cases heq
      rw [happly] at happly'
      obtain ⟨rfl, rfl⟩ := ok_pair_inj happly'
      exact apply_restamps hs hK hidx happly hwritten
    · refine .inl (apply_metadata_frame happly hmarker fun hidx hwritten => ?_)
      exact hno ⟨e, r₁, m₁, rfl, hidx, happly, hwritten⟩
  | restart =>
    obtain ⟨m₁, hnew, heq⟩ := map_eq_some_iff.mp h
    obtain ⟨-, rfl⟩ := Prod.mk.inj heq
    have hstore : m₁.store = m.store := by
      cases hopen : FullStateMachine.new m.store with
      | error err =>
        rw [hopen] at hnew
        cases hnew
      | ok m₂ =>
        rw [hopen] at hnew
        cases hnew
        exact new_store hopen
    rw [hstore]
    refine ⟨⟨hs, Moves.refl _⟩, fun K => ⟨fun hK => ⟨hK, fun ht => ?_⟩, fun _ _ => .inl rfl⟩⟩
    exact absurd ht (hquiet fun e heq => by cases heq)
  | restore image target =>
    obtain ⟨-, rfl⟩ := Prod.mk.inj (some.inj h)
    -- the image carries every control row but drops internal metadata rows
    have himage : image = snapshot m := hok
    subst himage
    have hcontrol : (restore_snapshot target (snapshot m)).store.control_state =
        m.store.control_state := Table.insert_all_scan_true _
    obtain ⟨hmoves, htracked⟩ := revisions_congr hcontrol hs
    refine ⟨hmoves, fun K => ⟨fun hK => ⟨htracked K hK, fun ht => ?_⟩, fun hmarker _ => ?_⟩⟩
    · exact absurd ht (hquiet fun e heq => by cases heq)
    · rw [restored_row m target hmarker]
      cases is_internal_key K.1
      · exact .inl rfl
      · exact .inr rfl

theorem revisions_sound_fresh : Sound revisions FullStateMachine.fresh.store := by
  have hnone (K : PlainPath) : revisions.stamp FullStateMachine.fresh.store K = none :=
    Table.get_empty _
  refine ⟨fun K t hK => ?_, fun K L t hK => ?_⟩
  all_goals
    rw [hnone K] at hK
    cases hK

section Run

variable {codec : MetadataCodec} {events : List Event} {results : List (Option CommandResult)}
  {m m' : FullStateMachine}

theorem run_revisions (hs : Sound revisions m.store)
    (hok : along (event_step codec) RestoresCurrent m events)
    (hrun : run (event_step codec) m events = some (results, m')) :
    Sound revisions m'.store ∧ Moves revisions m.store m'.store := by
  refine ⟨?_, ?_⟩
  · refine run_invariant (fun m => Sound revisions m.store) ?_ hs hok hrun
    intro m event r m' hs hok h
    exact (event_step_revisions hs hok h).1.1
  · refine run_relation (fun m => Sound revisions m.store)
      (fun m m' => Moves revisions m.store m'.store) (fun m => Moves.refl _) ?_ ?_ hs hok hrun
    · intro m m₁ m₂ h h'
      exact h.trans h'
    · intro m event r m' hs hok h
      exact (event_step_revisions hs hok h).1

theorem untouched_of_same_revision {K : PlainPath} {v : Bytes} (hmarker : K.1 ≠ KEY_LAST_APPLIED)
    (hs : Sound revisions m.store) (hK : Tracked m.store K)
    (hv : revision_in_txn m.store K.1 = some v)
    (hok : along (event_step codec) RestoresCurrent m events)
    (hrun : run (event_step codec) m events = some (results, m'))
    (hv' : revision_in_txn m'.store K.1 = some v) :
    along (event_step codec) (fun m event => ¬ Touches codec K.1 m event) m events ∧
      (m'.store.metadata.get K.1 = m.store.metadata.get K.1 ∨ m'.store.metadata.get K.1 = none) := by
  induction events generalizing m results with
  | nil =>
    cases hrun
    exact ⟨trivial, .inl rfl⟩
  | cons event events ih =>
    obtain ⟨r, m₁, results', h1, h2, rfl⟩ := run_cons.mp hrun
    obtain ⟨⟨hs₁, hmoves₁⟩, hrows⟩ := event_step_revisions hs hok.1 h1
    obtain ⟨htracked, hframe⟩ := hrows K
    obtain ⟨hK₁, hrestamp⟩ := htracked hK
    have hok₁ := hok.2 r m₁ h1
    have hissued : revisions.issued m.store v := hs.issued_of_stamp K v hv
    have hmoves₂ := (run_revisions hs₁ hok₁ h2).2
    -- the revision `v` is back at the end, so it was there all along
    have hv₁ : revision_in_txn m₁.store K.1 = some v :=
      hmoves₂.stamp_before (hmoves₁.issued_mono v hissued) hv'
    have hno : ¬ Touches codec K.1 m event := fun ht => (hrestamp ht).ne hissued hv₁
    obtain ⟨hrest, hvalue⟩ := ih hs₁ hK₁ hv₁ hok₁ h2
    refine ⟨⟨hno, fun r' m₂ h => ?_⟩, ?_⟩
    · rw [h1] at h
      obtain ⟨-, rfl⟩ := Prod.mk.inj (some.inj h)
      exact hrest
    · rcases hvalue with hvalue | hvalue
      · rw [hvalue]
        exact hframe hmarker hno
      · exact .inr hvalue

end Run

theorem versioned_image_some {value version : Option Bytes} {image : VersionedMetadata}
    (h : versioned_image value version = .ok image) (hv : image.version = some v) :
    image.value = value ∧ value.isSome ∧ version = some v := by
  unfold versioned_image at h
  cases value with
  | none =>
    cases h
    cases hv
  | some bytes =>
    cases version with
    | none => cases h
    | some version =>
      dsimp only at h
      split_ifs at h
      cases h
      exact ⟨rfl, rfl, hv⟩

theorem Reports.rows (h : Reports m K.1 v) :
    Tracked m.store K ∧ revision_in_txn m.store K.1 = some v ∧
      (m.store.metadata.get K.1).isSome := by
  obtain ⟨value, h⟩ := h
  obtain ⟨admitted, hadm, h⟩ := bind_eq_ok.mp h
  split_ifs at h with hcond
  obtain ⟨-, hsome, hrev⟩ := versioned_image_some h rfl
  refine ⟨⟨by rw [hadm, hcond], ?_⟩, hrev, hsome⟩
  rw [hrev]
  rfl

theorem committed_over_expected {key : String} (hidx : m.last_applied < index)
    (h : apply codec m index (.WriteVersionedMetadata key value (some v) incarnation) = .ok (r, m'))
    (hr : r.refused = false) : revision_in_txn m.store key = some v := by
  rcases apply_cases rfl h with ⟨hle, -, -⟩ | ⟨-, store, hexec, rfl⟩
  · exact absurd hidx (UInt64.not_lt.mpr hle)
  rcases execute_cases hexec with ⟨href, -⟩ | ⟨-, -, harm⟩
  · rw [hr] at href
    cases href
  · rcases write_versioned_ok harm with ⟨href, -⟩ | ⟨-, image, token, himage, hexp, -⟩
    · rw [hr] at href
      cases href
    · exact (versioned_image_some himage hexp).2.2

/-- **Revision tokens are never reused.** Let a run go from an empty store to `m₁` and on to `m₂`,
restoring only images of the state it has reached, and let `K` be reported with revision `v` at
`m₁`. If `K` is reported with `v` at `m₂` again, no command in between wrote its row and the value is
the same; no other path is reported with `v`; and a conditional write that expects `v` commits at
`m₂` only if no command in between wrote the row. -/
theorem revision_tokens_never_reused (codec : MetadataCodec) (events₁ events₂ : List Event)
    (results₁ results₂ : List (Option CommandResult)) (m₁ m₂ : FullStateMachine)
    (hok₁ : along (event_step codec) RestoresCurrent .fresh events₁)
    (hrun₁ : run (event_step codec) .fresh events₁ = some (results₁, m₁))
    (hok₂ : along (event_step codec) RestoresCurrent m₁ events₂)
    (hrun₂ : run (event_step codec) m₁ events₂ = some (results₂, m₂))
    (K : PlainPath) (hmarker : K.1 ≠ KEY_LAST_APPLIED) (v : Bytes) (hv : Reports m₁ K.1 v) :
    (Reports m₂ K.1 v →
      along (event_step codec) (fun m event => ¬ Touches codec K.1 m event) m₁ events₂ ∧
        m₂.store.metadata.get K.1 = m₁.store.metadata.get K.1) ∧
    (∀ L : PlainPath, Reports m₂ L.1 v → L = K) ∧
    (∀ index value incarnation r m₃, m₂.last_applied < index →
      apply codec m₂ index (.WriteVersionedMetadata K.1 value (some v) incarnation) = .ok (r, m₃) →
      r.refused = false →
      along (event_step codec) (fun m event => ¬ Touches codec K.1 m event) m₁ events₂) := by
  have hs₁ : Sound revisions m₁.store := (run_revisions revisions_sound_fresh hok₁ hrun₁).1
  obtain ⟨-, hmoves⟩ := run_revisions hs₁ hok₂ hrun₂
  obtain ⟨htracked, hrev, -⟩ := hv.rows
  have hsame (h : revision_in_txn m₂.store K.1 = some v) :=
    untouched_of_same_revision hmarker hs₁ htracked hrev hok₂ hrun₂ h
  refine ⟨fun hv₂ => ?_, fun L hL => ?_, ?_⟩
  · obtain ⟨-, hrev₂, hsome⟩ := hv₂.rows
    obtain ⟨huntouched, hvalue⟩ := hsame hrev₂
    refine ⟨huntouched, ?_⟩
    rcases hvalue with hvalue | hnone
    · exact hvalue
    · rw [hnone] at hsome
      cases hsome
  · have hL₁ : revision_in_txn m₁.store L.1 = some v :=
      hmoves.stamp_before (hs₁.issued_of_stamp K v hrev) hL.rows.2.1
    exact hs₁.inj L K v hL₁ hrev
  · intro index value incarnation r m₃ hidx happly hr
    exact (hsame (committed_over_expected hidx happly hr)).1

def sample_path : PlainPath := ⟨"/__managed_content_v1__/x", by decide⟩

def sample_incarnation : Incarnation := ⟨replicate 16 0, rfl⟩

def sample_create (value : Bytes) : Event :=
  .apply ⟨1, .WriteVersionedMetadata sample_path.1 value none sample_incarnation⟩

def sample_moves (m : FullStateMachine) : List Event :=
  [.restore (snapshot m) .fresh, .apply ⟨2, .SetMetadata "/y" [2]⟩, .restart]

theorem revision_tokens_never_reused_sample :
    ∃ results₁ m₁ results₂ m₂ v,
      run (event_step .unreadable) .fresh [sample_create [1]] = some (results₁, m₁) ∧
      run (event_step .unreadable) m₁ (sample_moves m₁) = some (results₂, m₂) ∧
      Reports m₁ sample_path.1 v ∧ Reports m₂ sample_path.1 v ∧
      m₂.store.metadata.get sample_path.1 = m₁.store.metadata.get sample_path.1 := by
  have hrun : (run (event_step .unreadable) .fresh [sample_create [1]]).any (fun p =>
      succeeds (get_versioned_metadata p.2.store sample_path.1) (fun i =>
        decide (i.version = some (be 23 0 ++ [1]))) &&
      (run (event_step .unreadable) p.2 (sample_moves p.2)).any (fun q =>
        succeeds (get_versioned_metadata q.2.store sample_path.1) (fun i =>
          decide (i.version = some (be 23 0 ++ [1]))))) = true := by
    decide +kernel
  obtain ⟨⟨results₁, m₁⟩, hrun₁, hrest⟩ := (any_eq_true _ _).mp hrun
  obtain ⟨hget₁, hrest⟩ := Bool.and_eq_true_iff.mp hrest
  obtain ⟨⟨results₂, m₂⟩, hrun₂, hget₂⟩ := (any_eq_true _ _).mp hrest
  obtain ⟨⟨value₁, version₁⟩, hread₁, hversion₁⟩ := succeeds_iff.mp hget₁
  obtain ⟨⟨value₂, version₂⟩, hread₂, hversion₂⟩ := succeeds_iff.mp hget₂
  obtain rfl : version₁ = _ := of_decide_eq_true hversion₁
  obtain rfl : version₂ = _ := of_decide_eq_true hversion₂
  refine ⟨results₁, m₁, results₂, m₂, _, hrun₁, hrun₂, ⟨value₁, hread₁⟩, ⟨value₂, hread₂⟩, ?_⟩
  have hok₁ : along (event_step .unreadable) RestoresCurrent .fresh [sample_create [1]] :=
    ⟨trivial, fun _ _ _ => trivial⟩
  have hok₂ : along (event_step .unreadable) RestoresCurrent m₁ (sample_moves m₁) :=
    ⟨rfl, fun _ _ _ => ⟨trivial, fun _ _ _ => ⟨trivial, fun _ _ _ => trivial⟩⟩⟩
  obtain ⟨hsame, -⟩ := revision_tokens_never_reused .unreadable _ _ results₁ results₂ m₁ m₂
    hok₁ hrun₁ hok₂ hrun₂ sample_path (by decide) _ ⟨value₁, hread₁⟩
  exact (hsame ⟨value₂, hread₂⟩).2

/-- A run in which `K` is reported twice with one revision and two values. -/
def Reuses (codec : MetadataCodec) (events₁ events₂ : List Event) (K : String) : Prop :=
  ∃ results₁ m₁ results₂ m₂ v,
    run (event_step codec) .fresh events₁ = some (results₁, m₁) ∧
    run (event_step codec) m₁ events₂ = some (results₂, m₂) ∧
    Reports m₁ K v ∧ Reports m₂ K v ∧ m₂.store.metadata.get K ≠ m₁.store.metadata.get K

def reuses (codec : MetadataCodec) (events₁ events₂ : List Event) (K : String) : Bool :=
  (run (event_step codec) .fresh events₁).any fun p =>
    (run (event_step codec) p.2 events₂).any fun q =>
      succeeds (get_versioned_metadata p.2.store K) fun i =>
        succeeds (get_versioned_metadata q.2.store K) fun j =>
          i.version.isSome && decide (i.version = j.version) &&
            decide (q.2.store.metadata.get K ≠ p.2.store.metadata.get K)

theorem reuses_of_test {events₁ events₂ : List Event} {K : String}
    (h : reuses codec events₁ events₂ K = true) : Reuses codec events₁ events₂ K := by
  obtain ⟨⟨results₁, m₁⟩, hrun₁, h⟩ := (any_eq_true _ _).mp h
  obtain ⟨⟨results₂, m₂⟩, hrun₂, h⟩ := (any_eq_true _ _).mp h
  obtain ⟨⟨value₁, version₁⟩, hread₁, h⟩ := succeeds_iff.mp h
  obtain ⟨⟨value₂, version₂⟩, hread₂, h⟩ := succeeds_iff.mp h
  simp only [Bool.and_eq_true, decide_eq_true_eq] at h
  obtain ⟨⟨hsome, rfl⟩, hvalue⟩ := h
  obtain ⟨v, rfl⟩ := isSome_iff_exists.mp hsome
  exact ⟨results₁, m₁, results₂, m₂, v, hrun₁, hrun₂, ⟨value₁, hread₁⟩, ⟨value₂, hread₂⟩, hvalue⟩

/-- **Where the code reuses a revision.** The marker row, once adopted, changes with every command
under one revision. The revision of a path with a NUL can be put back by a control command in a
namespace that spells out its row. And an image older than the store brings its allocator back. -/
theorem revisions_reused :
    Reuses .unreadable
      [.apply ⟨1, .Noop⟩,
       .apply ⟨2, .AdoptProtectedMetadata KEY_LAST_APPLIED (some (u64_to_be_bytes 1))
         sample_incarnation⟩]
      [.apply ⟨3, .Noop⟩] KEY_LAST_APPLIED ∧
    Reuses .unreadable
      [.apply ⟨1, .WriteVersionedMetadata "/__managed_content_v1__/x\x00y" [1] none
         sample_incarnation⟩]
      [.apply ⟨2, .SetMetadata "/__managed_content_v1__/x\x00y" [2]⟩,
       .apply ⟨3, .PutControlState "content-version-v1\x00path:/__managed_content_v1__/x" "y"
         (be 23 0 ++ [1]) false⟩]
      "/__managed_content_v1__/x\x00y" ∧
    Reuses .unreadable [sample_create [1]]
      [.restore (snapshot .fresh) .fresh, sample_create [2]] sample_path.1 := by
  refine ⟨reuses_of_test ?_, reuses_of_test ?_, reuses_of_test ?_⟩ <;> decide +kernel

end NexusVfs
