/-
Retirement and binding are permanent.

`FenceInv`: a bound or retired path is protected, and never both. For the rows of a
bound stream the run must meet a condition: a trim of an unbound parent stream deletes
segment records of a bound child, and a stream prefix that does not begin and end in `/`
can spell a row of another stream.
-/
import NexusVfs.Revisions
import NexusVfs.StreamIsolation

namespace NexusVfs

open Option List Words Text Runs

/-! ## The rows of the fence -/

structure FenceInv (s : Store) : Prop where
  /-- A policy row holds a policy. -/
  policy : ∀ (K : PlainPath) (v : Bytes), s.control (.policy K.1) = some v →
    v = CONDITIONAL_ONLY ∨ v = RECORD_OWNER ∨ v = RECORD_IO_OWNER
  /-- A bound record is a valid path, is protected, and is no retired owner. -/
  bound : ∀ (K : PlainPath) (b : Bytes), s.control (.binding K.1) = some b →
    s.control (.policy K.1) ≠ none ∧ s.control (.retired K.1) = none ∧
      validate_path_fast K.1 = none
  /-- A retired owner is protected and not bound itself. -/
  retired : ∀ (K : PlainPath) (v : Bytes), s.control (.retired K.1) = some v →
    s.control (.policy K.1) ≠ none ∧ s.control (.binding K.1) = none

theorem FenceInv.fresh : FenceInv FullStateMachine.fresh.store := by
  have hnone (c : ControlRow) : FullStateMachine.fresh.store.control c = none := Table.get_empty _
  refine ⟨fun K v h => ?_, fun K b h => ?_, fun K v h => ?_⟩ <;>
    (rw [hnone] at h; cases h)

variable {s s' : Store} {c : Command} {K : PlainPath} {codec : MetadataCodec} {r : CommandResult}
variable {m m' : FullStateMachine}

theorem FenceInv.congr (h : FenceInv s)
    (hpol : ∀ K : PlainPath, s'.control (.policy K.1) = s.control (.policy K.1))
    (hbind : ∀ K : PlainPath, s'.control (.binding K.1) = s.control (.binding K.1))
    (hret : ∀ K : PlainPath, s'.control (.retired K.1) = s.control (.retired K.1)) :
    FenceInv s' := by
  refine ⟨fun K v hv => ?_, fun K b hb => ?_, fun K v hv => ?_⟩
  · rw [hpol] at hv
    exact h.policy K v hv
  · rw [hbind] at hb
    rw [hpol, hret]
    exact h.bound K b hb
  · rw [hret] at hv
    rw [hpol, hbind]
    exact h.retired K v hv

variable {path key : String} {op : StreamOp} {m'' : FullStateMachine} {G : PlainPath} {e : LogEntry}

theorem first_invalid_path_cons {paths : List String}
    (h : first_invalid_path (path :: paths) = none) : validate_path_fast path = none := by
  unfold first_invalid_path at h
  rw [findSome?_cons] at h
  cases hv : validate_path_fast path with
  | none => rfl
  | some error =>
    rw [hv] at h
    cases h

/-- The rows a bound or retired path keeps: bindings and marks are never removed or changed. -/
structure FenceKept (s s' : Store) : Prop where
  binding : ∀ (K : PlainPath) (b : Bytes), s.control (.binding K.1) = some b →
    s'.control (.binding K.1) = some b
  retired : ∀ (K : PlainPath) (v : Bytes), s.control (.retired K.1) = some v →
    s'.control (.retired K.1) = some v

theorem FenceKept.refl (s : Store) : FenceKept s s := ⟨fun _ _ h => h, fun _ _ h => h⟩

theorem FenceKept.trans {s'' : Store} (h : FenceKept s s') (h' : FenceKept s' s'') :
    FenceKept s s'' :=
  ⟨fun K b hb => h'.binding K b (h.binding K b hb), fun K v hv => h'.retired K v (h.retired K v hv)⟩

section PutControl

variable {s : Store} (h : FenceInv s)
include h

variable {v : Bytes}

variable {key : String}

theorem FenceInv.put_policy (hv : v = CONDITIONAL_ONLY ∨ v = RECORD_OWNER ∨ v = RECORD_IO_OWNER) :
    FenceInv (s.put_control (.policy key) v) := by
  have hsome (K : PlainPath) (hK : s.control (.policy K.1) ≠ none) :
      (s.put_control (.policy key) v).control (.policy K.1) ≠ none := by
    rw [Store.control_put_control]
    by_cases hkey : ControlRow.policy K.1 = .policy key
    · rw [if_pos hkey]
      exact some_ne_none v
    · rw [if_neg hkey]
      exact hK
  refine ⟨fun K w hw => ?_, fun K b hb => ?_, fun K w hw => ?_⟩
  · rw [Store.control_put_control] at hw
    by_cases hkey : ControlRow.policy K.1 = .policy key
    · rw [if_pos hkey] at hw
      exact some.inj hw ▸ hv
    · rw [if_neg hkey] at hw
      exact h.policy K w hw
  · rw [s.control_put_control_of_ne _ (by simp)] at hb
    obtain ⟨hpol, hrest⟩ := h.bound K b hb
    refine ⟨hsome K hpol, ?_⟩
    rw [s.control_put_control_of_ne _ (by simp)]
    exact hrest
  · rw [s.control_put_control_of_ne _ (by simp)] at hw
    obtain ⟨hpol, hbind⟩ := h.retired K w hw
    refine ⟨hsome K hpol, ?_⟩
    rw [s.control_put_control_of_ne _ (by simp)]
    exact hbind

theorem FenceInv.put_binding (hpath : validate_path_fast key = none)
    (hret : s.control (.retired key) = none) (hpol : s.control (.policy key) ≠ none) :
    FenceInv (s.put_control (.binding key) v) := by
  refine ⟨fun K w hw => ?_, fun K b hb => ?_, fun K w hw => ?_⟩
  · rw [s.control_put_control_of_ne _ (by simp)] at hw
    exact h.policy K w hw
  · rw [s.control_put_control_of_ne _ (by simp), s.control_put_control_of_ne _ (by simp)]
    by_cases hkey : K.1 = key
    · rw [hkey]
      exact ⟨hpol, hret, hpath⟩
    · rw [s.control_put_control_of_ne _ (by simpa using hkey)] at hb
      exact h.bound K b hb
  · -- a retired path is not the one bound now
    rw [s.control_put_control_of_ne _ (by simp)] at hw
    have hkey : K.1 ≠ key := by
      intro hkey
      rw [hkey, hret] at hw
      cases hw
    rw [s.control_put_control_of_ne _ (by simp), s.control_put_control_of_ne _ (by simpa using hkey)]
    exact h.retired K w hw

theorem FenceInv.put_retired (hbind : s.control (.binding key) = none)
    (hpol : s.control (.policy key) ≠ none) : FenceInv (s.put_control (.retired key) v) := by
  refine ⟨fun K w hw => ?_, fun K b hb => ?_, fun K w hw => ?_⟩
  · rw [s.control_put_control_of_ne _ (by simp)] at hw
    exact h.policy K w hw
  · -- a bound path is not the one retired now
    rw [s.control_put_control_of_ne _ (by simp)] at hb
    have hkey : K.1 ≠ key := by
      intro hkey
      rw [hkey, hbind] at hb
      cases hb
    rw [s.control_put_control_of_ne _ (by simp), s.control_put_control_of_ne _ (by simpa using hkey)]
    exact h.bound K b hb
  · rw [s.control_put_control_of_ne _ (by simp), s.control_put_control_of_ne _ (by simp)]
    by_cases hkey : K.1 = key
    · rw [hkey]
      exact ⟨hpol, hbind⟩
    · rw [s.control_put_control_of_ne _ (by simpa using hkey)] at hw
      exact h.retired K w hw

end PutControl

theorem FenceKept.put_control {c : ControlRow} {v : Bytes}
    (hfree : (∀ path, c ≠ .binding path ∧ c ≠ .retired path) ∨ s.control c = none) :
    FenceKept s (s.put_control c v) := by
  have hkeep (d : ControlRow) (w : Bytes) (hd : s.control d = some w)
      (hrow : (∃ path, d = .binding path) ∨ ∃ path, d = .retired path) :
      (s.put_control c v).control d = some w := by
    have hne : d ≠ c := by
      rintro rfl
      rcases hfree with hfree | hnone
      · rcases hrow with ⟨path, rfl⟩ | ⟨path, rfl⟩
        · exact (hfree path).1 rfl
        · exact (hfree path).2 rfl
      · rw [hnone] at hd
        cases hd
    rw [s.control_put_control_of_ne _ hne]
    exact hd
  exact ⟨fun K b hb => hkeep _ b hb (.inl ⟨K.1, rfl⟩), fun K w hw => hkeep _ w hw (.inr ⟨K.1, rfl⟩)⟩

theorem Write.fence (h : FenceInv s) (hw : Write s s') : FenceInv s' ∧ FenceKept s s' := by
  -- the writes that do not touch the fence
  have hcongr (hpol : ∀ K : PlainPath, s'.control (.policy K.1) = s.control (.policy K.1))
      (hbind : ∀ K : PlainPath, s'.control (.binding K.1) = s.control (.binding K.1))
      (hret : ∀ K : PlainPath, s'.control (.retired K.1) = s.control (.retired K.1)) :
      FenceInv s' ∧ FenceKept s s' :=
    ⟨h.congr hpol hbind hret, fun K _ hb => (hbind K).trans hb, fun K _ hv => (hret K).trans hv⟩
  cases hw with
  | metadata t => exact hcongr (fun _ => rfl) (fun _ => rfl) fun _ => rfl
  | control t hrows =>
    exact hcongr (fun K => hrows _ (K.nulFree rfl)) (fun K => hrows _ (K.nulFree rfl))
      fun K => hrows _ (K.nulFree rfl)
  | advance key hfresh =>
    refine hcongr (fun K => ?_) (fun K => ?_) fun K => ?_ <;>
      rw [control_advance, if_neg (by simp)]
  | requirement v =>
    refine hcongr (fun K => ?_) (fun K => ?_) fun K => ?_ <;>
      rw [s.control_put_control_of_ne _ (by simp)]
  | policy key v hv =>
    refine ⟨h.put_policy ?_, .put_control (.inl fun path => by simp)⟩
    rcases hv with ⟨hv, -⟩ | hv
    · exact .inl hv
    · exact .inr hv
  | binding key guard_key hpath hfree hret hpol =>
    exact ⟨h.put_binding (first_invalid_path_cons hpath) hret hpol, .put_control (.inr hfree)⟩
  | retired key token hfree hbind hpol =>
    exact ⟨h.put_retired hbind hpol, .put_control (.inr hfree)⟩

theorem Writes.fence (h : FenceInv s) (hw : Writes s s') : FenceInv s' ∧ FenceKept s s' := by
  induction hw with
  | refl => exact ⟨h, FenceKept.refl s⟩
  | tail _ hlast ih =>
    obtain ⟨hinv, hkept⟩ := ih
    obtain ⟨hinv', hkept'⟩ := hlast.fence hinv
    exact ⟨hinv', hkept.trans hkept'⟩

/-! ## What a fenced path is safe from -/

def Fenced (s : Store) (K : PlainPath) : Prop :=
  (s.control (.binding K.1)).isSome ∨ (s.control (.retired K.1)).isSome

theorem Fenced.is_protected (hK : Fenced s K) (h : FenceInv s) :
    protected_in_txn s K.1 = .ok true := by
  have hpol : s.control (.policy K.1) ≠ none := by
    rcases hK with hb | hr
    · obtain ⟨b, hb⟩ := isSome_iff_exists.mp hb
      exact (h.bound K b hb).1
    · obtain ⟨v, hv⟩ := isSome_iff_exists.mp hr
      exact (h.retired K v hv).1
  obtain ⟨v, hv⟩ := ne_none_iff_exists.mp hpol
  exact protected_eq_true_iff.mpr ⟨v, hv.symm, h.policy K v hv.symm⟩

theorem Fenced.ne (hK : Fenced s K) (hret : s.control (.retired key) = none)
    (hbind : s.control (.binding key) = none) : K.1 ≠ key := by
  intro heq
  unfold Fenced at hK
  rw [heq, hret, hbind] at hK
  rcases hK with h | h <;> cases h

theorem Fenced.ne_of_unprotected (hK : Fenced s K) (h : FenceInv s)
    (hun : protected_in_txn s key = .ok false) : K.1 ≠ key := by
  intro heq
  have hprot := hK.is_protected h
  rw [heq, hun] at hprot
  cases hprot

def Command.Guards (c : Command) (K : String) : Prop :=
  ∃ guard_version mutation, c = .GuardedRecord guard_version mutation ∧ mutation.key = some K

section

variable (hK : Fenced s K) (h : FenceInv s) (hguard : record_guard_refusal s c = .ok none)
  (hord : ordinary_refusal s c = .ok none) (harm : execute_arm codec s c = .ok (r, s'))
  (hnot : ¬ c.Guards K.1)
include hK h hguard hord harm hnot

theorem Fenced.not_written :
    K.1 ∉ written_rows s c r := by
  intro hw
  unfold written_rows at hw
  split at hw
  · next key value =>
      exact hK.ne_of_unprotected h (ordinary_metadata_refusal_none hord) (mem_singleton.mp hw)
  · next key =>
      exact hK.ne_of_unprotected h (ordinary_metadata_refusal_none hord) (mem_singleton.mp hw)
  · next key value expected_version current =>
      exact hK.ne_of_unprotected h (ordinary_metadata_refusal_none hord) (mem_singleton.mp hw)
  · next key delta value =>
      exact hK.ne_of_unprotected h (ordinary_metadata_refusal_none hord) (mem_singleton.mp hw)
  · next key value expected incarnation image =>
      obtain ⟨hret, hbind⟩ := plain_record_passes (Except.ok.inj hguard) rfl
      exact hK.ne hret hbind (mem_singleton.mp hw)
  · next guard_version key value expected incarnation image =>
      exact hnot ⟨guard_version, _, rfl, congrArg some (mem_singleton.mp hw).symm⟩
  · next key expected value incarnation image =>
      rcases retire_record_guard_ok harm with ⟨href, -⟩ | ⟨hbind, hlive, -⟩
      · cases href
      · exact hK.ne hlive.not_retired hbind (mem_singleton.mp hw)
  · next old_key new_key is_pas =>
      obtain ⟨hun, -⟩ := rename_metadata_written harm hw
      exact hK.ne_of_unprotected h hun rfl
  · cases hw

theorem Fenced.arm_frame :
    s'.metadata.get K.1 = s.metadata.get K.1 ∧ revision_in_txn s' K.1 = revision_in_txn s K.1 := by
  have hwritten := hK.not_written h hguard hord harm hnot
  have hframe := execute_arm_frame harm
  refine ⟨hframe.metadata _ hwritten, ?_⟩
  by_cases henrol : c.enrolled_path = some K.1
  swap
  · exact hframe.control (.revision K.1) (K.nulFree rfl) (not_or.mpr ⟨hwritten, henrol⟩)
  -- an enrolment of a fenced path finds it protected and leaves it
  cases c with
  | AdoptProtectedMetadata key expected_image incarnation =>
    obtain rfl : key = K.1 := some.inj henrol
    rcases adopt_protected_ok harm with ⟨-, rfl, -⟩ | ⟨-, rfl⟩ | ⟨-, hun, -⟩
    · rfl
    · rfl
    · exact absurd rfl (hK.ne_of_unprotected h hun)
  | BindRecordGuard key expected_image guard_key guard_version incarnation =>
    obtain rfl : key = K.1 := some.inj henrol
    rcases bind_record_guard_ok harm with rfl | ⟨-, -, -, -, -, -, hret, hbind, -⟩
    · rfl
    · exact absurd rfl (hK.ne hret hbind)
  | _ => cases henrol

end

/-! ## Bound streams -/

theorem not_empty_of_valid (h : validate_path_fast path = none) : path ≠ "" := by
  rintro rfl
  cases h

theorem delimited_stream_path_of_valid (h : path ≠ "") :
    delimited_stream_path ( wal_stream_prefix path) = some path := by
  have hend : ends_with ( wal_stream_prefix path) '/' = true :=
    (WalPrefix.framed ⟨.stream, path⟩).ends
  rw [delimited_stream_path, if_pos hend, watch_path_of_wal_stream_prefix h]

/-- The record behind a stream command: a plain command names it by its prefix, and so does a guarded
mutation. -/
theorem stream_op_record {stream : String} (h : c.stream_op = some (stream, op)) :
    (c.guarded_record_key = delimited_stream_path stream ∧
      ∀ s, record_guard_refusal s c = .ok (plain_record_refusal s c)) ∨
    ∃ guard_version mutation, c = .GuardedRecord guard_version mutation ∧
      mutation.key = delimited_stream_path stream := by
  cases c with
  | AppendStreamEntry stream' data | SealStreamSegment stream' base end_ content_id origin size
  | TrimStreamSegment stream' up_to_seq trimmed =>
    cases h
    exact .inl ⟨rfl, fun _ => rfl⟩
  | GuardedRecord guard_version mutation =>
    cases mutation with
    | ReplaceMetadata => cases h
    | Append | Seal | Trim =>
      cases h
      exact .inr ⟨_, _, rfl, rfl⟩
  | _ => cases h

theorem stream_op_guards {K : String} {b : Bytes} (hK : K ≠ "")
    (hc : c.stream_op = some ( wal_stream_prefix K, op))
    (hguard : record_guard_refusal s c = .ok none) (hb : s.control (.binding K) = some b) :
    c.Guards K := by
  rcases stream_op_record hc with ⟨hkey, hplain⟩ | ⟨guard_version, mutation, rfl, hkey⟩
  · rw [delimited_stream_path_of_valid hK] at hkey
    rw [hplain] at hguard
    obtain ⟨-, hbind⟩ := plain_record_passes (Except.ok.inj hguard) hkey
    rw [hb] at hbind
    cases hbind
  · rw [delimited_stream_path_of_valid hK] at hkey
    exact ⟨guard_version, mutation, rfl, hkey⟩

/-! ## One step -/

/-- What the fence of `G` asks of one step: a stream command that takes effect has a prefix that
begins and ends in `/`, and is no trim that reaches into a stream bound to `G`. -/
def FenceStepOk (G : String) (m : FullStateMachine) (e : LogEntry) : Prop :=
  ∀ stream op, e.command.stream_op = some (stream, op) → TakesEffect m e.index e.command →
    SlashFramed stream ∧ ∀ K : PlainPath, m.store.control (.binding K.1) = some (as_bytes G) →
      stream ≠ wal_stream_prefix K.1 → ∀ row,
        ¬ op.Drops m.store.stream_entries stream ( wal_stream_prefix K.1) row

/-- The record at `K`: its metadata image and revision, and the rows of the stream at this path. -/
structure SameRecord (m m' : FullStateMachine) (K : String) : Prop where
  image : m'.store.metadata.get K = m.store.metadata.get K
  revision : revision_in_txn m'.store K = revision_in_txn m.store K
  stream : ∀ row, m'.store.stream_entries.get (row_key ( wal_stream_prefix K) row) =
    m.store.stream_entries.get (row_key ( wal_stream_prefix K) row)

theorem SameRecord.refl (m : FullStateMachine) (K : String) : SameRecord m m K :=
  ⟨rfl, rfl, fun _ => rfl⟩

theorem SameRecord.trans {K : String} (h : SameRecord m m' K)
    (h' : SameRecord m' m'' K) : SameRecord m m'' K :=
  ⟨h'.image.trans h.image, h'.revision.trans h.revision,
    fun row => (h'.stream row).trans (h.stream row)⟩

section Step

variable {codec : MetadataCodec} {m : FullStateMachine} {e : LogEntry} {r : CommandResult}
  {m' : FullStateMachine} (h : FenceInv m.store)
  (happly : apply codec m e.index e.command = .ok (r, m'))
include h happly

theorem apply_fence : FenceInv m'.store ∧ FenceKept m.store m'.store := by
  obtain ⟨hinv, hkept⟩ := (apply_writes happly).fence h
  refine ⟨hinv.congr (fun _ => rfl) (fun _ => rfl) fun _ => rfl, ?_⟩
  exact ⟨fun K b hb => hkept.binding K b hb, fun K v hv => hkept.retired K v hv⟩

theorem Fenced.apply_frame {K : PlainPath} (hK : Fenced m.store K)
    (hmarker : K.1 ≠ KEY_LAST_APPLIED) (hnot : ¬ (e.command.Guards K.1 ∧
      record_guard_refusal m.store e.command = .ok none)) :
    m'.store.metadata.get K.1 = m.store.metadata.get K.1 ∧
      revision_in_txn m'.store K.1 = revision_in_txn m.store K.1 := by
  rcases apply_store_cases happly with heq | ⟨-, -, store, hexec, heq⟩
  · rw [heq]
    exact ⟨rfl, rfl⟩
  · rw [heq, put_marker, Store.metadata_put_metadata, Table.get_insert_of_ne _ _ hmarker]
    rcases execute_cases hexec with ⟨-, rfl⟩ | ⟨hguard, hord, harm⟩
    · exact ⟨rfl, rfl⟩
    · exact hK.arm_frame h hguard hord harm fun hg => hnot ⟨hg, hguard⟩

variable {G : PlainPath}

theorem retired_step {v : Bytes} (hG : m.store.control (.retired G.1) = some v)
    (hmarker : G.1 ≠ KEY_LAST_APPLIED) :
    m'.store.metadata.get G.1 = m.store.metadata.get G.1 ∧
      revision_in_txn m'.store G.1 = revision_in_txn m.store G.1 := by
  have hfenced : Fenced m.store G := .inr (by rw [hG]; rfl)
  refine hfenced.apply_frame h happly hmarker ?_
  rintro ⟨⟨guard_version, mutation, hcmd, hkey⟩, hguard⟩
  -- a guarded mutation needs a binding, and a retired owner has none
  rw [hcmd] at hguard
  obtain ⟨key, binding, guard_key, hkey', hbind, -⟩ := guarded_record_passes hguard
  rw [hkey] at hkey'
  obtain rfl := some.inj hkey'
  rw [(h.retired G v hG).2] at hbind
  cases hbind

theorem bound_step {K : PlainPath} (hb : m.store.control (.binding K.1) = some (as_bytes G.1))
    (hok : FenceStepOk G.1 m e) :
    SameRecord m m' K.1 ∨ ∃ guard_version mutation,
      e.command = .GuardedRecord guard_version mutation ∧ mutation.key = some K.1 ∧
        LiveGuard m.store G.1 guard_version := by
  obtain ⟨-, -, hpath⟩ := h.bound K _ hb
  have hempty := not_empty_of_valid hpath
  have hmarker := valid_ne_marker hpath
  by_cases hguards : e.command.Guards K.1 ∧ record_guard_refusal m.store e.command = .ok none
  · obtain ⟨⟨guard_version, mutation, hcmd, hkey⟩, hguard⟩ := hguards
    refine .inr ⟨guard_version, mutation, hcmd, hkey, ?_⟩
    rw [hcmd] at hguard
    obtain ⟨key, binding, guard_key, hkey', hbind, hutf8, hlive⟩ := guarded_record_passes hguard
    rw [hkey] at hkey'
    obtain rfl := some.inj hkey'
    rw [hb] at hbind
    obtain rfl := some.inj hbind
    rw [from_utf8_as_bytes] at hutf8
    exact some.inj hutf8 ▸ hlive
  · have hfenced : Fenced m.store K := .inl (by rw [hb]; rfl)
    obtain ⟨himage, hrev⟩ := hfenced.apply_frame h happly hmarker hguards
    refine .inl ⟨himage, hrev, fun row => ?_⟩
    cases hop : e.command.stream_op with
    | none => rw [apply_streams_frame happly hop]
    | some p =>
      obtain ⟨stream, op⟩ := p
      rcases apply_stream_op hop happly with ⟨heff, -, htab⟩ | ⟨-, -, htab⟩
      · obtain ⟨hframed, hnodrop⟩ := hok stream op hop heff
        have hne : stream ≠ wal_stream_prefix K.1 := by
          rintro rfl
          exact hguards ⟨stream_op_guards hempty hop heff.2 hb, heff.2⟩
        rw [htab]
        exact StreamOp.exec_row_of_not_drops hframed (WalPrefix.framed ⟨.stream, K.1⟩) hne.symm
          (hnodrop K hb hne row)
      · rw [htab]

end Step

/-! ## Whole runs -/

/-- What a retired owner fixes from one state to a later one. -/
structure Settled (G : PlainPath) (m m' : FullStateMachine) : Prop where
  mark : ∀ v, m.store.control (.retired G.1) = some v → m'.store.control (.retired G.1) = some v
  image : m'.store.metadata.get G.1 = m.store.metadata.get G.1
  revision : revision_in_txn m'.store G.1 = revision_in_txn m.store G.1
  records : ∀ K : PlainPath, m.store.control (.binding K.1) = some (as_bytes G.1) →
    m'.store.control (.binding K.1) = some (as_bytes G.1) ∧ SameRecord m m' K.1

theorem Settled.refl (G : PlainPath) (m : FullStateMachine) : Settled G m m :=
  ⟨fun _ h => h, rfl, rfl, fun K h => ⟨h, SameRecord.refl m K.1⟩⟩

theorem Settled.trans (h : Settled G m m') (h' : Settled G m' m'') : Settled G m m'' := by
  refine ⟨fun v hv => h'.mark v (h.mark v hv), h'.image.trans h.image, h'.revision.trans h.revision,
    fun K hK => ?_⟩
  obtain ⟨hb, hsame⟩ := h.records K hK
  obtain ⟨hb', hsame'⟩ := h'.records K hb
  exact ⟨hb', hsame.trans hsame'⟩

theorem settled_step (hmarker : G.1 ≠ KEY_LAST_APPLIED)
    (h : FenceInv m.store) (hret : (m.store.control (.retired G.1)).isSome)
    (hok : FenceStepOk G.1 m e) (happly : apply codec m e.index e.command = .ok (r, m')) :
    Settled G m m' := by
  obtain ⟨v, hv⟩ := isSome_iff_exists.mp hret
  obtain ⟨-, hkept⟩ := apply_fence h happly
  obtain ⟨himage, hrev⟩ := retired_step h happly hv hmarker
  refine ⟨fun w hw => hkept.retired G w hw, himage, hrev, fun K hK => ⟨hkept.binding K _ hK, ?_⟩⟩
  rcases bound_step h happly hK hok with hsame | ⟨guard_version, mutation, -, -, hlive⟩
  · exact hsame
  · -- a retired owner has no live handle
    have hnone := hlive.not_retired
    rw [hv] at hnone
    cases hnone

theorem fence_reachable {entries : List LogEntry} {results : List CommandResult}
    (hrun : run (apply_step codec) .fresh entries = some (results, m)) : FenceInv m.store := by
  have hany : along (apply_step codec) (fun _ _ => True) .fresh entries :=
    along_of_forall_mem fun _ _ _ => trivial
  refine run_invariant (fun m => FenceInv m.store) ?_ FenceInv.fresh hany hrun
  intro m e r m' h _ hstep
  exact (apply_fence h (apply_step_eq_some.mp hstep)).1

theorem retired_of_committed {index : UInt64} {G : String} {expected value : Bytes}
    {incarnation : Incarnation} (hidx : m.last_applied < index)
    (h : apply codec m index (.RetireRecordGuard G expected value incarnation) = .ok (r, m'))
    (hr : r.refused = false) : (m'.store.control (.retired G)).isSome := by
  rcases apply_cases rfl h with ⟨hle, -, -⟩ | ⟨-, store, hexec, rfl⟩
  · exact absurd hidx (UInt64.not_lt.mpr hle)
  rcases execute_cases hexec with ⟨href, -⟩ | ⟨-, -, harm⟩
  · rw [hr] at href
    cases href
  rcases retire_record_guard_ok harm with ⟨href, -⟩ | ⟨-, -, token, v, -, -, rfl⟩
  · rw [hr] at href
    cases href
  · rw [put_marker, Store.control_put_metadata, Store.control_put_control, if_pos rfl]
    rfl

/-- **Retirement and binding are permanent.** Let a run go from an empty store to `m₁` and on to
`m₂`, without a stream command that reaches into a stream bound to `G`. A committed retirement marks
`G`. If `G` is marked at `m₁`, then at `m₂` the mark, the image and the revision of `G` and all
records bound to `G` are what they were. And one step changes a record bound to `G` only if it is a
guarded mutation of this record that carries the current revision of `G`. -/
theorem retirement_is_permanent (codec : MetadataCodec) (entries₁ entries₂ : List LogEntry)
    (results₁ results₂ : List CommandResult) (m₁ m₂ : FullStateMachine)
    (hrun₁ : run (apply_step codec) .fresh entries₁ = some (results₁, m₁))
    (hrun₂ : run (apply_step codec) m₁ entries₂ = some (results₂, m₂))
    (G : PlainPath) (hmarker : G.1 ≠ KEY_LAST_APPLIED)
    (hok : along (apply_step codec) (FenceStepOk G.1) m₁ entries₂) :
    (∀ index expected value incarnation r m', m₁.last_applied < index →
      apply codec m₁ index (.RetireRecordGuard G.1 expected value incarnation) = .ok (r, m') →
      r.refused = false → (m'.store.control (.retired G.1)).isSome) ∧
    ((m₁.store.control (.retired G.1)).isSome → Settled G m₁ m₂) ∧
    (∀ e r m' (K : PlainPath), FenceStepOk G.1 m₁ e →
      apply codec m₁ e.index e.command = .ok (r, m') →
      m₁.store.control (.binding K.1) = some (as_bytes G.1) → ¬ SameRecord m₁ m' K.1 →
      ∃ guard_version mutation, e.command = .GuardedRecord guard_version mutation ∧
        mutation.key = some K.1 ∧ revision_in_txn m₁.store G.1 = some guard_version) := by
  have hinv := fence_reachable hrun₁
  refine ⟨fun _ _ _ _ _ _ => retired_of_committed, fun hret => ?_, ?_⟩
  · refine run_relation
      (fun m => FenceInv m.store ∧ (m.store.control (.retired G.1)).isSome) (Settled G)
      (Settled.refl G) (fun _ _ _ h h' => h.trans h') ?_ ⟨hinv, hret⟩ hok hrun₂
    rintro m e r m' ⟨h, hr⟩ hstepok hstep
    have happly := apply_step_eq_some.mp hstep
    have hsettled := settled_step hmarker h hr hstepok happly
    obtain ⟨v, hv⟩ := isSome_iff_exists.mp hr
    refine ⟨⟨(apply_fence h happly).1, ?_⟩, hsettled⟩
    rw [hsettled.mark v hv]
    rfl
  · intro e r m' K hstepok happly hb hchanged
    rcases bound_step hinv happly hb hstepok with hsame | ⟨guard_version, mutation, hcmd, hkey, hlive⟩
    · exact absurd hsame hchanged
    · exact ⟨guard_version, mutation, hcmd, hkey, hlive.current⟩

/-- The nested streams, the child bound to an owner that is then retired. -/
def retired_streams : List LogEntry :=
  [⟨1, .SetMetadata "/g" [9]⟩,
   ⟨2, .AdoptProtectedMetadata "/g" (some [9]) sample_incarnation⟩,
   ⟨3, .AppendStreamEntry "/__wal_stream__//a/" [1]⟩,
   ⟨4, .AppendStreamEntry "/__wal_stream__//a/b/" [2]⟩,
   ⟨5, .SealStreamSegment "/__wal_stream__//a/" 0 1 "cid-a" "node:1" 1⟩,
   ⟨6, .SealStreamSegment "/__wal_stream__//a/b/" 0 1 "cid-b" "node:1" 1⟩,
   ⟨7, .BindRecordGuard "/a/b" none "/g" (be 23 0 ++ [1]) sample_incarnation⟩,
   ⟨8, .RetireRecordGuard "/g" (be 23 0 ++ [1]) [] sample_incarnation⟩]

/-- Writes to the retired owner, its record and its stream, and an unrelated append. -/
def late_writes : List LogEntry :=
  [⟨9, .SetMetadata "/g" [1]⟩, ⟨10, .DeleteMetadata "/a/b"⟩,
   ⟨11, .AppendStreamEntry "/__wal_stream__//a/b/" [3]⟩,
   ⟨12, .AppendStreamEntry "/__wal_stream__//a/" [4]⟩]

theorem FenceStepOk.of_no_trim {G : String}
    (h : ∀ stream op, e.command.stream_op = some (stream, op) →
      SlashFramed stream ∧ ∀ up_to_seq, op ≠ .Trim up_to_seq) : FenceStepOk G m e := by
  intro stream op hop _
  obtain ⟨hframed, htrim⟩ := h stream op hop
  refine ⟨hframed, fun K _ _ row hdrop => ?_⟩
  obtain ⟨up_to_seq, -, -, hop, -⟩ := hdrop
  exact htrim up_to_seq hop

theorem retirement_survives_late_writes :
    ∃ results₁ m₁ results₂ m₂,
      run (apply_step .unreadable) .fresh retired_streams = some (results₁, m₁) ∧
      run (apply_step .unreadable) m₁ late_writes = some (results₂, m₂) ∧
      (m₁.store.control (.retired "/g")).isSome ∧
      m₁.store.control (.binding "/a/b") = some (as_bytes "/g") ∧ SameRecord m₁ m₂ "/a/b" := by
  obtain ⟨results₁, m₁, hrun₁, hret, hbind, hsome⟩ := run_decides (apply_step .unreadable) .fresh
    retired_streams (fun _ m => (m.store.control (.retired "/g")).isSome = true ∧
      m.store.control (.binding "/a/b") = some (as_bytes "/g") ∧
      (run (apply_step .unreadable) m late_writes).isSome = true) (by decide +kernel)
  obtain ⟨⟨results₂, m₂⟩, hrun₂⟩ := isSome_iff_exists.mp hsome
  refine ⟨results₁, m₁, results₂, m₂, hrun₁, hrun₂, hret, hbind, ?_⟩
  have hok : along (apply_step .unreadable) (FenceStepOk "/g") m₁ late_writes := by
    refine ⟨.of_no_trim ?_, fun _ _ _ => ⟨.of_no_trim ?_, fun _ _ _ => ⟨.of_no_trim ?_, fun _ _ _ =>
      ⟨.of_no_trim ?_, fun _ _ _ => trivial⟩⟩⟩⟩
    · intro stream op hop
      cases hop
    · intro stream op hop
      cases hop
    · intro stream op hop
      cases hop
      refine ⟨WalPrefix.framed ⟨.stream, "/a/b"⟩, fun _ htrim => ?_⟩
      cases htrim
    · intro stream op hop
      cases hop
      refine ⟨WalPrefix.framed ⟨.stream, "/a"⟩, fun _ htrim => ?_⟩
      cases htrim
  obtain ⟨-, hsettled, -⟩ := retirement_is_permanent .unreadable _ _ results₁ results₂ m₁ m₂ hrun₁
    hrun₂ ⟨"/g", by decide⟩ (by decide) hok
  exact ((hsettled hret).records ⟨"/a/b", by decide⟩ hbind).2

/-- **The parent's trim reaches a retired owner's stream.** `/a` is bound to nobody, so its trim
passes the fence and deletes the segment record of `/a/b`. -/
theorem trim_of_parent_changes_retired_stream :
    ∃ results m r m', run (apply_step .unreadable) .fresh retired_streams = some (results, m) ∧
      (m.store.control (.retired "/g")).isSome ∧
      m.store.control (.binding "/a/b") = some (as_bytes "/g") ∧
      apply .unreadable m 9 (.TrimStreamSegment "/__wal_stream__//a/" 1 []) = .ok (r, m') ∧
      ¬ SameRecord m m' "/a/b" := by
  obtain ⟨results, m, hm, hret, hbind, htrim⟩ := run_decides (apply_step .unreadable) .fresh
    retired_streams (fun _ m => (m.store.control (.retired "/g")).isSome = true ∧
      m.store.control (.binding "/a/b") = some (as_bytes "/g") ∧
      succeeds (apply .unreadable m 9 (.TrimStreamSegment "/__wal_stream__//a/" 1 []))
        (fun q => decide (
          q.2.store.stream_entries.get (row_key ( wal_stream_prefix "/a/b") (.segment 0)) ≠
          m.store.stream_entries.get (row_key ( wal_stream_prefix "/a/b") (.segment 0)))) = true)
    (by decide +kernel)
  obtain ⟨⟨r, m'⟩, hok, hne⟩ := succeeds_iff.mp htrim
  exact ⟨results, m, r, m', hm, hret, hbind, hok, fun hsame =>
    of_decide_eq_true hne (hsame.stream (.segment 0))⟩

end NexusVfs
