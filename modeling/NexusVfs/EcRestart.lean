/-
Local EC writes across a restart: `raft/zone_registry.rs` and `raft/node.rs`.

An EC write goes to the table at once and never enters the Raft log; a restart puts the
rows of a stored snapshot in the table's place. The model adds `propose_ec_local` to the
node of `NexusVfs.LockReplay`, and history that no step reads: `top`, the highest index
applied so far; `owed`, what an accepted EC write left in a key that nothing has written
since; `drifted`, whether the table has moved since the last stored snapshot in a way
that replaying the log does not repeat.
-/
import NexusVfs.LockReplay
import NexusVfs.RowAgreement
import NexusVfs.EcWrites
import NexusVfs.Effects

namespace NexusVfs

open Option Words Text Runs Table

/-! ## Rows that a snapshot leaves out -/

/-- The command looks at a row that no snapshot carries. Paths that are checked begin with `/`, and a
counter goes back into its own row, so neither is listed. -/
def Command.reads_internal (s : Store) : Command → Bool
  | .CasSetMetadata key _ _ | .WriteVersionedMetadata key _ _ _ | .AdoptProtectedMetadata key _ _
  | .RetireRecordGuard key _ _ _ => is_internal_key key
  | .GuardedRecord _ mutation =>
    (match mutation with
      | .ReplaceMetadata key _ _ _ => is_internal_key key
      | _ => false) ||
    (match mutation.key with
      | some key => ((s.control (.binding key)).bind from_utf8).any is_internal_key
      | none => false)
  | _ => false

abbrev AgreeOnPaths : Store → Store → Prop :=
  AgreeOutside (fun key => is_internal_key key = true) fun _ => False

theorem Rooted.not_internal {key : String} (h : Rooted key) : is_internal_key key = false := by
  obtain ⟨rest, hrest⟩ := h
  rw [Bool.eq_false_iff]
  intro hinternal
  obtain ⟨t, rfl⟩ := startsWith_iff_exists.mp hinternal
  have hhead := congrArg List.head? hrest
  exact absurd hhead (by simp)

theorem marker_internal : is_internal_key KEY_LAST_APPLIED = true := by decide +kernel

theorem reads_rows_internal {s : Store} {c : Command} (hc : c.reads_internal s = false)
    (hreads : c.reads_rows (fun key => is_internal_key key = true) (fun _ => False) s) :
    ∃ key delta, c = .AdjustCounter key delta := by
  have hrooted {key : String} (hkey : Rooted key) : ¬ is_internal_key key = true := by
    rw [hkey.not_internal]
    exact Bool.false_ne_true
  have hnot {b : Bool} (hfalse : b = false) (htrue : b = true) : False := by
    rw [hfalse] at htrue
    cases htrue
  cases c with
  | AdjustCounter key delta => exact ⟨key, delta, rfl⟩
  | CasSetMetadata key value version | WriteVersionedMetadata key value expected inc
  | AdoptProtectedMetadata key image inc | RetireRecordGuard key expected value inc =>
    exact (hnot hc hreads).elim
  | AdmitRecordIoOwner owner expected => exact absurd hreads.2 (hrooted (rooted_of_valid hreads.1))
  | BindRecordGuard key image guard_key version inc =>
    obtain ⟨hkey, hguard⟩ := rooted_of_valid_pair hreads.1
    exact (hreads.2.elim (hrooted hkey) (hrooted hguard)).elim
  | RenameMetadata old_key new_key is_pas =>
    obtain ⟨hvalid, key, hkey, hrow⟩ := hreads
    exact absurd hkey (hrooted (rooted_of_renamed_row hvalid hrow))
  | GuardedRecord version mutation =>
    obtain ⟨hreplace, hbound⟩ := Bool.or_eq_false_iff.mp hc
    rcases hreads with ⟨key, value, expected, inc, rfl, hkey⟩ | ⟨key, guard_key, hkey, hbind, hguard⟩
    · exact (hnot hreplace hkey).elim
    · rw [hkey] at hbound
      dsimp only at hbound
      rw [hbind] at hbound
      exact (hnot hbound hguard).elim
  | PutControlState => exact hreads.2.elim
  | _ => exact hreads.elim

/-! ## The node -/

structure EcNode where
  node : Node
  top : ℕ
  owed : String → Option (Option Bytes)
  drifted : Bool

def EcNode.new : EcNode := ⟨.new, 0, fun _ => none, false⟩

inductive EcNodeOp where
  | raft (op : NodeOp)
  | propose_ec_local (command : Command)

namespace EcNode

def owe (n : EcNode) (m : FullStateMachine) (c : Command) (r : CommandResult) :
    String → Option (Option Bytes) :=
  fun key => if ec_row c r = some key then some (m.store.metadata.get key) else n.owed key

/-- The history after a step of the node itself. An entry that was applied before does not count as a
new write, although a restarted node applies it again. -/
def record (n : EcNode) (op : NodeOp) (r : Option CommandResult) (node : Node) : EcNode :=
  match op with
  | .apply =>
    match n.node.committed[n.node.applied]?, r with
    | some c, some answer =>
      if n.node.applied < n.top then { n with node }
      else
        { node
          top := n.node.applied + 1
          owed := fun key =>
            if key ∈ written_rows n.node.machine.store c answer then none else n.owed key
          drifted := n.drifted || c.reads_internal n.node.machine.store }
    | _, _ => { n with node }
  | .store_snapshot => { n with node, drifted := n.drifted && !n.node.stores_snapshot }
  | _ => { n with node }

end EcNode

/-- One step. An EC write that is refused changes nothing. -/
def ec_node_step (codec : MetadataCodec) (n : EcNode) :
    EcNodeOp → Option (Option CommandResult × EcNode)
  | .raft op =>
    match node_step codec n.node op with
    | some (r, node) => some (r, n.record op r node)
    | none => none
  | .propose_ec_local c =>
    match apply_local n.node.machine c with
    | .ok (r, m) => some (some r, { n with
        node := { n.node with machine := m }
        owed := n.owe m c r
        drifted := n.drifted || (ec_row c r).isSome || (ec_control_row c r).isSome })
    | .error _ => some (none, n)

/-- What every accepted EC write left behind is still there, where nothing has written since. -/
def EcNode.Kept (n : EcNode) : Prop :=
  ∀ key row, n.owed key = some row → n.node.machine.store.metadata.get key = row

/-- The steps that do not run into the stored snapshot. A restart restores it only if no EC write and
no command that looks at an internal row came after it, and no internal row is owed. While a restored
node still applies what it had applied before, it takes no EC writes. The marker row belongs to the
state machine. -/
def EcNode.Safe (n : EcNode) : EcNodeOp → Prop
  | .propose_ec_local c =>
    c.ordinary_metadata_key ≠ some KEY_LAST_APPLIED ∧
    (n.node.storage.stored_snapshot.isSome = true → n.top ≤ n.node.applied)
  | .raft .restart =>
    n.node.storage.stored_snapshot.isSome = true →
      n.drifted = false ∧ ∀ key, is_internal_key key = true → n.owed key = none
  | _ => True

/-! ## Replaying on a snapshot -/

/-- One committed command on the store that a snapshot brought back. Stuck where the command looks at
a row that the snapshot left out. -/
def replay_one (codec : MetadataCodec) (s : Store) (c : Command) : Option Store :=
  if c.is_lock_command then some s
  else if c.reads_internal s then none
  else (execute_metadata_in_txn codec s c).toOption.map Prod.snd

def replayed (codec : MetadataCodec) (s : Store) (commands : List Command) : Option Store :=
  commands.foldlM (replay_one codec) s

def segment (commands : List Command) (lo hi : ℕ) : List Command := (commands.take hi).drop lo

theorem segment_self (commands : List Command) (k : ℕ) : segment commands k k = [] :=
  List.drop_eq_nil_of_le (List.length_take_le _ _)

theorem segment_succ {commands : List Command} {lo hi : ℕ} {c : Command} (hle : lo ≤ hi)
    (hc : commands[hi]? = some c) : segment commands lo (hi + 1) = segment commands lo hi ++ [c] := by
  have hlt := (List.getElem?_eq_some_iff.mp hc).1
  unfold segment
  rw [List.take_add_one, hc, toList_some, List.drop_append_of_le_length]
  rw [List.length_take]
  omega

theorem segment_append {commands : List Command} {hi : ℕ} (h : hi ≤ commands.length) (lo : ℕ)
    (later : List Command) : segment (commands ++ later) lo hi = segment commands lo hi := by
  unfold segment
  rw [List.take_append_of_le_length h]

section Replay

variable {codec : MetadataCodec} {s s' : Store} {c : Command} {commands : List Command}

theorem replayed_succ :
    replayed codec s (commands ++ [c]) = (replayed codec s commands).bind fun s => replay_one codec s c := by
  unfold replayed
  rw [List.foldlM_append]
  simp only [List.foldlM_cons, List.foldlM_nil]
  cases commands.foldlM (replay_one codec) s with
  | none => rfl
  | some s₁ =>
    simp only [bind_eq_bind, bind_some, pure_def]
    cases replay_one codec s₁ c with
    | none => rfl
    | some s₂ => rfl

theorem replay_one_lock (hc : c.is_lock_command = true) : replay_one codec s c = some s := if_pos hc

theorem reads_internal_agree (h : AgreeOnPaths s s') (c : Command) :
    c.reads_internal s' = c.reads_internal s := by
  unfold Command.reads_internal
  simp only [h.control]

theorem AgreeOnPaths.put_marker (h : AgreeOnPaths s s') (index : UInt64) :
    AgreeOnPaths s (put_marker s' index) := by
  refine ⟨fun key hkey => ?_, h.stream_entries, h.control_state, h.reserved⟩
  have hne : key ≠ KEY_LAST_APPLIED := by
    rintro rfl
    exact hkey marker_internal
  rw [NexusVfs.put_marker, Store.metadata_put_metadata, get_insert_of_ne _ _ hne, h.metadata key hkey]

theorem replay_one_of_execute (h : AgreeOnPaths s s') (hc : c.is_lock_command = false)
    (hreads : c.reads_internal s = false) {r : CommandResult} {t' : Store}
    (hexec : execute_metadata_in_txn codec s' c = .ok (r, t')) :
    ∃ t, replay_one codec s c = some t ∧ AgreeOnPaths t t' := by
  have halike := execute_agree codec h (reads_rows_internal hreads)
  simp only [replay_one, hc, hreads, Bool.false_eq_true, if_false]
  rw [hexec] at halike
  generalize execute_metadata_in_txn codec s c = x at halike ⊢
  cases halike with
  | @ok p q hpq => exact ⟨p.2, rfl, hpq⟩

end Replay

/-! ## What every step keeps -/

/-- Without a snapshot the table is the durable one. Its mark is behind only by lock commands, which
leave no trace in it. -/
def Durable (n : EcNode) : Prop :=
  ∃ mark, FullStateMachine.new n.node.machine.store = .ok ⟨n.node.machine.store, .new, mark⟩ ∧
    mark.toNat ≤ n.node.machine.last_applied.toNat ∧
    ∀ i c, mark.toNat ≤ i → i < n.top → n.node.committed[i]? = some c → c.is_lock_command = true

def brought_back (snap : RaftSnapshot Snapshot) : Store := (restore_snapshot .fresh snap.data).store

/-- The log behind the snapshot, up to `top`, can be replayed on it; at every point of the replay the
owed rows are there; and the node is at one of these points. -/
structure Restorable (codec : MetadataCodec) (n : EcNode) (snap : RaftSnapshot Snapshot) : Prop where
  index_le : snap.index ≤ n.top
  mark : n.node.machine.last_applied.toNat = max snap.index n.node.applied
  point : ∀ p, snap.index ≤ p → p ≤ n.top → ∃ s,
    replayed codec (brought_back snap) (segment n.node.committed snap.index p) = some s ∧
    ∀ key row, n.owed key = some row → is_internal_key key = false → s.metadata.get key = row
  store : ∀ s, replayed codec (brought_back snap)
      (segment n.node.committed snap.index n.node.machine.last_applied.toNat) = some s →
    AgreeOnPaths s n.node.machine.store
  /-- a node that is still replaying took no EC write since the restart -/
  replaying : n.node.applied < n.top → ∀ key, is_internal_key key = true → n.owed key = none

structure EcInv (codec : MetadataCodec) (n : EcNode) : Prop where
  log : LogInv n.node
  applied_le : n.node.applied ≤ n.top
  top_le : n.top ≤ n.node.committed.length
  mark_le : n.node.machine.last_applied.toNat ≤ n.top
  kept : n.Kept
  unmarked : n.owed KEY_LAST_APPLIED = none
  durable : n.node.storage.stored_snapshot = none → Durable n
  caught_up : ∀ snap, n.node.storage.stored_snapshot = some snap → n.drifted = true →
    n.node.applied = n.top
  restorable : ∀ snap, n.node.storage.stored_snapshot = some snap → n.drifted = false →
    Restorable codec n snap

section Steps

variable {codec : MetadataCodec} {n n' : EcNode} {node : Node} {r : Option CommandResult}

/-! ### Commands of the log -/

variable {m m' : FullStateMachine} {index : UInt64} {c : Command} {s : Store}

variable {answer : CommandResult}

theorem apply_again_store (h : apply codec m index c = .ok (answer, m'))
    (hc : c.is_lock_command = true ∨ index ≤ m.last_applied) : m'.store = m.store := by
  rcases apply_store_cases h with heq | ⟨hlock, hlt, -⟩
  · exact heq
  · rw [hlock] at hc
    exact absurd (hc.resolve_left Bool.false_ne_true) (UInt64.not_le.mpr hlt)

theorem replay_one_of_apply (hs : AgreeOnPaths s m.store)
    (hreads : c.is_lock_command = true ∨ c.reads_internal s = false)
    (h : apply codec m index c = .ok (answer, m')) (hfresh : m.last_applied < index) :
    ∃ t, replay_one codec s c = some t ∧ AgreeOnPaths t m'.store := by
  by_cases hlock : c.is_lock_command = true
  · refine ⟨s, replay_one_lock hlock, ?_⟩
    rw [apply_again_store h (.inl hlock)]
    exact hs
  · have hlock := Bool.eq_false_iff.mpr hlock
    rcases apply_cases hlock h with ⟨hle, -⟩ | ⟨-, store, hexec, rfl⟩
    · exact absurd hle (UInt64.not_le.mpr hfresh)
    · have hreads : c.reads_internal s = false := by
        rcases hreads with htrue | hfalse
        · rw [hlock] at htrue
          cases htrue
        · exact hfalse
      obtain ⟨t, ht, hagree⟩ := replay_one_of_execute hs hlock hreads hexec
      exact ⟨t, ht, hagree.put_marker index⟩

theorem reads_of_replay_one {t : Store} (h : replay_one codec s c = some t) :
    c.is_lock_command = true ∨ c.reads_internal s = false := by
  unfold replay_one at h
  split_ifs at h with hlock hreads
  · exact .inl hlock
  · exact .inr (Bool.eq_false_iff.mpr hreads)

theorem Restorable.kept {snap : RaftSnapshot Snapshot} (h : Restorable codec n snap)
    (hmark : n.node.machine.last_applied.toNat ≤ n.top)
    (hnone : ∀ key, is_internal_key key = true → n.owed key = none) : n.Kept := by
  intro key row hrow
  have hpath : is_internal_key key = false := by
    rw [Bool.eq_false_iff]
    intro hinternal
    rw [hnone key hinternal] at hrow
    cases hrow
  have hle : snap.index ≤ n.node.machine.last_applied.toNat := by
    rw [h.mark]
    exact Nat.le_max_left _ _
  obtain ⟨s, hs, hrows⟩ := h.point _ hle hmark
  rw [(h.store s hs).metadata key (by rw [hpath]; exact Bool.false_ne_true)]
  exact hrows key row hrow hpath

/-! ### Applying -/

variable (h : EcInv codec n)
include h

variable (hc : n.node.committed[n.node.applied]? = some c)
  (ha : apply codec n.node.machine (UInt64.ofNat (n.node.applied + 1)) c = .ok (answer, m))
  (hlog : LogInv { n.node with machine := m, applied := n.node.applied + 1 })
include hc ha hlog

/-- Applying an entry once more: it is skipped, or it is a lock command, or it is a step of the replay
on a restored snapshot. -/
theorem apply_again_step (hlt : n.node.applied < n.top) :
    EcInv codec { n with node := { n.node with machine := m, applied := n.node.applied + 1 } } := by
  have hindex : (UInt64.ofNat (n.node.applied + 1)).toNat = n.node.applied + 1 :=
    h.log.index_toNat hlog.applied_le
  have hmark := apply_mark ha
  have hmark_le : m.last_applied.toNat ≤ n.top := by
    have hle := h.mark_le
    omega
  cases hsnap : n.node.storage.stored_snapshot with
  | none =>
    obtain ⟨mark, hnew, hle, hlocks⟩ := h.durable hsnap
    have hstore : m.store = n.node.machine.store := by
      refine apply_again_store ha ?_
      by_cases hskip : UInt64.ofNat (n.node.applied + 1) ≤ n.node.machine.last_applied
      · exact .inr hskip
      · -- what is above the mark and was applied before is a lock command
        have hbelow := UInt64.lt_iff_toNat_lt.mp (UInt64.not_le.mp hskip)
        exact .inl (hlocks _ c (by omega) hlt hc)
    refine ⟨hlog, hlt, h.top_le, hmark_le, ?_, h.unmarked, fun _ => ?_, fun snap hsome => ?_,
      fun snap hsome => ?_⟩
    · intro key row hrow
      rw [hstore]
      exact h.kept key row hrow
    · refine ⟨mark, ?_, ?_, hlocks⟩
      · rw [hstore]
        exact hnew
      · dsimp only
        omega
    · exact absurd (hsnap.symm.trans hsome) (by simp)
    · exact absurd (hsnap.symm.trans hsome) (by simp)
  | some snap =>
    have hdrift : n.drifted = false := by
      rw [Bool.eq_false_iff]
      intro hdrift
      have heq := h.caught_up snap hsnap hdrift
      omega
    have hr := h.restorable snap hsnap hdrift
    have hat := hr.mark
    have hr' : Restorable codec
        { n with node := { n.node with machine := m, applied := n.node.applied + 1 } } snap := by
      refine ⟨hr.index_le, ?_, hr.point, fun s hs => ?_, fun _ => hr.replaying hlt⟩
      · dsimp only
        omega
      · by_cases hskip : UInt64.ofNat (n.node.applied + 1) ≤ n.node.machine.last_applied
        · -- the snapshot has it already
          have hsame : m.last_applied.toNat = n.node.machine.last_applied.toNat := by
            have hle := UInt64.le_iff_toNat_le.mp hskip
            omega
          rw [hsame] at hs
          rw [apply_again_store ha (.inr hskip)]
          exact hr.store s hs
        · have hfresh := UInt64.not_le.mp hskip
          have hbelow := UInt64.lt_iff_toNat_lt.mp hfresh
          have hprev : n.node.machine.last_applied.toNat = n.node.applied := by omega
          have hnext : m.last_applied.toNat = n.node.applied + 1 := by omega
          rw [hnext, segment_succ (by omega) hc, replayed_succ] at hs
          obtain ⟨s₀, hs₀, hone⟩ := bind_eq_some_iff.mp hs
          have hagree := hr.store s₀ (by rw [hprev]; exact hs₀)
          obtain ⟨t, ht, htm⟩ := replay_one_of_apply hagree (reads_of_replay_one hone) ha hfresh
          rw [hone] at ht
          cases ht
          exact htm
    refine ⟨hlog, hlt, h.top_le, hmark_le, ?_, h.unmarked, fun hnone => ?_, fun snap' hsome hd => ?_,
      fun snap' hsome _ => ?_⟩
    · exact hr'.kept hmark_le (hr.replaying hlt)
    · exact absurd (hsnap.symm.trans hnone) (by simp)
    · exact absurd (hdrift.symm.trans hd) (by simp)
    · cases hsnap.symm.trans hsome
      exact hr'

theorem apply_first_step (hge : ¬ n.node.applied < n.top) :
    EcInv codec
      { node := { n.node with machine := m, applied := n.node.applied + 1 }
        top := n.node.applied + 1
        owed := fun key =>
          if key ∈ written_rows n.node.machine.store c answer then none else n.owed key
        drifted := n.drifted || c.reads_internal n.node.machine.store } := by
  have hindex : (UInt64.ofNat (n.node.applied + 1)).toNat = n.node.applied + 1 :=
    h.log.index_toNat hlog.applied_le
  have htop : n.top = n.node.applied := Nat.le_antisymm (Nat.not_lt.mp hge) h.applied_le
  have hprev : n.node.machine.last_applied.toNat = n.node.applied := by
    have hle := h.mark_le
    have hge := h.log.mark
    omega
  have hnext : m.last_applied.toNat = n.node.applied + 1 := by
    have hmark := apply_mark ha
    omega
  have hfresh : n.node.machine.last_applied < UInt64.ofNat (n.node.applied + 1) := by
    rw [UInt64.lt_iff_toNat_lt, hindex, hprev]
    exact Nat.lt_succ_self _
  -- what is owed afterwards was owed before, and the command did not write it
  have howed {key : String} {row : Option Bytes}
      (hrow : (if key ∈ written_rows n.node.machine.store c answer then none else n.owed key) =
        some row) : n.owed key = some row ∧ key ∉ written_rows n.node.machine.store c answer := by
    split_ifs at hrow with hmem
    exact ⟨hrow, hmem⟩
  have hkept (key : String) (row : Option Bytes)
      (hrow : (if key ∈ written_rows n.node.machine.store c answer then none else n.owed key) =
        some row) : m.store.metadata.get key = row := by
    obtain ⟨hrow, hmem⟩ := howed hrow
    have hkey : key ≠ KEY_LAST_APPLIED := by
      rintro rfl
      rw [h.unmarked] at hrow
      cases hrow
    rw [apply_metadata_frame ha hkey fun _ => hmem]
    exact h.kept key row hrow
  refine ⟨hlog, Nat.le_refl _, hlog.applied_le, Nat.le_of_eq hnext, hkept, ?_, fun hsnap => ?_,
    fun snap _ _ => rfl, fun snap hsnap hdrift => ?_⟩
  · dsimp only
    split_ifs
    · rfl
    · exact h.unmarked
  · -- a lock command leaves the mark where it was, every other command moves it here
    obtain ⟨mark, hnew, hle, hlocks⟩ := h.durable hsnap
    by_cases hlock : c.is_lock_command = true
    · refine ⟨mark, ?_, ?_, fun i c' hi hlt hc' => ?_⟩
      · rw [apply_again_store ha (.inl hlock)]
        exact hnew
      · dsimp only
        omega
      · dsimp only at hlt hc'
        by_cases hlast : i = n.node.applied
        · rw [hlast, hc] at hc'
          cases hc'
          exact hlock
        · exact hlocks i c' hi (by omega) hc'
    · rcases apply_cases (Bool.eq_false_iff.mpr hlock) ha with ⟨hskip, -⟩ | ⟨-, store, -, rfl⟩
      · exact absurd hskip (UInt64.not_le.mpr hfresh)
      · refine ⟨UInt64.ofNat (n.node.applied + 1), ?_, Nat.le_refl _, fun i c' hi hlt _ => ?_⟩
        · unfold FullStateMachine.new
          rw [put_marker, Store.metadata_put_metadata, get_insert_self]
          dsimp only
          rw [u64_from_to_be_bytes]
        · dsimp only at hlt
          omega
  · obtain ⟨hdrift, hreads⟩ := Bool.or_eq_false_iff.mp hdrift
    have hr := h.restorable snap hsnap hdrift
    have hindex_le : snap.index ≤ n.node.applied := htop ▸ hr.index_le
    obtain ⟨s, hs, hrows⟩ := hr.point n.node.applied hindex_le (Nat.le_of_eq htop.symm)
    have hagree : AgreeOnPaths s n.node.machine.store := hr.store s (by rw [hprev]; exact hs)
    have hreads_s : c.reads_internal s = false := (reads_internal_agree hagree c).symm.trans hreads
    obtain ⟨t, ht, htm⟩ := replay_one_of_apply hagree (.inr hreads_s) ha hfresh
    have hreplay : replayed codec (brought_back snap)
        (segment n.node.committed snap.index (n.node.applied + 1)) = some t := by
      rw [segment_succ hindex_le hc, replayed_succ, hs, bind_some, ht]
    refine ⟨Nat.le_succ_of_le hindex_le, ?_, fun p hp hp' => ?_, fun s' hs' => ?_, fun hlt => ?_⟩
    · dsimp only
      omega
    · dsimp only at hp' ⊢
      by_cases hlast : p = n.node.applied + 1
      · subst hlast
        refine ⟨t, hreplay, fun key row hrow hpath => ?_⟩
        rw [← hkept key row hrow]
        refine (htm.metadata key ?_).symm
        rw [hpath]
        exact Bool.false_ne_true
      · obtain ⟨s', hs', hrows'⟩ := hr.point p hp (by omega)
        exact ⟨s', hs', fun key row hrow hpath => hrows' key row (howed hrow).1 hpath⟩
    · rw [hnext, hreplay] at hs'
      cases hs'
      exact htm
    · exact absurd hlt (Nat.lt_irrefl _)

omit hc ha hlog

theorem ec_apply_step (hstep : node_step codec n.node .apply = some (r, node)) :
    EcInv codec (n.record .apply r node) := by
  have hlog := h.log.apply_step hstep
  obtain ⟨c, answer, m, hc, ha, rfl, rfl⟩ := node_apply h.log hstep
  by_cases hlt : n.node.applied < n.top
  · simp only [EcNode.record, hc, if_pos hlt]
    exact apply_again_step h hc ha hlog hlt
  · simp only [EcNode.record, hc, if_neg hlt]
    exact apply_first_step h hc ha hlog hlt

/-! ### The other steps of the node -/

theorem ec_commit_step {term : ℕ}
    (hstep : node_step codec n.node (.commit term c) = some (r, node)) :
    EcInv codec (n.record (.commit term c) r node) := by
  have hlog := h.log.commit_step hstep
  obtain ⟨-, rfl⟩ := node_commit hstep
  have htop := h.top_le
  refine ⟨hlog, h.applied_le, ?_, h.mark_le, h.kept, h.unmarked, fun hsnap => ?_, h.caught_up,
    fun snap hsnap hdrift => ?_⟩
  · exact Nat.le_trans htop (by simp [EcNode.record])
  · obtain ⟨mark, hnew, hle, hlocks⟩ := h.durable hsnap
    refine ⟨mark, hnew, hle, fun i c' hi hlt hc' => ?_⟩
    have hlt' : i < n.top := hlt
    refine hlocks i c' hi hlt' ?_
    rw [← hc']
    exact (List.getElem?_append_left (Nat.lt_of_lt_of_le hlt' htop)).symm
  · have hr := h.restorable snap hsnap hdrift
    refine ⟨hr.index_le, hr.mark, fun p hp hp' => ?_, fun s hs => ?_, hr.replaying⟩
    · obtain ⟨s, hs, hrows⟩ := hr.point p hp hp'
      refine ⟨s, ?_, hrows⟩
      rw [← hs]
      exact congrArg _ (segment_append (Nat.le_trans hp' htop) _ _)
    · refine hr.store s ?_
      rw [← hs]
      exact congrArg _ (segment_append (Nat.le_trans h.mark_le htop) _ _).symm

omit h in
/-- A snapshot that is stored now has every row that is owed, if its key is a path. -/
theorem brought_back_agrees (m : FullStateMachine) (index term : ℕ) :
    AgreeOnPaths (brought_back ⟨index, term, snapshot m⟩) m.store := by
  refine ⟨fun key hkey => ?_, (insert_all_scan_true _).symm, fun key _ => ?_, fun c => ?_⟩
  · have hne : key ≠ KEY_LAST_APPLIED := by
      rintro rfl
      exact hkey marker_internal
    refine Eq.symm ((restored_row m .fresh hne).trans ?_)
    rw [if_neg hkey]
  · exact congrArg (Table.get · key) (insert_all_scan_true _).symm
  · exact congrArg (Table.get · _) (insert_all_scan_true _).symm

theorem ec_store_snapshot_step (hstep : node_step codec n.node .store_snapshot = some (r, node)) :
    EcInv codec (n.record .store_snapshot r node) := by
  have hlog := h.log.store_snapshot_step hstep
  obtain ⟨hall, rfl⟩ := node_store_snapshot hstep
  have hdone : n.node.applied = n.top := by
    have hle := h.applied_le
    have htop := h.top_le
    have hcommit := h.log.commit
    omega
  rcases store_snapshot_cases h.log hall with ⟨hnot, hsame⟩ | ⟨hstores, term, hmark, -, hstored⟩
  · have hrecord : n.record .store_snapshot r { n.node with storage := n.node.store_snapshot } = n := by
      unfold EcNode.record
      rw [hnot, hsame]
      simp
    rw [hrecord]
    exact h
  · have htop : n.top = n.node.committed.length := by
      rw [← hdone, hall, h.log.commit]
    have hsome : n.node.store_snapshot.stored_snapshot =
        some ⟨n.node.committed.length, term, snapshot n.node.machine⟩ := by
      rw [hstored]
      rfl
    have hagree := brought_back_agrees n.node.machine n.node.committed.length term
    have hnil : replayed codec (brought_back ⟨n.node.committed.length, term, snapshot n.node.machine⟩)
        (segment n.node.committed n.node.committed.length n.node.committed.length) =
          some (brought_back ⟨n.node.committed.length, term, snapshot n.node.machine⟩) := by
      rw [segment_self]
      rfl
    refine ⟨hlog, h.applied_le, h.top_le, h.mark_le, h.kept, h.unmarked, fun hnone => ?_,
      fun _ _ _ => hdone, fun snap hsnap _ => ?_⟩
    · exact absurd (hsome.symm.trans hnone) (by simp)
    · cases hsome.symm.trans hsnap
      refine ⟨Nat.le_of_eq htop.symm, ?_, fun p hp hp' => ?_, fun s hs => ?_, fun hlt => ?_⟩
      · have hbound : n.node.applied ≤ n.node.committed.length := h.log.applied_le
        exact hmark.trans (Nat.max_eq_left hbound).symm
      · have hp'' : p ≤ n.top := hp'
        have heq : p = n.node.committed.length := Nat.le_antisymm (htop ▸ hp'') hp
        subst heq
        refine ⟨_, hnil, fun key row hrow hpath => ?_⟩
        rw [← h.kept key row hrow]
        refine (hagree.metadata key ?_).symm
        rw [hpath]
        exact Bool.false_ne_true
      · dsimp only [EcNode.record] at hs
        rw [hmark, hnil] at hs
        cases hs
        exact hagree
      · exact absurd hlt (by dsimp only [EcNode.record]; omega)

theorem ec_compact_step (hstep : node_step codec n.node .compact = some (r, node)) :
    EcInv codec (n.record .compact r node) := by
  have hlog := h.log.compact_step hstep
  obtain ⟨snap, -, rfl⟩ := node_compact hstep
  have hstored := (stored_snapshot_compact n.node.storage (snap.index + 1)).1
  -- the stored snapshot is the same, and nothing else here looks at the log on disk
  refine ⟨hlog, h.applied_le, h.top_le, h.mark_le, h.kept, h.unmarked, fun hnone => ?_,
    fun snap' hsnap' => ?_, fun snap' hsnap' hdrift => ?_⟩
  · exact h.durable (hstored.symm.trans hnone)
  · exact h.caught_up snap' (hstored.symm.trans hsnap')
  · obtain ⟨hindex, hmark, hpoint, hstore, hreplaying⟩ :=
      h.restorable snap' (hstored.symm.trans hsnap') hdrift
    exact ⟨hindex, hmark, hpoint, hstore, hreplaying⟩

theorem ec_restart_step (hok : n.Safe (.raft .restart))
    (hstep : node_step codec n.node .restart = some (r, node)) :
    EcInv codec (n.record .restart r node) := by
  have hlog := h.log.restart_step hstep
  obtain ⟨m, hnew, rfl⟩ := node_restart hstep
  cases hsnap : n.node.storage.stored_snapshot with
  | none =>
    obtain ⟨mark, hnew', hle, hlocks⟩ := h.durable hsnap
    rw [hnew'] at hnew
    cases hnew
    have hfirst : n.node.storage.first_index - 1 = 0 := by rw [h.log.unsnapshotted hsnap]
    have hmachine := rehydrate_of_none
      (⟨n.node.machine.store, .new, mark⟩ : FullStateMachine) hsnap
    refine ⟨hlog, ?_, h.top_le, ?_, ?_, h.unmarked, fun _ => ?_, fun snap hsome => ?_,
      fun snap hsome => ?_⟩
    · rw [hfirst]
      exact Nat.zero_le _
    · rw [hmachine]
      exact Nat.le_trans hle h.mark_le
    · intro key row hrow
      rw [hmachine]
      exact h.kept key row hrow
    · refine ⟨mark, ?_, ?_, hlocks⟩
      · rw [hmachine]
        exact hnew'
      · dsimp only [EcNode.record]
        rw [hmachine]
    · exact absurd (hsnap.symm.trans hsome) (by simp)
    · exact absurd (hsnap.symm.trans hsome) (by simp)
  | some snap =>
    obtain ⟨hdrift, hnone⟩ := hok (by rw [hsnap]; rfl)
    have hr := h.restorable snap hsnap hdrift
    obtain ⟨hpos, -, hfirst, hmark⟩ := h.log.snapshot snap hsnap
    have hindex := hr.index_le
    have hmachine := rehydrate_of_some m hsnap hpos
    have hlast : (restore_snapshot m snap.data).last_applied.toNat = snap.index := hmark
    have hr' : Restorable codec { n with node := { n.node with
        machine := restore_snapshot m snap.data
        applied := n.node.storage.first_index - 1 } } snap := by
      refine ⟨hindex, ?_, hr.point, fun s hs => ?_, fun _ => hnone⟩
      · dsimp only
        omega
      · rw [hlast, segment_self] at hs
        cases hs
        exact .refl _
    refine ⟨hlog, ?_, h.top_le, ?_, ?_, h.unmarked, fun hno => ?_, fun _ _ hd => ?_,
      fun snap' hsome _ => ?_⟩
    · dsimp only [EcNode.record]
      omega
    · dsimp only [EcNode.record]
      rw [hmachine, hlast]
      exact hindex
    · rw [hmachine]
      exact hr'.kept (by dsimp only; rw [hlast]; exact hindex) hnone
    · exact absurd (hsnap.symm.trans hno) (by simp)
    · exact absurd (hdrift.symm.trans hd) (by simp)
    · cases hsnap.symm.trans hsome
      rw [hmachine]
      exact hr'

/-! ### EC writes -/

omit h in
theorem new_of_marker_row {s' : Store} {mark : UInt64}
    (h : FullStateMachine.new s = .ok ⟨s, .new, mark⟩)
    (hrow : s'.metadata.get KEY_LAST_APPLIED = s.metadata.get KEY_LAST_APPLIED) :
    FullStateMachine.new s' = .ok ⟨s', .new, mark⟩ := by
  unfold FullStateMachine.new at h ⊢
  rw [hrow]
  cases hget : s.metadata.get KEY_LAST_APPLIED with
  | none =>
    rw [hget] at h
    cases h
    rfl
  | some bytes =>
    rw [hget] at h
    dsimp only at h ⊢
    cases hbytes : u64_from_be_bytes bytes with
    | none => rw [hbytes] at h; cases h
    | some k =>
      rw [hbytes] at h
      cases h
      rfl

theorem ec_write_step
    (hok : n.Safe (.propose_ec_local c)) (hlocal : apply_local n.node.machine c = .ok (answer, m)) :
    EcInv codec { n with
      node := { n.node with machine := m }
      owed := n.owe m c answer
      drifted := n.drifted || (ec_row c answer).isSome || (ec_control_row c answer).isSome } := by
  obtain ⟨heffect, hm⟩ := apply_local_effect hlocal
  have hlast : m.last_applied = n.node.machine.last_applied := by rw [hm]
  have hlog : LogInv { n.node with machine := m } :=
    ⟨h.log.log, h.log.data, h.log.commit, h.log.bound, h.log.applied_le, hlast ▸ h.log.mark,
      h.log.unsnapshotted, h.log.snapshot⟩
  have hmarker : ec_row c answer ≠ some KEY_LAST_APPLIED := fun hrow =>
    hok.1 (ordinary_key_of_ec_row hrow)
  refine ⟨hlog, h.applied_le, h.top_le, hlast ▸ h.mark_le, fun key row hrow => ?_, ?_,
    fun hsnap => ?_, fun snap hsnap _ => ?_, fun snap hsnap hdrift => ?_⟩
  · dsimp only [EcNode.owe] at hrow
    split_ifs at hrow with hwritten
    · exact some.inj hrow
    · exact (heffect.metadata key hwritten).trans (h.kept key row hrow)
  · dsimp only [EcNode.owe]
    rw [if_neg hmarker]
    exact h.unmarked
  · obtain ⟨mark, hnew, hle, hlocks⟩ := h.durable hsnap
    exact ⟨mark, new_of_marker_row hnew (heffect.metadata _ hmarker), hlast ▸ hle, hlocks⟩
  · have hsome : n.node.storage.stored_snapshot.isSome = true := isSome_of_eq_some hsnap
    exact Nat.le_antisymm h.applied_le (hok.2 hsome)
  · -- nothing was changed
    simp only [Bool.or_eq_false_iff, isSome_eq_false_iff, isNone_iff_eq_none] at hdrift
    obtain ⟨⟨hdrift, hrow⟩, hcontrol⟩ := hdrift
    have hstore := heffect.eq hrow hcontrol
    have hsame : m = n.node.machine := by
      rw [hm, hstore]
    have howed : n.owe m c answer = n.owed := by
      funext key
      unfold EcNode.owe
      rw [hrow]
      rfl
    rw [howed, hsame]
    obtain ⟨hindex, hmark, hpoint, hst, hreplaying⟩ := h.restorable snap hsnap hdrift
    exact ⟨hindex, hmark, hpoint, hst, hreplaying⟩

theorem ec_node_step_inv {op : EcNodeOp} (hok : n.Safe op)
    (hstep : ec_node_step codec n op = some (r, n')) : EcInv codec n' := by
  unfold ec_node_step at hstep
  cases op with
  | raft op =>
    dsimp only at hstep
    cases hnode : node_step codec n.node op with
    | none => rw [hnode] at hstep; cases hstep
    | some p =>
      rw [hnode] at hstep
      cases hstep
      cases op with
      | commit term c => exact ec_commit_step h hnode
      | apply => exact ec_apply_step h hnode
      | store_snapshot => exact ec_store_snapshot_step h hnode
      | compact => exact ec_compact_step h hnode
      | restart => exact ec_restart_step h hok hnode
  | propose_ec_local c =>
    dsimp only at hstep
    cases hlocal : apply_local n.node.machine c with
    | error err =>
      rw [hlocal] at hstep
      cases hstep
      exact h
    | ok p =>
      rw [hlocal] at hstep
      cases hstep
      exact ec_write_step h hok hlocal

omit h

theorem EcInv.new : EcInv codec .new where
  log := (NodeInv.new).logInv
  applied_le := Nat.le_refl 0
  top_le := Nat.le_refl 0
  mark_le := Nat.le_refl 0
  kept key row hrow := by cases hrow
  unmarked := rfl
  durable _ := ⟨0, rfl, Nat.le_refl 0, fun i c _ hlt => absurd hlt (Nat.not_lt_zero i)⟩
  caught_up snap hsnap := by cases hsnap
  restorable snap hsnap := by cases hsnap

end Steps

/-! ## Whole runs -/

/-- **EC writes across restarts.** In every run of a node whose restarts find no stored snapshot, or
one that is newer than every EC write, the row of every accepted EC write is in the table as that
write left it, until a later EC write or a log entry that was not applied before writes the row. This
holds after every restart, during the replay and after it. -/
theorem ec_writes_survive_restarts (codec : MetadataCodec) (ops : List EcNodeOp)
    (answers : List (Option CommandResult)) (n : EcNode)
    (hok : along (ec_node_step codec) EcNode.Safe .new ops)
    (hrun : run (ec_node_step codec) .new ops = some (answers, n)) : n.Kept := by
  have hinv : EcInv codec n :=
    run_invariant (EcInv codec) (fun _ _ _ _ h hop hs => ec_node_step_inv h hop hs) .new hok hrun
  exact hinv.kept

theorem no_internal_row_owed {codec : MetadataCodec} {ops : List EcNodeOp}
    {answers : List (Option CommandResult)} {n : EcNode}
    (hpaths : ∀ c, .propose_ec_local c ∈ ops → ∀ key, c.ordinary_metadata_key = some key →
      is_internal_key key = false) (hrun : run (ec_node_step codec) .new ops = some (answers, n)) :
    ∀ key, is_internal_key key = true → n.owed key = none := by
  have hmem : along (ec_node_step codec) (fun _ op => op ∈ ops) .new ops :=
    along_of_forall_mem fun _ _ hop => hop
  refine run_invariant (fun n => ∀ key, is_internal_key key = true → n.owed key = none) ?_
    (fun _ _ => rfl) hmem hrun
  intro n op r n' h hop hstep key hkey
  have hrest := h key hkey
  unfold ec_node_step at hstep
  cases op with
  | raft op =>
    dsimp only at hstep
    cases hnode : node_step codec n.node op with
    | none => rw [hnode] at hstep; cases hstep
    | some p =>
      rw [hnode] at hstep
      cases hstep
      unfold EcNode.record
      split
      · split
        · split_ifs
          · exact hrest
          · dsimp only
            rw [hrest]
            split_ifs <;> rfl
        · exact hrest
      · exact hrest
      · exact hrest
  | propose_ec_local c =>
    dsimp only at hstep
    cases hlocal : apply_local n.node.machine c with
    | error err =>
      rw [hlocal] at hstep
      cases hstep
      exact hrest
    | ok p =>
      rw [hlocal] at hstep
      cases hstep
      dsimp only [EcNode.owe]
      have hother : ec_row c p.1 ≠ some key := by
        intro hrow
        rw [hpaths c hop key (ordinary_key_of_ec_row hrow)] at hkey
        cases hkey
      rw [if_neg hother]
      exact hrest

/-- The snapshot is stored after the EC write, and a log entry follows it. -/
def saved_task : List EcNodeOp :=
  [.raft (.commit 1 (.SetMetadata "/a" [0])), .raft .apply, .propose_ec_local (.SetMetadata "/t/1" [1]),
    .raft .store_snapshot, .raft .compact, .raft (.commit 1 (.SetMetadata "/b" [2])), .raft .apply]

theorem ec_writes_survive_restarts_saved_task :
    ∃ answers n, run (ec_node_step .unreadable) .new (saved_task ++ [.raft .restart, .raft .apply]) =
        some (answers, n) ∧
      n.node.applied = n.node.commit ∧ n.owed "/t/1" = some (some [1]) ∧ n.Kept := by
  refine exists_run (fun _ n => n.node.applied = n.node.commit ∧ n.owed "/t/1" = some (some [1]))
    (by decide +kernel) ?_
  rintro answers n hn ⟨hall, howed⟩
  refine ⟨hall, howed, ec_writes_survive_restarts .unreadable _ answers n ?_ hn⟩
  refine along_append.mpr ⟨?_, fun rs t ht => ?_⟩
  · -- the one EC write comes before the snapshot
    have hunsaved : (run (ec_node_step .unreadable) .new (saved_task.take 2)).all
        (fun p => p.2.node.storage.stored_snapshot.isNone) = true := by
      decide +kernel
    rw [show saved_task = saved_task.take 2 ++ saved_task.drop 2 from rfl]
    refine along_append.mpr ⟨?_, fun rs t ht => ?_⟩
    · refine along_of_forall_mem fun n op hop => ?_
      simp only [saved_task, List.take, List.mem_cons, List.not_mem_nil, or_false] at hop
      rcases hop with rfl | rfl
      · trivial
      · trivial
    · rw [ht, all_some, isNone_iff_eq_none] at hunsaved
      refine ⟨⟨by decide, fun hsome => ?_⟩, fun _ _ _ => along_of_forall_mem fun n op hop => ?_⟩
      · rw [hunsaved] at hsome
        cases hsome
      · simp only [List.mem_cons, List.not_mem_nil, or_false] at hop
        rcases hop with rfl | rfl | rfl | rfl <;> trivial
  · have hsaved : (run (ec_node_step .unreadable) .new saved_task).all
        (fun p => decide (p.2.drifted = false)) = true := by
      decide +kernel
    rw [ht] at hsaved
    refine ⟨fun _ => ⟨of_decide_eq_true hsaved, no_internal_row_owed ?_ ht⟩, fun _ _ _ => ⟨trivial, ?_⟩⟩
    · intro c hop key hkey
      simp only [saved_task, List.mem_cons, EcNodeOp.propose_ec_local.injEq, reduceCtorEq,
        List.not_mem_nil, or_false, false_or] at hop
      subst hop
      cases hkey
      decide +kernel
    · intro _ _ _
      trivial

/-- **A restart drops an accepted EC write.** The zone has a compacted snapshot when the write comes;
the restart puts the snapshot's rows in place of the table, and the log does not have the write. -/
theorem ec_write_lost_by_restart :
    ∃ answers n, run (ec_node_step .unreadable) .new
        [.raft (.commit 1 (.SetMetadata "/a" [0])), .raft .apply, .raft .store_snapshot, .raft .compact,
          .propose_ec_local (.SetMetadata "/t/1" [1]), .raft .restart] = some (answers, n) ∧
      n.node.applied = n.node.commit ∧ n.owed "/t/1" = some (some [1]) ∧
      n.node.machine.store.metadata.get "/t/1" = none ∧ ¬ n.Kept := by
  refine exists_run (fun _ n => n.node.applied = n.node.commit ∧ n.owed "/t/1" = some (some [1]) ∧
    n.node.machine.store.metadata.get "/t/1" = none) (by decide +kernel) ?_
  rintro answers n - ⟨hall, howed, hrow⟩
  refine ⟨hall, howed, hrow, fun hkept => ?_⟩
  have hget := hkept "/t/1" (some [1]) howed
  rw [hrow] at hget
  cases hget

end NexusVfs
