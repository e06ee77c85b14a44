/-
EC traffic beside the Raft log: `raft/state_machine.rs` and `raft/node.rs`.

Any number of replicas apply one log, each at its own pace, and single EC writes and
images of a whole table (`ec_state_snapshot`) travel between them. Everything sent stays
in a pool and can be delivered to any replica, at any time, any number of times. Each
replica is compared with the machine that its prefix of the log alone leads to
(`log_state`).
-/
import NexusVfs.RowAgreement
import NexusVfs.AntiEntropy

namespace NexusVfs

open Words Text Runs List

/-! ## The system -/

structure EcCluster (ι : Type) where
  log : List Command
  machine : ι → FullStateMachine
  /-- how many entries of the log each replica has applied -/
  applied : ι → ℕ
  /-- every EC entry that was ever sent -/
  sent : List ReplicationEntry
  /-- the metadata keys that clients wrote through the EC plane, and the control keys -/
  ec_keys : List String
  ec_control_keys : List String

inductive EcClusterOp (ι : Type) where
  | commit (command : Command)
  | apply (replica : ι)
  | propose_ec_local (replica : ι) (command : Command) (timestamp : UInt64)
  | ec_state_snapshot (replica : ι)
  /-- entry `i` of all that was sent reaches a replica -/
  | apply_ec_from_peer (replica : ι) (i : ℕ)

section System

variable {ι : Type} [DecidableEq ι]

namespace EcCluster

def new : EcCluster ι := ⟨[], fun _ => .fresh, fun _ => 0, [], [], []⟩

def set_machine (n : EcCluster ι) (r : ι) (m : FullStateMachine) : EcCluster ι :=
  { n with machine := Function.update n.machine r m }

def Written (n : EcCluster ι) (key : String) : Prop := key ∈ n.ec_keys

def WrittenControl (n : EcCluster ι) (key : String) : Prop := key ∈ n.ec_control_keys

end EcCluster

/-- One step of the system. An error in the transaction of a log entry stops it; an EC write that is
refused, and a delivery that fails, change nothing. -/
def ec_cluster_step (codec : MetadataCodec) (n : EcCluster ι) :
    EcClusterOp ι → Option (Option CommandResult × EcCluster ι)
  | .commit c => some (none, { n with log := n.log ++ [c] })
  | .apply r =>
    match n.log[n.applied r]? with
    | none => none
    | some c =>
      match apply codec (n.machine r) (UInt64.ofNat (n.applied r + 1)) c with
      | .error _ => none
      | .ok (answer, m) => some (some answer,
          { n.set_machine r m with applied := Function.update n.applied r (n.applied r + 1) })
  | .propose_ec_local r c timestamp =>
    match apply_local (n.machine r) c with
    | .error _ => some (none, n)
    | .ok (answer, m) => some (some answer, { n.set_machine r m with
        sent := n.sent ++ [⟨c, timestamp⟩]
        ec_keys := (ec_row c answer).toList ++ n.ec_keys
        ec_control_keys := (ec_control_row c answer).toList ++ n.ec_control_keys })
  | .ec_state_snapshot r =>
    match ec_state_snapshot (n.machine r) with
    | .error _ => some (none, n)
    | .ok commands => some (none, { n with sent := n.sent ++ image_entries commands })
  | .apply_ec_from_peer r i =>
    match n.sent[i]? with
    | none => none
    | some e =>
      match apply_ec_with_lww codec (n.machine r) e.command e.timestamp with
      | .error _ => some (none, n)
      | .ok (answer, m) => some (some answer, n.set_machine r m)

/-- The steps that keep the planes apart. A log entry looks at no row that clients wrote through the
EC plane. A client's EC write stays out of the reserved control rows. A row of an image whose key no
client wrote through the EC plane arrives where it changes nothing: the receiver holds that very row
or a later one, or keeps the key under strong consistency. -/
def EcCluster.Apart (codec : MetadataCodec) (n : EcCluster ι) : EcClusterOp ι → Prop
  | .apply r => ∀ c, n.log[n.applied r]? = some c →
    ¬ c.reads_rows n.Written n.WrittenControl (n.machine r).store
  | .propose_ec_local _ c _ => ∀ row : ControlRow, ec_control_row c .Success ≠ some (control_row row)
  | .apply_ec_from_peer r i => ∀ e key value, n.sent[i]? = some e →
    e.command = .SetMetadata key value → ¬ n.Written key →
      requires_strong_consistency (n.machine r).store e.command = .ok true ∨
      ∃ existing, (n.machine r).store.metadata.get key = some existing ∧
        (existing = value ∨ decode_modified_at codec value < decode_modified_at codec existing)
  | _ => True

/-! ## What the log alone leads to -/

def log_state (codec : MetadataCodec) (log : List Command) : ℕ → Option FullStateMachine
  | 0 => some .fresh
  | k + 1 =>
    match log_state codec log k, log[k]? with
    | some m, some c => (apply codec m (UInt64.ofNat (k + 1)) c).toOption.map Prod.snd
    | _, _ => none

theorem log_state_append (codec : MetadataCodec) {log : List Command} (later : List Command) {k : ℕ}
    (hk : k ≤ log.length) : log_state codec (log ++ later) k = log_state codec log k := by
  induction k with
  | zero => rfl
  | succ k ih =>
    unfold log_state
    rw [ih (Nat.le_of_succ_le hk), getElem?_append_left hk]

structure EcClusterInv (codec : MetadataCodec) (n : EcCluster ι) : Prop where
  applied_le : ∀ r, n.applied r ≤ n.log.length
  reserved : ∀ row : ControlRow, ¬ n.WrittenControl (control_row row)
  deletes : ∀ e ∈ n.sent, ∀ key, e.command = .DeleteMetadata key → n.Written key
  follows : ∀ r, ∃ m, log_state codec n.log (n.applied r) = some m ∧
    ObsEqOutside n.Written n.WrittenControl m (n.machine r)

section Steps

variable {codec : MetadataCodec} {n n' : EcCluster ι}

variable {r : ι} {m : FullStateMachine} {c : Command}

theorem follows_set_machine {n n' : EcCluster ι} (hlog : n'.log = n.log) (happlied : n'.applied = n.applied)
    (hmachine : n'.machine = Function.update n.machine r m)
    (hwritten : ∀ key, n.Written key → n'.Written key)
    (hcontrol : ∀ key, n.WrittenControl key → n'.WrittenControl key)
    (hm : ObsEqOutside n'.Written n'.WrittenControl (n.machine r) m)
    (h : ∀ r, ∃ m, log_state codec n.log (n.applied r) = some m ∧
      ObsEqOutside n.Written n.WrittenControl m (n.machine r)) :
    ∀ r, ∃ m, log_state codec n'.log (n'.applied r) = some m ∧
      ObsEqOutside n'.Written n'.WrittenControl m (n'.machine r) := by
  intro r'
  obtain ⟨m₀, hm₀, hobs⟩ := h r'
  rw [hlog, happlied]
  refine ⟨m₀, hm₀, ?_⟩
  have hstore := hobs.store.mono hwritten hcontrol
  by_cases hr : r' = r
  · subst hr
    rw [hmachine, Function.update_self]
    exact ⟨hstore.trans hm.store, hm.advisory.trans hobs.advisory, hm.last_applied.trans hobs.last_applied⟩
  · rw [hmachine, Function.update_of_ne hr]
    exact ⟨hstore, hobs.advisory, hobs.last_applied⟩

variable (h : EcClusterInv codec n)
include h

omit [DecidableEq ι] in
theorem cluster_commit_step : EcClusterInv codec { n with log := n.log ++ [c] } := by
  refine ⟨fun r => ?_, h.reserved, h.deletes, fun r => ?_⟩
  · exact Nat.le_trans (h.applied_le r) (by simp)
  · obtain ⟨m, hm, hobs⟩ := h.follows r
    refine ⟨m, ?_, hobs⟩
    rw [log_state_append codec [c] (h.applied_le r)]
    exact hm

variable {answer : CommandResult}

theorem cluster_apply_step (hok : n.Apart codec (.apply r)) (hc : n.log[n.applied r]? = some c)
    (ha : apply codec (n.machine r) (UInt64.ofNat (n.applied r + 1)) c = .ok (answer, m)) :
    EcClusterInv codec
      { n.set_machine r m with applied := Function.update n.applied r (n.applied r + 1) } := by
  have hlt : n.applied r + 1 ≤ n.log.length := (List.getElem?_eq_some_iff.mp hc).1
  refine ⟨fun r' => ?_, h.reserved, h.deletes, fun r' => ?_⟩
  · dsimp only [EcCluster.set_machine]
    by_cases hr : r' = r
    · subst hr
      rw [Function.update_self]
      exact hlt
    · rw [Function.update_of_ne hr]
      exact h.applied_le r'
  · obtain ⟨m₀, hm₀, hobs⟩ := h.follows r'
    dsimp only [EcCluster.set_machine]
    by_cases hr : r' = r
    · subst hr
      rw [Function.update_self, Function.update_self]
      -- the command looks at no EC row, so the log alone takes it the same way
      have hreads := hok c hc
      have hreads₀ : ¬ c.reads_rows n.Written n.WrittenControl m₀.store := by
        rw [reads_rows_agree hobs.store]
        exact hreads
      have halike := apply_abreast codec hobs (UInt64.ofNat (n.applied r' + 1)) hreads₀
      rw [ha] at halike
      unfold log_state
      rw [hm₀, hc]
      dsimp only
      generalize apply codec m₀ (UInt64.ofNat (n.applied r' + 1)) c = x at halike ⊢
      cases halike with
      | @ok p q hpq => exact ⟨p.2, rfl, hpq.2⟩
    · rw [Function.update_of_ne hr, Function.update_of_ne hr]
      exact ⟨m₀, hm₀, hobs⟩

theorem cluster_write_step {timestamp : UInt64}
    (hok : n.Apart codec (.propose_ec_local r c timestamp))
    (hlocal : apply_local (n.machine r) c = .ok (answer, m)) :
    EcClusterInv codec { n.set_machine r m with
      sent := n.sent ++ [⟨c, timestamp⟩]
      ec_keys := (ec_row c answer).toList ++ n.ec_keys
      ec_control_keys := (ec_control_row c answer).toList ++ n.ec_control_keys } := by
  obtain ⟨heffect, hm⟩ := apply_local_effect hlocal
  have hunreserved (row : ControlRow) : ec_control_row c answer ≠ some (control_row row) := by
    intro hrow
    refine hok row ?_
    unfold ec_control_row at hrow
    split at hrow
    · exact hrow
    · exact hrow
    · cases hrow
  refine ⟨h.applied_le, fun row hmem => ?_, fun e he key hdelete => ?_, ?_⟩
  · rcases mem_append.mp hmem with hnew | hold
    · exact hunreserved row (Option.mem_toList.mp hnew)
    · exact h.reserved row hold
  · rcases mem_append.mp he with hold | hnew
    · exact mem_append_right _ (h.deletes e hold key hdelete)
    · cases mem_singleton.mp hnew
      subst hdelete
      exact mem_append_left _ (mem_singleton.mpr rfl)
  · refine follows_set_machine (n := n) rfl rfl rfl (fun key hkey => mem_append_right _ hkey)
      (fun key hkey => mem_append_right _ hkey) ?_ h.follows
    refine ⟨⟨fun key hkey => ?_, heffect.stream_entries, fun key hkey => ?_, fun row => ?_⟩, ?_, ?_⟩
    · exact heffect.metadata key fun hrow => hkey (mem_append_left _ (Option.mem_toList.mpr hrow))
    · exact heffect.control_state key fun hrow =>
        hkey (mem_append_left _ (Option.mem_toList.mpr hrow))
    · exact heffect.control_state _ (hunreserved row)
    · rw [hm]
    · rw [hm]

omit [DecidableEq ι] in
theorem cluster_image_step {commands : List Command}
    (himage : ec_state_snapshot (n.machine r) = .ok commands) :
    EcClusterInv codec { n with sent := n.sent ++ image_entries commands } := by
  refine ⟨h.applied_le, h.reserved, fun e he key hdelete => ?_, h.follows⟩
  rcases mem_append.mp he with hold | hnew
  · exact h.deletes e hold key hdelete
  · -- an image consists of sets
    obtain ⟨paths, -, himage⟩ := bind_eq_ok.mp himage
    rw [← pure_eq_ok.mp himage] at hnew
    simp only [image_entries, map_map, mem_map, Function.comp] at hnew
    obtain ⟨row, -, rfl⟩ := hnew
    cases hdelete

omit [DecidableEq ι] in
theorem delivered_agrees {i : ℕ} {e : ReplicationEntry} (hok : n.Apart codec (.apply_ec_from_peer r i))
    (hi : n.sent[i]? = some e)
    (hd : apply_ec_with_lww codec (n.machine r) e.command e.timestamp = .ok (answer, m)) :
    ObsEqOutside n.Written n.WrittenControl (n.machine r) m := by
  obtain ⟨sc, hsc, hd⟩ := bind_eq_ok.mp hd
  cases sc with
  | true =>
    obtain ⟨-, rfl⟩ := ok_pair_inj hd
    exact ⟨.refl _, rfl, rfl⟩
  | false =>
    obtain ⟨store, hwrite, hd⟩ := bind_eq_ok.mp hd
    obtain ⟨-, rfl⟩ := ok_pair_inj hd
    refine ⟨?_, rfl, rfl⟩
    rcases lww_write_cases hwrite with
      ⟨key, value, hcommand, rfl | ⟨rfl, hlater⟩⟩ | ⟨key, hcommand, rfl | rfl⟩
    · exact .refl _
    · refine ⟨fun K hK => ?_, rfl, fun _ _ => rfl, fun _ => rfl⟩
      rw [Store.metadata_put_metadata, Table.get_insert]
      split_ifs with hkey
      · -- no client wrote this key, so the row that arrives is the row that is there
        subst hkey
        rcases hok e K value hi hcommand hK with hstrong | ⟨existing, hget, rfl | hlt⟩
        · rw [hsc] at hstrong
          cases hstrong
        · exact hget.symm
        · exact absurd hlt (hlater existing hget)
      · rfl
    · exact .refl _
    · refine ⟨fun K hK => Table.get_remove_of_ne _ ?_, rfl, fun _ _ => rfl, fun _ => rfl⟩
      rintro rfl
      exact hK (h.deletes e (mem_of_getElem? hi) K hcommand)

theorem ec_cluster_step_inv {op : EcClusterOp ι} {answer : Option CommandResult} (hok : n.Apart codec op)
    (hstep : ec_cluster_step codec n op = some (answer, n')) : EcClusterInv codec n' := by
  unfold ec_cluster_step at hstep
  cases op with
  | commit c =>
    cases hstep
    exact cluster_commit_step h
  | apply r =>
    dsimp only at hstep
    cases hc : n.log[n.applied r]? with
    | none => rw [hc] at hstep; cases hstep
    | some c =>
      rw [hc] at hstep
      dsimp only at hstep
      cases ha : apply codec (n.machine r) (UInt64.ofNat (n.applied r + 1)) c with
      | error err => rw [ha] at hstep; cases hstep
      | ok p =>
        rw [ha] at hstep
        cases hstep
        exact cluster_apply_step h hok hc ha
  | propose_ec_local r c timestamp =>
    dsimp only at hstep
    cases hlocal : apply_local (n.machine r) c with
    | error err =>
      rw [hlocal] at hstep
      cases hstep
      exact h
    | ok p =>
      rw [hlocal] at hstep
      cases hstep
      exact cluster_write_step h hok hlocal
  | ec_state_snapshot r =>
    dsimp only at hstep
    cases himage : ec_state_snapshot (n.machine r) with
    | error err =>
      rw [himage] at hstep
      cases hstep
      exact h
    | ok commands =>
      rw [himage] at hstep
      cases hstep
      exact cluster_image_step h himage
  | apply_ec_from_peer r i =>
    dsimp only at hstep
    cases hi : n.sent[i]? with
    | none => rw [hi] at hstep; cases hstep
    | some e =>
      rw [hi] at hstep
      dsimp only at hstep
      cases hd : apply_ec_with_lww codec (n.machine r) e.command e.timestamp with
      | error err =>
        rw [hd] at hstep
        cases hstep
        exact h
      | ok p =>
        rw [hd] at hstep
        cases hstep
        refine ⟨h.applied_le, h.reserved, h.deletes, ?_⟩
        exact follows_set_machine (n := n) rfl rfl rfl (fun _ hkey => hkey) (fun _ hkey => hkey)
          (delivered_agrees h hok hi hd) h.follows

omit h

omit [DecidableEq ι] in
theorem EcClusterInv.new : EcClusterInv codec (.new : EcCluster ι) where
  applied_le _ := Nat.le_refl 0
  reserved row hmem := by cases hmem
  deletes e he := by cases he
  follows r := ⟨.fresh, rfl, .refl _, rfl, rfl⟩

end Steps

/-! ## Whole runs -/

/-- **EC traffic does not fork the log's rows.** In every run that keeps the planes apart, two
replicas that have applied the same number of log entries hold the same row at every key that no
client wrote through the EC plane, and answer every command alike that looks at no row of an EC
client. -/
theorem ec_traffic_does_not_fork (codec : MetadataCodec) (ops : List (EcClusterOp ι))
    (answers : List (Option CommandResult)) (n : EcCluster ι)
    (hok : along (ec_cluster_step codec) (EcCluster.Apart codec) .new ops)
    (hrun : run (ec_cluster_step codec) .new ops = some (answers, n)) (a b : ι)
    (hsame : n.applied a = n.applied b) :
    (∀ key, ¬ n.Written key →
      (n.machine a).store.metadata.get key = (n.machine b).store.metadata.get key) ∧
    ∀ index c, ¬ c.reads_rows n.Written n.WrittenControl (n.machine a).store →
      Alike (fun p q => p.1 = q.1) (apply codec (n.machine a) index c)
        (apply codec (n.machine b) index c) := by
  have hinv : EcClusterInv codec n :=
    run_invariant (EcClusterInv codec) (fun _ _ _ _ h hop hs => ec_cluster_step_inv h hop hs) .new
      hok hrun
  obtain ⟨m, hm, ha⟩ := hinv.follows a
  obtain ⟨m', hm', hb⟩ := hinv.follows b
  rw [← hsame, hm] at hm'
  cases hm'
  have hobs : ObsEqOutside n.Written n.WrittenControl (n.machine a) (n.machine b) :=
    ⟨ha.store.symm.trans hb.store, hb.advisory.trans ha.advisory.symm,
      hb.last_applied.trans ha.last_applied.symm⟩
  refine ⟨fun key hkey => (hobs.store.metadata key hkey).symm, fun index c hc => ?_⟩
  exact (apply_abreast codec hobs index hc).mono fun p q hpq => hpq.1

end System

/-- A step that can be seen to keep the planes apart: the log has sets and deletions only, clients
write metadata rows, and what arrives is of an EC client or is there already. -/
def EcCluster.plainly_apart (n : EcCluster Bool) : EcClusterOp Bool → Bool
  | .apply r =>
    match n.log[n.applied r]? with
    | none | some (.SetMetadata _ _) | some (.DeleteMetadata _) => true
    | _ => false
  | .propose_ec_local _ c _ => (ec_control_row c .Success).isNone
  | .apply_ec_from_peer r i =>
    match n.sent[i]? with
    | some ⟨.SetMetadata key value, _⟩ =>
      n.ec_keys.contains key || decide ((n.machine r).store.metadata.get key = some value)
    | _ => true
  | _ => true

theorem EcCluster.apart_of_plainly (codec : MetadataCodec) (n : EcCluster Bool) (op : EcClusterOp Bool)
    (h : n.plainly_apart op = true) : n.Apart codec op := by
  cases op with
  | commit c => trivial
  | ec_state_snapshot r => trivial
  | apply r =>
    intro c hc hreads
    unfold EcCluster.plainly_apart at h
    dsimp only at h
    rw [hc] at h
    cases c with
    | SetMetadata key value => exact hreads
    | DeleteMetadata key => exact hreads
    | _ => cases h
  | propose_ec_local r c timestamp =>
    intro row hrow
    unfold EcCluster.plainly_apart at h
    dsimp only at h
    rw [hrow] at h
    cases h
  | apply_ec_from_peer r i =>
    rintro ⟨c, timestamp⟩ key value hi hcommand hkey
    subst hcommand
    unfold EcCluster.plainly_apart at h
    dsimp only at h
    rw [hi] at h
    simp only [Bool.or_eq_true, contains_iff_mem, decide_eq_true_eq] at h
    rcases h with hmem | hget
    · exact absurd hmem hkey
    · exact .inr ⟨value, hget, .inl rfl⟩

/-- Both replicas apply a row of the log; one takes an EC write and sends its table. The other gets
the image before it applies anything else. -/
def image_in_time : List (EcClusterOp Bool) :=
  [.commit (.SetMetadata "/a" [0x48, 3]), .apply false, .apply true,
    .propose_ec_local false (.SetMetadata "/t/1" [2]) 1767225600, .ec_state_snapshot false,
    .apply_ec_from_peer true 1, .apply_ec_from_peer true 2, .commit (.DeleteMetadata "/a"),
    .apply true, .apply false]

theorem ec_traffic_does_not_fork_image_in_time :
    ∃ answers n, run (ec_cluster_step .unreadable) .new image_in_time = some (answers, n) ∧
      n.applied false = n.applied true ∧
      (n.machine false).store.metadata.get "/a" = (n.machine true).store.metadata.get "/a" ∧
      Alike (fun p q => p.1 = q.1) (apply .unreadable (n.machine false) 3 (.CasSetMetadata "/a" [2] 0))
        (apply .unreadable (n.machine true) 3 (.CasSetMetadata "/a" [2] 0)) := by
  refine exists_run (fun _ n => n.applied false = n.applied true ∧ n.ec_keys = ["/t/1"])
    (by decide +kernel) ?_
  rintro answers n hn ⟨hsame, hkeys⟩
  have hkey : ¬ n.Written "/a" := by
    unfold EcCluster.Written
    rw [hkeys]
    decide
  obtain ⟨hrows, hanswers⟩ := ec_traffic_does_not_fork .unreadable image_in_time answers n
    (along_of_check (EcCluster.apart_of_plainly .unreadable) (by decide +kernel)) hn false true hsame
  exact ⟨hsame, hrows "/a" hkey, hanswers 3 _ hkey⟩

/-- The image of the first row reaches the other replica after both have applied its deletion. -/
def image_too_late : List (EcClusterOp Bool) :=
  [.commit (.SetMetadata "/a" [0x48, 3]), .commit (.DeleteMetadata "/a"), .apply false,
    .ec_state_snapshot false, .apply false, .apply true, .apply true, .apply_ec_from_peer true 0]

/-- **A late image brings a deleted row back.** Both replicas have applied both entries, and no client
ever used the EC plane; yet one holds the row and the other does not, and the next compare-and-set of
the log goes through on one of them only. -/
theorem late_image_forks_the_log :
    ∃ answers n p q, run (ec_cluster_step .unreadable) .new image_too_late = some (answers, n) ∧
      n.applied false = 2 ∧ n.applied true = 2 ∧ n.ec_keys = [] ∧ n.ec_control_keys = [] ∧
      (n.machine false).store.metadata.get "/a" = none ∧
      (n.machine true).store.metadata.get "/a" = some [0x48, 3] ∧
      apply .unreadable (n.machine false) 3 (.CasSetMetadata "/a" [2] 0) = .ok p ∧
      apply .unreadable (n.machine true) 3 (.CasSetMetadata "/a" [2] 0) = .ok q ∧
      p.1 = .CasResult true 1 ∧ q.1 = .CasResult false 3 := by
  obtain ⟨answers, n, hn, ha, hb, hkeys, hcontrol, hrow, hrow', hp, hq⟩ :=
    run_decides (ec_cluster_step .unreadable) .new image_too_late (fun _ n =>
      n.applied false = 2 ∧ n.applied true = 2 ∧ n.ec_keys = [] ∧ n.ec_control_keys = [] ∧
      (n.machine false).store.metadata.get "/a" = none ∧
      (n.machine true).store.metadata.get "/a" = some [0x48, 3] ∧
      succeeds (apply .unreadable (n.machine false) 3 (.CasSetMetadata "/a" [2] 0))
        (fun p => decide (p.1 = .CasResult true 1)) = true ∧
      succeeds (apply .unreadable (n.machine true) 3 (.CasSetMetadata "/a" [2] 0))
        (fun q => decide (q.1 = .CasResult false 3)) = true) (by decide +kernel)
  obtain ⟨p, hp, hp1⟩ := succeeds_iff.mp hp
  obtain ⟨q, hq, hq1⟩ := succeeds_iff.mp hq
  exact ⟨answers, n, p, q, hn, ha, hb, hkeys, hcontrol, hrow, hrow', hp, hq, of_decide_eq_true hp1,
    of_decide_eq_true hq1⟩

end NexusVfs
