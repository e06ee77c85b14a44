/-
One stream's commands and another stream's rows.

Appends and seals address exact keys. A trim deletes what a range scan returns, and the
scan of `/a/` also returns the segment records of `/a/b/`.
-/
import NexusVfs.StateMachine

namespace NexusVfs

open Words Text Runs

/-! ## Well-formed stream prefixes -/

inductive WalKind where
  | stream
  | pipe
  deriving DecidableEq, Repr

/-- A stream or pipe with its id, which is a VFS path and may contain `/`. -/
structure WalPrefix where
  kind : WalKind
  id : String
  deriving DecidableEq, Repr

namespace WalPrefix

/-- `/__wal_stream__/<id>/` or `/__wal_pipe__/<id>/`. -/
def key (P : WalPrefix) : String :=
  match P.kind with
  | .stream => wal_stream_prefix P.id
  | .pipe => "/__wal_pipe__/" ++ P.id ++ "/"

theorem framed (P : WalPrefix) : SlashFramed P.key := by
  have hslash : ends_with "/" '/' = true := by decide
  constructor
  · unfold key wal_stream_prefix WAL_STREAM_KEY_PREFIX
    split <;> simp only [String.toList_append] <;> exact ⟨_, rfl⟩
  · unfold key wal_stream_prefix
    split <;> exact ends_with_append hslash

theorem key_inj {P Q : WalPrefix} (h : P.key = Q.key) : P = Q := by
  obtain ⟨kind, id⟩ := P
  obtain ⟨kind', id'⟩ := Q
  have hl := congrArg String.toList h
  cases kind <;> cases kind' <;>
    simp only [key, wal_stream_prefix, WAL_STREAM_KEY_PREFIX, String.append_left_inj,
      String.append_right_inj, String.toList_append] at h hl
  · rw [h]
  · exact absurd (congrArg (fun l => l[7]?) hl) (by simp)
  · exact absurd (congrArg (fun l => l[7]?) hl) (by simp)
  · rw [h]

end WalPrefix

/-! ## What an operation does to another stream -/

/-- The operation on `P` deletes row `r` of stream `Q`: it is a trim that goes through, the key of
`Q` extends the key of `P`, and `r` is a segment record that ends at or below the trim's offset. -/
def StreamOp.Drops (t : Table String Bytes) (P : String) (op : StreamOp) (Q : String)
    (r : StreamRow) : Prop :=
  ∃ up_to_seq base rec, op = .Trim up_to_seq ∧ ¬ trim_refused t P up_to_seq ∧
    Q.startsWith P = true ∧ r = .segment base ∧ stream_segment t Q base = some rec ∧
    rec.end_ ≤ up_to_seq

section Other

variable {t : Table String Bytes} {P Q : String} (hP : SlashFramed P) (hQ : SlashFramed Q)
  (hne : Q ≠ P)
include hP hQ hne

theorem StreamOp.exec_row_of_not_drops {op : StreamOp} {r : StreamRow}
    (h : ¬ op.Drops t P Q r) : (op.exec t P).2.get (row_key Q r) = t.get (row_key Q r) := by
  cases op with
  | Append data =>
    rw [StreamOp.exec, append_stream_entry_row t hP hQ, if_neg fun hc => hne hc.1,
      if_neg fun hc => hne hc.1]
  | Seal base end_ content_id origin size =>
    by_cases hgate : seal_refused t P base end_
    · rw [StreamOp.exec, (seal_stream_segment_of_refused content_id origin size hgate).2]
    · rw [StreamOp.exec, seal_stream_segment_row t hP hQ content_id origin size hgate,
        if_neg fun hc => hne hc.1,
        if_neg fun hc => hne ((mem_sealed_keys hP hQ base end_ r).mp hc).1,
        if_neg fun hc => hne hc.1]
  | Trim up_to_seq =>
    by_cases hgate : trim_refused t P up_to_seq
    · rw [StreamOp.exec, (trim_stream_segment_of_refused hgate).2]
    · rw [StreamOp.exec, trim_stream_segment_row t hP hQ hgate, if_neg fun hc => hne hc.1,
        if_neg]
      intro hmem
      obtain ⟨hQP, base, rec, hr, hseg, hend⟩ := (mem_trimmed_keys t hP hQ up_to_seq r).mp hmem
      exact h ⟨up_to_seq, base, rec, rfl, hgate, hQP, hr, hseg, hend⟩

theorem StreamOp.exec_row_of_drops {op : StreamOp} {r : StreamRow} (h : op.Drops t P Q r) :
    (op.exec t P).2.get (row_key Q r) = none ∧ (t.get (row_key Q r)).isSome := by
  obtain ⟨up_to_seq, base, rec, rfl, hgate, hQP, rfl, hseg, hend⟩ := h
  have hmem : row_key Q (.segment base) ∈ trimmed_keys t P up_to_seq :=
    (mem_trimmed_keys t hP hQ up_to_seq _).mpr ⟨hQP, base, rec, rfl, hseg, hend⟩
  constructor
  · rw [StreamOp.exec, trim_stream_segment_row t hP hQ hgate, if_neg fun hc => hne hc.1,
      if_pos hmem]
  · obtain ⟨v, hget, -⟩ := Option.bind_eq_some_iff.mp hseg
    exact Option.isSome_iff_exists.mpr ⟨v, hget⟩

end Other

/-! ## Applying a stream command -/

/-- A stream command takes effect: it is not skipped as applied before, and the fence lets it
through. -/
def TakesEffect (m : FullStateMachine) (index : UInt64) (c : Command) : Prop :=
  m.last_applied < index ∧ record_guard_refusal m.store c = .ok none

theorem apply_stream_op {codec : MetadataCodec} {m : FullStateMachine} {index : UInt64}
    {c : Command} {stream : String} {op : StreamOp} {r : CommandResult} {m' : FullStateMachine}
    (hc : c.stream_op = some (stream, op)) (h : apply codec m index c = .ok (r, m')) :
    (TakesEffect m index c ∧ r = (op.exec m.store.stream_entries stream).1 ∧
      m'.store.stream_entries = (op.exec m.store.stream_entries stream).2) ∨
    (¬ TakesEffect m index c ∧ (r.refused = true ∨ r = .Success) ∧
      m'.store.stream_entries = m.store.stream_entries) := by
  rcases apply_cases (Command.not_lock_of_stream_op hc) h with
    ⟨hidx, hr, rfl⟩ | ⟨hidx, store, hexec, rfl⟩
  · exact .inr ⟨fun he => UInt64.not_lt.mpr hidx he.1, .inr hr, rfl⟩
  · obtain ⟨ref₁, h1, hexec⟩ := bind_eq_ok.mp hexec
    cases ref₁ with
    | some refusal =>
      obtain ⟨rfl, rfl⟩ := ok_pair_inj hexec
      refine .inr ⟨fun he => ?_, .inl (record_guard_refusal_some h1), rfl⟩
      rw [he.2] at h1
      cases h1
    | none =>
      have hord : ordinary_refusal m.store c = .ok none := by
        cases c <;> first | rfl | cases hc
      obtain ⟨ref₂, h2, hexec⟩ := bind_eq_ok.mp hexec
      rw [hord] at h2
      cases h2
      rw [execute_arm_of_stream_op hc] at hexec
      obtain ⟨rfl, rfl⟩ := ok_pair_inj hexec
      exact .inl ⟨⟨hidx, h1⟩, rfl, rfl⟩

/-- Two nested streams, each with one sealed entry. -/
def nested_streams : List LogEntry :=
  [⟨1, .AppendStreamEntry "/__wal_stream__//a/" [1]⟩,
   ⟨2, .AppendStreamEntry "/__wal_stream__//a/b/" [2]⟩,
   ⟨3, .SealStreamSegment "/__wal_stream__//a/" 0 1 "cid-a" "node:1" 1⟩,
   ⟨4, .SealStreamSegment "/__wal_stream__//a/b/" 0 1 "cid-b" "node:1" 1⟩]

end NexusVfs
