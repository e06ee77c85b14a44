/-
The retention GC: `stream_retention_gc.rs` and `cold_segment.rs`.

A trim drops segment records from the index; an observer deletes the blobs whose
`origin` is its node. It works from the list in the command, not from what the index
dropped, and looks at the plain trim only.
-/
import NexusVfs.StreamIsolation
import NexusVfs.Revisions

namespace NexusVfs.RetentionGc

open List Words Text Runs Table Option

/-! ## The observer -/

/-- The deletions on the node with address `me`, each with the stream path and the content id that
`delete_cold_segment` gets. A node without an address counts as the empty one. -/
def gc_trimmed_cold_segments (me stream_path : String) (trimmed : List (String × String)) :
    List (String × String) :=
  (trimmed.filter fun blob => blob.1 = me).map fun blob => (stream_path, blob.2)

/-- What the observer gives to the GC of its node. Only the plain command matches, and the result of
the entry is not looked at. -/
def stream_trim_gc_observer : Command → Option (String × List (String × String))
  | .TrimStreamSegment stream _ trimmed =>
    (watch_path_from_wal_stream_key stream).map fun path => (path, trimmed)
  | _ => none

def handed (m : FullStateMachine) (index : UInt64) (c : Command) :
    Option (String × List (String × String)) :=
  if emits m index c then stream_trim_gc_observer c else none

def Handed (m : FullStateMachine) (index : UInt64) (c : Command) (origin content_id : String) :
    Prop :=
  ∃ path trimmed, handed m index c = some (path, trimmed) ∧ (origin, content_id) ∈ trimmed

/-- The node `origin` is among the nodes and passes its blob to `delete_cold_segment`. -/
def Passed (nodes : List String) (m : FullStateMachine) (index : UInt64) (c : Command)
    (origin content_id : String) : Prop :=
  origin ∈ nodes ∧ ∃ path trimmed, handed m index c = some (path, trimmed) ∧
    (path, content_id) ∈ gc_trimmed_cold_segments origin path trimmed

theorem mem_gc_trimmed_cold_segments {me path content_id : String}
    {trimmed : List (String × String)} :
    (path, content_id) ∈ gc_trimmed_cold_segments me path trimmed ↔ (me, content_id) ∈ trimmed := by
  unfold gc_trimmed_cold_segments
  rw [List.mem_map]
  constructor
  · rintro ⟨⟨origin, id⟩, hmem, heq⟩
    obtain ⟨hblob, horigin⟩ := mem_filter.mp hmem
    obtain rfl : origin = me := of_decide_eq_true horigin
    obtain rfl : id = content_id := (Prod.mk.inj heq).2
    exact hblob
  · intro hmem
    refine ⟨(me, content_id), mem_filter.mpr ⟨hmem, ?_⟩, rfl⟩
    simp

variable {nodes : List String} {m m' : FullStateMachine} {index up_to_seq : UInt64} {c : Command}
variable {stream : String} {codec : MetadataCodec} {r : CommandResult}

theorem passed_iff {origin content_id : String} :
    Passed nodes m index c origin content_id ↔
      origin ∈ nodes ∧ Handed m index c origin content_id := by
  simp only [Passed, Handed, mem_gc_trimmed_cold_segments]

theorem handed_of_not_trim (hc : ∀ stream up_to_seq, c.stream_op ≠ some (stream, .Trim up_to_seq)) :
    handed m index c = none := by
  unfold handed
  split_ifs
  · cases c with
    | TrimStreamSegment stream up_to_seq trimmed => exact absurd rfl (hc stream up_to_seq)
    | _ => rfl
  · rfl

/-! ## What a trim leaves of the index -/

/-- The command is a trim, plain or guarded, that goes through (the fence and the cursors let it),
and the record at `key` lies in the trimmed range. -/
def Drops (m : FullStateMachine) (index : UInt64) (c : Command) (key : String)
    (rec : SegmentRecord) : Prop :=
  ∃ stream up_to_seq, c.stream_op = some (stream, .Trim up_to_seq) ∧ TakesEffect m index c ∧
    ¬ trim_refused m.store.stream_entries stream up_to_seq ∧
    key.startsWith ( stream_segment_key_prefix stream) = true ∧ rec.end_ ≤ up_to_seq

theorem segment_tag_ne_earliest_tag (x y : String) :
    "__stream_seg__" ++ x ≠ "__stream_earliest__" ++ y :=
  append_ne_of_take 10 (by decide +kernel) (by decide +kernel) (by decide +kernel)

theorem stream_segment_trim {t : Table String Bytes} (hgate : ¬ trim_refused t stream up_to_seq)
    (Q : String) (base : UInt64) :
    stream_segment (trim_stream_segment t stream up_to_seq).2 Q base =
      if stream_segment_key Q base ∈ trimmed_keys t stream up_to_seq then none
      else stream_segment t Q base := by
  unfold trim_refused at hgate
  have hkey : stream_segment_key Q base = row_key Q (.segment base) := rfl
  simp only [trim_stream_segment, if_neg hgate, stream_segment, hkey]
  have hne : row_key Q (.segment base) ≠ stream_earliest_key stream := by
    rw [row_key_eq]
    exact segment_tag_ne_earliest_tag _ stream
  rw [get_insert_of_ne _ _ hne, get_remove_all]
  split_ifs <;> rfl

/-- **The index after a trim.** A record is gone if the trim drops it; otherwise it is as it was. -/
theorem stream_segment_apply (hc : c.stream_op = some (stream, .Trim up_to_seq))
    (h : apply codec m index c = .ok (r, m')) (Q : String) (base : UInt64) :
    (∀ rec, stream_segment m.store.stream_entries Q base = some rec →
      Drops m index c (stream_segment_key Q base) rec →
      stream_segment m'.store.stream_entries Q base = none) ∧
    ((∀ rec, stream_segment m.store.stream_entries Q base = some rec →
      ¬ Drops m index c (stream_segment_key Q base) rec) →
      stream_segment m'.store.stream_entries Q base =
        stream_segment m.store.stream_entries Q base) := by
  rcases apply_stream_op hc h with ⟨heff, -, htab⟩ | ⟨hno, -, htab⟩
  · rw [htab, StreamOp.exec]
    by_cases hgate : trim_refused m.store.stream_entries stream up_to_seq
    · rw [(trim_stream_segment_of_refused hgate).2]
      refine ⟨?_, fun _ => rfl⟩
      rintro rec - ⟨stream', up_to', hc', -, hgate', -⟩
      obtain ⟨rfl, heq⟩ := Prod.mk.inj (some.inj (hc.symm.trans hc'))
      obtain rfl := StreamOp.Trim.inj heq
      exact absurd hgate hgate'
    · rw [stream_segment_trim hgate]
      constructor
      · rintro rec hrec ⟨stream', up_to', hc', -, -, hpre, hend⟩
        obtain ⟨rfl, heq⟩ := Prod.mk.inj (some.inj (hc.symm.trans hc'))
        obtain rfl := StreamOp.Trim.inj heq
        exact if_pos (mem_trimmed_keys_iff.mpr ⟨hpre, rec, hrec, hend⟩)
      · intro hkept
        refine if_neg fun hmem => ?_
        obtain ⟨hpre, rec, hrec, hend⟩ := mem_trimmed_keys_iff.mp hmem
        exact hkept rec hrec ⟨stream, up_to_seq, hc, heff, hgate, hpre, hend⟩
  · rw [htab]
    refine ⟨?_, fun _ => rfl⟩
    rintro rec - ⟨-, -, -, heff, -⟩
    exact absurd heff hno

/-! ## When the GC is exact -/

/-- What the GC owes after a command has been applied and observed on all nodes. -/
structure GcExact (nodes : List String) (m : FullStateMachine) (index : UInt64) (c : Command)
    (m' : FullStateMachine) : Prop where
  /-- No blob of a record that is in the index, of whichever stream, was passed for deletion. -/
  spares : ∀ Q base rec, stream_segment m'.store.stream_entries Q base = some rec →
    ¬ Passed nodes m index c rec.origin rec.content_id
  /-- The blob of a record that a trim removed was handed to the GC on its origin node. -/
  reclaims : ∀ stream up_to_seq, c.stream_op = some (stream, .Trim up_to_seq) →
    ∀ Q base rec, stream_segment m.store.stream_entries Q base = some rec →
      stream_segment m'.store.stream_entries Q base = none → rec.origin ∈ nodes →
      Handed m index c rec.origin rec.content_id

/-- For every record with its origin among the nodes, the list that the observer takes from the
command names its blob exactly if the command drops the record. -/
def ListMatches (nodes : List String) (m : FullStateMachine) (index : UInt64) (c : Command) :
    Prop :=
  ∀ Q base rec, stream_segment m.store.stream_entries Q base = some rec → rec.origin ∈ nodes →
    (Handed m index c rec.origin rec.content_id ↔ Drops m index c (stream_segment_key Q base) rec)

theorem GcExact.listMatches (hexact : GcExact nodes m index c m')
    (hc : c.stream_op = some (stream, .Trim up_to_seq)) (h : apply codec m index c = .ok (r, m')) :
    ListMatches nodes m index c := by
  intro Q base rec hrec horigin
  obtain ⟨hgone, hkept⟩ := stream_segment_apply hc h Q base
  constructor
  · intro hhanded
    by_contra hdrops
    have hstays : stream_segment m'.store.stream_entries Q base = some rec := by
      rw [hkept, hrec]
      intro rec' hrec'
      obtain rfl : rec = rec' := some.inj (hrec.symm.trans hrec')
      exact hdrops
    exact hexact.spares Q base rec hstays (passed_iff.mpr ⟨horigin, hhanded⟩)
  · intro hdrops
    exact hexact.reclaims stream up_to_seq hc Q base rec hrec (hgone rec hrec hdrops) horigin

theorem ListMatches.gcExact (hlist : ListMatches nodes m index c)
    (hc : c.stream_op = some (stream, .Trim up_to_seq)) (h : apply codec m index c = .ok (r, m')) :
    GcExact nodes m index c m' := by
  constructor
  · intro Q base rec hrec' hpassed
    obtain ⟨hgone, hkept⟩ := stream_segment_apply hc h Q base
    obtain ⟨horigin, hhanded⟩ := passed_iff.mp hpassed
    by_cases hall : ∀ rec, stream_segment m.store.stream_entries Q base = some rec →
        ¬ Drops m index c (stream_segment_key Q base) rec
    · rw [hkept hall] at hrec'
      exact hall rec hrec' ((hlist Q base rec hrec' horigin).mp hhanded)
    · push Not at hall
      obtain ⟨old, hold, hdrops⟩ := hall
      rw [hgone old hold hdrops] at hrec'
      cases hrec'
  · intro _ _ _ Q base rec hrec hnone horigin
    refine (hlist Q base rec hrec horigin).mpr ?_
    by_contra hdrops
    rw [(stream_segment_apply hc h Q base).2, hrec] at hnone
    · cases hnone
    · intro rec' hrec'
      obtain rfl : rec = rec' := some.inj (hrec.symm.trans hrec')
      exact hdrops

/-- **When the retention GC is exact.** After any committed command has been applied and observed on
all nodes, no blob of an indexed record was passed for deletion and every trimmed record's blob was
handed to its node, exactly if the list matches the index. -/
theorem retention_gc_iff (codec : MetadataCodec) (nodes : List String) (m m' : FullStateMachine)
    (index : UInt64) (c : Command) (r : CommandResult) (h : apply codec m index c = .ok (r, m')) :
    GcExact nodes m index c m' ↔ ListMatches nodes m index c := by
  by_cases hc : ∃ stream up_to_seq, c.stream_op = some (stream, .Trim up_to_seq)
  · obtain ⟨stream, up_to_seq, hc⟩ := hc
    exact ⟨fun hexact => hexact.listMatches hc h, fun hlist => hlist.gcExact hc h⟩
  · -- Nothing is observed and nothing is dropped.
    push Not at hc
    have hhanded (origin content_id : String) : ¬ Handed m index c origin content_id := by
      rintro ⟨path, trimmed, hsome, -⟩
      rw [handed_of_not_trim hc] at hsome
      cases hsome
    constructor
    · intro _ Q base rec _ _
      refine ⟨fun hmem => absurd hmem (hhanded _ _), ?_⟩
      rintro ⟨stream, up_to_seq, hop, -⟩
      exact absurd hop (hc stream up_to_seq)
    · intro _
      refine ⟨fun Q base rec _ hpassed => hhanded _ _ (passed_iff.mp hpassed).2, ?_⟩
      intro stream up_to_seq hop
      exact absurd hop (hc stream up_to_seq)

def sealed_stream : List LogEntry :=
  [⟨1, .AppendStreamEntry "/__wal_stream__//a/" [1]⟩,
   ⟨2, .SealStreamSegment "/__wal_stream__//a/" 0 1 "cid-a" "node:1" 1⟩]

/-- The trim of the sealed segment, with its blob in the list. -/
def matching_trim : Command := .TrimStreamSegment "/__wal_stream__//a/" 1 [("node:1", "cid-a")]

/-- Every row that decodes as a record is the one record that `matching_trim` drops. -/
def rows_match (t : Table String Bytes) : Bool :=
  (t.scan fun _ => true).all fun row => (decode_segment_record row.2).all fun rec =>
    row.1.startsWith ( stream_segment_key_prefix "/__wal_stream__//a/") && decide (rec.end_ ≤ 1) &&
      decide ((rec.origin, rec.content_id) = ("node:1", "cid-a"))

theorem retention_gc_iff_matching_trim :
    ∃ m r m', Reachable .unreadable m ∧ apply .unreadable m 3 matching_trim = .ok (r, m') ∧
      GcExact ["node:1"] m 3 matching_trim m' := by
  obtain ⟨results, m, hm, hok, hemits, hindex, hfence, hgate, hrows⟩ := run_decides
    (apply_step .unreadable) .fresh sealed_stream (fun _ m =>
      succeeds (apply .unreadable m 3 matching_trim) (fun _ => true) = true ∧
      emits m 3 matching_trim = true ∧ m.last_applied < 3 ∧
      plain_record_refusal m.store matching_trim = none ∧
      ¬ trim_refused m.store.stream_entries "/__wal_stream__//a/" 1 ∧
      rows_match m.store.stream_entries = true) (by decide +kernel)
  obtain ⟨⟨r, m'⟩, happly, -⟩ := succeeds_iff.mp hok
  refine ⟨m, r, m', ⟨sealed_stream, results, hm⟩, happly, ?_⟩
  refine (retention_gc_iff .unreadable ["node:1"] m m' 3 matching_trim r happly).mpr ?_
  have hpath : watch_path_from_wal_stream_key "/__wal_stream__//a/" = some "/a" := by
    decide +kernel
  have hhanded : handed m 3 matching_trim = some ("/a", [("node:1", "cid-a")]) := by
    rw [handed, if_pos hemits, matching_trim, stream_trim_gc_observer, hpath]
    rfl
  intro Q base rec hrec _
  obtain ⟨v, hget, hdec⟩ := bind_eq_some_iff.mp hrec
  have hrow := all_eq_true.mp hrows (stream_segment_key Q base, v)
    (mem_scan.mpr ⟨rfl, hget⟩)
  simp only [hdec, all_some, Bool.and_eq_true, decide_eq_true_eq] at hrow
  obtain ⟨⟨hpre, hend⟩, hblob⟩ := hrow
  refine ⟨fun _ => ?_, fun _ => ⟨_, _, hhanded, by simp [hblob]⟩⟩
  exact ⟨_, 1, rfl, ⟨hindex, congrArg Except.ok hfence⟩, hgate, hpre, hend⟩

/-- The stream's record is bound to the owner `/g` after its segment was sealed. -/
def bound_sealed_stream : List LogEntry :=
  sealed_stream ++
    [⟨3, .SetMetadata "/g" [9]⟩,
     ⟨4, .AdoptProtectedMetadata "/g" (some [9]) sample_incarnation⟩,
     ⟨5, .BindRecordGuard "/a" none "/g" (be 23 0 ++ [1]) sample_incarnation⟩]

def guarded_trim : Command :=
  .GuardedRecord (be 23 0 ++ [1]) (.Trim "/__wal_stream__//a/" 1 [("node:1", "cid-a")])

/-- **Both halves fail on a bound stream.** The plain trim is refused, its record stays, and the
blob is deleted all the same; the owner's trim removes the record, and its blob is handed to no
node. -/
theorem retention_gc_on_bound_stream :
    ∃ m, Reachable .unreadable m ∧
      (∃ r m', apply .unreadable m 6 matching_trim = .ok (r, m') ∧ r.refused = true ∧
        (stream_segment m'.store.stream_entries "/__wal_stream__//a/" 0).isSome ∧
        ¬ GcExact ["node:1"] m 6 matching_trim m') ∧
      (∃ m', apply .unreadable m 6 guarded_trim = .ok (.Success, m') ∧
        stream_segment m'.store.stream_entries "/__wal_stream__//a/" 0 = none ∧
        ¬ GcExact ["node:1"] m 6 guarded_trim m') := by
  obtain ⟨results, m, hm, hseg, hhanded, hplain, hguarded⟩ := run_decides
    (apply_step .unreadable) .fresh bound_sealed_stream (fun _ m =>
      stream_segment m.store.stream_entries "/__wal_stream__//a/" 0 =
        some ⟨1, 1, "node:1", "cid-a"⟩ ∧
      handed m 6 matching_trim = some ("/a", [("node:1", "cid-a")]) ∧
      succeeds (apply .unreadable m 6 matching_trim) (fun q => q.1.refused &&
        decide (stream_segment q.2.store.stream_entries "/__wal_stream__//a/" 0 =
          some ⟨1, 1, "node:1", "cid-a"⟩)) = true ∧
      succeeds (apply .unreadable m 6 guarded_trim) (fun q => decide (q.1 = .Success) &&
        decide (stream_segment q.2.store.stream_entries "/__wal_stream__//a/" 0 = none)) = true)
    (by decide +kernel)
  refine ⟨m, ⟨bound_sealed_stream, results, hm⟩, ?_, ?_⟩
  · obtain ⟨⟨r, m'⟩, happly, hq⟩ := succeeds_iff.mp hplain
    simp only [Bool.and_eq_true, decide_eq_true_eq] at hq
    refine ⟨r, m', happly, hq.1, by simp [hq.2], fun hexact => ?_⟩
    refine hexact.spares _ _ _ hq.2 (passed_iff.mpr ⟨by simp, _, _, hhanded, by simp⟩)
  · obtain ⟨⟨r, m'⟩, happly, hq⟩ := succeeds_iff.mp hguarded
    simp only [Bool.and_eq_true, decide_eq_true_eq] at hq
    obtain ⟨rfl, hnone⟩ := hq
    refine ⟨m', happly, hnone, fun hexact => ?_⟩
    obtain ⟨path, trimmed, hsome, -⟩ :=
      hexact.reclaims _ _ rfl _ _ _ hseg hnone (by simp)
    have hnothing : handed m 6 guarded_trim = none := ite_self _
    rw [hnothing] at hsome
    cases hsome

end NexusVfs.RetentionGc
