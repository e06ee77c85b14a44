/-
The history of a WAL stream.

`StreamHistory` ties its rows together: the offsets `[floor, tail)` are in the hot rows
with the payloads they were answered for, and `[earliest, floor)` are each covered by
exactly one segment record. It is stated against the list of payloads accepted so far.
It holds along every run without a trim of a parent stream that deletes a nested
stream's records.
-/
import NexusVfs.StreamIsolation
import NexusVfs.Effects

namespace NexusVfs

open Option List Words Text Runs Table

/-! ## The invariant -/

def InSegment (t : Table String Bytes) (P : String) (x : ℕ) (base : UInt64) : Prop :=
  ∃ rec, stream_segment t P base = some rec ∧ base.toNat ≤ x ∧ x < rec.end_.toNat

structure StreamHistory (t : Table String Bytes) (P : String) (payloads : List Bytes) : Prop where
  earliest_le_floor : (stream_earliest t P).toNat ≤ (stream_floor t P).toNat
  floor_le_tail : (stream_floor t P).toNat ≤ (stream_tail t P).toNat
  /-- The tail counts the accepted appends. -/
  tail_eq : (stream_tail t P).toNat = payloads.length
  /-- The hot rows are those of `[floor, tail)`, with their payloads. -/
  hot : ∀ seq : UInt64, t.get (row_key P (.entry seq)) =
    if (stream_floor t P).toNat ≤ seq.toNat then payloads[seq.toNat]? else none
  /-- Every segment record decodes, is not empty, and lies in `[0, floor)`, above the trimmed part. -/
  segment : ∀ base v, t.get (row_key P (.segment base)) = some v →
    ∃ rec, decode_segment_record v = some rec ∧ base.toNat < rec.end_.toNat ∧
      rec.end_.toNat ≤ (stream_floor t P).toNat ∧
      (stream_earliest t P).toNat < rec.end_.toNat
  /-- The segments tile `[earliest, floor)`. -/
  tiling : ∀ x, (stream_earliest t P).toNat ≤ x → x < (stream_floor t P).toNat →
    ∃! base, InSegment t P x base

variable {t : Table String Bytes} {P : String} {codec : MetadataCodec} {m m' : FullStateMachine}
variable {r : CommandResult} {op : StreamOp} {e : LogEntry}

theorem StreamHistory.congr {t' : Table String Bytes} {payloads : List Bytes}
    (hrows : ∀ r, t'.get (row_key P r) = t.get (row_key P r)) (h : StreamHistory t P payloads) :
    StreamHistory t' P payloads := by
  have htail : stream_tail t' P = stream_tail t P := read_u64_congr (hrows .tail)
  have hfloor : stream_floor t' P = stream_floor t P := read_u64_congr (hrows .floor)
  have hearliest : stream_earliest t' P = stream_earliest t P := read_u64_congr (hrows .earliest)
  have hseg (base : UInt64) : stream_segment t' P base = stream_segment t P base :=
    stream_segment_of_get (hrows (.segment base))
  refine ⟨?_, ?_, ?_, ?_, ?_, ?_⟩
  · rw [hearliest, hfloor]
    exact h.earliest_le_floor
  · rw [hfloor, htail]
    exact h.floor_le_tail
  · rw [htail]
    exact h.tail_eq
  · intro seq
    rw [hrows, hfloor]
    exact h.hot seq
  · intro base v hv
    rw [hrows] at hv
    rw [hfloor, hearliest]
    exact h.segment base v hv
  · intro x hlo hhi
    rw [hearliest] at hlo
    rw [hfloor] at hhi
    simp only [InSegment, hseg]
    exact h.tiling x hlo hhi

theorem StreamHistory.empty (P : String) : StreamHistory ∅ P [] := by
  have hzero (key : String) : read_u64 (∅ : Table String Bytes) key = 0 := by
    rfl
  refine ⟨?_, ?_, ?_, ?_, ?_, ?_⟩
  · simp [stream_earliest, stream_floor, hzero]
  · simp [stream_floor, stream_tail, hzero]
  · simp [stream_tail, hzero]
  · intro seq
    simp
  · intro base v hv
    simp at hv
  · intro x _ hx
    simp [stream_floor, hzero] at hx

/-! ## Each operation extends its own stream's history -/

section Own

variable {t : Table String Bytes} {P : String} (hP : SlashFramed P) {payloads : List Bytes}
  (h : StreamHistory t P payloads)
include hP h

theorem StreamHistory.append (data : Bytes) (hroom : (stream_tail t P).toNat + 1 < 2 ^ 64) :
    StreamHistory (append_stream_entry t P data).2 P (payloads ++ [data]) := by
  obtain ⟨htail, hfloor, hearliest, hentry, hsegrow⟩ := append_own t hP data
  generalize (append_stream_entry t P data).2 = t' at htail hfloor hearliest hentry hsegrow
  have hseg (base : UInt64) : stream_segment t' P base = stream_segment t P base :=
    stream_segment_of_get (hsegrow base)
  have hsucc : (stream_tail t P + 1).toNat = (stream_tail t P).toNat + 1 := by
    exact Nat.mod_eq_of_lt hroom
  have hle := h.floor_le_tail
  have hlen := h.tail_eq
  refine ⟨?_, ?_, ?_, ?_, ?_, ?_⟩
  · rw [hearliest, hfloor]
    exact h.earliest_le_floor
  · rw [hfloor, htail, hsucc]
    omega
  · rw [htail, hsucc, hlen, length_append, length_singleton]
  · intro seq
    rw [hentry, hfloor]
    by_cases hseq : seq = stream_tail t P
    · subst hseq
      rw [if_pos rfl, if_pos hle, hlen, getElem?_concat_length]
    · have hne : seq.toNat ≠ payloads.length := fun heq =>
        hseq (UInt64.toNat_inj.mp (heq.trans hlen.symm))
      rw [h.hot seq]
      split_ifs with hlo
      · rcases Nat.lt_or_gt_of_ne hne with hlt | hgt
        · rw [getElem?_append_left hlt]
        · rw [getElem?_eq_none (by omega), getElem?_eq_none (by simp; omega)]
      · rfl
  · intro base v hv
    rw [hsegrow] at hv
    rw [hfloor, hearliest]
    exact h.segment base v hv
  · intro x hlo hhi
    rw [hearliest] at hlo
    rw [hfloor] at hhi
    simp only [InSegment, hseg]
    exact h.tiling x hlo hhi

theorem StreamHistory.seal_segment {base end_ : UInt64} (content_id : String) {origin : String}
    (size : UInt64) (horigin : (as_bytes origin).length < 2 ^ 32)
    (hgate : ¬ seal_refused t P base end_) :
    StreamHistory (seal_stream_segment t P base end_ content_id origin size).2 P payloads := by
  obtain ⟨htail, hfloor, hearliest, hentry, hsegrow⟩ := seal_own t hP content_id origin size hgate
  generalize (seal_stream_segment t P base end_ content_id origin size).2 = t' at *
  simp only [seal_refused, not_or, not_not, UInt64.lt_iff_toNat_lt, UInt64.le_iff_toNat_le,
    Nat.not_le, Nat.not_lt] at hgate
  obtain ⟨hbase, hnonempty, htailok⟩ := hgate
  have hel := h.earliest_le_floor
  have hfb : (stream_floor t P).toNat = base.toNat := by rw [hbase]
  have hdec := decode_encode_segment_record end_ size content_id horigin
  have hnewseg : stream_segment t' P base = some ⟨end_, size, origin, content_id⟩ := by
    rw [stream_segment_of_get ((hsegrow base).trans (if_pos rfl)), bind_some, hdec]
  have holdseg (b : UInt64) (hb : b ≠ base) : stream_segment t' P b = stream_segment t P b :=
    stream_segment_of_get ((hsegrow b).trans (if_neg hb))
  -- the gate puts `base` at the floor, so the hot rows that go are those from `base` up to `end_`
  refine ⟨?_, ?_, ?_, ?_, ?_, ?_⟩
  · rw [hearliest, hfloor]
    omega
  · rw [hfloor, htail]
    exact htailok
  · rw [htail]
    exact h.tail_eq
  · intro seq
    rw [hentry, hfloor, h.hot seq]
    simp only [UInt64.le_iff_toNat_le, UInt64.lt_iff_toNat_lt, hfb]
    by_cases h1 : end_.toNat ≤ seq.toNat
    · rw [if_neg (by omega), if_pos (by omega), if_pos h1]
    · rw [if_neg h1]
      by_cases h2 : base.toNat ≤ seq.toNat
      · rw [if_pos ⟨h2, by omega⟩]
      · rw [if_neg (by omega), if_neg h2]
  · intro b v hv
    rw [hfloor, hearliest]
    rw [hsegrow] at hv
    by_cases hb : b = base
    · subst hb
      rw [if_pos rfl] at hv
      obtain rfl := some.inj hv
      exact ⟨_, hdec, hnonempty, Nat.le_refl _, by dsimp only; omega⟩
    · rw [if_neg hb] at hv
      obtain ⟨rec, hdec, h1, h2, h3⟩ := h.segment b v hv
      exact ⟨rec, hdec, h1, by omega, h3⟩
  · intro x hlo hhi
    rw [hearliest] at hlo
    rw [hfloor] at hhi
    -- Older segments end at the old floor, the new one starts there.
    have hold (b : UInt64) (hb : InSegment t P x b) : x < (stream_floor t P).toNat := by
      obtain ⟨rec, hseg, -, hx⟩ := hb
      obtain ⟨v, hv, hd⟩ := bind_eq_some_iff.mp hseg
      obtain ⟨rec', hd', -, hle, -⟩ := h.segment b v hv
      rw [hd] at hd'
      cases hd'
      omega
    by_cases hx : x < (stream_floor t P).toNat
    · obtain ⟨b, ⟨rec, hseg, h1, h2⟩, huniq⟩ := h.tiling x hlo hx
      have hb : b ≠ base := by
        rintro rfl
        omega
      refine ⟨b, ⟨rec, (holdseg b hb).trans hseg, h1, h2⟩, ?_⟩
      rintro b' ⟨rec', hseg', h1', h2'⟩
      have hb' : b' ≠ base := by
        rintro rfl
        omega
      exact huniq b' ⟨rec', (holdseg b' hb').symm.trans hseg', h1', h2'⟩
    · refine ⟨base, ⟨_, hnewseg, by omega, hhi⟩, ?_⟩
      rintro b' ⟨rec', hseg', h1', h2'⟩
      by_contra hb'
      exact hx (hold b' ⟨rec', (holdseg b' hb').symm.trans hseg', h1', h2'⟩)

theorem StreamHistory.trim_segment {up_to_seq : UInt64} (hgate : ¬ trim_refused t P up_to_seq) :
    StreamHistory (trim_stream_segment t P up_to_seq).2 P payloads := by
  obtain ⟨htail, hfloor, hearliest, hentry, hdrop, hkeep⟩ := trim_own t hP hgate
  generalize (trim_stream_segment t P up_to_seq).2 = t' at *
  simp only [trim_refused, not_or, UInt64.lt_iff_toNat_lt, UInt64.le_iff_toNat_le, Nat.not_le,
    Nat.not_lt] at hgate
  obtain ⟨hadvance, hcold⟩ := hgate
  -- What is left of the segment rows: those whose record ends above the new mark, unchanged.
  have hleft (b : UInt64) (v : Bytes) (hv : t'.get (row_key P (.segment b)) = some v) :
      t.get (row_key P (.segment b)) = some v ∧
        ∀ rec, decode_segment_record v = some rec → up_to_seq.toNat < rec.end_.toNat := by
    have hnot (rec : SegmentRecord) (hs : stream_segment t P b = some rec) :
        up_to_seq < rec.end_ := by
      by_contra hle
      rw [hdrop b rec hs (UInt64.not_lt.mp hle)] at hv
      cases hv
    have hold : t.get (row_key P (.segment b)) = some v := (hkeep b hnot).symm.trans hv
    refine ⟨hold, fun rec hd => UInt64.lt_iff_toNat_lt.mp (hnot rec ?_)⟩
    rw [stream_segment_of_get hold, bind_some, hd]
  refine ⟨?_, ?_, ?_, ?_, ?_, ?_⟩
  · rw [hearliest, hfloor]
    exact hcold
  · rw [hfloor, htail]
    exact h.floor_le_tail
  · rw [htail]
    exact h.tail_eq
  · intro seq
    rw [hentry, hfloor]
    exact h.hot seq
  · intro b v hv
    obtain ⟨hold, habove⟩ := hleft b v hv
    obtain ⟨rec, hd, h1, h2, -⟩ := h.segment b v hold
    rw [hfloor, hearliest]
    exact ⟨rec, hd, h1, h2, habove rec hd⟩
  · intro x hlo hhi
    rw [hearliest] at hlo
    rw [hfloor] at hhi
    obtain ⟨b, ⟨rec, hseg, h1, h2⟩, huniq⟩ := h.tiling x (by omega) hhi
    refine ⟨b, ⟨rec, ?_, h1, h2⟩, ?_⟩
    · rw [stream_segment_of_get (hkeep b fun rec' hs => ?_)]
      · exact hseg
      · rw [hseg] at hs
        cases hs
        exact UInt64.lt_iff_toNat_lt.mpr (by omega)
    · rintro b' ⟨rec', hseg', h1', h2'⟩
      obtain ⟨v, hv, hd⟩ := bind_eq_some_iff.mp hseg'
      have hold := (hleft b' v hv).1
      refine huniq b' ⟨rec', ?_, h1', h2'⟩
      rw [stream_segment_of_get hold, bind_some, hd]

end Own

/-! ## Runs -/

def append_answer (P : String) (e : LogEntry) (r : CommandResult) : Option (Bytes × UInt64) :=
  match e.command.stream_op, r with
  | some (stream, .Append data), .Value bytes =>
    if stream = P then (u64_from_be_bytes bytes).map fun seq => (data, seq) else none
  | _, _ => none

def append_answers (P : String) (entries : List LogEntry) (results : List CommandResult) :
    List (Bytes × UInt64) :=
  (entries.zip results).filterMap fun p => append_answer P p.1 p.2

/-- What the history of the streams asks of one step: stream commands use well-formed prefixes, a
sealed segment's origin fits its length field, and no trim reaches into another stream. -/
def StreamStepOk (m : FullStateMachine) (e : LogEntry) : Prop :=
  ∀ stream op, e.command.stream_op = some (stream, op) → ∃ P : WalPrefix, stream = P.key ∧
    (∀ base end_ content_id origin size, op = .Seal base end_ content_id origin size →
      (as_bytes origin).length < 2 ^ 32) ∧
    ∀ Q : WalPrefix, Q ≠ P → TakesEffect m e.index e.command → ∀ row,
      ¬ op.Drops m.store.stream_entries P.key Q.key row

structure StreamsInv (m : FullStateMachine) (payloads : WalPrefix → List Bytes) : Prop where
  history : ∀ P : WalPrefix, StreamHistory m.store.stream_entries P.key (payloads P)
  /-- Each append consumed an index of its own, so a tail never reaches `2^64`. -/
  bounded : ∀ P : WalPrefix, (payloads P).length ≤ m.last_applied.toNat
  /-- Every row of the table is a row of some stream. -/
  canonical : ∀ k v, m.store.stream_entries.get k = some v → ∃ (Q : WalPrefix) (r : StreamRow),
    k = row_key Q.key r

theorem StreamsInv.fresh : StreamsInv .fresh (fun _ => []) := by
  refine ⟨fun P => StreamHistory.empty P.key, fun P => Nat.zero_le _, ?_⟩
  intro k v hv
  exact absurd (hv.symm.trans (get_empty k)) (some_ne_none v)

theorem apply_last_applied_lt {index : UInt64} {c : Command} (hc : c.is_lock_command = false)
    (hidx : m.last_applied < index) (h : apply codec m index c = .ok (r, m')) :
    m.last_applied.toNat < m'.last_applied.toNat := by
  rcases apply_cases hc h with ⟨hle, -, -⟩ | ⟨hlt, store, -, rfl⟩
  · exact absurd hidx (UInt64.not_lt.mpr hle)
  · exact UInt64.lt_iff_toNat_lt.mp hlt

theorem StreamOp.exec_new_row {k : String} {v : Bytes} (h : (op.exec t P).2.get k = some v) :
    (∃ r, k = row_key P r) ∨ t.get k = some v := by
  cases op with
  | Append data =>
    rw [StreamOp.exec, append_stream_entry] at h
    simp only [get_insert] at h
    split_ifs at h with h1 h2
    · exact .inl ⟨.tail, h1⟩
    · exact .inl ⟨.entry _, h2⟩
    · exact .inr h
  | Seal base end_ content_id origin size =>
    by_cases hgate : seal_refused t P base end_
    · rw [StreamOp.exec, (seal_stream_segment_of_refused content_id origin size hgate).2] at h
      exact .inr h
    · unfold seal_refused at hgate
      simp only [StreamOp.exec, seal_stream_segment, if_neg hgate, get_insert,
        get_remove_all] at h
      split_ifs at h with h1 h2 h3
      · exact .inl ⟨.floor, h1⟩
      · exact .inl ⟨.segment base, h3⟩
      · exact .inr h
  | Trim up_to_seq =>
    by_cases hgate : trim_refused t P up_to_seq
    · rw [StreamOp.exec, (trim_stream_segment_of_refused hgate).2] at h
      exact .inr h
    · unfold trim_refused at hgate
      simp only [StreamOp.exec, trim_stream_segment, if_neg hgate, get_insert,
        get_remove_all] at h
      split_ifs at h with h1
      · exact .inl ⟨.earliest, h1⟩
      · exact .inr h

def StreamOp.payloads : StreamOp → List Bytes
  | .Append data => [data]
  | .Seal .. => []
  | .Trim _ => []

theorem StreamHistory.exec (hP : SlashFramed P)
    {payloads : List Bytes} (h : StreamHistory t P payloads) (horigin : ∀ base end_ content_id origin size, op = .Seal base end_ content_id origin size →
      (as_bytes origin).length < 2 ^ 32) (hroom : (stream_tail t P).toNat + 1 < 2 ^ 64) :
    StreamHistory (op.exec t P).2 P (payloads ++ op.payloads) := by
  cases op with
  | Append data => exact h.append hP data hroom
  | Seal base end_ content_id origin size =>
    rw [StreamOp.payloads, append_nil]
    by_cases hgate : seal_refused t P base end_
    · rw [StreamOp.exec, (seal_stream_segment_of_refused content_id origin size hgate).2]
      exact h
    · exact h.seal_segment hP content_id size (horigin _ _ _ _ _ rfl) hgate
  | Trim up_to_seq =>
    rw [StreamOp.payloads, append_nil]
    by_cases hgate : trim_refused t P up_to_seq
    · rw [StreamOp.exec, (trim_stream_segment_of_refused hgate).2]
      exact h
    · exact h.trim_segment hP hgate

theorem append_answer_exec (hc : e.command.stream_op = some (P, op)) :
    append_answer P e (op.exec t P).1 = op.payloads.head?.map fun data => (data, stream_tail t P) := by
  unfold append_answer
  rw [hc]
  cases op with
  | Append data =>
    dsimp only [StreamOp.exec, append_stream_entry]
    rw [if_pos rfl, u64_from_to_be_bytes]
    rfl
  | Seal base end_ content_id origin size => rfl
  | Trim up_to_seq => rfl

theorem append_answer_of_ne {Q : String} (r : CommandResult)
    (hc : e.command.stream_op = some (P, op)) (hne : Q ≠ P) : append_answer Q e r = none := by
  unfold append_answer
  rw [hc]
  split
  · next heq =>
      obtain ⟨rfl, -⟩ := Prod.mk.inj (some.inj heq)
      rw [if_neg (Ne.symm hne)]
  · rfl

theorem append_answer_of_no_value (hr : r.refused = true ∨ r = .Success) :
    append_answer P e r = none := by
  unfold append_answer
  split
  · rcases hr with hr | hr <;> cases hr
  · rfl

variable {payloads : WalPrefix → List Bytes}

theorem StreamsInv.idle (h : StreamsInv m payloads)
    (htab : m'.store.stream_entries = m.store.stream_entries)
    (hle : m.last_applied.toNat ≤ m'.last_applied.toNat)
    {answer : WalPrefix → Option (Bytes × UInt64)} (hanswer : ∀ P, answer P = none) :
    StreamsInv m' (fun P => payloads P ++ (answer P).toList.map Prod.fst) ∧
      ∀ P : WalPrefix, ∀ a ∈ answer P, a.2.toNat = (payloads P).length := by
  simp only [hanswer, toList_none, map_nil, append_nil]
  refine ⟨⟨?_, fun P => Nat.le_trans (h.bounded P) hle, ?_⟩, fun P a ha => by cases ha⟩
  · rw [htab]
    exact h.history
  · rw [htab]
    exact h.canonical

theorem StreamsInv.step (h : StreamsInv m payloads)
    (hok : StreamStepOk m e) (happly : apply codec m e.index e.command = .ok (r, m')) :
    StreamsInv m' (fun P => payloads P ++ (append_answer P.key e r).toList.map Prod.fst) ∧
      ∀ P : WalPrefix, ∀ a ∈ append_answer P.key e r, a.2.toNat = (payloads P).length := by
  have hmono : m.last_applied.toNat ≤ m'.last_applied.toNat := by
    rw [apply_mark happly]
    exact Nat.le_max_left _ _
  cases hop : e.command.stream_op with
  | none =>
    refine h.idle (apply_streams_frame happly hop) hmono fun P => ?_
    unfold append_answer
    rw [hop]
  | some p =>
    obtain ⟨stream, op⟩ := p
    obtain ⟨P, rfl, horigin, hnodrop⟩ := hok stream op hop
    rcases apply_stream_op hop happly with ⟨heff, rfl, htab⟩ | ⟨-, hr, htab⟩
    · have hlt : m.last_applied.toNat < m'.last_applied.toNat :=
        apply_last_applied_lt (Command.not_lock_of_stream_op hop) heff.1 happly
      have htail : (stream_tail m.store.stream_entries P.key).toNat = (payloads P).length :=
        (h.history P).tail_eq
      -- every append used up an index, so the tail cannot wrap before the index does
      have hroom : (stream_tail m.store.stream_entries P.key).toNat + 1 < 2 ^ 64 := by
        have hbound := h.bounded P
        have hword := m'.last_applied.toNat_lt
        omega
      have hown : append_answer P.key e (op.exec m.store.stream_entries P.key).1 =
          op.payloads.head?.map fun data => (data, stream_tail m.store.stream_entries P.key) :=
        append_answer_exec hop
      have hother {Q : WalPrefix} (hQ : Q ≠ P) (r : CommandResult) :
          append_answer Q.key e r = none :=
        append_answer_of_ne r hop fun heq => hQ (WalPrefix.key_inj heq)
      refine ⟨⟨fun Q => ?_, fun Q => ?_, ?_⟩, fun Q a ha => ?_⟩
      · by_cases hQ : Q = P
        · subst hQ
          rw [hown, htab]
          have hgrow := (h.history Q).exec Q.framed horigin hroom
          cases op <;> exact hgrow
        · -- another stream keeps its rows because the operation drops none of them
          rw [hother hQ, htab, toList_none, map_nil, append_nil]
          refine (h.history Q).congr fun row => ?_
          exact StreamOp.exec_row_of_not_drops P.framed Q.framed
            (fun heq => hQ (WalPrefix.key_inj heq)) (hnodrop Q hQ heff row)
      · have hbound := h.bounded Q
        have hlen : (append_answer Q.key e (op.exec m.store.stream_entries P.key).1).toList.length
            ≤ 1 := length_toList_le
        rw [length_append, length_map]
        omega
      · intro k v hv
        rw [htab] at hv
        rcases StreamOp.exec_new_row hv with ⟨row, hk⟩ | hold
        · exact ⟨P, row, hk⟩
        · exact h.canonical k v hold
      · by_cases hQ : Q = P
        · subst hQ
          rw [hown] at ha
          obtain ⟨data, -, rfl⟩ := map_eq_some_iff.mp ha
          exact htail
        · rw [hother hQ] at ha
          cases ha
    · exact h.idle htab hmono fun Q => append_answer_of_no_value hr

theorem append_answers_cons (P : String) (e : LogEntry) (entries : List LogEntry)
    (r : CommandResult) (results : List CommandResult) :
    append_answers P (e :: entries) (r :: results) =
      (append_answer P e r).toList ++ append_answers P entries results := by
  unfold append_answers
  rw [zip_cons_cons, filterMap_cons]
  cases append_answer P e r <;> rfl

theorem StreamsInv.run {entries : List LogEntry}
    {results : List CommandResult} (h : StreamsInv m payloads)
    (hok : along (apply_step codec) StreamStepOk m entries)
    (hrun : run (apply_step codec) m entries = some (results, m')) :
    StreamsInv m' (fun P => payloads P ++ (append_answers P.key entries results).map Prod.fst) ∧
      ∀ P : WalPrefix, (append_answers P.key entries results).map (fun a => a.2.toNat) =
        range' (payloads P).length (append_answers P.key entries results).length := by
  -- the payloads accepted so far grow along the run, so they are generalised with the state
  induction entries generalizing m payloads results with
  | nil =>
    cases hrun
    refine ⟨?_, fun P => rfl⟩
    simp only [append_answers, zip_nil_left, filterMap_nil, map_nil,
      append_nil]
    exact h
  | cons e entries ih =>
    obtain ⟨r, m₁, results', h1, h2, rfl⟩ := run_cons.mp hrun
    obtain ⟨hinv, hoffset⟩ := h.step hok.1 (apply_step_eq_some.mp h1)
    obtain ⟨hinv', hoffsets⟩ := ih hinv (hok.2 r m₁ h1) h2
    simp only [append_answers_cons]
    constructor
    · simp only [map_append, ← append_assoc]
      exact hinv'
    · intro P
      have hrest := hoffsets P
      have hfirst := hoffset P
      cases hans : append_answer P.key e r with
      | none =>
        simp only [hans, toList_none, map_nil, append_nil] at hrest
        exact hrest
      | some a =>
        rw [hans] at hrest hfirst
        simp only [toList_some, map_cons, map_nil, length_append,
          length_singleton] at hrest
        simp only [toList_some, singleton_append, map_cons, length_cons]
        rw [range'_succ, hrest, hfirst a rfl]

/-! ## What a reader of the stream can rely on -/

/-- The table holds stream `P` as `log` tells it, `log` being the appends that were answered with an
offset, in log order. -/
structure AnsweredHistory (t : Table String Bytes) (P : String) (log : List (Bytes × UInt64)) :
    Prop where
  earliest_le_floor : stream_earliest t P ≤ stream_floor t P
  floor_le_tail : stream_floor t P ≤ stream_tail t P
  tail_eq : (stream_tail t P).toNat = log.length
  /-- The rows directly below the prefix are the offsets `[floor, tail)` with their payloads. -/
  hot : ∀ rest v, '/' ∉ rest.toList → (t.get (P ++ rest) = some v ↔
    ∃ seq : UInt64, rest = seq.toNat.repr ∧ stream_floor t P ≤ seq ∧ seq < stream_tail t P ∧
      (v, seq) ∈ log)
  segment : ∀ base v, t.get (stream_segment_key P base) = some v →
    ∃ rec, decode_segment_record v = some rec ∧ base < rec.end_ ∧ rec.end_ ≤ stream_floor t P
  tiling : ∀ x, (stream_earliest t P).toNat ≤ x → x < (stream_floor t P).toNat →
    ∃! base, InSegment t P x base
  offsets : log.map (fun a => a.2.toNat) = range log.length

theorem mem_of_offsets {log : List (Bytes × UInt64)}
    (h : log.map (fun a => a.2.toNat) = range log.length) (v : Bytes) (seq : UInt64) :
    (v, seq) ∈ log ↔ (log.map Prod.fst)[seq.toNat]? = some v := by
  have hpos (i : ℕ) (a : Bytes × UInt64) (ha : log[i]? = some a) : a.2.toNat = i := by
    have hi := congrArg (fun l => l[i]?) h
    simp only [getElem?_map, ha, map_some] at hi
    obtain ⟨hlt, -⟩ := List.getElem?_eq_some_iff.mp ha
    rw [getElem?_range hlt] at hi
    exact some.inj hi
  rw [getElem?_map, map_eq_some_iff]
  constructor
  · intro hmem
    obtain ⟨i, hi⟩ := mem_iff_getElem?.mp hmem
    refine ⟨(v, seq), ?_, rfl⟩
    rw [hpos i (v, seq) hi]
    exact hi
  · rintro ⟨⟨v', seq'⟩, ha, rfl⟩
    have heq : seq' = seq := UInt64.toNat_inj.mp (hpos _ _ ha)
    rw [← heq]
    exact mem_of_getElem? ha

theorem row_key_directly_below {Q : String} (hP : SlashFramed P) (hQ : SlashFramed Q)
    {r : StreamRow} {rest : String} (hrest : '/' ∉ rest.toList) (h : row_key Q r = P ++ rest) :
    Q = P ∧ ∃ seq, r = .entry seq ∧ rest = seq.toNat.repr := by
  obtain ⟨p, hp⟩ := hP.starts
  obtain ⟨q, hq⟩ := hQ.starts
  rw [row_key_eq] at h
  have hl := congrArg String.toList h
  simp only [String.toList_append, hp, hq, cons_append] at hl
  have htag : r.tag.toList = [] :=
    (first_delimiter_inj r.slash_notMem_tag not_mem_nil hl).1
  cases r with
  | entry seq =>
    obtain ⟨hQP, hsuf⟩ := append_slashless_inj hQ.ends hP.ends
      (StreamRow.slash_notMem_suffix _) hrest h
    exact ⟨hQP, seq, rfl, hsuf.symm⟩
  | segment base | tail | floor | earliest =>
    exact absurd htag (by simp only [StreamRow.tag]; decide)

/-- **The history of a stream.** From an empty store, along every run whose stream commands use
well-formed prefixes and none of whose trims reaches into another stream's segments, every stream is
held as its answered appends tell. -/
theorem stream_history_of_run (codec : MetadataCodec) (entries : List LogEntry)
    (results : List CommandResult) (m : FullStateMachine)
    (hok : along (apply_step codec) StreamStepOk .fresh entries)
    (hrun : run (apply_step codec) .fresh entries = some (results, m)) (P : WalPrefix) :
    AnsweredHistory m.store.stream_entries P.key (append_answers P.key entries results) := by
  obtain ⟨hinv, hoffsets⟩ := StreamsInv.fresh.run hok hrun
  simp only [nil_append] at hinv
  have hist := hinv.history P
  have hoff := hoffsets P
  rw [length_nil, ← range_eq_range'] at hoff
  refine ⟨UInt64.le_iff_toNat_le.mpr hist.earliest_le_floor,
    UInt64.le_iff_toNat_le.mpr hist.floor_le_tail, ?_, ?_, ?_, hist.tiling, hoff⟩
  · rw [hist.tail_eq, length_map]
  · intro rest v hrest
    constructor
    · intro hv
      obtain ⟨Q, r, hk⟩ := hinv.canonical _ _ hv
      obtain ⟨-, seq, rfl, rfl⟩ := row_key_directly_below P.framed Q.framed hrest hk.symm
      have hhot := (hist.hot seq).symm.trans hv
      split_ifs at hhot with hfloor
      obtain ⟨hlt, -⟩ := List.getElem?_eq_some_iff.mp hhot
      refine ⟨seq, rfl, UInt64.le_iff_toNat_le.mpr hfloor, ?_, (mem_of_offsets hoff v seq).mpr hhot⟩
      rw [UInt64.lt_iff_toNat_lt, hist.tail_eq]
      exact hlt
    · rintro ⟨seq, rfl, hfloor, -, hmem⟩
      have hhot := hist.hot seq
      rw [if_pos (UInt64.le_iff_toNat_le.mp hfloor)] at hhot
      exact hhot.trans ((mem_of_offsets hoff v seq).mp hmem)
  · intro base v hv
    obtain ⟨rec, hdec, hbase, hend, -⟩ := hist.segment base v hv
    exact ⟨rec, hdec, UInt64.lt_iff_toNat_lt.mpr hbase, UInt64.le_iff_toNat_le.mpr hend⟩

theorem StreamStepOk.of_not_trim (P : WalPrefix)
    (op : StreamOp) (hc : e.command.stream_op = some (P.key, op))
    (horigin : ∀ base end_ content_id origin size, op = .Seal base end_ content_id origin size →
      (as_bytes origin).length < 2 ^ 32)
    (htrim : ∀ up_to_seq, op ≠ .Trim up_to_seq) : StreamStepOk m e := by
  intro stream op' hop
  rw [hc] at hop
  obtain ⟨rfl, rfl⟩ := Prod.mk.inj (some.inj hop)
  refine ⟨P, rfl, horigin, fun Q _ _ row hdrop => ?_⟩
  obtain ⟨up_to_seq, -, -, hop, -⟩ := hdrop
  exact htrim up_to_seq hop

/-- The two nested streams before the trim are such a run. -/
theorem stream_history_of_nested_streams :
    ∃ results m, run (apply_step .unreadable) .fresh nested_streams = some (results, m) ∧
      AnsweredHistory m.store.stream_entries (WalPrefix.key ⟨.stream, "/a/b"⟩)
        (append_answers (WalPrefix.key ⟨.stream, "/a/b"⟩) nested_streams results) := by
  refine exists_run (fun _ _ => True) (by decide +kernel) ?_
  intro results m hrun _
  refine stream_history_of_run .unreadable nested_streams results m ?_ hrun _
  have hshort : (as_bytes "node:1").length < 2 ^ 32 := by decide
  refine ⟨.of_not_trim ⟨.stream, "/a"⟩ (.Append [1]) rfl ?_ ?_, fun _ _ _ =>
    ⟨.of_not_trim ⟨.stream, "/a/b"⟩ (.Append [2]) rfl ?_ ?_, fun _ _ _ =>
    ⟨.of_not_trim ⟨.stream, "/a"⟩ (.Seal 0 1 "cid-a" "node:1" 1) rfl ?_ ?_, fun _ _ _ =>
    ⟨.of_not_trim ⟨.stream, "/a/b"⟩ (.Seal 0 1 "cid-b" "node:1" 1) rfl ?_ ?_,
      fun _ _ _ => trivial⟩⟩⟩⟩
  all_goals
    intros
    first
      | (intro hop; cases hop)
      | (rename_i hop; cases hop; try exact hshort)

/-- **The parent's trim opens a gap in the child.** After `nested_streams` and a trim of `/a` to
offset 1, offset 0 of `/a/b` is below its floor, not trimmed, and in no segment. -/
theorem trim_of_parent_breaks_nested_history :
    ∃ results m, run (apply_step .unreadable) .fresh
        (nested_streams ++ [⟨5, .TrimStreamSegment (WalPrefix.key ⟨.stream, "/a"⟩) 1 []⟩]) =
          some (results, m) ∧
      ¬ AnsweredHistory m.store.stream_entries (WalPrefix.key ⟨.stream, "/a/b"⟩)
        (append_answers (WalPrefix.key ⟨.stream, "/a/b"⟩)
          (nested_streams ++ [⟨5, .TrimStreamSegment (WalPrefix.key ⟨.stream, "/a"⟩) 1 []⟩])
          results) := by
  refine exists_run (fun _ m =>
    (stream_earliest m.store.stream_entries (WalPrefix.key ⟨.stream, "/a/b"⟩)).toNat = 0 ∧
    (stream_floor m.store.stream_entries (WalPrefix.key ⟨.stream, "/a/b"⟩)).toNat = 1 ∧
    stream_segment m.store.stream_entries (WalPrefix.key ⟨.stream, "/a/b"⟩) 0 = none)
    (by decide +kernel) ?_
  rintro results m - ⟨hearliest, hfloor, hnone⟩ hist
  obtain ⟨base, ⟨rec, hseg, hbase, -⟩, -⟩ := hist.tiling 0 (Nat.le_of_eq hearliest)
    (Nat.lt_of_lt_of_eq Nat.zero_lt_one hfloor.symm)
  -- only a segment based at 0 could hold offset 0
  have hzero : base = 0 := UInt64.toNat_inj.mp (Nat.le_zero.mp hbase)
  rw [hzero, hnone] at hseg
  cases hseg

end NexusVfs
