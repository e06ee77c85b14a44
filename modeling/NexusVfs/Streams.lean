/-
WAL streams: the rows of one stream in the shared table, and the three commands that
change them.

A stream with prefix `P` owns its hot entries `P<seq>`, three cursors (tail, floor,
earliest) and one record per sealed segment. For prefixes that begin and end in `/`, a
key determines the stream and the row (`row_key_inj`). A range scan selects by string
prefix, and there the keys of `/a/b/` lie inside the range of `/a/`
(`startsWith_segment_key`).
-/
import NexusVfs.Command

namespace NexusVfs

open List Words Text Table

/-! ## Keys -/

def stream_tail_key (stream : String) : String := "__stream_tail__" ++ stream

def stream_floor_key (stream : String) : String := "__stream_floor__" ++ stream

def stream_earliest_key (stream : String) : String := "__stream_earliest__" ++ stream

def stream_segment_key_prefix (stream : String) : String := "__stream_seg__" ++ stream

/-- `{prefix}{base:020}`: zero-padded, so key order is the order of the bases. -/
def stream_segment_key (stream : String) (base : UInt64) : String :=
  stream_segment_key_prefix stream ++ padded20 base.toNat

/-- `format!("{stream_prefix}{seq}")`. -/
def stream_entry_key (stream : String) (seq : UInt64) : String :=
  stream ++ seq.toNat.repr

/-! ## Segment records -/

structure SegmentRecord where
  end_ : UInt64
  size : UInt64
  origin : String
  content_id : String
  deriving DecidableEq, Repr

/-- `[end u64][size u64][origin_len u32][origin bytes][content_id bytes]`, big-endian. The origin's
length is cast to `u32`. -/
def encode_segment_record (end_ size : UInt64) (origin content_id : String) : Bytes :=
  u64_to_be_bytes end_ ++ u64_to_be_bytes size ++ be 4 (as_bytes origin).length ++ as_bytes origin ++
    as_bytes content_id

def decode_segment_record (bytes : Bytes) : Option SegmentRecord :=
  if bytes.length < 20 then none
  else
    match u64_from_be_bytes (bytes.take 8), u64_from_be_bytes ((bytes.drop 8).take 8) with
    | some end_, some size =>
      let origin_end := 20 + ofBe ((bytes.drop 16).take 4)
      if bytes.length < origin_end then none
      else
        match from_utf8 ((bytes.take origin_end).drop 20), from_utf8 (bytes.drop origin_end) with
        | some origin, some content_id => some ⟨end_, size, origin, content_id⟩
        | _, _ => none
    | _, _ => none

/-- A record is read back as it was written, if its origin's length fits the `u32` field. -/
theorem decode_encode_segment_record (end_ size : UInt64) {origin : String} (content_id : String)
    (h : (as_bytes origin).length < 2 ^ 32) :
    decode_segment_record (encode_segment_record end_ size origin content_id) =
      some ⟨end_, size, origin, content_id⟩ := by
  have hn : ofBe (be 4 (as_bytes origin).length) = (as_bytes origin).length := ofBe_be (by omega)
  generalize hbytes : encode_segment_record end_ size origin content_id = bytes
  simp only [encode_segment_record, append_assoc] at hbytes
  have hlen : bytes.length = 20 + (as_bytes origin).length + (as_bytes content_id).length := by
    rw [← hbytes]
    simp only [length_append, length_u64_to_be_bytes, length_be]
    omega
  have hend : bytes.take 8 = u64_to_be_bytes end_ := by
    rw [← hbytes, take_left' (length_u64_to_be_bytes end_)]
  have h8 : bytes.drop 8 = u64_to_be_bytes size ++ (be 4 (as_bytes origin).length ++
      (as_bytes origin ++ as_bytes content_id)) := by
    rw [← hbytes, drop_left' (length_u64_to_be_bytes end_)]
  have h16 : bytes.drop 16 = be 4 (as_bytes origin).length ++
      (as_bytes origin ++ as_bytes content_id) := by
    rw [show 16 = 8 + 8 from rfl, ← drop_drop, h8,
      drop_left' (length_u64_to_be_bytes size)]
  have h20 : bytes.drop 20 = as_bytes origin ++ as_bytes content_id := by
    rw [show 20 = 16 + 4 from rfl, ← drop_drop, h16, drop_left' (length_be 4 _)]
  have horigin : (bytes.take (20 + (as_bytes origin).length)).drop 20 = as_bytes origin := by
    rw [drop_take, h20, Nat.add_sub_cancel_left, take_left]
  have hcid : bytes.drop (20 + (as_bytes origin).length) = as_bytes content_id := by
    rw [← drop_drop, h20, drop_left]
  unfold decode_segment_record
  rw [if_neg (by omega), hend, h8, take_left' (length_u64_to_be_bytes size), h16,
    take_left' (length_be 4 _), hn]
  simp only [u64_from_to_be_bytes, horigin, hcid, from_utf8_as_bytes]
  rw [if_neg (by omega)]

/-! ## Cursors -/

/-- `get(key).and_then(<[u8; 8]>::try_from).map(u64::from_be_bytes).unwrap_or(0)` -/
def read_u64 (t : Table String Bytes) (key : String) : UInt64 :=
  ((t.get key).bind u64_from_be_bytes).getD 0

def stream_tail (t : Table String Bytes) (stream : String) : UInt64 :=
  read_u64 t (stream_tail_key stream)

def stream_floor (t : Table String Bytes) (stream : String) : UInt64 :=
  read_u64 t (stream_floor_key stream)

def stream_earliest (t : Table String Bytes) (stream : String) : UInt64 :=
  read_u64 t (stream_earliest_key stream)

def stream_segment (t : Table String Bytes) (stream : String) (base : UInt64) :
    Option SegmentRecord :=
  (t.get (stream_segment_key stream base)).bind decode_segment_record

/-! ## The three stream arms of `execute_metadata_in_txn` -/

def append_stream_entry (t : Table String Bytes) (stream : String) (data : Bytes) :
    CommandResult × Table String Bytes :=
  let seq := stream_tail t stream
  (.Value (u64_to_be_bytes seq),
    (t.insert (stream_entry_key stream seq) data).insert (stream_tail_key stream)
      (u64_to_be_bytes (seq + 1)))

def sealed_keys (stream : String) (base end_ : UInt64) : List String :=
  (range' base.toNat (end_.toNat - base.toNat)).map fun seq => stream ++ seq.repr

def seal_stream_segment (t : Table String Bytes) (stream : String) (base end_ : UInt64)
    (content_id origin : String) (size : UInt64) : CommandResult × Table String Bytes :=
  let floor := stream_floor t stream
  let tail := stream_tail t stream
  if base ≠ floor ∨ end_ ≤ base ∨ tail < end_ then
    (.Error s!"stale/invalid seal {stream} [{base},{end_}) (floor={floor}, tail={tail})", t)
  else
    let t := t.insert (stream_segment_key stream base)
      (encode_segment_record end_ size origin content_id)
    let t := t.remove_all (sealed_keys stream base end_)
    (.Success, t.insert (stream_floor_key stream) (u64_to_be_bytes end_))

/-- The segment keys a trim drops. The range `seg_prefix..=seg_prefix + [0xff]` holds exactly the
keys that start with `seg_prefix`, since no UTF-8 byte is `0xff`. -/
def trimmed_keys (t : Table String Bytes) (stream : String) (up_to_seq : UInt64) :
    List String :=
  ((t.scan fun k => k.startsWith ( stream_segment_key_prefix stream)).filter fun row =>
    match decode_segment_record row.2 with
    | some rec => rec.end_ ≤ up_to_seq
    | none => false).map Prod.fst

def trim_stream_segment (t : Table String Bytes) (stream : String) (up_to_seq : UInt64) :
    CommandResult × Table String Bytes :=
  let earliest := stream_earliest t stream
  let floor := stream_floor t stream
  if up_to_seq ≤ earliest ∨ floor < up_to_seq then
    (.Error s!"stale/invalid trim {stream} up_to={up_to_seq} (earliest={earliest}, floor={floor})",
      t)
  else
    (.Success, (t.remove_all (trimmed_keys t stream up_to_seq)).insert
      (stream_earliest_key stream) (u64_to_be_bytes up_to_seq))

/-- What a seal must not be: off the floor, empty, or past the tail. -/
def seal_refused (t : Table String Bytes) (stream : String) (base end_ : UInt64) : Prop :=
  base ≠ stream_floor t stream ∨ end_ ≤ base ∨ stream_tail t stream < end_

/-- What a trim must not be: no advance, or past the floor. -/
def trim_refused (t : Table String Bytes) (stream : String) (up_to_seq : UInt64) : Prop :=
  up_to_seq ≤ stream_earliest t stream ∨ stream_floor t stream < up_to_seq

instance (t : Table String Bytes) (P : String) (base end_ : UInt64) :
    Decidable (seal_refused t P base end_) :=
  inferInstanceAs (Decidable (_ ∨ _ ∨ _))

instance (t : Table String Bytes) (P : String) (up_to_seq : UInt64) :
    Decidable (trim_refused t P up_to_seq) :=
  inferInstanceAs (Decidable (_ ∨ _))

variable {t : Table String Bytes} {P Q : String} {base : UInt64}

variable {end_ up_to_seq : UInt64} {key : String}

theorem seal_stream_segment_of_refused (content_id origin : String) (size : UInt64)
    (h : seal_refused t P base end_) :
    (∃ message, (seal_stream_segment t P base end_ content_id origin size).1 = .Error message) ∧
      (seal_stream_segment t P base end_ content_id origin size).2 = t := by
  unfold seal_refused at h
  simp only [seal_stream_segment, if_pos h, and_true]
  exact ⟨_, rfl⟩

theorem trim_stream_segment_of_refused (h : trim_refused t P up_to_seq) :
    (∃ message, (trim_stream_segment t P up_to_seq).1 = .Error message) ∧
      (trim_stream_segment t P up_to_seq).2 = t := by
  unfold trim_refused at h
  simp only [trim_stream_segment, if_pos h, and_true]
  exact ⟨_, rfl⟩

/-! ## Stream operations -/

inductive StreamOp where
  | Append (data : Bytes)
  | Seal (base end_ : UInt64) (content_id origin : String) (size : UInt64)
  | Trim (up_to_seq : UInt64)
  deriving DecidableEq

def StreamOp.exec (t : Table String Bytes) (stream : String) :
    StreamOp → CommandResult × Table String Bytes
  | .Append data => append_stream_entry t stream data
  | .Seal base end_ content_id origin size =>
    seal_stream_segment t stream base end_ content_id origin size
  | .Trim up_to_seq => trim_stream_segment t stream up_to_seq

/-- The stream a command addresses and what it does there, plain or guarded. -/
def Command.stream_op : Command → Option (String × StreamOp)
  | .AppendStreamEntry stream data | .GuardedRecord _ (.Append stream data) =>
    some (stream, .Append data)
  | .SealStreamSegment stream base end_ content_id origin size
  | .GuardedRecord _ (.Seal stream base end_ content_id origin size) =>
    some (stream, .Seal base end_ content_id origin size)
  | .TrimStreamSegment stream up_to_seq _ | .GuardedRecord _ (.Trim stream up_to_seq _) =>
    some (stream, .Trim up_to_seq)
  | _ => none

theorem Command.not_lock_of_stream_op {c : Command} {stream : String} {op : StreamOp}
    (h : c.stream_op = some (stream, op)) : c.is_lock_command = false := by
  cases c with
  | AcquireLock | ReleaseLock | ForceReleaseLock | ExtendLock => cases h
  | _ => rfl

/-! ## Whose row a key is -/

inductive StreamRow where
  | entry (seq : UInt64)
  | tail
  | floor
  | earliest
  | segment (base : UInt64)
  deriving DecidableEq, Repr

def row_key (stream : String) : StreamRow → String
  | .entry seq => stream_entry_key stream seq
  | .tail => stream_tail_key stream
  | .floor => stream_floor_key stream
  | .earliest => stream_earliest_key stream
  | .segment base => stream_segment_key stream base

namespace StreamRow

/-- What stands before the stream prefix in a row's key. -/
def tag : StreamRow → String
  | entry _ => ""
  | tail => "__stream_tail__"
  | floor => "__stream_floor__"
  | earliest => "__stream_earliest__"
  | segment _ => "__stream_seg__"

def suffix : StreamRow → String
  | entry seq => seq.toNat.repr
  | segment base => padded20 base.toNat
  | _ => ""

theorem slash_notMem_tag (r : StreamRow) : '/' ∉ r.tag.toList := by
  cases r <;> (simp only [tag]; decide)

theorem slash_notMem_suffix (r : StreamRow) : '/' ∉ r.suffix.toList := by
  cases r with
  | entry seq => exact slash_notMem_repr _
  | segment base => exact slash_notMem_padded20 _
  | tail => decide
  | floor => decide
  | earliest => decide

theorem eq_of_tag_of_suffix {r r' : StreamRow} (ht : r.tag = r'.tag) (hs : r.suffix = r'.suffix) :
    r = r' := by
  cases r <;> cases r' <;> first
    | rfl
    | exact absurd ht (by simp only [tag]; decide)
    | exact congrArg entry (UInt64.toNat_inj.mp (repr_inj hs))
    | exact congrArg segment (UInt64.toNat_inj.mp (padded20_inj hs))

end StreamRow

theorem row_key_eq (P : String) (r : StreamRow) : row_key P r = r.tag ++ (P ++ r.suffix) := by
  cases r with
  | entry seq => exact String.empty_append.symm
  | segment base => exact String.append_assoc
  | tail => exact congrArg ("__stream_tail__" ++ ·) String.append_empty.symm
  | floor => exact congrArg ("__stream_floor__" ++ ·) String.append_empty.symm
  | earliest => exact congrArg ("__stream_earliest__" ++ ·) String.append_empty.symm

/-- A prefix that begins and ends in `/`, as every stream prefix the kernel builds does. -/
structure SlashFramed (P : String) : Prop where
  starts : ∃ rest, P.toList = '/' :: rest
  ends : ends_with P '/' = true

variable {r r' : StreamRow}

/-- **Exact keys keep streams apart.** The tag ends at the first `/` and the stream prefix at the
last, so both ends of a key are determined. -/
theorem row_key_inj (hP : SlashFramed P) (hQ : SlashFramed Q)
    (h : row_key P r = row_key Q r') : P = Q ∧ r = r' := by
  obtain ⟨p, hp⟩ := hP.starts
  obtain ⟨q, hq⟩ := hQ.starts
  rw [row_key_eq, row_key_eq] at h
  have hl := congrArg String.toList h
  simp only [String.toList_append, hp, hq, cons_append] at hl
  have htag : r.tag = r'.tag :=
    String.toList_inj.mp (first_delimiter_inj r.slash_notMem_tag r'.slash_notMem_tag hl).1
  rw [htag] at h
  obtain ⟨hPQ, hsuf⟩ := append_slashless_inj hP.ends hQ.ends r.slash_notMem_suffix
    r'.slash_notMem_suffix ((String.append_right_inj _).mp h)
  exact ⟨hPQ, StreamRow.eq_of_tag_of_suffix htag hsuf⟩

theorem row_key_eq_iff (hP : SlashFramed P) (hQ : SlashFramed Q) :
    row_key P r = row_key Q r' ↔ P = Q ∧ r = r' := by
  refine ⟨row_key_inj hP hQ, ?_⟩
  rintro ⟨rfl, rfl⟩
  rfl

theorem startsWith_append_slashless {s : String} (hP : ends_with P '/' = true) (hs : '/' ∉ s.toList) :
    (Q ++ s).startsWith P = true ↔ Q.startsWith P = true := by
  constructor
  · intro h
    rw [String.startsWith_string_iff, String.toList_append] at h
    rw [String.startsWith_string_iff]
    by_cases hlen : P.toList.length ≤ Q.toList.length
    · exact prefix_of_prefix_length_le h (prefix_append _ _) hlen
    · -- `Q` ends first, so the last `/` of `P` would lie among the digits.
      obtain ⟨u, hu⟩ := prefix_of_prefix_length_le (prefix_append Q.toList s.toList) h
        (by omega)
      have hne : u ≠ [] := by
        rintro rfl
        rw [append_nil] at hu
        exact hlen (Nat.le_of_eq (by rw [hu]))
      obtain ⟨xs, hxs⟩ := ends_with_iff.mp hP
      have hlast : u.getLast? = some '/' := by
        have := congrArg getLast? (hu.trans hxs)
        rwa [getLast?_append_of_ne_nil _ hne, getLast?_concat] at this
      rw [← hu, prefix_append_right_inj] at h
      exact absurd (h.subset (mem_of_getLast? hlast)) hs
  · intro h
    obtain ⟨t, rfl⟩ := startsWith_iff_exists.mp h
    rw [String.append_assoc]
    exact startsWith_append _ _

/-- **Which rows lie in the range of a trim.** The scan of `P` meets the segment records of every
stream whose prefix extends `P`, and nothing else. -/
theorem startsWith_segment_key (hP : SlashFramed P) (hQ : SlashFramed Q) (r : StreamRow) :
    (row_key Q r).startsWith ( stream_segment_key_prefix P) = true ↔
      (∃ base, r = .segment base) ∧ Q.startsWith P = true := by
  obtain ⟨p, hp⟩ := hP.starts
  obtain ⟨q, hq⟩ := hQ.starts
  constructor
  · intro h
    obtain ⟨t, ht⟩ := startsWith_iff_exists.mp h
    rw [row_key_eq, stream_segment_key_prefix, String.append_assoc] at ht
    have hl := congrArg String.toList ht
    simp only [String.toList_append, hp, hq, cons_append] at hl
    have htag : r.tag = "__stream_seg__" :=
      String.toList_inj.mp (first_delimiter_inj r.slash_notMem_tag (by decide) hl).1
    have hseg : ∃ base, r = .segment base := by
      cases r with
      | segment base => exact ⟨base, rfl⟩
      | entry seq => exact absurd htag (by simp only [StreamRow.tag]; decide)
      | tail | floor | earliest => exact absurd htag (by decide)
    rw [htag, String.append_right_inj] at ht
    have hQP : (Q ++ r.suffix).startsWith P = true := by
      rw [ht]
      exact startsWith_append _ _
    exact ⟨hseg, (startsWith_append_slashless hP.ends r.slash_notMem_suffix).mp hQP⟩
  · rintro ⟨⟨base, rfl⟩, h⟩
    obtain ⟨t, rfl⟩ := startsWith_iff_exists.mp h
    have hkey : row_key (P ++ t) (.segment base) =
        stream_segment_key_prefix P ++ (t ++ padded20 base.toNat) := by
      rw [row_key_eq, StreamRow.tag, StreamRow.suffix, stream_segment_key_prefix]
      simp only [String.append_assoc]
    rw [hkey]
    exact startsWith_append _ _

/-! ## What each arm does to each row

One lemma per arm: the value of any row of any stream afterwards. -/

theorem mem_trimmed_keys_iff {stream : String} :
    key ∈ trimmed_keys t stream up_to_seq ↔
      key.startsWith ( stream_segment_key_prefix stream) = true ∧
        ∃ rec, (t.get key).bind decode_segment_record = some rec ∧ rec.end_ ≤ up_to_seq := by
  unfold trimmed_keys
  rw [mem_map]
  constructor
  · rintro ⟨⟨k, v⟩, hrow, rfl⟩
    obtain ⟨hscan, hdec⟩ := mem_filter.mp hrow
    obtain ⟨hpre, hget⟩ := mem_scan.mp hscan
    refine ⟨hpre, ?_⟩
    cases hrec : decode_segment_record v with
    | none => simp [hrec] at hdec
    | some rec => exact ⟨rec, by simp [hget, hrec], by simpa [hrec] using hdec⟩
  · rintro ⟨hpre, rec, hget, hend⟩
    obtain ⟨v, hv, hrec⟩ := Option.bind_eq_some_iff.mp hget
    refine ⟨(key, v), mem_filter.mpr ⟨mem_scan.mpr ⟨hpre, hv⟩, ?_⟩, rfl⟩
    simpa [hrec] using hend

section Effects

variable (t : Table String Bytes) {P Q : String} (hP : SlashFramed P) (hQ : SlashFramed Q)
include hP hQ

theorem append_stream_entry_row (data : Bytes) (r : StreamRow) :
    (append_stream_entry t P data).2.get (row_key Q r) =
      if Q = P ∧ r = .tail then some (u64_to_be_bytes (stream_tail t P + 1))
      else if Q = P ∧ r = .entry (stream_tail t P) then some data else t.get (row_key Q r) := by
  have htail : stream_tail_key P = row_key P .tail := rfl
  have hentry : stream_entry_key P (stream_tail t P) = row_key P (.entry (stream_tail t P)) := rfl
  simp only [append_stream_entry, get_insert, htail, hentry, row_key_eq_iff hQ hP]

theorem mem_sealed_keys (base end_ : UInt64) (r : StreamRow) :
    row_key Q r ∈ sealed_keys P base end_ ↔
      Q = P ∧ ∃ seq, r = .entry seq ∧ base ≤ seq ∧ seq < end_ := by
  unfold sealed_keys
  rw [mem_map]
  constructor
  · rintro ⟨n, hn, hkey⟩
    rw [mem_range'_1] at hn
    have hlt : n < 2 ^ 64 := by have := end_.toNat_lt; omega
    have hof : (UInt64.ofNat n).toNat = n := UInt64.toNat_ofNat_of_lt' hlt
    have hrow : row_key P (.entry (UInt64.ofNat n)) = row_key Q r := by
      rw [← hkey, row_key, stream_entry_key, hof]
    obtain ⟨rfl, rfl⟩ := row_key_inj hP hQ hrow
    refine ⟨rfl, _, rfl, ?_, ?_⟩
    · rw [UInt64.le_iff_toNat_le, hof]
      exact hn.1
    · rw [UInt64.lt_iff_toNat_lt, hof]
      omega
  · rintro ⟨rfl, seq, rfl, hlo, hhi⟩
    rw [UInt64.le_iff_toNat_le] at hlo
    rw [UInt64.lt_iff_toNat_lt] at hhi
    exact ⟨seq.toNat, mem_range'_1.mpr ⟨hlo, by omega⟩, rfl⟩

theorem seal_stream_segment_row {base end_ : UInt64} (content_id origin : String) (size : UInt64)
    (hgate : ¬ seal_refused t P base end_) (r : StreamRow) :
    (seal_stream_segment t P base end_ content_id origin size).2.get (row_key Q r) =
      if Q = P ∧ r = .floor then some (u64_to_be_bytes end_)
      else if row_key Q r ∈ sealed_keys P base end_ then none
      else if Q = P ∧ r = .segment base then some (encode_segment_record end_ size origin content_id)
      else t.get (row_key Q r) := by
  have hfloor : stream_floor_key P = row_key P .floor := rfl
  have hseg : stream_segment_key P base = row_key P (.segment base) := rfl
  unfold seal_refused at hgate
  simp only [seal_stream_segment, if_neg hgate, get_insert, get_remove_all, hfloor, hseg,
    row_key_eq_iff hQ hP]

theorem mem_trimmed_keys (up_to_seq : UInt64) (r : StreamRow) :
    row_key Q r ∈ trimmed_keys t P up_to_seq ↔
      Q.startsWith P = true ∧ ∃ base rec, r = .segment base ∧
        stream_segment t Q base = some rec ∧ rec.end_ ≤ up_to_seq := by
  rw [mem_trimmed_keys_iff, startsWith_segment_key hP hQ]
  constructor
  · rintro ⟨⟨⟨base, rfl⟩, hQP⟩, rec, hseg, hend⟩
    exact ⟨hQP, base, rec, rfl, hseg, hend⟩
  · rintro ⟨hQP, base, rec, rfl, hseg, hend⟩
    exact ⟨⟨⟨base, rfl⟩, hQP⟩, rec, hseg, hend⟩

theorem trim_stream_segment_row {up_to_seq : UInt64}
    (hgate : ¬ trim_refused t P up_to_seq) (r : StreamRow) :
    (trim_stream_segment t P up_to_seq).2.get (row_key Q r) =
      if Q = P ∧ r = .earliest then some (u64_to_be_bytes up_to_seq)
      else if row_key Q r ∈ trimmed_keys t P up_to_seq then none else t.get (row_key Q r) := by
  have hearliest : stream_earliest_key P = row_key P .earliest := rfl
  unfold trim_refused at hgate
  simp only [trim_stream_segment, if_neg hgate, get_insert, get_remove_all, hearliest,
    row_key_eq_iff hQ hP]

end Effects

/-! ### A stream's own rows after its own operation -/

theorem stream_segment_of_get {o : Option Bytes} (h : t.get (row_key P (.segment base)) = o) :
    stream_segment t P base = o.bind decode_segment_record := by
  rw [← h]
  rfl

theorem read_u64_congr {t' : Table String Bytes} (h : t'.get key = t.get key) :
    read_u64 t' key = read_u64 t key := by
  rw [read_u64, read_u64, h]

theorem read_u64_of_get {n : UInt64} (h : t.get key = some (u64_to_be_bytes n)) :
    read_u64 t key = n := by
  rw [read_u64, h, Option.bind_some, u64_from_to_be_bytes, Option.getD_some]

section Own

variable (t : Table String Bytes) {P : String} (hP : SlashFramed P)
include hP

theorem append_own (data : Bytes) :
    stream_tail (append_stream_entry t P data).2 P = stream_tail t P + 1 ∧
    stream_floor (append_stream_entry t P data).2 P = stream_floor t P ∧
    stream_earliest (append_stream_entry t P data).2 P = stream_earliest t P ∧
    (∀ seq, (append_stream_entry t P data).2.get (row_key P (.entry seq)) =
      if seq = stream_tail t P then some data else t.get (row_key P (.entry seq))) ∧
    ∀ base, (append_stream_entry t P data).2.get (row_key P (.segment base)) =
      t.get (row_key P (.segment base)) := by
  have hrow := append_stream_entry_row t hP hP data
  refine ⟨?_, ?_, ?_, ?_, ?_⟩
  · exact read_u64_of_get ((hrow .tail).trans (if_pos ⟨rfl, rfl⟩))
  · exact read_u64_congr ((hrow .floor).trans (by rw [if_neg (by simp), if_neg (by simp)]; rfl))
  · exact read_u64_congr ((hrow .earliest).trans (by rw [if_neg (by simp), if_neg (by simp)]; rfl))
  · intro seq
    rw [hrow, if_neg (by simp)]
    simp only [true_and, StreamRow.entry.injEq]
  · intro base
    rw [hrow, if_neg (by simp), if_neg (by simp)]

theorem seal_own {base end_ : UInt64} (content_id origin : String) (size : UInt64)
    (hgate : ¬ seal_refused t P base end_) :
    let t' := (seal_stream_segment t P base end_ content_id origin size).2
    stream_tail t' P = stream_tail t P ∧ stream_floor t' P = end_ ∧
    stream_earliest t' P = stream_earliest t P ∧ (∀ seq, t'.get (row_key P (.entry seq)) =
      if base ≤ seq ∧ seq < end_ then none else t.get (row_key P (.entry seq))) ∧
    ∀ b, t'.get (row_key P (.segment b)) =
      if b = base then some (encode_segment_record end_ size origin content_id)
      else t.get (row_key P (.segment b)) := by
  intro t'
  have hrow (r : StreamRow) : t'.get (row_key P r) = _ :=
    seal_stream_segment_row t hP hP content_id origin size hgate r
  have hmem := mem_sealed_keys hP hP base end_
  refine ⟨?_, ?_, ?_, ?_, ?_⟩
  · refine read_u64_congr ((hrow .tail).trans ?_)
    rw [if_neg (by simp), if_neg (by simp [hmem]), if_neg (by simp)]
    rfl
  · exact read_u64_of_get ((hrow .floor).trans (if_pos ⟨rfl, rfl⟩))
  · refine read_u64_congr ((hrow .earliest).trans ?_)
    rw [if_neg (by simp), if_neg (by simp [hmem]), if_neg (by simp)]
    rfl
  · intro seq
    rw [hrow, if_neg (by simp), if_neg (c := _ ∧ StreamRow.entry seq = .segment base) (by simp)]
    simp only [hmem, true_and, StreamRow.entry.injEq, exists_eq_left']
  · intro b
    rw [hrow, if_neg (by simp), if_neg (by simp [hmem])]
    simp only [true_and, StreamRow.segment.injEq]

theorem trim_own {up_to_seq : UInt64} (hgate : ¬ trim_refused t P up_to_seq) :
    let t' := (trim_stream_segment t P up_to_seq).2
    stream_tail t' P = stream_tail t P ∧ stream_floor t' P = stream_floor t P ∧
    stream_earliest t' P = up_to_seq ∧
    (∀ seq, t'.get (row_key P (.entry seq)) = t.get (row_key P (.entry seq))) ∧
    (∀ b rec, stream_segment t P b = some rec → rec.end_ ≤ up_to_seq →
      t'.get (row_key P (.segment b)) = none) ∧
    ∀ b, (∀ rec, stream_segment t P b = some rec → up_to_seq < rec.end_) →
      t'.get (row_key P (.segment b)) = t.get (row_key P (.segment b)) := by
  intro t'
  have hrow (r : StreamRow) : t'.get (row_key P r) = _ :=
    trim_stream_segment_row t hP hP hgate r
  have hself : P.startsWith P = true := String.startsWith_string_iff.mpr prefix_rfl
  have hmem := mem_trimmed_keys t hP hP up_to_seq
  refine ⟨?_, ?_, ?_, ?_, ?_, ?_⟩
  · refine read_u64_congr ((hrow .tail).trans ?_)
    rw [if_neg (by simp), if_neg (by simp [hmem])]
    rfl
  · refine read_u64_congr ((hrow .floor).trans ?_)
    rw [if_neg (by simp), if_neg (by simp [hmem])]
    rfl
  · exact read_u64_of_get ((hrow .earliest).trans (if_pos ⟨rfl, rfl⟩))
  · intro seq
    rw [hrow, if_neg (by simp), if_neg (by simp [hmem])]
  · intro b rec hseg hend
    rw [hrow, if_neg (by simp), if_pos ((hmem _).mpr ⟨hself, b, rec, rfl, hseg, hend⟩)]
  · intro b hkeep
    rw [hrow, if_neg (by simp), if_neg]
    intro hin
    obtain ⟨-, base, rec, hb, hseg, hend⟩ := (hmem _).mp hin
    cases hb
    exact UInt64.not_le.mpr (hkeep rec hseg) hend

end Own

end NexusVfs
