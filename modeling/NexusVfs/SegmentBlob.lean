/-
The blob of a sealed stream segment: `encode_segment` and `extract_frame` of
`kernel/src/core/stream/wal.rs`.

A blob is a header (magic, base, number of frames), a table of frame lengths and the
frames. The end of a frame is a checked addition, but `base + count` and the running
offset are not.
-/
import Mathlib.Algebra.Order.BigOperators.Group.List
import Mathlib.Algebra.Order.Ring.Nat
import NexusVfs.ByteRing
import NexusVfs.Words

namespace NexusVfs.SegmentBlob

open List Words ByteRing

/-! ## The code -/

/-- `b"NXS1"` -/
def SEGMENT_MAGIC : Bytes := [78, 88, 83, 49]

/-- `none`: a `Vec` of more than `isize::MAX` bytes cannot be made. -/
def encode_segment (base : UInt64) (frames : List Bytes) : Option Bytes :=
  if 16 + frames.length * 4 + (frames.map length).sum < 2 ^ 63 then
    some (SEGMENT_MAGIC ++ (u64_to_be_bytes base ++ (be 4 frames.length ++
      ((frames.map fun f => be 4 f.length).flatten ++ frames.flatten))))
  else none

def word (blob : Bytes) (start len : ℕ) : ℕ := ofBe ((blob.drop start).take len)

def blob_base (blob : Bytes) : ℕ := word blob 4 8

def blob_count (blob : Bytes) : ℕ := word blob 12 4

/-- Where the frame lies that is `n` entries behind entry `i`, and its length. `none`: an entry is
read outside the blob, or the offset passes `usize::MAX`. -/
def locate (blob : Bytes) : ℕ → ℕ → ℕ → Option (ℕ × ℕ)
  | n, i, offset => do
    let l ← (read_slice blob (16 + i * 4) 4).map ofBe
    match n with
    | 0 => some (offset, l)
    | n + 1 => if offset + l < 2 ^ 64 then locate blob n (i + 1) (offset + l) else none

/-- The frame at `seq`, of a blob with the right header. `none` is a panic: the sum `base + count` is
taken in every case, by the range check or, when `seq` lies before the base, by the message. -/
def frame_at (blob : Bytes) (base seq : UInt64) (count : ℕ) : Option (Except String Bytes) :=
  let end_ := base.toNat + count
  if 2 ^ 64 ≤ end_ then none
  else if seq < base ∨ end_ ≤ seq.toNat then
    some (.error s!"seq {seq} out of segment range [{base}, {end_})")
  else if blob.length < 16 + count * 4 then some (.error "segment blob: truncated length table")
  else
    match locate blob (seq.toNat - base.toNat) 0 (16 + count * 4) with
    | none => none
    | some (offset, this_len) =>
      if 2 ^ 64 ≤ offset + this_len then some (.error "segment blob: length overflow")
      else if blob.length < offset + this_len then some (.error "segment blob: truncated payload")
      else (read_slice blob offset this_len).map .ok

def extract_frame (blob : Bytes) (base seq : UInt64) : Option (Except String Bytes) :=
  if blob.length < 16 ∨ blob.take 4 ≠ SEGMENT_MAGIC then
    some (.error "segment blob: bad magic / too short")
  else if blob_base blob ≠ base.toNat then
    let found := blob_base blob
    some (.error s!"segment blob base {found} != index base {base} (wrong blob)")
  else frame_at blob base seq (blob_count blob)

/-! ## Reading the table -/

theorem take_drop_flatten {l : List Bytes} {j : ℕ} (hj : j < l.length) (rest : Bytes) :
    ((l.flatten ++ rest).drop ((l.take j).map length).sum).take l[j].length = l[j] := by
  induction l generalizing j with
  | nil => cases hj
  | cons x l ih =>
    cases j with
    | zero => simp
    | succ j =>
      rw [flatten_cons, append_assoc, take_succ_cons, map_cons, sum_cons,
        ← drop_drop, drop_left]
      exact ih (Nat.lt_of_succ_lt_succ hj)

variable {blob : Bytes} {base seq : UInt64} {frames : List Bytes}

def lens (blob : Bytes) : List ℕ := (range (blob_count blob)).map fun i => word blob (16 + i * 4) 4

theorem locate_eq {l : List ℕ} {n i offset : ℕ}
    (hls : ∀ j n, l[j]? = some n → (read_slice blob (16 + (i + j) * 4) 4).map ofBe = some n)
    (hn : n < l.length) (hoffset : offset < 2 ^ 64) :
    locate blob n i offset = if offset + (l.take n).sum < 2 ^ 64 then
      some (offset + (l.take n).sum, l[n]) else none := by
  induction n generalizing l i offset with
  | zero =>
    have hfirst := hls 0 l[0] (getElem?_eq_getElem hn)
    rw [Nat.add_zero] at hfirst
    rw [locate, hfirst, take_zero]
    exact (if_pos hoffset).symm
  | succ n ih =>
    cases l with
    | nil => cases hn
    | cons x l =>
      have hfirst := hls 0 x rfl
      rw [Nat.add_zero] at hfirst
      rw [locate, hfirst, take_succ_cons, sum_cons, ← Nat.add_assoc]
      simp only [Option.bind_eq_bind, Option.bind_some, getElem_cons_succ]
      split_ifs with hadd hall hall
      · rw [ih (fun j n' hn' => ?_) (Nat.lt_of_succ_lt_succ hn) hadd, if_pos hall]
        have hnext := hls (j + 1) n' hn'
        rwa [← Nat.add_assoc, Nat.add_right_comm] at hnext
      · rw [ih (fun j n' hn' => ?_) (Nat.lt_of_succ_lt_succ hn) hadd, if_neg hall]
        have hnext := hls (j + 1) n' hn'
        rwa [← Nat.add_assoc, Nat.add_right_comm] at hnext
      · exact absurd (Nat.lt_of_le_of_lt (Nat.le_add_right _ _) hall) hadd
      · rfl

theorem read_slice_eq {ring : Bytes} {s len : ℕ} (h : s + len ≤ ring.length) :
    read_slice ring s len = some ((ring.drop s).take len) := if_pos h

/-- The table as the reader sees it, in a blob that is long enough for it. -/
theorem locate_lens {n : ℕ} (htable : 16 + blob_count blob * 4 ≤ blob.length) (hn : n < blob_count blob)
    (hoffset : 16 + blob_count blob * 4 < 2 ^ 64) :
    locate blob n 0 (16 + blob_count blob * 4) =
      if 16 + blob_count blob * 4 + ((lens blob).take n).sum < 2 ^ 64 then
        some (16 + blob_count blob * 4 + ((lens blob).take n).sum, word blob (16 + n * 4) 4)
      else none := by
  have hlens : (lens blob).length = blob_count blob := by simp [lens]
  have hget : (lens blob)[n] = word blob (16 + n * 4) 4 := by simp [lens]
  rw [locate_eq (l := lens blob) (fun j l hl => ?_) (by omega) hoffset, hget]
  obtain ⟨hj, rfl⟩ := List.getElem?_eq_some_iff.mp hl
  rw [read_slice_eq (by omega)]
  simp [lens, word]

theorem blob_count_lt (blob : Bytes) : blob_count blob < 2 ^ 32 :=
  Nat.lt_of_lt_of_le (ofBe_lt _) (Nat.pow_le_pow_right (by decide) (length_take_le 4 _))

/-! ## Any blob -/

def Reads (blob : Bytes) (base seq : UInt64) : Prop :=
  ∃ r, extract_frame blob base seq = some r ∧ ∀ frame, r = .ok frame →
    ∃ offset len, 16 + blob_count blob * 4 ≤ offset ∧ read_slice blob offset len = some frame

/-- The sums that the reader does not check: the end of the segment that the header announces, and
the offset of the frame. -/
def Fits (blob : Bytes) (base seq : UInt64) : Prop :=
  16 ≤ blob.length → blob.take 4 = SEGMENT_MAGIC → blob_base blob = base.toNat →
    base.toNat + blob_count blob < 2 ^ 64 ∧
    (base ≤ seq → seq.toNat < base.toNat + blob_count blob → 16 + blob_count blob * 4 ≤ blob.length →
      16 + blob_count blob * 4 + ((lens blob).take (seq.toNat - base.toNat)).sum < 2 ^ 64)

theorem reads_iff : Reads blob base seq ↔ Fits blob base seq := by
  have hcount := blob_count_lt blob
  have hrefused {e : String} (heq : extract_frame blob base seq = some (.error e)) :
      Reads blob base seq := ⟨_, heq, fun _ h => by cases h⟩
  by_cases hhead : blob.length < 16 ∨ blob.take 4 ≠ SEGMENT_MAGIC
  · refine iff_of_true (hrefused (if_pos hhead)) fun hlen hmagic => ?_
    exact absurd hhead (by simp [hmagic, Nat.not_lt.mpr hlen])
  by_cases hbase : blob_base blob ≠ base.toNat
  · refine iff_of_true (hrefused ((if_neg hhead).trans (if_pos hbase))) fun _ _ h => absurd h hbase
  have heq : extract_frame blob base seq = frame_at blob base seq (blob_count blob) :=
    (if_neg hhead).trans (if_neg hbase)
  unfold frame_at at heq
  obtain ⟨hlen, hmagic⟩ := not_or.mp hhead
  have hfits : Fits blob base seq ↔ base.toNat + blob_count blob < 2 ^ 64 ∧
      (base ≤ seq → seq.toNat < base.toNat + blob_count blob → 16 + blob_count blob * 4 ≤ blob.length →
        16 + blob_count blob * 4 + ((lens blob).take (seq.toNat - base.toNat)).sum < 2 ^ 64) :=
    ⟨fun h => h (Nat.not_lt.mp hlen) (not_not.mp hmagic) (not_not.mp hbase), fun h _ _ _ => h⟩
  rw [hfits]
  by_cases hend : 2 ^ 64 ≤ base.toNat + blob_count blob
  · rw [if_pos hend] at heq
    refine iff_of_false ?_ fun h => absurd h.1 (Nat.not_lt.mpr hend)
    rintro ⟨r, hr, -⟩
    rw [heq] at hr
    cases hr
  rw [if_neg hend] at heq
  rw [and_iff_right (Nat.not_le.mp hend)]
  by_cases hrange : seq < base ∨ base.toNat + blob_count blob ≤ seq.toNat
  · rw [if_pos hrange] at heq
    refine iff_of_true (hrefused heq) fun hle hlt => ?_
    rcases hrange with hseq | hseq
    · exact absurd hle (UInt64.not_le.mpr hseq)
    · omega
  rw [if_neg hrange] at heq
  obtain ⟨hle, hlt⟩ := not_or.mp hrange
  have hle : base ≤ seq := UInt64.not_lt.mp hle
  have hnat := UInt64.le_iff_toNat_le.mp hle
  by_cases htable : blob.length < 16 + blob_count blob * 4
  · rw [if_pos htable] at heq
    exact iff_of_true (hrefused heq) fun _ _ h => absurd htable (Nat.not_lt.mpr h)
  rw [if_neg htable, locate_lens (Nat.not_lt.mp htable) (by omega) (by omega)] at heq
  by_cases hsum : 16 + blob_count blob * 4 + ((lens blob).take (seq.toNat - base.toNat)).sum < 2 ^ 64
  · refine iff_of_true ?_ fun _ _ _ => hsum
    rw [if_pos hsum] at heq
    dsimp only at heq
    split_ifs at heq with hover hshort
    · exact hrefused heq
    · exact hrefused heq
    · have hread := read_slice_eq (Nat.not_lt.mp hshort)
      rw [hread] at heq
      refine ⟨_, heq, fun frame hframe => ?_⟩
      cases hframe
      exact ⟨_, _, Nat.le_add_right _ _, hread⟩
  · refine iff_of_false ?_ fun h => hsum (h hle (Nat.not_le.mp hlt) (Nat.not_lt.mp htable))
    rintro ⟨r, hr, -⟩
    rw [heq, if_neg hsum] at hr
    cases hr

/-! ## The round trip -/

structure Encoded (base : UInt64) (frames : List Bytes) (blob : Bytes) : Prop where
  length : blob.length = 16 + frames.length * 4 + (frames.map length).sum
  small : blob.length < 2 ^ 63
  magic : blob.take 4 = SEGMENT_MAGIC
  base : blob_base blob = base.toNat
  count : blob_count blob = frames.length
  body : blob.drop 16 = (frames.map fun f => be 4 f.length).flatten ++ frames.flatten

theorem sum_table_lens (frames : List Bytes) :
    ((frames.map fun f => be 4 f.length).map length).sum = frames.length * 4 := by
  rw [map_map]
  have hfour : (length ∘ fun f : Bytes => be 4 f.length) = fun _ => 4 :=
    funext fun f => length_be 4 f.length
  rw [hfour, map_const', sum_replicate_nat]

theorem encoded_of_encode (h : encode_segment base frames = some blob)
    (hcount : frames.length < 2 ^ 32) : Encoded base frames blob := by
  unfold encode_segment at h
  split_ifs at h with hsize
  have hmagic : SEGMENT_MAGIC.length = 4 := rfl
  have hlength : blob.length = 16 + frames.length * 4 + (frames.map length).sum := by
    rw [← Option.some.inj h]
    simp only [length_append, length_flatten, sum_table_lens, length_u64_to_be_bytes,
      length_be, hmagic]
    omega
  have hb := base.toNat_lt
  have hbase := length_u64_to_be_bytes base
  have hcounted := length_be 4 frames.length
  refine ⟨hlength, by omega, ?_, ?_, ?_, ?_⟩ <;> rw [← Option.some.inj h]
  · exact take_left' hmagic
  · rw [blob_base, word, drop_left' hmagic, take_left' hbase]
    exact ofBe_be (by omega)
  · rw [blob_count, word, ← drop_drop (i := 8) (j := 4), drop_left' hmagic, drop_left' hbase,
      take_left' hcounted]
    exact ofBe_be (by omega)
  · rw [← drop_drop (i := 12) (j := 4), ← drop_drop (i := 4) (j := 8), drop_left' hmagic,
      drop_left' hbase, drop_left' hcounted]

theorem Encoded.lens_eq (h : Encoded base frames blob) (hlens : ∀ f ∈ frames, f.length < 2 ^ 32) :
    lens blob = frames.map List.length := by
  refine ext_getElem (by simp [lens, h.count]) fun j hj hj' => ?_
  rw [length_map] at hj'
  have hentry := take_drop_flatten (l := frames.map fun f => be 4 f.length) (by simpa using hj')
    frames.flatten
  rw [← map_take, sum_table_lens, length_take, Nat.min_eq_left (Nat.le_of_lt hj'),
    getElem_map, length_be, ← h.body, drop_drop] at hentry
  have hword : word blob (16 + j * 4) 4 = frames[j].length := by
    rw [word, hentry]
    exact ofBe_be (hlens _ (getElem_mem hj'))
  simpa [lens] using hword

theorem Encoded.extract (h : Encoded base frames blob) (hlens : ∀ f ∈ frames, f.length < 2 ^ 32)
    (hend : base.toNat + frames.length < 2 ^ 64) {i : ℕ} (hi : i < frames.length)
    (hseq : seq.toNat = base.toNat + i) : extract_frame blob base seq = some (.ok frames[i]) := by
  have hcount := h.count
  have hlength := h.length
  have hsmall := h.small
  have hframe := take_drop_flatten hi []
  have hsum : ((frames.take i).map List.length).sum + frames[i].length ≤ (frames.map List.length).sum := by
    have hsucc := sum_take_succ (frames.map List.length) i (by simpa using hi)
    rw [getElem_map] at hsucc
    rw [map_take, ← hsucc]
    exact List.Sublist.sum_le_sum (take_sublist _ _) fun _ _ => Nat.zero_le _
  have hheader : extract_frame blob base seq = frame_at blob base seq (blob_count blob) := by
    rw [extract_frame, if_neg (by rw [h.magic, hlength]; simp; omega), if_neg (not_not.mpr h.base)]
  have hbefore : ¬ (seq < base ∨ base.toNat + frames.length ≤ seq.toNat) := by
    rw [UInt64.lt_iff_toNat_lt]
    omega
  have hidx : seq.toNat - base.toNat = i := by omega
  have hlen : word blob (16 + i * 4) 4 = frames[i].length := by
    have hget : (lens blob)[i]? = some frames[i].length := by simp [h.lens_eq hlens, hi]
    simpa [lens, hcount, hi] using hget
  rw [hheader, frame_at]
  rw [if_neg (by omega), if_neg (by rwa [hcount]), if_neg (by omega), hidx,
    locate_lens (by omega) (by omega) (by omega), h.lens_eq hlens, ← map_take, if_pos (by omega), hlen,
    hcount]
  dsimp only
  have htable : ((frames.map fun f => be 4 f.length).flatten).length = frames.length * 4 := by
    rw [length_flatten, sum_table_lens]
  rw [if_neg (by omega), if_neg (by omega), read_slice_eq (by omega), ← drop_drop, ← drop_drop,
    h.body, drop_left' htable, ← append_nil frames.flatten, hframe]
  rfl

theorem Encoded.refuse (h : Encoded base frames blob) (hend : base.toNat + frames.length < 2 ^ 64)
    {base' : UInt64} (hother : base' ≠ base ∨ seq < base ∨ base.toNat + frames.length ≤ seq.toNat) :
    ∃ e, extract_frame blob base' seq = some (.error e) := by
  have hlength := h.length
  have hhead : ¬ (blob.length < 16 ∨ blob.take 4 ≠ SEGMENT_MAGIC) := by
    rw [h.magic]
    simp
    omega
  rw [extract_frame, if_neg hhead, h.base]
  by_cases hbase : base' = base
  · rw [if_neg (by simp [hbase]), frame_at, hbase, h.count]
    rw [if_neg (by omega), if_pos (hother.resolve_left (not_not.mpr hbase))]
    exact ⟨_, rfl⟩
  · rw [if_pos fun heq => hbase (UInt64.toNat_inj.mp heq.symm)]
    exact ⟨_, rfl⟩

/-- **The segment codec.** What was encoded is read back at its own offsets and refused at all others.
Of an arbitrary blob the reader answers with a part of the payload area or an error, if and only if
the sums that it does not check fit in 64 bits. -/
theorem segment_codec_iff (base : UInt64) (frames : List Bytes) (blob : Bytes) (asked seq : UInt64) :
    (∀ encoded, frames.length < 2 ^ 32 → (∀ f ∈ frames, f.length < 2 ^ 32) →
      base.toNat + frames.length < 2 ^ 64 → encode_segment base frames = some encoded →
      (∀ i frame, frames[i]? = some frame →
        extract_frame encoded base (base + UInt64.ofNat i) = some (.ok frame)) ∧
      ∀ base' seq, base' ≠ base ∨ seq < base ∨ base.toNat + frames.length ≤ seq.toNat →
        ∃ e, extract_frame encoded base' seq = some (.error e)) ∧
    (Reads blob asked seq ↔ Fits blob asked seq) := by
  refine ⟨fun encoded hcount hlens hend h => ?_, reads_iff⟩
  have hencoded := encoded_of_encode h hcount
  refine ⟨fun i frame hframe => ?_, fun base' seq hother => hencoded.refuse hend hother⟩
  obtain ⟨hi, rfl⟩ := List.getElem?_eq_some_iff.mp hframe
  refine hencoded.extract hlens hend hi ?_
  rw [UInt64.toNat_add, UInt64.toNat_ofNat', Nat.mod_eq_of_lt (a := i) (by omega)]
  exact Nat.mod_eq_of_lt (by omega)

/-- A header with the base `2^64 - 1` and one frame: the range check overflows. -/
theorem range_check_overflows :
    extract_frame (SEGMENT_MAGIC ++ be 8 (2 ^ 64 - 1) ++ be 4 1 ++ be 4 0) 0xFFFFFFFFFFFFFFFF 0 = none := by
  decide +kernel

end NexusVfs.SegmentBlob
