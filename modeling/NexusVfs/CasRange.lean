/-
Reading a range of a chunked content: `read_chunked_range` of `core/cas/engine.rs`.

The range is cut out of the chunks that overlap it, counted from where the first of them
begins. That count is a difference of two `i64` that wraps, as in a release build.
-/
import Mathlib.Algebra.Ring.Int.Defs
import NexusVfs.CasRoundTrip

namespace NexusVfs.Cas

open List Actions Actions.Action Json Words

namespace Engine

variable (e : Engine)

/-- `x as i64` -/
def as_i64 (x : ℕ) : ℤ := if x < 2 ^ 63 then x else x - 2 ^ 64

/-- `(x as i64 - first_offset as i64).max(0) as usize` -/
def from_first (x first_offset : ℕ) : ℕ :=
  let difference := as_i64 x - as_i64 first_offset
  if difference < -2 ^ 63 then (difference + 2 ^ 64).toNat
  else if 2 ^ 63 ≤ difference then (difference - 2 ^ 64).toNat
  else difference.toNat

def cut_out (assembled : Bytes) (first_offset start stop : ℕ) : Except CASError Bytes :=
  let clamped_end := min (from_first stop first_offset) assembled.length
  let clamped_start := min (from_first start first_offset) clamped_end
  if clamped_start ≤ clamped_end ∧ clamped_end ≤ assembled.length then
    .ok ((assembled.take clamped_end).drop clamped_start)
  else .error .Panicked

def read_chunked_range_with_origins (content_id : String) (start stop : ℕ)
    (fetch : String → Option Bytes) : CasM Bytes :=
  if stop ≤ start then pure []
  else do
    let manifest_data ← e.read_blob content_id
    let manifest ← of_except (e.parse_json manifest_data)
    match (manifest.get "chunks").bind Value.as_array with
    | none => fail (.IOError .InvalidData "manifest missing chunks")
    | some chunks =>
      let hits := chunks.filter fun chunk =>
        decide (chunk_offset chunk < stop) && decide (start < chunk_end chunk)
      let overlapping ← of_except (hits.mapM fun chunk =>
        (chunk_hash chunk).map fun hash => (chunk_offset chunk, hash))
      match overlapping.mergeSort fun a b => a.1 ≤ b.1 with
      | [] => pure []
      | first :: rest =>
        let assembled ← e.read_affected fetch ((first :: rest).map Prod.snd)
        of_except (cut_out assembled first.1 start stop)

def read_chunked_range (content_id : String) (start stop : ℕ) : CasM Bytes :=
  e.read_chunked_range_with_origins content_id start stop fun _ => none

end Engine

open Engine

def slice (b : Bytes) (start stop : ℕ) : Bytes := (b.take stop).drop start

/-- Where the chunk that holds a position begins; the first one begins at `offset`. -/
def chunk_at (position : ℕ) : ℕ → List Bytes → Option ℕ
  | _, [] => none
  | offset, piece :: pieces =>
    if position < offset + piece.length then some offset
    else chunk_at position (offset + piece.length) pieces

/-- The range is empty, or its end lies less than `2^63` behind the chunk that holds its start. -/
def near (pieces : List Bytes) (start stop : ℕ) : Bool :=
  decide (stop ≤ start) || (chunk_at start 0 pieces).all fun first => decide (stop < 2 ^ 63 + first)

/-- The content of these pieces is stored under `id`, with all of its chunks. -/
structure Chunked (e : Engine) (s : Store) (id : String) (manifest : Bytes) (pieces : List Bytes) :
    Prop where
  id_eq : id = e.hash_content manifest
  blob : Present e s manifest
  text : ∃ count total hash, Regular (chunk_entries e 0 (with_offsets 0 pieces)) count total ∧
    manifest = to_vec (manifest_value (chunk_entries e 0 (with_offsets 0 pieces)) count total hash)
  chunks : ∀ piece ∈ pieces, Present e s piece
  size : pieces.flatten.length < MAX_VEC

theorem chunked_of_saved {e : Engine} {s : Store} {content : Bytes} {pieces : List Bytes}
    {id : String} (hinv : StoreInv e s) (hdistinct : Distinct e s.written)
    (h : SavedPieces e content pieces id s) (hflatten : pieces.flatten = content)
    (hne : ∀ piece ∈ pieces, piece ≠ []) (hlen : content.length < MAX_VEC) :
    Chunked e s id (manifest_bytes e content pieces) pieces := by
  obtain ⟨hid, hpieces, hmanifest, -⟩ := h
  refine ⟨hid, present_of_stored hinv hdistinct hmanifest, ?_, ?_, hflatten.symm ▸ hlen⟩
  · exact ⟨_, _, _, regular_chunk_entries hflatten hne hlen, rfl⟩
  · exact fun piece hpiece => present_of_stored hinv hdistinct (hpieces piece hpiece)

/-! ## Which chunks overlap -/

variable {start stop offset : ℕ} {pieces : List Bytes}

def overlaps (start stop : ℕ) (part : ℕ × Bytes) : Bool :=
  decide (part.1 < stop) && decide (start < part.1 + part.2.length)

theorem take_overlapping (stop : ℕ) (pieces : List Bytes) (h : start ≤ offset) :
    (((with_offsets offset pieces).filter (overlaps start stop)).map Prod.snd).flatten.take
      (stop - offset) = pieces.flatten.take (stop - offset) := by
  induction pieces generalizing offset with
  | nil => rfl
  | cons piece pieces ih =>
    have hrest := @ih (offset + piece.length) (by omega)
    by_cases hlt : offset < stop
    · rw [with_offsets, flatten_cons, take_append, ← Nat.sub_add_eq, ← hrest,
        Nat.sub_add_eq, ← take_append]
      congr 1
      by_cases hhit : overlaps start stop (offset, piece) = true
      · rw [filter_cons_of_pos hhit]
        rfl
      · -- only an empty piece is left out
        have hlen : piece.length = 0 := by
          simp only [overlaps, Bool.and_eq_true, decide_eq_true_eq] at hhit
          omega
        rw [filter_cons_of_neg hhit, length_eq_zero_iff.mp hlen]
        rfl
    · rw [Nat.sub_eq_zero_of_le (Nat.not_lt.mp hlt), take_zero, take_zero]

theorem overlapping_cases (hle : offset ≤ start) (hlt : start < stop) :
    (chunk_at start offset pieces = none ∧ offset + pieces.flatten.length ≤ start ∧
      (with_offsets offset pieces).filter (overlaps start stop) = []) ∨
    ∃ first piece rest, chunk_at start offset pieces = some first ∧ first ≤ start ∧
      start < offset + pieces.flatten.length ∧
      (with_offsets offset pieces).filter (overlaps start stop) = (first, piece) :: rest ∧
      slice pieces.flatten (start - offset) (stop - offset) =
        slice (piece ++ (rest.map Prod.snd).flatten) (start - first) (stop - first) := by
  induction pieces generalizing offset with
  | nil => exact .inl ⟨rfl, hle, rfl⟩
  | cons piece pieces ih =>
    rw [chunk_at, with_offsets, flatten_cons, length_append]
    by_cases hin : start < offset + piece.length
    · have hrest := take_overlapping stop pieces (Nat.le_of_lt hin)
      rw [if_pos hin, filter_cons_of_pos (by simp [overlaps]; omega)]
      refine .inr ⟨offset, piece, _, rfl, hle, by omega, rfl, ?_⟩
      rw [slice, slice, take_append, take_append, ← Nat.sub_add_eq, hrest]
    · rw [if_neg hin, filter_cons_of_neg (by simp [overlaps]; omega)]
      rcases @ih (offset + piece.length) (by omega) with ⟨hnone, hend, hnil⟩ |
        ⟨first, piece', rest, hfirst, hle', hend, heq, hslice⟩
      · exact .inl ⟨hnone, by omega, hnil⟩
      · refine .inr ⟨first, piece', rest, hfirst, hle', by omega, heq, ?_⟩
        rw [← hslice, slice, slice, take_append, drop_append,
          take_of_length_le (by omega), drop_eq_nil_of_le (by omega), nil_append,
          Nat.sub_add_eq, Nat.sub_add_eq]

theorem from_first_eq {x first : ℕ} (hfirst : first < 2 ^ 63) (hx : x < 2 ^ 64) :
    from_first x first = if x < 2 ^ 63 + first then x - first else 0 := by
  simp only [from_first, as_i64]
  split_ifs <;> omega

/-! ## What is read -/

variable {e : Engine} {s : Store} {id : String} {manifest : Bytes}

theorem read_affected_of_present (fetch : String → Option Bytes)
    (h : ∀ piece ∈ pieces, Present e s piece) :
    e.read_affected fetch (pieces.map e.hash_content) s = (.ok pieces.flatten, s) := by
  induction pieces with
  | nil => rfl
  | cons piece pieces ih =>
    have hrest := ih fun p hp => h p (mem_cons_of_mem piece hp)
    rw [map_cons, read_affected,
      bind_of_ok ((h piece mem_cons_self).read_and_verify_chunk fetch),
      bind_of_ok hrest]
    rfl

def located (e : Engine) (part : ℕ × Bytes) : ℕ × String := (part.1, e.hash_content part.2)

theorem overlapping_entries (hend : offset + pieces.flatten.length < 2 ^ 63) :
    ((chunk_entries e 0 (with_offsets offset pieces)).filter fun chunk =>
      decide (chunk_offset chunk < stop) && decide (start < chunk_end chunk)).mapM
      (fun chunk => (chunk_hash chunk).map fun hash => (chunk_offset chunk, hash)) =
    .ok (((with_offsets offset pieces).filter (overlaps start stop)).map (located e)) := by
  induction pieces generalizing offset with
  | nil => rfl
  | cons piece pieces ih =>
    rw [flatten_cons, length_append] at hend
    have hrest := @ih (offset + piece.length) (by omega)
    have hmod : (0 + offset) % 2 ^ 64 = offset := by omega
    have hsum : saturating_add offset piece.length = offset + piece.length :=
      Nat.min_eq_left (by omega)
    have htest : (decide (chunk_offset (entry (e.hash_content piece) offset piece.length) < stop) &&
        decide (start < chunk_end (entry (e.hash_content piece) offset piece.length))) =
        overlaps start stop (offset, piece) := by
      rw [overlaps, ← hsum]
      rfl
    rw [with_offsets, chunk_entries, map_cons, hmod, filter_cons, filter_cons, htest]
    split_ifs
    · rw [mapM_cons, ← chunk_entries, hrest]
      rfl
    · exact hrest

theorem cut_out_eq (assembled : Bytes) (first : ℕ) : cut_out assembled first start stop =
    .ok (slice assembled (from_first start first) (from_first stop first)) := by
  rw [cut_out, if_pos ⟨Nat.min_le_right _ _, Nat.min_le_right _ _⟩, slice,
    ← take_eq_take_min, ← length_take, ← drop_eq_drop_min]

theorem slice_eq_nil_iff {b : Bytes} : slice b start stop = [] ↔ min stop b.length ≤ start := by
  rw [slice, drop_eq_nil_iff, length_take]

/-- A range that is not near has bytes, and is read as none. -/
theorem read_chunked_range_cases (he : Lawful e) (h : Chunked e s id manifest pieces)
    (hstop : stop < 2 ^ 64) :
    (near pieces start stop = true ∧
      e.read_chunked_range id start stop s = (.ok (slice pieces.flatten start stop), s)) ∨
    (near pieces start stop = false ∧ start < min stop pieces.flatten.length ∧
      e.read_chunked_range id start stop s = (.ok [], s)) := by
  obtain ⟨rfl, hblob, ⟨count, total, hash, hregular, hmanifest⟩, hpieces, hsize⟩ := h
  rw [MAX_VEC] at hsize
  have hparse : e.parse_json manifest =
      .ok (manifest_value (chunk_entries e 0 (with_offsets 0 pieces)) count total hash) := by
    rw [parse_json, hmanifest, he.read_manifest _ _ _ _ hregular]
  rw [read_chunked_range, read_chunked_range_with_origins, near]
  by_cases hle : stop ≤ start
  · rw [if_pos hle, slice_eq_nil_iff.mpr (by omega), decide_eq_true hle]
    exact .inl ⟨rfl, rfl⟩
  · have hok {α : Type} (a : α) : (of_except (.ok a) : CasM α) s = (.ok a, s) := rfl
    have hget (entries : List Value) : ((manifest_value entries count total hash).get
        "chunks").bind Value.as_array = some entries := rfl
    have hpairwise : (((with_offsets 0 pieces).filter (overlaps start stop)).map (located e)).Pairwise
        fun a b => decide (a.1 ≤ b.1) = true :=
      pairwise_map.mpr ((pairwise_with_offsets 0 pieces).1.filter _)
    rw [if_neg hle, bind_of_ok hblob.read_blob, hparse, bind_of_ok (hok _)]
    simp only [hget]
    rw [overlapping_entries (by omega), bind_of_ok (hok _),
      mergeSort_of_pairwise hpairwise, decide_eq_false hle, Bool.false_or]
    rcases overlapping_cases (Nat.zero_le start) (Nat.not_le.mp hle) with ⟨hnone, hend, hnil⟩ |
      ⟨first, piece, rest, hfirst, hstart, hend, heq, hslice⟩
    · rw [hnil, hnone, slice_eq_nil_iff.mpr (by omega)]
      exact .inl ⟨rfl, rfl⟩
    · have hmem (p : Bytes) (hp : p ∈ piece :: rest.map Prod.snd) : Present e s p := by
        refine hpieces p ?_
        rw [← map_snd_with_offsets 0 pieces]
        rw [← map_cons (f := Prod.snd) (a := (first, piece)), ← heq] at hp
        exact (filter_sublist.map _).subset hp
      have hhashes : (located e (first, piece) :: rest.map (located e)).map Prod.snd =
          (piece :: rest.map Prod.snd).map e.hash_content := by
        simp [located]
      rw [heq, hfirst, map_cons]
      simp only [hhashes]
      rw [bind_of_ok (read_affected_of_present _ hmem), cut_out_eq, hok, located,
        from_first_eq (by omega) hstop, from_first_eq (by omega) (by omega), if_pos (by omega)]
      by_cases hlt : stop < 2 ^ 63 + first
      · rw [if_pos hlt, flatten_cons, ← hslice]
        exact .inl ⟨decide_eq_true hlt, rfl⟩
      · rw [if_neg hlt, slice_eq_nil_iff.mpr (by omega)]
        exact .inr ⟨decide_eq_false hlt, by omega, rfl⟩

/-- What `read_content` answers: the manifest itself, if it reaches the limit. -/
theorem read_content_of_chunked (he : Lawful e) (h : Chunked e s id manifest pieces) :
    e.read_content id s =
      (.ok (if manifest.length < MANIFEST_LIMIT then pieces.flatten else manifest), s) := by
  obtain ⟨rfl, hblob, ⟨count, total, hash, hregular, hmanifest⟩, hpieces, hsize⟩ := h
  split_ifs with hlimit
  · exact read_content_of_manifest he hregular hpieces hsize hmanifest hblob hlimit
  · exact hblob.read_content (parse_chunk_manifest_of_le e (Nat.not_lt.mp hlimit))

/-- **Range reads.** The bytes of a content at the positions of a range are read exactly if its end
lies less than `2^63` behind the chunk that holds its start. Where the manifest reaches the limit,
they are compared with the manifest. -/
theorem range_read_iff (he : Lawful e) (h : Chunked e s id manifest pieces) (start stop : UInt64) :
    (∃ content, e.read_content id s = (.ok content, s) ∧
      e.read_chunked_range id start.toNat stop.toNat s =
        (.ok (slice content start.toNat stop.toNat), s)) ↔
    if manifest.length < MANIFEST_LIMIT then near pieces start.toNat stop.toNat = true
    else if near pieces start.toNat stop.toNat then
      slice manifest start.toNat stop.toNat = slice pieces.flatten start.toNat stop.toNat
    else manifest.length ≤ start.toNat := by
  rw [read_content_of_chunked he h]
  simp only [Prod.mk.injEq, Except.ok.injEq, and_true, exists_eq_left']
  rcases read_chunked_range_cases he h stop.toNat_lt with ⟨hnear, hread⟩ | ⟨hfar, hbytes, hread⟩
  · rw [hread, hnear, if_pos rfl]
    split_ifs
    · exact ⟨fun _ => rfl, fun _ => rfl⟩
    · rw [Prod.mk.injEq, Except.ok.injEq, eq_comm, and_iff_left rfl]
  · rw [hread, hfar, if_neg Bool.false_ne_true, Prod.mk.injEq, Except.ok.injEq, and_iff_left rfl,
      eq_comm, slice_eq_nil_iff]
    split_ifs
    · exact iff_of_false (by omega) not_false
    · omega

/-! ## A range up to the last position -/

def two_chunks_manifest : Bytes :=
  to_vec (manifest_value (chunk_entries block_engine 0 (with_offsets 0 [[1, 2], [3]])) 2 3 "")

theorem two_chunks_manifest_short : two_chunks_manifest.length < MANIFEST_LIMIT := by decide +kernel

def two_chunks : Store :=
  { Store.empty with
    blobs := (((∅ : Table String Bytes).insert (stamp_hash [1, 2]) [1, 2]).insert (stamp_hash [3])
      [3]).insert (stamp_hash two_chunks_manifest) two_chunks_manifest }

theorem chunked_two_chunks : Chunked block_engine two_chunks (stamp_hash two_chunks_manifest)
    two_chunks_manifest [[1, 2], [3]] where
  id_eq := rfl
  blob := Table.get_insert_self _ _ _
  text := ⟨2, 3, "", ⟨listed_chunk_entries 0 0 (by decide), by decide, by decide⟩, rfl⟩
  chunks := by
    unfold Present
    decide +kernel
  size := by decide

/-- A range in the middle. -/
theorem range_read_iff_two_chunks :
    ∃ content, block_engine.read_content (stamp_hash two_chunks_manifest) two_chunks =
        (.ok content, two_chunks) ∧
      block_engine.read_chunked_range (stamp_hash two_chunks_manifest) 1 3 two_chunks =
        (.ok (slice content 1 3), two_chunks) := by
  refine (range_read_iff lawful_block_engine chunked_two_chunks 1 3).mpr ?_
  rw [if_pos two_chunks_manifest_short]
  decide

/-- The whole content is asked for, up to the last `u64`, and nothing is read. -/
theorem range_to_the_end_reads_nothing :
    block_engine.read_content (stamp_hash two_chunks_manifest) two_chunks =
        (.ok [1, 2, 3], two_chunks) ∧
      block_engine.read_chunked_range (stamp_hash two_chunks_manifest) 0 (2 ^ 64 - 1) two_chunks =
        (.ok [], two_chunks) := by
  constructor
  · rw [read_content_of_chunked lawful_block_engine chunked_two_chunks, if_pos two_chunks_manifest_short]
    rfl
  · have hcases := @read_chunked_range_cases 0 (2 ^ 64 - 1) _ _ _ _ _ lawful_block_engine
      chunked_two_chunks (by decide)
    rcases hcases with ⟨hnear, -⟩ | ⟨-, -, hread⟩
    · exact absurd hnear (by decide)
    · exact hread

/-! ## Ranges of what was written -/

open Engine Runs

/-- **Ranges of what was written.** In every run of writes and partial writes, whatever the disk
refuses: every range of a content that was cut into chunks is read under the identifier its write
returned, then and after all further writes, if it ends below `2^63`. This does not depend on the
size of the manifest, so it holds of contents that are read back as their manifests too. -/
theorem written_ranges_read_back {e : Engine} (he : Lawful e) (faults : List (Option String))
    (content : Buffer) {before after : List Op} {s₁ s₂ s₃ : Store} {id : String}
    {rs₁ rs₂ : List (Except CASError String)}
    (hbefore : run (step e) (Store.fresh faults) before = some (rs₁, s₁))
    (hwrite : e.write_content content.1 s₁ = (.ok id, s₂))
    (hafter : run (step e) s₂ after = some (rs₂, s₃)) (hdistinct : Distinct e s₃.written)
    (hlarge : CDC_THRESHOLD_BYTES < content.1.length) (start stop : ℕ) (hstop : stop < 2 ^ 63) :
    e.read_chunked_range id start stop s₃ = (.ok (slice content.1 start stop), s₃) := by
  have hinv₁ := (run_keeps he (storeInv_fresh e faults) hbefore).1
  have hspec := triple_write_content he content.2 s₁ hinv₁ trivial
  rw [hwrite] at hspec
  obtain ⟨hinv₂, -, hsaved⟩ := hspec
  obtain ⟨hinv₃, hle⟩ := run_keeps he hinv₂ hafter
  have hsaved₃ := stable_saved e content.1 id s₂ s₃ hle (hsaved id rfl)
  have hparse : e.parse_chunk_manifest content.1 = none := by
    refine parse_chunk_manifest_of_le e (Nat.le_trans ?_ hlarge.le)
    decide
  rw [Saved, pieces_of, hparse, Option.isSome_none, if_neg Bool.false_ne_true, if_pos hlarge]
    at hsaved₃
  have hchunked := chunked_of_saved hinv₃ hdistinct hsaved₃ (he.flatten_cut content.1)
    (he.cut_ne_nil content.1) content.2
  rcases read_chunked_range_cases he hchunked (hstop.trans (by decide)) with
    ⟨-, hread⟩ | ⟨hfar, -⟩
  · rw [hread, he.flatten_cut]
  · -- an end below `2^63` is near to every chunk
    have hnear : near (e.cut content.1) start stop = true := by
      refine Bool.or_eq_true_iff.mpr (.inr (Option.all_eq_true _ _ |>.mpr fun first _ => ?_))
      exact decide_eq_true (Nat.lt_add_right first hstop)
    rw [hnear] at hfar
    cases hfar

/-- The content that is read back as its manifest: its first two bytes are its own. -/
theorem written_ranges_read_back_large :
    ∃ id s, block_engine.write_content large_content.1 (Store.fresh []) = (.ok id, s) ∧
      block_engine.read_chunked_range id 0 2 s = (.ok (slice large_content.1 0 2), s) := by
  have he := lawful_block_engine
  obtain ⟨id, s, hwrite, hcalm, -⟩ := returns_write_content he
    (A := fun b => b ∈ handed block_engine large_content.1) (fun b hb => hb) (Store.fresh [])
    (calm_empty _ _)
  have hbefore : run (step block_engine) (Store.fresh []) [] = some ([], Store.fresh []) := rfl
  have hafter : run (step block_engine) s [] = some ([], s) := rfl
  exact ⟨id, s, hwrite, written_ranges_read_back he [] large_content hbefore hwrite hafter
    (distinct_large_content hcalm.written) large_content_is_large 0 2 (by decide)⟩

end NexusVfs.Cas
