/-
Reading back what was written, as long as the recogniser agrees with the writer about
what is a manifest. It does not for a manifest of 500 KiB or more, which `read_content`
then answers itself.
-/
import NexusVfs.CasManifest
import NexusVfs.Runs

namespace NexusVfs.Cas

open List Actions Actions.Action Json Runs Text Words Option
open Engine

/-! ## Runs of writes -/

/-- A byte vector of the program: no allocation is larger than `isize::MAX`. -/
def Buffer : Type := { b : Bytes // b.length < MAX_VEC }

inductive Op where
  | WriteContent (content : Buffer)
  | WritePartial (old_hash : String) (buf : Buffer) (offset : UInt64)
      (fetch : String → Option Bytes)

def step (e : Engine) (s : Store) : Op → Option (Except CASError String × Store)
  | .WriteContent content => some (e.write_content content.1 s)
  | .WritePartial old_hash buf offset fetch =>
    let written := write_partial e old_hash buf.1 offset.toNat fetch s
    some (written.1.map PartialWriteResult.content_id, written.2)

def Store.fresh (faults : List (Option String)) : Store := { Store.empty with faults }

theorem storeInv_fresh (e : Engine) (faults : List (Option String)) :
    StoreInv e (Store.fresh faults) := by
  constructor
  · intro id content h
    simp [Store.fresh, Store.empty] at h
  · intro id data h
    simp [Store.fresh, Store.empty] at h

variable {content : Bytes} {fuel : ℕ}

theorem literal_ne_nil {e : Engine} (h : (e.parse_chunk_manifest content).isSome = true) :
    ∀ piece ∈ [content], piece ≠ [] := by
  obtain ⟨-, hhead⟩ := head_of_parse_chunk_manifest h
  intro piece hpiece
  cases mem_singleton.mp hpiece
  rintro rfl
  cases hhead

section Lawful

variable {e : Engine} (he : Lawful e)

include he

theorem step_keeps {s s' : Store} {op : Op} {r : Except CASError String} (hinv : StoreInv e s)
    (h : step e s op = some (r, s')) : StoreInv e s' ∧ Extends s s' := by
  cases op with
  | WriteContent content =>
    obtain ⟨hinv', hle, -⟩ := triple_write_content he content.2 s hinv trivial
    have heq : e.write_content content.1 s = (r, s') := some.inj h
    rw [heq] at hinv' hle
    exact ⟨hinv', hle⟩
  | WritePartial old_hash buf offset fetch =>
    obtain ⟨hinv', hle, -⟩ :=
      keeps_write_partial he old_hash buf.1 offset.toNat fetch s hinv trivial
    cases h
    exact ⟨hinv', hle⟩

theorem run_keeps {s t : Store} {ops : List Op} {rs : List (Except CASError String)}
    (hinv : StoreInv e s) (hrun : run (step e) s ops = some (rs, t)) :
    StoreInv e t ∧ Extends s t := by
  have hany : along (step e) (fun _ _ => True) s ops := along_of_forall_mem fun _ _ _ => trivial
  constructor
  · exact run_invariant (StoreInv e) (fun _ _ _ _ hs _ h => (step_keeps he hs h).1) hinv hany hrun
  · exact run_relation (StoreInv e) Extends (refl_of Extends) (fun _ _ _ => trans_of Extends)
      (fun _ _ _ _ hs _ h => step_keeps he hs h) hinv hany hrun

end Lawful

/-! ## Reading the pieces -/

section Reading

variable {e : Engine} {s : Store} {b : Bytes} {pieces : List Bytes}

def Present (e : Engine) (s : Store) (b : Bytes) : Prop := s.blobs.get (e.hash_content b) = some b

theorem present_of_stored (hinv : StoreInv e s) (hdistinct : Distinct e s.written)
    (h : Stored e s b) : Present e s b := by
  obtain ⟨hwritten, hsome⟩ := h
  obtain ⟨content, hcontent⟩ := isSome_iff_exists.mp hsome
  obtain ⟨hhash, hin⟩ := hinv.blob_hash _ content hcontent
  rw [Present, hcontent, hdistinct content hin b hwritten hhash]

theorem Present.read_blob (h : Present e s b) : e.read_blob (e.hash_content b) s = (.ok b, s) := by
  rw [Engine.read_blob, h]
  exact if_pos rfl

theorem Present.read_and_verify_chunk (h : Present e s b) (fetch : String → Option Bytes) :
    e.read_and_verify_chunk fetch (e.hash_content b) s = (.ok b, s) := by
  rw [Engine.read_and_verify_chunk, h.read_blob]

theorem read_parts_of_present (fetch : String → Option Bytes) (offset : ℕ)
    (hpieces : ∀ piece ∈ pieces, Present e s piece)
    (hend : offset + pieces.flatten.length < MAX_VEC) :
    e.read_parts fetch (chunk_entries e 0 (with_offsets offset pieces)) s =
      (.ok (with_offsets offset pieces), s) := by
  induction pieces generalizing offset with
  | nil => rfl
  | cons piece pieces ih =>
    rw [flatten_cons, length_append] at hend
    have hrest := ih (offset + piece.length)
      (fun p hp => hpieces p (mem_cons_of_mem piece hp)) (by omega)
    have hchunk := (hpieces piece mem_cons_self).read_and_verify_chunk fetch
    have hoffset : (((entry (e.hash_content piece) ((0 + offset) % 2 ^ 64) piece.length).get
        "offset").bind Value.as_i64).getD 0 = (offset : ℤ) := by
      change (Value.as_i64 (.PosInt ((0 + offset) % 2 ^ 64))).getD 0 = (offset : ℤ)
      rw [MAX_VEC] at hend
      rw [Value.as_i64, Nat.zero_add, Nat.mod_eq_of_lt (by omega), if_pos (by omega)]
      rfl
    change e.read_parts fetch (entry (e.hash_content piece) ((0 + offset) % 2 ^ 64) piece.length ::
      chunk_entries e 0 (with_offsets (offset + piece.length) pieces)) s = _
    rw [read_parts]
    simp only [hoffset]
    change (if (offset : ℤ) < 0 then _ else _ : CasM (List (ℕ × Bytes))) s = _
    rw [if_neg (by omega), bind_of_ok hchunk, bind_of_ok hrest]
    rfl

end Reading

theorem pairwise_with_offsets (offset : ℕ) (pieces : List Bytes) :
    (with_offsets offset pieces).Pairwise (fun a b => decide (a.1 ≤ b.1) = true) ∧
      ∀ part ∈ with_offsets offset pieces, offset ≤ part.1 := by
  induction pieces generalizing offset with
  | nil => exact ⟨List.Pairwise.nil, nofun⟩
  | cons piece pieces ih =>
    obtain ⟨hsorted, hle⟩ := ih (offset + piece.length)
    constructor
    · refine pairwise_cons.mpr ⟨fun part hpart => ?_, hsorted⟩
      have := hle part hpart
      simp only [decide_eq_true_eq]
      omega
    · intro part hpart
      rcases mem_cons.mp hpart with rfl | hpart
      · exact Nat.le_refl offset
      · have := hle part hpart
        omega

theorem check_cover_with_offsets (offset : ℕ) {pieces : List Bytes}
    (hend : offset + pieces.flatten.length < 2 ^ 64) :
    check_cover offset (with_offsets offset pieces) = .ok (offset + pieces.flatten.length) := by
  induction pieces generalizing offset with
  | nil => rfl
  | cons piece pieces ih =>
    rw [flatten_cons, length_append] at hend ⊢
    rw [with_offsets, check_cover, if_neg (not_not.mpr rfl), if_neg (by omega),
      ih (offset + piece.length) (by omega), Nat.add_assoc]

section Reading

variable {e : Engine} {s : Store} {b : Bytes} {pieces : List Bytes}

theorem reassemble_chunks_of_present (fetch : String → Option Bytes)
    (hpieces : ∀ piece ∈ pieces, Present e s piece) (hend : pieces.flatten.length < MAX_VEC) :
    e.reassemble_chunks fetch (chunk_entries e 0 (with_offsets 0 pieces)) s =
      (.ok pieces.flatten, s) := by
  have hparts := read_parts_of_present fetch 0 hpieces (by omega)
  have hsorted := mergeSort_of_pairwise (pairwise_with_offsets 0 pieces).1
  have hcover : check_cover 0 (with_offsets 0 pieces) = .ok (0 + pieces.flatten.length) := by
    rw [MAX_VEC] at hend
    exact check_cover_with_offsets 0 (by omega)
  rw [reassemble_chunks, bind_of_ok hparts]
  simp only [hsorted]
  rw [hcover, map_snd_with_offsets]
  rfl

theorem Present.read_content (h : Present e s b) (hnone : e.parse_chunk_manifest b = none) :
    e.read_content (e.hash_content b) s = (.ok b, s) := by
  rw [Engine.read_content, read_content_with_origins, bind_of_ok h.read_blob, try_reassemble,
    hnone]
  rfl

theorem read_content_of_manifest (he : Lawful e) {count total : ℕ} {hash : String}
    (hregular : Regular (chunk_entries e 0 (with_offsets 0 pieces)) count total)
    (hpieces : ∀ piece ∈ pieces, Present e s piece) (hend : pieces.flatten.length < MAX_VEC)
    (hb : b = to_vec (manifest_value (chunk_entries e 0 (with_offsets 0 pieces)) count total hash))
    (hmanifest : Present e s b) (hlimit : b.length < MANIFEST_LIMIT) :
    e.read_content (e.hash_content b) s = (.ok pieces.flatten, s) := by
  have htry : e.try_reassemble (fun _ => none) b s = (.ok (some pieces.flatten), s) := by
    rw [try_reassemble, parse_chunk_manifest_of_lt he hregular hb hlimit]
    change (do
      let content ← e.reassemble_chunks (fun _ => none) (chunk_entries e 0 (with_offsets 0 pieces))
      pure (some content) : CasM (Option Bytes)) s = _
    rw [bind_of_ok (reassemble_chunks_of_present _ hpieces hend)]
    rfl
  rw [read_content, read_content_with_origins, bind_of_ok hmanifest.read_blob,
    bind_of_ok htry]
  rfl

end Reading

section Stored

variable {e : Engine} {s : Store} (hinv : StoreInv e s) (hdistinct : Distinct e s.written)

include hinv hdistinct

variable {content : Bytes} {pieces : List Bytes} {id : String} (he : Lawful e)
  (h : SavedPieces e content pieces id s) (hflatten : pieces.flatten = content)
  (hne : ∀ piece ∈ pieces, piece ≠ []) (hlen : content.length < MAX_VEC)
include he h hflatten hne hlen

theorem read_content_of_pieces
    (hlimit : (manifest_bytes e content pieces).length < MANIFEST_LIMIT) :
    e.read_content id s = (.ok content, s) := by
  obtain ⟨rfl, hpieces, hmanifest, -⟩ := h
  have hread := read_content_of_manifest he (regular_chunk_entries hflatten hne hlen)
    (fun piece hpiece => present_of_stored hinv hdistinct (hpieces piece hpiece))
    (hflatten.symm ▸ hlen) rfl (present_of_stored hinv hdistinct hmanifest) hlimit
  rw [hflatten] at hread
  exact hread

/-! ## Sizes -/

omit h hflatten hne hlen in
theorem get_size_of_sidecar {b : Bytes} {entries : List Value} {count total : ℕ}
    {hash : String} (hregular : Regular entries count total)
    (hb : b = to_vec (manifest_value entries count total hash)) (hwritten : b ∈ s.written)
    (hsome : (s.metas.get (e.hash_content b)).isSome = true) :
    e.get_size (e.hash_content b) s = (.ok total, s) := by
  obtain ⟨data, hdata⟩ := isSome_iff_exists.mp hsome
  obtain ⟨es, n, t, h, rfl, hin, hid, hreg⟩ := hinv.sidecar _ data hdata
  have hreg := hreg hdistinct
  -- the sidecar's manifest is this one, and the reader tells their sizes apart
  have heq := hdistinct _ hin _ hwritten hid
  have hvalue : manifest_value es n t h = manifest_value entries count total hash := by
    have hread := he.read_manifest es n t h hreg
    rw [heq, hb, he.read_manifest _ _ _ _ hregular] at hread
    exact (Except.ok.inj hread).symm
  have htotal : t = total := by
    simp only [manifest_value, Value.Obj.injEq, cons.injEq, Prod.mk.injEq,
      Value.PosInt.injEq] at hvalue
    exact hvalue.2.2.2.2.1.2
  subst htotal
  have hexists : meta_exists (e.hash_content b) s = (.ok true, s) := by
    rw [meta_exists, hsome]
  have hmeta : read_meta (e.hash_content b) s = (.ok (to_vec (sidecar_value n t)), s) := by
    rw [read_meta, hdata]
  have hparse : e.parse_json (to_vec (sidecar_value n t)) = .ok (sidecar_value n t) := by
    rw [parse_json, he.read_sidecar n t hreg.count_lt hreg.total_lt]
  rw [get_size, bind_of_ok hexists, if_pos rfl, bind_of_ok hmeta, hparse]
  rfl

theorem get_size_of_pieces : e.get_size id s = (.ok content.length, s) := by
  obtain ⟨rfl, -, hmanifest, hsome⟩ := h
  exact get_size_of_sidecar hinv hdistinct he (regular_chunk_entries hflatten hne hlen) rfl
    hmanifest.1 hsome

omit he h hflatten hne hlen

theorem get_size_of_blob {b : Bytes} (h : Stored e s b)
    (hnone : s.metas.get (e.hash_content b) = none) :
    e.get_size (e.hash_content b) s = (.ok b.length, s) := by
  have hexists : meta_exists (e.hash_content b) s = (.ok false, s) := by
    rw [meta_exists, hnone]
    rfl
  rw [get_size, bind_of_ok hexists, if_neg Bool.false_ne_true, content_size, blob_size,
    present_of_stored hinv hdistinct h]

end Stored

/-! ## Writes that return -/

/-- A sound store on a disk that refuses nothing, with only these byte strings in its history. -/
structure Calm (e : Engine) (A : Bytes → Prop) (s : Store) : Prop where
  faults : s.faults = []
  blob_hash : ∀ id content, s.blobs.get id = some content → e.hash_content content = id
  written : ∀ b ∈ s.written, A b

def handed (e : Engine) (content : Bytes) : List Bytes :=
  match pieces_of e content with
  | none => [content]
  | some pieces => pieces ++ [manifest_bytes e content pieces]

theorem calm_empty (e : Engine) (A : Bytes → Prop) : Calm e A Store.empty := by
  refine ⟨rfl, fun id content h => ?_, nofun⟩
  simp [Store.empty] at h

section Returns

variable {e : Engine} {A : Bytes → Prop}

theorem returns_disk : Returns (Calm e A) disk fun _ => True := by
  intro s hs
  refine ⟨(), s, ?_, hs, trivial⟩
  rw [disk, hs.faults]

theorem returns_confirm_existing_blob (content_id : String) :
    Returns (Calm e A) (e.confirm_existing_blob content_id) fun _ => True := by
  intro s hs
  rw [confirm_existing_blob]
  cases hblob : s.blobs.get content_id with
  | none => exact ⟨false, s, rfl, hs, trivial⟩
  | some existing => exact ⟨true, s, if_pos (hs.blob_hash content_id existing hblob), hs, trivial⟩

variable {content : Bytes}

theorem returns_publish_blob (h : A content) :
    Returns (Calm e A) (e.publish_blob content (e.hash_content content)) fun _ => True := by
  have hhanded : Returns (Calm e A)
      (Action.modify fun s => { s with written := content :: s.written } : CasM Unit)
      fun _ => True := by
    refine returns_modify fun s hs => ⟨hs.faults, hs.blob_hash, fun b hb => ?_⟩
    rcases mem_cons.mp hb with rfl | hb
    · exact h
    · exact hs.written b hb
  have hinsert : Returns (Calm e A) (Action.modify fun s =>
      { s with blobs := s.blobs.insert (e.hash_content content) content } : CasM Unit)
      fun _ => True := by
    refine returns_modify fun s hs => ⟨hs.faults, fun id c hc => ?_, hs.written⟩
    by_cases hid : id = e.hash_content content
    · subst hid
      rw [Table.get_insert_self] at hc
      cases hc
      rfl
    · rw [Table.get_insert_of_ne _ _ hid] at hc
      exact hs.blob_hash id c hc
  refine hhanded.bind fun _ _ => (returns_confirm_existing_blob _).bind fun found _ => ?_
  split_ifs
  · exact returns_disk.bind fun _ _ => returns_pure trivial
  · exact returns_disk.bind fun _ _ => hinsert.bind fun _ _ => returns_disk.bind fun _ _ =>
      returns_pure trivial

theorem returns_write_blob_tracked (h : A content) :
    Returns (Calm e A) (e.write_blob_tracked content)
      fun written => written.1 = e.hash_content content :=
  (returns_publish_blob h).bind fun _ _ => returns_pure rfl

theorem returns_write_chunks (base : ℕ) {pieces : List (ℕ × Bytes)}
    (h : ∀ piece ∈ pieces.map Prod.snd, A piece) :
    Returns (Calm e A) (e.write_chunks base pieces)
      fun entries => entries = chunk_entries e base pieces := by
  induction pieces with
  | nil => exact returns_pure rfl
  | cons piece pieces ih =>
    have hpiece := h piece.2 mem_cons_self
    have hrest := ih fun p hp => h p (mem_cons_of_mem _ hp)
    have hblob : Returns (Calm e A) (e.write_blob piece.2)
        fun hash => hash = e.hash_content piece.2 :=
      (returns_write_blob_tracked hpiece).bind fun _ hw => returns_pure hw
    refine hblob.bind fun hash hhash => hrest.bind fun entries hentries => returns_pure ?_
    rw [hhash, hentries]
    rfl

theorem returns_finalize_manifest {entries : List Value} {count total : ℕ} {hash : String}
    (h : A (to_vec (manifest_value entries count total hash))) :
    Returns (Calm e A) (e.finalize_manifest entries count total hash) fun _ => True := by
  refine (returns_write_blob_tracked h).bind fun written _ => Returns.bind
    (Q := fun _ => True) ?_ fun _ _ => returns_pure trivial
  refine returns_disk.bind fun _ _ => Returns.bind (Q := fun _ => True) ?_ fun _ _ => returns_disk
  exact returns_modify fun s hs => ⟨hs.faults, hs.blob_hash, hs.written⟩

theorem returns_write_content (he : Lawful e) (h : ∀ b ∈ handed e content, A b) :
    Returns (Calm e A) (e.write_content content) fun _ => True := by
  have hshould : e.should_chunk content = decide (CDC_THRESHOLD_BYTES < content.length) := by
    rw [should_chunk, he.fast_cdc]
  rw [write_content, write_content_tracked, hshould]
  rw [handed, pieces_of] at h
  refine Returns.bind (Q := fun _ => True) ?_ fun written _ => returns_pure trivial
  by_cases hliteral : (e.parse_chunk_manifest content).isSome = true
  · rw [if_pos hliteral] at h ⊢
    have hcontent := h content (mem_append_left _ mem_cons_self)
    have hmanifest := h _ (mem_append_right _ mem_cons_self)
    refine (returns_write_blob_tracked hcontent).bind fun written hhash => ?_
    rw [hhash]
    exact returns_finalize_manifest hmanifest
  · rw [if_neg hliteral] at h ⊢
    by_cases hlarge : CDC_THRESHOLD_BYTES < content.length
    · rw [if_pos hlarge] at h
      have hpieces : ∀ piece ∈ (with_offsets 0 (e.cut content)).map Prod.snd, A piece := by
        rw [map_snd_with_offsets]
        exact fun piece hpiece => h piece (mem_append_left _ hpiece)
      have hmanifest := h _ (mem_append_right _ mem_cons_self)
      have hchunks : Returns (Calm e A)
          (of_except (.ok (with_offsets 0 (e.cut content))) : CasM (List (ℕ × Bytes)))
          fun pieces => pieces = with_offsets 0 (e.cut content) := returns_pure rfl
      rw [if_pos (decide_eq_true hlarge), write_chunked, chunk_content_eq he]
      refine hchunks.bind fun pieces hcut => ?_
      subst hcut
      refine (returns_write_chunks 0 hpieces).bind fun entries hentries => ?_
      rw [hentries, length_with_offsets]
      exact returns_finalize_manifest hmanifest
    · rw [if_neg hlarge] at h
      rw [if_neg (by simpa using hlarge)]
      exact (returns_write_blob_tracked (h content mem_cons_self)).weaken fun _ _ => trivial

end Returns

/-! ## The round trip -/

/-- The text of a manifest of another size than its own. -/
def ManifestText (b : Bytes) : Prop :=
  ∃ chunk_entries chunk_count total_size full_content_hash,
    Regular chunk_entries chunk_count total_size ∧ total_size ≠ b.length ∧
    b = to_vec (manifest_value chunk_entries chunk_count total_size full_content_hash)

/-- What is cut has a manifest below the recogniser's limit, and what is a manifest above it is not
stored as a blob. -/
structure Fits (e : Engine) (content : Bytes) : Prop where
  manifest : CDC_THRESHOLD_BYTES < content.length →
    manifest_size content (e.cut content) < MANIFEST_LIMIT
  literal : MANIFEST_LIMIT ≤ content.length → content.length ≤ CDC_THRESHOLD_BYTES →
    ¬ ManifestText content

section Lawful

variable {e : Engine} (he : Lawful e)

include he

variable {content : Bytes} {id : String}

theorem cut_ne_nil_of_large (h : CDC_THRESHOLD_BYTES < content.length) : e.cut content ≠ [] := by
  intro hnil
  have hflatten := he.flatten_cut content
  rw [hnil] at hflatten
  rw [← hflatten] at h
  exact Nat.not_lt_zero _ h

theorem length_manifest_of_cut (hlarge : CDC_THRESHOLD_BYTES < content.length)
    (hlen : content.length < MAX_VEC) :
    (manifest_bytes e content (e.cut content)).length = manifest_size content (e.cut content) := by
  refine length_manifest_bytes he (cut_ne_nil_of_large he hlarge) ?_
  rw [he.flatten_cut]
  rw [MAX_VEC] at hlen
  omega

theorem length_manifest_of_literal (h : (e.parse_chunk_manifest content).isSome = true) :
    (manifest_bytes e content [content]).length < MANIFEST_LIMIT := by
  obtain ⟨hlimit, -⟩ := head_of_parse_chunk_manifest h
  rw [MANIFEST_LIMIT] at hlimit
  have hwidth : width content.length ≤ 6 :=
    (Nat.length_toDigits_le_iff (by decide) (by decide)).mpr (by omega)
  have hone : width 1 = 1 ∧ width 0 = 1 := by decide +kernel
  have hflatten : [content].flatten.length < 2 ^ 64 := by
    rw [flatten_singleton]
    omega
  rw [length_manifest_bytes he (cons_ne_nil _ _) hflatten, manifest_size]
  simp only [entries_size, length_singleton, Nat.div_one, hone.1, hone.2, MANIFEST_LIMIT]
  omega

variable {s : Store} (hinv : StoreInv e s) (hdistinct : Distinct e s.written)

include hinv hdistinct

theorem get_size_of_plain (hfits : Fits e content) (hnone : e.parse_chunk_manifest content = none)
    (hsmall : content.length ≤ CDC_THRESHOLD_BYTES) (h : Stored e s content) :
    e.get_size (e.hash_content content) s = (.ok content.length, s) := by
  cases hmeta : s.metas.get (e.hash_content content) with
  | none => exact get_size_of_blob hinv hdistinct h hmeta
  | some data =>
    obtain ⟨es, n, t, fh, -, hin, hid, hreg⟩ := hinv.sidecar _ data hmeta
    have hregular := hreg hdistinct
    have heq := hdistinct _ hin _ h.1 hid
    subst heq
    by_cases hlimit : (to_vec (manifest_value es n t fh)).length < MANIFEST_LIMIT
    · -- below the limit it would have been recognised
      rw [parse_chunk_manifest_of_lt he hregular rfl hlimit] at hnone
      cases hnone
    · have htotal : t = (to_vec (manifest_value es n t fh)).length := by
        by_contra hne
        exact hfits.literal (Nat.not_lt.mp hlimit) hsmall ⟨es, n, t, fh, hregular, hne, rfl⟩
      rw [← htotal]
      exact get_size_of_sidecar hinv hdistinct he hregular rfl h.1 (by rw [hmeta]; rfl)

/-- Reading needs less than `Fits`: only the manifest of what is cut has to be recognised. -/
theorem saved_reads_content (hlen : content.length < MAX_VEC)
    (hmanifest : CDC_THRESHOLD_BYTES < content.length →
      manifest_size content (e.cut content) < MANIFEST_LIMIT)
    (h : Saved e content id s) : e.read_content id s = (.ok content, s) := by
  rw [Saved, pieces_of] at h
  by_cases hliteral : (e.parse_chunk_manifest content).isSome = true
  · rw [if_pos hliteral] at h
    exact read_content_of_pieces hinv hdistinct he h flatten_singleton
      (literal_ne_nil hliteral) hlen (length_manifest_of_literal he hliteral)
  · rw [if_neg hliteral] at h
    by_cases hlarge : CDC_THRESHOLD_BYTES < content.length
    · rw [if_pos hlarge] at h
      have hlimit := hmanifest hlarge
      rw [← length_manifest_of_cut he hlarge hlen] at hlimit
      exact read_content_of_pieces hinv hdistinct he h (he.flatten_cut content)
        (he.cut_ne_nil content) hlen hlimit
    · rw [if_neg hlarge] at h
      obtain ⟨rfl, hstored⟩ := h
      exact (present_of_stored hinv hdistinct hstored).read_content (by simpa using hliteral)

theorem saved_reads_back (hlen : content.length < MAX_VEC) (hfits : Fits e content)
    (h : Saved e content id s) :
    e.read_content id s = (.ok content, s) ∧ e.get_size id s = (.ok content.length, s) := by
  refine ⟨saved_reads_content he hinv hdistinct hlen hfits.manifest h, ?_⟩
  rw [Saved, pieces_of] at h
  by_cases hliteral : (e.parse_chunk_manifest content).isSome = true
  · rw [if_pos hliteral] at h
    exact get_size_of_pieces hinv hdistinct he h flatten_singleton (literal_ne_nil hliteral) hlen
  · rw [if_neg hliteral] at h
    by_cases hlarge : CDC_THRESHOLD_BYTES < content.length
    · rw [if_pos hlarge] at h
      exact get_size_of_pieces hinv hdistinct he h (he.flatten_cut content) (he.cut_ne_nil content) hlen
    · rw [if_neg hlarge] at h
      obtain ⟨rfl, hstored⟩ := h
      exact get_size_of_plain he hinv hdistinct hfits (by simpa using hliteral)
        (Nat.not_lt.mp hlarge) hstored

theorem saved_reads_manifest (hlen : content.length < MAX_VEC)
    (hlarge : CDC_THRESHOLD_BYTES < content.length)
    (hlimit : MANIFEST_LIMIT ≤ manifest_size content (e.cut content)) (h : Saved e content id s) :
    e.read_content id s = (.ok (manifest_bytes e content (e.cut content)), s) := by
  have hcontent : MANIFEST_LIMIT ≤ content.length := by
    rw [MANIFEST_LIMIT]
    rw [CDC_THRESHOLD_BYTES] at hlarge
    omega
  rw [Saved, pieces_of, parse_chunk_manifest_of_le e hcontent, isSome_none,
    if_neg Bool.false_ne_true, if_pos hlarge] at h
  obtain ⟨rfl, -, hmanifest, -⟩ := h
  refine (present_of_stored hinv hdistinct hmanifest).read_content (parse_chunk_manifest_of_le e ?_)
  rw [length_manifest_of_cut he hlarge hlen]
  exact hlimit

end Lawful

/-! ## A content that is read back as its manifest

The engine below cuts at the largest chunk size of FastCDC. Its hash is made of the length and the
first byte, which is enough to tell apart what the runs here write. -/

def CDC_MAX_CHUNK_SIZE : ℕ := 4 * 1024 * 1024

/-- `fuel` is the length of the content or more. -/
def blocks : ℕ → Bytes → List Bytes
  | 0, _ => []
  | fuel + 1, content =>
    if content = [] then []
    else content.take CDC_MAX_CHUNK_SIZE :: blocks fuel (content.drop CDC_MAX_CHUNK_SIZE)

def stamp (content : Bytes) : ℕ := 256 * content.length + (content.head?.getD 0).toNat

def stamp_hash (content : Bytes) : String :=
  String.ofList (leftpad 64 '0' (digits (stamp content % 10 ^ 64)))

def block_engine : Engine where
  hash_content := stamp_hash
  from_slice := Json.from_slice
  cut content := blocks content.length content
  strategy := .FastCDC

theorem flatten_blocks (h : content.length ≤ fuel) : (blocks fuel content).flatten = content := by
  induction fuel generalizing content with
  | zero =>
    have hnil := length_eq_zero_iff.mp (Nat.le_zero.mp h)
    rw [hnil]
    rfl
  | succ fuel ih =>
    rw [blocks]
    split_ifs with hnil
    · rw [hnil]
      rfl
    · have hpos := length_pos_of_ne_nil hnil
      have hshort : (content.drop CDC_MAX_CHUNK_SIZE).length ≤ fuel := by
        rw [length_drop, CDC_MAX_CHUNK_SIZE]
        omega
      rw [flatten_cons, ih hshort, take_append_drop]

theorem ne_nil_of_mem_blocks {piece : Bytes} (h : piece ∈ blocks fuel content) : piece ≠ [] := by
  induction fuel generalizing content with
  | zero => cases h
  | succ fuel ih =>
    rw [blocks] at h
    split_ifs at h with hnil
    · cases h
    · rcases mem_cons.mp h with rfl | h
      · rw [Ne, take_eq_nil_iff, not_or]
        exact ⟨by decide, hnil⟩
      · exact ih h

theorem minPieces_blocks {piece : Bytes} (h : piece ∈ (blocks fuel content).dropLast) :
    CDC_MIN_CHUNK_SIZE ≤ piece.length := by
  induction fuel generalizing content with
  | zero => cases h
  | succ fuel ih =>
    rw [blocks] at h
    split_ifs at h with hnil
    · cases h
    · by_cases hlast : blocks fuel (content.drop CDC_MAX_CHUNK_SIZE) = []
      · rw [hlast] at h
        cases h
      rw [dropLast_cons_of_ne_nil hlast] at h
      rcases mem_cons.mp h with rfl | hrest
      · -- something is left after this block, so it is a whole one
        have hmore : content.drop CDC_MAX_CHUNK_SIZE ≠ [] := by
          intro hdrop
          apply hlast
          rw [hdrop]
          cases fuel <;> rfl
        have hlong := length_pos_of_ne_nil hmore
        rw [length_drop] at hlong
        rw [length_take, CDC_MIN_CHUNK_SIZE]
        rw [CDC_MAX_CHUNK_SIZE] at hlong ⊢
        omega
      · exact ih hrest

theorem minPieces_block_engine : MinPieces block_engine := fun _ _ h => minPieces_blocks h

theorem blocks_replicate {n : ℕ} (h : n ≤ fuel) (b : UInt8) :
    blocks fuel (replicate (n * CDC_MAX_CHUNK_SIZE) b) =
      replicate n (replicate CDC_MAX_CHUNK_SIZE b) := by
  induction n generalizing fuel with
  | zero =>
    cases fuel <;> rfl
  | succ n ih =>
    obtain ⟨fuel, rfl⟩ : ∃ f, fuel = f + 1 := ⟨fuel - 1, by omega⟩
    have hsplit : replicate ((n + 1) * CDC_MAX_CHUNK_SIZE) b =
        replicate CDC_MAX_CHUNK_SIZE b ++ replicate (n * CDC_MAX_CHUNK_SIZE) b := by
      rw [replicate_append_replicate, Nat.add_mul, Nat.one_mul, Nat.add_comm]
    have hne : replicate ((n + 1) * CDC_MAX_CHUNK_SIZE) b ≠ [] := by
      rw [Ne, replicate_eq_nil_iff, CDC_MAX_CHUNK_SIZE]
      omega
    rw [blocks, if_neg hne, hsplit, take_left' length_replicate,
      drop_left' length_replicate, ih (by omega), replicate_succ]

theorem plain_items_of_listed {chunk_entries : List Value} (h : ∀ v ∈ chunk_entries, Listed v) :
    plain_items chunk_entries = true := by
  induction chunk_entries with
  | nil => rfl
  | cons v vs ih =>
    obtain ⟨hash, offset, length, -, -, rfl⟩ := h v mem_cons_self
    rw [plain_items, ih fun w hw => h w (mem_cons_of_mem _ hw)]
    rfl

theorem mem_hex_digits_of_isDigit {c : Char} (h : c.isDigit = true) : c ∈ hex_digits := by
  have hall : ∀ n < 58, 48 ≤ n → Char.ofNat n ∈ hex_digits := by decide +kernel
  simp only [Char.isDigit, Bool.and_eq_true, decide_eq_true_eq, UInt32.le_iff_toNat_le] at h
  rw [← Char.ofNat_toNat c]
  exact hall c.toNat (Nat.lt_succ_of_le h.2) h.1

theorem lawful_block_engine : Lawful block_engine where
  fast_cdc := rfl
  flatten_cut content := flatten_blocks (Nat.le_refl content.length)
  cut_ne_nil _ _ h := ne_nil_of_mem_blocks h
  read_manifest chunk_entries chunk_count total_size hash hregular := by
    refine from_slice_to_vec ?_
    simp [manifest_value, plain, plain_fields, plain_field, plain_items_of_listed hregular.listed]
  read_sidecar chunk_count total_size _ _ := from_slice_to_vec rfl
  hash_length content := by
    have hlt : stamp content % 10 ^ 64 < 10 ^ 64 := Nat.mod_lt _ (by decide)
    have hlen : (digits (stamp content % 10 ^ 64)).length ≤ 64 :=
      (Nat.length_toDigits_le_iff (by decide) (by decide)).mpr hlt
    change (stamp_hash content).toList.length = 64
    rw [stamp_hash, String.toList_ofList, leftpad, length_append, length_replicate]
    omega
  hash_digits content c hc := by
    change c ∈ (stamp_hash content).toList at hc
    rw [stamp_hash, String.toList_ofList, leftpad, mem_append] at hc
    rcases hc with hc | hc
    · rw [eq_of_mem_replicate hc]
      decide
    · exact mem_hex_digits_of_isDigit (isDigit_of_mem_digits hc)

theorem head_eq_of_stamp_hash {x y : Bytes} (h : stamp_hash x = stamp_hash y) :
    (x.head?.getD 0).toNat = (y.head?.getD 0).toNat := by
  have hnum := congrArg (fun s : String => Nat.ofDigitChars 10 s.toList 0) h
  simp only [stamp_hash, String.toList_ofList, leftpad, ofDigitChars_replicate_zero, digits,
    Nat.ofDigitChars_ten_toDigits] at hnum
  have hmod : ∀ n, n % 10 ^ 64 % 256 = n % 256 := fun n => Nat.mod_mod_of_dvd n (by decide)
  have hx := hmod (stamp x)
  have hy := hmod (stamp y)
  have hxlt := (x.head?.getD 0).toNat_lt
  have hylt := (y.head?.getD 0).toNat_lt
  rw [hnum] at hx
  simp only [stamp] at hx hy
  omega

theorem le_entries_size (offset : ℕ) (pieces : List Bytes) :
    102 * pieces.length ≤ entries_size offset pieces := by
  induction pieces generalizing offset with
  | nil => exact Nat.zero_le _
  | cons piece pieces ih =>
    have := ih (offset + piece.length)
    rw [length_cons, entries_size]
    omega

-- irreducible, so that no unification tries to write the blocks out
@[irreducible] def zero_block : Bytes := replicate CDC_MAX_CHUNK_SIZE 0

/-- 20 GiB and some: 5200 blocks of zeros. -/
@[irreducible] def large_content : Buffer :=
  ⟨replicate (5200 * CDC_MAX_CHUNK_SIZE) 0, by
    rw [length_replicate]
    decide⟩

theorem large_content_eq : large_content.1 = replicate (5200 * CDC_MAX_CHUNK_SIZE) 0 := by
  rw [large_content]

theorem length_large_content : large_content.1.length = 5200 * CDC_MAX_CHUNK_SIZE := by
  rw [large_content_eq, length_replicate]

theorem cut_large_content : block_engine.cut large_content.1 = replicate 5200 zero_block := by
  have hfuel : 5200 ≤ large_content.1.length := by
    rw [length_large_content]
    decide
  have hblocks := blocks_replicate hfuel 0
  rw [← large_content_eq] at hblocks
  rw [zero_block]
  exact hblocks

theorem manifest_of_large_content :
    MANIFEST_LIMIT ≤ manifest_size large_content.1 (block_engine.cut large_content.1) := by
  have h := le_entries_size 0 (block_engine.cut large_content.1)
  have hlen : (block_engine.cut large_content.1).length = 5200 := by
    rw [cut_large_content, length_replicate]
  rw [manifest_size, MANIFEST_LIMIT]
  omega

theorem large_content_is_large : CDC_THRESHOLD_BYTES < large_content.1.length := by
  rw [length_large_content]
  decide

theorem head_manifest_bytes (e : Engine) (content : Bytes) (pieces : List Bytes) :
    (manifest_bytes e content pieces).head? = some 0x7b :=
  head_to_vec_obj _

theorem distinct_large_content {written : List Bytes}
    (h : ∀ b ∈ written, b ∈ handed block_engine large_content.1) : Distinct block_engine written := by
  have hparse : block_engine.parse_chunk_manifest large_content.1 = none := by
    refine parse_chunk_manifest_of_le _ (Nat.le_trans ?_ (Nat.le_of_lt large_content_is_large))
    decide
  have hhanded : ∀ b ∈ handed block_engine large_content.1,
      b = zero_block ∨
      b = manifest_bytes block_engine large_content.1 (block_engine.cut large_content.1) := by
    intro b hb
    rw [handed, pieces_of, hparse, isSome_none, if_neg Bool.false_ne_true,
      if_pos large_content_is_large] at hb
    rcases mem_append.mp hb with hb | hb
    · rw [cut_large_content] at hb
      exact Or.inl (eq_of_mem_replicate hb)
    · exact Or.inr (mem_singleton.mp hb)
  have hblock : zero_block.head? = some 0 := by
    rw [zero_block]
    rfl
  intro x hx y hy hxy
  have hhead := head_eq_of_stamp_hash hxy
  rcases hhanded x (h x hx) with rfl | rfl <;> rcases hhanded y (h y hy) with rfl | rfl
  · rfl
  · rw [hblock, head_manifest_bytes] at hhead
    cases hhead
  · rw [hblock, head_manifest_bytes] at hhead
    cases hhead
  · rfl

end NexusVfs.Cas
