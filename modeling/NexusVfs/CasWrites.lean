/-
What the operations that write leave behind, with the FastCDC strategy.

Also when the disk refuses part of it, every blob stands under its own hash, every
sidecar belongs to a manifest that was written, and nothing is lost (`StoreInv`,
`Extends`). A write that returns has stored all that reading needs (`Saved`). Of the
hash it is assumed that no two byte strings a run hands to the disk collide
(`Distinct`).
-/
import NexusVfs.CasEngine

namespace NexusVfs.Cas

open List Actions Json Words Table Option
open Engine

/-! ## What is assumed of the parts -/

def Listed (v : Value) : Prop :=
  ∃ chunk_hash offset length, offset < 2 ^ 64 ∧ length < 2 ^ 64 ∧ v = entry chunk_hash offset length

/-- What the engine puts in a manifest: entries, and numbers that are `u64`. -/
structure Regular (chunk_entries : List Value) (chunk_count total_size : ℕ) : Prop where
  listed : ∀ v ∈ chunk_entries, Listed v
  count_lt : chunk_count < 2 ^ 64
  total_lt : total_size < 2 ^ 64

def hex_digits : List Char := "0123456789abcdef".toList

/-- The engine as it is by default: FastCDC cuts its input into consecutive pieces that are not
empty, JSON that was written is read back, and a hash has 64 hexadecimal digits. -/
structure Lawful (e : Engine) : Prop where
  fast_cdc : e.strategy = .FastCDC
  flatten_cut : ∀ content, (e.cut content).flatten = content
  cut_ne_nil : ∀ content, ∀ piece ∈ e.cut content, piece ≠ []
  read_manifest : ∀ chunk_entries chunk_count total_size full_content_hash,
    Regular chunk_entries chunk_count total_size →
      e.from_slice (to_vec (manifest_value chunk_entries chunk_count total_size full_content_hash)) =
        .ok (manifest_value chunk_entries chunk_count total_size full_content_hash)
  read_sidecar : ∀ chunk_count total_size, chunk_count < 2 ^ 64 → total_size < 2 ^ 64 →
    e.from_slice (to_vec (sidecar_value chunk_count total_size)) =
      .ok (sidecar_value chunk_count total_size)
  hash_length : ∀ content, (e.hash_content content).toList.length = 64
  hash_digits : ∀ content, ∀ c ∈ (e.hash_content content).toList, c ∈ hex_digits

/-- No two of the byte strings collide. -/
def Distinct (e : Engine) (written : List Bytes) : Prop :=
  ∀ x ∈ written, ∀ y ∈ written, e.hash_content x = e.hash_content y → x = y

theorem Distinct.mono {e : Engine} {written written' : List Bytes} (h : Distinct e written')
    (hsub : ∀ b ∈ written, b ∈ written') : Distinct e written :=
  fun x hx y hy => h x (hsub x hx) y (hsub y hy)

/-! ## The invariant -/

structure StoreInv (e : Engine) (s : Store) : Prop where
  blob_hash : ∀ id content, s.blobs.get id = some content →
    e.hash_content content = id ∧ content ∈ s.written
  sidecar : ∀ id data, s.metas.get id = some data →
    ∃ chunk_entries chunk_count total_size full_content_hash,
      data = to_vec (sidecar_value chunk_count total_size) ∧
      to_vec (manifest_value chunk_entries chunk_count total_size full_content_hash) ∈ s.written ∧
      e.hash_content
        (to_vec (manifest_value chunk_entries chunk_count total_size full_content_hash)) = id ∧
      (Distinct e s.written → Regular chunk_entries chunk_count total_size)

structure Extends (s s' : Store) : Prop where
  blobs : ∀ id content, s.blobs.get id = some content → s'.blobs.get id = some content
  metas : ∀ id, (s.metas.get id).isSome = true → (s'.metas.get id).isSome = true
  written : ∀ b ∈ s.written, b ∈ s'.written

instance : IsPreorder Store Extends where
  refl _ := ⟨fun _ _ h => h, fun _ h => h, fun _ h => h⟩
  trans _ _ _ h h' := ⟨fun id c hc => h'.blobs id c (h.blobs id c hc),
    fun id hid => h'.metas id (h.metas id hid), fun b hb => h'.written b (h.written b hb)⟩

/-- The byte string was handed to the disk, and its hash has a blob. -/
def Stored (e : Engine) (s : Store) (b : Bytes) : Prop :=
  b ∈ s.written ∧ (s.blobs.get (e.hash_content b)).isSome = true

theorem stable_stored (e : Engine) (b : Bytes) : Stable Extends fun s => Stored e s b := by
  rintro s s' hle ⟨hwritten, hblob⟩
  obtain ⟨content, hcontent⟩ := isSome_iff_exists.mp hblob
  exact ⟨hle.written b hwritten, isSome_iff_exists.mpr ⟨content, hle.blobs _ _ hcontent⟩⟩

theorem stable_all_stored (e : Engine) (pieces : List Bytes) :
    Stable Extends fun s => ∀ piece ∈ pieces, Stored e s piece :=
  fun s s' hle h piece hpiece => stable_stored e piece s s' hle (h piece hpiece)

theorem stable_of_distinct (e : Engine) (p : Prop) :
    Stable Extends fun s => Distinct e s.written → p :=
  fun _ _ hle h hdistinct => h (hdistinct.mono hle.written)

variable {e : Engine}

/-! ## Transport -/

theorem triple_disk {P : Store → Prop} (hP : ∀ s faults, P s → P { s with faults }) :
    Triple (StoreInv e) Extends P disk fun _ s => P s := by
  intro s hinv hp
  rw [disk]
  split
  · exact ⟨hinv, refl_of Extends s, fun _ _ => hp⟩
  · exact ⟨⟨hinv.blob_hash, hinv.sidecar⟩, ⟨fun _ _ h => h, fun _ h => h, fun _ h => h⟩,
      fun _ _ => hP s _ hp⟩
  · exact ⟨⟨hinv.blob_hash, hinv.sidecar⟩, ⟨fun _ _ h => h, fun _ h => h, fun _ h => h⟩, nofun⟩

theorem read_blob_state (content_id : String) (s : Store) : (e.read_blob content_id s).2 = s := by
  rw [read_blob]
  split
  · rfl
  · split <;> rfl

theorem keeps_read_blob (content_id : String) :
    Keeps (StoreInv e) Extends (e.read_blob content_id) :=
  keeps_of_same (read_blob_state content_id)

theorem triple_confirm_existing_blob (content : Bytes) (content_id : String) :
    Triple (StoreInv e) Extends (fun s => content ∈ s.written) (e.confirm_existing_blob content_id)
      fun found s => content ∈ s.written ∧
        ((s.blobs.get content_id).isSome = true ↔ found = true) := by
  refine triple_of_same (fun s => ?_) fun s found hwritten hfound => ⟨hwritten, ?_⟩
  · rw [confirm_existing_blob]
    split
    · rfl
    · split <;> rfl
  · rw [confirm_existing_blob] at hfound
    split at hfound
    · rename_i hnone
      cases hfound
      simp [hnone]
    · rename_i existing hsome
      split_ifs at hfound
      · cases hfound
        simp [hsome]

theorem triple_written (content : Bytes) :
    Triple (StoreInv e) Extends (fun _ => True)
      (Action.modify fun s => { s with written := content :: s.written } : CasM Unit)
      fun _ s => content ∈ s.written := by
  intro s hinv _
  have hgrow : ∀ b ∈ s.written, b ∈ content :: s.written := fun b hb => mem_cons_of_mem content hb
  refine ⟨⟨fun id c hc => ?_, fun id data hdata => ?_⟩, ⟨fun _ _ h => h, fun _ h => h, hgrow⟩,
    fun _ _ => mem_cons_self⟩
  · obtain ⟨hhash, hc⟩ := hinv.blob_hash id c hc
    exact ⟨hhash, hgrow c hc⟩
  · obtain ⟨es, n, t, h, heq, hwritten, hid, hregular⟩ := hinv.sidecar id data hdata
    exact ⟨es, n, t, h, heq, hgrow _ hwritten, hid, fun hd => hregular (hd.mono hgrow)⟩

theorem triple_insert_blob (content : Bytes) :
    Triple (StoreInv e) Extends (fun s => content ∈ s.written ∧
        ((s.blobs.get (e.hash_content content)).isSome = true ↔ false = true))
      (Action.modify fun s =>
        { s with blobs := s.blobs.insert (e.hash_content content) content } : CasM Unit)
      fun _ s => Stored e s content := by
  intro s hinv ⟨hwritten, hfound⟩
  have habsent : s.blobs.get (e.hash_content content) = none := by simpa using hfound
  refine ⟨⟨fun id c hc => ?_, hinv.sidecar⟩, ⟨fun id c hc => ?_, fun _ h => h, fun _ h => h⟩,
    fun _ _ => ⟨hwritten, ?_⟩⟩
  · by_cases hid : id = e.hash_content content
    · subst hid
      rw [Action.modify, get_insert_self] at hc
      cases hc
      exact ⟨rfl, hwritten⟩
    · rw [Action.modify, get_insert_of_ne _ _ hid] at hc
      exact hinv.blob_hash id c hc
  · rw [Action.modify, get_insert_of_ne]
    · exact hc
    · rintro rfl
      rw [habsent] at hc
      cases hc
  · rw [Action.modify, get_insert_self]
    rfl

theorem triple_publish_blob (content : Bytes) :
    Triple (StoreInv e) Extends (fun _ => True) (e.publish_blob content (e.hash_content content))
      fun _ s => Stored e s content := by
  refine (triple_written content).bind fun _ => ?_
  refine (triple_confirm_existing_blob content (e.hash_content content)).bind fun found => ?_
  cases found with
  | true =>
    refine (triple_disk fun _ _ h => h).bind fun _ => triple_pure false fun s h => ?_
    exact ⟨h.1, h.2.mpr rfl⟩
  | false =>
    refine (triple_disk fun _ _ h => h).bind fun _ => ?_
    exact (triple_insert_blob content).bind fun _ =>
      (triple_disk fun _ _ h => h).bind fun _ => triple_pure true fun _ h => h

theorem triple_write_blob_tracked (content : Bytes) :
    Triple (StoreInv e) Extends (fun _ => True) (e.write_blob_tracked content)
      fun written s => written.1 = e.hash_content content ∧ Stored e s content := by
  exact (triple_publish_blob content).bind fun published => triple_pure _ fun _ h => ⟨rfl, h⟩

theorem triple_write_blob (content : Bytes) :
    Triple (StoreInv e) Extends (fun _ => True) (e.write_blob content)
      fun hash s => hash = e.hash_content content ∧ Stored e s content := by
  exact (triple_write_blob_tracked content).bind fun written => triple_pure _ fun _ h => h

theorem keeps_write_blob_with_hash (content : Bytes) (content_id : String) :
    Keeps (StoreInv e) Extends (e.write_blob_with_hash content content_id) := by
  rw [write_blob_with_hash]
  split_ifs with hne
  · exact triple_fail _
  · have heq : e.hash_content content = content_id := not_not.mp hne
    rw [← heq]
    exact (triple_publish_blob content).keeps

/-! ## Manifests -/

theorem triple_write_meta {b : Bytes} {entries : List Value} {count total : ℕ} {hash : String}
    (hb : b = to_vec (manifest_value entries count total hash)) :
    Triple (StoreInv e) Extends
      (fun s => b ∈ s.written ∧ (Distinct e s.written → Regular entries count total))
      (write_meta (e.hash_content b) (to_vec (sidecar_value count total)))
      fun _ s => (s.metas.get (e.hash_content b)).isSome = true := by
  refine (triple_disk fun _ _ h => h).bind fun _ => Triple.bind ?_ fun _ =>
    triple_disk fun _ _ h => h
  intro s hinv ⟨hwritten, hregular⟩
  refine ⟨⟨hinv.blob_hash, fun id data hdata => ?_⟩,
    ⟨fun _ _ h => h, fun id hid => ?_, fun _ h => h⟩, fun _ _ => ?_⟩
  · by_cases hid : id = e.hash_content b
    · subst hid
      rw [Action.modify, get_insert_self] at hdata
      cases hdata
      exact ⟨_, _, _, _, rfl, hb ▸ hwritten, by rw [hb], hregular⟩
    · rw [Action.modify, get_insert_of_ne _ _ hid] at hdata
      exact hinv.sidecar id data hdata
  · rw [Action.modify, get_insert]
    split_ifs
    · rfl
    · exact hid
  · change ((s.metas.insert _ _).get _).isSome = true
    rw [get_insert_self]
    rfl

theorem triple_finalize_manifest (entries : List Value) (count total : ℕ) (hash : String) :
    Triple (StoreInv e) Extends (fun s => Distinct e s.written → Regular entries count total)
      (e.finalize_manifest entries count total hash)
      fun written s => written.1 = e.hash_content (to_vec (manifest_value entries count total hash)) ∧
        Stored e s (to_vec (manifest_value entries count total hash)) ∧
        (s.metas.get written.1).isSome = true := by
  have hblob := (triple_write_blob_tracked (e := e) (to_vec (manifest_value entries count total
    hash))).frame (stable_of_distinct e (Regular entries count total))
  refine (hblob.weaken (fun s h => ⟨trivial, h⟩) fun _ _ h => and_assoc.mp h).bind fun written =>
    triple_of_fact fun hhash => ?_
  obtain ⟨id, is_new⟩ := written
  subst hhash
  refine Triple.bind (((triple_write_meta rfl).frame (stable_stored e _)).weaken
    (fun s h => ⟨⟨h.1.1, h.2⟩, h.1⟩) fun _ _ h => h) fun _ => triple_pure _ fun s h => ⟨rfl, h.2, h.1⟩

theorem triple_read_manifest (content_id : String) :
    Triple (StoreInv e) Extends (fun s => (s.metas.get content_id).isSome = true)
      (e.read_blob content_id) fun data s => Distinct e s.written → ∃ entries count total hash,
        Regular entries count total ∧ data = to_vec (manifest_value entries count total hash) := by
  intro s hinv hmeta
  rw [read_blob_state]
  refine ⟨hinv, refl_of Extends s, fun data hdata hdistinct => ?_⟩
  obtain ⟨sidecar, hsidecar⟩ := isSome_iff_exists.mp hmeta
  obtain ⟨es, n, t, h, -, hwritten, hid, hregular⟩ := hinv.sidecar content_id sidecar hsidecar
  refine ⟨es, n, t, h, hregular hdistinct, ?_⟩
  rw [read_blob] at hdata
  split at hdata
  · cases hdata
  · rename_i content hcontent
    obtain ⟨hhash, hin⟩ := hinv.blob_hash content_id content hcontent
    rw [if_pos hhash] at hdata
    cases hdata
    exact hdistinct data hin _ hwritten (hhash.trans hid.symm)

/-! ## Pieces -/

/-- The entries for pieces that lie at their offsets behind `base`. -/
def chunk_entries (e : Engine) (base : ℕ) (pieces : List (ℕ × Bytes)) : List Value :=
  pieces.map fun piece =>
    entry (e.hash_content piece.2) ((base + piece.1) % 2 ^ 64) piece.2.length

theorem triple_write_chunks (base : ℕ) (pieces : List (ℕ × Bytes)) :
    Triple (StoreInv e) Extends (fun _ => True) (e.write_chunks base pieces)
      fun entries s => entries = chunk_entries e base pieces ∧
        ∀ piece ∈ pieces.map Prod.snd, Stored e s piece := by
  induction pieces with
  | nil => exact triple_pure _ fun _ _ => ⟨rfl, nofun⟩
  | cons piece pieces ih =>
    obtain ⟨offset, piece⟩ := piece
    refine (triple_write_blob piece).bind fun hash => triple_of_fact fun hhash => ?_
    subst hhash
    refine ((ih.frame (stable_stored e piece)).weaken
      (fun s h => ⟨trivial, h⟩) fun _ _ h => h).bind fun entries => ?_
    refine triple_pure _ fun s h => ?_
    obtain ⟨⟨hentries, hstored⟩, hpiece⟩ := h
    refine ⟨by rw [hentries]; rfl, fun p hp => ?_⟩
    rcases mem_cons.mp hp with rfl | hp
    · exact hpiece
    · exact hstored p hp

theorem map_snd_with_offsets (offset : ℕ) (pieces : List Bytes) :
    (with_offsets offset pieces).map Prod.snd = pieces := by
  induction pieces generalizing offset with
  | nil => rfl
  | cons piece pieces ih => rw [with_offsets, map_cons, ih]

theorem length_with_offsets (offset : ℕ) (pieces : List Bytes) :
    (with_offsets offset pieces).length = pieces.length := by
  rw [← length_map (f := Prod.snd), map_snd_with_offsets]

variable {pieces : List Bytes}

theorem length_le_of_mem {piece : Bytes} (h : piece ∈ pieces) :
    piece.length ≤ pieces.flatten.length :=
  (sublist_flatten_of_mem h).length_le

theorem length_le_flatten (h : ∀ piece ∈ pieces, piece ≠ []) :
    pieces.length ≤ pieces.flatten.length := by
  induction pieces with
  | nil => exact Nat.le_refl 0
  | cons piece pieces ih =>
    have hpiece := length_pos_of_ne_nil (h piece mem_cons_self)
    have hrest := ih fun p hp => h p (mem_cons_of_mem piece hp)
    rw [length_cons, flatten_cons, length_append]
    omega

theorem listed_chunk_entries (base offset : ℕ) (hlen : pieces.flatten.length < MAX_VEC) :
    ∀ v ∈ chunk_entries e base (with_offsets offset pieces), Listed v := by
  intro v hv
  obtain ⟨piece, hpiece, rfl⟩ := mem_map.mp hv
  have hmem : piece.2 ∈ pieces := by
    rw [← map_snd_with_offsets offset pieces]
    exact mem_map_of_mem hpiece
  have hle := length_le_of_mem hmem
  rw [MAX_VEC] at hlen
  exact ⟨_, _, _, Nat.mod_lt _ (by decide), by omega, rfl⟩

variable {content : Bytes}

theorem regular_chunk_entries (hflatten : pieces.flatten = content)
    (hne : ∀ piece ∈ pieces, piece ≠ []) (hlen : content.length < MAX_VEC) :
    Regular (chunk_entries e 0 (with_offsets 0 pieces)) pieces.length content.length := by
  have hcount := length_le_flatten hne
  rw [hflatten] at hcount
  have hlisted := listed_chunk_entries (e := e) 0 0 (hflatten.symm ▸ hlen)
  rw [MAX_VEC] at hlen
  exact ⟨hlisted, by omega, by omega⟩

/-! ## Whole contents -/

def manifest_bytes (e : Engine) (content : Bytes) (pieces : List Bytes) : Bytes :=
  to_vec (manifest_value (chunk_entries e 0 (with_offsets 0 pieces)) pieces.length content.length
    (e.hash_content content))

/-- The pieces a content is stored as, unless it is one blob: what looks like a manifest is one
piece, what is large is cut. -/
def pieces_of (e : Engine) (content : Bytes) : Option (List Bytes) :=
  if (e.parse_chunk_manifest content).isSome then some [content]
  else if CDC_THRESHOLD_BYTES < content.length then some (e.cut content)
  else none

/-- Pieces with their manifest and its sidecar are stored, under `id`. -/
def SavedPieces (e : Engine) (content : Bytes) (pieces : List Bytes) (id : String) (s : Store) :
    Prop :=
  id = e.hash_content (manifest_bytes e content pieces) ∧ (∀ piece ∈ pieces, Stored e s piece) ∧
    Stored e s (manifest_bytes e content pieces) ∧ (s.metas.get id).isSome = true

/-- What a write of the content that returned `id` leaves in the store. -/
def Saved (e : Engine) (content : Bytes) (id : String) (s : Store) : Prop :=
  match pieces_of e content with
  | none => id = e.hash_content content ∧ Stored e s content
  | some pieces => SavedPieces e content pieces id s

theorem stable_saved (e : Engine) (content : Bytes) (id : String) :
    Stable Extends (Saved e content id) := by
  intro s s' hle h
  unfold Saved at h ⊢
  split at h
  · exact ⟨h.1, stable_stored e content s s' hle h.2⟩
  · obtain ⟨hid, hpieces, hmanifest, hsidecar⟩ := h
    exact ⟨hid, stable_all_stored e _ s s' hle hpieces, stable_stored e _ s s' hle hmanifest,
      hle.metas id hsidecar⟩

theorem triple_finalize_pieces (hflatten : pieces.flatten = content)
    (hne : ∀ piece ∈ pieces, piece ≠ []) (hlen : content.length < MAX_VEC) :
    Triple (StoreInv e) Extends (fun s => ∀ piece ∈ pieces, Stored e s piece)
      (e.finalize_manifest (chunk_entries e 0 (with_offsets 0 pieces)) pieces.length content.length
        (e.hash_content content)) fun written s => SavedPieces e content pieces written.1 s := by
  have hregular := regular_chunk_entries (e := e) hflatten hne hlen
  refine ((triple_finalize_manifest _ _ _ _).frame (stable_all_stored e pieces)).weaken
    (fun s h => ⟨fun _ => hregular, h⟩) fun written s h => ?_
  obtain ⟨⟨hid, hmanifest, hsidecar⟩, hpieces⟩ := h
  exact ⟨hid, hpieces, hmanifest, hsidecar⟩

theorem head_of_parse_chunk_manifest {data : Bytes}
    (h : (e.parse_chunk_manifest data).isSome = true) :
    data.length < MANIFEST_LIMIT ∧ data.head? = some 0x7b := by
  rw [parse_chunk_manifest] at h
  split_ifs at h with hguard
  · cases h
  · rw [not_or, Nat.not_le, not_not] at hguard
    exact hguard

theorem triple_write_literal_manifest (h : (e.parse_chunk_manifest content).isSome = true) :
    Triple (StoreInv e) Extends (fun _ => True) (e.write_literal_manifest content)
      fun written s => SavedPieces e content [content] written.1 s := by
  obtain ⟨hlimit, hhead⟩ := head_of_parse_chunk_manifest h
  have hne : content ≠ [] := by
    rintro rfl
    cases hhead
  have hlen : content.length < MAX_VEC := by
    rw [MAX_VEC]
    rw [MANIFEST_LIMIT] at hlimit
    omega
  refine (triple_write_blob_tracked content).bind fun written => triple_of_fact fun hhash => ?_
  obtain ⟨hash, is_new⟩ := written
  subst hhash
  have hpieces : ∀ piece ∈ [content], piece ≠ [] := by simpa using hne
  have hflatten : [content].flatten = content := append_nil content
  refine (triple_finalize_pieces hflatten hpieces hlen).weaken (fun s h => ?_) fun _ _ h => h
  simpa using h

theorem chunk_content_eq (he : Lawful e) (content : Bytes) :
    e.chunk_content content = .ok (with_offsets 0 (e.cut content)) := by
  rw [chunk_content, he.fast_cdc]

theorem triple_write_chunked (he : Lawful e) (hlen : content.length < MAX_VEC) :
    Triple (StoreInv e) Extends (fun _ => True) (e.write_chunked content)
      fun written s => SavedPieces e content (e.cut content) written.1 s := by
  rw [write_chunked, chunk_content_eq he]
  refine (triple_of_except (Q := fun pieces _ => pieces = with_offsets 0 (e.cut content) ∧ True) _
    fun _ _ _ h => ?_).bind fun pieces => triple_of_fact fun hpieces => ?_
  · cases h
    exact ⟨rfl, trivial⟩
  · subst hpieces
    refine (triple_write_chunks 0 _).bind fun entries => triple_of_fact fun hentries => ?_
    subst hentries
    rw [map_snd_with_offsets, length_with_offsets]
    exact triple_finalize_pieces (he.flatten_cut content) (he.cut_ne_nil content) hlen

theorem triple_write_content (he : Lawful e) (hlen : content.length < MAX_VEC) :
    Triple (StoreInv e) Extends (fun _ => True) (e.write_content content)
      fun id s => Saved e content id s := by
  refine Triple.bind (Q := fun written s => Saved e content written.1 s) ?_
    fun written => triple_pure _ fun _ h => h
  have hshould : e.should_chunk content = decide (CDC_THRESHOLD_BYTES < content.length) := by
    rw [should_chunk, he.fast_cdc]
  rw [write_content_tracked, hshould]
  by_cases hliteral : (e.parse_chunk_manifest content).isSome = true
  · rw [if_pos hliteral]
    refine (triple_write_literal_manifest hliteral).weaken (fun _ h => h) fun written s h => ?_
    rw [Saved, pieces_of, if_pos hliteral]
    exact h
  · rw [if_neg hliteral]
    by_cases hlarge : CDC_THRESHOLD_BYTES < content.length
    · rw [if_pos (decide_eq_true hlarge)]
      refine (triple_write_chunked he hlen).weaken (fun _ h => h) fun written s h => ?_
      rw [Saved, pieces_of, if_neg hliteral, if_pos hlarge]
      exact h
    · rw [if_neg (by simpa using hlarge)]
      refine (triple_write_blob_tracked content).weaken (fun _ h => h) fun written s h => ?_
      rw [Saved, pieces_of, if_neg hliteral, if_neg hlarge]
      exact h

/-! ## Partial writes -/

theorem length_splice (old buf : Bytes) (offset : ℕ) :
    (splice old buf offset).length = max old.length (offset + buf.length) := by
  simp only [splice, length_append, length_take, length_replicate, length_drop]
  omega

theorem keeps_read_and_verify_chunk (fetch : String → Option Bytes) (expected_hash : String) :
    Keeps (StoreInv e) Extends (e.read_and_verify_chunk fetch expected_hash) := by
  intro s hinv _
  have hread := keeps_read_blob expected_hash s hinv trivial
  rw [read_and_verify_chunk]
  split
  · rename_i id s' hmissing
    rw [hmissing] at hread
    obtain ⟨hinv', hle, -⟩ := hread
    split
    · exact ⟨hinv', hle, nofun⟩
    · rename_i bytes _
      split_ifs
      · exact ⟨hinv', hle, nofun⟩
      · have hback := (keeps_write_blob_with_hash bytes expected_hash).ignore.bind
          (f := fun _ => pure bytes) (fun _ => triple_pure bytes fun _ h => h) s' hinv' trivial
        exact ⟨hback.1, trans_of Extends hle hback.2.1, fun _ _ => trivial⟩
  · exact ⟨hread.1, hread.2.1, fun _ _ => trivial⟩

theorem keeps_read_affected (fetch : String → Option Bytes) (hashes : List String) :
    Keeps (StoreInv e) Extends (e.read_affected fetch hashes) := by
  induction hashes with
  | nil => exact triple_pure [] fun _ h => h
  | cons hash hashes ih =>
    exact (keeps_read_and_verify_chunk fetch hash).bind fun data => ih.bind fun rest =>
      triple_pure _ fun _ h => h

theorem triple_new_region (fetch : String → Option Bytes) (old_total_size : ℕ)
    (affected suffix : List Value) (buf : Bytes) (offset : ℕ) :
    Triple (StoreInv e) Extends (fun _ => True)
      (e.new_region fetch old_total_size affected suffix buf offset)
      fun region _ => region.2.length < MAX_VEC ∧ True := by
  rw [new_region.eq_def]
  split
  · by_cases hlen : MAX_VEC ≤ offset - old_total_size + buf.length
    · rw [if_pos hlen]
      exact triple_fail _
    · rw [if_neg hlen]
      refine triple_pure _ fun s _ => ⟨?_, trivial⟩
      rw [length_append, length_replicate]
      omega
  · refine Triple.bind (triple_of_except _ fun _ _ _ _ => trivial) fun hashes => ?_
    refine Triple.bind (keeps_read_affected fetch hashes) fun assembled => ?_
    dsimp only
    split_ifs with hlen
    · exact triple_fail _
    · refine triple_pure _ fun s _ => ⟨?_, trivial⟩
      rw [length_splice]
      omega

theorem foldl_max_lt {bound init : ℕ} (hinit : init < bound) {xs : List ℕ}
    (h : ∀ x ∈ xs, x < bound) : xs.foldl max init < bound := by
  induction xs generalizing init with
  | nil => exact hinit
  | cons x xs ih =>
    have hx := h x mem_cons_self
    exact ih (by omega) fun y hy => h y (mem_cons_of_mem x hy)

theorem triple_write_chunked_partial_with_origins (he : Lawful e) (old_manifest_hash : String) (buf : Bytes)
    (offset : ℕ) (fetch : String → Option Bytes) :
    Triple (StoreInv e) Extends (fun s => (s.metas.get old_manifest_hash).isSome = true)
      (e.write_chunked_partial_with_origins old_manifest_hash buf offset fetch)
      fun _ _ => True := by
  rw [write_chunked_partial_with_origins]
  split_ifs
  · exact triple_fail _
  refine (triple_read_manifest old_manifest_hash).bind fun manifest_data => ?_
  refine Triple.bind (triple_of_except
    (Q := fun manifest s => Distinct e s.written → ∃ chunk_entries chunk_count total_size hash,
      Regular chunk_entries chunk_count total_size ∧
      manifest = manifest_value chunk_entries chunk_count total_size hash)
    _ fun s manifest hdata hparse hdistinct => ?_) fun manifest => ?_
  · -- the reader is exact on what the engine wrote
    obtain ⟨es, n, t, h, hregular, rfl⟩ := hdata hdistinct
    rw [parse_json, he.read_manifest es n t h hregular] at hparse
    cases hparse
    exact ⟨es, n, t, h, hregular, rfl⟩
  split
  · exact triple_fail _
  rename_i chunks hchunks
  refine Triple.bind (((triple_new_region fetch _ _ _ buf offset).frame
    (stable_of_distinct e (∀ v ∈ chunks, Listed v))).weaken (fun s h => ⟨trivial, fun hd => ?_⟩)
      fun _ _ h => ⟨h.1.1, h.2⟩) fun region => triple_of_fact fun hregion => ?_
  · obtain ⟨es, n, t, hash, hregular, rfl⟩ := h hd
    cases hchunks
    exact hregular.listed
  rw [chunk_content_eq he]
  refine Triple.bind (triple_of_except (Q := fun pieces s =>
    pieces = with_offsets 0 (e.cut region.2) ∧ (Distinct e s.written → ∀ v ∈ chunks, Listed v)) _
    fun s pieces h hpieces => ⟨?_, h⟩) fun pieces => triple_of_fact fun hpieces => ?_
  · cases hpieces
    rfl
  subst hpieces
  refine Triple.bind (((triple_write_chunks region.1 _).frame
    (stable_of_distinct e (∀ v ∈ chunks, Listed v))).weaken (fun s h => ⟨trivial, h⟩)
      fun _ _ h => ⟨h.1.1, h.2⟩) fun new_entries => triple_of_fact fun hnew => ?_
  dsimp only
  split_ifs with hcount
  · exact triple_fail _
  refine Triple.bind ((triple_finalize_manifest _ _ _ "").weaken (fun s h hd => ?_)
    fun _ _ h => h) fun written => triple_pure _ fun _ _ => trivial
  have hlisted := h hd
  refine ⟨fun v hv => ?_, ?_, foldl_max_lt (by decide) fun x hx => ?_⟩
  · rw [mem_append, mem_append] at hv
    rcases hv with (hv | hv) | hv
    · exact hlisted v (mem_filter.mp hv).1
    · rw [hnew] at hv
      exact listed_chunk_entries region.1 0 (by rwa [he.flatten_cut]) v hv
    · exact hlisted v (mem_filter.mp hv).1
  · rw [MAX_VEC] at hcount
    omega
  · obtain ⟨v, -, rfl⟩ := mem_map.mp hx
    rw [chunk_end, saturating_add]
    omega

theorem triple_is_chunked (content_id : String) :
    Triple (StoreInv e) Extends (fun _ => True) (e.is_chunked content_id)
      fun chunked s => chunked = true → (s.metas.get content_id).isSome = true := by
  refine triple_of_same (fun s => ?_) fun s chunked _ hres hchunked => ?_
  · rw [is_chunked]
    split
    · rfl
    · split <;> rfl
  · rw [is_chunked] at hres
    split at hres
    · cases hres
      cases hchunked
    · rename_i data hdata
      rw [hdata]
      rfl

theorem keeps_write_partial (he : Lawful e) (old_hash : String) (buf : Bytes) (offset : ℕ)
    (fetch : String → Option Bytes) :
    Keeps (StoreInv e) Extends ( write_partial e old_hash buf offset fetch) := by
  refine (triple_is_chunked old_hash).bind fun chunked => ?_
  split_ifs with hchunked
  · exact (triple_write_chunked_partial_with_origins he old_hash buf offset fetch).weaken
      (fun s h => h hchunked) fun _ _ h => h
  · refine ((keeps_read_blob old_hash).weaken (fun _ _ => trivial) fun _ _ h => h).bind
      fun old => ?_
    dsimp only
    split_ifs with hlen
    · exact triple_fail _
    · have hsplice : (splice old buf offset).length < MAX_VEC := by
        rw [length_splice]
        rw [saturating_add, MAX_VEC] at *
        omega
      exact (triple_write_content he hsplice).keeps.bind fun content_id =>
        triple_pure _ fun _ h => h

end NexusVfs.Cas
