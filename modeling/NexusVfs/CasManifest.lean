/-
How long a manifest is, and when the engine recognises one: it looks at nothing of 500
KiB or more.
-/
import NexusVfs.CasWrites

namespace NexusVfs.Cas

open List Json Text Words
open Engine

/-! ## Sizes -/

def width (n : ℕ) : ℕ := (digits n).length

/-- What the entries of the pieces take, each with its comma; the first piece lies at `offset`. -/
def entries_size : ℕ → List Bytes → ℕ
  | _, [] => 0
  | offset, piece :: pieces =>
    102 + width piece.length + width offset + entries_size (offset + piece.length) pieces

def manifest_size (content : Bytes) (pieces : List Bytes) : ℕ :=
  165 + width (content.length / pieces.length) + width pieces.length + entries_size 0 pieces +
    width content.length

def CDC_MIN_CHUNK_SIZE : ℕ := 256 * 1024

/-- Only the last piece may be smaller than the smallest chunk, as FastCDC documents. -/
def MinPieces (e : Engine) : Prop :=
  ∀ content, ∀ piece ∈ (e.cut content).dropLast, CDC_MIN_CHUNK_SIZE ≤ piece.length

theorem width_le {n : ℕ} (h : n < 2 ^ 63) : width n ≤ 19 := by
  apply (Nat.length_toDigits_le_iff (by decide) (by decide)).mpr
  omega

theorem entries_size_le {offset : ℕ} {pieces : List Bytes}
    (h : offset + pieces.flatten.length < 2 ^ 63) : entries_size offset pieces ≤ 140 * pieces.length := by
  induction pieces generalizing offset with
  | nil => exact Nat.zero_le _
  | cons piece pieces ih =>
    rw [flatten_cons, length_append] at h
    have hrest := @ih (offset + piece.length) (by omega)
    have hpiece : width piece.length ≤ 19 := width_le (by omega)
    have hoffset : width offset ≤ 19 := width_le (by omega)
    rw [length_cons, entries_size]
    omega

theorem length_pieces_le {size : ℕ} {pieces : List Bytes}
    (h : ∀ piece ∈ pieces.dropLast, size ≤ piece.length) :
    size * (pieces.length - 1) ≤ pieces.flatten.length := by
  induction pieces with
  | nil => simp
  | cons piece pieces ih =>
    by_cases hnil : pieces = []
    · simp [hnil]
    rw [dropLast_cons_of_ne_nil hnil] at h
    have hfirst := h piece mem_cons_self
    have hrest := ih fun q hq => h q (mem_cons_of_mem piece hq)
    have hpos := length_pos_of_ne_nil hnil
    have hcount : (piece :: pieces).length - 1 = (pieces.length - 1) + 1 := by
      rw [length_cons]
      omega
    rw [hcount, Nat.mul_add, flatten_cons, length_append]
    omega

theorem manifest_size_lt {e : Engine} (hmin : MinPieces e) {content : Bytes}
    (hflatten : (e.cut content).flatten = content) (hlarge : CDC_THRESHOLD_BYTES < content.length)
    (hshort : content.length < 2 ^ 63) : manifest_size content (e.cut content) < content.length := by
  have hcount := length_pieces_le (hmin content)
  have hentries := @entries_size_le 0 (e.cut content) (by rw [hflatten]; omega)
  rw [hflatten, CDC_MIN_CHUNK_SIZE] at hcount
  rw [CDC_THRESHOLD_BYTES] at hlarge
  have hdiv : content.length / (e.cut content).length < 2 ^ 63 :=
    Nat.lt_of_le_of_lt (Nat.div_le_self _ _) hshort
  have hnumber : width (e.cut content).length ≤ 19 := width_le (by omega)
  have hmean := width_le hdiv
  have htotal := width_le hshort
  rw [manifest_size]
  omega

theorem ascii_digits (n : ℕ) : Ascii (digits n) := by
  intro c hc
  have hdigit := isDigit_of_mem_digits hc
  simp only [Char.isDigit, Bool.and_eq_true, decide_eq_true_eq, UInt32.le_iff_toNat_le] at hdigit
  exact Nat.lt_of_le_of_lt hdigit.2 (by decide)

theorem escape_hex_digit (c : Char) (hc : c ∈ hex_digits) : escape c = [c] ∧ c.toNat < 128 := by
  have hall : hex_digits.all (fun c => decide (escape c = [c] ∧ c.toNat < 128)) = true := by
    decide +kernel
  exact of_decide_eq_true (all_eq_true.mp hall c hc)

section Lawful

variable {e : Engine} (he : Lawful e)

include he

theorem quoted_hash (content : Bytes) :
    quoted (e.hash_content content) = '"' :: (e.hash_content content).toList ++ ['"'] := by
  have hescape : (e.hash_content content).toList.flatMap escape = (e.hash_content content).toList := by
    have hdigits := he.hash_digits content
    generalize (e.hash_content content).toList = cs at hdigits
    induction cs with
    | nil => rfl
    | cons c cs ih =>
      have hc := (escape_hex_digit c (hdigits c mem_cons_self)).1
      rw [flatMap_cons, hc, ih fun d hd => hdigits d (mem_cons_of_mem c hd)]
      rfl
  rw [quoted, hescape]

theorem length_quoted_hash (content : Bytes) : (quoted (e.hash_content content)).length = 66 := by
  rw [quoted_hash he, length_append, length_cons, he.hash_length]
  rfl

theorem ascii_quoted_hash (content : Bytes) : Ascii (quoted (e.hash_content content)) := by
  rw [quoted_hash he]
  refine Ascii.append (Ascii.cons (by decide) fun c hc => ?_) (by decide)
  exact (escape_hex_digit c (he.hash_digits content c hc)).2

theorem length_text_entry (content : Bytes) (offset length : ℕ) :
    (text (entry (e.hash_content content) offset length)).length =
      101 + width length + width offset := by
  have h₁ : (quoted "chunk_hash").length = 12 := by decide +kernel
  have h₂ : (quoted "length").length = 8 := by decide +kernel
  have h₃ : (quoted "offset").length = 8 := by decide +kernel
  have hhash := length_quoted_hash he content
  simp only [entry, text, fields_text, field_text, comma, length_append, length_cons,
    length_nil, h₁, h₂, h₃, hhash, width, if_true, Bool.false_eq_true, if_false]
  omega

theorem ascii_text_entry (content : Bytes) (offset length : ℕ) :
    Ascii (text (entry (e.hash_content content) offset length)) := by
  have h₁ : Ascii (quoted "chunk_hash") := by decide +kernel
  have h₂ : Ascii (quoted "length") := by decide +kernel
  have h₃ : Ascii (quoted "offset") := by decide +kernel
  have hcolon : (':' : Char).toNat < 128 := by decide
  have hcomma : Ascii [','] := by decide
  refine Ascii.cons (by decide) ((h₁.append (Ascii.cons hcolon (ascii_quoted_hash he content))).append ?_)
  refine (hcomma.append (h₂.append (Ascii.cons hcolon (ascii_digits length)))).append ?_
  exact (hcomma.append (h₃.append (Ascii.cons hcolon (ascii_digits offset)))).append (by decide)

theorem length_items_text (offset : ℕ) (pieces : List Bytes)
    (hend : offset + pieces.flatten.length < 2 ^ 64) :
    (items_text false (chunk_entries e 0 (with_offsets offset pieces))).length =
      entries_size offset pieces + 1 := by
  induction pieces generalizing offset with
  | nil => rfl
  | cons piece pieces ih =>
    rw [flatten_cons, length_append] at hend
    have hrest := ih (offset + piece.length) (by omega)
    have hmod : (0 + offset) % 2 ^ 64 = offset := by omega
    rw [chunk_entries] at hrest
    rw [with_offsets, chunk_entries, map_cons, items_text, length_append,
      length_append, hmod, length_text_entry he, hrest, entries_size]
    simp only [comma, Bool.false_eq_true, if_false, length_cons, length_nil]
    omega

theorem ascii_items_text (first : Bool) (pieces : List (ℕ × Bytes)) :
    Ascii (items_text first (chunk_entries e 0 pieces)) := by
  induction pieces generalizing first with
  | nil => exact (by decide : Ascii [']'])
  | cons piece pieces ih =>
    have hcomma : Ascii (comma first) := by cases first <;> decide
    exact (hcomma.append (ascii_text_entry he _ _ _)).append (ih false)

theorem length_manifest_bytes {content : Bytes} {pieces : List Bytes} (hne : pieces ≠ [])
    (hend : pieces.flatten.length < 2 ^ 64) :
    (manifest_bytes e content pieces).length = manifest_size content pieces := by
  have h₁ : (quoted "avg_chunk_size").length = 16 ∧ Ascii (quoted "avg_chunk_size") := by
    decide +kernel
  have h₂ : (quoted "chunk_count").length = 13 ∧ Ascii (quoted "chunk_count") := by decide +kernel
  have h₃ : (quoted "chunks").length = 8 ∧ Ascii (quoted "chunks") := by decide +kernel
  have h₄ : (quoted "content_id").length = 12 ∧ Ascii (quoted "content_id") := by decide +kernel
  have h₅ : (quoted "total_size").length = 12 ∧ Ascii (quoted "total_size") := by decide +kernel
  have h₆ : (quoted "type").length = 6 ∧ Ascii (quoted "type") := by decide +kernel
  have h₇ : (quoted "chunked_manifest").length = 18 ∧ Ascii (quoted "chunked_manifest") := by
    decide +kernel
  have hcolon : (':' : Char).toNat < 128 := by decide
  have hcomma : Ascii [','] := by decide
  have hitems := length_items_text he 0 pieces (by omega)
  have hfirst : (items_text true (chunk_entries e 0 (with_offsets 0 pieces))).length + 1 =
      (items_text false (chunk_entries e 0 (with_offsets 0 pieces))).length := by
    -- the first entry has no comma
    obtain ⟨piece, rest, rfl⟩ := exists_cons_of_ne_nil hne
    simp only [with_offsets, chunk_entries, map_cons, items_text, comma, if_true,
      Bool.false_eq_true, if_false, length_append, length_cons, length_nil]
    omega
  rw [manifest_bytes, to_vec, Ascii.length_as_bytes]
  · have hhash := length_quoted_hash he content
    simp only [manifest_value, text, fields_text, field_text, comma, length_append,
      length_cons, length_nil, h₁.1, h₂.1, h₃.1, h₄.1, h₅.1, h₆.1, h₇.1, hhash,
      manifest_size, width, if_true, Bool.false_eq_true, if_false]
    omega
  · simp only [manifest_value, text, fields_text, field_text, comma, if_true, Bool.false_eq_true,
      if_false, nil_append]
    refine Ascii.cons (by decide) ((h₁.2.append (Ascii.cons hcolon (ascii_digits _))).append ?_)
    refine (hcomma.append (h₂.2.append (Ascii.cons hcolon (ascii_digits _)))).append ?_
    refine (hcomma.append (h₃.2.append (Ascii.cons hcolon (Ascii.cons (by decide)
      (ascii_items_text he true _))))).append ?_
    refine (hcomma.append (h₄.2.append (Ascii.cons hcolon (ascii_quoted_hash he content)))).append ?_
    refine (hcomma.append (h₅.2.append (Ascii.cons hcolon (ascii_digits _)))).append ?_
    exact (hcomma.append (h₆.2.append (Ascii.cons hcolon h₇.2))).append (by decide)

/-! ## Recognition -/

theorem parse_chunk_manifest_of_lt {b : Bytes} {entries : List Value} {count total : ℕ}
    {hash : String} (hregular : Regular entries count total)
    (hb : b = to_vec (manifest_value entries count total hash)) (hlimit : b.length < MANIFEST_LIMIT) :
    e.parse_chunk_manifest b = some (manifest_value entries count total hash) := by
  have hhead : b.head? = some 0x7b := by
    rw [hb]
    exact head_to_vec_obj _
  rw [parse_chunk_manifest, if_neg, hb, he.read_manifest _ _ _ _ hregular]
  · rfl
  · rw [not_or, Nat.not_le, not_not]
    exact ⟨hlimit, hhead⟩

end Lawful

theorem parse_chunk_manifest_of_le (e : Engine) {data : Bytes} (h : MANIFEST_LIMIT ≤ data.length) :
    e.parse_chunk_manifest data = none := by
  rw [parse_chunk_manifest, if_pos (Or.inl h)]

end NexusVfs.Cas
