/-
The version scan against the schema it stands in for: `FileMetadata` of
`proto/nexus/core/metadata.proto`, in its canonical encoding.

The scan takes one byte for a tag, which is right up to field 15. A version of 0 is not
written; then the scan reads parts of fields 16 to 19 as tags, and if it finds nothing,
searches the text of the message for `"version"`.
-/
import NexusVfs.ScanSafety

namespace NexusVfs.ExtractVersion

open Option List Words Text

/-! ## The canonical encoding -/

/-- A varint of at most `fuel` bytes. -/
def encode_varint_loop : ℕ → ℕ → Bytes
  | 0, _ => []
  | fuel + 1, n =>
    if n < 128 then [UInt8.ofNat n] else UInt8.ofNat (n % 128 + 128) :: encode_varint_loop fuel (n / 128)

def encode_varint (v : UInt64) : Bytes := encode_varint_loop 10 v.toNat

/-- A default is not written. -/
def varint_field (tag : Bytes) (v : UInt64) : Bytes := if v = 0 then [] else tag ++ encode_varint v

def string_field (tag : Bytes) (s : String) : Bytes :=
  if s = "" then []
  else tag ++ encode_varint (UInt64.ofNat (as_bytes s).length) ++ as_bytes s

/-- A double, by its bits; both zeros are defaults. -/
def double_field (tag : Bytes) (bits : UInt64) : Bytes :=
  if bits = 0 ∨ bits = 0x8000000000000000 then [] else tag ++ (be 8 bits.toNat).reverse

structure FileMetadata where
  path : String := ""
  size : Int64 := 0
  content_id : String := ""
  mime_type : String := ""
  created_at : String := ""
  modified_at : String := ""
  version : Int32 := 0
  zone_id : String := ""
  owner_id : String := ""
  entry_type : Int32 := 0
  target_zone_id : String := ""
  ttl_seconds : UInt64 := 0
  last_writer_address : String := ""
  link_target : String := ""
  gen : UInt64 := 0
  target_subtree : String := ""

/-- `int32` is written with its sign in 64 bits. -/
def int32_bits (v : Int32) : UInt64 := v.toInt64.toUInt64

/-- Fields 1 to 8. -/
def FileMetadata.before (m : FileMetadata) : List Bytes :=
  [string_field [0x0a] m.path, varint_field [0x20] m.size.toUInt64, string_field [0x2a] m.content_id,
    string_field [0x32] m.mime_type, string_field [0x3a] m.created_at,
    string_field [0x42] m.modified_at]

/-- Fields 10 to 15. -/
def FileMetadata.after (m : FileMetadata) : List Bytes :=
  [string_field [0x52] m.zone_id, string_field [0x62] m.owner_id,
    varint_field [0x68] (int32_bits m.entry_type), string_field [0x72] m.target_zone_id,
    double_field [0x79] m.ttl_seconds]

/-- Fields 16 to 19. -/
def FileMetadata.late (m : FileMetadata) : List Bytes :=
  [string_field [0x82, 0x01] m.last_writer_address, string_field [0x8a, 0x01] m.link_target,
    varint_field [0x90, 0x01] m.gen, string_field [0x9a, 0x01] m.target_subtree]

def FileMetadata.encode (m : FileMetadata) : Bytes :=
  m.before.flatten ++ varint_field [0x48] (int32_bits m.version) ++ m.after.flatten ++ m.late.flatten

/-! ## Varints -/

theorem and_low (b : UInt8) : (b &&& 0x7F).toNat = b.toNat % 128 := by
  have h : ∀ n : Fin 256, (UInt8.ofNat n.val &&& 0x7F).toNat = n.val % 128 := by decide +kernel
  simpa using h ⟨b.toNat, b.toNat_lt⟩

theorem continues_iff (b : UInt8) : continues b = true ↔ 128 ≤ b.toNat := by
  have h : ∀ n : Fin 256, continues (UInt8.ofNat n.val) = true ↔ 128 ≤ n.val := by decide +kernel
  simpa using h ⟨b.toNat, b.toNat_lt⟩

variable {acc : UInt64} {shift n fuel : ℕ}

theorem toNat_or_bits (b : UInt8) (hacc : acc.toNat < 2 ^ shift)
    (hfits : b.toNat % 128 * 2 ^ shift < 2 ^ 64) (hshift : shift < 64) :
    (acc ||| ((b &&& 0x7F).toUInt64 <<< UInt64.ofNat shift)).toNat
      = acc.toNat + b.toNat % 128 * 2 ^ shift := by
  have hbits : ((b &&& 0x7F).toUInt64 <<< UInt64.ofNat shift).toNat = (b.toNat % 128) <<< shift := by
    have hamount : (UInt64.ofNat shift).toNat = shift := by
      simp only [UInt64.toNat_ofNat']
      omega
    simp only [UInt64.toNat_shiftLeft, hamount, UInt8.toNat_toUInt64, and_low]
    rw [Nat.mod_eq_of_lt hshift, Nat.shiftLeft_eq]
    exact Nat.mod_eq_of_lt hfits
  rw [UInt64.toNat_or, hbits, Nat.or_comm, ← Nat.shiftLeft_add_eq_or_of_lt hacc, Nat.shiftLeft_eq]
  exact Nat.add_comm _ _

theorem last_byte (h : n < 128) :
    continues (UInt8.ofNat n) = false ∧ (UInt8.ofNat n).toNat % 128 = n := by
  have hb : (UInt8.ofNat n).toNat = n := by
    simp only [UInt8.toNat_ofNat']
    omega
  refine ⟨?_, by omega⟩
  rw [← Bool.not_eq_true, continues_iff]
  omega

theorem more_byte (n : ℕ) :
    continues (UInt8.ofNat (n % 128 + 128)) = true ∧
      (UInt8.ofNat (n % 128 + 128)).toNat % 128 = n % 128 := by
  have hb : (UInt8.ofNat (n % 128 + 128)).toNat = n % 128 + 128 := by
    simp only [UInt8.toNat_ofNat']
    omega
  refine ⟨?_, by omega⟩
  rw [continues_iff]
  omega

theorem rest_fits (hfuel : n < 128 ^ (fuel + 1)) : n / 128 < 128 ^ fuel := by
  omega

theorem takeWhile_encoded (post : Bytes) (hfuel : n < 128 ^ (fuel + 1)) :
    ((encode_varint_loop (fuel + 1) n ++ post).takeWhile continues).length + 1
      = (encode_varint_loop (fuel + 1) n).length := by
  induction fuel generalizing n with
  | zero =>
    have hn : n < 128 := by omega
    simp [encode_varint_loop, hn, (last_byte hn).1]
  | succ fuel ih =>
    rw [encode_varint_loop]
    split_ifs with hn
    · simp [(last_byte hn).1]
    · rw [cons_append, takeWhile_cons, if_pos (more_byte n).1, length_cons,
        ih (rest_fits hfuel), length_cons]

theorem decode_last (rest : Bytes) (hsmall : n < 128)
    (hacc : acc.toNat < 2 ^ shift) (hn : n * 2 ^ shift < 2 ^ 64) (hshift : shift < 64) :
    (decode_varint_loop (UInt8.ofNat n :: rest) (UInt64.ofNat shift) acc).toNat
      = acc.toNat + n * 2 ^ shift := by
  obtain ⟨hstop, hlow⟩ := last_byte hsmall
  simp only [decode_varint_loop, hstop, Bool.false_eq_true, if_false]
  rw [toNat_or_bits _ hacc (by rwa [hlow]) hshift, hlow]

theorem decode_encoded (post : Bytes)
    (hfuel : n < 128 ^ (fuel + 1)) (hacc : acc.toNat < 2 ^ shift) (hn : n * 2 ^ shift < 2 ^ 64)
    (hshift : shift < 64) :
    (decode_varint_loop (encode_varint_loop (fuel + 1) n ++ post) (UInt64.ofNat shift) acc).toNat
      = acc.toNat + n * 2 ^ shift := by
  induction fuel generalizing n shift acc with
  | zero =>
    have hsmall : n < 128 := by omega
    rw [encode_varint_loop, if_pos hsmall]
    exact decode_last _ hsmall hacc hn hshift
  | succ fuel ih =>
    rw [encode_varint_loop]
    split_ifs with hsmall
    · exact decode_last _ hsmall hacc hn hshift
    · obtain ⟨hgo, hlow⟩ := more_byte n
      have hpow : 2 ^ (shift + 7) = 128 * 2 ^ shift := by
        rw [pow_add]
        omega
      have hsplit : n * 2 ^ shift = n % 128 * 2 ^ shift + n / 128 * 2 ^ (shift + 7) := by
        conv_lhs => rw [← Nat.mod_add_div n 128]
        rw [hpow, Nat.add_mul, Nat.mul_comm 128, Nat.mul_assoc]
      have hdigit : n % 128 * 2 ^ shift + 2 ^ shift ≤ 128 * 2 ^ shift := by
        rw [← Nat.succ_mul]
        exact Nat.mul_le_mul_right _ (by omega)
      -- More than seven bits are left, and they fit.
      have hroom : shift + 7 < 64 := by
        by_contra hfull
        have hle : 2 ^ 64 ≤ 2 ^ (shift + 7) := Nat.pow_le_pow_right (by omega) (by omega)
        have hmul : 128 * 2 ^ shift ≤ n * 2 ^ shift := Nat.mul_le_mul_right _ (by omega)
        omega
      have hnext := toNat_or_bits (UInt8.ofNat (n % 128 + 128)) hacc (by rw [hlow]; omega) hshift
      rw [hlow] at hnext
      simp only [cons_append, decode_varint_loop, hgo, if_true]
      rw [show UInt64.ofNat shift + 7 = UInt64.ofNat (shift + 7) by simp,
        ih (rest_fits hfuel) (by rw [hnext]; omega) (by omega) hroom, hnext]
      omega

theorem encode_varint_bound (v : UInt64) : v.toNat < 128 ^ (9 + 1) :=
  lt_of_lt_of_le v.toNat_lt (by decide)

@[simp]
theorem decode_varint_encode (v : UInt64) (post : Bytes) :
    decode_varint (encode_varint v ++ post) = v := by
  have h : (decode_varint_loop (encode_varint_loop 10 v.toNat ++ post) (UInt64.ofNat 0) 0).toNat
      = (0 : UInt64).toNat + v.toNat * 2 ^ 0 :=
    decode_encoded post (encode_varint_bound v) (by simp) (by simpa using v.toNat_lt) (by omega)
  rw [← UInt64.toNat_inj]
  simpa [decode_varint, encode_varint] using h

theorem takeWhile_encode (v : UInt64) (post : Bytes) :
    ((encode_varint v ++ post).takeWhile continues).length + 1 = (encode_varint v).length :=
  takeWhile_encoded post (encode_varint_bound v)

theorem varint_len_encode (v : UInt64) (post : Bytes) :
    (decode_varint_with_len (encode_varint v ++ post)).2 = (encode_varint v).length := by
  have h := takeWhile_encode v post
  simp only [decode_varint_with_len, length_append]
  omega

/-! ## Fields the scan steps over -/

/-- The scan comes from the first byte of the field to the first byte behind it. -/
def Skipped (field : Bytes) : Prop :=
  ∀ pre post : Bytes, (pre ++ (field ++ post)).length < 2 ^ 63 → field ≠ [] →
    scan_step (pre ++ (field ++ post)) pre.length = .next (pre.length + field.length)

section

variable {tag : UInt8} (hother : tag >>> 3 ≠ 9)
include hother

theorem scan_step_at (pre rest : Bytes) :
    scan_step (pre ++ tag :: rest) pre.length = match (tag &&& 0x07).toNat with
      | 0 => .next (pre.length + 1 + (rest.takeWhile continues).length + 1)
      | 1 => .next (pre.length + 1 + 8)
      | 2 => .next ((pre.length + 1 +
          ((decode_varint_with_len rest).2 + (decode_varint_with_len rest).1.toNat)) % 2 ^ 64)
      | 5 => .next (pre.length + 1 + 4)
      | _ => .stop := by
  have htag : (pre ++ tag :: rest).getD pre.length 0 = tag := by simp
  have hrest : (pre ++ tag :: rest).drop (pre.length + 1) = rest := by
    rw [← singleton_append, ← append_assoc]
    exact drop_left' (by simp)
  simp only [scan_step, htag, hother, false_and, if_false, hrest] <;> rfl

theorem skipped_varint (hwire : tag &&& 0x07 = 0) (v : UInt64) : Skipped (varint_field [tag] v) := by
  intro pre post _ hne
  unfold varint_field at hne ⊢
  split_ifs at hne ⊢
  · exact absurd rfl hne
  · have hlen := takeWhile_encode v post
    rw [singleton_append, cons_append, scan_step_at hother, hwire]
    simp only [UInt8.toNat_zero, length_cons, ScanStep.next.injEq]
    omega

theorem skipped_string (hwire : tag &&& 0x07 = 2) (text : String) :
    Skipped (string_field [tag] text) := by
  intro pre post hbound hne
  unfold string_field at hne hbound ⊢
  split_ifs at hne hbound ⊢
  · exact absurd rfl hne
  · generalize as_bytes text = body at hbound ⊢
    simp only [length_append, length_singleton] at hbound
    have hlen : (UInt64.ofNat body.length).toNat = body.length := by
      simp only [UInt64.toNat_ofNat']
      omega
    simp only [cons_append, nil_append, append_assoc]
    rw [scan_step_at hother, hwire, varint_len_encode]
    simp only [decode_varint_with_len, decode_varint_encode, hlen, length_cons,
      length_append, show UInt8.toNat 2 = 2 from rfl, ScanStep.next.injEq]
    omega

theorem skipped_double (hwire : tag &&& 0x07 = 1) (bits : UInt64) :
    Skipped (double_field [tag] bits) := by
  intro pre post _ hne
  unfold double_field at hne ⊢
  split_ifs at hne ⊢
  · exact absurd rfl hne
  · rw [singleton_append, cons_append, scan_step_at hother, hwire]
    simp

end

theorem scan_skips {fields : List Bytes} (hskip : ∀ f ∈ fields, Skipped f) {bytes pre post : Bytes}
    (hbytes : bytes = pre ++ (fields.flatten ++ post)) (hbound : bytes.length < 2 ^ 63)
    (hfuel : bytes.length < pre.length + fuel) :
    ∃ fuel', bytes.length < (pre ++ fields.flatten).length + fuel' ∧
      scan_fields bytes fuel pre.length = scan_fields bytes fuel' (pre ++ fields.flatten).length := by
  induction fields generalizing pre fuel with
  | nil => exact ⟨fuel, by simpa using hfuel, by simp⟩
  | cons f fields ih =>
    have hrest : ∀ g ∈ fields, Skipped g := fun g hg => hskip g (by simp [hg])
    have hbytes' : bytes = (pre ++ f) ++ (fields.flatten ++ post) := by simp [hbytes]
    have happend : pre ++ (f :: fields).flatten = (pre ++ f) ++ fields.flatten := by simp
    rw [happend]
    by_cases hempty : f = []
    · subst hempty
      simpa using ih hrest hbytes' (by simpa using hfuel)
    · have hpos := length_pos_iff.mpr hempty
      have hlen := congrArg length hbytes'
      simp only [length_append] at hlen
      -- A turn is taken, and the field has at least the byte it is taken for.
      obtain ⟨fuel, rfl⟩ : ∃ k, fuel = k + 1 := ⟨fuel - 1, by omega⟩
      have hstep : scan_step bytes pre.length = .next (pre ++ f).length := by
        have h := hskip f (by simp) pre (fields.flatten ++ post)
        rw [show pre ++ (f ++ (fields.flatten ++ post)) = bytes by simp [hbytes]] at h
        rw [h hbound hempty, length_append]
      rw [scan_fields, if_pos (by omega), hstep]
      exact ih hrest hbytes' (by rw [length_append]; omega)

theorem scan_at_end (bytes : Bytes) (fuel : ℕ) :
    scan_fields bytes fuel bytes.length = .not_found := by
  cases fuel <;> simp [scan_fields]

/-! ## What the fallback takes for a version -/

theorem after_first_eq_some {pattern text rest : List Char} :
    after_first pattern text = some rest ↔ ∃ before, text = before ++ (pattern ++ rest) ∧
        ∀ k < before.length, ¬ pattern <+: text.drop k := by
  induction text with
  | nil =>
    by_cases hpattern : pattern = []
    · simp [after_first, hpattern, eq_comm]
    · simp [after_first, hpattern]
  | cons c text ih =>
    rw [after_first]
    split_ifs with hhead
    · -- It stands here, so nothing comes before it.
      obtain ⟨tail, htail⟩ := List.isPrefixOf_iff_prefix.mp hhead
      rw [← htail, some.injEq]
      constructor
      · rintro rfl
        exact ⟨[], by simp, by simp⟩
      · rintro ⟨before, heq, hfirst⟩
        cases before with
        | nil => simpa using heq
        | cons d before => exact absurd (by simp) (hfirst 0 (by simp))
    · rw [ih]
      constructor
      · rintro ⟨before, rfl, hfirst⟩
        refine ⟨c :: before, rfl, fun k hk => ?_⟩
        cases k with
        | zero => simpa using hhead
        | succ k => exact hfirst k (by simpa using hk)
      · rintro ⟨before, heq, hfirst⟩
        cases before with
        | nil => exact absurd (List.isPrefixOf_iff_prefix.mpr ⟨rest, heq.symm⟩) hhead
        | cons d before =>
          obtain ⟨-, rfl⟩ := cons.inj heq
          exact ⟨before, rfl, fun k hk => hfirst (k + 1) (by simpa using hk)⟩

/-- The text spells `"version"`, a colon and, after white space, the digits of `v`; what comes between
the word and the colon does not matter. -/
def Spells (text : List Char) (v : UInt32) : Prop :=
  ∃ before gap number, text = before ++ ("\"version\"".toList ++ (gap ++ ([':'] ++ number))) ∧
    (∀ k < before.length, ¬ "\"version\"".toList <+: text.drop k) ∧ ':' ∉ gap ∧
    parse_u32 ((number.dropWhile is_whitespace).takeWhile Char.isDigit) = some v

theorem json_version_eq_some {text : String} {v : UInt32} :
    json_version text = some v ↔ Spells text.toList v := by
  have hcolon : ∀ gap number : List Char,
      (∀ k < gap.length, ¬ [':'] <+: (gap ++ ([':'] ++ number)).drop k) ↔ ':' ∉ gap := by
    intro gap number
    simp only [mem_iff_getElem, not_exists]
    refine forall_congr' fun k => forall_congr' fun hk => not_congr ?_
    rw [drop_append_of_le_length hk.le, drop_eq_getElem_cons hk, cons_append,
      cons_prefix_cons]
    simp [eq_comm]
  simp only [json_version, bind_eq_bind, bind_eq_some_iff, after_first_eq_some, Spells]
  constructor
  · rintro ⟨after, ⟨before, htext, hfirst⟩, number, ⟨gap, rfl, hgap⟩, hparse⟩
    exact ⟨before, gap, number, htext, hfirst, (hcolon gap number).mp hgap, hparse⟩
  · rintro ⟨before, gap, number, htext, hfirst, hgap, hparse⟩
    exact ⟨_, ⟨before, htext, hfirst⟩, number, ⟨gap, rfl, (hcolon gap number).mpr hgap⟩, hparse⟩

/-! ## The version of a message -/

theorem int32_bits_toUInt32 (v : Int32) : (int32_bits v).toUInt32 = v.toUInt32 := by
  apply UInt32.toBitVec_inj.mp
  simp only [int32_bits, UInt64.toBitVec_toUInt32, Int64.toBitVec_toUInt64, Int32.toBitVec_toInt64,
    Int32.toBitVec_toUInt32]
  ext i hi
  rw [BitVec.getElem_setWidth, BitVec.getLsbD_signExtend]
  simp [hi]
  omega

theorem int32_bits_eq_zero {v : Int32} : int32_bits v = 0 ↔ v = 0 := by
  constructor
  · intro h
    have hv := int32_bits_toUInt32 v
    rw [h] at hv
    exact congrArg Int32.ofUInt32 hv.symm
  · rintro rfl
    rfl

variable {m : FileMetadata}

theorem before_skipped : ∀ f ∈ m.before, Skipped f := by
  simp only [FileMetadata.before, forall_mem_cons]
  exact ⟨skipped_string (by decide) rfl _, skipped_varint (by decide) rfl _,
    skipped_string (by decide) rfl _, skipped_string (by decide) rfl _,
    skipped_string (by decide) rfl _, skipped_string (by decide) rfl _, by simp⟩

theorem after_skipped : ∀ f ∈ m.after, Skipped f := by
  simp only [FileMetadata.after, forall_mem_cons]
  exact ⟨skipped_string (by decide) rfl _, skipped_string (by decide) rfl _,
    skipped_varint (by decide) rfl _, skipped_string (by decide) rfl _,
    skipped_double (by decide) rfl _, by simp⟩

theorem extract_written (hbound : m.encode.length < 2 ^ 63) (hversion : m.version ≠ 0) :
    extract_version m.encode = some m.version.toUInt32 := by
  have hbits : int32_bits m.version ≠ 0 := fun h => hversion (int32_bits_eq_zero.mp h)
  obtain ⟨rest, hrest⟩ : ∃ rest, rest = m.after.flatten ++ m.late.flatten := ⟨_, rfl⟩
  have hencode : m.encode = [] ++ (m.before.flatten ++
      ([0x48] ++ (encode_varint (int32_bits m.version) ++ rest))) := by
    simp [FileMetadata.encode, varint_field, hbits, hrest]
  obtain ⟨fuel, hfuel, hscan⟩ := scan_skips before_skipped hencode hbound
    (show m.encode.length < ([] : Bytes).length + (m.encode.length + 1) by simp)
  have hpos : 0 < (encode_varint (int32_bits m.version)).length := by
    rw [← takeWhile_encode _ []]
    omega
  have hlen := congrArg length hencode
  simp only [length_append, length_nil, length_singleton] at hlen hfuel hscan
  obtain ⟨fuel, rfl⟩ : ∃ k, fuel = k + 1 := ⟨fuel - 1, by omega⟩
  have htag : m.encode.getD m.before.flatten.length 0 = 0x48 := by
    rw [hencode]
    simp
  have hdrop : m.encode.drop (m.before.flatten.length + 1)
      = encode_varint (int32_bits m.version) ++ rest := by
    rw [hencode, nil_append, ← append_assoc]
    exact drop_left' (by simp)
  have hstep : scan_step m.encode m.before.flatten.length = .found m.version.toUInt32 := by
    simp only [scan_step, htag, hdrop, decode_varint_encode, int32_bits_toUInt32]
    rw [if_pos ⟨rfl, rfl, by omega⟩]
  unfold extract_version
  rw [hscan, Nat.zero_add, scan_fields, if_pos (by omega), hstep]

theorem extract_omitted (hbound : m.encode.length < 2 ^ 63) (hversion : m.version = 0)
    (hlate : m.late.flatten = []) :
    extract_version m.encode = some (((from_utf8 m.encode).bind json_version).getD 0) := by
  have hencode : m.encode = [] ++ ((m.before ++ m.after).flatten ++ []) := by
    simp [FileMetadata.encode, varint_field, hlate, hversion, int32_bits_eq_zero.mpr]
  obtain ⟨fuel, -, hscan⟩ := scan_skips
    (fun f hf => (mem_append.mp hf).elim (before_skipped f) (after_skipped f)) hencode hbound
    (show m.encode.length < ([] : Bytes).length + (m.encode.length + 1) by simp)
  rw [append_nil] at hencode
  rw [← hencode, scan_at_end] at hscan
  unfold extract_version
  rw [← length_nil (α := UInt8), hscan]

/-! ## Compare-and-swap on a row -/

/-- What the schema says of the row: its version is read back, and a `CasSetMetadata` on it gets past
the version exactly when that is the one it expects. It then succeeds if a managed key still gets a
revision. -/
structure AgreesWithSchema (m : FileMetadata) : Prop where
  extracted : extract_version m.encode = some m.version.toUInt32
  cas : ∀ (s : Store) (key : String) (value : Bytes) (expected_version : UInt32),
    s.metadata.get key = some m.encode →
      ((∃ current s', cas_set_metadata s key value expected_version
          = .ok (.CasResult true current, s')) ↔
        m.version.toUInt32 = expected_version ∧ ∃ b s', refresh_tracked_version s key = .ok (b, s'))

theorem cas_succeeds_iff {s : Store} {key : String} {value : Bytes}
    {expected_version version : UInt32} (hversion : current_version s key = .ok version) :
    (∃ current s', cas_set_metadata s key value expected_version
        = .ok (.CasResult true current, s')) ↔
      version = expected_version ∧ ∃ b s', refresh_tracked_version s key = .ok (b, s') := by
  simp only [cas_success_iff, hversion, Except.ok.injEq]
  constructor
  · rintro ⟨current, hexpected, -, hrefresh⟩
    exact ⟨hexpected, hrefresh⟩
  · rintro ⟨hexpected, hrefresh⟩
    exact ⟨expected_version + 1, hexpected, rfl, hrefresh⟩

variable {m : FileMetadata}

theorem agreesWithSchema_iff :
    AgreesWithSchema m ↔ extract_version m.encode = some m.version.toUInt32 := by
  refine ⟨AgreesWithSchema.extracted, fun h => ⟨h, fun s key value expected_version hrow => ?_⟩⟩
  exact cas_succeeds_iff (by simp [current_version, hrow, h])

/-- Fields 16 to 19, the ones with a tag of two bytes, have their defaults. -/
def FileMetadata.LateDefault (m : FileMetadata) : Prop :=
  m.last_writer_address = "" ∧ m.link_target = "" ∧ m.gen = 0 ∧ m.target_subtree = ""

/-- As a text, the message does not spell a version other than 0. -/
def FileMetadata.SpellsNoVersion (m : FileMetadata) : Prop :=
  ∀ text v, from_utf8 m.encode = some text → Spells text.toList v → v = 0

theorem late_eq_nil (h : m.LateDefault) : m.late.flatten = [] := by
  obtain ⟨haddress, htarget, hgen, hsubtree⟩ := h
  simp [FileMetadata.late, string_field, varint_field, haddress, htarget, hgen, hsubtree]

theorem fallback_eq_zero :
    ((from_utf8 m.encode).bind json_version).getD 0 = 0 ↔ m.SpellsNoVersion := by
  unfold FileMetadata.SpellsNoVersion
  simp only [← json_version_eq_some]
  cases hspelled : (from_utf8 m.encode).bind json_version with
  | none =>
    simp only [getD_none, true_iff]
    intro text v htext hversion
    simp [htext, hversion] at hspelled
  | some v =>
    obtain ⟨text, htext, hversion⟩ := bind_eq_some_iff.mp hspelled
    simp only [htext, getD_some, some.injEq]
    constructor
    · rintro hv _ v' rfl hv'
      rw [hversion, some.injEq] at hv'
      rw [← hv', hv]
    · intro h
      exact h text v rfl hversion

/-- The scan agrees with the schema on every message with a version. On one without, it does if the
late fields have their defaults and the text does not spell a version; where they have, it does not
otherwise. A key without a row has version 0. -/
theorem scan_agrees_with_schema (m : FileMetadata) (hbound : m.encode.length < 2 ^ 63) :
    (m.version ≠ 0 ∨ m.LateDefault ∧ m.SpellsNoVersion → AgreesWithSchema m) ∧
      (m.LateDefault → AgreesWithSchema m → m.version ≠ 0 ∨ m.SpellsNoVersion) ∧
      ∀ (s : Store) (key : String) (value : Bytes) (expected_version : UInt32),
        s.metadata.get key = none →
          ((∃ current s', cas_set_metadata s key value expected_version
              = .ok (.CasResult true current, s')) ↔
            0 = expected_version ∧ ∃ b s', refresh_tracked_version s key = .ok (b, s')) := by
  have hzero : m.version = 0 → m.LateDefault → (AgreesWithSchema m ↔ m.SpellsNoVersion) := by
    intro hversion hlate
    rw [agreesWithSchema_iff, extract_omitted hbound hversion (late_eq_nil hlate), some.injEq,
      hversion]
    exact fallback_eq_zero
  refine ⟨?_, ?_, ?_⟩
  · intro hcond
    by_cases hversion : m.version = 0
    · obtain ⟨hlate, hspells⟩ := hcond.resolve_left (not_not.mpr hversion)
      exact (hzero hversion hlate).mpr hspells
    · exact agreesWithSchema_iff.mpr (extract_written hbound hversion)
  · intro hlate hagrees
    by_cases hversion : m.version = 0
    · exact .inr ((hzero hversion hlate).mp hagrees)
    · exact .inl hversion
  · intro s key value expected_version habsent
    exact cas_succeeds_iff (by simp [current_version, habsent])

/-- A message with a path, a writer, a negative version and nothing spelled. -/
theorem scan_agrees_with_schema_negative :
    AgreesWithSchema { path := "/a", last_writer_address := "Host:2126", version := -3 } :=
  (scan_agrees_with_schema _ (by decide +kernel)).1 (.inl (by decide))

/-- The address of the last writer is taken for a version, and so is a path. -/
theorem address_and_path_read_as_version :
    ¬ AgreesWithSchema { path := "/a", last_writer_address := "Host:2126" } ∧
      ¬ AgreesWithSchema { path := "/\"version\":7" } := by
  simp only [agreesWithSchema_iff]
  decide +kernel

end NexusVfs.ExtractVersion
