/-
`FullStateMachine::extract_version`: the version a compare-and-swap reads out of a
stored image.

The scan advances by `consumed + len as usize` in wrapping arithmetic, so a length close
to `2^64` moves it backwards. A scan of more steps than there are positions never ends;
that is the case `none` stands for.
-/
import NexusVfs.Command

namespace NexusVfs.ExtractVersion

open Words Text

/-! ## Varints -/

def continues (byte : UInt8) : Bool := byte &&& 0x80 != 0

/-- `result |= ((byte & 0x7F) as u64) << shift`; the shift amount wraps at 64. -/
def decode_varint_loop : Bytes → UInt64 → UInt64 → UInt64
  | [], _, result => result
  | byte :: bytes, shift, result =>
    let result := result ||| ((byte &&& 0x7F).toUInt64 <<< shift)
    if continues byte then decode_varint_loop bytes (shift + 7) result else result

def decode_varint (bytes : Bytes) : UInt64 := decode_varint_loop bytes 0 0

def decode_varint_with_len (bytes : Bytes) : UInt64 × ℕ :=
  (decode_varint bytes, min bytes.length ((bytes.takeWhile continues).length + 1))

/-! ## The field scan -/

inductive ScanStep where
  | found (version : UInt32)
  | next (position : ℕ)
  | stop

/-- One turn of `while i < bytes.len()`, at a position inside the image. -/
def scan_step (bytes : Bytes) (i : ℕ) : ScanStep :=
  let tag_byte := bytes.getD i 0
  let field_number := tag_byte >>> 3
  let wire_type := tag_byte &&& 0x07
  if field_number = 9 ∧ wire_type = 0 ∧ i + 1 < bytes.length then
    .found (decode_varint (bytes.drop (i + 1))).toUInt32
  else
    -- A version tag on the last byte has moved the position once already.
    let i := if field_number = 9 ∧ wire_type = 0 then i + 2 else i + 1
    match wire_type.toNat with
    | 0 => .next (i + ((bytes.drop i).takeWhile continues).length + 1)
    | 1 => .next (i + 8)
    | 2 =>
      let (len, consumed) := decode_varint_with_len (bytes.drop i)
      .next ((i + (consumed + len.toNat)) % 2 ^ 64)
    | 5 => .next (i + 4)
    | _ => .stop

inductive ScanResult where
  | found (version : UInt32)
  | not_found
  | never_ends

def scan_fields (bytes : Bytes) : ℕ → ℕ → ScanResult
  | 0, i => if i < bytes.length then .never_ends else .not_found
  | fuel + 1, i =>
    if i < bytes.length then
      match scan_step bytes i with
      | .found v => .found v
      | .next j => scan_fields bytes fuel j
      | .stop => .not_found
    else .not_found

/-! ## The JSON fallback -/

def is_whitespace (c : Char) : Bool :=
  let n := c.toNat
  (0x09 ≤ n && n ≤ 0x0d) || n == 0x20 || n == 0x85 || n == 0xa0 || n == 0x1680 ||
    (0x2000 ≤ n && n ≤ 0x200a) || n == 0x2028 || n == 0x2029 || n == 0x202f || n == 0x205f ||
    n == 0x3000

/-- What follows the first occurrence of `pattern`. -/
def after_first (pattern : List Char) : List Char → Option (List Char)
  | [] => if pattern = [] then some [] else none
  | c :: cs =>
    if pattern.isPrefixOf (c :: cs) then some ((c :: cs).drop pattern.length)
    else after_first pattern cs

/-- `str::parse::<u32>` on a run of ASCII digits. -/
def parse_u32 (digits : List Char) : Option UInt32 :=
  let n := Nat.ofDigitChars 10 digits 0
  if digits ≠ [] ∧ n < 2 ^ 32 then some (UInt32.ofNat n) else none

def json_version (text : String) : Option UInt32 := do
  let after ← after_first "\"version\"".toList text.toList
  let number ← after_first [':'] after
  parse_u32 ((number.dropWhile is_whitespace).takeWhile Char.isDigit)

/-! ## The version -/

/-- `none` where the field scan never ends. -/
def extract_version (bytes : Bytes) : Option UInt32 :=
  match scan_fields bytes (bytes.length + 1) 0 with
  | .found v => some v
  | .never_ends => none
  | .not_found => some (((from_utf8 bytes).bind json_version).getD 0)

example : extract_version [0x0a, 0x02, 0x41, 0x42, 0x48, 0x07] = some 7 := by decide

example : extract_version (as_bytes "\x7b\"version\": 12\x7d") = some 12 := by decide +kernel

-- A field of length `2^64 - 11`: the scan returns to the byte it started from.
example : extract_version
    [0x0a, 0xf5, 0xff, 0xff, 0xff, 0xff, 0xff, 0xff, 0xff, 0xff, 0x01] = none := by decide +kernel

end NexusVfs.ExtractVersion
