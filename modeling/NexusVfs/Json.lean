/-
JSON values, their compact text, and a reader that inverts it.

`text` prints a value as `serde_json` does. A fraction keeps the text it was written
with. `parse` reads back what `text` prints and nothing more lenient: it shows that the
text determines the value.
-/
import NexusVfs.Text

namespace NexusVfs.Json

open Option List Text Words

/-! ## Values -/

/-- `NegInt n` is the number `-(n + 1)`. -/
inductive Value where
  | Null
  | Boolean (b : Bool)
  | PosInt (n : ℕ)
  | NegInt (n : ℕ)
  | Float (text : String)
  | Str (s : String)
  | Arr (items : List Value)
  | Obj (fields : List (String × Value))

namespace Value

def get (v : Value) (key : String) : Option Value :=
  match v with
  | .Obj fields => fields.lookup key
  | _ => none

def as_str : Value → Option String
  | .Str s => some s
  | _ => none

def as_array : Value → Option (List Value)
  | .Arr items => some items
  | _ => none

def as_bool : Value → Option Bool
  | .Boolean b => some b
  | _ => none

def as_u64 : Value → Option ℕ
  | .PosInt n => some n
  | _ => none

def as_i64 : Value → Option ℤ
  | .PosInt n => if n < 2 ^ 63 then some n else none
  | .NegInt n => some (-(n + 1))
  | _ => none

end Value

/-! ## Printing -/

def digits (n : ℕ) : List Char := Nat.toDigits 10 n

def escape (c : Char) : List Char :=
  if c = '"' then ['\\', '"']
  else if c = '\\' then ['\\', '\\']
  else if c = '\x08' then ['\\', 'b']
  else if c = '\x0c' then ['\\', 'f']
  else if c = '\n' then ['\\', 'n']
  else if c = '\r' then ['\\', 'r']
  else if c = '\t' then ['\\', 't']
  else if c.toNat < 32 then
    ['\\', 'u', '0', '0', Nat.digitChar (c.toNat / 16), Nat.digitChar (c.toNat % 16)]
  else [c]

def quoted (s : String) : List Char := '"' :: s.toList.flatMap escape ++ ['"']

def comma (first : Bool) : List Char := if first then [] else [',']

mutual

def text : Value → List Char
  | .Null => "null".toList
  | .Boolean true => "true".toList
  | .Boolean false => "false".toList
  | .PosInt n => digits n
  | .NegInt n => '-' :: digits (n + 1)
  | .Float t => t.toList
  | .Str s => quoted s
  | .Arr items => '[' :: items_text true items
  | .Obj fields => '\x7b' :: fields_text true fields

def items_text (first : Bool) : List Value → List Char
  | [] => [']']
  | v :: items => comma first ++ text v ++ items_text false items

def fields_text (first : Bool) : List (String × Value) → List Char
  | [] => ['\x7d']
  | field :: fields => comma first ++ field_text field ++ fields_text false fields

def field_text : String × Value → List Char
  | (key, v) => quoted key ++ ':' :: text v

end

def to_vec (v : Value) : Bytes := as_bytes (String.ofList (text v))

theorem head_to_vec_obj (fields : List (String × Value)) :
    (to_vec (.Obj fields)).head? = some 0x7b := by
  rw [to_vec, text, as_bytes_ofList]
  rfl

/-! ## Reading -/

def parse_digits : ℕ → List Char → ℕ × List Char
  | n, [] => (n, [])
  | n, c :: rest =>
    if c.isDigit then parse_digits (10 * n + (c.toNat - '0'.toNat)) rest else (n, c :: rest)

def unescape (c : Char) : Option Char :=
  [('"', '"'), ('\\', '\\'), ('b', '\x08'), ('f', '\x0c'), ('n', '\n'), ('r', '\r'),
    ('t', '\t')].lookup c

def hex_value (c : Char) : ℕ := if c.isDigit then c.toNat - 48 else c.toNat - 87

def parse_string : List Char → Option (List Char × List Char)
  | [] => none
  | '"' :: rest => some ([], rest)
  | '\\' :: 'u' :: '0' :: '0' :: a :: b :: rest =>
    (parse_string rest).map fun p => (Char.ofNat (16 * hex_value a + hex_value b) :: p.1, p.2)
  | '\\' :: c :: rest =>
    (unescape c).bind fun c' => (parse_string rest).map fun p => (c' :: p.1, p.2)
  | c :: rest => (parse_string rest).map fun p => (c :: p.1, p.2)

def parse_key : List Char → Option (String × List Char)
  | '"' :: rest =>
    match parse_string rest with
    | some (key, ':' :: rest) => some (String.ofList key, rest)
    | _ => none
  | _ => none

def skip_comma (first : Bool) (cs : List Char) : Option (List Char) :=
  if first then some cs
  else
    match cs with
    | ',' :: rest => some rest
    | _ => none

mutual

/-- `fuel` bounds the depth of the recursion; twice the length of the text is enough. -/
def parse : ℕ → List Char → Option (Value × List Char)
  | 0, _ => none
  | fuel + 1, cs =>
    match cs with
    | 'n' :: 'u' :: 'l' :: 'l' :: rest => some (.Null, rest)
    | 't' :: 'r' :: 'u' :: 'e' :: rest => some (.Boolean true, rest)
    | 'f' :: 'a' :: 'l' :: 's' :: 'e' :: rest => some (.Boolean false, rest)
    | '-' :: rest =>
      let p := parse_digits 0 rest
      some (.NegInt (p.1 - 1), p.2)
    | '"' :: rest => (parse_string rest).map fun p => (.Str (String.ofList p.1), p.2)
    | '[' :: rest => (parse_items fuel true rest).map fun p => (.Arr p.1, p.2)
    | '\x7b' :: rest => (parse_fields fuel true rest).map fun p => (.Obj p.1, p.2)
    | c :: rest =>
      if c.isDigit then
        let p := parse_digits 0 (c :: rest)
        some (.PosInt p.1, p.2)
      else none
    | [] => none

def parse_items : ℕ → Bool → List Char → Option (List Value × List Char)
  | 0, _, _ => none
  | fuel + 1, first, cs =>
    match cs with
    | ']' :: rest => some ([], rest)
    | cs =>
      (skip_comma first cs).bind fun cs =>
        (parse fuel cs).bind fun p =>
          (parse_items fuel false p.2).map fun q => (p.1 :: q.1, q.2)

def parse_fields : ℕ → Bool → List Char → Option (List (String × Value) × List Char)
  | 0, _, _ => none
  | fuel + 1, first, cs =>
    match cs with
    | '\x7d' :: rest => some ([], rest)
    | cs =>
      (skip_comma first cs).bind fun cs =>
        (parse_key cs).bind fun key =>
          (parse fuel key.2).bind fun p =>
            (parse_fields fuel false p.2).map fun q => ((key.1, p.1) :: q.1, q.2)

end

def from_slice (bs : Bytes) : Except String Value :=
  match from_utf8 bs with
  | none => .error "invalid UTF-8"
  | some s =>
    match parse (2 * s.toList.length) s.toList with
    | some (v, []) => .ok v
    | _ => .error "not a compact JSON text"

/-! ## Reading undoes printing -/

/-- The rest after a number must not go on with a digit. -/
def NoDigit (rest : List Char) : Prop := ∀ c ∈ rest.head?, c.isDigit = false

variable {c : Char}

theorem noDigit_cons (rest : List Char) (h : c.isDigit = false) : NoDigit (c :: rest) := by
  rintro _ ⟨⟩
  exact h

theorem parse_digits_append {ds rest : List Char} (hds : ∀ c ∈ ds, c.isDigit = true)
    (hrest : NoDigit rest) (n : ℕ) :
    parse_digits n (ds ++ rest) = (Nat.ofDigitChars 10 ds n, rest) := by
  induction ds generalizing n with
  | nil =>
    cases rest with
    | nil => rfl
    | cons c rest =>
      have hc := hrest c rfl
      simp [parse_digits, hc]
  | cons d ds ih =>
    have hd := hds d mem_cons_self
    have hrest := ih (fun c hc => hds c (mem_cons_of_mem d hc))
    simp [parse_digits, hd, hrest, Nat.ofDigitChars]

theorem isDigit_of_mem_digits {n : ℕ} (h : c ∈ digits n) : c.isDigit = true :=
  Nat.isDigit_of_mem_toDigits (by decide) (by decide) h

theorem parse_digits_digits (n : ℕ) {rest : List Char} (hrest : NoDigit rest) :
    parse_digits 0 (digits n ++ rest) = (n, rest) := by
  rw [parse_digits_append (fun c hc => isDigit_of_mem_digits hc) hrest, digits,
    Nat.ofDigitChars_toDigits (by decide) (by decide)]

theorem digits_eq_cons (n : ℕ) : ∃ d ds, digits n = d :: ds ∧ d.isDigit = true := by
  cases h : digits n with
  | nil => exact absurd h Nat.toDigits_ne_nil
  | cons d ds =>
    refine ⟨d, ds, rfl, isDigit_of_mem_digits (n := n) ?_⟩
    rw [h]
    exact mem_cons_self

theorem hex_value_digitChar : ∀ d < 16, hex_value (Nat.digitChar d) = d := by decide

theorem parse_string_escape (c : Char) (rest : List Char) :
    parse_string (escape c ++ rest) = (parse_string rest).map fun p => (c :: p.1, p.2) := by
  unfold escape
  split_ifs with h₁ h₂ h₃ h₄ h₅ h₆ h₇ h₈
  · subst h₁; rfl
  · subst h₂; rfl
  · subst h₃; rfl
  · subst h₄; rfl
  · subst h₅; rfl
  · subst h₆; rfl
  · subst h₇; rfl
  · have ha := hex_value_digitChar (c.toNat / 16) (by omega)
    have hb := hex_value_digitChar (c.toNat % 16) (by omega)
    have hc : 16 * (c.toNat / 16) + c.toNat % 16 = c.toNat := by omega
    simp only [cons_append, nil_append, parse_string, ha, hb, hc, Char.ofNat_toNat]
  · rw [singleton_append, parse_string.eq_def]
    split <;> simp_all

theorem parse_string_quoted (cs rest : List Char) :
    parse_string (cs.flatMap escape ++ '"' :: rest) = some (cs, rest) := by
  induction cs with
  | nil => rfl
  | cons c cs ih =>
    rw [flatMap_cons, append_assoc, parse_string_escape, ih]
    rfl

theorem quoted_append (s : String) (rest : List Char) :
    quoted s ++ rest = '"' :: (s.toList.flatMap escape ++ '"' :: rest) := by
  simp [quoted]

theorem parse_key_quoted (key : String) (rest : List Char) :
    parse_key (quoted key ++ ':' :: rest) = some (key, rest) := by
  rw [quoted_append, parse_key, parse_string_quoted]
  simp

theorem skip_comma_comma (first : Bool) (cs : List Char) :
    skip_comma first (comma first ++ cs) = some cs := by
  cases first <;> rfl

mutual

/-- Without fractions. -/
def plain : Value → Bool
  | .Float _ => false
  | .Arr items => plain_items items
  | .Obj fields => plain_fields fields
  | _ => true

def plain_items : List Value → Bool
  | [] => true
  | v :: items => plain v && plain_items items

def plain_fields : List (String × Value) → Bool
  | [] => true
  | field :: fields => plain_field field && plain_fields fields

def plain_field : String × Value → Bool
  | (_, v) => plain v

end

theorem items_text_head (items : List Value) (rest : List Char) :
    NoDigit (items_text false items ++ rest) := by
  cases items with
  | nil | cons v items => exact noDigit_cons _ (by decide)

theorem fields_text_head (fields : List (String × Value)) (rest : List Char) :
    NoDigit (fields_text false fields ++ rest) := by
  cases fields with
  | nil | cons field fields => exact noDigit_cons _ (by decide)

theorem text_eq_cons (v : Value) (h : plain v = true) : ∃ c cs, text v = c :: cs ∧ c ≠ ']' := by
  cases v with
  | Null | NegInt n | Str s | Arr items | Obj fields => exact ⟨_, _, rfl, by decide⟩
  | Boolean b => cases b <;> exact ⟨_, _, rfl, by decide⟩
  | PosInt n =>
    obtain ⟨d, ds, hds, hd⟩ := digits_eq_cons n
    refine ⟨d, ds, by rw [text, hds], ?_⟩
    rintro rfl
    revert hd
    decide
  | Float t => cases h

theorem parse_of_digit (hc : c.isDigit = true) (fuel : ℕ) (rest : List Char) :
    parse (fuel + 1) (c :: rest) =
      some (.PosInt (parse_digits 0 (c :: rest)).1, (parse_digits 0 (c :: rest)).2) := by
  rw [parse.eq_def]
  dsimp only
  split <;> simp_all

theorem parse_items_of_ne (hc : c ≠ ']') (fuel : ℕ) (first : Bool) (cs : List Char) :
    parse_items (fuel + 1) first (c :: cs) =
      (skip_comma first (c :: cs)).bind fun cs => (parse fuel cs).bind fun p =>
        (parse_items fuel false p.2).map fun q => (p.1 :: q.1, q.2) := by
  rw [parse_items.eq_def]
  split <;> simp_all

theorem parse_fields_of_ne (hc : c ≠ '\x7d') (fuel : ℕ) (first : Bool) (cs : List Char) :
    parse_fields (fuel + 1) first (c :: cs) =
      (skip_comma first (c :: cs)).bind fun cs => (parse_key cs).bind fun key =>
        (parse fuel key.2).bind fun p =>
          (parse_fields fuel false p.2).map fun q => ((key.1, p.1) :: q.1, q.2) := by
  rw [parse_fields.eq_def]
  split <;> simp_all

theorem one_le_items_text (first : Bool) (items : List Value) :
    1 ≤ (items_text first items).length := by
  induction items generalizing first with
  | nil => exact Nat.le_refl 1
  | cons v items ih =>
    have := ih false
    rw [items_text, length_append]
    omega

theorem one_le_fields_text (first : Bool) (fields : List (String × Value)) :
    1 ≤ (fields_text first fields).length := by
  induction fields generalizing first with
  | nil => exact Nat.le_refl 1
  | cons field fields ih =>
    have := ih false
    rw [fields_text, length_append]
    omega

-- The recursion is the one of `text`; twice the length pays for the step into an item, which takes
-- no character.
mutual

theorem parse_text (v : Value) (h : plain v = true) (fuel : ℕ) (rest : List Char)
    (hfuel : 2 * (text v).length ≤ fuel) (hrest : NoDigit rest) :
    parse fuel (text v ++ rest) = some (v, rest) := by
  obtain ⟨c, cs, hcons, -⟩ := text_eq_cons v h
  obtain ⟨fuel, rfl⟩ : ∃ f, fuel = f + 1 := by
    rw [hcons, length_cons] at hfuel
    exact ⟨fuel - 1, by omega⟩
  match v, h with
  | .Null, _ => rfl
  | .Boolean true, _ => rfl
  | .Boolean false, _ => rfl
  | .PosInt n, _ =>
    obtain ⟨d, ds, hds, hd⟩ := digits_eq_cons n
    have hparse := parse_digits_digits n hrest
    rw [hds, cons_append] at hparse
    rw [text, hds, cons_append, parse_of_digit hd, hparse]
  | .NegInt n, _ =>
    rw [text, cons_append, parse, parse_digits_digits (n + 1) hrest]
    rfl
  | .Str s, _ =>
    rw [text, quoted_append, parse, parse_string_quoted]
    simp
  | .Arr items, h =>
    rw [text, length_cons] at hfuel
    rw [text, cons_append, parse, parse_items_text items h true fuel rest (by omega)]
    rfl
  | .Obj fields, h =>
    rw [text, length_cons] at hfuel
    rw [text, cons_append, parse, parse_fields_text fields h true fuel rest (by omega)]
    rfl

theorem parse_items_text (items : List Value) (h : plain_items items = true) (first : Bool)
    (fuel : ℕ) (rest : List Char) (hfuel : 2 * (items_text first items).length ≤ fuel) :
    parse_items fuel first (items_text first items ++ rest) = some (items, rest) := by
  obtain ⟨fuel, rfl⟩ : ∃ f, fuel = f + 1 := by
    have := one_le_items_text first items
    exact ⟨fuel - 1, by omega⟩
  match items, h with
  | [], _ => rfl
  | v :: items, h =>
    rw [plain_items, Bool.and_eq_true] at h
    obtain ⟨c, cs, hcons, hc⟩ := text_eq_cons v h.1
    have hrestlen := one_le_items_text false items
    have hvlen : 1 ≤ (text v).length := by rw [hcons, length_cons]; omega
    rw [items_text, length_append, length_append] at hfuel
    have hv := parse_text v h.1 fuel (items_text false items ++ rest) (by omega)
      (items_text_head items rest)
    have hitems := parse_items_text items h.2 false fuel rest (by omega)
    have hskip := skip_comma_comma first (text v ++ (items_text false items ++ rest))
    obtain ⟨c', cs', hhead, hc'⟩ : ∃ c' cs',
        comma first ++ (text v ++ (items_text false items ++ rest)) = c' :: cs' ∧ c' ≠ ']' := by
      cases first with
      | true => exact ⟨c, _, by rw [hcons]; rfl, hc⟩
      | false => exact ⟨',', _, rfl, by decide⟩
    rw [items_text, append_assoc, append_assoc, hhead, parse_items_of_ne hc', ← hhead,
      hskip, bind_some, hv, bind_some, hitems]
    rfl

theorem parse_fields_text (fields : List (String × Value)) (h : plain_fields fields = true)
    (first : Bool) (fuel : ℕ) (rest : List Char)
    (hfuel : 2 * (fields_text first fields).length ≤ fuel) :
    parse_fields fuel first (fields_text first fields ++ rest) = some (fields, rest) := by
  obtain ⟨fuel, rfl⟩ : ∃ f, fuel = f + 1 := by
    have := one_le_fields_text first fields
    exact ⟨fuel - 1, by omega⟩
  match fields, h with
  | [], _ => rfl
  | (key, v) :: fields, h =>
    rw [plain_fields, Bool.and_eq_true, plain_field] at h
    have hrestlen := one_le_fields_text false fields
    rw [fields_text, field_text, length_append, length_append, length_append,
      length_cons] at hfuel
    have hv := parse_text v h.1 fuel (fields_text false fields ++ rest) (by omega)
      (fields_text_head fields rest)
    have hfields := parse_fields_text fields h.2 false fuel rest (by omega)
    have hkey := parse_key_quoted key (text v ++ (fields_text false fields ++ rest))
    have hskip := skip_comma_comma first
      (quoted key ++ ':' :: (text v ++ (fields_text false fields ++ rest)))
    obtain ⟨c', cs', hhead, hc'⟩ : ∃ c' cs',
        comma first ++ (quoted key ++ ':' :: (text v ++ (fields_text false fields ++ rest))) =
          c' :: cs' ∧ c' ≠ '\x7d' := by
      cases first with
      | true => exact ⟨'"', _, rfl, by decide⟩
      | false => exact ⟨',', _, rfl, by decide⟩
    have hassoc : fields_text first ((key, v) :: fields) ++ rest =
        comma first ++ (quoted key ++ ':' :: (text v ++ (fields_text false fields ++ rest))) := by
      rw [fields_text, field_text]
      simp
    rw [hassoc, hhead, parse_fields_of_ne hc', ← hhead, hskip, bind_some, hkey,
      bind_some, hv, bind_some, hfields]
    rfl

end

theorem from_slice_to_vec {v : Value} (h : plain v = true) : from_slice (to_vec v) = .ok v := by
  have hparse := parse_text v h (2 * (text v).length) [] (Nat.le_refl _) nofun
  rw [append_nil] at hparse
  simp only [from_slice, to_vec, from_utf8_as_bytes, String.toList_ofList, hparse]

/-! ## What is read has no fractions -/

theorem plain_fields_iff {fields : List (String × Value)} :
    plain_fields fields = true ↔ ∀ field ∈ fields, plain field.2 = true := by
  induction fields with
  | nil => simp [plain_fields]
  | cons field fields ih =>
    obtain ⟨key, v⟩ := field
    simp [plain_fields, plain_field, ih]

/-- What one level of the parsers yields, given the level below. -/
theorem plain_parsed (fuel : ℕ) :
    (∀ {cs rest v}, parse fuel cs = some (v, rest) → plain v = true) ∧
      (∀ {first cs rest items}, parse_items fuel first cs = some (items, rest) →
        plain_items items = true) ∧
      ∀ {first cs rest fields}, parse_fields fuel first cs = some (fields, rest) →
        plain_fields fields = true := by
  induction fuel with
  | zero => simp [parse, parse_items, parse_fields]
  | succ fuel ih =>
    obtain ⟨ihv, ihi, ihf⟩ := ih
    refine ⟨fun {cs rest v} h => ?_, fun {first cs rest items} h => ?_,
      fun {first cs rest fields} h => ?_⟩
    · unfold parse at h
      -- only the two brackets need the level below; every other branch yields a leaf
      split at h
      case h_6 =>
        obtain ⟨p, hp, hv⟩ := map_eq_some_iff.mp h
        cases hv
        exact ihi hp
      case h_7 =>
        obtain ⟨p, hp, hv⟩ := map_eq_some_iff.mp h
        cases hv
        exact ihf hp
      case h_5 =>
        obtain ⟨p, hp, hv⟩ := map_eq_some_iff.mp h
        cases hv
        rfl
      case h_8 =>
        split at h
        · cases h
          rfl
        · cases h
      all_goals
        cases h
        try rfl
    · unfold parse_items at h
      split at h
      · cases h
        rfl
      · obtain ⟨cs', -, h⟩ := bind_eq_some_iff.mp h
        obtain ⟨p, hp, h⟩ := bind_eq_some_iff.mp h
        obtain ⟨q, hq, hitems⟩ := map_eq_some_iff.mp h
        cases hitems
        simp [plain_items, ihv hp, ihi hq]
    · unfold parse_fields at h
      split at h
      · cases h
        rfl
      · obtain ⟨cs', -, h⟩ := bind_eq_some_iff.mp h
        obtain ⟨key, -, h⟩ := bind_eq_some_iff.mp h
        obtain ⟨p, hp, h⟩ := bind_eq_some_iff.mp h
        obtain ⟨q, hq, hfields⟩ := map_eq_some_iff.mp h
        cases hfields
        simp [plain_fields, plain_field, ihv hp, ihf hq]

theorem plain_of_from_slice {bs : Bytes} {v : Value} (h : from_slice bs = .ok v) : plain v = true := by
  unfold from_slice at h
  cases hutf : from_utf8 bs with
  | none =>
    rw [hutf] at h
    cases h
  | some s =>
    rw [hutf] at h
    dsimp only at h
    split at h
    · next w hparse =>
        cases h
        exact (plain_parsed _).1 hparse
    · cases h

end NexusVfs.Json
