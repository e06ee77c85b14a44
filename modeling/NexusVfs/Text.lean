/-
The `str` operations the sources use, and the facts about composed keys.

A table key is built by `format!`. What is asked of such strings is whether two can be
equal (`append_slashless_inj`, `padded20_inj`), whether one starts with another
(`startsWith_append`), and where the last delimiter is (`rsplit_once_append`).
-/
import Mathlib.Data.List.DropRight
import Mathlib.Data.List.Infix
import NexusVfs.Words

namespace NexusVfs.Text

open List Words

/-! ## `str` operations -/

def ends_with (s : String) (c : Char) : Bool := s.toList.getLast? == some c

def strip_prefix (s p : String) : Option String :=
  if s.startsWith p then some (String.ofList (s.toList.drop p.toList.length)) else none

def has_suffix (s leaf : String) : Bool := leaf.toList.isSuffixOf s.toList

/-- `str::rsplit_once(char)`: the parts before and after the last occurrence. -/
def rsplit_once (s : String) (c : Char) : Option (String × String) :=
  let tail := (s.toList.reverse.takeWhile (· != c)).reverse
  if c ∈ s.toList then
    some (String.ofList (s.toList.take (s.toList.length - (tail.length + 1))), String.ofList tail)
  else none

/-- `str::split_once(char)`: the parts before and after the first occurrence. -/
def split_once (s : String) (c : Char) : Option (String × String) :=
  let head := s.toList.takeWhile (· != c)
  if c ∈ s.toList then
    some (String.ofList head, String.ofList (s.toList.drop (head.length + 1)))
  else none

def split_chars (c : Char) : List Char → List (List Char)
  | [] => [[]]
  | x :: xs =>
    if x = c then [] :: split_chars c xs
    else
      match split_chars c xs with
      | [] => [[x]]
      | part :: parts => (x :: part) :: parts

/-- `str::split(char)`: one part more than there are occurrences. -/
def split (s : String) (c : Char) : List String := (split_chars c s.toList).map String.ofList

def trim_start_matches (s : String) (c : Char) : String :=
  String.ofList (s.toList.dropWhile (· == c))

def trim_end_matches (s : String) (c : Char) : String :=
  String.ofList (s.toList.reverse.dropWhile (· == c)).reverse

def as_bytes (s : String) : Bytes := s.toUTF8.data.toList

/-- `String::from_utf8`, `None` where the bytes are not valid UTF-8. -/
def from_utf8 (bs : Bytes) : Option String := String.fromUTF8? ⟨bs.toArray⟩

/-- `format!("{n:020}")`. -/
def padded20 (n : ℕ) : String := String.ofList (leftpad 20 '0' (Nat.toDigits 10 n))

/-! ## Bytes of a string -/

@[simp] theorem from_utf8_as_bytes (s : String) : from_utf8 (as_bytes s) = some s := by
  have hv : (⟨(as_bytes s).toArray⟩ : ByteArray) = s.toUTF8 := by
    simp only [as_bytes, Array.toArray_toList]
  rw [from_utf8, hv, String.fromUTF8?, dif_pos (show s.toUTF8.IsValidUTF8 from s.isValidUTF8)]
  rfl

theorem as_bytes_ofList (cs : List Char) :
    as_bytes (String.ofList cs) = cs.flatMap String.utf8EncodeChar := by
  simp [as_bytes, utf8Encode]

def Ascii (cs : List Char) : Prop := ∀ c ∈ cs, c.toNat < 128

instance (cs : List Char) : Decidable (Ascii cs) := List.decidableBAll _ cs

variable {cs xs : List Char} {c : Char} {s t : String}

theorem Ascii.append {ds : List Char} (hcs : Ascii cs) (hds : Ascii ds) : Ascii (cs ++ ds) := by
  intro c hc
  rcases mem_append.mp hc with hc | hc
  · exact hcs c hc
  · exact hds c hc

theorem Ascii.cons (hc : c.toNat < 128) (hcs : Ascii cs) : Ascii (c :: cs) := by
  intro d hd
  rcases mem_cons.mp hd with rfl | hd
  · exact hc
  · exact hcs d hd

theorem utf8EncodeChar_of_lt (h : c.toNat < 128) :
    String.utf8EncodeChar c = [UInt8.ofNat c.toNat] := by
  exact if_pos (Nat.le_of_lt_succ h)

theorem Ascii.length_as_bytes (h : Ascii cs) :
    (as_bytes (String.ofList cs)).length = cs.length := by
  rw [as_bytes_ofList]
  induction cs with
  | nil => rfl
  | cons c cs ih =>
    have hc := utf8EncodeChar_of_lt (h c mem_cons_self)
    have hrest := ih fun d hd => h d (mem_cons_of_mem c hd)
    rw [flatMap_cons, hc, length_append, hrest]
    simp [Nat.add_comm]

theorem length_as_bytes_le (s : String) : (as_bytes s).length ≤ 4 * s.toList.length := by
  rw [← String.ofList_toList (s := s), as_bytes_ofList, String.toList_ofList]
  induction s.toList with
  | nil => simp
  | cons c cs ih =>
    have hc : (String.utf8EncodeChar c).length ≤ 4 := by
      rw [String.length_utf8EncodeChar]
      exact Char.utf8Size_le_four c
    rw [flatMap_cons, length_append, length_cons]
    omega

/-! ## Prefixes -/

/-- Between `l` with `c` and `l` with `c'` lies what goes on from `l` with a character from `c` up
to `c'`. -/
theorem between_iff (l k : List Char) (c c' : Char) :
    (¬ k < l ++ [c] ∧ k < l ++ [c']) ↔ ∃ d t, k = l ++ d :: t ∧ c ≤ d ∧ d < c' := by
  induction l generalizing k with
  | nil =>
    cases k with
    | nil => simp
    | cons d k =>
      have hle : c ≤ d ↔ ¬ d < c := Char.not_lt.symm
      simp only [nil_append, cons_lt_cons_iff, List.not_lt_nil, and_false, or_false, ← hle, cons.injEq]
      constructor
      · exact fun h => ⟨d, k, ⟨rfl, rfl⟩, h⟩
      · rintro ⟨d, t, ⟨rfl, rfl⟩, h⟩
        exact h
  | cons x l ih =>
    cases k with
    | nil => simp
    | cons d k =>
      have hhead : ¬ (d < x ∨ d = x ∧ k < l ++ [c]) ∧ (d < x ∨ d = x ∧ k < l ++ [c']) ↔
          d = x ∧ ¬ k < l ++ [c] ∧ k < l ++ [c'] := by
        grind
      rw [cons_append, cons_append, cons_lt_cons_iff, cons_lt_cons_iff, hhead]
      grind

theorem startsWith_append (p s : String) : (p ++ s).startsWith p = true := by
  rw [String.startsWith_string_iff, String.toList_append]
  exact prefix_append _ _

variable {p a b : String} {xs' ys ys' : List Char} {parts : List String} {m n : ℕ}

theorem startsWith_iff_exists : s.startsWith p = true ↔ ∃ t, s = p ++ t := by
  rw [String.startsWith_string_iff]
  constructor
  · rintro ⟨t, ht⟩
    refine ⟨String.ofList t, ?_⟩
    rw [← String.toList_inj, String.toList_append, String.toList_ofList, ht]
  · rintro ⟨t, rfl⟩
    rw [String.toList_append]
    exact prefix_append _ _

@[simp] theorem strip_prefix_append (p s : String) : strip_prefix (p ++ s) p = some s := by
  rw [ strip_prefix, if_pos (startsWith_append p s), String.toList_append, drop_left,
    String.ofList_toList]

/-! ## Trimming -/

/-! ## Delimiters

`xs ++ c :: ys` determines both parts if `c ∉ xs` (its first `c`) or `c ∉ ys`
(its last); the first is what a literal tag in front of a path relies on, the
second a decimal number behind a `/`. -/

/-- Texts that differ within a common number of first characters differ whatever follows. -/
theorem append_ne_of_take {x y : String} (n : ℕ) (ha : n ≤ a.toList.length)
    (hb : n ≤ b.toList.length) (h : a.toList.take n ≠ b.toList.take n) : a ++ x ≠ b ++ y := by
  intro heq
  apply h
  have hl := congrArg (take n) (congrArg String.toList heq)
  rwa [String.toList_append, String.toList_append, take_append_of_le_length ha,
    take_append_of_le_length hb] at hl

theorem first_delimiter_inj (hx : c ∉ xs) (hx' : c ∉ xs')
    (h : xs ++ c :: ys = xs' ++ c :: ys') : xs = xs' ∧ ys = ys' := by
  induction xs generalizing xs' with
  | nil =>
    cases xs' with
    | nil => exact ⟨rfl, (cons.inj h).2⟩
    | cons a as => exact absurd ((cons.inj h).1 ▸ mem_cons_self) hx'
  | cons a as ih =>
    cases xs' with
    | nil => exact absurd ((cons.inj h).1 ▸ mem_cons_self) hx
    | cons b bs =>
      obtain ⟨hab, htl⟩ := cons.inj h
      obtain ⟨h1, h2⟩ := ih (fun hm => hx (mem_cons_of_mem _ hm))
        (fun hm => hx' (mem_cons_of_mem _ hm)) htl
      exact ⟨by rw [hab, h1], h2⟩

theorem last_delimiter_inj (hy : c ∉ ys) (hy' : c ∉ ys')
    (h : xs ++ c :: ys = xs' ++ c :: ys') : xs = xs' ∧ ys = ys' := by
  have hr := congrArg reverse h
  simp only [reverse_append, reverse_cons, append_assoc, singleton_append] at hr
  obtain ⟨h1, h2⟩ := first_delimiter_inj (by rwa [mem_reverse]) (by rwa [mem_reverse]) hr
  exact ⟨reverse_injective h2, reverse_injective h1⟩

theorem split_chars_eq (c : Char) (xs : List Char) :
    ∃ parts, split_chars c xs = xs.takeWhile (· != c) :: parts ∧ (parts ≠ [] → c ∈ xs) := by
  induction xs with
  | nil => exact ⟨[], rfl, fun h => (h rfl).elim⟩
  | cons x xs ih =>
    obtain ⟨parts, hparts, hmem⟩ := ih
    by_cases hx : x = c
    · refine ⟨split_chars c xs, ?_, fun _ => hx ▸ mem_cons_self⟩
      rw [split_chars, if_pos hx, takeWhile_cons_of_neg (by simp [hx])]
    · refine ⟨parts, ?_, fun h => mem_cons_of_mem x (hmem h)⟩
      rw [split_chars, if_neg hx, hparts, takeWhile_cons_of_pos (by simp [hx])]

theorem infix_of_mem_split_chars {part : List Char} (h : part ∈ split_chars c xs) :
    part <:+: xs := by
  induction xs with
  | nil =>
    rw [split_chars, mem_singleton] at h
    subst h
    exact nil_infix
  | cons x xs ih =>
    by_cases hx : x = c
    · rw [split_chars, if_pos hx, mem_cons] at h
      rcases h with rfl | h
      · exact nil_infix
      · exact (ih h).trans (suffix_cons x xs).isInfix
    · obtain ⟨parts, hparts, -⟩ := split_chars_eq c xs
      rw [split_chars, if_neg hx, hparts, mem_cons] at h
      rcases h with rfl | h
      · exact ((prefix_cons_inj x).mpr (List.takeWhile_prefix _)).isInfix
      · have hmem : part ∈ split_chars c xs := hparts ▸ mem_cons_of_mem _ h
        exact (ih hmem).trans (suffix_cons x xs).isInfix

theorem infix_of_mem_split {part : String} (h : part ∈ split s c) : part.toList <:+: s.toList := by
  obtain ⟨chars, hchars, rfl⟩ := mem_map.mp h
  rw [String.toList_ofList]
  exact infix_of_mem_split_chars hchars

theorem split_once_of_split (h : split s c = a :: b :: parts) :
    (split_once s c).map Prod.fst = some a := by
  obtain ⟨rest, hrest, hmem⟩ := split_chars_eq c s.toList
  rw [split, hrest, map_cons, cons.injEq] at h
  have hc : c ∈ s.toList := by
    refine hmem fun hnil => ?_
    rw [hnil] at h
    cases h.2
  rw [split_once, if_pos hc, Option.map_some, h.1]

theorem split_chars_eq_splitOn (c : Char) (xs : List Char) : split_chars c xs = splitOn c xs := by
  induction xs with
  | nil => rfl
  | cons x xs ih =>
    rw [split_chars, splitOn_cons_eq_if_modifyHead, ih]
    cases hparts : splitOn c xs with
    | nil => exact (splitOn_ne_nil c xs hparts).elim
    | cons part parts => simp

theorem split_intercalate (h : ∀ part ∈ s :: parts, c ∉ part.toList) :
    split (String.intercalate (String.singleton c) (s :: parts)) c = s :: parts := by
  rw [split, String.toList_intercalate, String.toList_singleton, split_chars_eq_splitOn,
    splitOn_intercalate c (by simpa using h) (by simp)]
  simp

theorem intercalate_split (s : String) (c : Char) :
    String.intercalate (String.singleton c) (split s c) = s := by
  rw [← String.toList_inj, String.toList_intercalate, String.toList_singleton, split,
    split_chars_eq_splitOn, map_map, show String.toList ∘ String.ofList = id from funext fun _ => by simp,
    map_id, intercalate_splitOn]

theorem exists_mem_split {x : Char} : (∃ part ∈ split s c, x ∈ part.toList) ↔ x ∈ s.toList ∧ x ≠ c := by
  have hchars : (∃ part ∈ split_chars c s.toList, x ∈ part) ↔ x ∈ s.toList ∧ x ≠ c := by
    induction s.toList with
    | nil => simp [split_chars]
    | cons y ys ih =>
      obtain ⟨parts, hparts, -⟩ := split_chars_eq c ys
      rw [hparts, exists_mem_cons_iff] at ih
      rw [split_chars, hparts]
      split_ifs with hy
      · rw [exists_mem_cons_iff, exists_mem_cons_iff, ih]
        grind
      · rw [exists_mem_cons_iff, mem_cons, or_assoc, ih]
        grind
  simpa [split] using hchars

theorem ends_with_iff : ends_with s c = true ↔ ∃ xs, s.toList = xs ++ [c] := by
  unfold ends_with
  rw [beq_iff_eq, getLast?_eq_some_iff]

theorem ends_with_append (h : ends_with t c = true) : ends_with (s ++ t) c = true := by
  obtain ⟨xs, hxs⟩ := ends_with_iff.mp h
  exact ends_with_iff.mpr ⟨s.toList ++ xs, by rw [String.toList_append, hxs, append_assoc]⟩

/-- The parts of `id/rest` at the last `/`, when `rest` has none. -/
theorem rsplit_once_append (ht : c ∉ t.toList) :
    rsplit_once (s ++ String.ofList [c] ++ t) c = some (s, t) := by
  have hl : (s ++ String.ofList [c] ++ t).toList = s.toList ++ c :: t.toList := by
    simp only [String.toList_append, String.toList_ofList, append_assoc, singleton_append]
  have htail : ((s.toList ++ c :: t.toList).reverse.takeWhile (· != c)).reverse = t.toList := by
    rw [reverse_append, reverse_cons, append_assoc,
      takeWhile_append_of_pos
        (by intro a ha; simpa using fun hac => ht (by simpa [hac] using ha))]
    simp
  unfold rsplit_once
  rw [hl, htail, if_pos (by simp)]
  have hcut : (s.toList ++ c :: t.toList).length - (t.toList.length + 1) = s.toList.length := by
    simp
  rw [hcut, take_left, String.ofList_toList, String.ofList_toList]

theorem rsplit_once_eq_none : rsplit_once s c = none ↔ c ∉ s.toList := by
  unfold rsplit_once
  by_cases h : c ∈ s.toList
  · simp [h]
  · simp [h]

theorem rsplit_once_eq_some {before after : String} :
    rsplit_once s c = some (before, after) ↔
      s.toList = before.toList ++ c :: after.toList ∧ c ∉ after.toList := by
  have hcut {b t : String} (ht : c ∉ t.toList) (hs : s.toList = b.toList ++ c :: t.toList) :
      rsplit_once s c = some (b, t) := by
    have heq : s = b ++ String.ofList [c] ++ t := by
      rw [← String.toList_inj, hs]
      simp only [String.toList_append, String.toList_ofList, append_assoc, singleton_append]
    rw [heq]
    exact rsplit_once_append ht
  constructor
  · intro h
    have hmem : c ∈ s.toList.reverse := by
      by_contra hno
      rw [rsplit_once_eq_none.mpr (fun hc => hno (mem_reverse.mpr hc))] at h
      cases h
    -- the last occurrence is the first one from behind
    obtain ⟨u, v, huv, hu⟩ := eq_append_cons_of_mem hmem
    have hs : s.toList = (String.ofList v.reverse).toList ++ c :: (String.ofList u.reverse).toList := by
      rw [← reverse_reverse s.toList, huv]
      simp
    have hu' : c ∉ (String.ofList u.reverse).toList := by simpa using hu
    rw [hcut hu' hs] at h
    cases h
    exact ⟨hs, hu'⟩
  · rintro ⟨hs, ht⟩
    exact hcut ht hs

/-! ## Decimal numbers -/

theorem slash_notMem_toDigits (n : ℕ) : '/' ∉ Nat.toDigits 10 n := by
  intro h
  have := Nat.isDigit_of_mem_toDigits (by decide) (by decide) h
  exact absurd this (by decide)

theorem slash_notMem_padded20 (n : ℕ) : '/' ∉ (padded20 n).toList := by
  rw [padded20, String.toList_ofList, leftpad, mem_append]
  rintro (h | h)
  · exact absurd (eq_of_mem_replicate h) (by decide)
  · exact slash_notMem_toDigits n h

theorem slash_notMem_repr (n : ℕ) : '/' ∉ n.repr.toList := by
  rw [Nat.toList_repr]
  exact slash_notMem_toDigits n

theorem repr_inj (h : m.repr = n.repr) : m = n := by
  have hl := congrArg (fun s : String => Nat.ofDigitChars 10 s.toList 0) h
  simpa only [Nat.toList_repr, Nat.ofDigitChars_ten_toDigits] using hl

theorem ofDigitChars_replicate_zero (k : ℕ) (l : List Char) :
    Nat.ofDigitChars 10 (replicate k '0' ++ l) 0 = Nat.ofDigitChars 10 l 0 := by
  induction k with
  | zero => simp
  | succ k ih =>
    exact ih

theorem padded20_inj (h : padded20 m = padded20 n) : m = n := by
  have hl := congrArg (fun s : String => Nat.ofDigitChars 10 s.toList 0) h
  simpa only [padded20, String.toList_ofList, leftpad, ofDigitChars_replicate_zero,
    Nat.ofDigitChars_ten_toDigits] using hl

/-- A string ending in `/` followed by digits determines both parts. -/
theorem append_slashless_inj {q : String} (hp : ends_with p '/' = true)
    (hq : ends_with q '/' = true) (hs : '/' ∉ s.toList) (ht : '/' ∉ t.toList) (h : p ++ s = q ++ t) :
    p = q ∧ s = t := by
  obtain ⟨xs, hxs⟩ := ends_with_iff.mp hp
  obtain ⟨ys, hys⟩ := ends_with_iff.mp hq
  have hl := congrArg String.toList h
  rw [String.toList_append, String.toList_append, hxs, hys, append_assoc,
    append_assoc] at hl
  obtain ⟨hx, hst⟩ := last_delimiter_inj hs ht hl
  exact ⟨by rw [← String.toList_inj, hxs, hys, hx], String.toList_inj.mp hst⟩

end NexusVfs.Text
