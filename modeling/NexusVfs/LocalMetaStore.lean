/-
The local metadata store: `kernel/src/core/meta_store/mod.rs`.

A redb table holds one row for each path, modelled as the record it holds. Listing a
prefix is one range scan, up to the prefix with its last character replaced by the next
one. redb orders keys by their UTF-8 bytes, which is the order of their characters.
-/
import NexusVfs.ConditionalContent
import NexusVfs.Relocation

namespace NexusVfs

open List Text ConditionalContent Table

structure LocalMetaStore where
  metadata : Table String ConditionalContent.FileMetadata

namespace LocalMetaStore

/-! ## The scans -/

def char_max : Char := Char.ofNat 0x10FFFF

/-- `char::from_u32(last as u32 + 1).unwrap_or(char::MAX)` -/
def next_char (last : Char) : Char :=
  if (last.toNat + 1).isValidChar then Char.ofNat (last.toNat + 1) else char_max

def range_end (start : String) : String :=
  match start.toList.getLast? with
  | some last => String.ofList (start.toList.dropLast ++ [next_char last])
  | none => start

def in_range (start key : String) : Bool := decide (start ≤ key) && decide (key < range_end start)

def list (s : LocalMetaStore) (start : String) : List ConditionalContent.FileMetadata :=
  (s.metadata.scan fun key => if start = "" then true else in_range start key).map Prod.snd

def rename_children (s : LocalMetaStore) (old_path : String) :
    List (String × ConditionalContent.FileMetadata) :=
  s.metadata.scan (in_range (slashed old_path))

/-! ## What a scan covers -/

variable {start key : String} {stem : List Char} {last d : Char}

/-- The last character before the surrogates. Like the last of all, it has no next one. -/
def before_surrogates : Char := Char.ofNat 0xD7FF

theorem before_surrogates_ne : before_surrogates ≠ char_max := by
  decide

theorem toNat_next_char (last : Char) : (next_char last).toNat =
    if last.toNat = 0xD7FF ∨ last.toNat = 0x10FFFF then 0x10FFFF else last.toNat + 1 := by
  have hlast : last.toNat < 0xD800 ∨ 0xDFFF < last.toNat ∧ last.toNat < 0x110000 := last.valid
  unfold next_char
  by_cases hvalid : (last.toNat + 1).isValidChar
  · rw [if_pos hvalid, Char.ofNat, dif_pos hvalid, if_neg (by omega)]
    rfl
  · rw [if_neg hvalid, if_pos (by omega)]
    rfl

/-- From `last` up to the next character there is `last` alone, except where it has no next one. -/
theorem next_char_covers (last d : Char) :
    (last ≤ d ∧ d < next_char last) ↔
      d = last ∧ last ≠ char_max ∨ last = before_surrogates ∧ last < d ∧ d < char_max := by
  have hle : last ≤ d ↔ last.toNat ≤ d.toNat := Iff.rfl
  have hlt : last < d ↔ last.toNat < d.toNat := Iff.rfl
  have hnext : d < next_char last ↔ d.toNat < (next_char last).toNat := Iff.rfl
  have hmax : d < char_max ↔ d.toNat < 0x10FFFF := Iff.rfl
  have hself : last = char_max ↔ last.toNat = 0x10FFFF := Char.toNat_inj.symm
  have hgap : last = before_surrogates ↔ last.toNat = 0xD7FF := Char.toNat_inj.symm
  have heq : d = last ↔ d.toNat = last.toNat := Char.toNat_inj.symm
  rw [hle, hlt, hnext, hmax, heq, Ne, hself, hgap, toNat_next_char]
  split_ifs <;> omega

variable (h : start.toList = stem ++ [last])
include h

theorem in_range_iff :
    in_range start key = true ↔ ∃ d t, key.toList = stem ++ d :: t ∧
      (d = last ∧ last ≠ char_max ∨ last = before_surrogates ∧ last < d ∧ d < char_max) := by
  have hend : (range_end start).toList = stem ++ [next_char last] := by
    unfold range_end
    simp [h]
  simp only [in_range, Bool.and_eq_true, decide_eq_true_eq, ← next_char_covers, ← between_iff]
  rw [← hend, ← h]
  exact Iff.rfl

theorem startsWith_iff :
    key.startsWith start = true ↔ ∃ d t, key.toList = stem ++ d :: t ∧ d = last := by
  rw [String.startsWith_string_iff, h]
  constructor
  · rintro ⟨t, ht⟩
    exact ⟨last, t, by simp [← ht], rfl⟩
  · rintro ⟨d, t, ht, rfl⟩
    exact ⟨t, by simp [ht]⟩

/-- A key that the scan for `start` takes or leaves against what it starts with: `start` ends in a
character that has no next one. -/
def Astray (start key : String) : Prop :=
  ∃ d t, key.toList = start.toList.dropLast ++ d :: t ∧
    (start.toList.getLast? = some char_max ∧ d = char_max ∨
      start.toList.getLast? = some before_surrogates ∧ before_surrogates < d ∧ d < char_max)

theorem in_range_eq_iff :
    in_range start key = key.startsWith start ↔ ¬ Astray start key := by
  rw [Bool.eq_iff_iff, in_range_iff h, startsWith_iff h, Astray, h, dropLast_concat,
    getLast?_concat]
  by_cases hkey : ∃ d t, key.toList = stem ++ d :: t
  · obtain ⟨d, t, hkey⟩ := hkey
    -- the character after the stem decides all three
    have hnext (P : Char → Prop) : (∃ d t, key.toList = stem ++ d :: t ∧ P d) ↔ P d := by
      constructor
      · rintro ⟨d', t', hkey', hP⟩
        rw [hkey, append_cancel_left_eq] at hkey'
        rwa [head_eq_of_cons_eq hkey']
      · intro hP
        exact ⟨d, t, hkey, hP⟩
    rw [hnext, hnext fun d => d = last, hnext]
    grind
  · have hnone (P : Char → Prop) : ¬ ∃ d t, key.toList = stem ++ d :: t ∧ P d := by
      rintro ⟨d, t, hkey', -⟩
      exact hkey ⟨d, t, hkey'⟩
    rw [iff_false_left (hnone _)]
    exact ⟨fun _ => hnone _, fun _ => hnone _⟩

omit h

/-! ## Exactness -/

theorem list_exact_iff (s : LocalMetaStore) (start : String) :
    s.list start = (s.metadata.scan fun key => key.startsWith start).map Prod.snd ↔
      ∀ key row, s.metadata.get key = some row → ¬ Astray start key := by
  unfold list
  rcases eq_nil_or_concat start.toList with hnil | ⟨stem, last, h⟩
  · obtain rfl : start = "" := String.toList_inj.mp hnil
    have hnot (key : String) : ¬ Astray "" key := by
      simp [Astray]
    simp [hnot]
  · rw [concat_eq_append] at h
    have hne : start ≠ "" := by
      rintro rfl
      simp at h
    simp only [if_neg hne, ← in_range_eq_iff h]
    by_cases hmax : last = char_max
    · refine map_scan_eq_iff _ fun key hkey => ?_
      obtain ⟨d, t, hkey, ⟨hd, -⟩ | ⟨hgap, -⟩⟩ := (in_range_iff h).mp hkey
      · exact (startsWith_iff h).mpr ⟨d, t, hkey, hd⟩
      · exact absurd (hgap.symm.trans hmax) before_surrogates_ne
    · rw [eq_comm, map_scan_eq_iff _ fun key hkey => ?_]
      · simp only [eq_comm]
      · obtain ⟨d, t, hkey, hd⟩ := (startsWith_iff h).mp hkey
        exact (in_range_iff h).mpr ⟨d, t, hkey, .inl ⟨hd, hmax⟩⟩

theorem rename_children_eq (s : LocalMetaStore) (old_path : String) :
    s.rename_children old_path = s.metadata.scan fun key => key.startsWith (slashed old_path) := by
  have h : (slashed old_path).toList = (trim_end_matches old_path '/').toList ++ ['/'] := by
    rw [slashed, String.toList_append]
    rfl
  have hnot (key : String) : ¬ Astray (slashed old_path) key := by
    have hlast : '/' ≠ char_max ∧ '/' ≠ before_surrogates := by decide
    simp [Astray, h, hlast]
  unfold rename_children
  congr 1
  funext key
  exact (in_range_eq_iff h).mpr (hnot key)

/-- A listing has exactly the rows whose key starts with the prefix, and a rename gathers exactly the
keys that start with `old_path/`, iff no row is astray and none is below the trimmed path alone. -/
theorem prefix_scans_exact_iff (s : LocalMetaStore) (start old_path : String) :
    (s.list start = (s.metadata.scan fun key => key.startsWith start).map Prod.snd ∧
      (s.rename_children old_path).map Prod.fst =
        (s.metadata.scan fun key => key.startsWith (old_path ++ "/")).map Prod.fst) ↔
    ∀ key row, s.metadata.get key = some row → ¬ Astray start key ∧
      (key.startsWith (slashed old_path) = true → key.startsWith (old_path ++ "/") = true) := by
  have htrim (key : String) (h : key.startsWith (old_path ++ "/") = true) :
      key.startsWith (slashed old_path) = true := by
    obtain ⟨t, rfl⟩ := startsWith_iff_exists.mp h
    rw [String.append_assoc]
    exact slashed_startsWith old_path (startsWith_append "/" t)
  rw [list_exact_iff, rename_children_eq, eq_comm (a := map Prod.fst _),
    map_scan_eq_iff _ htrim]
  constructor
  · rintro ⟨hlist, hrename⟩ key row hget
    exact ⟨hlist key row hget, fun h => (hrename key row hget).trans h⟩
  · intro h
    refine ⟨fun key row hget => (h key row hget).1, fun key row hget => ?_⟩
    exact Bool.eq_iff_iff.mpr ⟨htrim key, (h key row hget).2⟩

def one_file : LocalMetaStore :=
  ⟨Table.insert ∅ "\uE000" ⟨"\uE000", 0, none, 0, 1, ConditionalContent.DT_REG⟩⟩

/-- It is listed under the last character before the surrogates. -/
theorem list_crosses_surrogates :
    (one_file.list "\uD7FF").map (·.path) = ["\uE000"] ∧ "\uE000".startsWith "\uD7FF" = false := by
  decide +kernel

end LocalMetaStore

end NexusVfs
