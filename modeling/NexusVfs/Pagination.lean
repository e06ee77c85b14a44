/-
Paged listings: the default `list_paginated` of `kernel/src/abc/meta_store.rs`.

The cursor is a decimal position in the list of matching entries, used as the start of a
slice without being compared with the length.
-/
import NexusVfs.Text

namespace NexusVfs.Pagination

open List Text Option

/-! ## The code -/

/-- A `Vec` has at most `isize::MAX` elements. -/
abbrev Vec (α : Type) : Type := { l : List α // l.length < 2 ^ 63 }

structure PaginatedList (α : Type) where
  items : List α
  next_cursor : Option String
  has_more : Bool
  total_count : ℕ

/-- `str::parse::<usize>().ok()`: decimal digits, with one `+` before them or none. -/
def parse_usize (s : String) : Option ℕ :=
  let digits := if s.toList.head? = some '+' then s.toList.tail else s.toList
  if digits ≠ [] ∧ digits.all Char.isDigit ∧ Nat.ofDigitChars 10 digits 0 < 2 ^ 64 then
    some (Nat.ofDigitChars 10 digits 0)
  else none

def slashes (path : String) : ℕ := (trim_end_matches path '/').toList.count '/'

section

variable {α ε : Type} (path : α → String) (list : String → Except ε (Vec α)) (under : String)
  (recursive : Bool) (limit : ℕ)

/-- The entries that the pages cut up: all that are listed, or those one level below. -/
def matching (all : List α) : List α :=
  if recursive then all else all.filter fun m => slashes (path m) == slashes under + 1

def start_of (cursor : Option String) : ℕ := (cursor.bind parse_usize).getD 0

/-- `all[start..end]` and what goes with it. `none` is a panic: the sum of start and limit overflows
(where sums wrap, the end then lies before the start), or the slice does not lie in the list. -/
def page (all : List α) (start : ℕ) : Option (PaginatedList α) :=
  let end_ := min (start + limit) all.length
  if 2 ^ 64 ≤ start + limit ∨ end_ < start then none
  else some
    { items := (all.drop start).take (end_ - start)
      next_cursor := if end_ < all.length then some end_.repr else none
      has_more := end_ < all.length
      total_count := all.length }

def list_paginated (cursor : Option String) : Option (Except ε (PaginatedList α)) :=
  match list under with
  | .error e => some (.error e)
  | .ok all => (page limit (matching path under recursive all.1) (start_of cursor)).map .ok

/-- The entries of all pages, each asked for with the cursor of the one before. `none`: a panic, an
error, or the pages do not end within the fuel. -/
def visit : ℕ → Option String → Option (List α)
  | 0, _ => none
  | fuel + 1, cursor =>
    match list_paginated path list under recursive limit cursor with
    | some (.ok p) => if p.has_more then (visit fuel p.next_cursor).map (p.items ++ ·) else some p.items
    | _ => none

/-! ## Cursors -/

theorem parse_repr {n : ℕ} (h : n < 2 ^ 64) : parse_usize n.repr = some n := by
  have hdigits : ∀ c ∈ Nat.toDigits 10 n, c.isDigit = true := fun c hc =>
    Nat.isDigit_of_mem_toDigits (by decide) (by decide) hc
  have hplus : (Nat.toDigits 10 n).head? ≠ some '+' := fun heq =>
    absurd (hdigits '+' (mem_of_mem_head? heq)) (by decide)
  unfold parse_usize
  rw [Nat.toList_repr, if_neg hplus]
  dsimp only
  rw [Nat.ofDigitChars_ten_toDigits, if_pos ⟨Nat.toDigits_ne_nil, all_eq_true.mpr hdigits, h⟩]

variable {path list under recursive limit}

theorem page_isSome {all : List α} {start : ℕ} :
    (page limit all start).isSome ↔ start ≤ all.length ∧ start + limit < 2 ^ 64 := by
  unfold page
  by_cases h : 2 ^ 64 ≤ start + limit ∨ min (start + limit) all.length < start
  · rw [if_pos h]
    simp only [isSome_none, Bool.false_eq_true, false_iff]
    omega
  · rw [if_neg h]
    simp only [isSome_some, true_iff]
    omega

/-- The pages from a position on hold what the list has from there on. The induction is on the fuel,
which covers what is left: a page takes at least one entry. -/
theorem visit_from {all : Vec α} (hlist : list under = .ok all) (hlimit : 1 ≤ limit) {fuel : ℕ}
    {cursor : Option String} (hstart : start_of cursor ≤ (matching path under recursive all.1).length)
    (hfits : start_of cursor + limit < 2 ^ 64)
    (hfuel : (matching path under recursive all.1).length < start_of cursor + fuel) :
    visit path list under recursive limit fuel cursor =
      some ((matching path under recursive all.1).drop (start_of cursor)) := by
  have hall : (matching path under recursive all.1).length < 2 ^ 63 := by
    refine Nat.lt_of_le_of_lt ?_ all.2
    unfold matching
    split_ifs
    · exact Nat.le_refl _
    · exact length_filter_le _ _
  induction fuel generalizing cursor with
  | zero => omega
  | succ fuel ih =>
    rw [visit, list_paginated, hlist]
    dsimp only
    generalize hm : matching path under recursive all.1 = entries at *
    generalize hs : start_of cursor = start at *
    rw [page, if_neg (by omega), map_some]
    dsimp only
    by_cases hmore : min (start + limit) entries.length < entries.length
    · have hend : min (start + limit) entries.length = start + limit := by omega
      have hnext : start_of (some (start + limit).repr) = start + limit := by
        rw [start_of, bind_some, parse_repr hfits, getD_some]
      rw [decide_eq_true hmore, if_pos rfl, if_pos hmore, hend, ih (by omega) (by omega) (by omega), hnext,
        map_some, Nat.add_sub_cancel_left, ← drop_drop, take_append_drop]
    · rw [decide_eq_false hmore, if_neg Bool.false_ne_true, take_of_length_le]
      rw [length_drop]
      omega

end

/-- **Paging.** A call returns if and only if its cursor is not behind the list and start and limit
add up; and the pages from the first on, each asked for with the cursor of the one before, hold every
matching entry once and in order. -/
theorem paging_iff {α ε : Type} (path : α → String) (list : String → Except ε (Vec α)) (under : String)
    (recursive : Bool) (limit : ℕ) (hlimit : 1 ≤ limit) (hsize : limit < 2 ^ 64) :
    (∀ cursor, (list_paginated path list under recursive limit cursor).isSome ↔
      ∀ all, list under = .ok all → start_of cursor ≤ (matching path under recursive all.1).length ∧
        start_of cursor + limit < 2 ^ 64) ∧
    ∀ all, list under = .ok all → ∃ fuel, visit path list under recursive limit fuel none =
      some (matching path under recursive all.1) := by
  refine ⟨fun cursor => ?_, fun all hlist => ?_⟩
  · unfold list_paginated
    cases list under with
    | error e => simp
    | ok all => simp [page_isSome]
  · have hfirst : start_of none = 0 := rfl
    refine ⟨(matching path under recursive all.1).length + 1, ?_⟩
    rw [visit_from hlist hlimit (Nat.zero_le _) (by omega) (by omega), hfirst, drop_zero]

def three (_ : String) : Except Unit (Vec String) := .ok ⟨["/a", "/b", "/c"], by decide⟩

theorem paging_three :
    (∀ cursor, (list_paginated id three "/" true 2 cursor).isSome ↔
      ∀ all, three "/" = .ok all → start_of cursor ≤ (matching id "/" true all.1).length ∧
        start_of cursor + 2 < 2 ^ 64) ∧
    ∀ all, three "/" = .ok all → ∃ fuel, visit id three "/" true 2 fuel none =
      some (matching id "/" true all.1) :=
  paging_iff id three "/" true 2 (by decide) (by decide)

/-- One of them is gone since the cursor was handed out. -/
theorem stale_cursor_panics : list_paginated id three "/" true 1 (some "4") = none := by decide +kernel

end NexusVfs.Pagination
