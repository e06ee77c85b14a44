/-
Fixed-width words as byte strings, most significant byte first: what was written on `w`
bytes is read back, modulo `256 ^ w` (`ofBe_be`).
-/
import Mathlib.Algebra.Ring.Nat
import Mathlib.Data.List.Basic
import Mathlib.Data.List.Induction

namespace NexusVfs.Words

open List

/-- A byte string: a `Vec<u8>`, or the value column of a table row. -/
abbrev Bytes := List UInt8

/-! ## Base 256 -/

/-- `n` on exactly `w` bytes, most significant first; what does not fit is
dropped from the top, as an `as`-cast does. -/
def be : ℕ → ℕ → Bytes
  | 0, _ => []
  | w + 1, n => be w (n / 256) ++ [UInt8.ofNat n]

/-- The number a byte string denotes, most significant byte first. -/
def ofBe (bs : Bytes) : ℕ := bs.foldl (fun acc b => acc * 256 + b.toNat) 0

@[simp] theorem length_be (w n : ℕ) : (be w n).length = w := by
  induction w generalizing n with
  | zero => rfl
  | succ w ih => rw [be, length_append, ih, length_singleton]

theorem ofBe_append_singleton (bs : Bytes) (b : UInt8) :
    ofBe (bs ++ [b]) = ofBe bs * 256 + b.toNat := by
  simp only [ofBe, foldl_append, foldl_cons, foldl_nil]

/-- What was written on `w` bytes is read back modulo `256 ^ w`. The induction
peels the least significant byte, which is where `be` appends. -/
theorem ofBe_be_mod (w n : ℕ) : ofBe (be w n) = n % 256 ^ w := by
  induction w generalizing n with
  | zero => simp [be, ofBe, Nat.mod_one]
  | succ w ih =>
    have hb : (UInt8.ofNat n).toNat = n % 256 := by simp
    have hsplit : n % 256 ^ (w + 1) = n % 256 + 256 * (n / 256 % 256 ^ w) := by
      rw [Nat.pow_succ', Nat.mod_mul]
    rw [be, ofBe_append_singleton, ih]
    omega

theorem ofBe_be {w n : ℕ} (h : n < 256 ^ w) : ofBe (be w n) = n := by
  rw [ofBe_be_mod, Nat.mod_eq_of_lt h]

theorem ofBe_lt (bs : Bytes) : ofBe bs < 256 ^ bs.length := by
  induction bs using reverseRecOn with
  | nil => decide
  | append_singleton bs b ih =>
    have hb := b.toNat_lt
    rw [ofBe_append_singleton, length_append, length_singleton]
    omega

/-! ## `u64` -/

def u64_to_be_bytes (x : UInt64) : Bytes := be 8 x.toNat

/-- `<[u8; 8]>::try_from(bytes).ok().map(u64::from_be_bytes)`: a slice of any
other length has no `u64` reading. -/
def u64_from_be_bytes (bs : Bytes) : Option UInt64 :=
  if bs.length = 8 then some (UInt64.ofNat (ofBe bs)) else none

@[simp] theorem length_u64_to_be_bytes (x : UInt64) : (u64_to_be_bytes x).length = 8 :=
  length_be 8 x.toNat

@[simp] theorem u64_from_to_be_bytes (x : UInt64) :
    u64_from_be_bytes (u64_to_be_bytes x) = some x := by
  have hx : x.toNat < 256 ^ 8 := by have := x.toNat_lt; omega
  rw [u64_from_be_bytes, if_pos (length_u64_to_be_bytes x), u64_to_be_bytes, ofBe_be hx,
    UInt64.ofNat_toNat]

/-! ## `i64`: the same eight bytes, read in two's complement -/

def i64_to_be_bytes (x : Int64) : Bytes := u64_to_be_bytes x.toUInt64

def i64_from_be_bytes (bs : Bytes) : Option Int64 := (u64_from_be_bytes bs).map UInt64.toInt64

@[simp] theorem i64_from_to_be_bytes (x : Int64) :
    i64_from_be_bytes (i64_to_be_bytes x) = some x := by
  simp [i64_from_be_bytes, i64_to_be_bytes]

/-! ## `u32`, least significant byte first -/

def u32_to_le_bytes (n : ℕ) : Bytes := (be 4 n).reverse

def u32_from_le_bytes (bs : Bytes) : ℕ := ofBe bs.reverse

@[simp] theorem length_u32_to_le_bytes (n : ℕ) : (u32_to_le_bytes n).length = 4 := by
  rw [u32_to_le_bytes, length_reverse, length_be]

theorem u32_from_to_le_bytes {n : ℕ} (h : n < 2 ^ 32) :
    u32_from_le_bytes (u32_to_le_bytes n) = n := by
  rw [u32_from_le_bytes, u32_to_le_bytes, reverse_reverse, ofBe_be (by omega)]

end NexusVfs.Words
