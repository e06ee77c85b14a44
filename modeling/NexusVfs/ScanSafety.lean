/-
What a stored image can do to the version scan.

A turn of the walk is in order unless a varint goes on for more than ten bytes, where
its shift passes 63, or a field claims to end at or beyond `2^64`, where the position
wraps.
-/
import NexusVfs.StateMachine

namespace NexusVfs.ExtractVersion

open Words Text Runs

variable {bytes : Bytes} {i j : ℕ}

/-- A position at which the scan looks for a tag. -/
inductive Visited (bytes : Bytes) : ℕ → Prop
  | start (h : 0 < bytes.length) : Visited bytes 0
  | next {i j : ℕ} (h : Visited bytes i) (hstep : scan_step bytes i = .next j)
      (hj : j < bytes.length) : Visited bytes j

def varint_len (bytes : Bytes) : ℕ := (decode_varint_with_len bytes).2

def is_version (tag : UInt8) : Prop := tag >>> 3 = 9 ∧ tag &&& 0x07 = 0

def is_delimited (tag : UInt8) : Prop := tag &&& 0x07 = 2

def field_end (bytes : Bytes) (i : ℕ) : ℕ :=
  i + 1 + varint_len (bytes.drop (i + 1)) + (decode_varint (bytes.drop (i + 1))).toNat

/-- No shift of the turn is by 64 or more, and no position it computes leaves `usize`. Where no
length is read, a turn ends at most ten bytes behind the slice, and those are below `2^63`. -/
structure TurnSafe (bytes : Bytes) (i : ℕ) : Prop where
  shifts : is_version (bytes.getD i 0) ∨ is_delimited (bytes.getD i 0) →
    ∀ k < varint_len (bytes.drop (i + 1)), 7 * k < 64
  position : is_delimited (bytes.getD i 0) → field_end bytes i < 2 ^ 64

/-- A turn in order: a varint of at most ten bytes, and a field that ends before `2^64`. -/
def InOrder (bytes : Bytes) (i : ℕ) : Prop :=
  (is_version (bytes.getD i 0) ∨ is_delimited (bytes.getD i 0) →
    varint_len (bytes.drop (i + 1)) ≤ 10) ∧
  (is_delimited (bytes.getD i 0) → field_end bytes i < 2 ^ 64)

theorem turnSafe_iff : TurnSafe bytes i ↔ InOrder bytes i := by
  have hshifts : (∀ k < varint_len (bytes.drop (i + 1)), 7 * k < 64) ↔
      varint_len (bytes.drop (i + 1)) ≤ 10 := by
    constructor
    · intro h
      by_contra hlong
      have h10 := h 10 (by omega)
      omega
    · intro h k hk
      omega
  constructor
  · intro h
    exact ⟨fun hvarint => hshifts.mp (h.shifts hvarint), h.position⟩
  · intro h
    exact ⟨fun hvarint => hshifts.mpr (h.1 hvarint), h.2⟩

theorem lt_of_next (horder : InOrder bytes i) (h : scan_step bytes i = .next j) : i < j := by
  unfold scan_step at h
  dsimp only at h
  split_ifs at h with hversion htag
  · -- A version tag on the last byte: its wire type is that of a varint.
    rw [htag.2] at h
    have hj := (ScanStep.next.inj h)
    omega
  · split at h
    · have hj := ScanStep.next.inj h
      omega
    · have hj := ScanStep.next.inj h
      omega
    · rename_i hwire
      have hdelimited : is_delimited (bytes.getD i 0) := by
        rw [is_delimited, ← UInt8.toNat_inj]
        exact hwire
      have hend := horder.2 hdelimited
      unfold field_end varint_len decode_varint_with_len at hend
      have hj := ScanStep.next.inj h
      rw [Nat.mod_eq_of_lt (by simp only [decode_varint_with_len]; omega)] at hj
      omega
    · have hj := ScanStep.next.inj h
      omega
    · simp at h

theorem scan_ends (horder : ∀ i, Visited bytes i → InOrder bytes i) {fuel : ℕ}
    (hvisited : i < bytes.length → Visited bytes i) (hfuel : bytes.length < i + fuel) :
    scan_fields bytes fuel i ≠ .never_ends := by
  induction fuel generalizing i with
  | zero =>
    rw [scan_fields, if_neg (by omega)]
    simp
  | succ fuel ih =>
    rw [scan_fields]
    split_ifs with hin
    · cases hstep : scan_step bytes i with
      | found v => simp
      | stop => simp
      | next j =>
        have hlt := lt_of_next (horder i (hvisited hin)) hstep
        exact ih (fun hj => .next (hvisited hin) hstep hj) (by omega)
    · simp

/-- The scan ends, and every turn of it is safe. -/
def ScanSafe (bytes : Bytes) : Prop :=
  extract_version bytes ≠ none ∧ ∀ i, Visited bytes i → TurnSafe bytes i

theorem scanSafe_iff : ScanSafe bytes ↔ ∀ i, Visited bytes i → InOrder bytes i := by
  unfold ScanSafe
  simp only [turnSafe_iff]
  refine and_iff_right_of_imp fun horder => ?_
  have hends : scan_fields bytes (bytes.length + 1) 0 ≠ .never_ends :=
    scan_ends horder .start (by omega)
  unfold extract_version
  split
  · simp
  · rename_i hnever
    exact absurd hnever hends
  · simp

end NexusVfs.ExtractVersion

namespace NexusVfs

open ExtractVersion Words Text Runs

variable {s : Store} {key : String} {value : Bytes} {expected_version : UInt32}

theorem cas_success_iff {current : UInt32} :
    (∃ s', cas_set_metadata s key value expected_version = .ok (.CasResult true current, s')) ↔
      current_version s key = .ok expected_version ∧ current = expected_version + 1 ∧
        ∃ b s', refresh_tracked_version s key = .ok (b, s') := by
  unfold cas_set_metadata
  constructor
  · rintro ⟨s', h⟩
    obtain ⟨version, hversion, h⟩ := bind_eq_ok.mp h
    split_ifs at h with hne
    · simp [pure, Except.pure] at h
    · obtain ⟨⟨b, s₁⟩, hrefresh, h⟩ := bind_eq_ok.mp h
      obtain ⟨hresult, -⟩ := ok_pair_inj h
      rw [not_not.mp hne] at hversion
      exact ⟨hversion, (CommandResult.CasResult.inj hresult).2.symm, b, s₁, hrefresh⟩
  · rintro ⟨hversion, rfl, b, s₁, hrefresh⟩
    refine ⟨s₁.put_metadata key value, ?_⟩
    rw [hversion]
    simp [bind, Except.bind, hrefresh, pure, Except.pure]

/-- Applying a `CasSetMetadata` neither loops nor overflows, whatever the row holds: the scan of the
row is safe and the version of the answer is the sum, exactly when every field the scan meets is in
order and it is not the row of version `u32::MAX` that is replaced. -/
theorem cas_scan_safe_iff (s : Store) (key : String) (value : Bytes) (expected_version : UInt32) :
    ((∀ bytes, s.metadata.get key = some bytes → ScanSafe bytes) ∧
      ∀ current s', cas_set_metadata s key value expected_version = .ok (.CasResult true current, s') →
        current.toNat = expected_version.toNat + 1) ↔
      (∀ bytes, s.metadata.get key = some bytes → ∀ i, Visited bytes i → InOrder bytes i) ∧
        (expected_version.toNat = 2 ^ 32 - 1 → current_version s key = .ok expected_version →
          ∀ b s', refresh_tracked_version s key ≠ .ok (b, s')) := by
  have hsum : (expected_version + 1).toNat = expected_version.toNat + 1 ↔
      expected_version.toNat ≠ 2 ^ 32 - 1 := by
    have hlt := expected_version.toNat_lt
    rw [UInt32.toNat_add]
    simp only [UInt32.toNat_one]
    omega
  refine and_congr (by simp only [scanSafe_iff]) ?_
  constructor
  · intro h hmax hversion b s' hrefresh
    obtain ⟨s'', hsuccess⟩ := cas_success_iff.mpr ⟨hversion, rfl, b, s', hrefresh⟩
    exact hsum.mp (h _ s'' hsuccess) hmax
  · intro h current s' hsuccess
    obtain ⟨hversion, rfl, b, s₁, hrefresh⟩ := cas_success_iff.mp ⟨s', hsuccess⟩
    exact hsum.mpr fun hmax => h hmax hversion b s₁ hrefresh

/-- A scan that goes on for ever, a version whose eleventh byte is shifted by 70, and a sum that
wraps to zero. -/
theorem stored_bytes_break_cas :
    extract_version [0x0a, 0xf5, 0xff, 0xff, 0xff, 0xff, 0xff, 0xff, 0xff, 0xff, 0x01] = none ∧
      ¬ TurnSafe (0x48 :: (List.replicate 10 0x80 ++ [0x01])) 0 ∧
      (cas_set_metadata (Store.empty.put_metadata "/f" (as_bytes "\"version\":4294967295")) "/f" []
        4294967295).toOption.map Prod.fst = some (.CasResult true 0) := by
  refine ⟨by decide +kernel, ?_, by decide +kernel⟩
  rw [turnSafe_iff]
  unfold InOrder is_version is_delimited
  decide +kernel

end NexusVfs
