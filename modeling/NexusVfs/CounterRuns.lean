/-
Counters: the `AdjustCounter` arm over a run of committed deltas. It adds in `i64`,
which wraps, and clamps at zero afterwards.
-/
import Mathlib.Algebra.Ring.Int.Defs
import Mathlib.Data.List.Chain
import NexusVfs.StateMachine

namespace NexusVfs

open List Words Text Runs Option

def I64_MAX : ℤ := 2 ^ 63 - 1

/-- One adjustment over the integers, clamped to what a counter can hold. -/
def tally_step (count : ℤ) (delta : Int64) : ℤ := min (max 0 (count + delta.toInt)) I64_MAX

/-- The exact count after adjustments of a counter that starts absent. -/
def tally (entries : List (UInt64 × Int64)) : ℤ := (entries.map Prod.snd).foldl tally_step 0

theorem tally_bounds (entries : List (UInt64 × Int64)) :
    0 ≤ tally entries ∧ tally entries ≤ I64_MAX := by
  have hmax : I64_MAX = 9223372036854775807 := rfl
  refine foldlRecOn (motive := fun c => 0 ≤ c ∧ c ≤ I64_MAX) (entries.map Prod.snd) _
    ⟨by omega, by omega⟩ ?_
  unfold tally_step
  omega

theorem tally_snoc (entries : List (UInt64 × Int64)) (e : UInt64 × Int64) :
    tally (entries ++ [e]) = tally_step (tally entries) e.2 := by
  simp [tally]

/-! ## One sum -/

variable {count : ℤ} {delta : Int64}

theorem toInt_max_zero (x : Int64) : (max x 0).toInt = max x.toInt 0 := by
  change (if x ≤ 0 then 0 else x).toInt = _
  have hle : x ≤ 0 ↔ x.toInt ≤ 0 := Int64.le_iff_toInt_le
  split_ifs with h
  · have hx := hle.mp h
    change (0 : ℤ) = _
    omega
  · rw [hle] at h
    omega

theorem toInt_adjusted (h : 0 ≤ count ∧ count ≤ I64_MAX) :
    (max (Int64.ofInt count + delta) 0).toInt =
      if count + delta.toInt ≤ I64_MAX then max 0 (count + delta.toInt) else 0 := by
  have hmax : I64_MAX = 9223372036854775807 := rfl
  have hlo := delta.le_toInt
  have hhi := delta.toInt_lt
  have hcount : (Int64.ofInt count).toInt = count := Int64.toInt_ofInt_of_le (by omega) (by omega)
  rw [toInt_max_zero, Int64.toInt_add, hcount]
  split_ifs with hsum
  · rw [Int.bmod_eq_of_le (by omega) (by omega)]
    omega
  · have hwrap : (count + delta.toInt).bmod (2 ^ 64) = count + delta.toInt - 2 ^ 64 := by
      rw [Int.bmod_def]
      omega
    omega

theorem adjusted_eq_iff (h : 0 ≤ count ∧ count ≤ I64_MAX) :
    max (Int64.ofInt count + delta) 0 = Int64.ofInt (tally_step count delta) ↔
      count + delta.toInt ≤ I64_MAX := by
  have hmax : I64_MAX = 9223372036854775807 := rfl
  have htop : (Int64.ofInt (tally_step count delta)).toInt = tally_step count delta := by
    apply Int64.toInt_ofInt_of_le
    all_goals
      unfold tally_step
      omega
  rw [← Int64.toInt_inj, htop, toInt_adjusted h, tally_step]
  split_ifs <;> omega

/-! ## Runs -/

def adjust_all (codec : MetadataCodec) (key : String) (m : FullStateMachine)
    (entries : List (UInt64 × Int64)) : Except RaftError FullStateMachine :=
  entries.foldlM (fun m e => do
    let (_, m) ← apply codec m e.1 (.AdjustCounter key e.2)
    return m) m

def adjusted (key : String) (m : FullStateMachine) (e : UInt64 × Int64) : FullStateMachine :=
  { m with
    store := put_marker
      (m.store.put_metadata key (i64_to_be_bytes (adjusted_counter m.store key e.2))) e.1
    last_applied := e.1 }

variable {codec : MetadataCodec} {m : FullStateMachine} {key : String}
variable {entries : List (UInt64 × Int64)} {e : UInt64 × Int64}

theorem adjust_step (codec : MetadataCodec) (entries : List (UInt64 × Int64))
    (hmanaged : is_managed_content_path key = false)
    (hfree : protected_in_txn m.store key = .ok false) (hidx : m.last_applied < e.1) :
    adjust_all codec key m (e :: entries) = adjust_all codec key (adjusted key m e) entries := by
  have hexec : execute_metadata_in_txn codec m.store (.AdjustCounter key e.2)
      = adjust_counter m.store key e.2 := by
    have hplain : plain_record_refusal m.store (.AdjustCounter key e.2) = none := rfl
    have hkey : (Command.AdjustCounter key e.2).ordinary_metadata_key = some key := rfl
    simp [execute_metadata_in_txn, record_guard_refusal, ordinary_refusal, execute_arm, hplain, hkey,
      ordinary_metadata_refusal, hfree, bind, Except.bind, pure, Except.pure]
  have happly : ∃ r, apply codec m e.1 (.AdjustCounter key e.2) = .ok (r, adjusted key m e) := by
    refine ⟨.Value (i64_to_be_bytes (adjusted_counter m.store key e.2)), ?_⟩
    unfold apply
    rw [apply_lock_eq_none.mpr rfl]
    dsimp only
    rw [if_neg (UInt64.not_le.mpr hidx), hexec, adjust_counter, if_neg (by simp [hmanaged])]
    rfl
  obtain ⟨r, hr⟩ := happly
  rw [adjust_all, foldlM_cons, hr]
  rfl

theorem adjust_prefix (codec : MetadataCodec) (hmanaged : is_managed_content_path key = false)
    (hfree : protected_in_txn m.store key = .ok false) {rest : List (UInt64 × Int64)}
    (hindices : ((m.last_applied :: (entries ++ rest).map Prod.fst)).IsChain (· < ·)) :
    ∃ m', adjust_all codec key m entries = .ok m' ∧ protected_in_txn m'.store key = .ok false ∧
      (m'.last_applied :: rest.map Prod.fst).IsChain (· < ·) := by
  induction entries generalizing m with
  | nil => exact ⟨m, rfl, hfree, hindices⟩
  | cons e entries ih =>
    rw [cons_append, map_cons, isChain_cons_cons] at hindices
    rw [adjust_step codec entries hmanaged hfree hindices.1]
    exact ih hfree hindices.2

theorem adjust_snoc (hkey : key ≠ KEY_LAST_APPLIED) (hmanaged : is_managed_content_path key = false)
    {m' : FullStateMachine} (hrun : adjust_all codec key m entries = .ok m')
    (hfree : protected_in_txn m'.store key = .ok false) (hidx : m'.last_applied < e.1) :
    adjust_all codec key m (entries ++ [e]) = .ok (adjusted key m' e) ∧
      (adjusted key m' e).store.metadata.get key
        = some (i64_to_be_bytes (adjusted_counter m'.store key e.2)) := by
  constructor
  · have hlast := adjust_step codec [] hmanaged hfree hidx
    rw [adjust_all, foldlM_append]
    rw [adjust_all] at hrun
    rw [hrun]
    exact hlast
  · simp only [adjusted, put_marker, Store.metadata_put_metadata]
    rw [Table.get_insert_of_ne _ _ hkey, Table.get_insert_self]

def Exact (codec : MetadataCodec) (key : String) (m : FullStateMachine)
    (entries : List (UInt64 × Int64)) : Prop :=
  ∃ m', adjust_all codec key m entries = .ok m' ∧
    m'.store.metadata.get key = some (i64_to_be_bytes (Int64.ofInt (tally entries)))

theorem exact_snoc_iff (hkey : key ≠ KEY_LAST_APPLIED)
    (hmanaged : is_managed_content_path key = false)
    (hfree : protected_in_txn m.store key = .ok false) (habsent : m.store.metadata.get key = none)
    (hindices : (m.last_applied :: (entries ++ [e]).map Prod.fst).IsChain (· < ·))
    (hbefore : entries ≠ [] → Exact codec key m entries) :
    Exact codec key m (entries ++ [e]) ↔ tally entries + e.2.toInt ≤ I64_MAX := by
  obtain ⟨m', hrun, hfree', hnext⟩ := adjust_prefix codec hmanaged hfree hindices
  have hidx : m'.last_applied < e.1 := by simpa using hnext
  obtain ⟨hlast, hstored⟩ := adjust_snoc hkey hmanaged hrun hfree' hidx
  have hcounter : ((m'.store.metadata.get key).bind i64_from_be_bytes).getD 0
      = Int64.ofInt (tally entries) := by
    by_cases hnil : entries = []
    · subst hnil
      obtain rfl : m = m' := Except.ok.inj hrun
      rw [habsent]
      rfl
    · obtain ⟨m'', hrun', hget⟩ := hbefore hnil
      obtain rfl : m' = m'' := Except.ok.inj (hrun.symm.trans hrun')
      rw [hget, bind_some, i64_from_to_be_bytes, getD_some]
  have hvalue : adjusted_counter m'.store key e.2
      = max (Int64.ofInt (tally entries) + e.2) 0 := by
    rw [adjusted_counter, hcounter]
  rw [← adjusted_eq_iff (tally_bounds entries), ← hvalue, ← tally_snoc]
  constructor
  · rintro ⟨m'', hrun', hget⟩
    obtain rfl := Except.ok.inj (hlast.symm.trans hrun')
    have hbytes := congrArg i64_from_be_bytes (some.inj (hstored.symm.trans hget))
    simpa using hbytes
  · intro heq
    exact ⟨_, hlast, heq ▸ hstored⟩

/-- A counter that starts absent is exact after every committed adjustment, whatever the state it
is in, exactly when no sum of the exact count and the next delta leaves the range of `i64`. -/
theorem counters_exact_iff (codec : MetadataCodec) (m : FullStateMachine) (key : String)
    (hkey : key ≠ KEY_LAST_APPLIED) (hmanaged : is_managed_content_path key = false)
    (hfree : protected_in_txn m.store key = .ok false) (habsent : m.store.metadata.get key = none)
    (entries : List (UInt64 × Int64))
    (hindices : (m.last_applied :: entries.map Prod.fst).IsChain (· < ·)) :
    (∀ done, done <+: entries → done ≠ [] → Exact codec key m done) ↔
      ∀ done e, done ++ [e] <+: entries → tally done + e.2.toInt ≤ I64_MAX := by
  have hchain {done : List (UInt64 × Int64)} (h : done <+: entries) :
      (m.last_applied :: done.map Prod.fst).IsChain (· < ·) := by
    obtain ⟨rest, rfl⟩ := h
    rw [map_append] at hindices
    exact hindices.left_of_append
  constructor
  · intro h done e hdone
    have hbefore := h done ((prefix_append _ _).trans hdone)
    exact (exact_snoc_iff hkey hmanaged hfree habsent (hchain hdone) hbefore).mp
      (h _ hdone (by simp))
  · intro h done hdone hne
    induction done using reverseRecOn with
    | nil => exact absurd rfl hne
    | append_singleton done e ih =>
      have hbefore := ih ((prefix_append _ _).trans hdone)
      exact (exact_snoc_iff hkey hmanaged hfree habsent (hchain hdone) hbefore).mpr
        (h done e hdone)

theorem counters_exact_iff_two : Exact .unreadable "/n" .fresh [(1, 5), (4, -7)] := by
  refine (counters_exact_iff .unreadable .fresh "/n" (by decide +kernel) (by decide +kernel)
    (by decide +kernel) (by decide +kernel) _ (by decide)).mpr ?_ _ prefix_rfl (by simp)
  intro done e hdone
  have hcases : (done ++ [e]).length ≤ 2 := hdone.length_le
  match done, hcases with
  | [], _ =>
    obtain rfl : e = (1, 5) := by simpa using hdone
    decide +kernel
  | [d], _ =>
    obtain ⟨rfl, rfl⟩ : d = (1, 5) ∧ e = (4, -7) := by simpa using hdone
    decide +kernel
  | _ :: _ :: _, h => simp at h

/-- One link more than `i64::MAX` is no link. And the row of the applied index is no counter. -/
theorem full_counter_wraps_to_zero :
    ((adjust_all .unreadable "/n" .fresh [(1, 9223372036854775807), (2, 1)]).toOption.bind
        fun m => m.store.metadata.get "/n") = some (i64_to_be_bytes 0) ∧
      ((adjust_all .unreadable KEY_LAST_APPLIED .fresh [(1, 5)]).toOption.bind
        fun m => m.store.metadata.get KEY_LAST_APPLIED) = some (i64_to_be_bytes 1) := by
  decide +kernel

end NexusVfs
