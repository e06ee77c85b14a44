/-
The watermark of EC writes: `compute_ec_watermark` and the fast path for a single voter
in `transport/transport_loop.rs`. Both add the node itself to the count, voter or not.
-/
import Mathlib.Data.List.Sort
import NexusVfs.EcReplication

namespace NexusVfs.EcWatermark

open List Option

/-! ## Order statistics -/

/-- In a descending list, the entry at `k` is at least `x` exactly when more than `k` entries are. -/
theorem lt_countP_iff {l : List ℕ} (hl : l.Pairwise (· ≥ ·)) (k x : ℕ) :
    k < l.countP (fun a => decide (x ≤ a)) ↔ ∃ w, l[k]? = some w ∧ x ≤ w := by
  induction l generalizing k with
  | nil => simp
  | cons a l ih =>
    obtain ⟨ha, hl⟩ := pairwise_cons.mp hl
    by_cases hx : x ≤ a
    · cases k with
      | zero => simp [hx]
      | succ k => simpa [hx] using ih hl k
    · -- Nothing that follows is larger.
      have hsmall : ∀ b ∈ l, ¬ x ≤ b := by
        intro b hb
        have hba := ha b hb
        omega
      have hzero : (a :: l).countP (fun a => decide (x ≤ a)) = 0 := by
        rw [countP_eq_zero]
        exact forall_mem_cons.mpr ⟨by simpa using hx, by simpa using hsmall⟩
      refine iff_of_false (by omega) ?_
      rintro ⟨w, hw, hxw⟩
      rcases mem_cons.mp (mem_of_getElem? hw) with rfl | hmem
      · exact hx hxw
      · exact hsmall w hmem hxw

/-! ## The code -/

def compute_ec_watermark (peer_state : Table ℕ PeerReplicationState) (voter_ids : List ℕ)
    (self_id : ℕ) : Option ℕ :=
  let needed_peer_acks := voter_ids.length / 2
  if needed_peer_acks = 0 then none
  else
    let acks := (voter_ids.filter (· ≠ self_id)).filterMap fun id =>
      (peer_state.get id).map PeerReplicationState.acked_seq
    let acks := acks.insertionSort (· ≥ ·)
    acks[needed_peer_acks - 1]?.filter fun wm => decide (0 < wm)

def advance_watermark (current new_watermark : ℕ) : ℕ :=
  if current < new_watermark then new_watermark else current

/-- What `spawn_ec_replications` hands to `advance_watermark`. With two or more voters a pass that
has nothing to send ends before it gets there. -/
def pass_watermark (peer_state : Table ℕ PeerReplicationState) (voter_ids : List ℕ)
    (self_id max_seq : ℕ) : Option ℕ :=
  if voter_ids.length ≤ 1 then if 1 < max_seq then some (max_seq - 1) else none
  else compute_ec_watermark peer_state voter_ids self_id

/-! ## Who holds what -/

variable (peer_state : Table ℕ PeerReplicationState) (voter_ids : List ℕ) (self_id : ℕ)

def has_acked (w id : ℕ) : Bool := (peer_state.get id).any fun st => decide (w ≤ st.acked_seq)

/-- How many voters other than the node itself have acknowledged `w`. -/
def acked_by (w : ℕ) : ℕ := voter_ids.countP fun id => decide (id ≠ self_id) && has_acked peer_state w id

/-- A strict majority of the voters holds everything up to `w`; the node itself holds everything,
and is counted if it is a voter. -/
def Quorum (w : ℕ) : Prop :=
  voter_ids.length < 2 * voter_ids.countP fun id => decide (id = self_id) || has_acked peer_state w id

variable {w w' : ℕ}

theorem acked_by_anti (h : w ≤ w') :
    acked_by peer_state voter_ids self_id w' ≤ acked_by peer_state voter_ids self_id w := by
  refine countP_mono_left fun id _ => ?_
  simp only [has_acked, Bool.and_eq_true, Option.any_eq_true, decide_eq_true_eq]
  rintro ⟨hne, st, hst, hw⟩
  exact ⟨hne, st, hst, by omega⟩

/-- The majority path reaches `w` exactly when half of the voters, without the node, have. -/
theorem compute_ec_watermark_iff (hw : 0 < w) (hvoters : 2 ≤ voter_ids.length) :
    (∃ wm, compute_ec_watermark peer_state voter_ids self_id = some wm ∧ w ≤ wm) ↔
      voter_ids.length / 2 ≤ acked_by peer_state voter_ids self_id w := by
  have hneeded : voter_ids.length / 2 ≠ 0 := by omega
  unfold compute_ec_watermark
  rw [if_neg hneeded]
  generalize hacks : (voter_ids.filter (· ≠ self_id)).filterMap (fun id =>
    (peer_state.get id).map PeerReplicationState.acked_seq) = acks
  have hsorted : (acks.insertionSort (· ≥ ·)).Pairwise (· ≥ ·) := acks.pairwise_insertionSort _
  have hcount : (acks.insertionSort (· ≥ ·)).countP (fun a => decide (w ≤ a))
      = acked_by peer_state voter_ids self_id w := by
    rw [(acks.perm_insertionSort _).countP_eq, ← hacks, countP_filterMap, countP_filter]
    refine countP_congr fun id _ => ?_
    cases hst : peer_state.get id <;> simp [has_acked, hst, and_comm]
  have hkth := lt_countP_iff hsorted (voter_ids.length / 2 - 1) w
  rw [hcount] at hkth
  rw [show voter_ids.length / 2 ≤ acked_by peer_state voter_ids self_id w ↔
    voter_ids.length / 2 - 1 < acked_by peer_state voter_ids self_id w by omega, hkth]
  constructor
  · rintro ⟨wm, hwm, hle⟩
    exact ⟨wm, (filter_eq_some_iff.mp hwm).1, hle⟩
  · rintro ⟨wm, hwm, hle⟩
    exact ⟨wm, filter_eq_some_iff.mpr ⟨hwm, by simp; omega⟩, hle⟩

variable {peer_state voter_ids self_id}

theorem quorum_iff (hset : voter_ids.Nodup) :
    Quorum peer_state voter_ids self_id w ↔ voter_ids.length <
      2 * (acked_by peer_state voter_ids self_id w + if self_id ∈ voter_ids then 1 else 0) := by
  have hcount : (voter_ids.countP fun id => decide (id = self_id) || has_acked peer_state w id) =
      acked_by peer_state voter_ids self_id w + voter_ids.count self_id := by
    unfold acked_by
    induction voter_ids with
    | nil => rfl
    | cons id ids ih =>
      have ih := ih (nodup_cons.mp hset).2
      by_cases hself : id = self_id
      · simp only [countP_cons, count_cons, hself] at ih ⊢
        simp [ih]
        omega
      · simp only [countP_cons, count_cons, hself] at ih ⊢
        simp [ih, hself]
        omega
  rw [Quorum, hcount, hset.count]

theorem watermark_pos (h : compute_ec_watermark peer_state voter_ids self_id = some w) : 0 < w := by
  unfold compute_ec_watermark at h
  dsimp only at h
  split_ifs at h
  simpa using (filter_eq_some_iff.mp h).2

theorem advanced_iff {current : ℕ} : advance_watermark current w ≠ current ↔ current < w := by
  unfold advance_watermark
  split_ifs <;> omega

/-- A pass that moves the watermark moves it to a number that a strict majority of the voters
holds, and for a voter to the largest such number that was acknowledged, exactly when the node is
a voter or no number above the watermark is one acknowledgement short of a majority. -/
theorem watermark_is_quorum_iff (peer_state : Table ℕ PeerReplicationState) (voter_ids : List ℕ)
    (hset : voter_ids.Nodup) (self_id max_seq current : ℕ) :
    (∀ w, pass_watermark peer_state voter_ids self_id max_seq = some w →
        advance_watermark current w ≠ current →
        Quorum peer_state voter_ids self_id w ∧
          (self_id ∈ voter_ids → ∀ v ∈ voter_ids, v ≠ self_id → ∀ st, peer_state.get v = some st →
            Quorum peer_state voter_ids self_id st.acked_seq → st.acked_seq ≤ w)) ↔
      (self_id ∈ voter_ids ∨ ∀ w, current < w → (voter_ids.length ≤ 1 → w < max_seq) →
        voter_ids.length / 2 ≤ acked_by peer_state voter_ids self_id w →
          voter_ids.length / 2 < acked_by peer_state voter_ids self_id w) := by
  simp only [advanced_iff, quorum_iff hset, pass_watermark]
  by_cases hself : self_id ∈ voter_ids
  · refine iff_of_true ?_ (.inl hself)
    intro w hpass hadvance
    simp only [hself, if_true, forall_const] at hpass ⊢
    split_ifs at hpass with hone
    · -- The node is the only voter, so nobody else acknowledges.
      obtain ⟨v, rfl⟩ : ∃ v, voter_ids = [v] :=
        length_eq_one_iff.mp (by have := length_pos_of_mem hself; omega)
      obtain rfl : self_id = v := by simpa using hself
      refine ⟨?_, fun v hv hne => absurd (by simpa using hv) hne⟩
      omega
    · have hreach {x : ℕ} (hx : 0 < x) :=
        compute_ec_watermark_iff peer_state voter_ids self_id hx (by omega)
      have hw := (hreach (watermark_pos hpass)).mp ⟨w, hpass, le_rfl⟩
      refine ⟨by omega, ?_⟩
      intro v hv hne st hst hquorum
      by_cases hzero : st.acked_seq = 0
      · omega
      · obtain ⟨wm, hwm, hle⟩ := (hreach (x := st.acked_seq) (by omega)).mpr (by omega)
        rw [hpass] at hwm
        obtain rfl := some.inj hwm
        exact hle
  · simp only [hself, false_or, if_false, add_zero, false_imp_iff, and_true]
    by_cases hone : voter_ids.length ≤ 1
    · simp only [hone, if_true, forall_const]
      constructor
      · intro h w hw hmax _
        have hlast := h (max_seq - 1) (if_pos (by omega)) (by omega)
        have hmono := acked_by_anti peer_state voter_ids self_id (by omega : w ≤ max_seq - 1)
        omega
      · intro h w hpass hw
        split_ifs at hpass
        obtain rfl := some.inj hpass
        have hlast := h (max_seq - 1) hw (by omega) (by omega)
        omega
    · simp only [hone, if_false, false_imp_iff, true_imp_iff]
      constructor
      · intro h w hw hhalf
        obtain ⟨wm, hwm, hle⟩ := (compute_ec_watermark_iff peer_state voter_ids self_id (by omega)
          (by omega)).mpr hhalf
        have hquorum := h wm hwm (by omega)
        have hmono := acked_by_anti peer_state voter_ids self_id hle
        omega
      · intro h w hpass hw
        have hhalf := (compute_ec_watermark_iff peer_state voter_ids self_id (by omega)
          (by omega)).mp ⟨w, hpass, le_rfl⟩
        have hquorum := h w hw hhalf
        omega

def acked (rows : List (ℕ × ℕ)) : Table ℕ PeerReplicationState :=
  Table.insert_all ∅ (rows.map fun row => (row.1, ⟨row.2, false, false⟩))

/-- Node 1 of three voters, with the acknowledgements of the two others. -/
theorem watermark_is_quorum_iff_three_voters : Quorum (acked [(2, 5), (3, 2)]) [1, 2, 3] 1 5 :=
  ((watermark_is_quorum_iff (acked [(2, 5), (3, 2)]) [1, 2, 3] (by decide) 1 9 0).mpr
    (.inl (by decide)) 5 (by decide +kernel) (by decide)).1

/-- A learner commits what no voter has, or what one voter of three has. -/
theorem learner_commits_without_quorum :
    pass_watermark ∅ [1] 9 2 = some 1 ∧ ¬ Quorum ∅ [1] 9 1 ∧
      pass_watermark (acked [(2, 5)]) [1, 2, 3] 9 7 = some 5 ∧
      ¬ Quorum (acked [(2, 5)]) [1, 2, 3] 9 5 := by
  unfold Quorum
  decide +kernel

end NexusVfs.EcWatermark
