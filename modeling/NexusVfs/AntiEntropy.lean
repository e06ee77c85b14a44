/-
Anti-entropy: a replica that fell behind is sent the writer's current rows and then its
later log entries.

The keys are written by one node, through EC sets and deletions. For one key the writer
is the owner of a register of `NexusVfs.Lww` and the replica merges, with the two clocks
of the source: `modified_at` as a string for sets, its Unix seconds against the entry's
timestamp for deletions.
-/
import NexusVfs.EcWrites
import NexusVfs.ReplicationLog
import NexusVfs.Lww
import Mathlib.Data.String.Basic

namespace NexusVfs

open List Words Text Runs Table Option

/-! ## The two sides -/

def apply_ec_all (codec : MetadataCodec) (m : FullStateMachine) :
    List ReplicationEntry → Except RaftError FullStateMachine
  | [] => .ok m
  | e :: es => do
    let (_, m) ← apply_ec_with_lww codec m e.command e.timestamp
    apply_ec_all codec m es

def apply_local_all (m : FullStateMachine) :
    List ReplicationEntry → Except RaftError FullStateMachine
  | [] => .ok m
  | e :: es => do
    let (_, m) ← apply_local m e.command
    apply_local_all m es

def image_entries (commands : List Command) : List ReplicationEntry := commands.map fun c => ⟨c, 0⟩

/-- A key that takes EC writes. -/
structure EcKey (s : Store) (k : String) : Prop where
  unmanaged : is_managed_content_path k = false
  unprotected : protected_in_txn s k = .ok false

/-! ## One key as a register -/

/-- `modified_at` of an image, as sets and as deletions compare it. -/
def clocks (codec : MetadataCodec) : Lww.Clocks Bytes String UInt64 where
  stamp := decode_modified_at codec
  age := decode_modified_at_unix codec

def write_at (k : String) (e : ReplicationEntry) : Option (Lww.Write Bytes UInt64) :=
  match e.command with
  | .SetMetadata key value => if key = k then some (.set value) else none
  | .DeleteMetadata key => if key = k then some (.delete e.timestamp) else none
  | _ => none

def writes_at (k : String) (es : List ReplicationEntry) : List (Lww.Write Bytes UInt64) :=
  es.filterMap (write_at k)

def exported (m : FullStateMachine) (k : String) : Option Bytes :=
  if is_internal_key k then none else m.store.metadata.get k

variable {s s' : Store} {k : String} {m : FullStateMachine}

variable {c : Command} {key : String} {x : Option Bytes} {codec : MetadataCodec} {ts : UInt64}
variable {e : ReplicationEntry} {r : CommandResult} {m' : FullStateMachine}
variable {commands : List Command}

theorem requires_sc_of_ec_key (h : EcKey s k) (hc : c.ordinary_metadata_key = some k) :
    requires_strong_consistency s c = .ok false := by
  have hfixed : c.requires_fixed_local_storage = false := by
    cases c <;> first | rfl | cases hc
  unfold requires_strong_consistency Command.requires_conditional_sc ordinary_write_is_protected
  rw [hfixed, hc]
  simp only [Bool.false_eq_true, if_false]
  rw [h.unmanaged]
  exact h.unprotected

structure RowWrite (s s' : Store) (key : String) (x : Option Bytes) : Prop where
  control : s'.control_state = s.control_state
  row : ∀ k, s'.metadata.get k = if k = key then x else s.metadata.get k

theorem RowWrite.refl (s : Store) (key : String) : RowWrite s s key (s.metadata.get key) := by
  refine ⟨rfl, fun k => ?_⟩
  by_cases hk : k = key
  · rw [if_pos hk, hk]
  · rw [if_neg hk]

theorem RowWrite.ite {s₁ s₂ : Store} {y : Option Bytes} {b : Bool}
    (h₁ : RowWrite s s₁ key x) (h₂ : RowWrite s s₂ key y) :
    RowWrite s (if b then s₁ else s₂) key (if b then x else y) := by
  cases b with
  | true => exact h₁
  | false => exact h₂

theorem RowWrite.put (s : Store) (key : String) (v : Bytes) :
    RowWrite s (s.put_metadata key v) key (some v) :=
  ⟨rfl, fun _ => get_insert _ _ _ _⟩

theorem RowWrite.remove (s : Store) (key : String) :
    RowWrite s { s with metadata := s.metadata.remove key } key none :=
  ⟨rfl, fun _ => get_remove _ _ _⟩

theorem RowWrite.set {value : Bytes} (h : lww_write codec s ts (.SetMetadata key value) = .ok s') :
    RowWrite s s' key (Lww.merge (clocks codec) (s.metadata.get key) (.set value)) := by
  rw [lww_write_set] at h
  cases h
  rw [Lww.merge_set_eq]
  exact .ite (.put s key value) (.refl s key)

theorem RowWrite.delete (h : lww_write codec s ts (.DeleteMetadata key) = .ok s') :
    RowWrite s s' key (Lww.merge (clocks codec) (s.metadata.get key) (.delete ts)) := by
  rw [lww_write_delete] at h
  cases h
  rw [Lww.merge_delete_eq]
  exact .ite (.remove s key) (.refl s key)

/-- The row of `k` after one entry: `f` of the old one if the entry writes to `k`. -/
def row_after (k : String) (x : Option Bytes) (e : ReplicationEntry)
    (f : Option Bytes → Lww.Write Bytes UInt64 → Option Bytes) : Option Bytes :=
  (write_at k e).elim x (f x)

theorem RowWrite.row_after {w : Lww.Write Bytes UInt64}
    {f : Option Bytes → Lww.Write Bytes UInt64 → Option Bytes}
    (hw : ∀ k, write_at k e = if key = k then some w else none)
    (h : RowWrite s s' key (f (s.metadata.get key) w)) (k : String) :
    s'.metadata.get k = row_after k (s.metadata.get k) e f := by
  rw [h.row, NexusVfs.row_after, hw]
  by_cases hk : k = key
  · rw [if_pos hk, if_pos hk.symm, hk]
    rfl
  · rw [if_neg hk, if_neg (Ne.symm hk)]
    rfl

/-! ## The replica merges -/

section Replica

variable {codec : MetadataCodec} {m m' : FullStateMachine} {e : ReplicationEntry} {k : String}

/-- An entry a replica gets through is a set or a deletion, if it is about an EC key at all. -/
theorem apply_ec_with_lww_row {r : CommandResult}
    (h : apply_ec_with_lww codec m e.command e.timestamp = .ok (r, m')) (hk : EcKey m.store k) :
    EcKey m'.store k ∧
    m'.store.metadata.get k = row_after k (m.store.metadata.get k) e (Lww.merge (clocks codec)) ∧
    (e.command.ordinary_metadata_key = some k → (write_at k e).isSome) := by
  obtain ⟨sc, hsc, h⟩ := bind_eq_ok.mp h
  cases sc with
  | true =>
    -- skipped, so it is not about this key
    obtain ⟨-, rfl⟩ := ok_pair_inj h
    have hother : e.command.ordinary_metadata_key ≠ some k := by
      intro hkey
      rw [requires_sc_of_ec_key hk hkey] at hsc
      cases hsc
    have hnone : write_at k e = none := by
      unfold write_at
      split
      · rename_i key value heq
        refine if_neg fun hkey => hother ?_
        rw [heq, hkey]
        rfl
      · rename_i key heq
        refine if_neg fun hkey => hother ?_
        rw [heq, hkey]
        rfl
      · rfl
    refine ⟨hk, ?_, fun hkey => absurd hkey hother⟩
    rw [row_after, hnone]
    rfl
  | false =>
    obtain ⟨store, hw, h⟩ := bind_eq_ok.mp h
    obtain ⟨-, rfl⟩ := ok_pair_inj h
    obtain ⟨c, ts⟩ := e
    have hkeep {x : Option Bytes} {key : String} (hrow : RowWrite m.store store key x) :
        EcKey store k := by
      refine ⟨hk.unmanaged, ?_⟩
      have hp := hk.unprotected
      unfold protected_in_txn record_policy_in_txn Store.control at hp ⊢
      rw [hrow.control]
      exact hp
    cases c with
    | SetMetadata key value =>
      have hrow := RowWrite.set hw
      refine ⟨hkeep hrow, hrow.row_after (fun _ => rfl) k, fun hkey => ?_⟩
      cases hkey
      exact isSome_iff_exists.mpr ⟨.set value, if_pos rfl⟩
    | DeleteMetadata key =>
      have hrow := RowWrite.delete hw
      refine ⟨hkeep hrow, hrow.row_after (fun _ => rfl) k, fun hkey => ?_⟩
      cases hkey
      exact isSome_iff_exists.mpr ⟨.delete ts, if_pos rfl⟩
    | _ => cases hw

theorem foldl_writes_at (f : Option Bytes → Lww.Write Bytes UInt64 → Option Bytes)
    (x : Option Bytes) (es : List ReplicationEntry) :
    (writes_at k (e :: es)).foldl f x = (writes_at k es).foldl f (row_after k x e f) := by
  unfold writes_at row_after
  cases hw : write_at k e with
  | none => rw [filterMap_cons_none hw]; rfl
  | some w => rw [filterMap_cons_some hw]; rfl

theorem apply_ec_all_row {es : List ReplicationEntry} (h : apply_ec_all codec m es = .ok m')
    (hk : EcKey m.store k) :
    EcKey m'.store k ∧ m'.store.metadata.get k =
      (writes_at k es).foldl (Lww.merge (clocks codec)) (m.store.metadata.get k) ∧
    ∀ e ∈ es, e.command.ordinary_metadata_key = some k → (write_at k e).isSome := by
  induction es generalizing m with
  | nil =>
    cases h
    exact ⟨hk, rfl, fun e he => by cases he⟩
  | cons e es ih =>
    obtain ⟨⟨r, m₁⟩, h1, h⟩ := bind_eq_ok.mp h
    obtain ⟨hk₁, hrow, hset⟩ := apply_ec_with_lww_row h1 hk
    obtain ⟨hk', hrows, hsets⟩ := ih h hk₁
    refine ⟨hk', ?_, fun e' he' => ?_⟩
    · rw [foldl_writes_at, hrows, hrow]
    · rcases mem_cons.mp he' with rfl | he'
      · exact hset
      · exact hsets e' he'

end Replica

/-! ## The writer overwrites -/

theorem apply_local_row (h : apply_local m e.command = .ok (r, m'))
    (hset : e.command.ordinary_metadata_key = some k → (write_at k e).isSome) :
    m'.store.metadata.get k = row_after k (m.store.metadata.get k) e Lww.put := by
  obtain ⟨sc, -, h⟩ := bind_eq_ok.mp h
  cases sc with
  | true => cases h
  | false =>
    obtain ⟨⟨r₁, store⟩, hexec, h⟩ := bind_eq_ok.mp h
    obtain ⟨-, rfl⟩ := ok_pair_inj h
    obtain ⟨c, ts⟩ := e
    have hother (hw : write_at k ⟨c, ts⟩ = none) :
        store.metadata.get k = row_after k (m.store.metadata.get k) ⟨c, ts⟩ Lww.put := by
      rw [row_after, hw]
      refine (execute_effect hexec).metadata k fun hrow => ?_
      have hsome := hset (ordinary_key_of_ec_row hrow)
      rw [hw] at hsome
      cases hsome
    cases c with
    | SetMetadata key value =>
      cases hexec
      exact (RowWrite.put m.store key value).row_after (fun _ => rfl) k
    | DeleteMetadata key =>
      cases hexec
      exact (RowWrite.remove m.store key).row_after (fun _ => rfl) k
    | _ => exact hother rfl

theorem apply_local_all_row {es : List ReplicationEntry} (h : apply_local_all m es = .ok m')
    (hset : ∀ e ∈ es, e.command.ordinary_metadata_key = some k → (write_at k e).isSome) :
    m'.store.metadata.get k = (writes_at k es).foldl Lww.put (m.store.metadata.get k) := by
  induction es generalizing m with
  | nil =>
    cases h
    rfl
  | cons e es ih =>
    obtain ⟨⟨r, m₁⟩, h1, h⟩ := bind_eq_ok.mp h
    rw [foldl_writes_at, ← apply_local_row h1 (hset e mem_cons_self)]
    exact ih h fun e' he' => hset e' (mem_cons_of_mem _ he')

/-! ## The image -/

theorem not_mem_protected_paths {paths : List String} (h : protected_metadata_paths s = .ok paths)
    (hk : EcKey s k) : k ∉ paths := by
  intro hmem
  obtain ⟨⟨row, value⟩, hrow, hpath⟩ := mem_of_mapM_eq_ok h hmem
  obtain ⟨sc, hdecode, hpath⟩ := bind_eq_ok.mp hpath
  obtain ⟨hpre, hget⟩ := mem_scan.mp hrow
  obtain ⟨rest, rfl⟩ := startsWith_iff_exists.mp hpre
  have hrest : rest = k := by
    rw [strip_prefix_append] at hpath
    exact pure_eq_ok.mp hpath
  -- so there is a policy row for the key, and it decodes
  have hkey : policy_key "" ++ k = policy_key k := by
    simp only [policy_key, control_key, String.append_assoc, String.append_empty]
  have hp := hk.unprotected
  have hrow : s.control (.policy k) = some value := by
    rw [Store.control, control_row, ← hkey, ← hrest]
    exact hget
  unfold protected_in_txn record_policy_in_txn at hp
  rw [hrow] at hp
  unfold decode_policy at hp
  dsimp only at hp
  split_ifs at hp
  cases hp

theorem ec_state_snapshot_rows (h : ec_state_snapshot m = .ok commands) (hk : EcKey m.store k) :
    ∃ rows : List (String × Bytes),
      commands = rows.map (fun row => .SetMetadata row.1 row.2) ∧ (rows.map Prod.fst).Nodup ∧
      ∀ v, (k, v) ∈ rows ↔ exported m k = some v := by
  obtain ⟨paths, hpaths, h⟩ := bind_eq_ok.mp h
  have hnot := not_mem_protected_paths hpaths hk
  refine ⟨_, (pure_eq_ok.mp h).symm, ?_, fun v => ?_⟩
  · exact (nodup_keys_scan _ _).sublist (filter_sublist.map _)
  · have hkept : (!is_managed_content_path k && !paths.contains k) = true := by
      simp [hk.unmanaged, hnot]
    rw [mem_filter, list_metadata, mem_scan, hkept, exported]
    cases is_internal_key k with
    | true => simp
    | false => simp

theorem filterMap_key {rows : List (String × Bytes)}
    (hnodup : (rows.map Prod.fst).Nodup) (hx : ∀ v, (k, v) ∈ rows ↔ x = some v) :
    rows.filterMap (fun row => if row.1 = k then some (Lww.Write.set row.2) else none) =
      (x.map (Lww.Write.set : Bytes → Lww.Write Bytes UInt64)).toList := by
  induction rows generalizing x with
  | nil =>
    cases x with
    | none => rfl
    | some v => exact absurd ((hx v).mpr rfl) not_mem_nil
  | cons row rows ih =>
    obtain ⟨key, value⟩ := row
    rw [map_cons, nodup_cons] at hnodup
    by_cases hkey : key = k
    · subst hkey
      have hval : x = some value := (hx value).mp mem_cons_self
      have hrest (v : Bytes) : (key, v) ∈ rows ↔ none = some v := by
        constructor
        · intro hmem
          exact absurd (mem_map_of_mem hmem) hnodup.1
        · intro hnone
          cases hnone
      rw [filterMap_cons]
      rw [if_pos rfl, ih hnodup.2 hrest, hval]
      rfl
    · rw [filterMap_cons]
      rw [if_neg hkey]
      refine ih hnodup.2 fun v => ?_
      rw [← hx v, mem_cons]
      constructor
      · exact .inr
      · rintro (heq | hmem)
        · cases heq
          exact absurd rfl hkey
        · exact hmem

/-- In whatever order the image is sent, the key is set to its exported value, or not at all. -/
theorem writes_at_image {sent : List Command} (h : ec_state_snapshot m = .ok commands)
    (hperm : sent.Perm commands) (hk : EcKey m.store k) :
    writes_at k (image_entries sent) = ((exported m k).map Lww.Write.set).toList := by
  obtain ⟨rows, rfl, hnodup, hrows⟩ := ec_state_snapshot_rows h hk
  have hrowwise : writes_at k (image_entries (rows.map fun row => .SetMetadata row.1 row.2)) =
      rows.filterMap (fun row => if row.1 = k then some (Lww.Write.set row.2) else none) := by
    unfold writes_at image_entries
    rw [filterMap_map, filterMap_map]
    rfl
  have hsent : (writes_at k (image_entries sent)).Perm
      ((exported m k).map Lww.Write.set).toList := by
    rw [← filterMap_key hnodup hrows, ← hrowwise]
    exact (hperm.map _).filterMap _
  cases hx : exported m k with
  | none =>
    rw [hx] at hsent
    exact perm_nil.mp hsent
  | some v =>
    rw [hx] at hsent
    exact perm_singleton.mp hsent

/-! ## Convergence -/

/-- What the image and the old value together show is the writer's value, unless the key is internal
or the writer has deleted it. -/
theorem exported_or_eq_iff (a : FullStateMachine) (k : String) (old : Option Bytes) :
    (exported a k).or old = a.store.metadata.get k ↔
      (is_internal_key k = true → old = a.store.metadata.get k) ∧
      (a.store.metadata.get k = none → old = none) := by
  unfold exported
  by_cases hint : is_internal_key k = true
  · rw [if_pos hint, none_or]
    refine ⟨fun heq => ⟨fun _ => heq, fun hnone => heq.trans hnone⟩, fun h => h.1 hint⟩
  · rw [if_neg hint]
    cases a.store.metadata.get k with
    | none => exact ⟨fun heq => ⟨fun h => absurd h hint, fun _ => heq⟩, fun h => h.2 rfl⟩
    | some v =>
      refine ⟨fun _ => ⟨fun h => absurd h hint, fun hnone => ?_⟩, fun _ => rfl⟩
      cases hnone

/-- **Anti-entropy.** After the image of `a` in any order and the later entries of `a`'s log, replica
`b` holds at an EC key what `a` holds exactly if

* without later writes, `b` had an internal key right already, and had no key that `a` lacks; and
* with deletions at the end, one of them is not older than the value `b` holds by then. -/
theorem anti_entropy_converges_iff (codec : MetadataCodec) (a a' b b₁ b' : FullStateMachine)
    (commands sent : List Command) (wal : List ReplicationEntry) (k : String)
    (hsnap : ec_state_snapshot a = .ok commands) (hperm : sent.Perm commands)
    (hb : apply_ec_all codec b (image_entries sent) = .ok b₁)
    (hwal : apply_ec_all codec b₁ wal = .ok b') (ha : apply_local_all a wal = .ok a')
    (hka : EcKey a.store k) (hkb : EcKey b.store k)
    (horder : ((b.store.metadata.get k).toList ++ ((a.store.metadata.get k).toList ++
      Lww.values (writes_at k wal))).Pairwise
        fun y v => decode_modified_at codec y ≤ decode_modified_at codec v) :
    b'.store.metadata.get k = a'.store.metadata.get k ↔
      (writes_at k wal = [] →
        (is_internal_key k = true → b.store.metadata.get k = a.store.metadata.get k) ∧
        (a.store.metadata.get k = none → b.store.metadata.get k = none)) ∧
      (Lww.trailing [] (writes_at k wal) ≠ [] →
        ∀ v, Lww.held ((exported a k).or (b.store.metadata.get k)) (writes_at k wal) = some v →
          ∃ t ∈ Lww.trailing [] (writes_at k wal), decode_modified_at_unix codec v ≤ t) := by
  have hsorted : ((b.store.metadata.get k).toList ++ ((a.store.metadata.get k).toList ++
      Lww.values (writes_at k wal))).Pairwise
        fun y v => ¬ (clocks codec).stamp v < (clocks codec).stamp y :=
    horder.imp fun h => String.not_lt.mpr h
  obtain ⟨hk₁, hrow₁, -⟩ := apply_ec_all_row hb hkb
  obtain ⟨-, hrow', hset⟩ := apply_ec_all_row hwal hk₁
  rw [writes_at_image hsnap hperm hka] at hrow₁
  have hexported (v : Bytes) (hv : exported a k = some v) : a.store.metadata.get k = some v := by
    unfold exported at hv
    split_ifs at hv
    exact hv
  -- the image overwrites what `b` had, where it has the key
  have himage : b₁.store.metadata.get k = (exported a k).or (b.store.metadata.get k) := by
    cases hx : exported a k with
    | none =>
      rw [hx] at hrow₁
      exact hrow₁
    | some v =>
      rw [hx] at hrow₁
      refine hrow₁.trans ?_
      have hpair : Lww.InOrder (clocks codec) (b.store.metadata.get k)
          [(.set v : Lww.Write Bytes UInt64)] := by
        refine hsorted.sublist (List.Sublist.append_left ?_ _)
        rw [hexported v hx]
        exact sublist_append_left [v] _
      exact hpair.merge_set fun _ hu => hu
  -- whichever value the image left there, the log's values are not older
  have hlater : Lww.InOrder (clocks codec) ((exported a k).or (b.store.metadata.get k))
      (writes_at k wal) := by
    cases hx : exported a k with
    | none => exact hsorted.sublist (List.Sublist.append_left (sublist_append_right _ _) _)
    | some v =>
      refine hsorted.sublist ((List.Sublist.refl _).trans ?_)
      rw [hexported v hx]
      exact sublist_append_right _ _
  rw [hrow', himage, apply_local_all_row ha hset, Lww.merge_eq_put_iff hlater, exported_or_eq_iff]
  simp only [UInt64.not_lt]
  rfl

/-- Every image was modified at the start of 2026. -/
def dated_codec : MetadataCodec where
  decode bytes := .ok ⟨"", "", "2026-01-01T00:00:00Z", DT_REG, bytes⟩
  encode metadata := metadata.unread
  parse_rfc3339 _ := some 1767225600

def set_task (value : Bytes) : ReplicationEntry := ⟨.SetMetadata "/t/1" value, 1767225600⟩

def delete_task : ReplicationEntry := ⟨.DeleteMetadata "/t/1", 1767225700⟩

theorem ec_key_of_unprotected (h : succeeds (protected_in_txn s "/t/1") (fun p => !p) = true) :
    EcKey s "/t/1" := by
  obtain ⟨p, hp, hfalse⟩ := succeeds_iff.mp h
  refine ⟨by decide +kernel, ?_⟩
  rw [hp]
  congr
  simpa using hfalse

/-- The replica misses a set; the image has it, and the deletion after it is in the log. -/
theorem anti_entropy_converges_for_task :
    ∃ a a' b b₁ b' commands, apply_local_all .fresh [set_task [0], set_task [1]] = .ok a ∧
      apply_ec_all dated_codec .fresh [set_task [0]] = .ok b ∧ ec_state_snapshot a = .ok commands ∧
      apply_ec_all dated_codec b (image_entries commands) = .ok b₁ ∧
      apply_ec_all dated_codec b₁ [set_task [2], delete_task] = .ok b' ∧
      apply_local_all a [set_task [2], delete_task] = .ok a' ∧
      b'.store.metadata.get "/t/1" = a'.store.metadata.get "/t/1" := by
  have hrun : succeeds (apply_local_all .fresh [set_task [0], set_task [1]]) (fun a =>
      succeeds (apply_ec_all dated_codec .fresh [set_task [0]]) fun b =>
      succeeds (ec_state_snapshot a) fun commands =>
      succeeds (apply_ec_all dated_codec b (image_entries commands)) fun b₁ =>
      succeeds (apply_ec_all dated_codec b₁ [set_task [2], delete_task]) fun _ =>
      succeeds (apply_local_all a [set_task [2], delete_task]) fun _ =>
      succeeds (protected_in_txn a.store "/t/1") (fun p => !p) &&
      succeeds (protected_in_txn b.store "/t/1") (fun p => !p) &&
      decide (a.store.metadata.get "/t/1" = some [1]) &&
      decide (b.store.metadata.get "/t/1" = some [0])) = true := by
    decide +kernel
  obtain ⟨a, ha, hrun⟩ := succeeds_iff.mp hrun
  obtain ⟨b, hb, hrun⟩ := succeeds_iff.mp hrun
  obtain ⟨commands, hsnap, hrun⟩ := succeeds_iff.mp hrun
  obtain ⟨b₁, hb₁, hrun⟩ := succeeds_iff.mp hrun
  obtain ⟨b', hb', hrun⟩ := succeeds_iff.mp hrun
  obtain ⟨a', ha', hrun⟩ := succeeds_iff.mp hrun
  simp only [Bool.and_eq_true, decide_eq_true_eq] at hrun
  obtain ⟨⟨⟨hpa, hpb⟩, hva⟩, hvb⟩ := hrun
  refine ⟨a, a', b, b₁, b', commands, ha, hb, hsnap, hb₁, hb', ha', ?_⟩
  have hwrites : writes_at "/t/1" [set_task [2], delete_task] =
      [.set [2], .delete 1767225700] := by
    decide +kernel
  refine (anti_entropy_converges_iff dated_codec a a' b b₁ b' commands commands _ "/t/1" hsnap
    (.refl _) hb₁ hb' ha' (ec_key_of_unprotected hpa) (ec_key_of_unprotected hpb) ?_).mpr ?_
  · rw [hva, hvb, hwrites]
    decide +kernel
  · rw [hwrites]
    refine ⟨(fun hnil => by cases hnil), fun _ v hv => ?_⟩
    cases hv
    exact ⟨1767225700, mem_singleton.mpr rfl, by decide⟩

/-- **A deleted key comes back.** The writer sets a key and deletes it; the replica got the set only.
The image is empty, so the replica keeps the old value. -/
theorem deleted_key_survives_anti_entropy :
    ∃ a b b', apply_local_all .fresh [set_task [1], delete_task] = .ok a ∧
      apply_ec_all dated_codec .fresh [set_task [1]] = .ok b ∧ ec_state_snapshot a = .ok [] ∧
      apply_ec_all dated_codec b (image_entries []) = .ok b' ∧
      a.store.metadata.get "/t/1" = none ∧ b'.store.metadata.get "/t/1" = some [1] := by
  have hrun : succeeds (apply_local_all .fresh [set_task [1], delete_task]) (fun a =>
      succeeds (apply_ec_all dated_codec .fresh [set_task [1]]) fun b =>
      succeeds (ec_state_snapshot a) fun commands =>
      decide (commands = []) && decide (a.store.metadata.get "/t/1" = none) &&
      decide (b.store.metadata.get "/t/1" = some [1])) = true := by
    decide +kernel
  obtain ⟨a, ha, hrun⟩ := succeeds_iff.mp hrun
  obtain ⟨b, hb, hrun⟩ := succeeds_iff.mp hrun
  obtain ⟨commands, hsnap, hrun⟩ := succeeds_iff.mp hrun
  simp only [Bool.and_eq_true, decide_eq_true_eq] at hrun
  obtain ⟨⟨rfl, hva⟩, hvb⟩ := hrun
  exact ⟨a, b, b, ha, hb, hsnap, rfl, hva, hvb⟩

/-! ## Replicas that have seen the same -/

/-- **Replicas that have seen the same values agree.** Whatever two replicas held and in whatever
order, from whichever peers and however often they were sent sets of an EC key: if the values each
has seen are the same, and no two of them have one `modified_at`, they end with the same row. -/
theorem replicas_agree_on_what_they_saw (codec : MetadataCodec) (a a' b b' : FullStateMachine)
    (es fs : List ReplicationEntry) (k : String) (ha : apply_ec_all codec a es = .ok a')
    (hb : apply_ec_all codec b fs = .ok b') (hka : EcKey a.store k) (hkb : EcKey b.store k)
    (hsets : ∀ w ∈ writes_at k es ++ writes_at k fs, ∃ v, w = .set v)
    (hsame : ∀ v, Lww.Seen (a.store.metadata.get k) (writes_at k es) v ↔
      Lww.Seen (b.store.metadata.get k) (writes_at k fs) v)
    (hstamps : ∀ u v, Lww.Seen (a.store.metadata.get k) (writes_at k es) u →
      Lww.Seen (a.store.metadata.get k) (writes_at k es) v →
      decode_modified_at codec u = decode_modified_at codec v → u = v) :
    a'.store.metadata.get k = b'.store.metadata.get k := by
  obtain ⟨-, hrow, -⟩ := apply_ec_all_row ha hka
  obtain ⟨-, hrow', -⟩ := apply_ec_all_row hb hkb
  have hlatest := Lww.latest_foldl_merge (c := clocks codec) (x := a.store.metadata.get k)
    fun w hw => hsets w (mem_append_left _ hw)
  have hlatest' := Lww.latest_foldl_merge (c := clocks codec) (x := b.store.metadata.get k)
    fun w hw => hsets w (mem_append_right _ hw)
  -- both rows are the latest of the same values
  rw [← funext fun v => propext (hsame v)] at hlatest'
  rw [hrow, hrow']
  exact hlatest.unique hlatest' hstamps

/-- The bytes of an image are the text of its time. -/
def timed_codec : MetadataCodec where
  decode bytes := .ok ⟨"", "", String.ofList (bytes.map fun b => Char.ofNat b.toNat), DT_REG, bytes⟩
  encode metadata := metadata.unread
  parse_rfc3339 _ := none

/-- One replica held the first value and gets the others late and twice, the other had nothing. -/
theorem replicas_agree_on_task :
    ∃ a a' b', apply_ec_all timed_codec .fresh [set_task [49]] = .ok a ∧
      apply_ec_all timed_codec a [set_task [51], set_task [50], set_task [51]] = .ok a' ∧
      apply_ec_all timed_codec .fresh [set_task [50], set_task [51], set_task [49]] = .ok b' ∧
      a'.store.metadata.get "/t/1" = b'.store.metadata.get "/t/1" := by
  have hrun : succeeds (apply_ec_all timed_codec .fresh [set_task [49]]) (fun a =>
      succeeds (apply_ec_all timed_codec a [set_task [51], set_task [50], set_task [51]]) fun _ =>
      succeeds (apply_ec_all timed_codec .fresh [set_task [50], set_task [51], set_task [49]]) fun _ =>
      succeeds (protected_in_txn a.store "/t/1") (fun p => !p) &&
      decide (a.store.metadata.get "/t/1" = some [49])) = true := by
    decide +kernel
  obtain ⟨a, ha, hrun⟩ := succeeds_iff.mp hrun
  obtain ⟨a', ha', hrun⟩ := succeeds_iff.mp hrun
  obtain ⟨b', hb', hrun⟩ := succeeds_iff.mp hrun
  obtain ⟨hpa, hva⟩ := (Bool.and_eq_true _ _).mp hrun
  have hwa : writes_at "/t/1" [set_task [51], set_task [50], set_task [51]] =
      [.set [51], .set [50], .set [51]] := by decide +kernel
  have hwb : writes_at "/t/1" [set_task [50], set_task [51], set_task [49]] =
      [.set [50], .set [51], .set [49]] := by decide +kernel
  refine ⟨a, a', b', ha, ha', hb', replicas_agree_on_what_they_saw timed_codec a a' .fresh b' _ _
    "/t/1" ha' hb' (ec_key_of_unprotected hpa) (ec_key_of_unprotected (by decide +kernel)) ?_ ?_ ?_⟩
  · rw [hwa, hwb]
    simp
  · rw [hwa, hwb, of_decide_eq_true hva]
    intro v
    have hnone : FullStateMachine.fresh.store.metadata.get "/t/1" = none := rfl
    simp only [Lww.Seen, hnone, some.injEq, reduceCtorEq, mem_cons, Lww.Write.set.injEq, not_mem_nil,
      or_false, false_or, eq_comm]
    tauto
  · rw [hwa, of_decide_eq_true hva]
    intro u v hu hv
    simp only [Lww.Seen, some.injEq, mem_cons, Lww.Write.set.injEq, not_mem_nil, or_false] at hu hv
    rcases hu with rfl | rfl | rfl | rfl <;> rcases hv with rfl | rfl | rfl | rfl <;> decide +kernel

end NexusVfs
