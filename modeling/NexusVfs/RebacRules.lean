/-
What the permission engine computes: the least relation closed under its rules.

`RuleStep` and `Grants` state the rules over a set of tuples, with no graph, no order
and no search; the engine's moves are these rules (`edge_iff`, `leaf_iff`). A chain of
at most `MAX_DEPTH` steps is found unless one of its queries is also the end of a chain
of exactly `MAX_DEPTH` steps that branches off by a rule tried earlier.
-/
import NexusVfs.Rebac

namespace NexusVfs.Rebac

open List DepthSearch

/-! ## The rules -/

/-- The tuples of a relation count for it: it is neither a permission nor a union of others. -/
def TuplesApply (namespaces : Namespaces) (permission : String) (object : Entity) : Prop :=
  ∀ config, namespaces object.entity_type = some config →
    config.permissions permission = none ∧ ∀ union, config.relations permission ≠ some (.Union union)

/-- A direct tuple for the subject, or for everyone. -/
structure Grants (tuples : ReBACTuple → Prop) (namespaces : Namespaces) (q : Query) : Prop where
  apply : TuplesApply namespaces q.permission q.object
  tuple : ∃ t, tuples t ∧ t.subject_relation = none ∧ t.relation = q.permission ∧
    t.object = q.object ∧ (t.subject = q.subject ∨ t.subject = ⟨"*", "*"⟩)

/-- What a query follows from. -/
inductive RuleStep (tuples : ReBACTuple → Prop) (namespaces : Namespaces) : Query → Query → Prop where
  | userset {q : Query} {t : ReBACTuple} {relation : String}
      (happly : TuplesApply namespaces q.permission q.object) (ht : tuples t)
      (hrel : t.relation = q.permission) (hobj : t.object = q.object)
      (hsub : t.subject_relation = some relation) :
      RuleStep tuples namespaces q ⟨q.subject, relation, t.subject⟩
  | permission_member {q : Query} {config : NamespaceConfig} {usersets : List String}
      {userset : String} (hns : namespaces q.object.entity_type = some config)
      (hperm : config.permissions q.permission = some usersets) (hmem : userset ∈ usersets) :
      RuleStep tuples namespaces q ⟨q.subject, userset, q.object⟩
  | union_member {q : Query} {config : NamespaceConfig} {union : List String} {rel : String}
      (hns : namespaces q.object.entity_type = some config)
      (hperm : config.permissions q.permission = none)
      (hrel : config.relations q.permission = some (.Union union)) (hmem : rel ∈ union) :
      RuleStep tuples namespaces q ⟨q.subject, rel, q.object⟩
  | forward {q : Query} {config : NamespaceConfig} {ttu : TupleToUsersetConfig} {t : ReBACTuple}
      (hns : namespaces q.object.entity_type = some config)
      (hperm : config.permissions q.permission = none)
      (hrel : config.relations q.permission = some (.TupleToUserset ttu)) (ht : tuples t)
      (hset : t.relation = ttu.tupleset) (hsub : t.subject = q.object) :
      RuleStep tuples namespaces q ⟨q.subject, ttu.computed_userset, t.object⟩
  | reverse {q : Query} {config : NamespaceConfig} {ttu : TupleToUsersetConfig} {t : ReBACTuple}
      (hns : namespaces q.object.entity_type = some config)
      (hperm : config.permissions q.permission = none)
      (hrel : config.relations q.permission = some (.TupleToUserset ttu)) (ht : tuples t)
      (hset : t.relation = ttu.tupleset) (hobj : t.object = q.object)
      (hparent : ttu.tupleset ≠ "parent") :
      RuleStep tuples namespaces q ⟨q.subject, ttu.computed_userset, t.subject⟩

inductive Derivable (tuples : ReBACTuple → Prop) (namespaces : Namespaces) : Query → Prop where
  | grant {q : Query} (h : Grants tuples namespaces q) : Derivable tuples namespaces q
  | step {q k : Query} (h : RuleStep tuples namespaces q k) (hk : Derivable tuples namespaces k) :
      Derivable tuples namespaces q

structure GrantChain (tuples : ReBACTuple → Prop) (namespaces : Namespaces) (q : Query)
    (ds : List Query) : Prop where
  head : ds.head? = some q
  steps : ds.IsChain (RuleStep tuples namespaces)
  grant : ∃ k, ds.getLast? = some k ∧ Grants tuples namespaces k

/-! ## The moves of the engine are the rules -/

theorem mem_pushes {κ β : Type} [DecidableEq κ] {index : List (κ × β)} {key : κ} {x : β} :
    x ∈ pushes index key ↔ (key, x) ∈ index := by
  rw [pushes, mem_filterMap]
  constructor
  · rintro ⟨⟨k, y⟩, hmem, hsome⟩
    split_ifs at hsome with hk
    cases hsome
    exact hk ▸ hmem
  · intro hmem
    exact ⟨(key, x), hmem, if_pos rfl⟩

section Graph

variable {tuples : List ReBACTuple} {namespaces : Namespaces}

theorem mem_tuple_index {o s : Entity} {r : String} :
    (o, r, s) ∈ (ReBACGraph.from_tuples tuples).tuple_index ↔
      ∃ t ∈ tuples, t.subject_relation = none ∧ t.relation = r ∧ t.object = o ∧ t.subject = s := by
  rw [ReBACGraph.from_tuples, mem_filterMap]
  refine exists_congr fun t => and_congr_right fun _ => ?_
  cases t.subject_relation with
  | none =>
    simp only [Option.some.injEq, Prod.mk.injEq, true_and]
    exact and_left_comm
  | some relation => simp

variable {relation : String} {k q : Query}

variable {subject object target : Entity}

theorem check_direct_relation_iff :
    (ReBACGraph.from_tuples tuples).check_direct_relation subject relation object = true ↔
      ∃ t ∈ tuples, t.subject_relation = none ∧ t.relation = relation ∧ t.object = object ∧
        (t.subject = subject ∨ t.subject = ⟨"*", "*"⟩) := by
  rw [ReBACGraph.check_direct_relation]
  split_ifs with hdirect
  · obtain ⟨t, ht, hnone, hrel, hobj, hsub⟩ := mem_tuple_index.mp hdirect
    exact iff_of_true rfl ⟨t, ht, hnone, hrel, hobj, Or.inl hsub⟩
  · rw [decide_eq_true_iff, mem_tuple_index]
    constructor
    · rintro ⟨t, ht, hnone, hrel, hobj, hsub⟩
      exact ⟨t, ht, hnone, hrel, hobj, Or.inr hsub⟩
    · rintro ⟨t, ht, hnone, hrel, hobj, hsub | hsub⟩
      · exact (hdirect (mem_tuple_index.mpr ⟨t, ht, hnone, hrel, hobj, hsub⟩)).elim
      · exact ⟨t, ht, hnone, hrel, hobj, hsub⟩

theorem mem_find_related_objects :
    target ∈ (ReBACGraph.from_tuples tuples).find_related_objects subject relation ↔
      ∃ t ∈ tuples, t.subject = subject ∧ t.relation = relation ∧ t.object = target := by
  simp [ReBACGraph.find_related_objects, ReBACGraph.from_tuples, mem_pushes, and_assoc]

theorem mem_find_subjects_for_object :
    target ∈ (ReBACGraph.from_tuples tuples).find_subjects_for_object object relation ↔
      ∃ t ∈ tuples, t.object = object ∧ t.relation = relation ∧ t.subject = target := by
  simp [ReBACGraph.find_subjects_for_object, ReBACGraph.from_tuples, mem_pushes, and_assoc]

theorem mem_get_usersets {userset : UsersetEntry} :
    userset ∈ (ReBACGraph.from_tuples tuples).get_usersets object relation ↔
      ∃ t ∈ tuples, t.object = object ∧ t.relation = relation ∧
        t.subject_relation = some userset.subject_relation ∧
        t.subject = ⟨userset.subject_type, userset.subject_id⟩ := by
  rw [ReBACGraph.get_usersets, mem_pushes, ReBACGraph.from_tuples, mem_filterMap]
  refine exists_congr fun t => and_congr_right fun _ => ?_
  cases hr : t.subject_relation with
  | none => simp
  | some r =>
    obtain ⟨ty, id, rel⟩ := userset
    simp only [Option.some.injEq, Prod.mk.injEq, UsersetEntry.mk.injEq, ReBACTuple.subject,
      Entity.mk.injEq, and_assoc]
    tauto

theorem leaf_tuple_rules :
    .leaf true ∈ tuple_rules (.from_tuples tuples) q ↔
      ∃ t ∈ tuples, t.subject_relation = none ∧ t.relation = q.permission ∧ t.object = q.object ∧
        (t.subject = q.subject ∨ t.subject = ⟨"*", "*"⟩) := by
  rw [tuple_rules, mem_cons, ← check_direct_relation_iff, Move.leaf.injEq]
  constructor
  · rintro (h | h)
    · exact h.symm
    · simp at h
  · intro h
    exact Or.inl h.symm

theorem go_tuple_rules :
    .go k ∈ tuple_rules (.from_tuples tuples) q ↔
      ∃ t ∈ tuples, t.object = q.object ∧ t.relation = q.permission ∧
        ∃ relation, t.subject_relation = some relation ∧ k = ⟨q.subject, relation, t.subject⟩ := by
  rw [tuple_rules, mem_cons, mem_map]
  constructor
  · rintro (h | ⟨userset, hmem, heq⟩)
    · cases h
    · cases heq
      obtain ⟨t, ht, hobj, hrel, hsub, hsubject⟩ := mem_get_usersets.mp hmem
      exact ⟨t, ht, hobj, hrel, _, hsub, by rw [hsubject]⟩
  · rintro ⟨t, ht, hobj, hrel, relation, hsub, rfl⟩
    refine Or.inr ⟨⟨t.subject_type, t.subject_id, relation⟩, ?_, rfl⟩
    exact mem_get_usersets.mpr ⟨t, ht, hobj, hrel, hsub, rfl⟩

/-- The moves of `tupleToUserset` besides the tuple rules: forward, and reverse unless the tupleset
is `parent`. -/
theorem mem_ttu_rules {ttu : TupleToUsersetConfig} {x : Move Query} :
    x ∈ ttu_rules (.from_tuples tuples) ttu q ↔
      (∃ t ∈ tuples, t.subject = q.object ∧ t.relation = ttu.tupleset ∧
        x = .go ⟨q.subject, ttu.computed_userset, t.object⟩) ∨
      (∃ t ∈ tuples, ttu.tupleset ≠ "parent" ∧ t.object = q.object ∧ t.relation = ttu.tupleset ∧
        x = .go ⟨q.subject, ttu.computed_userset, t.subject⟩) ∨
      x ∈ tuple_rules (.from_tuples tuples) q := by
  rw [ttu_rules, mem_append, mem_append]
  refine or_congr ?_ (or_congr ?_ Iff.rfl)
  · simp only [mem_map, mem_find_related_objects]
    constructor
    · rintro ⟨_, ⟨t, ht, hsub, hrel, rfl⟩, rfl⟩
      exact ⟨t, ht, hsub, hrel, rfl⟩
    · rintro ⟨t, ht, hsub, hrel, rfl⟩
      exact ⟨_, ⟨t, ht, hsub, hrel, rfl⟩, rfl⟩
  · split_ifs with hparent
    · simp [hparent]
    · simp only [mem_map, mem_find_subjects_for_object]
      constructor
      · rintro ⟨_, ⟨t, ht, hobj, hrel, rfl⟩, rfl⟩
        exact ⟨t, ht, hparent, hobj, hrel, rfl⟩
      · rintro ⟨t, ht, -, hobj, hrel, rfl⟩
        exact ⟨_, ⟨t, ht, hobj, hrel, rfl⟩, rfl⟩

inductive RulesOf (g : ReBACGraph) (namespaces : Namespaces) (q : Query) : Prop where
  | tuples (happly : TuplesApply namespaces q.permission q.object)
      (h : rules g namespaces q = tuple_rules g q)
  | ttu (config : NamespaceConfig) (ttu : TupleToUsersetConfig)
      (happly : TuplesApply namespaces q.permission q.object)
      (hns : namespaces q.object.entity_type = some config)
      (hperm : config.permissions q.permission = none)
      (hrel : config.relations q.permission = some (.TupleToUserset ttu))
      (h : rules g namespaces q = ttu_rules g ttu q)
  | permission (config : NamespaceConfig) (usersets : List String)
      (hns : namespaces q.object.entity_type = some config)
      (hperm : config.permissions q.permission = some usersets)
      (h : rules g namespaces q = usersets.map fun userset => .go ⟨q.subject, userset, q.object⟩)
  | union (config : NamespaceConfig) (union : List String)
      (hns : namespaces q.object.entity_type = some config)
      (hperm : config.permissions q.permission = none)
      (hrel : config.relations q.permission = some (.Union union))
      (h : rules g namespaces q = union.map fun rel => .go ⟨q.subject, rel, q.object⟩)

theorem rules_of (g : ReBACGraph) (namespaces : Namespaces) (q : Query) :
    RulesOf g namespaces q := by
  cases hns : namespaces q.object.entity_type with
  | none =>
    refine .tuples (fun config hconfig => ?_) (by simp only [rules, hns])
    rw [hns] at hconfig
    cases hconfig
  | some config =>
    cases hperm : config.permissions q.permission with
    | some usersets => exact .permission config usersets hns hperm (by simp only [rules, hns, hperm])
    | none =>
      have happly : (∀ union, config.relations q.permission ≠ some (.Union union)) →
          TuplesApply namespaces q.permission q.object := by
        intro hunion config' hconfig
        rw [hns] at hconfig
        cases hconfig
        exact ⟨hperm, hunion⟩
      cases hrel : config.relations q.permission with
      | none => exact .tuples (happly (by simp [hrel])) (by simp only [rules, hns, hperm, hrel])
      | some relation_config =>
        cases relation_config with
        | Direct text | EmptyDict =>
          exact .tuples (happly (by simp [hrel])) (by simp only [rules, hns, hperm, hrel])
        | Union union =>
          exact .union config union hns hperm hrel (by simp only [rules, hns, hperm, hrel])
        | TupleToUserset ttu =>
          exact .ttu config ttu (happly (by simp [hrel])) hns hperm hrel
            (by simp only [rules, hns, hperm, hrel])

theorem tuple_rules_subset (h : TuplesApply namespaces q.permission q.object) :
    tuple_rules (.from_tuples tuples) q ⊆ rules (.from_tuples tuples) namespaces q := by
  intro x hx
  cases rules_of (.from_tuples tuples) namespaces q with
  | tuples _ heq => rwa [heq]
  | ttu config ttu _ _ _ _ heq =>
    rw [heq]
    exact mem_ttu_rules.mpr (Or.inr (Or.inr hx))
  | permission config usersets hns hperm _ =>
    rw [(h config hns).1] at hperm
    cases hperm
  | union config union hns _ hrel _ => exact ((h config hns).2 union hrel).elim

theorem leaf_iff :
    .leaf true ∈ rules (.from_tuples tuples) namespaces q ↔ Grants (· ∈ tuples) namespaces q := by
  constructor
  · intro hleaf
    cases rules_of (.from_tuples tuples) namespaces q with
    | tuples happly heq =>
      rw [heq] at hleaf
      exact ⟨happly, leaf_tuple_rules.mp hleaf⟩
    | ttu config ttu happly _ _ _ heq =>
      rw [heq, mem_ttu_rules] at hleaf
      rcases hleaf with ⟨t, _, _, _, h⟩ | ⟨t, _, _, _, _, h⟩ | hleaf
      · cases h
      · cases h
      · exact ⟨happly, leaf_tuple_rules.mp hleaf⟩
    | permission config usersets _ _ heq => simp [heq] at hleaf
    | union config union _ _ _ heq => simp [heq] at hleaf
  · rintro ⟨happly, htuple⟩
    exact tuple_rules_subset happly (leaf_tuple_rules.mpr htuple)

theorem RuleStep.of_tuple_rules (happly : TuplesApply namespaces q.permission q.object)
    (h : .go k ∈ tuple_rules (.from_tuples tuples) q) : RuleStep (· ∈ tuples) namespaces q k := by
  obtain ⟨t, ht, hobj, hrel, relation, hsub, rfl⟩ := go_tuple_rules.mp h
  exact .userset happly ht hrel hobj hsub

theorem edge_iff :
    Edge (rules (.from_tuples tuples) namespaces) q k ↔ RuleStep (· ∈ tuples) namespaces q k := by
  rw [Edge]
  constructor
  · intro hgo
    cases rules_of (.from_tuples tuples) namespaces q with
    | tuples happly heq =>
      rw [heq] at hgo
      exact .of_tuple_rules happly hgo
    | ttu config ttu happly hns hperm hrel heq =>
      rw [heq, mem_ttu_rules] at hgo
      rcases hgo with ⟨t, ht, hsub, hset, h⟩ | ⟨t, ht, hparent, hobj, hset, h⟩ | hgo
      · cases h
        exact .forward hns hperm hrel ht hset hsub
      · cases h
        exact .reverse hns hperm hrel ht hset hobj hparent
      · exact .of_tuple_rules happly hgo
    | permission config usersets hns hperm heq =>
      rw [heq, mem_map] at hgo
      obtain ⟨userset, hmem, h⟩ := hgo
      cases h
      exact .permission_member hns hperm hmem
    | union config union hns hperm hrel heq =>
      rw [heq, mem_map] at hgo
      obtain ⟨rel, hmem, h⟩ := hgo
      cases h
      exact .union_member hns hperm hrel hmem
  · intro hstep
    cases hstep with
    | userset happly ht hrel hobj hsub =>
      exact tuple_rules_subset happly (go_tuple_rules.mpr ⟨_, ht, hobj, hrel, _, hsub, rfl⟩)
    | permission_member hns hperm hmem =>
      simp only [rules, hns, hperm]
      exact mem_map.mpr ⟨_, hmem, rfl⟩
    | union_member hns hperm hrel hmem =>
      simp only [rules, hns, hperm, hrel]
      exact mem_map.mpr ⟨_, hmem, rfl⟩
    | forward hns hperm hrel ht hset hsub =>
      simp only [rules, hns, hperm, hrel]
      exact mem_ttu_rules.mpr (Or.inl ⟨_, ht, hsub, hset, rfl⟩)
    | reverse hns hperm hrel ht hset hobj hparent =>
      simp only [rules, hns, hperm, hrel]
      exact mem_ttu_rules.mpr (Or.inr (Or.inl ⟨_, ht, hparent, hobj, hset, rfl⟩))

theorem derives_iff :
    Derives (rules (.from_tuples tuples) namespaces) q ↔ Derivable (· ∈ tuples) namespaces q := by
  constructor
  · intro h
    induction h with
    | leaf h => exact .grant (leaf_iff.mp h)
    | go h _ ih => exact .step (edge_iff.mp h) ih
  · intro h
    induction h with
    | grant h => exact .leaf (leaf_iff.mpr h)
    | step h _ ih => exact .go (edge_iff.mpr h) ih

/-! ## What the engine answers -/

theorem compute_permission_sound {permission : String} {depth : ℕ}
    (h : (compute_permission subject permission object (.from_tuples tuples) namespaces Memory.empty
      depth).1 = true) : Derivable (· ∈ tuples) namespaces ⟨subject, permission, object⟩ := by
  rw [compute_permission_eq_search] at h
  exact derives_iff.mp ((search_sound _ _ sound_empty).2 h)

end Graph

/-- A chain the cut-off cannot hide. It repeats no query, has at most `MAX_DEPTH` steps, and none of
its queries but the last is the end of a chain of exactly `MAX_DEPTH` steps that repeats none and
leaves it by a rule tried earlier. -/
structure Unhidden (tuples : List ReBACTuple) (namespaces : Namespaces) (q : Query)
    (ds : List Query) : Prop where
  chain : GrantChain (· ∈ tuples) namespaces q ds
  nodup : ds.Nodup
  short : ds.length ≤ MAX_DEPTH + 1
  clear : ∀ k ∈ ds.dropLast, ∀ P : List Query, P.head? = some q → P.getLast? = some k →
    P.IsChain (RuleStep (· ∈ tuples) namespaces) → P.Nodup → P.length = MAX_DEPTH + 1 →
    ¬ Earlier (rules (.from_tuples tuples) namespaces) P ds

variable {tuples : List ReBACTuple} {namespaces : Namespaces} {ds : List Query}

theorem isChain_iff :
    ds.IsChain (Edge (rules (.from_tuples tuples) namespaces)) ↔
      ds.IsChain (RuleStep (· ∈ tuples) namespaces) :=
  ⟨fun h => h.imp fun _ _ => edge_iff.mp, fun h => h.imp fun _ _ => edge_iff.mpr⟩

variable {q : Query}

theorem Unhidden.safe (h : Unhidden tuples namespaces q ds) :
    Safe (rules (.from_tuples tuples) namespaces) q (MAX_DEPTH + 1) ds where
  derivation := by
    obtain ⟨hhead, hsteps, k, hlast, hgrant⟩ := h.chain
    exact ⟨hhead, isChain_iff.mpr hsteps, k, hlast, leaf_iff.mpr hgrant⟩
  nodup := h.nodup
  short := h.short
  clear := by
    intro k hk P htrail
    exact h.clear k hk P htrail.head htrail.last (isChain_iff.mp htrail.chain) htrail.nodup
      htrail.length

theorem compute_permission_complete (h : Unhidden tuples namespaces q ds) :
    (compute_permission q.subject q.permission q.object (.from_tuples tuples) namespaces Memory.empty
      0).1 = true := by
  rw [compute_permission_eq_search]
  exact search_complete (Nat.succ_pos MAX_DEPTH) h.safe

/-- What is derivable in at most `MAX_DEPTH` steps is found, provided that some chain for it is not
hidden by the cut-off. -/
theorem shallow_grant_found (tuples : List ReBACTuple) (namespaces : Namespaces) (q : Query)
    (hclear : (∃ ds, GrantChain (· ∈ tuples) namespaces q ds ∧ ds.length ≤ MAX_DEPTH + 1) →
      ∃ ds, Unhidden tuples namespaces q ds) :
    (∃ ds, GrantChain (· ∈ tuples) namespaces q ds ∧ ds.length ≤ MAX_DEPTH + 1) →
      (compute_permission q.subject q.permission q.object (.from_tuples tuples) namespaces
        Memory.empty 0).1 = true := by
  intro hchain
  obtain ⟨ds, hds⟩ := hclear hchain
  exact compute_permission_complete hds

/-! ## A chain that the cut-off hides -/

def group (c : Char) : Entity := ⟨"group", String.singleton c⟩

def member_query (c : Char) : Query := ⟨⟨"user", "u"⟩, "member", group c⟩

def root_query : Query := ⟨⟨"user", "u"⟩, "viewer", ⟨"file", "/p"⟩⟩

def members_have (c : Char) (relation : String) (object : Entity) : ReBACTuple :=
  ⟨"group", String.singleton c, some "member", relation, object.entity_type, object.entity_id⟩

def user_in (c : Char) : ReBACTuple := ⟨"user", "u", none, "member", "group", String.singleton c⟩

/-- A file that the members of a group can view, and a user in it. -/
def small_group : List ReBACTuple := [members_have 'a' "viewer" ⟨"file", "/p"⟩, user_in 'a']

theorem unhidden_small_group :
    Unhidden small_group (fun _ => none) root_query [root_query, member_query 'a'] where
  chain := ⟨rfl, isChain_iff.mp (by decide +kernel), _, rfl, leaf_iff.mp (by decide +kernel)⟩
  nodup := by decide +kernel
  short := by decide
  clear := by
    rintro k - P - - - - - ⟨S, n, a, b, A, B, hds, -, xs, ys, hmoves, hb, -⟩
    have hrules : rules (.from_tuples small_group) (fun _ => none) root_query =
        [.leaf false, .go (member_query 'a')] := by decide +kernel
    cases S with
    | cons s S =>
      have hlen := congrArg length hds
      simp at hlen
      omega
    | nil =>
      obtain ⟨rfl, -⟩ := cons.inj hds
      rw [hrules] at hmoves
      match xs with
      | [] => cases hb
      | [x] =>
        obtain ⟨rfl, -⟩ := cons.inj hmoves
        simp at hb
      | _ :: _ :: _ => simp at hmoves

theorem shallow_grant_found_small_group :
    (compute_permission ⟨"user", "u"⟩ "viewer" ⟨"file", "/p"⟩ (.from_tuples small_group)
      (fun _ => none) Memory.empty 0).1 = true :=
  shallow_grant_found small_group (fun _ => none) root_query
    (fun _ => ⟨_, unhidden_small_group⟩)
    ⟨_, unhidden_small_group.chain, unhidden_small_group.short⟩

/-- Groups nested 51 deep below the file's first viewers, and a second way into the last but one. -/
def detour : List ReBACTuple :=
  let nested := "abcdefghijklmnopqrstuvwxyzABCDEFGHIJKLMNOPQRSTUVWXY".toList
  [members_have 'a' "viewer" ⟨"file", "/p"⟩, members_have '0' "viewer" ⟨"file", "/p"⟩] ++
    (nested.zip nested.tail).map (fun pair => members_have pair.2 "member" (group pair.1)) ++
    [members_have 'X' "member" (group '0'), user_in 'Y']

/-- Three steps and a direct tuple, but group `X` is first met at depth 50. -/
theorem short_chain_denied :
    (∃ ds, GrantChain (· ∈ detour) (fun _ => none) root_query ds ∧ ds.length ≤ MAX_DEPTH + 1) ∧
      (compute_permission root_query.subject root_query.permission root_query.object
        (.from_tuples detour) (fun _ => none) Memory.empty 0).1 = false := by
  refine ⟨⟨[root_query, member_query '0', member_query 'X', member_query 'Y'], ?_, by decide⟩,
    by decide +kernel⟩
  exact ⟨rfl, isChain_iff.mp (by decide +kernel), _, rfl, leaf_iff.mp (by decide +kernel)⟩

/-! ## One memo for many queries -/

section Shared

variable (g : ReBACGraph) (namespaces : Namespaces)

/-- The queries of the candidate collection, one after another: the memo is shared, the visited set
is not. -/
def compute_shared : List Query → List (Query × Bool) → List Bool
  | [], _ => []
  | q :: queries, memo =>
    let out := compute_permission q.subject q.permission q.object g namespaces ⟨memo, []⟩ 0
    out.1 :: compute_shared queries out.2.memo

def compute_alone (q : Query) : Bool :=
  (compute_permission q.subject q.permission q.object g namespaces Memory.empty 0).1

theorem compute_shared_exact {queries : List Query} {memo : List (Query × Bool)}
    (h : ∀ q ∈ queries, Shallow (rules g namespaces) (MAX_DEPTH + 1) q)
    (hmemo : Exact (rules g namespaces) [] ⟨memo, []⟩) :
    compute_shared g namespaces queries memo = queries.map (compute_alone g namespaces) := by
  induction queries generalizing memo with
  | nil => rfl
  | cons q queries ih =>
    obtain ⟨hq, hrest⟩ := forall_mem_cons.mp h
    have hshared := search_exact (P := []) hq nofun hmemo
    have halone := search_exact (P := []) (m := Memory.empty) hq nofun ⟨nofun, nofun⟩
    rw [compute_shared, map_cons, compute_alone, compute_permission_eq_search,
      compute_permission_eq_search]
    exact congrArg₂ cons (Bool.eq_iff_iff.mpr (hshared.2.trans halone.2.symm))
      (ih hrest ⟨hshared.1.memo, nofun⟩)

end Shared

/-- Groups `a` and `b` in each other, and a user in `a` by group `c`. -/
def mutual_groups : List ReBACTuple :=
  [members_have 'b' "member" (group 'a'), members_have 'c' "member" (group 'a'),
    members_have 'a' "member" (group 'b'), user_in 'c']

end NexusVfs.Rebac
