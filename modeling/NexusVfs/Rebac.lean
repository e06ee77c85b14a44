/-
The relationship-based permission engine: `compute_permission` over the graph of a tuple
list.

The graph's maps are kept as the lists of what was pushed into them, in order.
`namespaces` may be any registry. The source counts the depth up to `MAX_DEPTH`; here
the recursion is on the levels that are left. The engine is an instance of `DepthSearch`
(`compute_permission_eq_search`).
-/
import NexusVfs.DepthSearch

namespace NexusVfs.Rebac

open DepthSearch

/-! ## Tuples and namespaces -/

structure Entity where
  entity_type : String
  entity_id : String
deriving DecidableEq, Repr

structure ReBACTuple where
  subject_type : String
  subject_id : String
  subject_relation : Option String
  relation : String
  object_type : String
  object_id : String
deriving DecidableEq, Repr

def ReBACTuple.subject (t : ReBACTuple) : Entity := ⟨t.subject_type, t.subject_id⟩

def ReBACTuple.object (t : ReBACTuple) : Entity := ⟨t.object_type, t.object_id⟩

structure TupleToUsersetConfig where
  tupleset : String
  computed_userset : String

inductive RelationConfig where
  | Direct (text : String)
  | Union (union : List String)
  | TupleToUserset (tuple_to_userset : TupleToUsersetConfig)
  | EmptyDict

structure NamespaceConfig where
  relations : String → Option RelationConfig
  permissions : String → Option (List String)

/-- The namespace registry: object type to configuration. -/
abbrev Namespaces := String → Option NamespaceConfig

/-! ## The graph -/

structure UsersetEntry where
  subject_type : String
  subject_id : String
  subject_relation : String

structure ReBACGraph where
  tuple_index : List (Entity × String × Entity)
  adjacency_list : List ((Entity × String) × Entity)
  reverse_adjacency : List ((Entity × String) × Entity)
  userset_index : List ((Entity × String) × UsersetEntry)

def pushes {κ β : Type} [DecidableEq κ] (index : List (κ × β)) (key : κ) : List β :=
  index.filterMap fun row => if row.1 = key then some row.2 else none

namespace ReBACGraph

def from_tuples (tuples : List ReBACTuple) : ReBACGraph where
  tuple_index := tuples.filterMap fun t =>
    match t.subject_relation with
    | none => some (t.object, t.relation, t.subject)
    | some _ => none
  adjacency_list := tuples.map fun t => ((t.subject, t.relation), t.object)
  reverse_adjacency := tuples.map fun t => ((t.object, t.relation), t.subject)
  userset_index := tuples.filterMap fun t =>
    match t.subject_relation with
    | none => none
    | some subject_relation =>
      some ((t.object, t.relation), ⟨t.subject_type, t.subject_id, subject_relation⟩)

/-- A direct tuple for the subject, or for the wildcard `*:*`. -/
def check_direct_relation (g : ReBACGraph) (subject : Entity) (relation : String)
    (object : Entity) : Bool :=
  if (object, relation, subject) ∈ g.tuple_index then true
  else (object, relation, (⟨"*", "*"⟩ : Entity)) ∈ g.tuple_index

def find_related_objects (g : ReBACGraph) (subject : Entity) (relation : String) : List Entity :=
  pushes g.adjacency_list (subject, relation)

def find_subjects_for_object (g : ReBACGraph) (object : Entity) (relation : String) : List Entity :=
  pushes g.reverse_adjacency (object, relation)

def get_usersets (g : ReBACGraph) (object : Entity) (relation : String) : List UsersetEntry :=
  pushes g.userset_index (object, relation)

end ReBACGraph

/-! ## The computation -/

def MAX_DEPTH : ℕ := 50

structure Query where
  subject : Entity
  permission : String
  object : Entity
deriving DecidableEq, Repr

/-- A recursive call: subject, permission, object, with the memo and the visited set. -/
abbrev Compute := Entity → String → Entity → Memory Query → Bool × Memory Query

def check_relation_with_usersets (g : ReBACGraph) (compute : Compute) (subject : Entity)
    (relation : String) (object : Entity) (m : Memory Query) : Bool × Memory Query :=
  if g.check_direct_relation subject relation object then (true, m)
  else
    any_of (fun (userset : UsersetEntry) m =>
        compute subject userset.subject_relation ⟨userset.subject_type, userset.subject_id⟩ m)
      (g.get_usersets object relation) m

/-- `tupleToUserset`: forward, then reverse unless the tupleset is `parent`, then the tuples of the
relation itself. -/
def check_tuple_to_userset (g : ReBACGraph) (compute : Compute) (ttu : TupleToUsersetConfig)
    (subject : Entity) (permission : String) (object : Entity) (m : Memory Query) :
    Bool × Memory Query :=
  let forward := any_of (fun target m => compute subject ttu.computed_userset target m)
    (g.find_related_objects object ttu.tupleset) m
  let reverse :=
    if !forward.1 && ttu.tupleset != "parent" then
      any_of (fun target m => compute subject ttu.computed_userset target m)
        (g.find_subjects_for_object object ttu.tupleset) forward.2
    else forward
  if reverse.1 then reverse
  else check_relation_with_usersets g compute subject permission object reverse.2

def evaluate (g : ReBACGraph) (namespaces : Namespaces) (compute : Compute) (subject : Entity)
    (permission : String) (object : Entity) (m : Memory Query) : Bool × Memory Query :=
  match namespaces object.entity_type with
  | none => check_relation_with_usersets g compute subject permission object m
  | some namespace_config =>
    match namespace_config.permissions permission with
    | some usersets => any_of (fun userset m => compute subject userset object m) usersets m
    | none =>
      match namespace_config.relations permission with
      | some (.Direct _) => check_relation_with_usersets g compute subject permission object m
      | some .EmptyDict => check_relation_with_usersets g compute subject permission object m
      | some (.Union union) => any_of (fun rel m => compute subject rel object m) union m
      | some (.TupleToUserset ttu) => check_tuple_to_userset g compute ttu subject permission object m
      | none => check_relation_with_usersets g compute subject permission object m

def compute_levels (g : ReBACGraph) (namespaces : Namespaces) : ℕ → Compute
  | 0, _, _, _, m => (false, m)
  | levels + 1, subject, permission, object, m =>
    match m.memo.lookup ⟨subject, permission, object⟩ with
    | some result => (result, m)
    | none =>
      if (⟨subject, permission, object⟩ : Query) ∈ m.visited then (false, m)
      else
        let out := evaluate g namespaces (compute_levels g namespaces levels) subject permission
          object { m with visited := ⟨subject, permission, object⟩ :: m.visited }
        (out.1, { out.2 with memo := (⟨subject, permission, object⟩, out.1) :: out.2.memo })

def compute_permission (subject : Entity) (permission : String) (object : Entity) (g : ReBACGraph)
    (namespaces : Namespaces) (m : Memory Query) (depth : ℕ) : Bool × Memory Query :=
  compute_levels g namespaces (MAX_DEPTH + 1 - depth) subject permission object m

/-! ## The computation is a search -/

/-- The tuples of the relation itself: a direct one answers, a userset goes on to its members. -/
def tuple_rules (g : ReBACGraph) (q : Query) : List (Move Query) :=
  .leaf (g.check_direct_relation q.subject q.permission q.object) ::
    (g.get_usersets q.object q.permission).map fun userset =>
      .go ⟨q.subject, userset.subject_relation, ⟨userset.subject_type, userset.subject_id⟩⟩

def ttu_rules (g : ReBACGraph) (ttu : TupleToUsersetConfig) (q : Query) : List (Move Query) :=
  (g.find_related_objects q.object ttu.tupleset).map
      (fun target => .go ⟨q.subject, ttu.computed_userset, target⟩) ++
    ((if ttu.tupleset = "parent" then [] else
      (g.find_subjects_for_object q.object ttu.tupleset).map
        fun target => .go ⟨q.subject, ttu.computed_userset, target⟩) ++
    tuple_rules g q)

def rules (g : ReBACGraph) (namespaces : Namespaces) (q : Query) : List (Move Query) :=
  match namespaces q.object.entity_type with
  | none => tuple_rules g q
  | some namespace_config =>
    match namespace_config.permissions q.permission with
    | some usersets => usersets.map fun userset => .go ⟨q.subject, userset, q.object⟩
    | none =>
      match namespace_config.relations q.permission with
      | some (.Union union) => union.map fun rel => .go ⟨q.subject, rel, q.object⟩
      | some (.TupleToUserset ttu) => ttu_rules g ttu q
      | _ => tuple_rules g q

def as_search (compute : Compute) (q : Query) (m : Memory Query) : Bool × Memory Query :=
  compute q.subject q.permission q.object m

variable (g : ReBACGraph) (namespaces : Namespaces) (compute : Compute) (subject : Entity)
  (permission : String) (object : Entity) (m : Memory Query)

theorem any_of_go {α : Type} (p : α → String) (o : α → Entity) (xs : List α) :
    any_of (fun x m => compute subject (p x) (o x) m) xs m =
      any_of (follow (as_search compute)) (xs.map fun x => .go ⟨subject, p x, o x⟩) m :=
  (any_of_map (follow (as_search compute)) (fun x => .go ⟨subject, p x, o x⟩) xs m).symm

theorem check_relation_with_usersets_eq :
    check_relation_with_usersets g compute subject permission object m =
      any_of (follow (as_search compute)) (tuple_rules g ⟨subject, permission, object⟩) m := by
  rw [tuple_rules, any_of, check_relation_with_usersets, any_of_go]
  cases g.check_direct_relation subject permission object with
  | true => rfl
  | false => rfl

theorem check_tuple_to_userset_eq (ttu : TupleToUsersetConfig) :
    check_tuple_to_userset g compute ttu subject permission object m =
      any_of (follow (as_search compute)) (ttu_rules g ttu ⟨subject, permission, object⟩) m := by
  rw [ttu_rules, any_of_append, any_of_append, check_tuple_to_userset, any_of_go]
  generalize any_of (follow (as_search compute)) (List.map _ _) m = forward
  obtain ⟨found, m₁⟩ := forward
  cases found with
  | true => rfl
  | false =>
    rw [check_relation_with_usersets_eq]
    by_cases hparent : ttu.tupleset = "parent"
    · -- only the forward targets were tried
      simp [hparent, any_of]
    · rw [any_of_go]
      simp only [hparent, if_false, bne_iff_ne, ne_eq, not_false_eq_true, Bool.not_false,
        Bool.true_and, if_true, Bool.false_eq_true]

theorem evaluate_eq :
    evaluate g namespaces compute subject permission object m =
      any_of (follow (as_search compute)) (rules g namespaces ⟨subject, permission, object⟩) m := by
  have htuples := check_relation_with_usersets_eq g compute subject permission object m
  unfold evaluate rules
  cases namespaces object.entity_type with
  | none => exact htuples
  | some config =>
    dsimp only
    cases config.permissions permission with
    | some usersets => exact any_of_go compute subject m (fun u => u) (fun _ => object) usersets
    | none =>
      cases config.relations permission with
      | none => exact htuples
      | some relation_config =>
        cases relation_config with
        | Direct text => exact htuples
        | EmptyDict => exact htuples
        | Union union => exact any_of_go compute subject m (fun u => u) (fun _ => object) union
        | TupleToUserset ttu =>
          exact check_tuple_to_userset_eq g compute subject permission object m ttu

theorem compute_levels_eq_search (levels : ℕ) :
    as_search (compute_levels g namespaces levels) = search (rules g namespaces) levels := by
  induction levels with
  | zero => rfl
  | succ levels ih =>
    funext q m
    conv_lhs => rw [as_search, compute_levels, evaluate_eq, ih]
    rfl

theorem compute_permission_eq_search (depth : ℕ) :
    compute_permission subject permission object g namespaces m depth =
      search (rules g namespaces) (MAX_DEPTH + 1 - depth) ⟨subject, permission, object⟩ m := by
  rw [← compute_levels_eq_search, as_search, compute_permission]

end NexusVfs.Rebac
