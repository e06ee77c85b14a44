/-
The permission provider: from the rows of a tuple store to the answer for a path.

`build_graph_for_zone` keeps the rows of one zone, and `check` asks the engine for one
relation after the other. The graph is the freshly built one; what the cache adds is in
`GraphCache`. `debug` is the quoting of `{:?}`, which only error texts use. Through the
engine's cut-off an answer also rests on the order in which the store lists its rows.
-/
import NexusVfs.RebacRules
import NexusVfs.Text

namespace NexusVfs.Rebac

open List DepthSearch Text Words Option

/-! ## Tuple keys -/

inductive ReBACTupleStoreError where
  | Backend (message : String)
deriving DecidableEq, Repr

def ReBACTupleStoreError.text : ReBACTupleStoreError → String
  | .Backend message => "rebac tuple store backend error: " ++ message

namespace TupleKey

def SEP : Char := '|'

def segments (zone : String) (t : ReBACTuple) : List String :=
  [zone, t.object_type, t.object_id, t.relation, t.subject_type, t.subject_id] ++
    t.subject_relation.toList

def reserved (seg : String) : Bool :=
  seg.toList.contains SEP || seg.toList.contains '\n' || seg.toList.contains '\r'

def encode (debug : String → String) (zone : String) (t : ReBACTuple) :
    Except ReBACTupleStoreError String :=
  match (segments zone t).find? reserved with
  | some seg =>
    .error (.Backend ("rebac tuple segment contains reserved delimiter '|' or " ++
      "newline/carriage-return: " ++ debug seg))
  | none => .ok (String.intercalate (String.singleton SEP) (segments zone t))

def zone_of (key : String) : Option String := (split_once key SEP).map Prod.fst

/-- The tuple of six or seven segments; the first six may not be empty. -/
def decode_segments (zone object_type object_id relation subject_type subject_id : String)
    (subject_relation : Option String) : Option (String × ReBACTuple) :=
  if [zone, object_type, object_id, relation, subject_type, subject_id].any String.isEmpty then none
  else
    some (zone, { object_type, object_id, relation, subject_type, subject_id, subject_relation })

def decode (key : String) : Option (String × ReBACTuple) :=
  match split key SEP with
  | [zone, object_type, object_id, relation, subject_type, subject_id] =>
    decode_segments zone object_type object_id relation subject_type subject_id none
  | [zone, object_type, object_id, relation, subject_type, subject_id, subject_relation] =>
    decode_segments zone object_type object_id relation subject_type subject_id
      (some subject_relation)
  | _ => none

def gap (segs : List String) : Bool := (segs.take 6).any String.isEmpty

variable {t : ReBACTuple} {debug : String → String} {zone key : String}

theorem decode_of_split (h : split key SEP = segments zone t) :
    decode key = if gap (segments zone t) then none else some (zone, t) := by
  rw [decode, h]
  cases t with
  | mk subject_type subject_id subject_relation relation object_type object_id =>
    cases subject_relation with
    | none => rfl
    | some subject_relation => rfl

theorem split_of_decode (h : decode key = some (zone, t)) :
    split key SEP = segments zone t ∧ gap (segments zone t) = false := by
  rw [decode] at h
  split at h
  case h_3 => cases h
  all_goals
    rename_i hsplit
    rw [decode_segments] at h
    split_ifs at h with hgap
    cases h
    exact ⟨hsplit, Bool.eq_false_iff.mpr hgap⟩

theorem zone_of_decode (h : decode key = some (zone, t)) : zone_of key = some zone :=
  split_once_of_split (split_of_decode h).1

theorem encode_eq_ok : encode debug zone t = .ok key ↔ (segments zone t).find? reserved = none ∧
      String.intercalate (String.singleton SEP) (segments zone t) = key := by
  rw [encode]
  cases (segments zone t).find? reserved with
  | none => simp
  | some seg => simp

theorem split_encoded (h : encode debug zone t = .ok key) : split key SEP = segments zone t := by
  obtain ⟨hfind, rfl⟩ := encode_eq_ok.mp h
  refine split_intercalate fun seg hseg hmem => ?_
  have hres := find?_eq_none.mp hfind seg hseg
  simp [reserved, hmem] at hres

theorem decode_encode (h : encode debug zone t = .ok key) (hfull : gap (segments zone t) = false) :
    decode key = some (zone, t) := by
  rw [decode_of_split (split_encoded h), hfull]
  rfl

theorem segments_of_length {parts : List String} (h : parts.length = 6 ∨ parts.length = 7) :
    ∃ zone t, parts = segments zone t := by
  rcases parts with _ | ⟨z, _ | ⟨o, _ | ⟨i, _ | ⟨r, _ | ⟨st, _ | ⟨si, _ | ⟨sr, _ | _⟩⟩⟩⟩⟩⟩⟩
  case cons.cons.cons.cons.cons.cons.nil => exact ⟨z, ⟨st, si, none, r, o, i⟩, rfl⟩
  case cons.cons.cons.cons.cons.cons.cons.nil => exact ⟨z, ⟨st, si, some sr, r, o, i⟩, rfl⟩
  all_goals simp at h

theorem segments_inj {z : String} {u : ReBACTuple} (h : segments z u = segments zone t) :
    z = zone ∧ u = t := by
  cases t with
  | mk st si sr r o i =>
    cases u with
    | mk st' si' sr' r' o' i' => cases sr <;> cases sr' <;> simp_all [segments]

theorem find_reserved_split :
    (split key SEP).find? reserved = none ↔ '\n' ∉ key.toList ∧ '\r' ∉ key.toList := by
  have hfree (x : Char) (hx : ∀ part : String, x ∈ part.toList → reserved part = true) (hne : x ≠ SEP)
      (h : (split key SEP).find? reserved = none) : x ∉ key.toList := by
    intro hmem
    obtain ⟨part, hpart, hin⟩ := exists_mem_split.mpr ⟨hmem, hne⟩
    exact find?_eq_none.mp h part hpart (hx part hin)
  constructor
  · intro h
    refine ⟨hfree _ (fun part hin => ?_) (by decide) h, hfree _ (fun part hin => ?_) (by decide) h⟩ <;>
      simp [reserved, hin]
  · rintro ⟨hnewline, hreturn⟩
    rw [find?_eq_none]
    intro part hpart hres
    have hin {x : Char} (hx : x ∈ part.toList) := exists_mem_split.mp ⟨part, hpart, hx⟩
    simp only [reserved, Bool.or_eq_true, contains_iff_mem] at hres
    rcases hres with (hsep | hn) | hr
    · exact (hin hsep).2 rfl
    · exact hnewline (hin hn).1
    · exact hreturn (hin hr).1

end TupleKey

/-! ## The graph of a zone -/

def tuples_of_zone (entries : List (String × Bytes)) (zone : String) : List ReBACTuple :=
  entries.filterMap fun (key, _) =>
    if TupleKey.zone_of key ≠ some zone then none
    else (TupleKey.decode key).map fun (_, tuple) => tuple

/-- `list` is what the store's `list()` returns. -/
def build_graph_for_zone (list : Except ReBACTupleStoreError (List (String × Bytes)))
    (zone : String) : Except ReBACTupleStoreError ReBACGraph :=
  list.map fun entries => .from_tuples (tuples_of_zone entries zone)

def ZoneTuple (entries : List (String × Bytes)) (zone : String) (t : ReBACTuple) : Prop :=
  ∃ key value, (key, value) ∈ entries ∧ TupleKey.decode key = some (zone, t)

theorem mem_tuples_of_zone {entries : List (String × Bytes)} {zone : String} {t : ReBACTuple} :
    t ∈ tuples_of_zone entries zone ↔ ZoneTuple entries zone t := by
  rw [tuples_of_zone, mem_filterMap]
  constructor
  · rintro ⟨⟨key, value⟩, hmem, h⟩
    dsimp only at h
    split_ifs at h with hzone
    obtain ⟨⟨z, t'⟩, hdecode, rfl⟩ := map_eq_some_iff.mp h
    -- the prefix that was compared is the zone that was decoded
    have hz := TupleKey.zone_of_decode hdecode
    rw [hz, not_not] at hzone
    cases hzone
    exact ⟨key, value, hmem, hdecode⟩
  · rintro ⟨key, value, hmem, hdecode⟩
    refine ⟨(key, value), hmem, ?_⟩
    dsimp only
    rw [if_neg (not_not.mpr (TupleKey.zone_of_decode hdecode)), hdecode, map_some]

namespace TupleKey

/-- **Grant keys.** A tuple that is encoded is found again, unless one of its required segments is
empty: then the key is written and no reader decodes it. A key decodes only if its tuple encodes to
it, unless a line break is in it. Two pairs never have one key. -/
theorem grant_keys_iff (debug : String → String) (zone : String) (t : ReBACTuple) (key : String) :
    ((∀ k, encode debug zone t = .ok k →
        decode k = some (zone, t) ∧ zone_of k = some zone ∧
          ∀ entries value, (k, value) ∈ entries → t ∈ tuples_of_zone entries zone) ↔
      ((∀ seg ∈ segments zone t, reserved seg = false) →
        gap (segments zone t) = false)) ∧
    ((∀ z u, decode key = some (z, u) → encode debug z u = .ok key) ↔
      ((split key SEP).length = 6 ∨ (split key SEP).length = 7 →
        gap (split key SEP) = false → '\n' ∉ key.toList ∧ '\r' ∉ key.toList)) ∧
    ∀ z u k, encode debug zone t = .ok k → encode debug z u = .ok k →
      z = zone ∧ u = t := by
  refine ⟨⟨fun h hfree => ?_, fun h k henc => ?_⟩, ⟨fun h hlen hgap => ?_, fun h z u hdec => ?_⟩, ?_⟩
  · have henc : encode debug zone t = .ok _ :=
      encode_eq_ok.mpr ⟨find?_eq_none.mpr (by simpa using hfree), rfl⟩
    exact (split_of_decode (h _ henc).1).2
  · have hfind := find?_eq_none.mp (encode_eq_ok.mp henc).1
    have hdec := decode_encode henc (h (by simpa using hfind))
    exact ⟨hdec, zone_of_decode hdec, fun entries value hmem =>
      mem_tuples_of_zone.mpr ⟨k, value, hmem, hdec⟩⟩
  · obtain ⟨z, u, hsplit⟩ := segments_of_length hlen
    rw [hsplit] at hgap
    have henc := h z u (by rw [decode_of_split hsplit, hgap]; rfl)
    rw [← find_reserved_split, hsplit]
    exact (encode_eq_ok.mp henc).1
  · obtain ⟨hsplit, hgap⟩ := split_of_decode hdec
    have hlen : (segments z u).length = 6 ∨ (segments z u).length = 7 := by
      cases hrel : u.subject_relation <;> simp [segments, hrel]
    rw [hsplit] at h
    have hfind := find_reserved_split.mpr (h hlen hgap)
    rw [hsplit] at hfind
    refine encode_eq_ok.mpr ⟨hfind, ?_⟩
    rw [← hsplit, intercalate_split]
  · intro z u k henc henc'
    exact segments_inj ((split_encoded henc').symm.trans (split_encoded henc))

/-- A grant without an object type is written and lost; a key with a line break in an identifier is
read, and could not have been written. -/
theorem grant_without_object_type_is_lost :
    encode id "root" ⟨"user", "alice", none, "reader", "", "a"⟩ =
        .ok "root||a|reader|user|alice" ∧
      decode "root||a|reader|user|alice" = none ∧
      decode "root|doc|a\nb|reader|user|alice" =
        some ("root", ⟨"user", "alice", none, "reader", "doc", "a\nb"⟩) ∧
      ∀ key, encode id "root" ⟨"user", "alice", none, "reader", "doc", "a\nb"⟩ ≠ .ok key := by
  refine ⟨by decide +kernel, by decide +kernel, by decide +kernel, fun key henc => ?_⟩
  exact absurd (encode_eq_ok.mp henc).1 (by decide +kernel)

end TupleKey

/-! ## The provider -/

inductive Permission where
  | Read
  | Write
  | Traverse
deriving DecidableEq, Repr

def Permission.name : Permission → String
  | .Read => "Read"
  | .Write => "Write"
  | .Traverse => "Traverse"

structure OperationContext where
  user_id : String
  zone_id : String
  is_admin : Bool
  is_system : Bool
  subject_type : String
  subject_id : Option String

structure RouteResult where
  zone_id : String

inductive KernelError where
  | PermissionDenied (message : String)
deriving DecidableEq, Repr

def candidate_relations : Permission → List String
  | .Read | .Traverse =>
    ["viewer", "reader", "writer", "owner", "direct_viewer", "direct_editor", "direct_owner"]
  | .Write => ["writer", "owner", "direct_editor", "direct_owner"]

def subject_of (ctx : OperationContext) : Entity :=
  ⟨ctx.subject_type, ctx.subject_id.getD ctx.user_id⟩

def object_of (path : String) : Entity := ⟨"file", path⟩

def zone_of (ctx : OperationContext) (route : Option RouteResult) : String :=
  (route.map RouteResult.zone_id).getD ctx.zone_id

/-- Every relation is asked with a memo of its own. -/
def allows (namespaces : Namespaces) (subject : Entity) (permission : Permission) (object : Entity)
    (graph : ReBACGraph) : Bool :=
  (candidate_relations permission).any fun relation =>
    (compute_permission subject relation object graph namespaces Memory.empty 0).1

def check (debug : String → String) (list : Except ReBACTupleStoreError (List (String × Bytes)))
    (namespaces : Namespaces) (path : String) (route : Option RouteResult) (permission : Permission)
    (ctx : OperationContext) : Except KernelError Unit :=
  if ctx.is_system then .ok ()
  else if ctx.is_admin then .ok ()
  else
    let zone := zone_of ctx route
    match build_graph_for_zone list zone with
    | .error e =>
      .error (.PermissionDenied ("rebac: cannot load graph for zone " ++ debug zone ++ ": " ++ e.text))
    | .ok graph =>
      let subject := subject_of ctx
      let object := object_of path
      if allows namespaces subject permission object graph then .ok ()
      else
        .error (.PermissionDenied ("rebac: " ++ subject.entity_type ++ ":" ++ subject.entity_id ++
          " lacks " ++ permission.name ++ " on " ++ path ++ " (zone=" ++ zone ++ ")"))

/-- The caller is allowed by one of the candidate relations. -/
def DerivablyAllowed (entries : List (String × Bytes)) (namespaces : Namespaces) (path : String)
    (route : Option RouteResult) (permission : Permission) (ctx : OperationContext) : Prop :=
  ∃ relation ∈ candidate_relations permission,
    Derivable (ZoneTuple entries (zone_of ctx route)) namespaces
      ⟨subject_of ctx, relation, object_of path⟩

/-- If a candidate relation is derivable, then one has a chain that the cut-off cannot hide. -/
def NothingHidden (entries : List (String × Bytes)) (namespaces : Namespaces) (path : String)
    (route : Option RouteResult) (permission : Permission) (ctx : OperationContext) : Prop :=
  DerivablyAllowed entries namespaces path route permission ctx →
    ∃ relation ∈ candidate_relations permission, ∃ ds,
      Unhidden (tuples_of_zone entries (zone_of ctx route)) namespaces
        ⟨subject_of ctx, relation, object_of path⟩ ds

section Check

variable {debug : String → String} {namespaces : Namespaces} {path : String}
  {route : Option RouteResult} {permission : Permission} {ctx : OperationContext}

theorem check_ok (hsystem : ctx.is_system = false) (hadmin : ctx.is_admin = false)
    {list : Except ReBACTupleStoreError (List (String × Bytes))} :
    check debug list namespaces path route permission ctx = .ok () ↔
      ∃ entries, list = .ok entries ∧ allows namespaces (subject_of ctx) permission (object_of path)
        (.from_tuples (tuples_of_zone entries (zone_of ctx route))) = true := by
  cases list with
  | error e => simp [check, hsystem, hadmin, build_graph_for_zone, Except.map]
  | ok entries =>
    simp only [check, hsystem, hadmin, build_graph_for_zone, Except.map, Bool.false_eq_true,
      if_false, Except.ok.injEq, exists_eq_left']
    split_ifs with hallows
    · exact iff_of_true rfl hallows
    · exact iff_of_false nofun hallows

variable {entries : List (String × Bytes)}

theorem derivable_zone {zone : String} {q : Query} :
    Derivable (· ∈ tuples_of_zone entries zone) namespaces q ↔
      Derivable (ZoneTuple entries zone) namespaces q := by
  have h : (· ∈ tuples_of_zone entries zone) = ZoneTuple entries zone :=
    funext fun t => propext mem_tuples_of_zone
  rw [h]

theorem allows_sound (h : allows namespaces (subject_of ctx) permission (object_of path)
      (.from_tuples (tuples_of_zone entries (zone_of ctx route))) = true) :
    DerivablyAllowed entries namespaces path route permission ctx := by
  obtain ⟨relation, hmem, hcompute⟩ := any_eq_true.mp h
  exact ⟨relation, hmem, derivable_zone.mp (compute_permission_sound hcompute)⟩

theorem allows_iff (hclear : NothingHidden entries namespaces path route permission ctx) :
    allows namespaces (subject_of ctx) permission (object_of path)
        (.from_tuples (tuples_of_zone entries (zone_of ctx route))) = true ↔
      DerivablyAllowed entries namespaces path route permission ctx := by
  refine ⟨allows_sound, fun h => ?_⟩
  obtain ⟨relation, hmem, ds, hds⟩ := hclear h
  exact any_eq_true.mpr ⟨relation, hmem, compute_permission_complete hds⟩

end Check

/-- A caller who is neither admin nor system is let through only if a candidate relation is
derivable from the tuples of the zone. Two stores with the same tuples for the zone answer alike if
they list them in the same order, or if the cut-off hides nothing in either. -/
theorem grants_are_derived_and_zones_do_not_leak (debug : String → String) (namespaces : Namespaces)
    (path : String) (route : Option RouteResult) (permission : Permission) (ctx : OperationContext)
    (hsystem : ctx.is_system = false) (hadmin : ctx.is_admin = false) :
    (∀ list, check debug list namespaces path route permission ctx = .ok () →
      ∃ entries, list = .ok entries ∧
        DerivablyAllowed entries namespaces path route permission ctx) ∧
    (∀ entries₁ entries₂,
      (∀ t, ZoneTuple entries₁ (zone_of ctx route) t ↔ ZoneTuple entries₂ (zone_of ctx route) t) →
      tuples_of_zone entries₁ (zone_of ctx route) = tuples_of_zone entries₂ (zone_of ctx route) ∨
        (NothingHidden entries₁ namespaces path route permission ctx ∧
          NothingHidden entries₂ namespaces path route permission ctx) →
      check debug (.ok entries₁) namespaces path route permission ctx =
        check debug (.ok entries₂) namespaces path route permission ctx) := by
  constructor
  · intro list h
    obtain ⟨entries, hlist, hallows⟩ := (check_ok hsystem hadmin).mp h
    exact ⟨entries, hlist, allows_sound hallows⟩
  · intro entries₁ entries₂ hsame hwhen
    rcases hwhen with horder | ⟨hclear₁, hclear₂⟩
    · simp only [check, build_graph_for_zone, Except.map, horder]
    · have hderived : DerivablyAllowed entries₁ namespaces path route permission ctx ↔
          DerivablyAllowed entries₂ namespaces path route permission ctx := by
        rw [DerivablyAllowed, DerivablyAllowed, funext fun t => propext (hsame t)]
      have hallows := Bool.eq_iff_iff.mpr
        ((allows_iff hclear₁).trans (hderived.trans (allows_iff hclear₂).symm))
      simp only [check, build_graph_for_zone, Except.map, hallows]

/-! ## The order of the tuples decides -/

def caller : OperationContext := ⟨"u", "z", false, false, "user", none⟩

def rows (tuples : List ReBACTuple) : List (String × Bytes) :=
  tuples.filterMap fun t => (TupleKey.encode id "z" t).toOption.map fun key => (key, [])

def well_formed (t : ReBACTuple) : Bool :=
  (TupleKey.encode id "z" t).isOk && !((TupleKey.segments "z" t).take 6).any String.isEmpty

theorem tuples_of_rows {tuples : List ReBACTuple} (h : ∀ t ∈ tuples, well_formed t = true) :
    tuples_of_zone (rows tuples) "z" = tuples := by
  induction tuples with
  | nil => rfl
  | cons t tuples ih =>
    have ht := h t mem_cons_self
    rw [well_formed, Bool.and_eq_true, Bool.not_eq_true'] at ht
    obtain ⟨hok, hfull⟩ := ht
    have hrest := ih fun t' ht' => h t' (mem_cons_of_mem t ht')
    cases henc : TupleKey.encode id "z" t with
    | error e => simp [henc, Except.isOk, Except.toBool] at hok
    | ok key =>
      have hdecode := TupleKey.decode_encode henc hfull
      have hzone := TupleKey.zone_of_decode hdecode
      have hrows : rows (t :: tuples) = (key, []) :: rows tuples := by
        simp [rows, henc, Except.toOption]
      rw [hrows, tuples_of_zone, filterMap_cons]
      simp only [hzone, hdecode, ne_eq, not_true_eq_false, if_false, map_some]
      exact congrArg (t :: ·) hrest

theorem grants_are_derived_and_zones_do_not_leak_small_group :
    (check id (.ok (rows small_group)) (fun _ => none) "/p" none .Read caller = .ok () ∧
      DerivablyAllowed (rows small_group) (fun _ => none) "/p" none .Read caller) ∧
    check id (.ok (rows small_group ++ [("y|file|/p|viewer|user|u", [])])) (fun _ => none) "/p" none
      .Read caller = check id (.ok (rows small_group)) (fun _ => none) "/p" none .Read caller := by
  have h := grants_are_derived_and_zones_do_not_leak id (fun _ => none) "/p" none .Read caller rfl rfl
  have hok : check id (.ok (rows small_group)) (fun _ => none) "/p" none .Read caller = .ok () := by
    decide +kernel
  obtain ⟨entries, hentries, hallowed⟩ := h.1 _ hok
  cases hentries
  have hzone : tuples_of_zone (rows small_group ++ [("y|file|/p|viewer|user|u", [])])
      (zone_of caller none) = tuples_of_zone (rows small_group) (zone_of caller none) := by
    decide +kernel
  refine ⟨⟨hok, hallowed⟩, h.2 _ _ (fun t => ?_) (Or.inl hzone)⟩
  rw [← mem_tuples_of_zone, ← mem_tuples_of_zone, hzone]

/-- The same rows in the opposite order: one caller is let through and refused. -/
theorem order_decides :
    (∀ t, ZoneTuple (rows detour) "z" t ↔ ZoneTuple (rows detour).reverse "z" t) ∧
      check id (.ok (rows detour).reverse) (fun _ => none) "/p" none .Read caller = .ok () ∧
      check id (.ok (rows detour)) (fun _ => none) "/p" none .Read caller =
        .error (.PermissionDenied "rebac: user:u lacks Read on /p (zone=z)") := by
  have hzone : tuples_of_zone (rows detour) (zone_of caller none) = detour :=
    tuples_of_rows (by decide +kernel)
  have hreverse : tuples_of_zone (rows detour).reverse (zone_of caller none) = detour.reverse := by
    rw [tuples_of_zone, filterMap_reverse]
    exact congrArg reverse hzone
  refine ⟨fun t => ?_, (check_ok rfl rfl).mpr ⟨_, rfl, ?_⟩, ?_⟩
  · simp only [ZoneTuple, mem_reverse]
  · rw [hreverse]
    decide +kernel
  · simp only [check, build_graph_for_zone, Except.map, hzone]
    decide +kernel

end NexusVfs.Rebac
