/-
What a delete takes from other contents.

Chunks are shared and nothing counts who uses them. `removed` is what the delete of an
identifier takes away, `reached` what reading an identifier and asking for its size
find, both in any state of the store.
-/
import NexusVfs.CasRoundTrip

namespace NexusVfs.Cas

open List Actions Actions.Action Json Runs Text Words Table Option
open Engine

/-! ## What a delete removes -/

def is_chunked_in (e : Engine) (s : Store) (content_id : String) : Bool :=
  match s.metas.get content_id with
  | none => false
  | some data =>
    match e.from_slice data with
    | .error _ => false
    | .ok parsed => ((parsed.get "is_chunked_manifest").bind Value.as_bool).getD false

def manifest_in (e : Engine) (s : Store) (content_id : String) : Option Value :=
  match s.blobs.get content_id with
  | none => none
  | some data => if e.hash_content data = content_id then (e.from_slice data).toOption else none

/-- The identifiers that deleting `a` takes away: its own, and its chunks' if it is chunked. -/
def removed (e : Engine) (s : Store) (a : String) : List String :=
  if is_chunked_in e s a then
    match manifest_in e s a with
    | none => []
    | some manifest => chunk_hashes manifest ++ [a]
  else [a]

theorem remove_all_state (ids : List String) (s : Store) :
    (∀ id, (remove_all ids s).2.blobs.get id = if id ∈ ids then none else s.blobs.get id) ∧
      ∀ id, (remove_all ids s).2.metas.get id = if id ∈ ids then none else s.metas.get id := by
  induction ids generalizing s with
  | nil => exact ⟨fun _ => rfl, fun _ => rfl⟩
  | cons i ids ih =>
    -- a blob that is not there need not be removed
    have hblob : ∀ id, (remove_blob i s).2.blobs.get id =
        if id = i then none else s.blobs.get id := by
      intro id
      rw [remove_blob]
      cases hi : s.blobs.get i with
      | none =>
        split_ifs with hid
        · rw [hid, hi]
        · rfl
      | some content => exact get_remove s.blobs i id
    have hmetas : (remove_blob i s).2.metas = s.metas := by
      rw [remove_blob]
      split <;> rfl
    have hstep : remove_all (i :: ids) s = remove_all ids
        { (remove_blob i s).2 with metas := (remove_blob i s).2.metas.remove i } := rfl
    obtain ⟨hb, hm⟩ := ih { (remove_blob i s).2 with metas := (remove_blob i s).2.metas.remove i }
    rw [hstep]
    constructor
    · intro id
      rw [hb id]
      change (if id ∈ ids then none else (remove_blob i s).2.blobs.get id) = _
      rw [hblob id]
      by_cases hid : id = i <;> by_cases hids : id ∈ ids <;> simp [hid, hids]
    · intro id
      rw [hm id]
      change (if id ∈ ids then none else ((remove_blob i s).2.metas.remove i).get id) = _
      rw [hmetas, get_remove]
      by_cases hid : id = i <;> by_cases hids : id ∈ ids <;> simp [hid, hids]

section

variable (e : Engine) (s : Store) (a : String)

theorem is_chunked_eq : e.is_chunked a s = (.ok (is_chunked_in e s a), s) := by
  rw [is_chunked, is_chunked_in]
  cases s.metas.get a with
  | none => rfl
  | some data =>
    dsimp only
    cases e.from_slice data <;> rfl

theorem delete_chunked_state :
    (e.delete_chunked a s).2 = match manifest_in e s a with
      | none => s
      | some manifest => (remove_all (chunk_hashes manifest ++ [a]) s).2 := by
  rw [delete_chunked, bind_of_same (read_blob_state a s), manifest_in, read_blob]
  cases s.blobs.get a with
  | none => rfl
  | some data =>
    dsimp only
    by_cases hhash : e.hash_content data = a
    · rw [if_pos hhash, if_pos hhash]
      change ((of_except (e.parse_json data) >>= fun manifest =>
        remove_all (chunk_hashes manifest ++ [a]) : CasM Unit) s).2 = _
      rw [parse_json]
      cases e.from_slice data <;> rfl
    · rw [if_neg hhash, if_neg hhash]

theorem backend_delete_state :
    (∀ id, (e.backend_delete a s).2.blobs.get id =
      if id ∈ removed e s a then none else s.blobs.get id) ∧
    ∀ id, (e.backend_delete a s).2.metas.get id =
      if is_chunked_in e s a = true ∧ id ∈ removed e s a then none else s.metas.get id := by
  rw [backend_delete, bind_of_ok (is_chunked_eq e s a), removed]
  cases hchunked : is_chunked_in e s a with
  | true =>
    rw [if_pos rfl, delete_chunked_state]
    cases manifest_in e s a with
    | none => exact ⟨fun id => by simp, fun id => by simp⟩
    | some manifest =>
      obtain ⟨hb, hm⟩ := remove_all_state (chunk_hashes manifest ++ [a]) s
      exact ⟨hb, fun id => by simpa using hm id⟩
  | false =>
    rw [if_neg Bool.false_ne_true, delete_content, remove_blob]
    cases ha : s.blobs.get a with
    | none =>
      refine ⟨fun id => ?_, fun id => by simp⟩
      by_cases hid : id = a
      · simp [hid, ha]
      · simp [hid]
    | some content =>
      refine ⟨fun id => ?_, fun id => by simp⟩
      change (s.blobs.remove a).get id = _
      rw [get_remove]
      simp

end

/-! ## What a read finds -/

/-- The chunks that are found, up to the first that is missing or damaged. -/
def found_chunks (e : Engine) (s : Store) : List Value → List String
  | [] => []
  | chunk :: chunks =>
    match (chunk.get "chunk_hash").bind Value.as_str with
    | none => []
    | some hash =>
      if ((chunk.get "offset").bind Value.as_i64).getD 0 < 0 then []
      else
        match s.blobs.get hash with
        | none => []
        | some data =>
          if e.hash_content data = hash then hash :: found_chunks e s chunks else [hash]

def chunks_of (e : Engine) (data : Bytes) : Option (List Value) :=
  (e.parse_chunk_manifest data).bind fun manifest => (manifest.get "chunks").bind Value.as_array

def found (e : Engine) (s : Store) (b : String) : List String :=
  match s.blobs.get b with
  | none => []
  | some data =>
    b :: if e.hash_content data = b then found_chunks e s ((chunks_of e data).getD []) else []

/-- What reading `b` and asking for its size find. -/
def reached (e : Engine) (s : Store) (b : String) : List String :=
  (if (s.metas.get b).isSome then [b] else []) ++ found e s b

/-! ## What a read depends on -/

def Shrinks (s s' : Store) : Prop :=
  ∀ id, s'.blobs.get id = s.blobs.get id ∨ s'.blobs.get id = none

/-- The action leaves the store as it is. In `s` it finds the blobs `found`: while they stay it
answers the same, without one of them it does not find a blob that was there. -/
structure Reads {α : Type} (x : CasM α) (s : Store) (found : List String) : Prop where
  state : ∀ s, (x s).2 = s
  same : ∀ s', Shrinks s s' → (∀ id ∈ found, s'.blobs.get id = s.blobs.get id) → (x s').1 = (x s).1
  broken : ∀ s' id, Shrinks s s' → id ∈ found → s'.blobs.get id = none →
    ∃ y, (x s').1 = .error (.NotFound y) ∧ (s.blobs.get y).isSome = true
  missing : ∀ y, (x s).1 = .error (.NotFound y) → s.blobs.get y = none

section

variable {e : Engine} {s s' : Store} {α β : Type} {x : CasM α} {f : α → CasM β} {F : List String}

theorem reads_of_except {r : Except CASError α} (h : ∀ y, r ≠ .error (.NotFound y)) :
    Reads (of_except r) s [] :=
  ⟨fun _ => rfl, fun _ _ _ => rfl, nofun, fun y hy => absurd hy (h y)⟩

theorem reads_blob (e : Engine) (s : Store) (id : String) :
    Reads (e.read_blob id) s (if (s.blobs.get id).isSome then [id] else []) := by
  refine ⟨read_blob_state id, fun s' hshrinks hsame => ?_, fun s' id' _ hid hgone => ?_, fun y h => ?_⟩
  · have hblob : s'.blobs.get id = s.blobs.get id := by
      cases hget : s.blobs.get id with
      | none => exact (hshrinks id).elim (fun h => h.trans hget) fun h => h
      | some data => rw [hsame id (by simp [hget]), hget]
    rw [read_blob, read_blob, hblob]
    split <;> try split_ifs
    all_goals rfl
  · split_ifs at hid with hsome
    · obtain rfl := mem_singleton.mp hid
      exact ⟨id', by rw [read_blob, hgone], hsome⟩
    · cases hid
  · rw [read_blob] at h
    cases hblob : s.blobs.get id with
    | none =>
      rw [hblob] at h
      cases h
      exact hblob
    | some data =>
      rw [hblob] at h
      dsimp only at h
      split_ifs at h
      cases h

theorem Reads.bind {G : α → List String} (hx : Reads x s F) (hf : ∀ a, Reads (f a) s (G a)) :
    Reads (x >>= f) s (F ++ match (x s).1 with | .ok a => G a | .error _ => []) := by
  have hbind (s : Store) := bind_of_same (f := f) (hx.state s)
  refine ⟨fun s => ?_, fun s' hshrinks hsame => ?_, fun s' id hshrinks hid hgone => ?_, fun y h => ?_⟩
  · rw [hbind]
    cases (x s).1 with
    | error err => rfl
    | ok a => exact (hf a).state s
  · have hfirst := hx.same s' hshrinks fun id hid => hsame id (mem_append_left _ hid)
    rw [hbind, hbind, hfirst]
    cases hres : (x s).1 with
    | error err => rfl
    | ok a =>
      rw [hres] at hsame
      exact (hf a).same s' hshrinks fun id hid => hsame id (mem_append_right _ hid)
  · rw [hbind]
    by_cases hlost : ∃ id ∈ F, s'.blobs.get id = none
    · obtain ⟨lost, hmem, hnone⟩ := hlost
      obtain ⟨y, hy, hsome⟩ := hx.broken s' lost hshrinks hmem hnone
      exact ⟨y, by rw [hy], hsome⟩
    · -- the first part finds what it found, so the loss is in the second
      have hkept (id : String) (hmem : id ∈ F) : s'.blobs.get id = s.blobs.get id :=
        (hshrinks id).resolve_right fun hnone => hlost ⟨id, hmem, hnone⟩
      rw [hx.same s' hshrinks hkept]
      have hsecond := (mem_append.mp hid).resolve_left fun hmem => hlost ⟨id, hmem, hgone⟩
      cases hres : (x s).1 with
      | error err =>
        rw [hres] at hsecond
        cases hsecond
      | ok a =>
        rw [hres] at hsecond
        exact (hf a).broken s' id hshrinks hsecond hgone
  · rw [hbind] at h
    cases hres : (x s).1 with
    | error err =>
      rw [hres] at h
      cases h
      exact hx.missing y hres
    | ok a =>
      rw [hres] at h
      exact (hf a).missing y h

theorem Reads.andThen (hx : Reads x s F) (hf : ∀ a, Reads (f a) s []) : Reads (x >>= f) s F := by
  have h := hx.bind hf
  cases hres : (x s).1 with
  | error err | ok a => rwa [hres, append_nil] at h

theorem reads_pure (a : α) : Reads (pure a) s [] :=
  reads_of_except (r := .ok a) nofun

theorem reads_blob_then {f : Bytes → CasM β} {G : Bytes → List String} (id : String)
    (hf : ∀ data, Reads (f data) s (G data)) :
    Reads (e.read_blob id >>= f) s (match s.blobs.get id with
      | none => []
      | some data => id :: if e.hash_content data = id then G data else []) := by
  have h := (reads_blob e s id).bind hf
  rw [read_blob] at h
  cases hblob : s.blobs.get id with
  | none => rwa [hblob] at h
  | some data =>
    rw [hblob, isSome_some, if_pos rfl] at h
    dsimp only at h ⊢
    split_ifs at h ⊢ <;> exact h

theorem reads_parts (e : Engine) (s : Store) (chunks : List Value) :
    Reads (e.read_parts (fun _ => none) chunks) s (found_chunks e s chunks) := by
  have hlocal (hash : String) : e.read_and_verify_chunk (fun _ => none) hash = e.read_blob hash := by
    funext s
    rw [read_and_verify_chunk, read_blob]
    cases s.blobs.get hash with
    | none => rfl
    | some data =>
      dsimp only
      split_ifs <;> rfl
  induction chunks with
  | nil => exact reads_pure []
  | cons chunk chunks ih =>
    rw [read_parts, found_chunks]
    cases (chunk.get "chunk_hash").bind Value.as_str with
    | none => exact reads_of_except fun _ h => by cases h
    | some hash =>
      dsimp only
      by_cases hoffset : ((chunk.get "offset").bind Value.as_i64).getD 0 < 0
      · rw [if_pos hoffset, if_pos hoffset]
        exact reads_of_except fun _ h => by cases h
      · rw [if_neg hoffset, if_neg hoffset, hlocal]
        have h (f : Bytes → List (ℕ × Bytes) → List (ℕ × Bytes)) :=
          reads_blob_then (e := e) hash fun data => ih.andThen fun parts => reads_pure (f data parts)
        cases hblob : s.blobs.get hash with
        | none =>
          rw [hblob] at h
          exact h _
        | some data =>
          rw [hblob] at h
          dsimp only at h ⊢
          split_ifs at h ⊢ <;> exact h _

variable {b : String}

/-! ## Reads and sizes in two states -/

def assemble (parts : List (ℕ × Bytes)) : Except CASError Bytes :=
  let sorted := parts.mergeSort fun a b => a.1 ≤ b.1
  match check_cover 0 sorted with
  | .error err => .error err
  | .ok _ => .ok (sorted.map Prod.snd).flatten

theorem check_cover_ne_notFound (expected : ℕ) (parts : List (ℕ × Bytes)) (y : String) :
    check_cover expected parts ≠ .error (.NotFound y) := by
  induction parts generalizing expected with
  | nil =>
    intro h
    cases h
  | cons part parts ih =>
    rw [check_cover]
    by_cases hoffset : part.1 ≠ expected
    · rw [if_pos hoffset]
      intro h
      cases h
    · rw [if_neg hoffset]
      by_cases hend : 2 ^ 64 ≤ part.1 + part.2.length
      · rw [if_pos hend]
        intro h
        cases h
      · rw [if_neg hend]
        exact ih _

def answer (data : Bytes) (parts : Option (Except CASError (List (ℕ × Bytes)))) :
    Except CASError Bytes :=
  match parts with
  | none => .ok data
  | some (.error err) => .error err
  | some (.ok parts) => assemble parts

theorem try_reassemble_eq (data : Bytes) :
    e.try_reassemble (fun _ => none) data = match chunks_of e data with
      | none => pure none
      | some chunks => e.reassemble_chunks (fun _ => none) chunks >>= fun content =>
        pure (some content) := by
  rw [try_reassemble, chunks_of]
  cases e.parse_chunk_manifest data with
  | none => rfl
  | some manifest =>
    change (match (manifest.get "chunks").bind Value.as_array with
      | none => pure none
      | some chunks => e.reassemble_chunks (fun _ => none) chunks >>= fun content =>
        pure (some content)) = _
    rfl

theorem read_content_eq (b : String) (s : Store) :
    (e.read_content b s).1 = match (e.read_blob b s).1 with
      | .error err => .error err
      | .ok data => answer data
          ((chunks_of e data).map fun chunks => (e.read_parts (fun _ => none) chunks s).1) := by
  rw [read_content, read_content_with_origins, bind_of_same (read_blob_state b s)]
  cases (e.read_blob b s).1 with
  | error err => rfl
  | ok data =>
    dsimp only
    rw [try_reassemble_eq]
    cases chunks_of e data with
    | none => rfl
    | some chunks =>
      have hreassemble : e.reassemble_chunks (fun _ => none) chunks s =
          (answer data (some (e.read_parts (fun _ => none) chunks s).1), s) := by
        rw [reassemble_chunks, bind_of_same ((reads_parts e s chunks).state s)]
        cases (e.read_parts (fun _ => none) chunks s).1 with
        | error err => rfl
        | ok parts =>
          dsimp only [answer]
          rw [assemble]
          cases hcover : check_cover 0 (parts.mergeSort fun a b => a.1 ≤ b.1) with
          | error err =>
            rw [bind_of_error (show of_except (.error err) s = _ from rfl)]
          | ok total =>
            rfl
      dsimp only [map_some]
      cases hanswer : answer data (some (e.read_parts (fun _ => none) chunks s).1) with
      | error err =>
        rw [hanswer] at hreassemble
        rw [bind_of_error (bind_of_error hreassemble)]
      | ok content =>
        rw [hanswer] at hreassemble
        have hsome : (e.reassemble_chunks (fun _ => none) chunks >>= fun content =>
            pure (some content) : CasM (Option Bytes)) s = (.ok (some content), s) :=
          bind_of_ok hreassemble
        rw [bind_of_ok hsome]
        rfl

theorem reads_content (e : Engine) (s : Store) (b : String) :
    Reads (e.read_content b) s (found e s b) := by
  refine reads_blob_then b fun data => ?_
  rw [try_reassemble_eq]
  cases chunks_of e data with
  | none => exact (reads_pure none).andThen fun _ => reads_pure _
  | some chunks =>
    have hparts := (reads_parts e s chunks).andThen fun parts =>
      (reads_of_except (check_cover_ne_notFound 0 (parts.mergeSort fun a b => a.1 ≤ b.1))).andThen
        fun _ => reads_pure ((parts.mergeSort fun a b => a.1 ≤ b.1).map Prod.snd).flatten
    exact (hparts.andThen fun content => reads_pure (some content)).andThen fun _ => reads_pure _

theorem get_size_eq (b : String) (s : Store) :
    (e.get_size b s).1 = match s.metas.get b with
      | some data => (e.parse_json data).map fun parsed =>
        ((parsed.get "size").bind Value.as_u64).getD 0
      | none =>
        match s.blobs.get b with
        | none => .error (.NotFound b)
        | some content => .ok content.length := by
  have hexists : meta_exists b s = (.ok (s.metas.get b).isSome, s) := rfl
  rw [get_size, bind_of_ok hexists]
  cases hmeta : s.metas.get b with
  | none =>
    rw [isSome_none, if_neg Bool.false_ne_true, content_size, blob_size]
    cases s.blobs.get b <;> rfl
  | some data =>
    have hread : read_meta b s = (.ok data, s) := by rw [read_meta, hmeta]
    rw [isSome_some, if_pos rfl, bind_of_ok hread]
    dsimp only
    cases e.parse_json data <;> rfl

theorem parse_json_ne_notFound (data : Bytes) (y : String) :
    e.parse_json data ≠ .error (.NotFound y) := by
  rw [parse_json]
  intro h
  cases hparse : e.from_slice data with
  | ok value | error error =>
    rw [hparse] at h
    cases h

end

/-! ## The delete of another content -/

section

variable {e : Engine} {s : Store} {a b : String}

theorem backend_delete_shrinks : Shrinks s (e.backend_delete a s).2 := by
  intro id
  rw [(backend_delete_state e s a).1 id]
  split_ifs
  · exact Or.inr rfl
  · exact Or.inl rfl

theorem read_content_delete_iff :
    (e.read_content b (e.backend_delete a s).2).1 = (e.read_content b s).1 ↔
      ∀ id ∈ removed e s a, id ∉ found e s b := by
  have hblobs := (backend_delete_state e s a).1
  constructor
  · intro heq id hremoved hfound
    have hgone : (e.backend_delete a s).2.blobs.get id = none := by rw [hblobs id, if_pos hremoved]
    obtain ⟨y, hy, hsome⟩ := (reads_content e s b).broken _ id backend_delete_shrinks hfound hgone
    -- before, the object that is now missing was there
    rw [heq] at hy
    rw [(reads_content e s b).missing y hy] at hsome
    cases hsome
  · intro hapart
    refine (reads_content e s b).same _ backend_delete_shrinks fun id hid => ?_
    rw [hblobs id, if_neg fun hremoved => hapart id hremoved hid]

theorem chunked_of_mem_removed (hne : a ≠ b) (h : b ∈ removed e s a) :
    is_chunked_in e s a = true := by
  by_contra hplain
  rw [removed, if_neg hplain] at h
  exact hne (mem_singleton.mp h).symm

theorem get_size_delete_iff (hne : a ≠ b) :
    (e.get_size b (e.backend_delete a s).2).1 = (e.get_size b s).1 ↔
      (b ∈ removed e s a → s.metas.get b = none ∧ s.blobs.get b = none) := by
  obtain ⟨hblobs, hmetas⟩ := backend_delete_state e s a
  rw [get_size_eq, get_size_eq, hblobs b, hmetas b]
  by_cases hremoved : b ∈ removed e s a
  · rw [if_pos hremoved, if_pos ⟨chunked_of_mem_removed hne hremoved, hremoved⟩]
    cases hmeta : s.metas.get b with
    | none =>
      cases s.blobs.get b <;> simp [hremoved]
    | some data =>
      have hparse : (.error (.NotFound b) : Except CASError ℕ) ≠ (e.parse_json data).map
          fun parsed => ((parsed.get "size").bind Value.as_u64).getD 0 := by
        intro heq
        cases hjson : e.parse_json data with
        | error err =>
          rw [hjson] at heq
          cases heq
          exact parse_json_ne_notFound data b hjson
        | ok parsed =>
          rw [hjson] at heq
          cases heq
      simp [hremoved, hparse]
  · rw [if_neg hremoved, if_neg fun h => hremoved h.2]
    simp [hremoved]

theorem mem_reached_self : b ∈ reached e s b ↔ ¬ (s.metas.get b = none ∧ s.blobs.get b = none) := by
  rw [reached, found]
  cases s.metas.get b <;> cases s.blobs.get b <;> simp

theorem mem_reached {id : String} :
    id ∈ reached e s b ↔ id ∈ found e s b ∨ (id = b ∧ b ∈ reached e s b) := by
  by_cases hid : id = b
  · subst hid
    constructor
    · intro h
      exact Or.inr ⟨rfl, h⟩
    · rintro (h | ⟨-, h⟩)
      · exact mem_append_right _ h
      · exact h
  · rw [reached, mem_append]
    constructor
    · rintro (h | h)
      · split_ifs at h
        · exact absurd (mem_singleton.mp h) hid
        · cases h
      · exact Or.inl h
    · rintro (h | ⟨h, -⟩)
      · exact Or.inr h
      · exact absurd h hid

end

/-! ## Two conversations with one message in common -/

/-- A reader of ASCII texts. -/
def from_ascii (bs : Bytes) : Except String Value :=
  match parse (2 * bs.length) (bs.map fun b => Char.ofNat b.toNat) with
  | some (v, []) => .ok v
  | _ => .error "not a compact JSON text"

/-- A store of conversations, under a hash that is only a fold of the bytes. -/
def chat_engine : Engine where
  hash_content content :=
    String.ofList (digits (content.foldl (fun acc b => (257 * acc + b.toNat) % 65521) 0))
  from_slice := from_ascii
  cut content := [content]
  strategy := .MessageBoundary

def conversation (first last : ℕ) : Bytes :=
  to_vec (.Arr [.Obj [("role", .PosInt first)], .Obj [("role", .PosInt last)]])

/-- The parts a content is read from, and its size; sorting the parts is left out, so that this
evaluates. -/
structure View where
  parts : Option (Except CASError (List (ℕ × Bytes)))
  size : Except CASError ℕ
deriving DecidableEq

def view (b : String) (s : Store) : View where
  parts :=
    match (chat_engine.read_blob b s).1 with
    | .error _ => none
    | .ok data => (chunks_of chat_engine data).map fun chunks =>
      (chat_engine.read_parts (fun _ => none) chunks s).1
  size := (chat_engine.get_size b s).1

theorem read_content_of_view {b : String} {s : Store}
    {parts : Except CASError (List (ℕ × Bytes))} (h : (view b s).parts = some parts) :
    (chat_engine.read_content b s).1 = answer [] (some parts) := by
  rw [read_content_eq]
  rw [view] at h
  cases hblob : (chat_engine.read_blob b s).1 with
  | error err =>
    rw [hblob] at h
    cases h
  | ok data =>
    rw [hblob] at h
    dsimp only at h ⊢
    rw [h]
    cases parts <;> rfl

theorem assemble_with_offsets {pieces : List Bytes} (h : pieces.flatten.length < 2 ^ 64) :
    assemble (with_offsets 0 pieces) = .ok pieces.flatten := by
  have hsorted := mergeSort_of_pairwise (pairwise_with_offsets 0 pieces).1
  have hcover : check_cover 0 (with_offsets 0 pieces) = .ok (0 + pieces.flatten.length) :=
    check_cover_with_offsets 0 (by omega)
  rw [assemble, hsorted, hcover, map_snd_with_offsets]

/-- Two conversations are written; the answers are the views of the second before and after the
delete of the first. -/
def delete_first (c₁ c₂ : Bytes) : CasM (String × String × View × View) := do
  let a ← chat_engine.write_content c₁
  let b ← chat_engine.write_content c₂
  fun s => (.ok (a, b, view b s, view b (chat_engine.backend_delete a s).2), s)

theorem delete_first_eq_ok {c₁ c₂ : Bytes} {a b : String} {before after : View}
    (h : (delete_first c₁ c₂ Store.empty).1 = .ok (a, b, before, after)) :
    ∃ s₁ s₂, chat_engine.write_content c₁ Store.empty = (.ok a, s₁) ∧
      chat_engine.write_content c₂ s₁ = (.ok b, s₂) ∧ view b s₂ = before ∧
      view b (chat_engine.backend_delete a s₂).2 = after := by
  obtain ⟨a', s₁, ha, h⟩ := bind_eq_ok h
  obtain ⟨b', s₂, hb, h⟩ := bind_eq_ok h
  cases h
  exact ⟨s₁, s₂, ha, hb, rfl, rfl⟩

def message (n : ℕ) : Bytes := to_vec (.Obj [("role", .PosInt n)])

/-- The message both conversations start with is gone. -/
theorem delete_breaks_shared_message :
    ∃ a b s₁ s₂, chat_engine.write_content (conversation 1 2) Store.empty = (.ok a, s₁) ∧
      chat_engine.write_content (conversation 1 3) s₁ = (.ok b, s₂) ∧ a ≠ b ∧
      (chat_engine.read_content b s₂).1 = .ok (message 1 ++ message 3) ∧
      (chat_engine.read_content b (chat_engine.backend_delete a s₂).2).1 =
        .error (.NotFound (chat_engine.hash_content (message 1))) := by
  have hrun : (delete_first (conversation 1 2) (conversation 1 3) Store.empty).1 =
      .ok ("6227", "41703",
        ⟨some (.ok (with_offsets 0 [message 1, message 3])), .ok 23⟩,
        ⟨some (.error (.NotFound (chat_engine.hash_content (message 1)))), .ok 23⟩) := by
    decide +kernel
  have hlen : [message 1, message 3].flatten.length < 2 ^ 64 := by decide +kernel
  obtain ⟨s₁, s₂, ha, hb, hbefore, hafter⟩ := delete_first_eq_ok hrun
  refine ⟨_, _, s₁, s₂, ha, hb, by decide, ?_, ?_⟩
  · rw [read_content_of_view (congrArg View.parts hbefore), answer, assemble_with_offsets hlen]
    rfl
  · rw [read_content_of_view (congrArg View.parts hafter)]
    rfl

/-! ## Every state -/

/-- In every state of the store: deleting one identifier as the backends do leaves the content and
the size of another as they were exactly if it removes nothing that reading the other reaches. -/
theorem delete_spares_iff (e : Engine) (s : Store) {a b : String} (hne : a ≠ b) :
    ((e.read_content b (e.backend_delete a s).2).1 = (e.read_content b s).1 ∧
      (e.get_size b (e.backend_delete a s).2).1 = (e.get_size b s).1) ↔
    ∀ id ∈ removed e s a, id ∉ reached e s b := by
  rw [read_content_delete_iff, get_size_delete_iff hne]
  constructor
  · rintro ⟨hread, hsize⟩ id hremoved hreached
    rcases mem_reached.mp hreached with hfound | ⟨rfl, hself⟩
    · exact hread id hremoved hfound
    · exact mem_reached_self.mp hself (hsize hremoved)
  · intro hapart
    refine ⟨fun id hremoved hfound => hapart id hremoved (mem_reached.mpr (Or.inl hfound)), ?_⟩
    intro hremoved
    by_contra hthere
    exact hapart b hremoved (mem_reached_self.mpr hthere)

/-- Conversations without a common message are apart. -/
theorem delete_spares_other_conversation :
    ∃ a b s₁ s₂, chat_engine.write_content (conversation 1 2) Store.empty = (.ok a, s₁) ∧
      chat_engine.write_content (conversation 3 4) s₁ = (.ok b, s₂) ∧ a ≠ b ∧
      ∀ id ∈ removed chat_engine s₂ a, id ∉ reached chat_engine s₂ b := by
  have hrun : (delete_first (conversation 1 2) (conversation 3 4) Store.empty).1 =
      .ok ("6227", "25236", ⟨some (.ok (with_offsets 0 [message 3, message 4])), .ok 23⟩,
        ⟨some (.ok (with_offsets 0 [message 3, message 4])), .ok 23⟩) := by
    decide +kernel
  obtain ⟨s₁, s₂, ha, hb, hbefore, hafter⟩ := delete_first_eq_ok hrun
  have hne : "6227" ≠ "25236" := by decide
  have hread := (read_content_of_view (congrArg View.parts hafter)).trans
    (read_content_of_view (congrArg View.parts hbefore)).symm
  have hsize := congrArg View.size (hafter.trans hbefore.symm)
  exact ⟨_, _, s₁, s₂, ha, hb, hne, (delete_spares_iff chat_engine s₂ hne).mp ⟨hread, hsize⟩⟩

end NexusVfs.Cas
