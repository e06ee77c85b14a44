/-
A file tree with symbolic links, and the calls of a host on it.

A place is the list of names that leads to it from the root without any link. A path is
looked up name by name; a link is replaced by its target, at most `MAX_LINKS` times. A
call acts on what the whole path leads to (`target`) or on an entry of the directory
that the path without its last name leads to (`entry`), and records the places it reads,
creates, changes or removes.
-/
import Mathlib.Data.List.Infix
import NexusVfs.Actions
import NexusVfs.Table
import NexusVfs.Text

namespace NexusVfs.Host

open Words

inductive IoError where
  | NotFound
  | AlreadyExists
  | NotADirectory
  | IsADirectory
  | DirectoryNotEmpty
  | InvalidInput
  /-- any other kind: no space, no permission -/
  | Other
  deriving DecidableEq

/-- `bytes` with `content` at `offset`, filled up with zeros. -/
def Fs.splice (offset : ℕ) (content bytes : Bytes) : Bytes :=
  let filled := bytes ++ List.replicate (offset - bytes.length) 0
  filled.take offset ++ content ++ filled.drop (offset + content.length)

end NexusVfs.Host

namespace NexusVfs.LinkTree

open List Actions Actions.Action Host Text Words

/-! ## Trees -/

abbrev Path := List String

inductive Node where
  | dir
  | file (bytes : Bytes)
  /-- the names of the target, from the root or from the link's own directory -/
  | link (absolute : Bool) (target : List String)
  deriving DecidableEq

/-- A name that a directory can hold. -/
def IsName (name : String) : Prop := name ≠ "" ∧ name ≠ "." ∧ name ≠ ".."

instance (name : String) : Decidable (IsName name) := by
  unfold IsName
  infer_instance

structure Tree where
  node : Path → Option Node
  /-- all places at which there is something, and maybe others -/
  paths : List Path
  root : node [] = some .dir
  parent : ∀ path name, node (path ++ [name]) ≠ none → node path = some .dir
  named : ∀ path name, node (path ++ [name]) ≠ none → IsName name
  listed : ∀ path, node path ≠ none → path ∈ paths

namespace Tree

def bare : Tree where
  node path := if path = [] then some .dir else none
  paths := [[]]
  root := rfl
  parent path name h := by simp at h
  named path name h := by simp at h
  listed path h := by
    by_cases hpath : path = []
    · simp [hpath]
    · simp [hpath] at h

theorem dir_above (t : Tree) {path above : Path} (h : t.node path ≠ none) (habove : above <+: path)
    (hne : above ≠ path) : t.node above = some .dir := by
  obtain ⟨rest, rfl⟩ := habove
  induction rest using reverseRecOn with
  | nil => exact absurd (append_nil above).symm hne
  | append_singleton rest name ih =>
    rw [← append_assoc] at h
    have hdir := t.parent _ _ h
    by_cases hrest : rest = []
    · simpa [hrest] using hdir
    · exact ih (by simp [hdir]) (by simpa using hrest)

def occupied (t : Tree) (dir : Path) : Bool :=
  t.paths.any fun q => q != [] && q.dropLast == dir && (t.node q).isSome

/-- A node that is no directory becomes `n`, or `n` is new in a directory. -/
def put (t : Tree) (path : Path) (n : Node) : Tree :=
  if h : path ≠ [] ∧ t.node path.dropLast = some .dir ∧ IsName (path.getLastD "") ∧
      t.node path ≠ some .dir then
    { node := fun q => if q = path then some n else t.node q
      paths := path :: t.paths
      root := by rw [if_neg (Ne.symm h.1), t.root]
      parent := by
        intro dir name hnode
        by_cases hpath : dir ++ [name] = path
        · subst hpath
          rw [if_neg (by simp)]
          simpa using h.2.1
        · rw [if_neg hpath] at hnode
          have hdir := t.parent dir name hnode
          rw [if_neg (fun hd : dir = path => h.2.2.2 (hd ▸ hdir)), hdir]
      named := by
        intro dir name hnode
        by_cases hpath : dir ++ [name] = path
        · subst hpath
          simpa using h.2.2.1
        · rw [if_neg hpath] at hnode
          exact t.named dir name hnode
      listed := by
        intro q hq
        by_cases hpath : q = path
        · simp [hpath]
        · rw [if_neg hpath] at hq
          exact mem_cons_of_mem _ (t.listed q hq) }
  else t

/-- Without what is strictly below `a`. -/
def clear (t : Tree) (a : Path) : Tree where
  node q := if a <+: q ∧ q ≠ a then none else t.node q
  paths := t.paths
  root := by
    rw [if_neg, t.root]
    rintro ⟨hpre, hne⟩
    exact hne (prefix_nil.mp hpre).symm
  parent dir name h := by
    split_ifs at h with hbelow
    · exact absurd rfl h
    have hdir := t.parent dir name h
    rw [if_neg, hdir]
    rintro ⟨hpre, hne⟩
    refine hbelow ⟨hpre.trans (prefix_append _ _), fun heq => ?_⟩
    have hlen := hpre.length_le
    rw [← heq, length_append, length_singleton] at hlen
    omega
  named dir name h := by
    split_ifs at h
    · exact absurd rfl h
    · exact t.named dir name h
  listed q h := by
    split_ifs at h
    · exact absurd rfl h
    · exact t.listed q h

def cut (t : Tree) (a : Path) : Tree :=
  if ha : a = [] then t
  else
    { node := fun q => if a <+: q then none else t.node q
      paths := t.paths
      root := by
        rw [if_neg (fun hpre => ha (prefix_nil.mp hpre)), t.root]
      parent := by
        intro dir name h
        split_ifs at h with hbelow
        · exact absurd rfl h
        · rw [if_neg (fun hpre => hbelow (hpre.trans (prefix_append _ _))), t.parent dir name h]
      named := by
        intro dir name h
        split_ifs at h
        · exact absurd rfl h
        · exact t.named dir name h
      listed := by
        intro q h
        split_ifs at h
        · exact absurd rfl h
        · exact t.listed q h }

/-- What is at and below `a` goes to `b`, in the place of what was there. -/
def move (t : Tree) (a b : Path) : Tree :=
  if h : a ≠ [] ∧ b ≠ [] ∧ ¬ a <+: b ∧ t.node b.dropLast = some .dir ∧ IsName (b.getLastD "") then
    { node := fun q =>
        if b <+: q then t.node (a ++ q.drop b.length) else if a <+: q then none else t.node q
      paths := t.paths ++ t.paths.map fun q => b ++ q.drop a.length
      root := by
        rw [if_neg (fun hpre => h.2.1 (prefix_nil.mp hpre)),
          if_neg (fun hpre => h.1 (prefix_nil.mp hpre)), t.root]
      parent := by
        intro dir name hnode
        by_cases hb : b <+: dir ++ [name]
        · rw [if_pos hb] at hnode
          by_cases hdir : b <+: dir
          · rw [if_pos hdir]
            rw [drop_append_of_le_length hdir.length_le, ← append_assoc] at hnode
            exact t.parent _ _ hnode
          · -- `b` itself: the directory that holds it is neither moved nor replaced.
            have heq : b = dir ++ [name] := by
              rcases prefix_concat_iff.mp hb with heq | hpre
              · exact heq
              · exact absurd hpre hdir
            subst heq
            rw [if_neg hdir, if_neg (fun hpre => h.2.2.1 (hpre.trans (prefix_append _ _)))]
            simpa using h.2.2.2.1
        · rw [if_neg hb] at hnode
          split_ifs at hnode with ha
          · exact absurd rfl hnode
          · rw [if_neg (fun hpre => hb (hpre.trans (prefix_append _ _))),
              if_neg (fun hpre => ha (hpre.trans (prefix_append _ _))), t.parent dir name hnode]
      named := by
        intro dir name hnode
        by_cases hb : b <+: dir ++ [name]
        · rw [if_pos hb] at hnode
          by_cases hdir : b <+: dir
          · rw [drop_append_of_le_length hdir.length_le, ← append_assoc] at hnode
            exact t.named _ _ hnode
          · have heq : b = dir ++ [name] := by
              rcases prefix_concat_iff.mp hb with heq | hpre
              · exact heq
              · exact absurd hpre hdir
            subst heq
            simpa using h.2.2.2.2
        · rw [if_neg hb] at hnode
          split_ifs at hnode
          · exact absurd rfl hnode
          · exact t.named dir name hnode
      listed := by
        intro q hnode
        by_cases hb : b <+: q
        · rw [if_pos hb] at hnode
          have hmem := t.listed _ hnode
          refine mem_append_right _ (mem_map.mpr ⟨_, hmem, ?_⟩)
          obtain ⟨rest, rfl⟩ := hb
          simp
        · rw [if_neg hb] at hnode
          split_ifs at hnode
          · exact absurd rfl hnode
          · exact mem_append_left _ (t.listed q hnode) }
  else t

theorem node_put (t : Tree) (path : Path) (n : Node) (q : Path) :
    (t.put path n).node q = t.node q ∨ (q = path ∧ (t.put path n).node q = some n) := by
  unfold put
  split_ifs with h
  · by_cases hq : q = path
    · exact .inr ⟨hq, if_pos hq⟩
    · exact .inl (if_neg hq)
  · exact .inl rfl

theorem node_clear (t : Tree) (a q : Path) :
    (t.clear a).node q = t.node q ∨ (a <+: q ∧ (t.clear a).node q = none) := by
  by_cases hq : a <+: q ∧ q ≠ a
  · exact .inr ⟨hq.1, if_pos hq⟩
  · exact .inl (if_neg hq)

theorem node_cut (t : Tree) (a q : Path) :
    (t.cut a).node q = t.node q ∨ (a <+: q ∧ (t.cut a).node q = none) := by
  unfold cut
  split_ifs with h
  · exact .inl rfl
  · by_cases hq : a <+: q
    · exact .inr ⟨hq, if_pos hq⟩
    · exact .inl (if_neg hq)

theorem node_move (t : Tree) (a b q : Path) :
    (t.move a b).node q = t.node q ∨ (a <+: q ∧ (t.move a b).node q = none) ∨
      (b <+: q ∧ (t.move a b).node q = t.node (a ++ q.drop b.length)) := by
  unfold move
  split_ifs with h
  · by_cases hb : b <+: q
    · exact .inr (.inr ⟨hb, if_pos hb⟩)
    · by_cases ha : a <+: q
      · refine .inr (.inl ⟨ha, ?_⟩)
        dsimp only
        rw [if_neg hb, if_pos ha]
      · refine .inl ?_
        dsimp only
        rw [if_neg hb, if_neg ha]
  · exact .inl rfl

end Tree

/-! ## Looking a path up -/

/-- The end of a path as it was written: nothing, a slash, or a dot. -/
inductive Tail where
  | plain
  | slash
  | dot
  deriving DecidableEq

structure Place where
  names : List String
  tail : Tail
  deriving DecidableEq

def parse (path : String) : Place where
  names := (split path '/').filter fun name => name != "" && name != "."
  tail :=
    if ((split path '/').reverse.dropWhile (· == "")).head? = some "." then .dot
    else if (split path '/').getLast? = some "" then .slash
    else .plain

inductive Lookup where
  | found (path : Path)
  /-- nothing at `path`, but a directory that would hold it -/
  | missing (path : Path)
  | failed (error : IoError)
  deriving DecidableEq

/-- The place that a lookup ended at. -/
@[simp]
def Lookup.place : Lookup → Option Path
  | .found path => some path
  | .missing path => some path
  | .failed _ => none

inductive Walk where
  | done (result : Lookup)
  | link (dir : Path) (absolute : Bool) (target rest : List String)

def MAX_LINKS : ℕ := 40

namespace Tree

variable (t : Tree)

/-- From the directory `cur` up to the first link that has to be followed. A link at the end of the
path has to be if `follow` says so. -/
def advance (follow : Bool) (cur : Path) : List String → Walk
  | [] => .done (.found cur)
  | name :: rest =>
    if name = "" ∨ name = "." then advance follow cur rest
    else if name = ".." then advance follow cur.dropLast rest
    else
      match t.node (cur ++ [name]) with
      | none => .done (if rest = [] then .missing (cur ++ [name]) else .failed .NotFound)
      | some .dir => advance follow (cur ++ [name]) rest
      | some (.file _) =>
        .done (if rest = [] then .found (cur ++ [name]) else .failed .NotADirectory)
      | some (.link absolute target) =>
        if rest = [] ∧ follow = false then .done (.found (cur ++ [name]))
        else .link cur absolute target rest

def resolve (follow : Bool) : ℕ → Path → List String → Lookup
  | 0, cur, names =>
    match t.advance follow cur names with
    | .done result => result
    | .link _ _ _ _ => .failed .Other
  | links + 1, cur, names =>
    match t.advance follow cur names with
    | .done result => result
    | .link dir absolute target rest =>
      resolve follow links (if absolute then [] else dir) (target ++ rest)

/-- What a path leads to. A path that ends in a slash or a dot leads to a directory. -/
def lookup (follow : Bool) (p : Place) : Lookup :=
  match t.resolve (follow || p.tail ≠ .plain) MAX_LINKS [] p.names with
  | .found path =>
    if p.tail ≠ .plain ∧ t.node path ≠ some .dir then .failed .NotADirectory else .found path
  | .missing path => if p.tail ≠ .plain then .failed .NotFound else .missing path
  | .failed error => .failed error

def target (p : Place) : Lookup := t.lookup true p

/-- The place of the entry that a path names: its last name, which is not followed, in the directory
that the rest of it leads to. The entry itself need not exist. -/
def entry (p : Place) : Except IoError Path :=
  match p.names.getLast? with
  | none => .error .AlreadyExists
  | some name =>
    match t.target ⟨p.names.dropLast, .plain⟩ with
    | .missing _ => .error .NotFound
    | .failed error => .error error
    | .found dir =>
      if t.node dir ≠ some .dir then .error .NotADirectory
      else if ¬ IsName name then .error .InvalidInput
      else if p.tail = .dot then
        .error (if t.node (dir ++ [name]) = none then .NotFound else .InvalidInput)
      else .ok (dir ++ [name])

def is_dir (p : Place) : Bool :=
  match t.target p with
  | .found path => t.node path = some .dir
  | _ => false

end Tree

/-! ## Facts about lookups -/

namespace Tree

variable {t : Tree}

variable {path dir : Path} {links : ℕ} {names : List String}

theorem dir_dropLast (h : t.node path = some .dir) : t.node path.dropLast = some .dir := by
  by_cases hne : path.dropLast = path
  · rw [hne, h]
  · exact t.dir_above (by simp [h]) path.dropLast_prefix hne

section Advance

variable {follow : Bool} {cur : Path} {name : String} {rest : List String}

theorem name_cases (name : String) : (name = "" ∨ name = ".") ∨ name = ".." ∨ IsName name := by
  tauto

theorem advance_skip (h : name = "" ∨ name = ".") :
    t.advance follow cur (name :: rest) = t.advance follow cur rest := by
  rw [advance, if_pos h]

theorem advance_up : t.advance follow cur (".." :: rest) = t.advance follow cur.dropLast rest := by
  rw [advance, if_neg (by decide), if_pos rfl]

theorem advance_name (h : IsName name) :
    t.advance follow cur (name :: rest) = match t.node (cur ++ [name]) with
      | none => .done (if rest = [] then .missing (cur ++ [name]) else .failed .NotFound)
      | some .dir => t.advance follow (cur ++ [name]) rest
      | some (.file _) =>
        .done (if rest = [] then .found (cur ++ [name]) else .failed .NotADirectory)
      | some (.link absolute target) =>
        if rest = [] ∧ follow = false then .done (.found (cur ++ [name]))
        else .link cur absolute target rest := by
  rw [advance, if_neg (fun hdot => hdot.elim h.1 h.2.1), if_neg h.2.2]

theorem advance_stop (follow : Bool) (rest : List String) (hname : IsName name)
    (h : t.node (cur ++ [name]) = none ∨ ∃ bytes, t.node (cur ++ [name]) = some (.file bytes)) :
    ∃ r, t.advance follow cur (name :: rest) = .done r ∧
      r.place = if rest = [] then some (cur ++ [name]) else none := by
  rw [advance_name hname]
  rcases h with h | ⟨bytes, h⟩ <;> rw [h] <;> refine ⟨_, rfl, ?_⟩ <;> split_ifs <;> rfl

end Advance

variable {absolute : Bool} {cur : Path} {a b : List String} {result : Lookup} {n : ℕ}

/-- How a walk from a directory ends: what is found is there, and is no link if the last one was
followed; a link that is met lies in a directory. -/
def Ends (t : Tree) (follow : Bool) : Walk → Prop
  | .done (.found path) =>
    t.node path ≠ none ∧ (follow = true → ∀ absolute target, t.node path ≠ some (.link absolute target))
  | .done (.missing path) => t.node path = none
  | .done (.failed _) => True
  | .link dir _ _ _ => t.node dir = some .dir

theorem advance_ends (follow : Bool) (hcur : t.node cur = some .dir) (names : List String) :
    t.Ends follow (t.advance follow cur names) := by
  induction names generalizing cur with
  | nil => simp [advance, Ends, hcur]
  | cons name names ih =>
    rcases name_cases name with hskip | rfl | hname
    · rw [advance_skip hskip]
      exact ih hcur
    · rw [advance_up]
      exact ih (dir_dropLast hcur)
    · rw [advance_name hname]
      rcases hnode : t.node (cur ++ [name]) with _ | _ | bytes | ⟨absolute, target⟩
      · dsimp only
        split_ifs
        · exact hnode
        · trivial
      · exact ih hnode
      · dsimp only
        split_ifs
        · simp [Ends, hnode]
        · trivial
      · dsimp only
        split_ifs with hlast
        · simp [Ends, hnode, hlast.2]
        · exact hcur

variable {follow : Bool} {target rest : List String} {m : ℕ}

variable (hcur : t.node cur = some .dir) (hb : b ≠ [])
include hcur hb

/-- **A path is looked up in two parts.** What the first part leads to, if the walk gets that far, is
the directory where the second starts. -/
theorem advance_append :
    t.advance follow cur (a ++ b) = match t.advance true cur a with
      | .done (.found dir) =>
        if t.node dir = some .dir then t.advance follow dir b else .done (.failed .NotADirectory)
      | .done (.missing _) => .done (.failed .NotFound)
      | .done (.failed error) => .done (.failed error)
      | .link dir absolute target rest => .link dir absolute target (rest ++ b) := by
  induction a generalizing cur with
  | nil => simp [advance, hcur]
  | cons name a ih =>
    rw [cons_append]
    rcases name_cases name with hskip | rfl | hname
    · rw [advance_skip hskip, advance_skip hskip]
      exact ih hcur
    · rw [advance_up, advance_up]
      exact ih (dir_dropLast hcur)
    · rw [advance_name hname, advance_name hname]
      cases hnode : t.node (cur ++ [name]) with
      | none => by_cases ha : a = [] <;> simp [ha, hb]
      | some n =>
        cases n with
        | dir => exact ih hnode
        | file bytes => by_cases ha : a = [] <;> simp [ha, hb, hnode]
        | link absolute target => simp [hb]

theorem advance_append_done
    (h : t.advance follow cur (a ++ b) = .done result) (hok : result.place ≠ none) :
    ∃ dir, t.advance true cur a = .done (.found dir) ∧ t.node dir = some .dir ∧
      t.advance follow dir b = .done result := by
  rw [advance_append hcur hb] at h
  split at h
  · rename_i dir hadv
    split_ifs at h with hdir
    · exact ⟨dir, hadv, hdir, h⟩
    · cases h
      exact absurd rfl hok
  · cases h
    exact absurd rfl hok
  · cases h
    exact absurd rfl hok
  · cases h

theorem advance_append_link (h : t.advance follow cur (a ++ b) = .link dir absolute target rest) :
    (∃ d, t.advance true cur a = .done (.found d) ∧ t.node d = some .dir ∧
        t.advance follow d b = .link dir absolute target rest) ∨
      ∃ rest', t.advance true cur a = .link dir absolute target rest' ∧ rest = rest' ++ b := by
  rw [advance_append hcur hb] at h
  split at h
  · rename_i d hadv
    split_ifs at h with hdir
    exact .inl ⟨d, hadv, hdir, h⟩
  · cases h
  · cases h
  · rename_i d absolute' target' rest' hadv
    cases h
    exact .inr ⟨rest', hadv, rfl⟩

omit hcur hb

theorem resolve_of_done (h : t.advance follow cur names = .done result) :
    t.resolve follow links cur names = result := by
  cases links <;> simp [resolve, h]

/-- **Induction along a lookup** that ended somewhere: it did so at once, or behind the first link. -/
theorem resolve_induct {motive : ℕ → Path → List String → Prop} (hok : result.place ≠ none)
    (done : ∀ links cur names, t.advance follow cur names = .done result → motive links cur names)
    (link : ∀ links cur names dir absolute target rest,
      t.advance follow cur names = .link dir absolute target rest →
      t.resolve follow links (if absolute then [] else dir) (target ++ rest) = result →
      motive links (if absolute then [] else dir) (target ++ rest) → motive (links + 1) cur names)
    (h : t.resolve follow links cur names = result) : motive links cur names := by
  induction links generalizing cur names with
  | zero =>
    rw [resolve] at h
    cases hadv : t.advance follow cur names with
    | done r =>
      rw [hadv] at h
      exact done 0 cur names (hadv.trans (congrArg Walk.done h))
    | link dir absolute target rest =>
      rw [hadv] at h
      exact absurd (h ▸ rfl) hok
  | succ n ih =>
    rw [resolve] at h
    cases hadv : t.advance follow cur names with
    | done r =>
      rw [hadv] at h
      exact done (n + 1) cur names (hadv.trans (congrArg Walk.done h))
    | link dir absolute target rest =>
      rw [hadv] at h
      exact link n cur names dir absolute target rest hadv h (ih h)

theorem resolve_link (h : t.advance follow cur names = .link dir absolute target rest) :
    t.resolve follow (n + 1) cur names =
      t.resolve follow n (if absolute then [] else dir) (target ++ rest) := by
  rw [resolve, h]

theorem dir_of_link (h : t.node dir = some .dir) (absolute : Bool) :
    t.node (if absolute then [] else dir) = some .dir := by
  cases absolute with
  | true => exact t.root
  | false => exact h

theorem resolve_ends (follow : Bool) (hcur : t.node cur = some .dir) (links : ℕ) (names : List String) :
    t.Ends follow (.done (t.resolve follow links cur names)) := by
  induction links generalizing cur names with
  | zero =>
    have hwalk := advance_ends follow hcur names
    rw [resolve]
    cases hadv : t.advance follow cur names with
    | done r => exact hadv ▸ hwalk
    | link dir absolute target rest => trivial
  | succ n ih =>
    have hwalk := advance_ends follow hcur names
    rw [resolve]
    cases hadv : t.advance follow cur names with
    | done r => exact hadv ▸ hwalk
    | link dir absolute target rest =>
      rw [hadv] at hwalk
      exact ih (dir_of_link hwalk absolute) _

theorem resolve_found
    (hcur : t.node cur = some .dir) (h : t.resolve true links cur names = .found path) :
    t.node path ≠ none ∧ ∀ absolute target, t.node path ≠ some (.link absolute target) := by
  have hends := resolve_ends true hcur links names
  rw [h] at hends
  exact ⟨hends.1, hends.2 rfl⟩

theorem resolve_missing
    (hcur : t.node cur = some .dir) (h : t.resolve true links cur names = .missing path) :
    t.node path = none := by
  have hends := resolve_ends true hcur links names
  rwa [h] at hends

/-- **Lookups in two trees.** If the walks that meet a link are the same, and those that end in
`result` end well in the other tree, so do the lookups. -/
theorem resolve_transfer {t' : Tree} (good : Lookup → Prop) (hok : result.place ≠ none)
    (hdone : ∀ cur names, t.advance follow cur names = .done result →
      ∃ r, good r ∧ t'.advance follow cur names = .done r)
    (hlink : ∀ cur names dir absolute target rest,
      t.advance follow cur names = .link dir absolute target rest →
        t'.advance follow cur names = .link dir absolute target rest)
    (h : t.resolve follow links cur names = result) : good (t'.resolve follow links cur names) := by
  refine resolve_induct (motive := fun links cur names => good (t'.resolve follow links cur names))
    hok ?_ ?_ h
  · intro links cur names hend
    obtain ⟨r, hgood, hr⟩ := hdone cur names hend
    rwa [resolve_of_done hr]
  · intro links cur names dir absolute target rest hmet _ ih
    rwa [resolve_link (hlink _ _ _ _ _ _ hmet)]

theorem resolve_append (hcur : t.node cur = some .dir) (hb : b ≠ [])
    (h : t.resolve follow links cur (a ++ b) = result) (hok : result.place ≠ none) :
    ∃ dir n, t.resolve true links cur a = .found dir ∧ t.node dir = some .dir ∧
      t.resolve follow n dir b = result := by
  refine resolve_induct (motive := fun links cur names => ∀ a, names = a ++ b →
    t.node cur = some .dir → ∃ dir n, t.resolve true links cur a = .found dir ∧
      t.node dir = some .dir ∧ t.resolve follow n dir b = result) hok ?_ ?_ h a rfl hcur
  · rintro links cur names hdone a rfl hcur
    obtain ⟨dir, hfirst, hdir, hsecond⟩ := advance_append_done hcur hb hdone hok
    exact ⟨dir, 0, resolve_of_done hfirst, hdir, resolve_of_done hsecond⟩
  · rintro links cur names dir absolute target rest hlink hrest ih a rfl hcur
    rcases advance_append_link hcur hb hlink with ⟨d, hfirst, hdir, hsecond⟩ | ⟨rest', hfirst, rfl⟩
    · exact ⟨d, links + 1, resolve_of_done hfirst, hdir, (resolve_link hsecond).trans hrest⟩
    · have hwalk := advance_ends true hcur a
      rw [hfirst] at hwalk
      obtain ⟨d, k, hfound, hdir, hsecond⟩ :=
        ih (target ++ rest') (append_assoc _ _ _).symm (dir_of_link hwalk absolute)
      exact ⟨d, k, (resolve_link hfirst).trans hfound, hdir, hsecond⟩

theorem resolve_succ (h : t.resolve follow links cur names = result) (hok : result.place ≠ none) :
    t.resolve follow (links + 1) cur names = result := by
  refine resolve_induct (motive := fun links cur names =>
    t.resolve follow (links + 1) cur names = result) hok ?_ ?_ h
  · exact fun links cur names hdone => resolve_of_done hdone
  · intro links cur names dir absolute target rest hmet _ ih
    rwa [resolve_link hmet]

theorem resolve_of_le (hmn : m ≤ n)
    (h : t.resolve follow m cur names = result) (hok : result.place ≠ none) :
    t.resolve follow n cur names = result := by
  induction hmn with
  | refl => exact h
  | step _ ih => exact resolve_succ ih hok

/-- How many links may be followed does not change what a path leads to. -/
theorem resolve_unique {r r' : Lookup}
    (h : t.resolve follow m cur names = r) (h' : t.resolve follow n cur names = r')
    (hok : r.place ≠ none) (hok' : r'.place ≠ none) : r = r' := by
  have hm := resolve_of_le (le_max_left m n) h hok
  have hn := resolve_of_le (le_max_right m n) h' hok'
  exact hm.symm.trans hn

theorem advance_real {n : Node}
    (h : t.node (cur ++ rest) = some n) (hlink : ∀ absolute target, n ≠ .link absolute target) :
    t.advance follow cur rest = .done (.found (cur ++ rest)) := by
  induction rest generalizing cur with
  | nil => simp [advance]
  | cons name rest ih =>
    have hsplit : cur ++ name :: rest = cur ++ [name] ++ rest := by simp
    rw [hsplit] at h ⊢
    have hsome : t.node (cur ++ [name] ++ rest) ≠ none := by
      rw [h]
      exact Option.some_ne_none n
    by_cases hrest : rest = []
    · subst hrest
      rw [append_nil] at h hsome ⊢
      rw [advance_name (t.named _ _ hsome), h]
      cases n with
      | dir => simp [advance]
      | file bytes => simp
      | link absolute target => exact absurd rfl (hlink absolute target)
    · have hdir := t.dir_above hsome (prefix_append _ rest) (by simpa using hrest)
      rw [advance_name (t.named _ _ (by rw [hdir]; exact Option.some_ne_none _)), hdir]
      exact ih h

theorem resolve_real {n : Node}
    (h : t.node path = some n) (hlink : ∀ absolute target, n ≠ .link absolute target) :
    t.resolve follow links [] path = .found path :=
  resolve_of_done (advance_real (show t.node ([] ++ path) = some n from h) hlink)

end Tree

/-! ## The calls of a host -/

/-- A place that a call reads, creates or changes, or one that it removes or moves with all below. -/
inductive Touch where
  | one (path : Path)
  | all (path : Path)
  deriving DecidableEq

def Touch.path : Touch → Path
  | .one path => path
  | .all path => path

structure State where
  tree : Tree
  touched : List Touch

abbrev HostCall (α : Type) := Action State IoError α

def touch (touches : List Touch) (change : Tree → Tree) : HostCall Unit :=
  Action.modify fun s => ⟨change s.tree, s.touched ++ touches⟩

def target_of (p : Place) : HostCall Lookup := ask fun s => s.tree.target p

def entry_of (p : Place) : HostCall Path := fun s => (s.tree.entry p, s)

def node_at (path : Path) : HostCall (Option Node) := ask fun s => s.tree.node path

def create_dir (p : Place) : HostCall Unit := do
  let path ← entry_of p
  match ← node_at path with
  | some _ => fail .AlreadyExists
  | none => touch [.one path] (·.put path .dir)

/-- A directory that is there already is as good as a new one. -/
def or_directory (p : Place) (error : IoError) : HostCall Unit := do
  if (← ask fun s => s.tree.is_dir p) then return () else fail error

def create_ancestors : List Place → HostCall Unit
  | [] => return ()
  | p :: above => do
    match ← attempt (create_dir p) with
    | .ok () => return ()
    | .error error =>
      if error = .NotFound then
        create_ancestors above
        match ← attempt (create_dir p) with
        | .ok () => return ()
        | .error error => or_directory p error
      else or_directory p error

def ancestors (p : Place) : List Place :=
  if p.names = [] then []
  else p :: ((p.names.dropLast.inits.reverse.filter (· ≠ [])).map fun names => ⟨names, .plain⟩)

def create_dir_all (p : Place) : HostCall Unit := create_ancestors (ancestors p)

/-- Opens a file for writing, creates it if there is none, and changes its bytes. -/
def store (p : Place) (change : Bytes → Bytes) : HostCall Unit := do
  match ← target_of p with
  | .failed error => fail error
  | .missing path => touch [.one path] (·.put path (.file (change [])))
  | .found path =>
    match ← node_at path with
    | some (.file bytes) => touch [.one path] (·.put path (.file (change bytes)))
    | some .dir => fail .IsADirectory
    | _ => fail .Other

def write (p : Place) (content : Bytes) : HostCall Unit := store p fun _ => content

def pwrite (p : Place) (offset : ℕ) (content : Bytes) : HostCall Unit :=
  store p (Fs.splice offset content)

def read (p : Place) : HostCall Bytes := do
  match ← target_of p with
  | .failed error => fail error
  | .missing _ => fail .NotFound
  | .found path =>
    match ← node_at path with
    | some (.file bytes) =>
      touch [.one path] id
      return bytes
    | some .dir => fail .IsADirectory
    | _ => fail .Other

/-- The target is opened before the source is read, so a file copied onto itself is emptied. -/
def copy (src dst : Place) : HostCall ℕ := do
  let content ← read src
  let same ← ask fun s => decide (s.tree.target src = s.tree.target dst)
  let copied := if same then [] else content
  write dst copied
  return copied.length

def remove_file (p : Place) : HostCall Unit := do
  let path ← entry_of p
  match ← node_at path with
  | none => fail .NotFound
  | some .dir => fail .IsADirectory
  | some _ =>
    if p.tail ≠ .plain then fail .NotADirectory else touch [.all path] (·.cut path)

def remove_dir (p : Place) : HostCall Unit := do
  let path ← entry_of p
  match ← node_at path with
  | none => fail .NotFound
  | some .dir =>
    if (← ask fun s => s.tree.occupied path) then fail .DirectoryNotEmpty
    else touch [.all path] (·.cut path)
  | some _ => fail .NotADirectory

/-- A link is removed itself; a directory is emptied first, without following the links in it. -/
def remove_dir_all (p : Place) : HostCall Unit := do
  match ← ask fun s => s.tree.lookup false p with
  | .failed error => fail error
  | .missing _ => fail .NotFound
  | .found path =>
    match ← node_at path with
    | some (.link _ _) => remove_file p
    | some .dir =>
      touch [.all path] (·.clear path)
      remove_dir p
    | _ => fail .NotADirectory

def rename (a b : Place) : HostCall Unit := do
  let src ← entry_of a
  let dst ← entry_of b
  let replaced ← node_at dst
  match ← node_at src with
  | none => fail .NotFound
  | some .dir =>
    if src = dst then return ()
    else if src <+: dst then fail .InvalidInput
    else
      match replaced with
      | none => touch [.all src, .all dst] (·.move src dst)
      | some .dir =>
        if (← ask fun s => s.tree.occupied dst) then fail .DirectoryNotEmpty
        else touch [.all src, .all dst] (·.move src dst)
      | some _ => fail .NotADirectory
  | some _ =>
    if a.tail ≠ .plain ∨ b.tail ≠ .plain then fail .NotADirectory
    else if src = dst then return ()
    else if replaced = some .dir then fail .IsADirectory
    else touch [.all src, .all dst] (·.move src dst)

end NexusVfs.LinkTree
