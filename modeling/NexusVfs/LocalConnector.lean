/-
The local folder connector: `storage/local_connector.rs`.

A path is checked before a call and followed by the host during it. Without
`follow_symlinks` the check looks at no link; with it, a path that does not resolve is
checked by its parent, and if that does not resolve either, as it was written.
-/
import NexusVfs.LinkConfined
import NexusVfs.Runs

namespace NexusVfs.Storage

open Host

inductive StorageError where
  | NotFound (id : String)
  | NotSupported (operation : String)
  | IOError (kind : IoError)
  deriving DecidableEq

structure WriteResult where
  content_id : String
  size : ℕ
  deriving DecidableEq

/-- An error of the host; a missing file is reported under the name it was asked for. -/
def PathLocal.missing (id : String) : IoError → StorageError
  | .NotFound => .NotFound id
  | error => .IOError error

end NexusVfs.Storage

namespace NexusVfs.Connector

open Actions Actions.Action Host LinkTree Runs Storage Text
open Words

structure LocalConnectorBackend where
  root_path : Path
  follow_symlinks : Bool
  deriving DecidableEq

namespace LocalConnectorBackend

def new (root : LinkTree.Place) (follow_symlinks : Bool) (t : Tree) :
    Except IoError LocalConnectorBackend :=
  match t.target root with
  | .found root_path => .ok ⟨root_path, follow_symlinks⟩
  | _ => .error .NotFound

variable (c : LocalConnectorBackend)

def physical (virtual_path : String) : LinkTree.Place :=
  let clean := parse (trim_start_matches virtual_path '/')
  ⟨c.root_path ++ clean.names, clean.tail⟩

/-- The path with its links resolved; if it leads nowhere, its parent with the links resolved and its
last name. -/
def canonical (physical : LinkTree.Place) (t : Tree) : LinkTree.Place :=
  match t.target physical with
  | .found path => ⟨path, .plain⟩
  | _ =>
    match physical.names.getLast? with
    | none => physical
    | some leaf =>
      match t.target ⟨physical.names.dropLast, .plain⟩ with
      | .found dir => ⟨dir ++ [leaf], .plain⟩
      | _ => physical

def resolve_path (virtual_path : String) (t : Tree) : Except StorageError LinkTree.Place :=
  if ['.', '.'] <:+: (trim_start_matches virtual_path '/').toList then
    .error (.IOError .InvalidInput)
  else
    let physical := c.physical virtual_path
    let resolved := if c.follow_symlinks then canonical physical t else physical
    if c.root_path <+: resolved.names then .ok resolved else .error (.IOError .Other)

/-! ## The calls -/

abbrev Call (α : Type) := Action State StorageError α

def host {α : Type} (error : IoError → StorageError) (x : HostCall α) : Call α := fun s =>
  ((x s).1.mapError error, (x s).2)

def io {α : Type} (x : HostCall α) : Call α := host .IOError x

def resolve (virtual_path : String) : Call LinkTree.Place := fun s =>
  (c.resolve_path virtual_path s.tree, s)

/-- The directory of a file is made if there is none. -/
def create_parent (p : LinkTree.Place) : Call Unit := io (create_dir_all ⟨p.names.dropLast, .plain⟩)

def write_content (content : Bytes) (content_id : String) (offset : ℕ) : Call WriteResult := do
  if content_id = "" then fail (.IOError .InvalidInput)
  else
    let file_path ← c.resolve content_id
    create_parent file_path
    if offset = 0 then
      io (write file_path content)
      return ⟨content_id, content.length⟩
    else
      io (pwrite file_path offset content)
      let final_bytes ← io (read file_path)
      return ⟨content_id, final_bytes.length⟩

def read_content (content_id : String) : Call Bytes := do
  if content_id = "" then fail (.IOError .InvalidInput)
  else
    let file_path ← c.resolve content_id
    host (PathLocal.missing content_id) (read file_path)

def mkdir (path : String) (parents : Bool) : Call Unit := do
  let dir_path ← c.resolve path
  if parents then io (create_dir_all dir_path) else io (create_dir dir_path)

def rmdir (path : String) (recursive : Bool) : Call Unit := do
  let dir_path ← c.resolve path
  if recursive then io (remove_dir_all dir_path) else io (remove_dir dir_path)

def delete_file (path : String) : Call Unit := do
  let file_path ← c.resolve path
  host (PathLocal.missing path) (remove_file file_path)

def rename (old_path new_path : String) : Call Unit := do
  let old ← c.resolve old_path
  let new ← c.resolve new_path
  create_parent new
  io (LinkTree.rename old new)

def copy_file (src_path dst_path : String) : Call WriteResult := do
  let src ← c.resolve src_path
  let dst ← c.resolve dst_path
  create_parent dst
  let size ← io (copy src dst)
  -- read for the hash
  let _ ← io (read dst)
  return ⟨dst_path, size⟩

/-! ## Runs -/

inductive Op where
  | write_content (content : Bytes) (content_id : String) (offset : ℕ)
  | read_content (content_id : String)
  | mkdir (path : String) (parents : Bool)
  | rmdir (path : String) (recursive : Bool)
  | delete_file (path : String)
  | rename (old_path new_path : String)
  | copy_file (src_path dst_path : String)

def call : Op → Call Unit
  | .write_content content content_id offset => do
    let _ ← c.write_content content content_id offset
    return ()
  | .read_content content_id => do
    let _ ← c.read_content content_id
    return ()
  | .mkdir path parents => c.mkdir path parents
  | .rmdir path recursive => c.rmdir path recursive
  | .delete_file path => c.delete_file path
  | .rename old_path new_path => c.rename old_path new_path
  | .copy_file src_path dst_path => do
    let _ ← c.copy_file src_path dst_path
    return ()

/-- Between two calls others may change the tree. -/
inductive Event where
  | call (op : Op)
  | others (t : Tree)

def step (s : State) : Event → Option (Except StorageError Unit × State)
  | .call op => some (c.call op s)
  | .others t => some (.ok (), ⟨t, s.touched⟩)

/-! ## Which paths are followed as they were checked -/

/-- One of three: the whole path resolves, with `follow_symlinks`; or its parent does, and its last
name, if the call follows it (`through`), is no link; or, name by name from the root on, the path
stays below the root until it comes to a place where there is nothing. -/
def PathOk (t : Tree) (virtual_path : String) (through : Bool) : Prop :=
  let physical := c.physical virtual_path
  let names := (parse (trim_start_matches virtual_path '/')).names
  (c.follow_symlinks = true ∧ ∃ path, t.target physical = .found path) ∨
    (c.follow_symlinks = true ∧ ∃ dir, t.target ⟨physical.names.dropLast, .plain⟩ = .found dir ∧
      (through = true → c.root_path <+: dir → ∀ leaf absolute target,
        physical.names.getLast? = some leaf →
          t.node (dir ++ [leaf]) ≠ some (.link absolute target))) ∨
    t.Settled c.root_path c.root_path (if through then names else names.dropLast)

/-- What reads or writes a file follows its last name; what makes, removes or moves an entry does not,
but a directory that is emptied is looked up by the path as it was written. -/
def CallOk (t : Tree) : Op → Prop
  | .write_content _ content_id _ => c.PathOk t content_id true
  | .read_content content_id => c.PathOk t content_id true
  | .mkdir path _ => c.PathOk t path false
  | .rmdir path recursive => c.PathOk t path (recursive && (c.physical path).tail ≠ .plain)
  | .delete_file path => c.PathOk t path false
  | .rename old_path new_path => c.PathOk t old_path false ∧ c.PathOk t new_path false
  | .copy_file src_path dst_path => c.PathOk t src_path true ∧ c.PathOk t dst_path true

/-- Others leave the root where it is. -/
def EventOk (s : State) : Event → Prop
  | .call op => c.CallOk s.tree op
  | .others t => t.Firm c.root_path

/-! ## What the check lets through -/

variable {c} {t : Tree} {virtual_path : String}

theorem names_of_clean (h : ¬ ['.', '.'] <:+: (trim_start_matches virtual_path '/').toList) :
    ∀ name ∈ (parse (trim_start_matches virtual_path '/')).names, IsName name := by
  intro name hname
  obtain ⟨hmem, hpass⟩ := List.mem_filter.mp hname
  simp only [Bool.and_eq_true, bne_iff_ne, ne_eq] at hpass
  refine ⟨hpass.1, hpass.2, ?_⟩
  rintro rfl
  exact h (infix_of_mem_split hmem)

theorem canonical_cases (physical : LinkTree.Place) (t : Tree) :
    (∃ path, t.target physical = .found path ∧ canonical physical t = ⟨path, .plain⟩) ∨
      (∃ leaf dir, (∀ path, t.target physical ≠ .found path) ∧ physical.names.getLast? = some leaf ∧
        t.target ⟨physical.names.dropLast, .plain⟩ = .found dir ∧
        canonical physical t = ⟨dir ++ [leaf], .plain⟩) ∨
      ((∀ path, t.target physical ≠ .found path) ∧
        (physical.names = [] ∨ ∀ dir, t.target ⟨physical.names.dropLast, .plain⟩ ≠ .found dir) ∧
        canonical physical t = physical) := by
  unfold canonical
  split
  · rename_i path hpath
    exact .inl ⟨path, hpath, rfl⟩
  · rename_i hnot
    split
    · rename_i hnone
      exact .inr (.inr ⟨hnot, .inl (List.getLast?_eq_none_iff.mp hnone), rfl⟩)
    · rename_i leaf hleaf
      split
      · rename_i dir hdir
        exact .inr (.inl ⟨leaf, dir, hnot, hleaf, hdir, rfl⟩)
      · rename_i hnone
        exact .inr (.inr ⟨hnot, .inr hnone, rfl⟩)

variable {through : Bool} {root : Path} {leaf : String} {p : LinkTree.Place}

theorem guarded_physical (hfirm : t.Firm c.root_path)
    (hnames : ∀ name ∈ (parse (trim_start_matches virtual_path '/')).names, IsName name)
    (h : t.Settled c.root_path c.root_path
      (if through then (parse (trim_start_matches virtual_path '/')).names
        else (parse (trim_start_matches virtual_path '/')).names.dropLast)) :
    t.Guarded c.root_path (c.physical virtual_path).names through :=
  ⟨c.root_path, _, rfl, List.prefix_rfl, hfirm, hnames, h⟩

variable {dir : Path} {links : ℕ} {names : List String} {op : Op} {s : State}

theorem guarded_leaf (hroot : t.Firm root)
    (hdir : t.resolve true links [] names = .found dir) (hleaf : IsName leaf)
    (hcheck : root <+: dir ++ [leaf])
    (h : through = true → root <+: dir → t.Settled root dir [leaf]) :
    t.Guarded root (dir ++ [leaf]) through := by
  rcases List.prefix_concat_iff.mp hcheck with heq | hbelow
  · refine ⟨root, [], by simp [heq], List.prefix_rfl, hroot, by simp, ?_⟩
    split_ifs <;> trivial
  · refine ⟨dir, [leaf], rfl, hbelow, Tree.firm_of_resolve hdir, by simpa using hleaf, ?_⟩
    split_ifs with hthrough
    · exact h hthrough hbelow
    · trivial

theorem settled_of_no_link (hbelow : root <+: dir)
    (h : ∀ absolute target, t.node (dir ++ [leaf]) ≠ some (.link absolute target)) :
    t.Settled root dir [leaf] := by
  cases hnode : t.node (dir ++ [leaf]) with
  | none => exact .inl hnode
  | some n =>
    refine .inr ⟨0, dir ++ [leaf], ?_, hbelow.trans (List.prefix_append _ _), trivial⟩
    refine Tree.resolve_of_done (Tree.advance_real hnode fun absolute target heq => ?_)
    exact h absolute target (heq ▸ hnode)

theorem settled_leaf {init : List String} (hfirm : t.Firm root)
    (hisname : ∀ name ∈ names, IsName name) (hnames : root ++ names = init ++ [leaf])
    (h : t.Settled root root names) (hdir : t.resolve true links [] init = .found dir)
    (hbelow : root <+: dir) : t.Settled root dir [leaf] := by
  rcases List.eq_nil_or_concat names with rfl | ⟨names', last, rfl⟩
  · -- The leaf is the root's own name, and its parent does not lie below the root.
    rw [List.append_nil] at hnames
    subst hnames
    have habove := hfirm.above init (List.prefix_append _ _) (by simp)
    rw [Tree.resolve_real habove (by simp)] at hdir
    cases hdir
    have hlen := hbelow.length_le
    rw [List.length_append, List.length_singleton] at hlen
    omega
  · rw [List.concat_eq_append] at hnames hisname h
    rw [← List.append_assoc] at hnames
    obtain ⟨rfl, hlast⟩ := List.append_inj' hnames rfl
    obtain rfl : last = leaf := by simpa using hlast
    by_cases hnil : names' = []
    · subst hnil
      rw [List.append_nil] at hdir
      rcases hfirm.resolve links with ⟨-, hself⟩ | ⟨-, hself⟩
      · rw [hself] at hdir
        cases hdir
        exact h
      · rw [hself] at hdir
        cases hdir
    · obtain ⟨d, n, hfirst, hd, hsecond⟩ := Tree.resolve_append t.root hnil hdir (by simp)
      rcases hfirm.resolve links with ⟨-, hself⟩ | ⟨-, hself⟩
      · rw [hself] at hfirst
        cases hfirst
        exact (h.rest List.prefix_rfl hd (fun n hn => hisname n (by simp [hn])) hsecond).2
      · rw [hself] at hfirst
        cases hfirst

theorem resolve_path_ok (h : c.resolve_path virtual_path t = .ok p) :
    ¬ ['.', '.'] <:+: (trim_start_matches virtual_path '/').toList ∧ c.root_path <+: p.names ∧
      p = if c.follow_symlinks then canonical (c.physical virtual_path) t
        else c.physical virtual_path := by
  unfold resolve_path at h
  split_ifs at h with hdots hfollow
  · dsimp only at h
    split_ifs at h with hcheck
    cases h
    exact ⟨hdots, hcheck, (if_pos hfollow).symm⟩
  · dsimp only at h
    split_ifs at h with hcheck
    cases h
    exact ⟨hdots, hcheck, (if_neg hfollow).symm⟩

/-- **What the check lets through is guarded.** -/
theorem guarded_of_resolve_path (hfirm : t.Firm c.root_path) (hok : c.PathOk t virtual_path through)
    (h : c.resolve_path virtual_path t = .ok p) :
    t.Guarded c.root_path p.names through ∧
      (p.tail = .plain ∨ p.tail = (c.physical virtual_path).tail) := by
  obtain ⟨hdots, hcheck, rfl⟩ := resolve_path_ok h
  have hnames := names_of_clean hdots
  by_cases hfollow : c.follow_symlinks = true
  · rw [if_pos hfollow] at hcheck ⊢
    rcases canonical_cases (c.physical virtual_path) t with
      ⟨path, hpath, heq⟩ | ⟨leaf, dir, hnot, hleaf, hdir, heq⟩ | ⟨hnot, hnone, heq⟩
    · -- The whole path resolves.
      rw [heq] at hcheck ⊢
      refine ⟨⟨path, [], by simp, hcheck, Tree.firm_of_resolve (Tree.lookup_found hpath),
        by simp, ?_⟩, .inl rfl⟩
      split_ifs <;> trivial
    · -- Its parent does.
      rw [heq] at hcheck ⊢
      have hsplit : (c.physical virtual_path).names =
          (c.physical virtual_path).names.dropLast ++ [leaf] :=
        (List.dropLast_append_getLast? leaf hleaf).symm
      have hisname : IsName leaf := by
        have hmem : leaf ∈ c.root_path ++ (parse (trim_start_matches virtual_path '/')).names :=
          List.mem_of_getLast? hleaf
        rcases List.mem_append.mp hmem with hroot | hrest
        · exact hfirm.names leaf hroot
        · exact hnames leaf hrest
      have hres := Tree.lookup_found hdir
      refine ⟨guarded_leaf hfirm hres hisname hcheck fun hthrough hbelow => ?_, .inl rfl⟩
      rcases hok with ⟨-, path, hpath⟩ | ⟨-, dir', hdir', hlink⟩ | hsettled
      · exact absurd hpath (hnot path)
      · obtain rfl : dir' = dir := Lookup.found.inj (hdir'.symm.trans hdir)
        exact settled_of_no_link hbelow fun absolute target =>
          hlink hthrough hbelow leaf absolute target hleaf
      · rw [if_pos hthrough] at hsettled
        exact settled_leaf hfirm hnames hsplit hsettled hres hbelow
    · -- It is used as it was written.
      rw [heq]
      refine ⟨?_, .inr rfl⟩
      rcases hnone with hnil | hnone
      · -- The root of the host itself.
        obtain ⟨hroot, hrest⟩ := List.append_eq_nil_iff.mp hnil
        refine guarded_physical hfirm hnames ?_
        rw [hrest]
        split_ifs <;> trivial
      · rcases hok with ⟨-, path, hpath⟩ | ⟨-, dir', hdir', -⟩ | hsettled
        · exact absurd hpath (hnot path)
        · exact absurd hdir' (hnone dir')
        · exact guarded_physical hfirm hnames hsettled
  · rw [if_neg hfollow]
    refine ⟨guarded_physical hfirm hnames ?_, .inr rfl⟩
    rcases hok with ⟨hfollow', -⟩ | ⟨hfollow', -⟩ | hsettled
    · exact absurd hfollow' hfollow
    · exact absurd hfollow' hfollow
    · exact hsettled

/-! ## What a call touches -/

theorem host_inside {α : Type} {start : Tree} {P P' : State → Prop} {Q : α → State → Prop}
    {x : HostCall α} (h : Triple (Inside root start) Anyhow P x Q) (error : IoError → StorageError)
    (hpre : ∀ s, P' s → P s) : Triple (Inside root start) Anyhow P' (host error x) Q := by
  intro s hs hp
  obtain ⟨hs', -, hq⟩ := h s hs (hpre s hp)
  refine ⟨hs', trivial, fun a ha => hq a ?_⟩
  cases hres : (x s).1 with
  | ok b =>
    simp only [host, hres] at ha
    cases ha
    rfl
  | error e =>
    simp only [host, hres] at ha
    cases ha

def Stays (c : LocalConnectorBackend) (t : Tree) {α : Type} (x : Call α) : Prop :=
  Triple (Inside c.root_path t) Anyhow (fun s => s.tree = t) x fun _ _ => True

section Inside

variable (hfirm : t.Firm c.root_path)

include hfirm

theorem resolve_inside (hok : c.PathOk t virtual_path through) :
    Triple (Inside c.root_path t) Anyhow (fun s => s.tree = t) (c.resolve virtual_path)
      fun p s => (t.Guarded c.root_path p.names through ∧
        (p.tail = .plain ∨ p.tail = (c.physical virtual_path).tail)) ∧ s.tree = t := by
  refine triple_of_same (fun _ => rfl) ?_
  rintro s p rfl hp
  exact ⟨guarded_of_resolve_path hfirm hok hp, rfl⟩

omit hfirm in
theorem create_parent_inside (h : t.Guarded c.root_path p.names false) :
    Triple (Inside c.root_path t) Anyhow (fun s => s.tree = t) (create_parent p)
      fun _ s => t.Grown c.root_path s.tree := by
  have hmake : Keeps (Making c.root_path t t) Anyhow (create_dir_all ⟨p.names.dropLast, .plain⟩) :=
    create_dir_all_making h (List.dropLast_prefix p.names)
  refine host_inside (inside_of_making hmake) _ ?_
  rintro s rfl
  exact Tree.Grown.refl _ _

theorem write_content_inside (hok : c.PathOk t virtual_path true) (content : Bytes) (offset : ℕ) :
    Stays c t (c.write_content content virtual_path offset) := by
  unfold Stays write_content
  by_cases hid : virtual_path = ""
  · rw [if_pos hid]
    exact triple_fail _
  · rw [if_neg hid]
    refine Triple.bind (resolve_inside hfirm hok) fun p => triple_of_fact fun ⟨hguard, _⟩ => ?_
    refine Triple.bind (create_parent_inside hguard.weaken) fun _ => ?_
    have hstore (change : Bytes → Bytes) :
        Triple (Inside c.root_path t) Anyhow (fun s => t.Grown c.root_path s.tree)
          (io (store p change)) fun _ s => TargetWithin c.root_path p s.tree :=
      host_inside (store_inside p change) _ fun _ hgrown _ hq => hguard.target_within hgrown hq
    split_ifs
    · exact Triple.bind (hstore _) fun _ => triple_pure _ fun _ _ => trivial
    · refine Triple.bind (hstore _) fun _ => ?_
      refine Triple.bind (host_inside (read_inside p fun _ => True) _ fun _ h => ⟨h, trivial⟩)
        fun _ => ?_
      exact triple_pure _ fun _ _ => trivial

theorem read_content_inside (hok : c.PathOk t virtual_path true) :
    Stays c t (c.read_content virtual_path) := by
  unfold Stays read_content
  split_ifs
  · exact triple_fail _
  · refine Triple.bind (resolve_inside hfirm hok) fun p => triple_of_fact fun ⟨hguard, _⟩ => ?_
    refine host_inside (read_inside p fun _ => True) _ ?_
    rintro s rfl
    exact ⟨fun q hq => hguard.target_within (Tree.Grown.refl _ _) hq, trivial⟩

theorem mkdir_inside (hok : c.PathOk t virtual_path false) (parents : Bool) :
    Stays c t (c.mkdir virtual_path parents) := by
  refine Triple.bind (resolve_inside hfirm hok) fun p => triple_of_fact fun ⟨hguard, _⟩ => ?_
  have hmake {x : HostCall Unit} (hx : Keeps (Making c.root_path t t) Anyhow x) :
      Stays c t (io x) := by
    refine (host_inside (inside_of_making hx) _ ?_).weaken (fun _ h => h) fun _ _ _ => trivial
    rintro s rfl
    exact Tree.Grown.refl _ _
  cases parents with
  | true => exact hmake (create_dir_all_making hguard List.prefix_rfl)
  | false => exact hmake (create_dir_making hguard List.prefix_rfl)

theorem rmdir_inside {recursive : Bool}
    (hok : c.PathOk t virtual_path (recursive && (c.physical virtual_path).tail ≠ .plain)) :
    Stays c t (c.rmdir virtual_path recursive) := by
  refine Triple.bind (resolve_inside hfirm hok) fun p => triple_of_fact fun ⟨hguard, htail⟩ => ?_
  have hentry {s : State} (hs : s.tree = t) : EntryWithin c.root_path p s.tree := by
    subst hs
    intro q hq
    refine Tree.Guarded.entry_within (p := p) ?_ (Tree.Grown.refl _ _) hq
    cases hthrough : (recursive && decide ((c.physical virtual_path).tail ≠ .plain)) with
    | true => exact (hthrough ▸ hguard).weaken
    | false => exact hthrough ▸ hguard
  cases recursive with
  | true =>
    refine host_inside (remove_dir_all_inside p) _ fun s hs => ?_
    refine ⟨hentry hs, fun q hq _ => ?_⟩
    subst hs
    refine Tree.Guarded.dir_within (p := p) ?_ hq
    rw [Bool.true_and] at hguard
    rcases htail with hplain | hsame
    · rw [decide_eq_false (by simpa using hplain)]
      cases hthrough : decide ((c.physical virtual_path).tail ≠ .plain) with
      | true => exact (hthrough ▸ hguard).weaken
      | false => exact hthrough ▸ hguard
    · rw [hsame]
      exact hguard
  | false => exact host_inside (remove_dir_inside p) _ fun s hs => hentry hs

theorem delete_file_inside (hok : c.PathOk t virtual_path false) :
    Stays c t (c.delete_file virtual_path) := by
  refine Triple.bind (resolve_inside hfirm hok) fun p => triple_of_fact fun ⟨hguard, _⟩ => ?_
  refine host_inside (remove_file_inside p) _ ?_
  rintro s rfl q hq
  exact hguard.entry_within (Tree.Grown.refl _ _) hq

theorem rename_inside {old_path new_path : String} (hold : c.PathOk t old_path false)
    (hnew : c.PathOk t new_path false) : Stays c t (c.rename old_path new_path) := by
  refine Triple.bind (resolve_inside hfirm hold) fun p => triple_of_fact fun ⟨hguard, _⟩ => ?_
  refine Triple.bind (resolve_inside hfirm hnew) fun p' => triple_of_fact fun ⟨hguard', _⟩ => ?_
  refine Triple.bind (create_parent_inside hguard') fun _ => ?_
  refine host_inside (LinkTree.rename_inside p p') _ fun s hgrown => ?_
  exact ⟨fun q hq => hguard.entry_within hgrown hq, fun q hq => hguard'.entry_within hgrown hq⟩

theorem copy_file_inside {src_path dst_path : String} (hsrc : c.PathOk t src_path true)
    (hdst : c.PathOk t dst_path true) : Stays c t (c.copy_file src_path dst_path) := by
  refine Triple.bind (resolve_inside hfirm hsrc) fun p => triple_of_fact fun ⟨hguard, _⟩ => ?_
  refine Triple.bind (resolve_inside hfirm hdst) fun p' => triple_of_fact fun ⟨hguard', _⟩ => ?_
  refine Triple.bind (create_parent_inside hguard'.weaken) fun _ => ?_
  refine Triple.bind (host_inside (copy_inside p p') _ fun s hgrown => ?_) fun size => ?_
  · exact ⟨fun q hq => hguard.target_within hgrown hq, fun q hq => hguard'.target_within hgrown hq⟩
  · refine Triple.bind (host_inside (read_inside p' fun _ => True) _ fun _ h => ⟨h, trivial⟩)
      fun _ => ?_
    exact triple_pure _ fun _ _ => trivial

theorem call_inside {op : Op} (hok : c.CallOk t op) : Stays c t (c.call op) := by
  have hdone {α : Type} {x : Call α} (hx : Stays c t x) : Stays c t (do let _ ← x; return ()) :=
    Triple.bind hx fun _ => triple_pure _ fun _ _ => trivial
  cases op with
  | write_content content content_id offset => exact hdone (write_content_inside hfirm hok _ _)
  | read_content content_id => exact hdone (read_content_inside hfirm hok)
  | mkdir path parents => exact mkdir_inside hfirm hok parents
  | rmdir path recursive => exact rmdir_inside hfirm hok
  | delete_file path => exact delete_file_inside hfirm hok
  | rename old_path new_path => exact rename_inside hfirm hok.1 hok.2
  | copy_file src_path dst_path => exact hdone (copy_file_inside hfirm hok.1 hok.2)

end Inside

/-! ## Whole runs -/

/-- Everything touched so far lies below the root, and the root is where it was. -/
structure Confined (c : LocalConnectorBackend) (s : State) : Prop where
  touched : ∀ touched ∈ s.touched, c.root_path <+: touched.path
  firm : s.tree.Firm c.root_path

theorem Confined.call (hs : Confined c s) (hok : c.CallOk s.tree op) :
    Inside c.root_path s.tree (c.call op s).2 := by
  have hinside : Inside c.root_path s.tree s := ⟨hs.touched, fun _ _ => rfl, hs.firm.link⟩
  exact (call_inside hs.firm hok s hinside rfl).1

theorem Confined.step {s' : State} {event : Event} {answer : Except StorageError Unit}
    (hs : Confined c s) (hok : c.EventOk s event) (h : c.step s event = some (answer, s')) :
    Confined c s' := by
  cases event with
  | call op =>
    have hinside := hs.call hok
    obtain rfl : (c.call op s).2 = s' := congrArg Prod.snd (Option.some.inj h)
    refine ⟨hinside.touched, fun above hpre hne => ?_, hs.firm.names, hinside.solid⟩
    -- What lies above the root is outside of it.
    have hout : ¬ c.root_path <+: above := fun hback =>
      hne (hpre.eq_of_length_le hback.length_le)
    rw [hinside.outside above hout]
    exact hs.firm.above above hpre hne
  | others t =>
    cases h
    exact ⟨hs.touched, hok⟩

theorem confined_new {root : LinkTree.Place} {follow_symlinks : Bool}
    (h : new root follow_symlinks t = .ok c) : Confined c ⟨t, []⟩ := by
  unfold new at h
  split at h
  · rename_i path hpath
    cases h
    exact ⟨by simp, Tree.firm_of_resolve (Tree.lookup_found hpath)⟩
  · cases h

/-- **The connector stays below its root.** In every run in which no call's path goes through a link
that the check does not see, every place that a call reads, creates, changes or removes lies at or
below the root, and a call changes nothing outside of it. -/
theorem connector_stays_inside {root : LinkTree.Place} {follow_symlinks : Bool}
    (hnew : new root follow_symlinks t = .ok c) {events : List Event}
    (hok : along c.step c.EventOk ⟨t, []⟩ events) {answers : List (Except StorageError Unit)}
    {s : State} (hrun : run c.step ⟨t, []⟩ events = some (answers, s)) :
    (∀ touched ∈ s.touched, c.root_path <+: touched.path) ∧
      ∀ before op after answers₁ s₁, events = before ++ .call op :: after →
        run c.step ⟨t, []⟩ before = some (answers₁, s₁) →
          ∀ path, ¬ c.root_path <+: path →
            (c.call op s₁).2.tree.node path = s₁.tree.node path := by
  have hreached {events : List Event} {answers : List (Except StorageError Unit)} {s : State}
      (hok : along c.step c.EventOk ⟨t, []⟩ events)
      (hrun : run c.step ⟨t, []⟩ events = some (answers, s)) : Confined c s :=
    run_invariant (Confined c) (fun _ _ _ _ hs hev hstep => hs.step hev hstep) (confined_new hnew)
      hok hrun
  refine ⟨(hreached hok hrun).touched, ?_⟩
  rintro before op after answers₁ s₁ rfl hbefore path hpath
  obtain ⟨hok₁, hafter⟩ := along_append.mp hok
  exact ((hreached hok₁ hbefore).call (hafter _ _ hbefore).1).outside path hpath

/-! ## Links -/

/-- A folder to mount beside one that is not, and one link. -/
def folder (target : List String) : Tree :=
  (((Tree.bare.put ["m"] .dir).put ["out"] .dir).put ["out", "x"] (.file [1])).put ["m", "l"]
    (.link true target)

/-- A link inside the folder is followed, and files and directories are made. -/
def folder_events : List Event :=
  [.call (.write_content [7] "a" 0), .call (.read_content "l"),
    .call (.write_content [8] "d/e" 2), .others (folder ["m"]), .call (.mkdir "q" true)]

theorem folder_events_ok :
    along (step ⟨["m"], true⟩) (EventOk ⟨["m"], true⟩) ⟨folder ["m", "a"], []⟩ folder_events := by
  refine ⟨.inr (.inr (.inl (by decide +kernel))), fun _ _ h₁ => ?_⟩
  cases h₁
  refine ⟨.inl ⟨rfl, ["m", "a"], by decide +kernel⟩, fun _ _ h₂ => ?_⟩
  cases h₂
  refine ⟨.inr (.inr (.inl (by decide +kernel))), fun _ _ h₃ => ?_⟩
  cases h₃
  have hroot : (folder ["m"]).resolve true 0 [] ["m"] = .found ["m"] := by decide +kernel
  refine ⟨Tree.firm_of_resolve hroot, fun _ _ h₄ => ?_⟩
  cases h₄
  exact ⟨.inr (.inr trivial), fun _ _ _ => trivial⟩

theorem connector_stays_inside_folder :
    ∃ c answers s, new ⟨["m"], .plain⟩ true (folder ["m", "a"]) = .ok c ∧
      run c.step ⟨folder ["m", "a"], []⟩ folder_events = some (answers, s) ∧
      s.touched.length = 6 ∧ ∀ touched ∈ s.touched, c.root_path <+: touched.path := by
  have hnew : new ⟨["m"], .plain⟩ true (folder ["m", "a"]) = .ok ⟨["m"], true⟩ := by decide +kernel
  obtain ⟨answers, s, hs, hlength⟩ := run_decides (step ⟨["m"], true⟩) ⟨folder ["m", "a"], []⟩
    folder_events (fun _ s => s.touched.length = 6) (by decide +kernel)
  exact ⟨_, answers, s, hnew, hs, hlength, (connector_stays_inside hnew folder_events_ok hs).1⟩

/-- The ways out: a link that is not looked at; with `follow_symlinks`, a link to a place where
there is nothing yet, a directory that is made behind a link, and a link to a file whose name is
given with a slash. -/
theorem connector_leaves_its_root :
    let root : LinkTree.Place := ⟨["m"], .plain⟩
    let escapes (follow_symlinks : Bool) (target : List String) (op : Op) : Bool :=
      match new root follow_symlinks (folder target) with
      | .ok c => (c.call op ⟨folder target, []⟩).2.touched.any fun touched =>
        decide (¬ c.root_path <+: touched.path)
      | .error _ => false
    escapes false ["out", "x"] (.read_content "l") = true ∧
      escapes false ["out", "x"] (.write_content [7] "l" 0) = true ∧
      escapes false ["out"] (.delete_file "l/x") = true ∧
      escapes true ["out", "y"] (.write_content [7] "l" 0) = true ∧
      escapes true ["out"] (.write_content [7] "l/d/e" 0) = true ∧
      escapes true ["out", "x"] (.read_content "l/") = true := by
  decide +kernel

end LocalConnectorBackend

end NexusVfs.Connector
