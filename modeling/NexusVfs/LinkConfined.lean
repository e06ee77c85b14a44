/-
Calls that stay below a directory.

A path is safe below `root` if, name by name, it leads to places below `root` until it
comes to a name at which there is nothing (`Settled`). Making directories below `root`
does not change that (`Grown`), except for a path with a dangling link.
-/
import NexusVfs.LinkTree

namespace NexusVfs.LinkTree

open Option List Actions Actions.Action Host Text Words

namespace Tree

/-! ## New directories -/

def Grown (root : Path) (t t' : Tree) : Prop :=
  ∀ q, t'.node q = t.node q ∨ (t.node q = none ∧ t'.node q = some .dir ∧ root <+: q)

variable {root : Path} {t t' t'' : Tree}

theorem Grown.refl (root : Path) (t : Tree) : t.Grown root t := fun _ => .inl rfl

theorem Grown.trans (h : t.Grown root t') (h' : t'.Grown root t'') : t.Grown root t'' := by
  intro q
  rcases h' q with hsame | ⟨hnone, hdir, hpre⟩
  · rw [hsame]
    exact h q
  · rcases h q with hsame | ⟨-, hdir', -⟩
    · exact .inr ⟨hsame ▸ hnone, hdir, hpre⟩
    · rw [hnone] at hdir'
      cases hdir'

def Extends (t t' : Tree) : Prop := ∀ q n, t.node q = some n → t'.node q = some n

theorem Grown.extends (h : t.Grown root t') : t.Extends t' := by
  intro q n hq
  rcases h q with hsame | ⟨hnone, -, -⟩
  · rw [hsame, hq]
  · rw [hnone] at hq
    cases hq

variable {cur q : Path} {p : Place}

variable {follow : Bool} {links : ℕ} {dir : Path}

theorem Extends.advance (h : t.Extends t') {walk : Walk} (hadv : t.advance follow cur names = walk)
    (hwalk : ∀ result, walk = .done result → ∃ path, result = .found path) :
    t'.advance follow cur names = walk := by
  induction names generalizing cur with
  | nil => exact hadv
  | cons name names ih =>
    rcases name_cases name with hskip | rfl | hname
    · rw [advance_skip hskip] at hadv ⊢
      exact ih hadv
    · rw [advance_up] at hadv ⊢
      exact ih hadv
    · rw [advance_name hname] at hadv ⊢
      cases hnode : t.node (cur ++ [name]) with
      | none =>
        simp only [hnode] at hadv
        obtain ⟨path, hpath⟩ := hwalk _ hadv.symm
        split_ifs at hpath
      | some n =>
        rw [h _ _ hnode]
        simp only [hnode] at hadv
        cases n with
        | dir => exact ih hadv
        | file bytes => exact hadv
        | link absolute target => exact hadv

variable {path : Path} {name : String} {a b names : List String}

theorem Extends.resolve_found (h : t.Extends t')
    (hres : t.resolve follow links cur names = .found path) :
    t'.resolve follow links cur names = .found path := by
  refine resolve_transfer (· = .found path) (by simp) ?_ ?_ hres
  · intro cur names hdone
    refine ⟨_, rfl, h.advance hdone fun result hresult => ?_⟩
    cases hresult
    exact ⟨path, rfl⟩
  · intro cur names dir absolute target rest hlink
    exact h.advance hlink nofun

theorem Grown.below_none (h : t.Grown root t') (hnone : t.node path = none)
    (hpre : path <+: q) : t'.node q = none ∨ t'.node q = some .dir := by
  have hq : t.node q = none := by
    by_contra hsome
    by_cases hne : path = q
    · exact hsome (hne ▸ hnone)
    · rw [t.dir_above hsome hpre hne] at hnone
      cases hnone
  rcases h q with hsame | ⟨-, hdir, -⟩
  · exact .inl (hsame.trans hq)
  · exact .inr hdir

theorem advance_below (hdirs : ∀ q, cur ++ [name] <+: q → t.node q = none ∨ t.node q = some .dir)
    (hnames : ∀ n ∈ name :: names, IsName n) (follow : Bool) :
    ∃ result, t.advance follow cur (name :: names) = .done result ∧
      ∀ q, result.place = some q → cur <+: q := by
  induction names generalizing cur name with
  | nil =>
    rw [advance_name (hnames name mem_cons_self)]
    rcases hdirs _ prefix_rfl with hnode | hnode <;> rw [hnode] <;>
      exact ⟨_, rfl, fun q hq => some.inj hq ▸ prefix_append _ _⟩
  | cons next names ih =>
    rw [advance_name (hnames name mem_cons_self)]
    rcases hdirs _ prefix_rfl with hnode | hnode
    · rw [hnode]
      exact ⟨_, rfl, nofun⟩
    · rw [hnode]
      obtain ⟨result, hres, hbelow⟩ := ih (fun q hq => hdirs q ((prefix_append _ _).trans hq))
        fun n hn => hnames n (mem_cons_of_mem _ hn)
      exact ⟨result, hres, fun q hq => (prefix_append _ _).trans (hbelow q hq)⟩

/-! ## Safe paths -/

variable (t) (root) in
/-- From the directory `dir` each name leads to a place below `root`, until there is nothing. -/
def Settled : Path → List String → Prop
  | _, [] => True
  | dir, name :: rest =>
    t.node (dir ++ [name]) = none ∨
      ∃ links next, t.resolve true links dir [name] = .found next ∧ root <+: next ∧ Settled next rest

theorem Settled.of_append (h : t.Settled root dir (a ++ b)) : t.Settled root dir a := by
  induction a generalizing dir with
  | nil => trivial
  | cons name a ih =>
    rcases h with hnone | ⟨links, next, hnext, hpre, hrest⟩
    · exact .inl hnone
    · exact .inr ⟨links, next, hnext, hpre, ih hrest⟩

/-- **A safe path leads below `root`**, also when directories have been made there. -/
theorem Settled.within (h : t.Settled root dir names)
    (hgrown : t.Grown root t') (hroot : root <+: dir) (hdir : t'.node dir = some .dir)
    (hnames : ∀ name ∈ names, IsName name)
    (hres : (t'.resolve true links dir names).place = some q) : root <+: q := by
  induction names generalizing dir links with
  | nil =>
    have hself : t'.resolve true links dir [] = .found dir := resolve_of_done rfl
    rw [hself] at hres
    exact some.inj hres ▸ hroot
  | cons name names ih =>
    have hrest (n : String) (hn : n ∈ names) : IsName n := hnames n (mem_cons_of_mem _ hn)
    rcases h with hnone | ⟨m, next, hnext, hpre, hsettled⟩
    · -- Only new directories can have come here.
      obtain ⟨result, hadv, hbelow⟩ := advance_below
        (fun q hq => hgrown.below_none hnone hq) hnames true
      rw [resolve_of_done hadv] at hres
      exact hroot.trans (hbelow q hres)
    · -- The name still leads to where it led.
      have hagain := hgrown.extends.resolve_found hnext
      have hok : (t'.resolve true links dir (name :: names)).place ≠ none :=
        ne_none_iff_exists'.mpr ⟨q, hres⟩
      by_cases hne : names = []
      · subst hne
        rw [← resolve_unique hagain rfl (by simp) hok] at hres
        exact some.inj hres ▸ hpre
      · obtain ⟨d, n, hfirst, hd, hsecond⟩ := resolve_append (a := [name]) hdir hne rfl hok
        cases resolve_unique hagain hfirst (by simp) (by simp)
        exact ih hsettled hpre hd hrest (hsecond ▸ hres)

theorem Settled.rest {next : Path} (h : t.Settled root dir (a ++ b))
    (hroot : root <+: dir) (hdir : t.node dir = some .dir) (hnames : ∀ name ∈ a, IsName name)
    (hres : t.resolve true links dir a = .found next) : root <+: next ∧ t.Settled root next b := by
  induction a generalizing dir links with
  | nil =>
    have hself : t.resolve true links dir [] = .found dir := resolve_of_done rfl
    rw [hself] at hres
    cases hres
    exact ⟨hroot, h⟩
  | cons name a ih =>
    have hname := hnames name mem_cons_self
    rcases h with hnone | ⟨m, d, hd, hpre, hsettled⟩
    · rw [resolve_of_done (by rw [advance_name hname, hnone])] at hres
      split_ifs at hres
    · by_cases hne : a = []
      · subst hne
        have heq := resolve_unique hd hres (by simp) (by simp)
        cases heq
        exact ⟨hpre, hsettled⟩
      · obtain ⟨d', n, hfirst, hdir', hsecond⟩ := resolve_append hdir hne
          (show t.resolve true links dir ([name] ++ a) = .found next from hres) (by simp)
        have heq := resolve_unique hd hfirst (by simp) (by simp)
        cases heq
        exact ih hsettled hpre hdir' (fun n hn => hnames n (mem_cons_of_mem _ hn)) hsecond

/-! ## Guarded paths -/

variable (t) in
/-- A place that is no link, or nothing in a directory. -/
structure Firm (path : Path) : Prop where
  above : ∀ above, above <+: path → above ≠ path → t.node above = some .dir
  names : ∀ name ∈ path, IsName name
  link : ∀ absolute target, t.node path ≠ some (.link absolute target)

theorem names_of_node (h : t.node path ≠ none) : ∀ name ∈ path, IsName name := by
  induction path using reverseRecOn with
  | nil => simp
  | append_singleton path name ih =>
    intro n hn
    rcases mem_append.mp hn with hn | hn
    · exact ih (by rw [t.parent path name h]; exact some_ne_none _) n hn
    · rw [mem_singleton.mp hn]
      exact t.named path name h

theorem firm_of_resolve (h : t.resolve true links [] names = .found path) : t.Firm path := by
  obtain ⟨hsome, hlink⟩ := resolve_found t.root h
  exact ⟨fun above hpre hne => t.dir_above hsome hpre hne, names_of_node hsome, hlink⟩

theorem Firm.grown (h : t.Firm path) (hgrown : t.Grown root t') : t'.Firm path where
  above above hpre hne := hgrown.extends _ _ (h.above above hpre hne)
  names := h.names
  link absolute target hnode := by
    rcases hgrown path with hsame | ⟨-, hdir, -⟩
    · exact h.link absolute target (hsame.symm.trans hnode)
    · rw [hdir] at hnode
      cases hnode

theorem Firm.resolve (h : t.Firm path) (links : ℕ) :
    (t.node path ≠ none ∧ t.resolve true links [] path = .found path) ∨
      (t.node path = none ∧ t.resolve true links [] path = .missing path) := by
  cases hnode : t.node path with
  | some n =>
    refine .inl ⟨some_ne_none n, resolve_real hnode ?_⟩
    intro absolute target hlink
    exact h.link absolute target (hlink ▸ hnode)
  | none =>
    refine .inr ⟨rfl, ?_⟩
    induction path using reverseRecOn with
    | nil =>
      rw [t.root] at hnode
      cases hnode
    | append_singleton dir name _ =>
      have hdir := h.above dir (prefix_append _ _) (by simp)
      have hreal : t.advance true [] dir = .done (.found dir) :=
        advance_real (show t.node ([] ++ dir) = some .dir from hdir) (by simp)
      apply resolve_of_done
      rw [advance_append t.root (by simp), hreal]
      simp only [hdir, if_true]
      rw [advance_name (h.names name (by simp)), hnode]
      rfl

variable (t) (root) in
def Guarded (names : List String) (through : Bool) : Prop :=
  ∃ base rest, names = base ++ rest ∧ root <+: base ∧ t.Firm base ∧ (∀ name ∈ rest, IsName name) ∧
    t.Settled root base (if through then rest else rest.dropLast)

theorem Guarded.resolve_within (h : t.Guarded root names true) (hgrown : t.Grown root t')
    (hres : (t'.resolve true links [] names).place = some q) : root <+: q := by
  obtain ⟨base, rest, rfl, hroot, hfirm, hnames, hsettled⟩ := h
  have hbase := (hfirm.grown hgrown).resolve links
  by_cases hrest : rest = []
  · subst hrest
    rw [append_nil] at hres
    rcases hbase with ⟨-, hself⟩ | ⟨-, hself⟩ <;> rw [hself] at hres <;>
      exact some.inj hres ▸ hroot
  · have hok : (t'.resolve true links [] (base ++ rest)).place ≠ none :=
      ne_none_iff_exists'.mpr ⟨q, hres⟩
    obtain ⟨d, n, hfirst, hd, hsecond⟩ := resolve_append t'.root hrest rfl hok
    rcases hbase with ⟨-, hself⟩ | ⟨-, hself⟩
    · cases hself.symm.trans hfirst
      exact hsettled.within hgrown hroot hd hnames (hsecond ▸ hres)
    · cases hself.symm.trans hfirst

theorem lookup_ok {r : Lookup} (h : t.lookup follow p = r) (hok : r.place ≠ none) :
    t.resolve (follow || p.tail ≠ .plain) MAX_LINKS [] p.names = r := by
  subst h
  unfold lookup at hok ⊢
  split <;> rename_i hres <;> simp only [hres] at hok ⊢
  all_goals
    split_ifs at hok ⊢
    · exact absurd rfl hok
    · rfl

theorem lookup_found (h : t.lookup follow p = .found q) :
    t.resolve (follow || p.tail ≠ .plain) MAX_LINKS [] p.names = .found q :=
  lookup_ok h (by simp)

theorem target_place (h : t.target p = .found q ∨ t.target p = .missing q) :
    (t.resolve true MAX_LINKS [] p.names).place = some q := by
  have hplace : (t.target p).place = some q := by
    rcases h with h | h <;> rw [h] <;> rfl
  exact (congrArg Lookup.place (lookup_ok rfl (ne_none_iff_exists'.mpr ⟨q, hplace⟩))).trans hplace

theorem Guarded.target_within (h : t.Guarded root p.names true) (hgrown : t.Grown root t')
    (hres : t'.target p = .found q ∨ t'.target p = .missing q) : root <+: q :=
  h.resolve_within hgrown (target_place hres)

theorem entry_ok (h : t.entry p = .ok q) :
    ∃ init name dir, p.names = init ++ [name] ∧ q = dir ++ [name] ∧ IsName name ∧
      t.resolve true MAX_LINKS [] init = .found dir ∧ t.node dir = some .dir := by
  unfold entry at h
  split at h
  · cases h
  · rename_i name hlast
    split at h
    · cases h
    · cases h
    · rename_i dir hdir
      split_ifs at h with hisdir hname hdot
      refine ⟨p.names.dropLast, name, dir, ?_, (Except.ok.inj h).symm, hname, ?_,
        not_not.mp hisdir⟩
      · exact (dropLast_append_getLast? name hlast).symm
      · exact lookup_found hdir

theorem entry_eq {init : List String} (hnames : p.names = init ++ [name]) (hname : IsName name)
    (hdot : p.tail ≠ .dot) (hdir : t.resolve true MAX_LINKS [] init = .found dir)
    (hisdir : t.node dir = some .dir) : t.entry p = .ok (dir ++ [name]) := by
  have htarget : t.target ⟨init, .plain⟩ = .found dir := by
    unfold target lookup
    simp [hdir]
  unfold entry
  rw [hnames]
  simp [htarget, hisdir, hname, hdot]

theorem Guarded.entry_within (h : t.Guarded root p.names false) (hgrown : t.Grown root t')
    (hentry : t'.entry p = .ok q) : root <+: q := by
  obtain ⟨init, name, dir, hnames, rfl, -, hdir, -⟩ := entry_ok hentry
  obtain ⟨base, rest, hsplit, hroot, hfirm, hisname, hsettled⟩ := h
  rcases eq_nil_or_concat rest with rfl | ⟨rest', last, rfl⟩
  · -- The path is the firm place itself.
    rw [append_nil, hnames] at hsplit
    subst hsplit
    have habove := (hfirm.grown hgrown).above init (prefix_append _ _) (by simp)
    rw [resolve_real habove (by simp)] at hdir
    cases hdir
    exact hroot
  · rw [concat_eq_append, hnames, ← append_assoc] at hsplit
    obtain ⟨rfl, -⟩ := append_inj' hsplit rfl
    rw [concat_eq_append, dropLast_concat] at hsettled
    have hinit : t.Guarded root (base ++ rest') true :=
      ⟨base, rest', rfl, hroot, hfirm,
        fun n hn => hisname n (by simp [hn]), by rwa [if_pos rfl]⟩
    exact (hinit.resolve_within hgrown (congrArg Lookup.place hdir)).trans (prefix_append _ _)

theorem Guarded.weaken (h : t.Guarded root names true) :
    t.Guarded root names false := by
  obtain ⟨base, rest, hsplit, hroot, hfirm, hnames, hsettled⟩ := h
  refine ⟨base, rest, hsplit, hroot, hfirm, hnames, ?_⟩
  rcases eq_nil_or_concat rest with rfl | ⟨rest', last, rfl⟩
  · exact hsettled
  · rw [concat_eq_append, dropLast_concat]
    rw [concat_eq_append] at hsettled
    exact hsettled.of_append

theorem Guarded.isName {through : Bool} (h : t.Guarded root names through) :
    ∀ name ∈ names, IsName name := by
  obtain ⟨base, rest, rfl, -, hfirm, hrest, -⟩ := h
  intro name hname
  rcases mem_append.mp hname with hbase | hrest'
  · exact hfirm.names name hbase
  · exact hrest name hrest'

theorem resolve_last (hname : IsName name)
    (h : t.resolve false links dir [name] = .found q) : q = dir ++ [name] := by
  have hadv : ∃ result, t.advance false dir [name] = .done result ∧
      ∀ q, result = .found q → q = dir ++ [name] := by
    rw [advance_name hname]
    rcases t.node (dir ++ [name]) with _ | _ | bytes | ⟨absolute, target⟩ <;>
      exact ⟨_, rfl, by simp⟩
  obtain ⟨result, hdone, hresult⟩ := hadv
  rw [resolve_of_done hdone] at h
  exact hresult q h

/-- A directory that a guarded path names, with a link at its end followed only if the path ends in
a slash or a dot. -/
theorem Guarded.dir_within (h : t.Guarded root p.names (decide (p.tail ≠ .plain)))
    (hfound : t.lookup false p = .found q) : root <+: q := by
  have hres := lookup_found hfound
  by_cases htail : p.tail ≠ .plain
  · rw [decide_eq_true htail] at h hres
    exact h.resolve_within (Grown.refl root t) (congrArg Lookup.place hres)
  · rw [decide_eq_false htail] at h hres
    rcases eq_nil_or_concat p.names with hnil | ⟨init, name, hconcat⟩
    · obtain ⟨base, rest, hsplit, hroot, -⟩ := h
      obtain ⟨rfl, rfl⟩ := append_eq_nil_iff.mp (hsplit.symm.trans hnil)
      rw [prefix_nil.mp hroot]
      exact nil_prefix
    · rw [concat_eq_append] at hconcat
      have hname := h.isName name (by simp [hconcat])
      rw [hconcat] at hres
      obtain ⟨dir, n, hinit, hdir, hlast⟩ := resolve_append t.root (by simp) hres (by simp)
      have hentry : t.entry ⟨p.names, .plain⟩ = .ok (dir ++ [name]) :=
        entry_eq hconcat hname (by simp) hinit hdir
      rw [resolve_last hname hlast]
      exact Guarded.entry_within (p := ⟨p.names, .plain⟩) h (Grown.refl root t) hentry

/-- An ancestor of a guarded path: its entry lies below `root` or is a directory that is there. -/
theorem Guarded.above_within (h : t.Guarded root names false)
    (hpre : p.names <+: names) (hgrown : t.Grown root t') (hentry : t'.entry p = .ok q) :
    root <+: q ∨ t'.node q ≠ none := by
  obtain ⟨base, rest, rfl, hroot, hfirm, hnames, hsettled⟩ := h
  rcases prefix_or_prefix_of_prefix hpre (prefix_append base rest) with hshort | hlong
  · -- Above the firm place.
    by_cases hne : p.names = base
    · refine .inl (Guarded.entry_within (t := t) ⟨base, [], by simp [hne], hroot, hfirm, by simp, ?_⟩
        hgrown hentry)
      trivial
    · obtain ⟨init, name, dir, hsplit, rfl, -, hdir, -⟩ := entry_ok hentry
      rw [hsplit] at hshort hne
      have hfirm' := hfirm.grown hgrown
      have habove := hfirm'.above init ((prefix_append _ _).trans hshort) (by
        intro heq
        have hlen := hshort.length_le
        rw [← heq, length_append, length_singleton] at hlen
        omega)
      rw [resolve_real habove (by simp)] at hdir
      cases hdir
      refine .inr ?_
      rw [hfirm'.above _ hshort hne]
      exact some_ne_none _
  · obtain ⟨rest', hrest'⟩ := hlong
    obtain ⟨more, hmore⟩ := hpre
    rw [← hrest', append_assoc, append_cancel_left_eq] at hmore
    subst hmore
    refine .inl (Guarded.entry_within (t := t) ⟨base, rest', hrest'.symm, hroot, hfirm,
      fun n hn => hnames n (by simp [hn]), ?_⟩ hgrown hentry)
    rcases eq_nil_or_concat more with rfl | ⟨more', last, rfl⟩
    · rwa [append_nil] at hsettled
    · rw [concat_eq_append, ← append_assoc, dropLast_concat] at hsettled
      have hprefix := hsettled.of_append
      rcases eq_nil_or_concat rest' with rfl | ⟨rest'', last', rfl⟩
      · trivial
      · rw [concat_eq_append, dropLast_concat]
        rw [concat_eq_append] at hprefix
        exact hprefix.of_append

end Tree

/-! ## Calls below a directory -/

variable (root : Path) (start : Tree)

/-- Only places below `root` have been touched since `start`, and `root` is no link. -/
structure Inside (s : State) : Prop where
  touched : ∀ touched ∈ s.touched, root <+: touched.path
  outside : ∀ q, ¬ root <+: q → s.tree.node q = start.node q
  solid : ∀ absolute target, s.tree.node root ≠ some (.link absolute target)

/-- What the path leads to, or would create, lies below `root`. -/
def TargetWithin (p : Place) (t : Tree) : Prop :=
  ∀ q, t.target p = .found q ∨ t.target p = .missing q → root <+: q

def EntryWithin (p : Place) (t : Tree) : Prop := ∀ q, t.entry p = .ok q → root <+: q

variable {root start}

variable {s : State} {t : Tree}

variable (hs : Inside root start s)
include hs

theorem Inside.touch {touches : List Touch} (htouches : ∀ touched ∈ touches, root <+: touched.path)
    (houtside : ∀ q, ¬ root <+: q → t.node q = s.tree.node q)
    (hsolid : ∀ absolute target, t.node root ≠ some (.link absolute target)) :
    Inside root start ⟨t, s.touched ++ touches⟩ where
  touched touched hmem := by
    rcases mem_append.mp hmem with hold | hnew
    · exact hs.touched touched hold
    · exact htouches touched hnew
  outside q hq := (houtside q hq).trans (hs.outside q hq)
  solid := hsolid

variable {path : Path} {p : Place}

theorem Inside.put (hpath : root <+: path) {n : Node}
    (hn : ∀ absolute target, n ≠ .link absolute target) :
    Inside root start ⟨s.tree.put path n, s.touched ++ [.one path]⟩ := by
  refine hs.touch (forall_mem_singleton.mpr hpath) ?_ ?_
  · intro q hq
    rcases s.tree.node_put path n q with hsame | ⟨heq, -⟩
    · exact hsame
    · exact absurd (heq ▸ hpath) hq
  · intro absolute target hlink
    rcases s.tree.node_put path n root with hsame | ⟨-, hnode⟩
    · exact hs.solid absolute target (hsame.symm.trans hlink)
    · exact hn absolute target (some.inj (hnode.symm.trans hlink))

theorem Inside.remove (hpath : root <+: path)
    (hnode : ∀ q, t.node q = s.tree.node q ∨ (path <+: q ∧ t.node q = none)) :
    Inside root start ⟨t, s.touched ++ [.all path]⟩ := by
  refine hs.touch (forall_mem_singleton.mpr hpath) ?_ ?_
  · intro q hq
    rcases hnode q with hsame | ⟨hpre, -⟩
    · exact hsame
    · exact absurd (hpath.trans hpre) hq
  · intro absolute target hlink
    rcases hnode root with hsame | ⟨-, hnone⟩
    · exact hs.solid absolute target (hsame.symm.trans hlink)
    · rw [hnone] at hlink
      cases hlink

/-- The subtree that is moved to `root`, if one is, does not begin with a link. -/
theorem Inside.move {a b : Path} (ha : root <+: a) (hb : root <+: b)
    (hlink : b = root → ∀ absolute target, s.tree.node a ≠ some (.link absolute target)) :
    Inside root start ⟨s.tree.move a b, s.touched ++ [.all a, .all b]⟩ := by
  refine hs.touch (forall_mem_cons.mpr ⟨ha, forall_mem_singleton.mpr hb⟩) ?_ ?_
  · intro q hq
    rcases s.tree.node_move a b q with hsame | ⟨hpre, -⟩ | ⟨hpre, -⟩
    · exact hsame
    · exact absurd (ha.trans hpre) hq
    · exact absurd (hb.trans hpre) hq
  · intro absolute target hnode
    rcases s.tree.node_move a b root with hsame | ⟨-, hnone⟩ | ⟨hpre, hmoved⟩
    · exact hs.solid absolute target (hsame.symm.trans hnode)
    · rw [hnone] at hnode
      cases hnode
    · obtain rfl : b = root := hpre.eq_of_length_le hb.length_le
      rw [hmoved, drop_length, append_nil] at hnode
      exact hlink rfl absolute target hnode

omit hs

/-! ### Making directories -/

section Make

variable {t₀ : Tree} {names : List String}

/-- The invariant while directories are made. -/
def Making (root : Path) (start t₀ : Tree) (s : State) : Prop :=
  Inside root start s ∧ t₀.Grown root s.tree

variable {p : Place}

theorem create_dir_making (hguard : t₀.Guarded root names false) (hp : p.names <+: names) :
    Keeps (Making root start t₀) Anyhow (create_dir p) := by
  rintro s ⟨hs, hgrown⟩ -
  refine ⟨?_, trivial, fun _ _ => trivial⟩
  cases hentry : s.tree.entry p with
  | error error =>
    have hof : entry_of p s = (.error error, s) := by rw [entry_of, hentry]
    unfold create_dir
    rw [bind_of_error hof]
    exact ⟨hs, hgrown⟩
  | ok path =>
    have hof : entry_of p s = (.ok path, s) := by rw [entry_of, hentry]
    unfold create_dir node_at
    rw [bind_of_ok hof, bind_ask]
    cases hnode : s.tree.node path with
    | some n => exact ⟨hs, hgrown⟩
    | none =>
      have hpath : root <+: path := by
        rcases hguard.above_within hp hgrown hentry with hpre | hsome
        · exact hpre
        · exact absurd hnode hsome
      refine ⟨hs.put hpath (by simp), hgrown.trans fun q => ?_⟩
      rcases s.tree.node_put path .dir q with hsame | ⟨rfl, hdir⟩
      · exact .inl hsame
      · exact .inr ⟨hnode, hdir, hpath⟩

theorem or_directory_making (p : Place) (error : IoError) :
    Keeps (Making root start t₀) Anyhow (or_directory p error) := by
  refine Keeps.bind (keeps_of_same fun _ => rfl) fun is_dir => ?_
  cases is_dir with
  | true | false => exact keeps_of_same fun _ => rfl

theorem create_ancestors_making (hguard : t₀.Guarded root names false) {ps : List Place}
    (hps : ∀ p ∈ ps, p.names <+: names) :
    Keeps (Making root start t₀) Anyhow (create_ancestors ps) := by
  induction ps with
  | nil => exact keeps_of_same fun _ => rfl
  | cons p above ih =>
    have hdir : Keeps (Making root start t₀) Anyhow
        (attempt (create_dir p) : HostCall (Except IoError Unit)) :=
      Keeps.attempt (create_dir_making hguard (hps p mem_cons_self))
    have habove := ih fun p' hp' => hps p' (mem_cons_of_mem _ hp')
    refine Keeps.bind hdir fun result => ?_
    rcases result with error | u
    · by_cases herror : error = .NotFound
      · subst herror
        refine Keeps.bind habove fun _ => Keeps.bind hdir fun result => ?_
        rcases result with error | u
        · exact or_directory_making p error
        · exact keeps_of_same fun _ => rfl
      · show Keeps _ _ (if error = .NotFound then _ else _)
        rw [if_neg herror]
        exact or_directory_making p error
    · exact keeps_of_same fun _ => rfl

theorem names_of_ancestor {p' : Place} (h : p' ∈ ancestors p) : p'.names <+: p.names := by
  unfold ancestors at h
  split_ifs at h
  · cases h
  · rcases mem_cons.mp h with rfl | habove
    · exact prefix_rfl
    · obtain ⟨names, hnames, rfl⟩ := mem_map.mp habove
      have hinit := (mem_filter.mp hnames).1
      rw [mem_reverse, mem_inits] at hinit
      exact hinit.trans (List.dropLast_prefix _)

/-- **Directories are made below `root`.** -/
theorem create_dir_all_making (hguard : t₀.Guarded root names false) (hp : p.names <+: names) :
    Keeps (Making root start t₀) Anyhow (create_dir_all p) :=
  create_ancestors_making hguard fun _ hp' => (names_of_ancestor hp').trans hp

theorem inside_of_making {α : Type} {x : HostCall α} (h : Keeps (Making root start t₀) Anyhow x) :
    Triple (Inside root start) Anyhow (fun s => t₀.Grown root s.tree) x
      fun _ s => t₀.Grown root s.tree := by
  intro s hs hgrown
  obtain ⟨⟨hs', hgrown'⟩, -⟩ := h s ⟨hs, hgrown⟩ trivial
  exact ⟨hs', trivial, fun _ _ => hgrown'⟩

end Make

/-! ### Files -/

theorem read_inside (p : Place) (F : Tree → Prop) :
    Triple (Inside root start) Anyhow (fun s => TargetWithin root p s.tree ∧ F s.tree) (read p)
      fun _ s => F s.tree := by
  refine Triple.bind (triple_ask _) fun found => ?_
  cases found with
  | failed error => exact triple_fail error
  | missing path => exact triple_fail _
  | found path =>
    refine Triple.bind (triple_ask _) fun n => ?_
    rcases n with _ | _ | bytes | ⟨absolute, target⟩
    · exact triple_fail _
    · exact triple_fail _
    · rintro s hs ⟨⟨⟨hwithin, hF⟩, hfound⟩, -⟩
      have hpath := hwithin path (.inl hfound.symm)
      exact ⟨hs.touch (forall_mem_singleton.mpr hpath) (fun _ _ => rfl) hs.solid, trivial,
        fun _ _ => hF⟩
    · exact triple_fail _

namespace Tree

/-- Only the file at `path` has changed, or is new. -/
structure Stored (path : Path) (t t' : Tree) : Prop where
  old : t.node path = none ∨ ∃ bytes, t.node path = some (.file bytes)
  new : ∀ q, t'.node q = t.node q ∨ (q = path ∧ ∃ bytes, t'.node q = some (.file bytes))

variable {t t' : Tree} {path : Path} {names : List String}

variable {cur q : Path}

variable (h : t.Stored path t')
include h

theorem Stored.kept {n : Node} (hq : t.node q = some n)
    (hn : ∀ bytes, n ≠ .file bytes) : t'.node q = some n := by
  rcases h.new q with hsame | ⟨rfl, -⟩
  · rw [hsame, hq]
  · rcases h.old with hnone | ⟨bytes, hfile⟩
    · rw [hnone] at hq
      cases hq
    · rw [hfile] at hq
      exact absurd (some.inj hq).symm (hn bytes)

theorem Stored.advance_link {absolute : Bool} {dir : Path} {target rest : List String}
    (hadv : t.advance true cur names = .link dir absolute target rest) :
    t'.advance true cur names = .link dir absolute target rest := by
  induction names generalizing cur with
  | nil => exact hadv
  | cons name names ih =>
    rcases name_cases name with hskip | rfl | hname
    · rw [advance_skip hskip] at hadv ⊢
      exact ih hadv
    · rw [advance_up] at hadv ⊢
      exact ih hadv
    · rw [advance_name hname] at hadv ⊢
      rcases hnode : t.node (cur ++ [name]) with _ | _ | bytes | ⟨absolute', target'⟩
      · simp [hnode] at hadv
      · rw [h.kept hnode nofun]
        simp only [hnode] at hadv
        exact ih hadv
      · simp [hnode] at hadv
      · rw [h.kept hnode nofun]
        simpa [hnode] using hadv

theorem Stored.advance_done {result : Lookup}
    (hadv : t.advance true cur names = .done result) (hresult : result.place = some path) :
    ∃ r, r.place = some path ∧ t'.advance true cur names = .done r := by
  induction names generalizing cur with
  | nil => exact ⟨result, hresult, hadv⟩
  | cons name names ih =>
    rcases name_cases name with hskip | rfl | hname
    · rw [advance_skip hskip] at hadv ⊢
      exact ih hadv
    · rw [advance_up] at hadv ⊢
      exact ih hadv
    · -- A walk that ends here ends here, though there may be a file by now.
      have hstop (hold : t.node (cur ++ [name]) = none ∨
          ∃ bytes, t.node (cur ++ [name]) = some (.file bytes)) :
          ∃ r, r.place = some path ∧ t'.advance true cur (name :: names) = .done r := by
        obtain ⟨r, hr, hplace⟩ := advance_stop true names hname hold
        cases hadv.symm.trans hr
        have hnew : t'.node (cur ++ [name]) = none ∨
            ∃ bytes, t'.node (cur ++ [name]) = some (.file bytes) := by
          rcases h.new (cur ++ [name]) with hsame | ⟨-, hfile⟩
          · rwa [hsame]
          · exact .inr hfile
        obtain ⟨r', hr', hplace'⟩ := advance_stop true names hname hnew
        exact ⟨r', hplace'.trans (hplace.symm.trans hresult), hr'⟩
      rcases hnode : t.node (cur ++ [name]) with _ | _ | bytes | ⟨absolute, target⟩
      · exact hstop (.inl hnode)
      · rw [advance_name hname] at hadv ⊢
        rw [h.kept hnode nofun]
        simp only [hnode] at hadv
        exact ih hadv
      · exact hstop (.inr ⟨bytes, hnode⟩)
      · simp [advance_name hname, hnode] at hadv

theorem Stored.resolve {links : ℕ} (hres : (t.resolve true links cur names).place = some path) :
    (t'.resolve true links cur names).place = some path :=
  resolve_transfer (·.place = some path) (ne_none_iff_exists'.mpr ⟨path, hres⟩)
    (fun _ _ hdone => h.advance_done hdone hres) (fun _ _ _ _ _ _ hlink => h.advance_link hlink) rfl

theorem Stored.target {p : Place} (htarget : t.target p = .found path ∨ t.target p = .missing path)
    (hq : t'.target p = .found q ∨ t'.target p = .missing q) : q = path :=
  some.inj ((target_place hq).symm.trans (h.resolve (target_place htarget)))

omit h

theorem stored_put (hold : t.node path = none ∨ ∃ bytes, t.node path = some (.file bytes))
    (bytes : Bytes) : t.Stored path (t.put path (.file bytes)) := by
  refine ⟨hold, fun q => ?_⟩
  rcases t.node_put path (.file bytes) q with hsame | ⟨heq, hfile⟩
  · exact .inl hsame
  · exact .inr ⟨heq, bytes, hfile⟩

end Tree

theorem store_inside (p : Place) (change : Bytes → Bytes) :
    Triple (Inside root start) Anyhow (fun s => TargetWithin root p s.tree) (store p change)
      fun _ s => TargetWithin root p s.tree := by
  have hput {path : Path} {s : State} (hs : Inside root start s)
      (hwithin : TargetWithin root p s.tree)
      (htarget : s.tree.target p = .found path ∨ s.tree.target p = .missing path)
      (hold : s.tree.node path = none ∨ ∃ bytes, s.tree.node path = some (.file bytes))
      (bytes : Bytes) :
      Inside root start ⟨s.tree.put path (.file bytes), s.touched ++ [.one path]⟩ ∧
        TargetWithin root p (s.tree.put path (.file bytes)) := by
    refine ⟨hs.put (hwithin path htarget) (by simp), fun q hq => ?_⟩
    rw [(Tree.stored_put hold bytes).target htarget hq]
    exact hwithin path htarget
  refine Triple.bind (triple_ask _) fun found => ?_
  cases found with
  | failed error => exact triple_fail error
  | missing path =>
    rintro s hs ⟨hwithin, hmissing⟩
    have hnone := Tree.resolve_missing s.tree.root (Tree.lookup_ok hmissing.symm (by simp))
    obtain ⟨hinside, hafter⟩ := hput hs hwithin (.inr hmissing.symm) (.inl hnone) (change [])
    exact ⟨hinside, trivial, fun _ _ => hafter⟩
  | found path =>
    refine Triple.bind (triple_ask _) fun n => ?_
    rcases n with _ | _ | bytes | ⟨absolute, target⟩
    · exact triple_fail _
    · exact triple_fail _
    · rintro s hs ⟨⟨hwithin, hfound⟩, hnode⟩
      obtain ⟨hinside, hafter⟩ := hput hs hwithin (.inl hfound.symm) (.inr ⟨bytes, hnode.symm⟩)
        (change bytes)
      exact ⟨hinside, trivial, fun _ _ => hafter⟩
    · exact triple_fail _

/-- Copying a file. The source is read before the target is opened. -/
theorem copy_inside (src dst : Place) :
    Triple (Inside root start) Anyhow
      (fun s => TargetWithin root src s.tree ∧ TargetWithin root dst s.tree) (copy src dst)
      fun _ s => TargetWithin root dst s.tree := by
  refine Triple.bind (read_inside src (TargetWithin root dst)) fun content => ?_
  refine Triple.bind (triple_ask _) fun same => ?_
  refine Triple.bind ((store_inside dst _).weaken (fun _ h => h.1) fun _ _ h => h) fun _ => ?_
  exact triple_pure _ fun _ h => h

/-! ### Entries -/

theorem entry_of_inside (p : Place) (F : Tree → Prop) :
    Triple (Inside root start) Anyhow (fun s => EntryWithin root p s.tree ∧ F s.tree) (entry_of p)
      fun path s => root <+: path ∧ F s.tree := by
  refine triple_of_same (fun _ => rfl) fun s path hp hpath => ⟨hp.1 path hpath, hp.2⟩

theorem triple_entry {α β : Type} {ask : Path → State → β} {x : Path → β → HostCall α}
    (hx : ∀ path n, Triple (Inside root start) Anyhow (fun _ => root <+: path) (x path n)
      fun _ _ => True) :
    Triple (Inside root start) Anyhow (fun s => EntryWithin root p s.tree)
      (do
        let path ← entry_of p
        let n ← Action.ask (ask path)
        x path n) fun _ _ => True :=
  Triple.bind ((entry_of_inside p fun _ => True).weaken (fun _ h => ⟨h, trivial⟩) fun _ _ h => h.1)
    fun path => Triple.bind ((triple_ask _).weaken (fun _ h => h) fun _ _ h => h.1) (hx path)

theorem remove_file_inside (p : Place) :
    Triple (Inside root start) Anyhow (fun s => EntryWithin root p s.tree) (remove_file p)
      fun _ _ => True := by
  have hcut (path : Path) : Triple (Inside root start) Anyhow (fun _ => root <+: path)
      (if p.tail ≠ .plain then fail .NotADirectory else touch [.all path] (·.cut path))
      fun _ _ => True := by
    split_ifs
    · exact triple_fail _
    · exact fun s hs hpath => ⟨hs.remove hpath (s.tree.node_cut path), trivial, fun _ _ => trivial⟩
  refine triple_entry fun path n => ?_
  rcases n with _ | _ | bytes | ⟨absolute, target⟩
  · exact triple_fail _
  · exact triple_fail _
  · exact hcut path
  · exact hcut path

theorem remove_dir_inside (p : Place) :
    Triple (Inside root start) Anyhow (fun s => EntryWithin root p s.tree) (remove_dir p)
      fun _ _ => True := by
  refine triple_entry fun path n => ?_
  rcases n with _ | _ | bytes | ⟨absolute, target⟩
  · exact triple_fail _
  · refine Triple.bind ((triple_ask _).weaken (fun _ h => h) fun _ _ h => h.1) fun occupied => ?_
    cases occupied with
    | true => exact triple_fail _
    | false => exact fun s hs hpath => ⟨hs.remove hpath (s.tree.node_cut path), trivial, fun _ _ => trivial⟩
  · exact triple_fail _
  · exact triple_fail _

theorem Tree.tail_of_entry {q : Path} (h : t.entry p = .ok q) : p.tail ≠ .dot := by
  intro hdot
  unfold Tree.entry at h
  split at h
  · cases h
  · split at h
    · cases h
    · cases h
    · split_ifs at h

theorem EntryWithin.of_extends {t' : Tree} (h : t'.Extends t)
    (hwithin : EntryWithin root p t) : EntryWithin root p t' := by
  intro q hq
  have htail : p.tail ≠ .dot := Tree.tail_of_entry hq
  obtain ⟨init, name, dir, hnames, rfl, hname, hdir, hisdir⟩ := Tree.entry_ok hq
  exact hwithin _ (Tree.entry_eq hnames hname htail (h.resolve_found hdir) (h _ _ hisdir))

theorem Tree.clear_extends (t : Tree) (path : Path) : (t.clear path).Extends t := by
  intro q n hq
  rcases t.node_clear path q with hsame | ⟨-, hnone⟩
  · exact hsame ▸ hq
  · rw [hnone] at hq
    cases hq

theorem remove_dir_all_inside (p : Place) :
    Triple (Inside root start) Anyhow (fun s => EntryWithin root p s.tree ∧
        ∀ q, s.tree.lookup false p = .found q → s.tree.node q = some .dir → root <+: q)
      (remove_dir_all p) fun _ _ => True := by
  refine Triple.bind (triple_ask _) fun found => ?_
  cases found with
  | failed error => exact triple_fail error
  | missing path => exact triple_fail _
  | found path =>
    refine Triple.bind (triple_ask _) fun n => ?_
    rcases n with _ | _ | bytes | ⟨absolute, target⟩
    · exact triple_fail _
    · -- The directory is emptied and then removed by its entry.
      refine Triple.bind (Q := fun _ s => EntryWithin root p s.tree) ?_
        fun _ => remove_dir_inside p
      rintro s hs ⟨⟨⟨hentry, hdir⟩, hfound⟩, hnode⟩
      have hpath := hdir path hfound.symm hnode.symm
      exact ⟨hs.remove hpath (s.tree.node_clear path), trivial,
        fun _ _ => hentry.of_extends (s.tree.clear_extends path)⟩
    · exact triple_fail _
    · exact (remove_file_inside p).weaken (fun _ h => h.1.1.1) fun _ _ h => h

theorem rename_inside (a b : Place) :
    Triple (Inside root start) Anyhow
      (fun s => EntryWithin root a s.tree ∧ EntryWithin root b s.tree) (rename a b)
      fun _ _ => True := by
  have hmove (src dst : Path) : Triple (Inside root start) Anyhow
      (fun s => root <+: src ∧ root <+: dst ∧
        (dst = root → ∀ absolute target, s.tree.node src ≠ some (.link absolute target)))
      (touch [.all src, .all dst] (·.move src dst)) fun _ _ => True := by
    rintro s hs ⟨hsrc, hdst, hlink⟩
    exact ⟨hs.move hsrc hdst hlink, trivial, fun _ _ => trivial⟩
  refine Triple.bind (entry_of_inside a (EntryWithin root b)) fun src => ?_
  refine Triple.bind ((entry_of_inside b fun _ => root <+: src).weaken
    (fun _ h => ⟨h.2, h.1⟩) fun _ _ h => h) fun dst => ?_
  refine Triple.bind (triple_ask _) fun replaced => Triple.bind (triple_ask _) fun n => ?_
  -- What is no directory does not replace one, so it does not replace a directory it lies in.
  have hother (n : Node) : Triple (Inside root start) Anyhow
      (fun s => (((root <+: dst ∧ root <+: src) ∧ replaced = s.tree.node dst) ∧
        some n = s.tree.node src))
      (if a.tail ≠ .plain ∨ b.tail ≠ .plain then fail .NotADirectory
        else if src = dst then return ()
        else if replaced = some .dir then fail .IsADirectory
        else touch [.all src, .all dst] (·.move src dst)) fun _ _ => True := by
    split_ifs with htail hsame hdir
    · exact triple_fail _
    · exact triple_pure _ fun _ _ => trivial
    · exact triple_fail _
    · refine (hmove src dst).weaken ?_ fun _ _ h => h
      rintro s ⟨⟨⟨hdst, hsrc⟩, hreplaced⟩, hn⟩
      refine ⟨hsrc, hdst, ?_⟩
      rintro rfl
      have habove := s.tree.dir_above (hn ▸ some_ne_none n) hsrc (Ne.symm hsame)
      exact absurd (hreplaced.trans habove) hdir
  rcases n with _ | _ | bytes | ⟨absolute, target⟩
  · exact triple_fail _
  · have hdir (s : State) (h : ((root <+: dst ∧ root <+: src) ∧ replaced = s.tree.node dst) ∧
        some Node.dir = s.tree.node src) :
        root <+: src ∧ root <+: dst ∧
          (dst = root → ∀ absolute target, s.tree.node src ≠ some (.link absolute target)) := by
      refine ⟨h.1.1.2, h.1.1.1, fun _ absolute target hlink => ?_⟩
      rw [← h.2] at hlink
      cases hlink
    dsimp only
    split_ifs with hsame hpre
    · exact triple_pure _ fun _ _ => trivial
    · exact triple_fail _
    · rcases replaced with _ | _ | bytes | ⟨absolute, target⟩
      · exact (hmove src dst).weaken hdir fun _ _ h => h
      · refine Triple.bind (triple_ask _) fun occupied => ?_
        cases occupied with
        | true => exact triple_fail _
        | false => exact (hmove src dst).weaken (fun s h => hdir s h.1) fun _ _ h => h
      · exact triple_fail _
      · exact triple_fail _
  · exact hother (.file bytes)
  · exact hother (.link absolute target)

end NexusVfs.LinkTree
