/-
Paths through a mount and keys of a zone.

A normalised path at or under a base is the base and a remainder (`join`).
`zone_relative_path` and `project_zone_key` carry the remainder from one base to the
other.
-/
import NexusVfs.LockHierarchy
import NexusVfs.ZoneMetaCache

namespace NexusVfs.ZoneMetaCache

open List Text IoLocks
open LockState (Absolute)

/-- At or under a base, cut at a `/`. -/
def Within (base path : String) : Prop := base = path ∨ Above base path

def join (base rest : String) : String :=
  if rest = "" then base else if base = "/" then "/" ++ rest else base ++ "/" ++ rest

def Clean (rest : String) : Prop := rest.toList.head? ≠ some '/'

/-- `canonicalize_mount_path`, the key under which the router knows a mount. -/
def canonicalize_mount_path (path zone_id : String) : String :=
  let stripped := trim_start_matches path '/'
  if stripped = "" then "/" ++ zone_id else "/" ++ zone_id ++ "/" ++ stripped

/-- The content address `route_in_zone` computes when it has found the mount. -/
def route_backend_path (mount : ZoneMount) (zone_id path : String) : String :=
  zone_relative_path (canonicalize_mount_path path zone_id)
    { mount with mount_point := canonicalize_mount_path mount.mount_point zone_id }

variable {base path rest zone_id : String} {mount : ZoneMount}

/-! ## Bases and remainders -/

theorem trim_clean (h : Clean rest) : trim_start_matches rest '/' = rest := by
  unfold Clean at h
  unfold trim_start_matches
  rw [← String.toList_inj, String.toList_ofList]
  cases hrest : rest.toList with
  | nil => rfl
  | cons c cs =>
    rw [hrest] at h
    rw [dropWhile_cons_of_neg (by simpa using h)]

theorem trim_slash_append (rest : String) :
    trim_start_matches ("/" ++ rest) '/' = trim_start_matches rest '/' := by
  simp [trim_start_matches]

theorem exists_join (hbase : Absolute base) (hpath : Absolute path) (h : Within base path) :
    ∃ rest, Clean rest ∧ path = join base rest := by
  rcases h with rfl | ⟨hne, t, ht⟩
  · exact ⟨"", by simp [Clean], by simp [join]⟩
  refine ⟨String.ofList t, ?_, ?_⟩
  · -- Two slashes in a row do not occur in the path.
    intro hhead
    obtain ⟨t, rfl⟩ : ∃ u, t = '/' :: u := by simpa [head?_eq_some_iff] using hhead
    refine hpath.normal.single ?_
    rw [← ht, toList_subtree hbase.normal]
    split_ifs
    · exact ⟨[], t, by simp⟩
    · exact ⟨base.toList, t, by simp⟩
  · have hsome : t ≠ [] := by
      rintro rfl
      rw [toList_subtree hbase.normal] at ht
      split_ifs at ht with hroot
      · exact hne (String.toList_inj.mp (by rw [hroot, ← ht]; rfl))
      · refine hpath.normal.ending ?_ (by simp [← ht])
        have hpos := length_pos_of_ne_nil hbase.normal.nonempty
        simp only [← ht, length_append, length_singleton]
        omega
    have hrest : String.ofList t ≠ "" := by simpa using hsome
    rw [join, ← String.toList_inj, ← ht, toList_subtree hbase.normal]
    split_ifs <;> simp

theorem within_join (hbase : Absolute base) (rest : String) : Within base (join base rest) := by
  unfold join
  by_cases hrest : rest = ""
  · exact .inl (if_pos hrest).symm
  refine .inr ⟨?_, ?_⟩
  · intro heq
    have hlen := congrArg (fun s : String => s.toList.length) heq
    have hpos : 0 < rest.toList.length := length_pos_of_ne_nil (by simpa using hrest)
    split_ifs at hlen with hroot
    · simp only [hroot, String.toList_append, length_append] at hlen
      omega
    · simp at hlen
  · rw [toList_subtree hbase.normal]
    split_ifs <;> exact ⟨rest.toList, by simp⟩

theorem within_comparable {a b : String} (ha : Absolute a) (hb : Absolute b) (h : Within a path)
    (h' : Within b path) : Within a b ∨ Within b a := by
  -- The shorter of two bases is cut at a slash of the longer one.
  have hshorter {a b : String} (ha : Absolute a) (hb : Absolute b)
      (hle : (subtree a).toList <+: (subtree b).toList) : Within a b := by
    by_cases heq : a = b
    · exact .inl heq
    refine .inr ⟨heq, ?_⟩
    rw [toList_subtree hb.normal] at hle
    split_ifs at hle with hroot
    · rwa [hroot]
    · refine (prefix_concat_iff.mp hle).resolve_left fun hsame => ?_
      rw [toList_subtree ha.normal] at hsame
      split_ifs at hsame
      · exact hb.normal.nonempty (append_left_eq_self.mp hsame.symm)
      · exact heq (String.toList_inj.mp (append_cancel_right hsame))
  rcases h with rfl | habove
  · exact .inr h'
  rcases h' with rfl | habove'
  · exact .inl (.inr habove)
  exact ( prefix_or_prefix_of_prefix habove.2 habove'.2).imp (hshorter ha hb) (hshorter hb ha)

/-! ## The translation carries the remainder -/

theorem get_from_append (xs ys : List Char) :
    get_from (String.ofList xs).utf8ByteSize (xs ++ ys) = some ys := by
  induction xs with
  | nil => simp [get_from]
  | cons c xs ih =>
    have hpos := c.utf8Size_pos
    have hsize : (String.ofList (c :: xs)).utf8ByteSize
        = (c.utf8Size + (String.ofList xs).utf8ByteSize - 1) + 1 := by
      rw [String.ofList_cons, String.utf8ByteSize_append, String.utf8ByteSize_singleton]
      omega
    rw [hsize, cons_append, get_from, if_pos (by omega), ← ih]
    congr 1
    omega

theorem under_mount_append (hbase : base ≠ "/") (hrest : Clean rest) :
    under_mount (base ++ "/" ++ rest) base = rest := by
  have hne : base ++ "/" ++ rest ≠ base := by
    intro heq
    have hlen := congrArg (fun s : String => s.toList.length) heq
    simp at hlen
  have hfrom : get_from base.utf8ByteSize (base ++ "/" ++ rest).toList = some ("/" ++ rest).toList := by
    have h := get_from_append base.toList ("/" ++ rest).toList
    rw [← h]
    simp
  rw [under_mount, if_neg hne, if_neg hbase, hfrom, Option.map_some, Option.getD_some,
    String.ofList_toList, trim_slash_append, trim_clean hrest]

theorem under_mount_join (hrest : Clean rest) : under_mount (join base rest) base = rest := by
  unfold join
  split_ifs with hempty hroot
  · simp [under_mount, hempty]
  · subst hroot
    have hne : "/" ++ rest ≠ "/" := by simpa using hempty
    rw [under_mount, if_neg hne, if_pos rfl, trim_slash_append, trim_clean hrest]
  · exact under_mount_append hroot hrest

theorem Absolute.tail (h : Absolute base) :
    base = "/" ++ trim_start_matches base '/' ∧
      (trim_start_matches base '/' = "" ↔ base = "/") := by
  obtain ⟨t, ht⟩ : ∃ t, base.toList = '/' :: t := head?_eq_some_iff.mp h.rooted
  have hclean : Clean (String.ofList t) := by
    intro hhead
    obtain ⟨u, rfl⟩ : ∃ u, t = '/' :: u := by simpa [head?_eq_some_iff] using hhead
    exact h.normal.single ⟨[], u, by simp [ht]⟩
  have hbase : base = "/" ++ String.ofList t := by
    rw [← String.toList_inj, ht]
    simp
  have htrim : trim_start_matches base '/' = String.ofList t := by
    rw [hbase, trim_slash_append, trim_clean hclean]
  rw [htrim]
  refine ⟨hbase, ?_⟩
  rw [hbase]
  simp

theorem compose_eq (mount : ZoneMount) (path : String) :
    compose_zone_key mount path = "/" ++ zone_relative_path path mount := by
  unfold compose_zone_key
  dsimp only
  split_ifs with hempty
  · simp [hempty]
  · rfl

theorem compose_join (hsub : Absolute mount.target_subtree) (hrest : Clean rest) :
    compose_zone_key mount (join mount.mount_point rest) = join mount.target_subtree rest := by
  obtain ⟨htail, hroot⟩ := Absolute.tail hsub
  rw [compose_eq, zone_relative_path, under_mount_join hrest, join]
  by_cases hslash : mount.target_subtree = "/"
  · rw [if_pos (hroot.mpr hslash), hslash]
    by_cases hempty : rest = "" <;> simp [hempty]
  · rw [if_neg (fun h => hslash (hroot.mp h)), if_neg hslash]
    split_ifs with hempty
    · exact htail.symm
    · rw [← String.append_assoc, ← String.append_assoc, ← htail]

theorem project_join (hmount : Absolute mount.mount_point) (hsub : Absolute mount.target_subtree)
    (rest : String) :
    project_zone_key mount (join mount.target_subtree rest) = some (join mount.mount_point rest) := by
  have hne {base : String} (h : Absolute base) : base ≠ "" :=
    fun h' => h.normal.nonempty (by simp [h'])
  unfold project_zone_key join
  simp only [hne hmount, hne hsub, false_or]
  by_cases hempty : rest = ""
  · subst hempty
    by_cases hs : mount.target_subtree = "/" <;> by_cases hm : mount.mount_point = "/" <;>
      simp [hs, hm]
  · by_cases hs : mount.target_subtree = "/" <;> by_cases hm : mount.mount_point = "/" <;>
      simp [hs, hempty, String.append_assoc]

theorem within_of_project (hsub : Absolute mount.target_subtree) {key : String} (hkey : Absolute key)
    (h : project_zone_key mount key = some path) : Within mount.target_subtree key := by
  by_cases hroot : mount.target_subtree = "/"
  · by_cases hslash : "/" = key
    · exact .inl (hroot.trans hslash)
    · obtain ⟨t, ht⟩ := head?_eq_some_iff.mp hkey.rooted
      refine .inr ⟨hroot ▸ hslash, ?_⟩
      rw [toList_subtree hsub.normal, if_pos hroot, ht]
      exact ⟨t, rfl⟩
  by_cases hsame : key = mount.target_subtree
  · exact .inl hsame.symm
  have hempty : mount.target_subtree ≠ "" := fun h' => hsub.normal.nonempty (by simp [h'])
  unfold project_zone_key at h
  simp only [hempty, hroot, hsame, or_self, if_false, Option.map_eq_some_iff] at h
  obtain ⟨suffix, hsuffix, -⟩ := h
  split at hsuffix
  · simp at hsuffix
  rename_i tail htail
  split_ifs at hsuffix with hslash
  unfold strip_prefix at htail
  split_ifs at htail with hprefix
  obtain ⟨t, ht⟩ := startsWith_iff_exists.mp hprefix
  have hcut : tail = t := by
    rw [← Option.some.inj htail, ht]
    simp
  obtain ⟨u, hu⟩ := startsWith_iff_exists.mp hslash
  refine .inr ⟨Ne.symm hsame, ?_⟩
  rw [toList_subtree hsub.normal, if_neg hroot, ht, ← hcut, hu]
  exact ⟨u.toList, by simp⟩

theorem trim_append (h : trim_start_matches base '/' ≠ "") (rest : String) :
    trim_start_matches (base ++ rest) '/' = trim_start_matches base '/' ++ rest := by
  have hne : base.toList.dropWhile (· == '/') ≠ [] := by simpa [trim_start_matches] using h
  rw [← String.toList_inj]
  simp only [trim_start_matches, String.toList_append, String.toList_ofList, dropWhile_append]
  rw [if_neg (by simpa using hne)]

theorem under_mount_canonical (hbase : Absolute base) (hrest : Clean rest) (zone_id : String) :
    under_mount (canonicalize_mount_path (join base rest) zone_id)
      (canonicalize_mount_path base zone_id) = rest := by
  obtain ⟨-, hroot⟩ := Absolute.tail hbase
  unfold join canonicalize_mount_path
  by_cases hempty : rest = ""
  · simp [hempty, under_mount]
  rw [if_neg hempty]
  by_cases hslash : base = "/"
  · rw [if_pos hslash, if_pos (hroot.mpr hslash), trim_slash_append, trim_clean hrest, if_neg hempty]
    by_cases hzone : zone_id = ""
    · -- The mount is the root once more.
      have hne : "/" ++ "" ++ "/" ++ rest ≠ "/" ++ "" := by
        intro heq
        have hlen := congrArg (fun s : String => s.toList.length) heq
        simp at hlen
      rw [hzone, under_mount, if_neg hne, if_pos (by simp)]
      simp only [String.append_empty, String.append_assoc, trim_slash_append, trim_clean hrest]
    · exact under_mount_append (by simpa using hzone) hrest
  · have htail : trim_start_matches base '/' ≠ "" := fun h => hslash (hroot.mp h)
    have hpath : trim_start_matches (base ++ "/" ++ rest) '/'
        = trim_start_matches base '/' ++ "/" ++ rest := by
      rw [String.append_assoc, trim_append htail, String.append_assoc]
    rw [if_neg hslash, if_neg htail, hpath, if_neg (by simp), ← String.append_assoc,
      ← String.append_assoc]
    refine under_mount_append ?_ hrest
    intro heq
    have hlen := congrArg (fun s : String => s.toList.length) heq
    simp at hlen

end NexusVfs.ZoneMetaCache
