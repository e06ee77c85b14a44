/-
A rename relocates a subtree at once.

It goes by the old path without the slashes at its end, and so do the targets of the
rows below it, but the row at the old key goes to the new key as it is given.
-/
import NexusVfs.Revisions

namespace NexusVfs

open List Words Text Runs Stamps Table

/-! ## What a rename is for -/

def Remainder (rest : String) : Prop := rest = "" ∨ rest.startsWith "/" = true

/-- A later revision of the same incarnation. -/
def Newer (token later : Bytes) : Prop :=
  later.take 16 = token.take 16 ∧ token_counter token < token_counter later

/-- The rows at and below the old key have moved, each with its remainder. Every apply rewrites the
marker row. -/
structure Relocated (codec : MetadataCodec) (is_pas : Bool) (old_key new_key : String)
    (s s' : Store) : Prop where
  moved : ∀ rest image, Remainder rest → s.metadata.get (old_key ++ rest) = some image →
    ∃ metadata, codec.decode image = .ok metadata ∧
      s'.metadata.get (new_key ++ rest) = some (codec.encode
        (moved_metadata is_pas (old_key ++ rest) (new_key ++ rest) metadata))
  removed : ∀ rest, Remainder rest →
    (∀ rest', Remainder rest' → old_key ++ rest = new_key ++ rest' →
      s.metadata.get (old_key ++ rest') = none) → s'.metadata.get (old_key ++ rest) = none
  kept : ∀ key, key ≠ KEY_LAST_APPLIED → (∀ rest, Remainder rest → key ≠ old_key ++ rest) →
    (∀ rest, Remainder rest → key = new_key ++ rest → s.metadata.get (old_key ++ rest) = none) →
      s'.metadata.get key = s.metadata.get key
  revised : ∀ rest key token, Remainder rest → (s.metadata.get (old_key ++ rest)).isSome →
    key = old_key ++ rest ∨ key = new_key ++ rest → is_managed_content_path key = true →
      revision_in_txn s key = some token →
        ∃ later, revision_in_txn s' key = some later ∧ Newer token later

/-! ## Targets -/

variable {codec : MetadataCodec} {is_pas : Bool} {old_key new_key key rest : String} {s s' : Store}

theorem slashed_startsWith (key : String) (h : rest.startsWith "/" = true) :
    (key ++ rest).startsWith (slashed key) = true := by
  obtain ⟨tail, rfl⟩ := startsWith_iff_exists.mp h
  obtain ⟨trimmed, htrimmed⟩ : ∃ l, (key.toList.reverse.dropWhile (· == '/')).reverse = l := ⟨_, rfl⟩
  obtain ⟨slashes, hslashes⟩ : ∃ l, (key.toList.reverse.takeWhile (· == '/')).reverse = l := ⟨_, rfl⟩
  have hkey : key.toList = trimmed ++ slashes := by
    rw [← htrimmed, ← hslashes, ← reverse_append, takeWhile_append_dropWhile,
      reverse_reverse]
  have hall : ∀ c ∈ slashes, c = '/' := by
    intro c hc
    rw [← hslashes, mem_reverse] at hc
    simpa using mem_takeWhile_imp hc
  rw [String.startsWith_string_iff, slashed, trim_end_matches, htrimmed]
  simp only [String.toList_append, String.toList_ofList, hkey, append_assoc]
  refine (prefix_append_right_inj trimmed).mpr ?_
  -- What was trimmed are slashes, and so is what follows.
  cases slashes with
  | nil => simp
  | cons c slashes => simp [hall c (by simp)]

theorem slashed_of_trimmed (h : trim_end_matches key '/' = key) : slashed key = key ++ "/" := by
  rw [slashed, h]

theorem rename_target_of_trimmed (hold : trim_end_matches old_key '/' = old_key)
    (hnew : trim_end_matches new_key '/' = new_key) (tail : String) :
    rename_target old_key new_key (old_key ++ "/" ++ tail) = new_key ++ ("/" ++ tail) := by
  have hne : old_key ++ "/" ++ tail ≠ old_key := by
    intro heq
    have hlen := congrArg (·.toList.length) heq
    simp at hlen
  rw [rename_target, if_neg hne, slashed_of_trimmed hold, slashed_of_trimmed hnew,
    String.toList_append (s := old_key ++ "/"), drop_left, String.ofList_toList,
    String.append_assoc]

/-- Every row that is moved lies at or below the old key and keeps its remainder. -/
def Aligned (s : Store) (old_key new_key : String) : Prop :=
  ∀ key, (s.metadata.get key).isSome → key = old_key ∨ key.startsWith (slashed old_key) = true →
    ∃ rest, Remainder rest ∧ key = old_key ++ rest ∧
      rename_target old_key new_key key = new_key ++ rest

/-- Neither path ends in a slash, or the row at the old key is moved alone. -/
def Unslashed (s : Store) (old_key new_key : String) : Prop :=
  trim_end_matches old_key '/' = old_key ∧ trim_end_matches new_key '/' = new_key ∨
    ∀ key, (s.metadata.get key).isSome → key.startsWith (slashed old_key) = true → key = old_key

theorem aligned_self : ∃ rest, Remainder rest ∧ old_key = old_key ++ rest ∧
    rename_target old_key new_key old_key = new_key ++ rest :=
  ⟨"", .inl rfl, by simp, by simp [rename_target]⟩

theorem Unslashed.aligned (h : Unslashed s old_key new_key) : Aligned s old_key new_key := by
  rintro key hrow (rfl | hbelow)
  · exact aligned_self
  · rcases h with ⟨hold, hnew⟩ | halone
    · rw [slashed_of_trimmed hold] at hbelow
      obtain ⟨tail, rfl⟩ := startsWith_iff_exists.mp hbelow
      exact ⟨"/" ++ tail, .inr (startsWith_append _ _), by rw [String.append_assoc],
        rename_target_of_trimmed hold hnew tail⟩
    · rw [halone key hrow hbelow]
      exact aligned_self

theorem mem_rename_rows {image : Bytes} :
    (key, image) ∈ metadata_rename_rows s old_key (slashed old_key) ↔
      s.metadata.get key = some image ∧ (key = old_key ∨ key.startsWith (slashed old_key) = true) := by
  unfold metadata_rename_rows
  rw [mem_append, mem_scan]
  constructor
  · rintro (h | ⟨hbelow, hrow⟩)
    · split at h
      · rename_i hrow
        obtain ⟨rfl, rfl⟩ := Prod.mk.inj (mem_singleton.mp h)
        exact ⟨hrow, .inl rfl⟩
      · cases h
    · exact ⟨hrow, .inr hbelow⟩
  · rintro ⟨hrow, rfl | hbelow⟩
    · rw [hrow]
      exact .inl (mem_singleton.mpr rfl)
    · exact .inr ⟨hbelow, hrow⟩

/-! ## The table -/

theorem change_of_rename (haligned : Aligned s old_key new_key) {change : String × String × Bytes}
    (hof : ChangeOf s old_key new_key (metadata_rename_rows s old_key (slashed old_key)) change)
    (hcarries : Carries codec is_pas (metadata_rename_rows s old_key (slashed old_key)) change) :
    ∃ rest image metadata, Remainder rest ∧ s.metadata.get (old_key ++ rest) = some image ∧
      codec.decode image = .ok metadata ∧ change = (old_key ++ rest, new_key ++ rest,
        codec.encode (moved_metadata is_pas (old_key ++ rest) (new_key ++ rest) metadata)) := by
  obtain ⟨source, target, bytes⟩ := change
  obtain ⟨image, metadata, hmem, hdecode, hbytes⟩ := hcarries
  obtain ⟨hrow, hbelow⟩ := mem_rename_rows.mp hmem
  obtain ⟨rest, hrest, hsource, htarget⟩ := haligned source (by rw [hrow]; rfl) hbelow
  have hto : target = new_key ++ rest := hof.2.1.trans htarget
  dsimp only at hsource hbytes
  subst hsource hto hbytes
  exact ⟨rest, image, metadata, hrest, hrow, hdecode, rfl⟩

theorem move_rows_relocates {t : Table String Bytes} {changes : List (String × String × Bytes)}
    (hchange : ∀ change ∈ changes, ∃ rest image metadata, Remainder rest ∧
      t.get (old_key ++ rest) = some image ∧ codec.decode image = .ok metadata ∧
      change = (old_key ++ rest, new_key ++ rest,
        codec.encode (moved_metadata is_pas (old_key ++ rest) (new_key ++ rest) metadata)))
    (hall : ∀ rest, Remainder rest → (t.get (old_key ++ rest)).isSome →
      old_key ++ rest ∈ changes.map Prod.fst) :
    (∀ rest image, Remainder rest → t.get (old_key ++ rest) = some image →
      ∃ metadata, codec.decode image = .ok metadata ∧
        (move_rows t changes).get (new_key ++ rest) = some (codec.encode
          (moved_metadata is_pas (old_key ++ rest) (new_key ++ rest) metadata))) ∧
    ∀ key, (∀ rest, Remainder rest → key = new_key ++ rest → t.get (old_key ++ rest) = none) →
      (move_rows t changes).get key = if key ∈ changes.map Prod.fst then none else t.get key := by
  constructor
  · intro rest image hrest hrow
    obtain ⟨change, hmem, hsource⟩ := mem_map.mp (hall rest hrest (by rw [hrow]; rfl))
    obtain ⟨rest', image', metadata, -, hrow', hdecode, rfl⟩ := hchange change hmem
    obtain rfl : rest' = rest := by simpa using hsource
    obtain rfl : image' = image := Option.some.inj (hrow'.symm.trans hrow)
    refine ⟨metadata, hdecode, ?_⟩
    refine get_insert_all_of_same _ (mem_map.mpr ⟨_, hmem, rfl⟩) fun bytes hbytes => ?_
    -- Two rows that go to one key have the same remainder.
    obtain ⟨change, hmem₂, heq⟩ := mem_map.mp hbytes
    obtain ⟨rest₂, image₂, metadata₂, -, hrow₂, hdecode₂, rfl⟩ := hchange change hmem₂
    obtain ⟨hkey, rfl⟩ := Prod.mk.inj heq
    obtain rfl : rest₂ = rest' := by simpa using hkey
    rw [hrow', Option.some.injEq] at hrow₂
    rw [← hrow₂, hdecode, Except.ok.injEq] at hdecode₂
    rw [hdecode₂]
  · intro key htarget
    unfold move_rows
    rw [get_insert_all_of_notMem, get_remove_all]
    intro hmem
    simp only [map_map, mem_map, Function.comp] at hmem
    obtain ⟨change, hmem, rfl⟩ := hmem
    obtain ⟨rest, image, metadata, hrest, hrow, -, rfl⟩ := hchange change hmem
    rw [htarget rest hrest rfl] at hrow
    cases hrow

/-! ## Revisions -/

theorem newer_of_restamped {K : PlainPath} {token : Bytes} (hs : Sound revisions s)
    (hs' : Sound revisions s') (hmoves : Moves revisions s s') (hnew : Restamped revisions s s' K)
    (htoken : revision_in_txn s K.1 = some token) :
    ∃ later, revision_in_txn s' K.1 = some later ∧ Newer token later := by
  obtain ⟨later, hstamp, hfresh⟩ := hnew
  have hissued := hs.issued_of_stamp K token htoken
  obtain ⟨last, hlast, htake, hle⟩ := hissued
  obtain ⟨last', hlast', htake', -⟩ := hmoves.issued_mono token ⟨last, hlast, htake, hle⟩
  obtain ⟨last'', hlast'', hlater, -⟩ := hs'.issued_of_stamp K later hstamp
  obtain rfl : last' = last'' := Option.some.inj (hlast'.symm.trans hlast'')
  -- The incarnation stays, so what was not issued has a higher number.
  have hsame : later.take 16 = token.take 16 := hlater.trans htake'.symm
  refine ⟨later, hstamp, hsame, ?_⟩
  by_contra hcount
  exact hfresh ⟨last, hlast, hsame.trans htake, by omega⟩

/-! ## The rename -/

theorem mem_rename_sources (haligned : Aligned s old_key new_key) :
    key ∈ (metadata_rename_rows s old_key (slashed old_key)).map Prod.fst ↔
      ∃ rest, Remainder rest ∧ key = old_key ++ rest ∧ (s.metadata.get key).isSome := by
  constructor
  · intro hmem
    obtain ⟨⟨k, image⟩, hrow, heq⟩ := mem_map.mp hmem
    obtain ⟨hget, hbelow⟩ := mem_rename_rows.mp hrow
    obtain rfl : k = key := heq
    have hsome : (s.metadata.get k).isSome := by rw [hget]; rfl
    obtain ⟨rest, hrest, hkey, -⟩ := haligned k hsome hbelow
    exact ⟨rest, hrest, hkey, hsome⟩
  · rintro ⟨rest, hrest, rfl, hsome⟩
    obtain ⟨image, himage⟩ := Option.isSome_iff_exists.mp hsome
    refine mem_map.mpr ⟨(_, image), mem_rename_rows.mpr ⟨himage, ?_⟩, rfl⟩
    rcases hrest with rfl | hslash
    · exact .inl (by simp)
    · exact .inr (slashed_startsWith old_key hslash)

theorem no_nul_of_valid (h : validate_path_fast key = none) : '\x00' ∉ key.toList := by
  intro hnul
  unfold validate_path_fast at h
  split_ifs at h

theorem ne_marker_of_rooted (h : validate_path_fast key = none) (rest : String) :
    key ++ rest ≠ KEY_LAST_APPLIED := by
  have hroot : key.startsWith "/" = true := by
    by_contra hno
    unfold validate_path_fast at h
    split_ifs at h
  obtain ⟨tail, rfl⟩ := startsWith_iff_exists.mp hroot
  intro heq
  have hhead := congrArg (·.toList.head?) heq
  simp [KEY_LAST_APPLIED] at hhead

theorem rename_metadata_relocates (hs : Sound revisions s) (hne : old_key ≠ new_key)
    (hun : Unslashed s old_key new_key)
    (hplain : ∀ rest, Remainder rest → (s.metadata.get (old_key ++ rest)).isSome →
      '\x00' ∉ rest.toList)
    (h : rename_metadata_in_txn codec s old_key new_key is_pas = .ok (.Success, s')) :
    Relocated codec is_pas old_key new_key s s' := by
  have haligned := hun.aligned
  rcases rename_metadata_ok h with
    ⟨-, hr | heq⟩ | ⟨-, -, hvalid, changes, s₁, hall, hkeys, hcarries, hrev, rfl⟩
  · cases hr
  · exact absurd heq hne
  have hsources : ∀ key, key ∈ changes.map Prod.fst ↔
      ∃ rest, Remainder rest ∧ key = old_key ++ rest ∧ (s.metadata.get key).isSome := by
    intro key
    rw [hkeys, mem_rename_sources haligned]
  have htable : s₁.metadata = s.metadata :=
    ext_get fun key => (rename_revisions_within hrev).frame.metadata key id
  obtain ⟨hmoved, hothers⟩ := move_rows_relocates
    (fun change hmem => change_of_rename haligned (hall change hmem) (hcarries change hmem))
    (fun rest hrest hsome => (hsources _).mpr ⟨rest, hrest, rfl, hsome⟩)
  rw [← htable] at hmoved hothers
  refine ⟨?_, ?_, ?_, ?_⟩
  · rw [← htable]
    exact hmoved
  · intro rest hrest htarget
    rw [hothers _ (by rwa [htable])]
    split_ifs with hmem
    · rfl
    · rw [htable]
      by_contra hsome
      exact hmem ((hsources _).mpr ⟨rest, hrest, rfl, Option.isSome_iff_ne_none.mpr hsome⟩)
  · intro key _ hsource htarget
    rw [hothers _ (by rwa [htable]), htable, if_neg]
    intro hmem
    obtain ⟨rest, hrest, hkey, -⟩ := (hsources _).mp hmem
    exact hsource rest hrest hkey
  · intro rest key token hrest hsome hkey hmanaged htoken
    have hnul : '\x00' ∉ key.toList := by
      have hpaths : validate_path_fast old_key = none ∧ validate_path_fast new_key = none := by
        simpa [first_invalid_path] using hvalid
      have hrestnul := hplain rest hrest hsome
      rcases hkey with rfl | rfl
      · simp [no_nul_of_valid hpaths.1, hrestnul]
      · simp [no_nul_of_valid hpaths.2, hrestnul]
    obtain ⟨change, hmem, hsource⟩ :=
      mem_map.mp ((hsources _).mpr ⟨rest, hrest, rfl, hsome⟩)
    have hend : key = change.1 ∨ key = change.2.1 := by
      obtain ⟨rest', image, metadata, -, -, -, hchange⟩ :=
        change_of_rename haligned (hall change hmem) (hcarries change hmem)
      rw [hchange] at hsource ⊢
      obtain rfl : rest' = rest := by simpa using hsource
      exact hkey
    have hnew := rename_revisions_restamps (K := ⟨key, hnul⟩) hs hmanaged (by rw [htoken]; rfl)
      ⟨change, hmem, hend⟩ hrev
    obtain ⟨hs₁, hmoves⟩ := (rename_revisions_within hrev).writes.revisions_sound hs
    obtain ⟨later, hlater, hnewer⟩ := newer_of_restamped hs hs₁ hmoves hnew htoken
    exact ⟨later, hlater, hnewer⟩

theorem Relocated.put_marker (h : Relocated codec is_pas old_key new_key s s')
    (hold : validate_path_fast old_key = none) (hnew : validate_path_fast new_key = none)
    (index : UInt64) : Relocated codec is_pas old_key new_key s (put_marker s' index) := by
  have hget : ∀ key, key ≠ KEY_LAST_APPLIED →
      (NexusVfs.put_marker s' index).metadata.get key = s'.metadata.get key := by
    intro key hkey
    exact get_insert_of_ne _ _ hkey
  refine ⟨fun rest image hrest hrow => ?_, fun rest hrest htarget => ?_,
    fun key hkey hsource htarget => ?_, h.revised⟩
  · rw [hget _ (ne_marker_of_rooted hnew rest)]
    exact h.moved rest image hrest hrow
  · rw [hget _ (ne_marker_of_rooted hold rest)]
    exact h.removed rest hrest htarget
  · rw [hget _ hkey]
    exact h.kept key hkey hsource htarget

def plain_codec : MetadataCodec where
  decode image := .ok ⟨"", "", "", DT_REG, image⟩
  encode metadata := metadata.unread
  parse_rfc3339 _ := none

def set_row (index : UInt64) (key : String) (value : Bytes) : Event :=
  .apply ⟨index, .SetMetadata key value⟩

def renames (events : List Event) (old_key new_key : String) :
    Option (FullStateMachine × FullStateMachine) := do
  let (_, m) ← run (event_step plain_codec) .fresh events
  match apply plain_codec m 9 (.RenameMetadata old_key new_key false) with
  | .ok (.Success, m') => some (m, m')
  | _ => none

theorem renames_any {events : List Event} {check : FullStateMachine × FullStateMachine → Bool}
    (h : (renames events old_key new_key).any check = true) :
    ∃ results m m', run (event_step plain_codec) .fresh events = some (results, m) ∧
      apply plain_codec m 9 (.RenameMetadata old_key new_key false) = .ok (.Success, m') ∧
      check (m, m') = true := by
  obtain ⟨p, hp, hcheck⟩ := (Option.any_eq_true _ _).mp h
  obtain ⟨⟨results, m⟩, hrun, hp⟩ := Option.bind_eq_some_iff.mp hp
  dsimp only at hp
  split at hp
  · rename_i m' happly
    cases hp
    exact ⟨results, m, m', hrun, happly, hcheck⟩
  · cases hp

end NexusVfs
