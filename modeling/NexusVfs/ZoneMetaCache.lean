/-
The metadata cache of a zone mount: `raft/src/zone_meta_store.rs` and
`zone_meta_store/cache.rs`, over the state machine.

Decoded rows are cached under the caller's path; an apply observer drops the row of a
committed key again. It projects the key back to *one* spelling of the path through the
mount, and matches a rename by composing the key of every cached path. `apply_local` and
`restore_snapshot` call no observer, and the observer does not look at `AdjustCounter`.
-/
import NexusVfs.GenerationCache
import NexusVfs.Effects
import NexusVfs.EcWrites

namespace NexusVfs.ZoneMetaCache

open List Words Text Runs GenerationCache Table

/-! ## Paths and zone keys -/

/-- Where a zone is mounted, and the subtree of it that the mount exposes. -/
structure ZoneMount where
  mount_point : String
  target_subtree : String

/-- `str::get(n..)`: what follows the first `n` bytes, if they end at a character. -/
def get_from : ℕ → List Char → Option (List Char)
  | 0, cs => some cs
  | _ + 1, [] => none
  | n + 1, c :: cs => if c.utf8Size ≤ n + 1 then get_from (n + 1 - c.utf8Size) cs else none

def under_mount (path mount_point : String) : String :=
  if path = mount_point then ""
  else if mount_point = "/" then trim_start_matches path '/'
  else
    trim_start_matches
      (((get_from mount_point.utf8ByteSize path.toList).map String.ofList).getD path) '/'

def zone_relative_path (path : String) (mount : ZoneMount) : String :=
  let rest := under_mount path mount.mount_point
  let subtree := trim_start_matches mount.target_subtree '/'
  if subtree = "" then rest
  else if rest = "" then subtree
  else subtree ++ "/" ++ rest

def compose_zone_key (mount : ZoneMount) (path : String) : String :=
  let relative := zone_relative_path path mount
  if relative = "" then "/" else "/" ++ relative

/-- The path of a key through the mount; `none` outside its subtree. -/
def project_zone_key (mount : ZoneMount) (key : String) : Option String :=
  let relative :=
    if mount.target_subtree = "" ∨ mount.target_subtree = "/" then some key
    else if key = mount.target_subtree then some "/"
    else
      match strip_prefix key mount.target_subtree with
      | none => none
      | some suffix => if suffix.startsWith "/" then some suffix else none
  relative.map fun relative =>
    if mount.mount_point = "" ∨ mount.mount_point = "/" then relative
    else if relative = "/" then mount.mount_point
    else mount.mount_point ++ relative

/-- The spelling under which the observer knows a path. -/
def Canonical (mount : ZoneMount) (path : String) : Prop :=
  project_zone_key mount (compose_zone_key mount path) = some path

instance (mount : ZoneMount) (path : String) : Decidable (Canonical mount path) :=
  inferInstanceAs (Decidable (_ = _))

theorem compose_zone_key_ne_marker (mount : ZoneMount) (path : String) :
    compose_zone_key mount path ≠ KEY_LAST_APPLIED := by
  intro h
  have hhead := congrArg (fun s : String => s.toList.head?) h
  unfold compose_zone_key KEY_LAST_APPLIED at hhead
  dsimp only at hhead
  split_ifs at hhead
  · simp at hhead
  · simp at hhead

/-! ## What a reader sees -/

/-- `decode_metadata`: the row's own path is a zone key, and becomes the caller's. -/
def decode_metadata (codec : MetadataCodec) (mount : ZoneMount) (bytes : Bytes) : Option FileMetadata :=
  match codec.decode bytes with
  | .error _ => none
  | .ok metadata =>
    some { metadata with path := (project_zone_key mount metadata.path).getD metadata.path }

def view (codec : MetadataCodec) (mount : ZoneMount) (m : FullStateMachine) (path : String) :
    Option FileMetadata :=
  (m.store.metadata.get (compose_zone_key mount path)).bind (decode_metadata codec mount)

variable {m : FullStateMachine} {s : Store} {c : Command} {entry_timestamp : UInt64}

variable {m' : FullStateMachine} {path : String} {r : CommandResult} {s' : Store}

theorem view_congr {codec : MetadataCodec} {mount : ZoneMount}
    (h : m'.store.metadata.get (compose_zone_key mount path)
      = m.store.metadata.get (compose_zone_key mount path)) :
    view codec mount m' path = view codec mount m path := by
  unfold view
  rw [h]

/-! ## The observer -/

/-- The key of a command that `register_cache_invalidator` matches on. -/
def observed_key : Command → Option String
  | .SetMetadata key _ | .CasSetMetadata key _ _ | .DeleteMetadata key
  | .WriteVersionedMetadata key _ _ _ | .AdoptProtectedMetadata key _ _
  | .BindRecordGuard key _ _ _ _ | .RetireRecordGuard key _ _ _
  | .GuardedRecord _ (.ReplaceMetadata key _ _ _) => some key
  | _ => none

/-- The cached paths the observer drops for a command; `none` if it returns early. -/
def touches (mount : ZoneMount) (c : Command) : Option (String → Bool) :=
  match c with
  | .RenameMetadata old_key new_key _ => some fun path =>
    let key := compose_zone_key mount path
    decide (key = old_key) || decide (key = new_key) || key.startsWith (slashed old_key) ||
      key.startsWith (slashed new_key)
  | _ =>
    match (observed_key c).bind (project_zone_key mount) with
    | none => none
    | some path => some fun p => decide (p = path)

/-- `apply_ec_with_lww` calls them unless the entry is skipped. -/
def emits_ec (codec : MetadataCodec) (s : Store) (c : Command) (entry_timestamp : UInt64) : Bool :=
  match requires_strong_consistency s c, c with
  | .ok false, .SetMetadata key value =>
    (s.metadata.get key).all fun existing =>
      !decide (decode_modified_at codec value < decode_modified_at codec existing)
  | .ok false, .DeleteMetadata key =>
    (s.metadata.get key).all fun existing =>
      !decide (entry_timestamp < decode_modified_at_unix codec existing)
  | _, _ => false

/-! ## Events -/

inductive CacheEvent where
  /-- `get` (`use_cached`), or the read that `put` makes after its commit. -/
  | load (id : ℕ) (path : String) (use_cached : Bool)
  | read (id : ℕ) (keep : Bool)
  | fill (id : ℕ)
  | apply (index : UInt64) (command : Command)
  | apply_ec_with_lww (command : Command) (entry_timestamp : UInt64)
  | notify
  | apply_local (command : Command)
  | restore_snapshot (image : Snapshot)
  /-- `delete` drops its own path before it proposes. -/
  | invalidate (path : String)

def changed (m : FullStateMachine) (r : Except RaftError (CommandResult × FullStateMachine)) :
    FullStateMachine :=
  match r with
  | .ok (_, m') => m'
  | .error _ => m

variable (codec : MetadataCodec) (mount : ZoneMount)

def cache_step (m : FullStateMachine) : CacheEvent → Step FullStateMachine String
  | .load id path use_cached => .load id path use_cached
  | .read id keep => .read id keep
  | .fill id => .fill id
  | .apply index command =>
    let m' := changed m (NexusVfs.apply codec m index command)
    if emits m index command then .mutate m' (touches mount command) else .silent m'
  | .apply_ec_with_lww command entry_timestamp =>
    let m' := changed m (NexusVfs.apply_ec_with_lww codec m command entry_timestamp)
    if emits_ec codec m.store command entry_timestamp then .mutate m' (touches mount command)
    else .silent m'
  | .notify => .notify
  | .apply_local command => .silent (changed m (NexusVfs.apply_local m command))
  | .restore_snapshot image => .silent (NexusVfs.restore_snapshot m image)
  | .invalidate path => .invalidate path

def zone_step (s : System FullStateMachine String FileMetadata) (event : CacheEvent) :
    Option (Answer String FileMetadata × System FullStateMachine String FileMetadata) :=
  step (view codec mount) s (cache_step codec mount s.rows event)

/-! ## What a notified change reaches -/

variable {codec mount}

theorem touches_of_written (hcanonical : Canonical mount path)
    (hcounter : ∀ key delta, c ≠ .AdjustCounter key delta)
    (hwritten : compose_zone_key mount path ∈ written_rows s c r) :
    ∃ f, touches mount c = some f ∧ f path = true := by
  have hsingle {key : String} (hkey : observed_key c = some key)
      (hc : ∀ old_key new_key is_pas, c ≠ .RenameMetadata old_key new_key is_pas)
      (hmem : compose_zone_key mount path ∈ [key]) : ∃ f, touches mount c = some f ∧ f path = true := by
    have hproject : (observed_key c).bind (project_zone_key mount) = some path := by
      rw [hkey, ← mem_singleton.mp hmem]
      exact hcanonical
    refine ⟨fun p => decide (p = path), ?_, by simp⟩
    unfold touches
    split
    · rename_i old_key new_key is_pas
      exact absurd rfl (hc old_key new_key is_pas)
    · rw [hproject]
  unfold written_rows at hwritten
  split at hwritten
  · exact hsingle rfl (by simp) hwritten
  · exact hsingle rfl (by simp) hwritten
  · exact hsingle rfl (by simp) hwritten
  · exact absurd rfl (hcounter _ _)
  · exact hsingle rfl (by simp) hwritten
  · exact hsingle rfl (by simp) hwritten
  · exact hsingle rfl (by simp) hwritten
  · rename_i old_key new_key is_pas
    split_ifs at hwritten
    · cases hwritten
    · refine ⟨_, rfl, ?_⟩
      simp only [Bool.or_eq_true, decide_eq_true_eq]
      have hsource (source : String)
          (h : source ∈ (metadata_rename_rows s old_key (slashed old_key)).map Prod.fst) :
          source = old_key ∨ source.startsWith (slashed old_key) = true := by
        obtain ⟨⟨k, image⟩, hrow, rfl⟩ := mem_map.mp h
        rcases mem_append.mp hrow with hrow | hrow
        · split at hrow
          · rw [mem_singleton.mp hrow]
            exact .inl rfl
          · cases hrow
        · exact .inr (mem_scan.mp hrow).1
      rcases mem_append.mp hwritten with hmem | hmem
      · rcases hsource _ hmem with h | h
        · exact .inl (.inl (.inl h))
        · exact .inl (.inr h)
      · obtain ⟨source, -, htarget⟩ := mem_map.mp hmem
        by_cases heq : source = old_key
        · refine .inl (.inl (.inr ?_))
          rw [← htarget, rename_target, if_pos heq]
        · refine .inr ?_
          rw [← htarget, rename_target, if_neg heq]
          exact startsWith_append _ _
  · cases hwritten

def IsCounter : Command → Prop
  | .AdjustCounter _ _ => True
  | _ => False

theorem apply_announced {index : UInt64} (hcanonical : Canonical mount path)
    (hcounter : ¬ IsCounter c) :
    view codec mount (changed m (NexusVfs.apply codec m index c)) path = view codec mount m path ∨
      emits m index c = true ∧ ∃ f, touches mount c = some f ∧ f path = true := by
  cases happly : NexusVfs.apply codec m index c with
  | error e => exact .inl rfl
  | ok p =>
    obtain ⟨r, m'⟩ := p
    dsimp only [changed]
    rcases apply_store_cases happly with heq | ⟨hlock, hindex, -⟩
    · exact .inl (view_congr (by rw [heq]))
    · by_cases hwritten : compose_zone_key mount path ∈ written_rows m.store c r
      · refine .inr ⟨by simp [emits, hlock, hindex], ?_⟩
        refine touches_of_written hcanonical (fun key delta hc => hcounter ?_) hwritten
        rw [hc]
        trivial
      · exact .inl (view_congr (apply_metadata_frame happly (compose_zone_key_ne_marker mount path)
          fun _ => hwritten))

theorem apply_ec_cases (h : NexusVfs.apply_ec_with_lww codec m c entry_timestamp = .ok (r, m')) :
    m' = m ∨ requires_strong_consistency m.store c = .ok false ∧
      ∃ store, lww_write codec m.store entry_timestamp c = .ok store ∧ m' = { m with store } := by
  obtain ⟨sc, hsc, h⟩ := bind_eq_ok.mp h
  cases sc with
  | true =>
    cases h
    exact .inl rfl
  | false =>
    obtain ⟨store, hwrite, h⟩ := bind_eq_ok.mp h
    cases h
    exact .inr ⟨hsc, store, hwrite, rfl⟩

theorem lww_write_of_skipped (hsc : requires_strong_consistency s c = .ok false)
    (hskip : emits_ec codec s c entry_timestamp = false)
    (h : lww_write codec s entry_timestamp c = .ok s') : s' = s := by
  unfold emits_ec at hskip
  rw [hsc] at hskip
  cases c with
  | SetMetadata key value =>
    rw [lww_write_set] at h
    exact (Except.ok.inj h).symm.trans (if_neg (Bool.eq_false_iff.mp hskip))
  | DeleteMetadata key =>
    rw [lww_write_delete] at h
    exact (Except.ok.inj h).symm.trans (if_neg (Bool.eq_false_iff.mp hskip))
  | _ => cases h

theorem lww_write_row (h : lww_write codec s entry_timestamp c = .ok s') {key : String}
    (hkey : key ∉ written_rows s c .Success) : s'.metadata.get key = s.metadata.get key := by
  rcases lww_write_cases h with ⟨k, value, rfl, hs' | ⟨hs', -⟩⟩ | ⟨k, rfl, hs' | hs'⟩
  · rw [hs']
  · rw [written_rows, mem_singleton] at hkey
    rw [hs', Store.metadata_put_metadata, get_insert_of_ne _ _ hkey]
  · rw [hs']
  · rw [written_rows, mem_singleton] at hkey
    rw [hs']
    exact get_remove_of_ne _ hkey

theorem apply_ec_announced (hcanonical : Canonical mount path) :
    view codec mount (changed m (NexusVfs.apply_ec_with_lww codec m c entry_timestamp)) path
        = view codec mount m path ∨
      emits_ec codec m.store c entry_timestamp = true ∧ ∃ f, touches mount c = some f ∧ f path = true := by
  cases happly : NexusVfs.apply_ec_with_lww codec m c entry_timestamp with
  | error e => exact .inl rfl
  | ok p =>
    obtain ⟨r, m'⟩ := p
    rcases apply_ec_cases happly with rfl | ⟨hsc, store, hwrite, rfl⟩
    · exact .inl rfl
    · cases hskip : emits_ec codec m.store c entry_timestamp with
      | false =>
        rw [lww_write_of_skipped hsc hskip hwrite]
        exact .inl rfl
      | true =>
        by_cases hwritten : compose_zone_key mount path ∈ written_rows m.store c .Success
        · refine .inr ⟨rfl, touches_of_written hcanonical (fun key delta hc => ?_) hwritten⟩
          rw [hc] at hwrite
          cases hwrite
        · exact .inl (view_congr (lww_write_row hwrite hwritten))

/-! ## Runs -/

section Runs

variable (codec mount)

/-- What a run has to keep to. Readers use the spelling of a path that the observer knows; and where
no observer looks, the rows of watched paths stay as they are. -/
def KeepsToObserver (s : System FullStateMachine String FileMetadata) (event : CacheEvent) : Prop :=
  match event with
  | .load _ path _ => Canonical mount path
  | .apply index (.AdjustCounter key delta) =>
    Untouched s (changed s.rows (NexusVfs.apply codec s.rows index (.AdjustCounter key delta)))
  | .apply_local command => Untouched s (changed s.rows (NexusVfs.apply_local s.rows command))
  | .restore_snapshot image => Untouched s (NexusVfs.restore_snapshot s.rows image)
  | _ => True
where
  /-- The rows of the paths that are cached or about to be are the same in `m`. -/
  Untouched (s : System FullStateMachine String FileMetadata) (m : FullStateMachine) : Prop :=
    ∀ path, Watched s path → m.store.metadata.get (compose_zone_key mount path)
      = s.rows.store.metadata.get (compose_zone_key mount path)

end Runs

variable {s : System FullStateMachine String FileMetadata}

theorem announced_of_emits {emits : Bool} {f : Option (String → Bool)}
    (h : ∀ path, Watched s path → view codec mount m path = view codec mount s.rows path ∨
      emits = true ∧ ∃ g, f = some g ∧ g path = true) :
    Announced (view codec mount) s (if emits then .mutate m f else .silent m) := by
  cases emits with
  | true =>
    intro path hpath
    rcases h path hpath with hsame | ⟨-, g, hf, hg⟩
    · exact .inl hsame
    · exact .inr ⟨g, hf, hg⟩
  | false =>
    intro path hpath
    rcases h path hpath with hsame | ⟨hno, -⟩
    · exact hsame
    · cases hno

variable {event : CacheEvent}

theorem announced (h : Within (Canonical mount) s) (hok : KeepsToObserver codec mount s event) :
    Announced (view codec mount) s (cache_step codec mount s.rows event) := by
  cases event with
  | apply index command =>
    by_cases hcounter : IsCounter command
    · obtain ⟨key, delta, rfl⟩ : ∃ key delta, command = .AdjustCounter key delta := by
        cases command with
        | AdjustCounter key delta => exact ⟨key, delta, rfl⟩
        | _ => exact absurd hcounter id
      exact announced_of_emits fun path hpath => .inl (view_congr (hok path hpath))
    · exact announced_of_emits fun path hpath => apply_announced (h.watched hpath) hcounter
  | apply_ec_with_lww command entry_timestamp =>
    exact announced_of_emits fun path hpath => apply_ec_announced (h.watched hpath)
  | apply_local command | restore_snapshot image =>
    intro path hpath
    exact view_congr (hok path hpath)
  | _ => trivial

theorem zone_step_coherent {s' : System FullStateMachine String FileMetadata}
    {answer : Answer String FileMetadata}
    (h : Coherent (view codec mount) s ∧ Within (Canonical mount) s)
    (hok : KeepsToObserver codec mount s event)
    (hstep : zone_step codec mount s event = some (answer, s')) :
    Coherent (view codec mount) s' ∧ Within (Canonical mount) s' := by
  refine coherent_step h.1 h.2 (announced h.2 hok) ?_ hstep
  intro id path use_cached hload
  cases event with
  | load id' path' use_cached' =>
    obtain ⟨-, rfl, -⟩ := Step.load.inj hload
    exact hok
  | apply index command | apply_ec_with_lww command entry_timestamp =>
    simp only [cache_step] at hload
    split_ifs at hload
  | _ => cases hload

/-- **The cache is coherent.** In every state of a run that keeps to what the observer sees: with no
notification outstanding, every entry is the row under the key of its path, decoded. And a read that
is answered from the cache gets that row, or the row as it was before the one change whose
notification is outstanding. -/
theorem zone_cache_coherent (codec : MetadataCodec) (mount : ZoneMount) (rows : FullStateMachine)
    (events : List CacheEvent) (answers : List (Answer String FileMetadata))
    (s : System FullStateMachine String FileMetadata)
    (hok : along (zone_step codec mount) (KeepsToObserver codec mount) (System.new rows) events)
    (hrun : run (zone_step codec mount) (System.new rows) events = some (answers, s)) :
    (s.awaiting = none → ∀ path metadata, s.cache.entries.get path = some metadata →
      view codec mount s.rows path = some metadata) ∧
    ∀ id path metadata s', zone_step codec mount s (.load id path true)
        = some (some (path, some metadata), s') →
      view codec mount s.rows path = some metadata ∨
        ∃ w, s.awaiting = some w ∧ view codec mount w.before path = some metadata := by
  have hs : Coherent (view codec mount) s ∧ Within (Canonical mount) s :=
    run_invariant (fun s => Coherent (view codec mount) s ∧ Within (Canonical mount) s)
      (fun _ _ _ _ h hok hstep => zone_step_coherent h hok hstep)
      ⟨coherent_new _ rows, within_new _ rows⟩ hok hrun
  refine ⟨fun hquiet path metadata hget => hs.1.quiet hquiet hget, fun id path metadata s' hload => ?_⟩
  have hget : s.cache.entries.get path = some metadata := by
    simp only [zone_step, cache_step, step] at hload
    split at hload
    · cases hload
    · split at hload
      · rename_i value hvalue
        cases hload
        exact hvalue
      · cases hload
  rcases hs.1.entries path metadata hget with hview | ⟨w, hw, -, hbefore⟩
  · exact .inl hview
  · exact .inr ⟨w, hw, hbefore⟩

/-! ### Changes behind the observer's back -/

def plain_codec : MetadataCodec where
  decode bytes := .ok ⟨"/f", "", "", DT_REG, bytes⟩
  encode metadata := metadata.unread
  parse_rfc3339 _ := none

def root_mount : ZoneMount := ⟨"/", "/"⟩

/-- `/f` is written and announced, then read through `path` and cached. -/
def cached_read (path : String) : List CacheEvent :=
  [.apply 1 (.SetMetadata "/f" [1]), .notify, .load 1 path true, .read 1 true, .fill 1]

/-- The run ends with no notification outstanding and an entry at `path` that is not what the store
holds. -/
def ends_stale (events : List CacheEvent) (path : String) : Bool :=
  (run (zone_step plain_codec root_mount) (System.new .fresh) events).any fun p =>
    p.2.awaiting.isNone && (p.2.cache.entries.get path).any fun metadata =>
      decide (view plain_codec root_mount p.2.rows path ≠ some metadata)

/-- **Stale entries.** After an installed snapshot, after a local write, after a counter, and after
an ordinary write if the path was spelled with a second slash. -/
theorem zone_cache_stale :
    ends_stale (cached_read "/f" ++ [.restore_snapshot ⟨[("/f", [2])], [], [], LockState.new, 5⟩]) "/f"
      = true ∧
    ends_stale (cached_read "/f" ++ [.apply_local (.SetMetadata "/f" [2])]) "/f" = true ∧
    ends_stale (cached_read "/f" ++ [.apply 2 (.AdjustCounter "/f" 1), .notify]) "/f" = true ∧
    ends_stale (cached_read "//f" ++ [.apply 2 (.SetMetadata "/f" [2]), .notify]) "//f" = true := by
  decide +kernel

def keeps_check (_s : System FullStateMachine String FileMetadata) : CacheEvent → Bool
  | .load _ path _ => decide (Canonical root_mount path)
  | .apply _ (.AdjustCounter _ _) | .apply_local _ | .restore_snapshot _ => false
  | _ => true

theorem keeps_of_check (s : System FullStateMachine String FileMetadata) (event : CacheEvent)
    (h : keeps_check s event = true) : KeepsToObserver plain_codec root_mount s event := by
  cases event with
  | load id path use_cached =>
    have hcanonical : Canonical root_mount path := of_decide_eq_true h
    exact hcanonical
  | apply index command =>
    cases command with
    | AdjustCounter key delta => cases h
    | _ => trivial
  | apply_local command => cases h
  | restore_snapshot image => cases h
  | _ => trivial

/-- A read that crosses a write: the fill is turned away, and a later read gets the new row. -/
def crossed_read : List CacheEvent :=
  [.apply 1 (.SetMetadata "/f" [1]), .notify, .load 1 "/f" true, .read 1 true,
    .apply 2 (.SetMetadata "/f" [2]), .notify, .fill 1, .load 2 "/f" true, .read 2 true, .fill 2]

theorem zone_cache_coherent_crossed :
    ∃ answers s, run (zone_step plain_codec root_mount) (System.new .fresh) crossed_read
        = some (answers, s) ∧
      (s.cache.entries.get "/f").map FileMetadata.unread = some [2] ∧
      ∀ path metadata, s.cache.entries.get path = some metadata →
        view plain_codec root_mount s.rows path = some metadata := by
  refine exists_run (fun _ s => s.awaiting.isNone = true ∧
    (s.cache.entries.get "/f").map FileMetadata.unread = some [2]) (by decide +kernel) ?_
  rintro answers s hrun ⟨hquiet, hcached⟩
  refine ⟨hcached, ?_⟩
  refine (zone_cache_coherent plain_codec root_mount .fresh crossed_read answers s ?_ hrun).1
    (Option.isNone_iff_eq_none.mp hquiet)
  exact along_of_check keeps_of_check (by decide +kernel)

end NexusVfs.ZoneMetaCache
