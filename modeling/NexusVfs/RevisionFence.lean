/-
The revision fence: `http-api/middleware/revision.rs` over the file syscalls.

The fence polls the row of a path on its own replica until its generation is the token's
or more. A zone is any number of replicas over one log, each at its own prefix of it;
through the cache of the metadata store a replica may show a shorter one than it has
applied. A syscall reads rows where it runs and then has entries committed, one at a
time. No step reads `writes`, the writes that committed.
-/
import NexusVfs.ConditionalContent
import NexusVfs.EcFork

namespace NexusVfs.Fence

open Option Words Text Runs ConditionalContent

/-! ## Tokens -/

structure RevisionToken where
  anchor : String
  index : UInt64
  deriving DecidableEq

def RevisionToken.is_path (t : RevisionToken) : Bool := t.anchor.toList.head? == some '/'

inductive FenceError where
  | NotApplied (min_revision current_revision : RevisionToken)
  | ZoneRevisionUnavailable (min_revision : RevisionToken)
  deriving DecidableEq

/-! ## What a replica shows -/

abbrev KernelFileMetadata := ConditionalContent.FileMetadata

section Rows

variable (codec : MetadataCodec) (p : Protos)

/-- The row of `key` after `k` entries; one that cannot be decoded counts as absent. -/
def row (log : List Command) (k : ℕ) (key : String) : Option KernelFileMetadata :=
  (log_state codec log k).bind fun m =>
    (m.store.metadata.get key).bind fun bytes => (p.proto_to_kernel bytes).toOption

def generation (old : Option KernelFileMetadata) : UInt64 := old.elim 0 (·.gen)

def stat_gen (log : List Command) (k : ℕ) (path : String) : UInt64 :=
  match validate_path_fast path with
  | some _ => 0
  | none => generation (row codec p log k path)

def list (log : List Command) (k : ℕ) (below : String) : Except String (List KernelFileMetadata) :=
  match log_state codec log k with
  | none => .error "state machine unavailable"
  | some m => (m.store.metadata.scan fun key => key.startsWith below).mapM fun entry =>
    p.proto_to_kernel entry.2

variable {k : ℕ}

variable {log : List Command}

theorem stat_gen_append (later : List Command) (hk : k ≤ log.length)
    (path : String) : stat_gen codec p (log ++ later) k path = stat_gen codec p log k path := by
  unfold stat_gen row
  rw [log_state_append codec later hk]

theorem stat_gen_le {path : String} {g : UInt64}
    (h : ∀ r, row codec p log k path = some r → r.gen ≤ g) : stat_gen codec p log k path ≤ g := by
  have hzero : (0 : UInt64) ≤ g := by simp [UInt64.le_iff_toNat_le]
  unfold stat_gen
  split
  · exact hzero
  · cases hrow : row codec p log k path with
    | none => exact hzero
    | some r => exact h r hrow

end Rows

/-! ## Calls -/

inductive Call where
  /-- `content_id` and `size` are what the backend answers for the bytes written. -/
  | sys_write (key content_id : String) (size : ℕ)
  /-- `content_id` and `size` are what the copying of the bytes answers. -/
  | sys_copy (src dst content_id : String) (size : ℕ)
  | sys_unlink (key : String)
  | rename_path (old_path new_path : String) (is_pas : Bool)
  | enforce (required : Option RevisionToken)

inductive Phase where
  | called
  /-- The row of a write or a copy is built from the row that was read. -/
  | built (key : String) (old : Option KernelFileMetadata) (metadata : KernelFileMetadata)
  /-- Entries still to be committed; a rename lists the children after the first of them. -/
  | proposing (commands : List Command) (listing : Bool)
  | done

structure Thread (ι : Type) where
  replica : ι
  call : Call
  phase : Phase

structure Write where
  key : String
  gen : UInt64
  index : ℕ
  deriving DecidableEq

inductive Answer (ι : Type) where
  | silent
  | missed
  | failed
  | written (token : RevisionToken)
  | finished
  | unfenced
  /-- The fence on `replica` lets a read with this token through. -/
  | served (replica : ι) (required observed : RevisionToken)
  | refused (error : FenceError)
  deriving DecidableEq

structure Cluster (ι : Type) where
  log : List Command
  /-- how many entries of the log each replica has applied -/
  applied : ι → ℕ
  threads : List (Thread ι)
  writes : List Write

inductive Op (ι : Type) where
  | call (replica : ι) (call : Call)
  /-- A thread goes on. The row it reads is the one after `seen` entries; for a fence, `late` says
  that the deadline has passed. -/
  | next (i : ℕ) (seen : ℕ) (late : Bool)
  | apply (replica : ι)
  /-- any other entry of the zone's log -/
  | commit (command : Command)

/-- The row that a copy writes: its version saturates. -/
def copied_file_metadata (path content_id : String) (size : ℕ) (old : Option KernelFileMetadata) :
    KernelFileMetadata :=
  { replacement_file_metadata path content_id size old with
    version :=
      let version := old.elim 0 (·.version)
      if version.toNat + 1 < 2 ^ 32 then version + 1 else version }

def pas_update_content_id (metadata : KernelFileMetadata) (old_vfs new_vfs : String) :
    KernelFileMetadata :=
  { metadata with content_id := metadata.content_id.map fun cid =>
      (renamed_pas_content_id cid old_vfs new_vfs).getD cid }

def move_row (p : Protos) (metadata : KernelFileMetadata) (old_path new_path : String)
    (is_pas : Bool) : List Command :=
  let metadata := { metadata with path := new_path }
  let metadata := if is_pas then pas_update_content_id metadata old_path new_path else metadata
  [.SetMetadata new_path (p.kernel_to_proto metadata), .DeleteMetadata old_path]

def move_children (p : Protos) (old_path new_path : String) (is_pas : Bool)
    (children : List KernelFileMetadata) : List Command :=
  children.flatMap fun child =>
    match strip_prefix child.path (slashed old_path) with
    | none => []
    | some suffix => move_row p child child.path (slashed new_path ++ suffix) is_pas

/-! ## Steps -/

section System

variable {ι : Type} (codec : MetadataCodec) (p : Protos)

def Cluster.new : Cluster ι := ⟨[], fun _ => 0, [], []⟩

def Cluster.set_phase (n : Cluster ι) (i : ℕ) (t : Thread ι) (phase : Phase) : Cluster ι :=
  { n with threads := n.threads.set i { t with phase } }

/-- Commits an entry; the answer is the one its application gives. -/
def Cluster.propose (n : Cluster ι) (c : Command) : Option (CommandResult × Cluster ι) :=
  match log_state codec n.log n.log.length with
  | none => none
  | some m =>
    match apply codec m (UInt64.ofNat (n.log.length + 1)) c with
    | .error _ => none
    | .ok (answer, _) => some (answer, { n with log := n.log ++ [c] })

def poll (n : Cluster ι) (i : ℕ) (t : Thread ι) (seen : ℕ) (late : Bool)
    (required : RevisionToken) : Answer ι × Cluster ι :=
  let current := stat_gen codec p n.log seen required.anchor
  let observed : RevisionToken := ⟨required.anchor, current⟩
  if required.index ≤ current then (.served t.replica required observed, n.set_phase i t .done)
  else if late then (.refused (.NotApplied required observed), n.set_phase i t .done)
  else (.silent, n)

def start (n : Cluster ι) (i : ℕ) (t : Thread ι) (seen : ℕ) (late : Bool) : Answer ι × Cluster ι :=
  match t.call with
  | .sys_write key content_id size =>
    let old := row codec p n.log seen key
    (.silent, n.set_phase i t (.built key old (replacement_file_metadata key content_id size old)))
  | .sys_copy src dst content_id size =>
    match row codec p n.log seen src with
    | none => (.failed, n.set_phase i t .done)
    | some src_meta =>
      let old := row codec p n.log seen dst
      if !regular src_meta || old.any fun m => !regular m then (.failed, n.set_phase i t .done)
      else (.silent, n.set_phase i t
        (.built dst old (copied_file_metadata dst content_id size old)))
  | .sys_unlink key =>
    match row codec p n.log seen key with
    | none => (.missed, n.set_phase i t .done)
    | some entry =>
      if !regular entry then (.missed, n.set_phase i t .done)
      else (.silent, n.set_phase i t (.proposing [.DeleteMetadata key] false))
  | .rename_path old_path new_path is_pas =>
    if old_path = new_path then (.finished, n.set_phase i t .done)
    else
      match row codec p n.log seen old_path with
      | none => (.silent, n.set_phase i t (.proposing [] true))
      | some metadata =>
        (.silent, n.set_phase i t (.proposing (move_row p metadata old_path new_path is_pas) true))
  | .enforce none => (.unfenced, n.set_phase i t .done)
  | .enforce (some required) =>
    if !required.is_path then
      (.refused (.ZoneRevisionUnavailable required), n.set_phase i t .done)
    else poll codec p n i t seen late required

def publish (n : Cluster ι) (i : ℕ) (t : Thread ι) (key : String) (metadata : KernelFileMetadata) :
    Option (Answer ι × Cluster ι) :=
  (n.propose codec (.SetMetadata key (p.kernel_to_proto { metadata with path := key }))).map
    fun (answer, n') =>
      if answer = .Success then
        (.written ⟨key, metadata.gen⟩, { n' with
          writes := n.writes ++ [(⟨key, metadata.gen, n.log.length⟩ : Write)] }.set_phase i t .done)
      else (.failed, n'.set_phase i t .done)

def go_on (n : Cluster ι) (i : ℕ) (t : Thread ι) (seen : ℕ) (commands : List Command)
    (listing : Bool) : Option (Answer ι × Cluster ι) :=
  match commands, listing, t.call with
  | c :: rest, _, _ => (n.propose codec c).map fun (answer, n') =>
    if answer = .Success then (.silent, n'.set_phase i t (.proposing rest listing))
    else (.failed, n'.set_phase i t .done)
  | [], true, .rename_path old_path new_path is_pas =>
    match list codec p n.log seen (slashed old_path) with
    | .error _ => some (.failed, n.set_phase i t .done)
    | .ok children => some (.silent, n.set_phase i t
        (.proposing (move_children p old_path new_path is_pas children) false))
  | [], _, _ => some (.finished, n.set_phase i t .done)

def Thread.next (n : Cluster ι) (i : ℕ) (t : Thread ι) (seen : ℕ) (late : Bool) :
    Option (Answer ι × Cluster ι) :=
  match t.phase with
  | .called => some (start codec p n i t seen late)
  | .built key _ metadata => publish codec p n i t key metadata
  | .proposing commands listing => go_on codec p n i t seen commands listing
  | .done => none

def fence_step [DecidableEq ι] (n : Cluster ι) : Op ι → Option (Answer ι × Cluster ι)
  | .call replica call =>
    some (.silent, { n with threads := n.threads ++ [⟨replica, call, .called⟩] })
  | .next i seen late =>
    match n.threads[i]? with
    | none => none
    | some t => if seen ≤ n.applied t.replica then t.next codec p n i seen late else none
  | .apply r =>
    if n.applied r < n.log.length then
      some (.silent, { n with applied := Function.update n.applied r (n.applied r + 1) })
    else none
  | .commit c => (n.propose codec c).map fun (_, n') => (.silent, n')

/-! ## What a step can do -/

inductive Move (n : Cluster ι) (i : ℕ) (t : Thread ι) (seen : ℕ) : Answer ι → Cluster ι → Prop
  /-- A row is read, or the call ends; nothing is committed. -/
  | turns (a : Answer ι) (phase : Phase)
      (hserved : ∀ r required observed, a ≠ .served r required observed)
      (hbuilt : ∀ key old metadata, phase = .built key old metadata →
        metadata.gen = saturating_succ (generation old)) : Move n i t seen a (n.set_phase i t phase)
  | waits : Move n i t seen .silent n
  | proposes (a : Answer ι) (c : Command) (phase : Phase)
      (hserved : ∀ r required observed, a ≠ .served r required observed)
      (hbuilt : ∀ key old metadata, phase ≠ .built key old metadata) :
      Move n i t seen a ({ n with log := n.log ++ [c] }.set_phase i t phase)
  | publishes (key : String) (old : Option KernelFileMetadata) (metadata : KernelFileMetadata)
      (value : Bytes) (hphase : t.phase = .built key old metadata) :
      Move n i t seen (.written ⟨key, metadata.gen⟩)
        ({ n with log := n.log ++ [Command.SetMetadata key value],
                  writes := n.writes ++ [(⟨key, metadata.gen, n.log.length⟩ : Write)] }.set_phase
          i t .done)
  | serves (required : RevisionToken)
      (hle : required.index ≤ stat_gen codec p n.log seen required.anchor) :
      Move n i t seen
        (.served t.replica required ⟨required.anchor, stat_gen codec p n.log seen required.anchor⟩)
        (n.set_phase i t .done)

variable {codec p} {n n' : Cluster ι} {i : ℕ} {t : Thread ι} {seen : ℕ} {late : Bool} {a : Answer ι}

theorem propose_eq {c : Command} {answer : CommandResult}
    (h : n.propose codec c = some (answer, n')) : n' = { n with log := n.log ++ [c] } := by
  unfold Cluster.propose at h
  split at h
  · cases h
  · split at h
    · cases h
    · cases h
      rfl

theorem start_move (h : start codec p n i t seen late = (a, n')) :
    Move codec p n i t seen a n' := by
  -- a call that ends at once, or only takes note of what it has read
  have hends (a : Answer ι) (hserved : ∀ r required observed, a ≠ .served r required observed) :
      Move codec p n i t seen a (n.set_phase i t .done) :=
    .turns a .done hserved (by simp)
  have hproposes (commands : List Command) (listing : Bool) :
      Move codec p n i t seen .silent (n.set_phase i t (.proposing commands listing)) :=
    .turns .silent _ (by simp) (by simp)
  unfold start at h
  split at h
  · cases h
    refine .turns _ _ (by simp) fun key old metadata hphase => ?_
    cases hphase
    rfl
  · split at h
    · cases h
      exact hends _ (by simp)
    · dsimp only at h
      split_ifs at h
      · cases h
        exact hends _ (by simp)
      · cases h
        refine .turns _ _ (by simp) fun key old metadata hphase => ?_
        cases hphase
        rfl
  · split at h
    · cases h
      exact hends _ (by simp)
    · split_ifs at h
      · cases h
        exact hends _ (by simp)
      · cases h
        exact hproposes _ _
  · split_ifs at h
    · cases h
      exact hends _ (by simp)
    · split at h
      all_goals
        cases h
        exact hproposes _ _
  · cases h
    exact hends _ (by simp)
  · split_ifs at h
    · cases h
      exact hends _ (by simp)
    · unfold poll at h
      dsimp only at h
      split_ifs at h with hle hlate
      · cases h
        exact .serves _ hle
      · cases h
        exact hends _ (by simp)
      · cases h
        exact .waits

theorem next_move (h : t.next codec p n i seen late = some (a, n')) :
    Move codec p n i t seen a n' := by
  unfold Thread.next at h
  split at h
  · exact start_move (some.inj h)
  · next key old metadata hphase =>
      obtain ⟨⟨answer, n₁⟩, hpropose, h⟩ := map_eq_some_iff.mp h
      have hn₁ := propose_eq hpropose
      subst hn₁
      dsimp only at h
      split_ifs at h
      · cases h
        exact .publishes key old metadata _ hphase
      · cases h
        exact .proposes _ _ _ (by simp) (by simp)
  · next commands listing hphase =>
      unfold go_on at h
      split at h
      · obtain ⟨⟨answer, n₁⟩, hpropose, h⟩ := map_eq_some_iff.mp h
        have hn₁ := propose_eq hpropose
        subst hn₁
        dsimp only at h
        split_ifs at h
        all_goals
          cases h
          exact .proposes _ _ _ (by simp) (by simp)
      · split at h
        all_goals
          cases h
          exact .turns _ _ (by simp) (by simp)
      · cases h
        exact .turns _ _ (by simp) (by simp)
  · cases h

/-! ## The invariant -/

/-- A write reads the greatest generation its path has had, with room for one more: no earlier entry
of the log left the path with a greater one. -/
def ReadsNewest (codec : MetadataCodec) (p : Protos) (n : Cluster ι) : Op ι → Prop
  | .next i _ _ => ∀ t ∈ n.threads[i]?, ∀ key old metadata, t.phase = .built key old metadata →
      (generation old).toNat + 1 < 2 ^ 64 ∧
      ∀ k ≤ n.log.length, ∀ r, row codec p n.log k key = some r → r.gen ≤ generation old
  | _ => True

structure FenceInv (codec : MetadataCodec) (p : Protos) (n : Cluster ι) : Prop where
  applied_le : ∀ r, n.applied r ≤ n.log.length
  built : ∀ t ∈ n.threads, ∀ key old metadata, t.phase = .built key old metadata →
    metadata.gen = saturating_succ (generation old)
  entry : ∀ w ∈ n.writes, ∃ value, n.log[w.index]? = some (.SetMetadata w.key value)
  /-- Before a write, no prefix of the log shows its generation. -/
  before : ∀ w ∈ n.writes, ∀ k ≤ w.index, stat_gen codec p n.log k w.key < w.gen

variable {phase : Phase} {op : Op ι}

theorem mem_set_phase {u : Thread ι} (h : u ∈ (n.set_phase i t phase).threads) :
    u = { t with phase } ∨ u ∈ n.threads :=
  (List.mem_or_eq_of_mem_set h).symm

theorem FenceInv.new : FenceInv codec p (Cluster.new : Cluster ι) :=
  ⟨fun _ => Nat.le_refl 0, by simp [Cluster.new], by simp [Cluster.new], by simp [Cluster.new]⟩

variable (h : FenceInv codec p n)
include h

theorem FenceInv.set_phase (hbuilt : ∀ key old metadata, phase = .built key old metadata →
      metadata.gen = saturating_succ (generation old)) :
    FenceInv codec p (n.set_phase i t phase) := by
  refine ⟨h.applied_le, fun u hu key old metadata hphase => ?_, h.entry, h.before⟩
  rcases mem_set_phase hu with rfl | hold
  · exact hbuilt key old metadata hphase
  · exact h.built u hold key old metadata hphase

theorem FenceInv.append (c : Command) :
    FenceInv codec p { n with log := n.log ++ [c] } := by
  have hindex (w : Write) (hw : w ∈ n.writes) : w.index < n.log.length := by
    obtain ⟨value, hvalue⟩ := h.entry w hw
    exact (List.getElem?_eq_some_iff.mp hvalue).1
  refine ⟨fun r => ?_, h.built, fun w hw => ?_, fun w hw k hk => ?_⟩
  · have hle := h.applied_le r
    simp only [List.length_append, List.length_singleton]
    omega
  · obtain ⟨value, hvalue⟩ := h.entry w hw
    refine ⟨value, ?_⟩
    show (n.log ++ [c])[w.index]? = _
    rw [List.getElem?_append_left (hindex w hw), hvalue]
  · have hlt := hindex w hw
    show stat_gen codec p (n.log ++ [c]) k w.key < w.gen
    rw [stat_gen_append codec p [c] (by omega)]
    exact h.before w hw k hk

omit h in
theorem lt_succ_of_le {g g₀ : UInt64} (h : g ≤ g₀) (hroom : g₀.toNat + 1 < 2 ^ 64) :
    g < saturating_succ g₀ := by
  have hone : (1 : UInt64).toNat = 1 := rfl
  rw [UInt64.le_iff_toNat_le] at h
  rw [saturating_succ, if_pos hroom, UInt64.lt_iff_toNat_lt, UInt64.toNat_add, hone,
    Nat.mod_eq_of_lt hroom]
  omega

theorem FenceInv.write {key : String} {old : Option KernelFileMetadata}
    {metadata : KernelFileMetadata} (value : Bytes)
    (hgen : metadata.gen = saturating_succ (generation old))
    (hroom : (generation old).toNat + 1 < 2 ^ 64)
    (hnewest : ∀ k ≤ n.log.length, ∀ r, row codec p n.log k key = some r → r.gen ≤ generation old) :
    FenceInv codec p { n with
      log := n.log ++ [.SetMetadata key value],
      writes := n.writes ++ [⟨key, metadata.gen, n.log.length⟩] } := by
  have happend := h.append (.SetMetadata key value)
  refine ⟨happend.applied_le, h.built, fun w hw => ?_, fun w hw k hk => ?_⟩
  · rcases List.mem_append.mp hw with hold | hnew
    · exact happend.entry w hold
    · cases List.mem_singleton.mp hnew
      exact ⟨value, List.getElem?_concat_length⟩
  · rcases List.mem_append.mp hw with hold | hnew
    · exact happend.before w hold k hk
    · cases List.mem_singleton.mp hnew
      show stat_gen codec p (n.log ++ [_]) k key < metadata.gen
      rw [stat_gen_append codec p _ hk, hgen]
      exact lt_succ_of_le (stat_gen_le codec p (hnewest k hk)) hroom

theorem FenceInv.step [DecidableEq ι] (hok : ReadsNewest codec p n op)
    (hstep : fence_step codec p n op = some (a, n')) : FenceInv codec p n' := by
  cases op with
  | call replica call =>
    cases hstep
    refine ⟨h.applied_le, fun t ht key old metadata hphase => ?_, h.entry, h.before⟩
    rcases List.mem_append.mp ht with hold | hnew
    · exact h.built t hold key old metadata hphase
    · cases List.mem_singleton.mp hnew
      cases hphase
  | apply r =>
    simp only [fence_step] at hstep
    split_ifs at hstep with hlt
    cases hstep
    refine ⟨fun r' => ?_, h.built, h.entry, h.before⟩
    show Function.update n.applied r (n.applied r + 1) r' ≤ n.log.length
    rcases eq_or_ne r' r with rfl | hne
    · rw [Function.update_self]
      omega
    · rw [Function.update_of_ne hne]
      exact h.applied_le r'
  | commit c =>
    obtain ⟨⟨answer, n₁⟩, hpropose, heq⟩ := map_eq_some_iff.mp hstep
    cases heq
    rw [propose_eq hpropose]
    exact h.append c
  | next i seen late =>
    simp only [fence_step] at hstep
    split at hstep
    · cases hstep
    next t ht =>
    split_ifs at hstep
    cases next_move hstep with
    | turns a phase hserved hbuilt => exact h.set_phase hbuilt
    | waits => exact h
    | proposes a c phase hserved hbuilt =>
      exact (h.append c).set_phase fun key old metadata hphase =>
        absurd hphase (hbuilt key old metadata)
    | publishes key old metadata value hphase =>
      obtain ⟨hroom, hnewest⟩ := hok t ht key old metadata hphase
      have hgen := h.built t (List.mem_of_getElem? ht) key old metadata hphase
      exact (h.write value hgen hroom hnewest).set_phase (by simp)
    | serves required hle => exact h.set_phase (by simp)

omit h

theorem served_sees [DecidableEq ι] {r : ι} {required observed : RevisionToken}
    (hstep : fence_step codec p n op = some (.served r required observed, n')) :
    ∃ k ≤ n.applied r, required.index ≤ stat_gen codec p n.log k required.anchor := by
  cases op with
  | call replica call => cases hstep
  | apply r =>
    simp only [fence_step] at hstep
    split_ifs at hstep
    cases hstep
  | commit c =>
    obtain ⟨⟨answer, n₁⟩, -, heq⟩ := map_eq_some_iff.mp hstep
    cases heq
  | next i seen late =>
    simp only [fence_step] at hstep
    split at hstep
    · cases hstep
    next t ht =>
    split_ifs at hstep with hseen
    generalize ha : Answer.served r required observed = a at hstep
    cases next_move hstep with
    | turns a phase hserved | proposes a c phase hserved =>
      exact absurd ha.symm (hserved r required observed)
    | waits => cases ha
    | publishes => cases ha
    | serves required' hle =>
      cases ha
      exact ⟨seen, hseen, hle⟩

end System

/-! ## Every run -/

/-- **A fence that lets a read through has the write applied**, and with it every earlier entry of
the log, in every run in which each write reads the greatest generation that its path has had. -/
theorem fence_waits_for_the_write {ι : Type} [DecidableEq ι] (codec : MetadataCodec) (p : Protos)
    (ops : List (Op ι)) (answers : List (Answer ι)) (n : Cluster ι)
    (hrun : run (fence_step codec p) Cluster.new ops = some (answers, n))
    (hok : along (fence_step codec p) (ReadsNewest codec p) Cluster.new ops)
    (w : Write) (hw : w ∈ n.writes) (op : Op ι) (r : ι) (observed : RevisionToken) (n' : Cluster ι)
    (hserved : fence_step codec p n op = some (.served r ⟨w.key, w.gen⟩ observed, n')) :
    (∃ value, n.log[w.index]? = some (.SetMetadata w.key value)) ∧ w.index < n.applied r := by
  have hinv : FenceInv codec p n := run_invariant (FenceInv codec p)
    (fun _ _ _ _ h hok hs => h.step hok hs) FenceInv.new hok hrun
  refine ⟨hinv.entry w hw, ?_⟩
  obtain ⟨k, hk, hsees⟩ := served_sees hserved
  by_contra hlate
  have hbefore := hinv.before w hw k (by omega)
  rw [UInt64.lt_iff_toNat_lt] at hbefore
  rw [UInt64.le_iff_toNat_le] at hsees
  dsimp only at hsees
  omega

def newest_check {ι : Type} (codec : MetadataCodec) (p : Protos) (n : Cluster ι) : Op ι → Bool
  | .next i _ _ =>
    match n.threads[i]? with
    | some ⟨_, _, .built key old _⟩ =>
      decide ((generation old).toNat + 1 < 2 ^ 64) &&
        (List.range (n.log.length + 1)).all fun k =>
          (row codec p n.log k key).all fun r => decide (r.gen ≤ generation old)
    | _ => true
  | _ => true

theorem readsNewest_of_check {ι : Type} {codec : MetadataCodec} {p : Protos} (n : Cluster ι)
    (op : Op ι) (h : newest_check codec p n op = true) : ReadsNewest codec p n op := by
  cases op with
  | call replica call => trivial
  | apply replica => trivial
  | commit command => trivial
  | next i seen late =>
    intro t ht key old metadata hphase
    obtain ⟨replica, call, phase⟩ := t
    subst hphase
    rw [newest_check, mem_def.mp ht] at h
    simp only [Bool.and_eq_true, decide_eq_true_eq, List.all_eq_true, List.mem_range,
      all_eq_true] at h
    exact ⟨h.1, fun k hk r hr => h.2 k (by omega) r hr⟩

/-- Replica `true` serves the writes, `false` the fence. -/
def sample_step : Cluster Bool → Op Bool → Option (Answer Bool × Cluster Bool) :=
  fence_step .unreadable flat_protos

/-- A write by thread `i`, which runs where `seen` entries have been applied. -/
def sample_write (replica : Bool) (i seen : ℕ) (content_id : String) : List (Op Bool) :=
  [.call replica (.sys_write "/p" content_id 1), .next i seen false, .next i seen false]

/-- Two writes, applied on both replicas, and a fence with the second one's token. -/
def followed_ops : List (Op Bool) :=
  sample_write true 0 0 "a" ++ [.apply true] ++ sample_write true 1 1 "b" ++
    [.apply true, .apply false, .apply false, .call false (.enforce (some ⟨"/p", 2⟩))]

/-- The same two writes; then the file is removed and written anew, and only the writer applies
that. -/
def recreated_ops : List (Op Bool) :=
  sample_write true 0 0 "a" ++ [.apply true] ++ sample_write true 1 1 "b" ++
    [.apply true, .apply false, .apply false, .call true (.sys_unlink "/p"), .next 2 2 false,
     .next 2 2 false, .next 2 2 false, .apply true] ++ sample_write true 3 3 "c" ++
    [.call false (.enforce (some ⟨"/p", 1⟩))]

/-- A write on a replica that has not applied the one before it. -/
def lagging_ops : List (Op Bool) :=
  sample_write true 0 0 "a" ++ [.apply false] ++ sample_write true 1 0 "b" ++
    [.call false (.enforce (some ⟨"/p", 1⟩))]

/-- After `ops`, the fence of thread `i` passes on replica `false` with the token of `w`. -/
def Passes (ops : List (Op Bool)) (w : Write) (i seen : ℕ) (observed : UInt64) (n : Cluster Bool) :
    Prop :=
  ∃ answers n', run sample_step Cluster.new ops = some (answers, n) ∧ w ∈ n.writes ∧
    sample_step n (.next i seen false) =
      some (.served false ⟨w.key, w.gen⟩ ⟨w.key, observed⟩, n')

def passes (ops : List (Op Bool)) (w : Write) (i seen : ℕ) (observed : UInt64) (applied : ℕ) :
    Bool :=
  (run sample_step Cluster.new ops).any fun q =>
    decide (w ∈ q.2.writes) && decide (q.2.applied false = applied) &&
      (sample_step q.2 (.next i seen false)).any fun s =>
        decide (s.1 = .served false ⟨w.key, w.gen⟩ ⟨w.key, observed⟩)

theorem passes_of_test {ops : List (Op Bool)} {w : Write} {i seen : ℕ} {observed : UInt64}
    {applied : ℕ} (h : passes ops w i seen observed applied = true) :
    ∃ n, Passes ops w i seen observed n ∧ n.applied false = applied := by
  obtain ⟨⟨answers, n⟩, hrun, h⟩ := (any_eq_true _ _).mp h
  obtain ⟨h, hserved⟩ := Bool.and_eq_true_iff.mp h
  obtain ⟨hw, happlied⟩ := Bool.and_eq_true_iff.mp h
  obtain ⟨⟨a, n'⟩, hstep, ha⟩ := (any_eq_true _ _).mp hserved
  obtain rfl : a = _ := of_decide_eq_true ha
  exact ⟨n, ⟨answers, n', hrun, of_decide_eq_true hw, hstep⟩, of_decide_eq_true happlied⟩

theorem fence_waits_for_the_write_followed :
    ∃ n, Passes followed_ops ⟨"/p", 2, 1⟩ 2 2 2 n ∧ 1 < n.applied false := by
  obtain ⟨n, hpasses, -⟩ := @passes_of_test followed_ops ⟨"/p", 2, 1⟩ 2 2 2 2 (by decide +kernel)
  refine ⟨n, hpasses, ?_⟩
  obtain ⟨answers, n', hrun, hw, hserved⟩ := hpasses
  have hok : along sample_step (ReadsNewest .unreadable flat_protos) Cluster.new followed_ops :=
    along_of_check readsNewest_of_check (by decide +kernel)
  exact (fence_waits_for_the_write .unreadable flat_protos followed_ops answers n hrun hok _ hw _
    false _ n' hserved).2

/-- **Where the fence serves a stale node.** A path that is removed and written anew starts at
generation 1 again, below what a replica shows that has not applied the removal; and a write on a
replica that lags repeats the generation of the write it has not seen. -/
theorem fence_serves_before_the_write :
    (∃ n, Passes recreated_ops ⟨"/p", 1, 3⟩ 4 2 2 n ∧ ¬ 3 < n.applied false) ∧
      ∃ n, Passes lagging_ops ⟨"/p", 1, 1⟩ 2 1 1 n ∧ ¬ 1 < n.applied false := by
  obtain ⟨n₁, hpasses₁, happlied₁⟩ :=
    @passes_of_test recreated_ops ⟨"/p", 1, 3⟩ 4 2 2 2 (by decide +kernel)
  obtain ⟨n₂, hpasses₂, happlied₂⟩ :=
    @passes_of_test lagging_ops ⟨"/p", 1, 1⟩ 2 1 1 1 (by decide +kernel)
  exact ⟨⟨n₁, hpasses₁, by omega⟩, n₂, hpasses₂, by omega⟩

end NexusVfs.Fence
