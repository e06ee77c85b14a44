/-
A file under conditional replacement is a compare-and-set register.

The register law is one equation: the versions the committed replacements expected,
followed by the current one, are `none` followed by the versions they committed. That
the generation grows is a matter of the snapshot: a replacement that commits over a
version its snapshot did not show takes the generation of an older row.
-/
import NexusVfs.ConditionalContent
import Mathlib.Data.List.Chain
import Mathlib.Data.Option.Basic

namespace NexusVfs.ConditionalContent

open List Words Text Runs Cas Cas.Engine Actions

/-! ## What a step can do -/

structure SameRows (m m' : FullStateMachine) : Prop where
  metadata : ∀ K, K ≠ KEY_LAST_APPLIED → m'.store.metadata.get K = m.store.metadata.get K
  control : ∀ c, m'.store.control c = m.store.control c

structure Replaced (m m' : FullStateMachine) (key : String) (value token : Bytes) : Prop where
  metadata : ∀ K, K ≠ KEY_LAST_APPLIED →
    m'.store.metadata.get K = if K = key then some value else m.store.metadata.get K
  control : ∀ c, m'.store.control c =
    if c = .revision key ∨ c = .allocator then some token else m.store.control c

theorem decode_result_refused {r : CommandResult} (h : r.refused = true) (v : Bytes) :
    decode_result r ≠ .committed v := by
  cases r with
  | ConditionalMetadata committed current =>
    cases committed with
    | true => cases h
    | false => simp [decode_result]
  | _ => simp [decode_result]

section Publish

variable {codec : MetadataCodec} {p : Protos} {z : Zone} {key : String}
  {expected : Option Bytes} {incarnation : Incarnation} {metadata : FileMetadata}

theorem publish_of_ok (content : Buffer) {r : CommandResult} {m' : FullStateMachine}
    (h : apply codec z.machine (z.machine.last_applied + 1)
      (.WriteVersionedMetadata key (p.kernel_to_proto metadata) expected incarnation) = .ok (r, m'))
    (hr : ∀ v, decode_result r ≠ .committed v) :
    publish codec p z key content expected incarnation metadata =
      (decode_result r, { z with machine := m' }) := by
  unfold publish
  rw [h]
  dsimp only
  split
  · next v heq => exact absurd heq (hr v)
  · rfl

theorem publish_ne_content {content : Buffer} {key' : String} {bytes version : Bytes} :
    (publish codec p z key content expected incarnation metadata).1 ≠ .content key' bytes version := by
  unfold publish
  split
  · simp
  · next r m' _ =>
      dsimp only
      unfold decode_result
      split <;> split
      all_goals first | (split <;> simp) | simp

theorem publish_cases (codec : MetadataCodec) (p : Protos) (z : Zone) (key : String) (content : Buffer)
    (expected : Option Bytes) (incarnation : Incarnation) (metadata : FileMetadata) :
    (∃ a m', SameRows z.machine m' ∧ (∀ v, a ≠ .committed v) ∧
      publish codec p z key content expected incarnation metadata = (a, { z with machine := m' })) ∨
    ∃ image token m',
      versioned_image (metadata_in_txn z.machine.store key) (revision_in_txn z.machine.store key) =
        .ok image ∧ image.version = expected ∧ Fresh z.machine.store (some incarnation) token ∧
      Replaced z.machine m' key (p.kernel_to_proto metadata) token ∧
      publish codec p z key content expected incarnation metadata = (.committed token, { z with
        machine := m', history := z.history ++ [⟨key, expected, token, content.1, metadata.gen⟩] }) := by
  have hmarker (s : NexusVfs.Store) (index : UInt64) (K : String) (hK : K ≠ KEY_LAST_APPLIED) :
      (put_marker s index).metadata.get K = s.metadata.get K := by
    rw [put_marker, Store.metadata_put_metadata, Table.get_insert_of_ne _ _ hK]
  cases happly : apply codec z.machine (z.machine.last_applied + 1)
      (.WriteVersionedMetadata key (p.kernel_to_proto metadata) expected incarnation) with
  | error error =>
    refine .inl ⟨.error (map_error error), z.machine, ⟨fun _ _ => rfl, fun _ => rfl⟩, by simp, ?_⟩
    unfold publish
    rw [happly]
  | ok result =>
    obtain ⟨r, m'⟩ := result
    rcases apply_cases rfl happly with ⟨-, rfl, rfl⟩ | ⟨-, store, hexec, rfl⟩
    · refine .inl ⟨_, _, ⟨fun _ _ => rfl, fun _ => rfl⟩, ?_, publish_of_ok content happly ?_⟩ <;>
        simp [decode_result]
    · have hrefused (hr : r.refused = true) (hs : store = z.machine.store) : ∃ a m',
          SameRows z.machine m' ∧ (∀ v, a ≠ .committed v) ∧
          publish codec p z key content expected incarnation metadata =
            (a, { z with machine := m' }) := by
        subst hs
        have hpublish := publish_of_ok content happly (decode_result_refused hr)
        refine ⟨_, _, ⟨fun K hK => ?_, fun c => ?_⟩, decode_result_refused hr, hpublish⟩
        · exact hmarker _ _ K hK
        · rfl
      rcases execute_cases hexec with ⟨hr, hs⟩ | ⟨-, -, harm⟩
      · exact .inl (hrefused hr hs)
      rcases write_versioned_ok harm with ⟨hr, hs⟩ | ⟨-, image, token, himage, hexp, hfresh, rfl, rfl⟩
      · exact .inl (hrefused hr hs)
      refine .inr ⟨image, token, _, himage, hexp, hfresh,
        ⟨fun K hK => ?_, fun c => control_advance _ _ _ _⟩, by unfold publish; rw [happly]; rfl⟩
      rw [hmarker _ _ K hK, Store.metadata_put_metadata, Table.get_insert, metadata_advance]

end Publish

inductive Move (codec : MetadataCodec) (p : Protos) (e : Engine) (policy : MembershipPolicy) (z : Zone)
    (i : ℕ) (t : Thread) : Answer → Zone → Prop
  | ended (a : Answer) (hcontent : ∀ key content version, a ≠ .content key content version)
      (hconflict : ∀ v, a ≠ .conflict v) : Move codec p e policy z i t a (z.set_phase i t .done)
  | snapshots (key : String) (old : Option MetadataSnapshot)
      (hkey : t.call = .read_versioned_content key ∨
        ∃ content expected incarnation,
          t.call = .replace_content_if_version key content expected incarnation)
      (h : read_versioned p policy z.machine.store key = .ok old) :
      Move codec p e policy z i t .silent (z.set_phase i t (.snapshotted old))
  | stage_fails (content : Buffer) (error : ConditionalContentError) :
      Move codec p e policy z i t (.error error)
        ({ z with blobs := (e.write_content content.1 z.blobs).2 }.set_phase i t .done)
  | stages (key : String) (content : Buffer) (expected : Option Bytes) (incarnation : Incarnation)
      (old : Option MetadataSnapshot) (content_id : String)
      (hcall : t.call = .replace_content_if_version key content expected incarnation)
      (hphase : t.phase = .snapshotted old)
      (h : (e.write_content content.1 z.blobs).1 = .ok content_id) :
      Move codec p e policy z i t .silent
        ({ z with blobs := (e.write_content content.1 z.blobs).2 }.set_phase i t (.staged old
          (replacement_file_metadata key content_id content.1.length
            (old.map MetadataSnapshot.metadata))))
  | publishes (key : String) (content : Buffer) (expected : Option Bytes) (incarnation : Incarnation)
      (old : Option MetadataSnapshot) (metadata : FileMetadata) (a : Answer)
      (hcall : t.call = .replace_content_if_version key content expected incarnation)
      (hphase : t.phase = .staged old metadata)
      (ha : a = outcome_unknown ∨
        a = (publish codec p z key content expected incarnation metadata).1) :
      Move codec p e policy z i t a
        ((publish codec p z key content expected incarnation metadata).2.set_phase i t .done)
  | reads (key : String) (old : MetadataSnapshot) (content : Bytes)
      (hcall : t.call = .read_versioned_content key) (hphase : t.phase = .snapshotted (some old))
      (h : read_immutable_content e z.blobs old.metadata = .ok content) :
      Move codec p e policy z i t (.content key content old.version) (z.set_phase i t .done)

variable {p : Protos} {policy : MembershipPolicy} {z z' : Zone} {old : Option MetadataSnapshot}
variable {codec : MetadataCodec} {e : Engine} {i : ℕ} {t : Thread} {a : Answer} {op : Op}
variable {s s' : Cas.Store} {c : Commit} {K : String} {m' : FullStateMachine} {content : Bytes}
variable {image : VersionedMetadata}

variable {key id : String} {row : FileMetadata} {cs cs' : List Commit} {phase : Phase}
variable {m : FullStateMachine} {token version : Bytes} {incarnation : Incarnation}

theorem snapshot_ok (h : snapshot p policy z key = .ok old) :
    read_versioned p policy z.machine.store key = .ok old := by
  unfold snapshot at h
  split at h
  · cases h
  · exact h

theorem next_move {lost : Bool} (h : t.next codec p e policy z i lost = some (a, z')) :
    Move codec p e policy z i t a z' := by
  unfold Thread.next at h
  split at h
  case h_1 key content expected incarnation hcall hphase =>
      cases hold : snapshot p policy z key with
      | error error =>
        rw [hold] at h
        cases h
        exact .ended _ (by simp) (by simp)
      | ok old =>
        rw [hold] at h
        dsimp only at h
        split_ifs at h
        · cases h
          exact .ended _ (by simp) (by simp)
        · cases h
          exact .snapshots key old (.inr ⟨content, expected, incarnation, hcall⟩) (snapshot_ok hold)
  case h_2 key content expected incarnation old hcall hphase =>
      cases hwrite : e.write_content content.1 z.blobs with
      | mk result blobs =>
        have hblobs : (e.write_content content.1 z.blobs).2 = blobs := by rw [hwrite]
        cases result with
        | error error =>
          rw [hwrite] at h
          cases h
          rw [← hblobs]
          exact .stage_fails content _
        | ok content_id =>
          rw [hwrite] at h
          cases h
          rw [← hblobs]
          exact .stages key content expected incarnation old content_id hcall hphase (by rw [hwrite])
  case h_3 key content expected incarnation old metadata hcall hphase =>
      cases h
      refine .publishes key content expected incarnation old metadata _ hcall hphase ?_
      cases lost with
      | true => exact .inl rfl
      | false => exact .inr rfl
  case h_4 key hcall hphase =>
      cases hold : snapshot p policy z key with
      | error error =>
        rw [hold] at h
        cases h
        exact .ended _ (by simp) (by simp)
      | ok old =>
        rw [hold] at h
        cases old with
        | none =>
          cases h
          exact .ended _ (by simp) (by simp)
        | some old =>
          cases h
          exact .snapshots key (some old) (.inl hcall) (snapshot_ok hold)
  case h_5 key old hcall hphase =>
      cases hread : read_immutable_content e z.blobs old.metadata with
      | error error =>
        rw [hread] at h
        cases h
        exact .ended _ (by simp) (by simp)
      | ok content =>
        rw [hread] at h
        cases h
        exact .reads key old content hcall hphase hread
  case h_6 => cases h

theorem content_step_cases (h : content_step codec p e policy z op = some (a, z')) :
    (∃ call, op = .call call ∧ a = .silent ∧
      z' = { z with threads := z.threads ++ [⟨call, .called⟩] }) ∨
    ∃ i lost t, op = .next i lost ∧ z.threads[i]? = some t ∧ Move codec p e policy z i t a z' := by
  cases op with
  | call call =>
    cases h
    exact .inl ⟨call, rfl, rfl, rfl⟩
  | next i lost =>
    obtain ⟨t, ht, h⟩ := Option.bind_eq_some_iff.mp h
    exact .inr ⟨i, lost, t, rfl, ht, next_move h⟩

/-! ## The register -/

def Zone.commits (z : Zone) (K : String) : List Commit := z.history.filter fun c => c.key == K

def current (cs : List Commit) : Option Bytes := cs.getLast?.map Commit.version

/-- The row points at the content of the replacement. -/
structure Shows (e : Engine) (s : Cas.Store) (c : Commit) (row : FileMetadata) : Prop where
  gen : row.gen = c.gen
  size : row.size = UInt64.ofNat c.content.length
  short : c.content.length < MAX_VEC
  saved : ∃ id, row.content_id = some id ∧ Saved e c.content id s

/-- The file is what its last replacement made it. -/
def Holds (p : Protos) (e : Engine) (z : Zone) (K : String) : Prop :=
  match (z.commits K).getLast? with
  | none => z.machine.store.metadata.get K = none
  | some c => ∃ row, z.machine.store.metadata.get K = some (p.kernel_to_proto row) ∧
      z.machine.store.control (.revision K) = some c.version ∧ Shows e z.blobs c row

/-- The snapshot shows one of the replacements. -/
def Dated (e : Engine) (s : Cas.Store) (cs : List Commit) (old : Option MetadataSnapshot) : Prop :=
  ∀ snap ∈ old, ∃ c ∈ cs, snap.version = c.version ∧ Shows e s c snap.metadata

def ThreadOk (e : Engine) (s : Cas.Store) (cs : List Commit) (K : String) (t : Thread) : Prop :=
  match t.call, t.phase with
  | .read_versioned_content key, .snapshotted old => key = K → Dated e s cs old
  | .replace_content_if_version key _ _ _, .snapshotted old => key = K → Dated e s cs old
  | .replace_content_if_version key content _ _, .staged old metadata =>
    key = K → Dated e s cs old ∧ ∃ id, Saved e content.1 id s ∧
      metadata = replacement_file_metadata K id content.1.length (old.map MetadataSnapshot.metadata)
  | _, _ => True

structure RegInv (p : Protos) (e : Engine) (K : String) (z : Zone) : Prop where
  blobs : StoreInv e z.blobs
  row : Holds p e z K
  issued : ∀ c ∈ z.history, revisions.issued z.machine.store c.version
  versions : (z.history.map Commit.version).Nodup
  /-- Each replacement expected the version before it. -/
  register : (z.commits K).map Commit.expected ++ [current (z.commits K)] =
    none :: (z.commits K).map fun c => some c.version
  thread : ∀ t ∈ z.threads, ThreadOk e z.blobs (z.commits K) K t

/-! ### Stability -/

theorem Shows.mono (h : Shows e s c row) (hle : Extends s s') : Shows e s' c row := by
  obtain ⟨id, hid, hsaved⟩ := h.saved
  exact ⟨h.gen, h.size, h.short, id, hid, stable_saved e c.content id s s' hle hsaved⟩

theorem Dated.mono (h : Dated e s cs old) (hle : Extends s s')
    (hsub : ∀ c ∈ cs, c ∈ cs') : Dated e s' cs' old := by
  intro snap hsnap
  obtain ⟨c, hc, hversion, hshows⟩ := h snap hsnap
  exact ⟨c, hsub c hc, hversion, hshows.mono hle⟩

theorem ThreadOk.mono (h : ThreadOk e s cs K t) (hle : Extends s s') (hsub : ∀ c ∈ cs, c ∈ cs') :
    ThreadOk e s' cs' K t := by
  unfold ThreadOk at h ⊢
  split
  case h_1 hcall hphase | h_2 hcall hphase =>
    simp only [hcall, hphase] at h
    exact fun hkey => (h hkey).mono hle hsub
  · next hcall hphase =>
      simp only [hcall, hphase] at h
      intro hkey
      obtain ⟨hdated, id, hsaved, hmetadata⟩ := h hkey
      exact ⟨hdated.mono hle hsub, id, stable_saved e _ id s s' hle hsaved, hmetadata⟩
  · trivial

theorem threadOk_done (e : Engine) (s : Cas.Store) (cs : List Commit) (K : String) (call : Call) :
    ThreadOk e s cs K ⟨call, .done⟩ := by
  cases call <;> trivial

theorem mem_set_phase {u : Thread} (hu : u ∈ (z.set_phase i t phase).threads) :
    u = { t with phase } ∨ u ∈ z.threads := by
  rcases mem_or_eq_of_mem_set hu with hold | hnew
  · exact .inr hold
  · exact .inl hnew

theorem RegInv.moves {blobs : Cas.Store} (h : RegInv p e K z)
    (hK : K ≠ KEY_LAST_APPLIED) (hsame : SameRows z.machine m') (hinv : StoreInv e blobs)
    (hle : Extends z.blobs blobs) (hthread : ThreadOk e blobs (z.commits K) K { t with phase }) :
    RegInv p e K ({ z with machine := m', blobs }.set_phase i t phase) := by
  have hcommits : ({ z with machine := m', blobs }.set_phase i t phase).commits K = z.commits K := rfl
  refine ⟨hinv, ?_, fun c hc => ?_, h.versions, h.register, fun u hu => ?_⟩
  · have hrow := h.row
    unfold Holds at hrow ⊢
    rw [hcommits]
    cases hlast : (z.commits K).getLast? with
    | none =>
      rw [hlast] at hrow
      exact (hsame.metadata K hK).trans hrow
    | some c =>
      rw [hlast] at hrow
      obtain ⟨row, hmeta, hrev, hshows⟩ := hrow
      exact ⟨row, (hsame.metadata K hK).trans hmeta, (hsame.control _).trans hrev, hshows.mono hle⟩
  · obtain ⟨last, hlast, hcount⟩ := h.issued c hc
    exact ⟨last, (hsame.control _).trans hlast, hcount⟩
  · rw [hcommits]
    rcases mem_set_phase hu with rfl | hold
    · exact hthread
    · exact (h.thread u hold).mono hle fun _ hc => hc

/-! ### Snapshots -/

theorem content_id_ne_empty (he : Lawful e) (h : Saved e content id s) : id ≠ "" := by
  have hhash : ∃ b, id = e.hash_content b := by
    unfold Saved at h
    split at h
    · exact ⟨_, h.1⟩
    · exact ⟨_, h.1⟩
  obtain ⟨b, rfl⟩ := hhash
  intro hempty
  have hlength := he.hash_length b
  rw [hempty] at hlength
  cases hlength

theorem read_versioned_ok {s : NexusVfs.Store}
    (h : read_versioned p policy s key = .ok old) {snap : MetadataSnapshot} (hsnap : snap ∈ old) :
    ∃ value, s.metadata.get key = some value ∧ s.control (.revision key) = some snap.version ∧
      p.proto_to_kernel value = .ok snap.metadata := by
  unfold read_versioned at h
  split_ifs at h
  split at h
  case h_1 => cases h
  case h_2 =>
      cases h
      cases hsnap
  case h_3 value version hget =>
      split at h
      · cases h
      · next metadata hdecode =>
          cases h
          cases hsnap
          obtain ⟨admitted, -, hget⟩ := bind_eq_ok.mp hget
          split_ifs at hget
          obtain ⟨hvalue, -, hversion⟩ := versioned_image_some hget rfl
          exact ⟨value, hvalue.symm, hversion, hdecode⟩
  case h_4 => cases h

theorem dated_of_read (hp : p.Documented) (he : Lawful e) (hrow : Holds p e z K)
    (h : read_versioned p policy z.machine.store K = .ok old) :
    Dated e z.blobs (z.commits K) old := by
  intro snap hsnap
  obtain ⟨value, hvalue, hversion, hdecode⟩ := read_versioned_ok h hsnap
  unfold Holds at hrow
  cases hlast : (z.commits K).getLast? with
  | none =>
    rw [hlast] at hrow
    rw [hrow] at hvalue
    cases hvalue
  | some c =>
    rw [hlast] at hrow
    obtain ⟨row, hmeta, hrev, hshows⟩ := hrow
    refine ⟨c, mem_of_getLast? hlast, ?_, ?_⟩
    · rw [hrev] at hversion
      exact (Option.some.inj hversion).symm
    · rw [hmeta] at hvalue
      cases Option.some.inj hvalue
      obtain ⟨id, hid, hsaved⟩ := hshows.saved
      have hne : row.content_id ≠ some "" := by
        rw [hid]
        intro heq
        exact content_id_ne_empty he hsaved (Option.some.inj heq)
      rw [hp row hne] at hdecode
      rw [← Except.ok.inj hdecode]
      exact hshows

/-! ### Commits -/

theorem current_append (cs : List Commit) (c : Commit) : current (cs ++ [c]) = some c.version := by
  simp [current]

theorem expected_eq_current (h : Holds p e z K)
    (himage : versioned_image (metadata_in_txn z.machine.store K)
      (revision_in_txn z.machine.store K) = .ok image) : image.version = current (z.commits K) := by
  unfold Holds at h
  unfold current
  cases hlast : (z.commits K).getLast? with
  | none =>
    rw [hlast] at h
    rw [metadata_in_txn, h] at himage
    cases himage
    rfl
  | some c =>
    rw [hlast] at h
    obtain ⟨row, hmeta, hrev, -⟩ := h
    rw [metadata_in_txn, hmeta, revision_in_txn, hrev, versioned_image] at himage
    split_ifs at himage
    cases himage
    rfl

theorem issued_replaced {value : Bytes} (h : Replaced m m' key value token)
    (hfresh : Fresh m.store (some incarnation) token) :
    revisions.issued m'.store token ∧
      ∀ v, revisions.issued m.store v → revisions.issued m'.store v := by
  -- only the allocator's row matters, and it is the one `advance` writes
  have hrow : m'.store.control .allocator = (advance m.store key token).control .allocator := by
    rw [h.control, control_advance]
  have hmove (v : Bytes) (hv : revisions.issued (advance m.store key token) v) :
      revisions.issued m'.store v := by
    obtain ⟨last, hlast, hcount⟩ := hv
    exact ⟨last, hrow.trans hlast, hcount⟩
  obtain ⟨hnew, hold⟩ := issued_advance hfresh key
  exact ⟨hmove token hnew, fun v hv => hmove v (hold v hv)⟩

theorem RegInv.commit {content : Buffer} {expected : Option Bytes}
    {metadata : FileMetadata} (h : RegInv p e K z) (hK : K ≠ KEY_LAST_APPLIED)
    (hcall : t.call = .replace_content_if_version key content expected incarnation)
    (hphase : t.phase = .staged old metadata) (ht : t ∈ z.threads)
    (himage : versioned_image (metadata_in_txn z.machine.store key)
      (revision_in_txn z.machine.store key) = .ok image) (hexp : image.version = expected)
    (hfresh : Fresh z.machine.store (some incarnation) token)
    (hreplaced : Replaced z.machine m' key (p.kernel_to_proto metadata) token) :
    RegInv p e K ({ z with machine := m', history := z.history ++
      [(⟨key, expected, token, content.1, metadata.gen⟩ : Commit)] }.set_phase i t .done) := by
  obtain ⟨hissued, hissuedold⟩ := issued_replaced hreplaced hfresh
  have hnew : token ∉ z.history.map Commit.version := by
    intro hmem
    obtain ⟨c, hc, rfl⟩ := mem_map.mp hmem
    exact hfresh.not_issued (h.issued c hc)
  have hcommits : ({ z with machine := m', history := z.history ++
      [(⟨key, expected, token, content.1, metadata.gen⟩ : Commit)] }.set_phase i t .done).commits K =
      z.commits K ++ if key = K then [(⟨key, expected, token, content.1, metadata.gen⟩ : Commit)] else [] := by
    unfold Zone.commits Zone.set_phase
    by_cases hkey : key = K <;> simp [hkey]
  have hsub : ∀ c ∈ z.commits K, c ∈ z.commits K ++ if key = K then
      [(⟨key, expected, token, content.1, metadata.gen⟩ : Commit)] else [] :=
    fun c hc => mem_append_left _ hc
  have hrefl : Extends z.blobs z.blobs := refl_of Extends z.blobs
  refine ⟨h.blobs, ?_, fun c hc => ?_, ?_, ?_, fun u hu => ?_⟩
  · unfold Holds
    rw [hcommits]
    by_cases hkey : key = K
    · subst hkey
      rw [if_pos rfl, getLast?_concat]
      have hok := h.thread t ht
      unfold ThreadOk at hok
      rw [hcall, hphase] at hok
      obtain ⟨-, id, hsaved, hmetadata⟩ := hok rfl
      refine ⟨metadata, ?_, ?_, ⟨rfl, ?_, content.2, id, ?_, hsaved⟩⟩
      · exact (hreplaced.metadata key hK).trans (if_pos rfl)
      · exact (hreplaced.control _).trans (if_pos (.inl rfl))
      · rw [hmetadata]
        rfl
      · rw [hmetadata]
        rfl
    · rw [if_neg hkey, append_nil]
      have hrow := h.row
      unfold Holds at hrow
      have hmeta := (hreplaced.metadata K hK).trans (if_neg (Ne.symm hkey))
      have hrev := (hreplaced.control (.revision K)).trans (if_neg (by simp [Ne.symm hkey]))
      cases hlast : (z.commits K).getLast? with
      | none =>
        rw [hlast] at hrow
        exact hmeta.trans hrow
      | some c =>
        rw [hlast] at hrow
        obtain ⟨row, hold, hversion, hshows⟩ := hrow
        exact ⟨row, hmeta.trans hold, hrev.trans hversion, hshows⟩
  · rcases mem_append.mp hc with hold | hlast
    · exact hissuedold _ (h.issued c hold)
    · rw [mem_singleton.mp hlast]
      exact hissued
  · show ((z.history ++ [_]).map Commit.version).Nodup
    rw [map_append, nodup_append]
    refine ⟨h.versions, pairwise_singleton _ _, fun v hv w hw heq => ?_⟩
    rw [map_singleton, mem_singleton] at hw
    rw [heq, hw] at hv
    exact hnew hv
  · rw [hcommits]
    by_cases hkey : key = K
    · subst hkey
      rw [if_pos rfl, current_append, map_append, map_append, ← cons_append,
        ← h.register, ← hexp, expected_eq_current h.row himage]
      rfl
    · rw [if_neg hkey, append_nil]
      exact h.register
  · rw [hcommits]
    rcases mem_set_phase hu with rfl | hold
    · exact threadOk_done e _ _ K _
    · exact (h.thread u hold).mono hrefl hsub

theorem SameRows.refl (m : FullStateMachine) : SameRows m m := ⟨fun _ _ => rfl, fun _ => rfl⟩

theorem RegInv.step (hp : p.Documented) (he : Lawful e) (hK : K ≠ KEY_LAST_APPLIED)
    (h : RegInv p e K z) (hstep : content_step codec p e policy z op = some (a, z')) :
    RegInv p e K z' := by
  have hrefl : Extends z.blobs z.blobs := refl_of Extends z.blobs
  rcases content_step_cases hstep with ⟨call, -, -, rfl⟩ | ⟨i, lost, t, -, ht, hmove⟩
  · refine ⟨h.blobs, h.row, h.issued, h.versions, h.register, fun u hu => ?_⟩
    rcases mem_append.mp hu with hold | hnew
    · exact h.thread u hold
    · rw [mem_singleton.mp hnew]
      cases call <;> trivial
  · have htmem := mem_of_getElem? ht
    have hok := h.thread t htmem
    cases hmove with
    | ended | reads => exact h.moves hK (.refl _) h.blobs hrefl (threadOk_done e _ _ K _)
    | snapshots key old hkey hread =>
      refine h.moves hK (.refl _) h.blobs hrefl ?_
      rcases hkey with hcall | ⟨content, expected, incarnation, hcall⟩
      all_goals
        rw [hcall]
        rintro rfl
        exact dated_of_read hp he h.row hread
    | stage_fails content error =>
      obtain ⟨hinv, hle, -⟩ := triple_write_content he content.2 z.blobs h.blobs trivial
      exact h.moves hK (.refl _) hinv hle (threadOk_done e _ _ K _)
    | stages key content expected incarnation old id hcall hphase hwrite =>
      obtain ⟨hinv, hle, hsaved⟩ := triple_write_content he content.2 z.blobs h.blobs trivial
      refine h.moves hK (.refl _) hinv hle ?_
      unfold ThreadOk at hok ⊢
      rw [hcall, hphase] at hok
      rw [hcall]
      rintro rfl
      exact ⟨(hok rfl).mono hle fun _ hc => hc, id, hsaved id hwrite, rfl⟩
    | publishes key content expected incarnation old metadata a hcall hphase ha =>
      rcases publish_cases codec p z key content expected incarnation metadata with
        ⟨a', m', hsame, -, hpublish⟩ | ⟨image, token, m', himage, hexp, hfresh, hreplaced, hpublish⟩
      · rw [hpublish]
        exact h.moves hK hsame h.blobs hrefl (threadOk_done e _ _ K _)
      · rw [hpublish]
        exact h.commit hK hcall hphase htmem himage hexp hfresh hreplaced

/-! ## Reads -/

theorem read_shown (he : Lawful e) (hmin : MinPieces e) (hinv : StoreInv e s)
    (hdistinct : Distinct e s.written) (hshows : Shows e s c row)
    (h : read_immutable_content e s row = .ok content) : content = c.content := by
  obtain ⟨id, hid, hsaved⟩ := hshows.saved
  unfold read_immutable_content at h
  rw [hid] at h
  split_ifs at h
  dsimp only at h
  by_cases hlarge : CDC_THRESHOLD_BYTES < c.content.length ∧
      MANIFEST_LIMIT ≤ manifest_size c.content (e.cut c.content)
  · obtain ⟨hlarge, hlimit⟩ := hlarge
    rw [saved_reads_manifest he hinv hdistinct hshows.short hlarge hlimit hsaved] at h
    dsimp only at h
    split_ifs at h with hsize
    -- the manifest would be returned, but the row has the content's length
    rw [hshows.size, length_manifest_of_cut he hlarge hshows.short, not_not] at hsize
    have hshort := hshows.short
    rw [MAX_VEC] at hshort
    have hlt := manifest_size_lt hmin (he.flatten_cut c.content) hlarge hshort
    have hnat := congrArg UInt64.toNat hsize
    rw [UInt64.toNat_ofNat_of_lt' (by rw [UInt64.size]; omega),
      UInt64.toNat_ofNat_of_lt' (by rw [UInt64.size]; omega)] at hnat
    omega
  · have hmanifest (hl : CDC_THRESHOLD_BYTES < c.content.length) :
        manifest_size c.content (e.cut c.content) < MANIFEST_LIMIT :=
      Nat.lt_of_not_le fun hlimit => hlarge ⟨hl, hlimit⟩
    rw [saved_reads_content he hinv hdistinct hshows.short hmanifest hsaved] at h
    dsimp only at h
    split_ifs at h
    exact (Except.ok.inj h).symm

theorem read_returns (he : Lawful e) (hmin : MinPieces e) (h : RegInv p e K z)
    (hdistinct : Distinct e z.blobs.written)
    (hstep : content_step codec p e policy z op = some (.content K content version, z')) :
    ∃ c ∈ z.commits K, c.version = version ∧ c.content = content := by
  rcases content_step_cases hstep with ⟨call, -, ha, -⟩ | ⟨i, lost, t, -, ht, hmove⟩
  · cases ha
  · generalize ha : Answer.content K content version = a at hmove
    cases hmove with
    | ended _ hcontent => exact absurd ha.symm (hcontent K content version)
    | snapshots => cases ha
    | stage_fails => cases ha
    | stages => cases ha
    | publishes key _ expected incarnation old metadata a _ _ hanswer =>
      rcases hanswer with rfl | rfl
      · cases ha
      · exact absurd ha.symm publish_ne_content
    | reads key old bytes hcall hphase hread =>
      cases ha
      have hok := h.thread t (mem_of_getElem? ht)
      unfold ThreadOk at hok
      rw [hcall, hphase] at hok
      obtain ⟨c, hc, hversion, hshows⟩ := hok rfl old rfl
      refine ⟨c, hc, hversion.symm, ?_⟩
      exact (read_shown he hmin h.blobs hdistinct hshows hread).symm

/-! ## Conflicts -/

theorem conflict_changes_nothing {v : Option Bytes}
    (hstep : content_step codec p e policy z op = some (.conflict v, z')) :
    z'.history = z.history ∧ z'.blobs = z.blobs ∧ SameRows z.machine z'.machine := by
  rcases content_step_cases hstep with ⟨call, -, ha, -⟩ | ⟨i, lost, t, -, ht, hmove⟩
  · cases ha
  · generalize ha : Answer.conflict v = a at hmove
    cases hmove with
    | ended _ _ hconflict => exact absurd ha.symm (hconflict v)
    | snapshots | stage_fails | stages | reads => cases ha
    | publishes key content expected incarnation old metadata a hcall hphase hanswer =>
      rcases publish_cases codec p z key content expected incarnation metadata with
        ⟨a', m', hsame, -, hpublish⟩ | ⟨image, token, m', -, -, -, -, hpublish⟩
      · rw [hpublish]
        exact ⟨rfl, rfl, hsame⟩
      · -- a command that committed does not answer with a conflict
        rw [hpublish] at hanswer
        rcases hanswer with rfl | rfl
        · cases ha
        · cases ha

/-! ## Generations -/

def current_version (s : NexusVfs.Store) (key : String) : Option Bytes :=
  if (metadata_in_txn s key).isSome then revision_in_txn s key else none

theorem image_version {s : NexusVfs.Store}
    (h : versioned_image (metadata_in_txn s key) (revision_in_txn s key) = .ok image) :
    image.version = current_version s key := by
  unfold versioned_image at h
  unfold current_version
  cases hvalue : metadata_in_txn s key with
  | none =>
    rw [hvalue] at h
    cases h
    rfl
  | some value =>
    rw [hvalue] at h
    cases hversion : revision_in_txn s key with
    | none =>
      rw [hversion] at h
      cases h
    | some version =>
      rw [hversion] at h
      dsimp only at h
      split_ifs at h
      cases h
      rfl

/-- A replacement that meets the version it expects has seen it, with room for a generation. -/
def SnapshotOk (z : Zone) : Op → Prop
  | .next i _ => ∀ t ∈ z.threads[i]?, ∀ key content expected incarnation old metadata,
      t.call = .replace_content_if_version key content expected incarnation →
      t.phase = .staged old metadata → current_version z.machine.store key = expected →
      old.map MetadataSnapshot.version = expected ∧ ∀ snap ∈ old, snap.metadata.gen.toNat + 1 < 2 ^ 64
  | .call _ => True

theorem lt_saturating_succ {g : UInt64} (h : g.toNat + 1 < 2 ^ 64) : g < saturating_succ g := by
  rw [saturating_succ, if_pos h, UInt64.lt_iff_toNat_lt, UInt64.toNat_add]
  have hone : (1 : UInt64).toNat = 1 := rfl
  rw [hone]
  omega

theorem commit_unique (h : RegInv p e K z) {d : Commit} (hc : c ∈ z.history) (hd : d ∈ z.history)
    (hversion : c.version = d.version) : c = d :=
  inj_on_of_nodup_map h.versions hc hd hversion

theorem gen_lt_of_seen (h : RegInv p e K z) (hdated : Dated e z.blobs (z.commits K) old)
    {last : Commit} (hlast : (z.commits K).getLast? = some last)
    (hseen : old.map MetadataSnapshot.version = some last.version)
    (hroom : ∀ snap ∈ old, snap.metadata.gen.toNat + 1 < 2 ^ 64) {path : String} {size : ℕ} :
    last.gen < (replacement_file_metadata path id size (old.map MetadataSnapshot.metadata)).gen := by
  obtain ⟨snap, rfl, hsnap⟩ := Option.map_eq_some_iff.mp hseen
  obtain ⟨shown, hshown, hversion, hshows⟩ := hdated snap rfl
  have hlastmem := mem_of_getLast? hlast
  have heq : shown = last := commit_unique h (mem_of_mem_filter hshown)
    (mem_of_mem_filter hlastmem) (hversion.symm.trans hsnap)
  rw [← heq, ← hshows.gen]
  exact lt_saturating_succ (hroom snap rfl)

/-- Each generation of the file is greater than the one before it. -/
structure GenInv (p : Protos) (e : Engine) (K : String) (z : Zone) : Prop where
  reg : RegInv p e K z
  gens : (z.commits K).IsChain fun c d => c.gen < d.gen

theorem GenInv.step (hp : p.Documented) (he : Lawful e) (hK : K ≠ KEY_LAST_APPLIED)
    (h : GenInv p e K z) (hok : SnapshotOk z op)
    (hstep : content_step codec p e policy z op = some (a, z')) : GenInv p e K z' := by
  refine ⟨h.reg.step hp he hK hstep, ?_⟩
  rcases content_step_cases hstep with ⟨call, -, -, rfl⟩ | ⟨i, lost, t, rfl, ht, hmove⟩
  · exact h.gens
  · cases hmove with
    | ended | snapshots | stage_fails | stages | reads => exact h.gens
    | publishes key content expected incarnation old metadata a hcall hphase ha =>
      rcases publish_cases codec p z key content expected incarnation metadata with
        ⟨a', m', -, -, hpublish⟩ | ⟨image, token, m', himage, hexp, -, -, hpublish⟩
      · rw [hpublish]
        exact h.gens
      · rw [hpublish]
        show (filter _ (z.history ++ [_])).IsChain _
        rw [filter_append]
        by_cases hkey : key = K
        swap
        · -- another file's replacement is not in the list
          rw [filter_singleton, beq_eq_false_iff_ne.mpr hkey, cond_false, append_nil]
          exact h.gens
        subst hkey
        have hversion := (image_version himage).symm.trans hexp
        obtain ⟨hseen, hroom⟩ := hok t ht key content expected incarnation old metadata hcall hphase
          hversion
        have hthread := h.reg.thread t (mem_of_getElem? ht)
        unfold ThreadOk at hthread
        rw [hcall, hphase] at hthread
        obtain ⟨hdated, id, -, hmetadata⟩ := hthread rfl
        rw [filter_singleton, beq_self_eq_true]
        refine isChain_append.mpr ⟨h.gens, isChain_singleton _, fun last hlast d hd => ?_⟩
        cases Option.mem_some.mp hd
        -- what is replaced is the last replacement, and the snapshot has shown it
        have hexpected : expected = some last.version := by
          rw [← hexp, expected_eq_current h.reg.row himage, current,
            show (z.commits key).getLast? = some last from hlast]
          rfl
        show last.gen < metadata.gen
        rw [hmetadata]
        exact gen_lt_of_seen h.reg hdated hlast (hseen.trans hexpected) hroom

/-! ## Every run -/

def Zone.init (m : FullStateMachine) (faults : List (Option String)) : Zone :=
  ⟨m, Store.fresh faults, [], []⟩

theorem regInv_init (p : Protos) (e : Engine) (faults : List (Option String))
    (hm : m.store.metadata.get K = none) : RegInv p e K (.init m faults) :=
  ⟨storeInv_fresh e faults, hm, by simp [Zone.init], by simp [Zone.init], rfl, by simp [Zone.init]⟩

theorem ne_marker_of_valid (h : validate_path_fast K = none) : K ≠ KEY_LAST_APPLIED := by
  rintro rfl
  revert h
  decide +kernel

/-- **Conditional replacement is a compare-and-set register**, for any number of calls in any
interleaving and a disk that may refuse any write. A read that returns a version returns what its
replacement had written; no two replacements of a file committed with the same expected version,
absence included; a conflict changes no file; and if each replacement that meets the version it
expects has seen it, the generations grow. -/
theorem conditional_content_is_a_register (codec : MetadataCodec) (p : Protos) (hp : p.Documented)
    (e : Engine) (he : Lawful e) (hmin : MinPieces e) (policy : MembershipPolicy)
    (m : FullStateMachine) (faults : List (Option String)) (K : String) (hK : validate_path_fast K = none)
    (hm : m.store.metadata.get K = none) (ops : List Op) (answers : List Answer) (z : Zone)
    (hrun : run (content_step codec p e policy) (.init m faults) ops = some (answers, z)) :
    (Distinct e z.blobs.written → ∀ op content version z',
      content_step codec p e policy z op = some (.content K content version, z') →
      ∃ c ∈ z.commits K, c.version = version ∧ c.content = content ∧
        ∀ d ∈ z.commits K, d.version = version → d = c) ∧
    ((z.commits K).map Commit.expected).Nodup ∧
    (∀ op v z', content_step codec p e policy z op = some (.conflict v, z') →
      z'.history = z.history ∧ z'.blobs = z.blobs ∧ SameRows z.machine z'.machine) ∧
    (along (content_step codec p e policy) SnapshotOk (.init m faults) ops →
      (z.commits K).Pairwise fun c d => c.gen < d.gen) := by
  have hmarker := ne_marker_of_valid hK
  have hany : along (content_step codec p e policy) (fun _ _ => True) (.init m faults) ops :=
    along_of_forall_mem fun _ _ _ => trivial
  have hreg : RegInv p e K z := run_invariant (RegInv p e K)
    (fun _ _ _ _ h _ hs => h.step hp he hmarker hs) (regInv_init p e faults hm) hany hrun
  refine ⟨fun hdistinct op content version z' hstep => ?_, ?_, ?_, fun hseen => ?_⟩
  · obtain ⟨c, hc, hversion, hcontent⟩ := read_returns he hmin hreg hdistinct hstep
    refine ⟨c, hc, hversion, hcontent, fun d hd hdversion => ?_⟩
    exact commit_unique hreg (mem_of_mem_filter hd) (mem_of_mem_filter hc)
      (hdversion.trans hversion.symm)
  · -- the expected versions are an initial part of a list without duplicates
    have hversions : ((z.commits K).map fun c => some c.version).Nodup := by
      have hsub : ((z.commits K).map Commit.version).Nodup :=
        (filter_sublist.map Commit.version).nodup hreg.versions
      have hmap := hsub.map (Option.some_injective Bytes)
      rwa [map_map] at hmap
    have hall : (none :: (z.commits K).map fun c => some c.version).Nodup :=
      nodup_cons.mpr ⟨by simp, hversions⟩
    rw [← hreg.register] at hall
    exact (nodup_append.mp hall).1
  · exact fun op v z' hstep => conflict_changes_nothing hstep
  · have hgens := (run_invariant (GenInv p e K) (fun _ _ _ _ h hok hs => h.step hp he hmarker hok hs)
      ⟨regInv_init p e faults hm, isChain_nil⟩ hseen hrun).gens
    exact isChain_iff_pairwise.mp hgens

/-! ## Closed runs -/

def sample_replace (content : Buffer) (expected : Option Bytes) : Op :=
  .call (.replace_content_if_version sample_path.1 content expected sample_incarnation)

/-- Two replacements, each of what it has seen, and a read up to its snapshot. -/
def sample_ops : List Op :=
  [sample_replace ⟨[1], by decide⟩ none, .next 0 false, .next 0 false, .next 0 false,
   sample_replace ⟨[3], by decide⟩ (some (be 23 0 ++ [1])), .next 1 false, .next 1 false,
   .next 1 false, .call (.read_versioned_content sample_path.1), .next 2 false]

/-- The second replacement names the version that the third is going to commit, and takes its snapshot
before. -/
def stale_ops : List Op :=
  [sample_replace ⟨[1], by decide⟩ none, .next 0 false, .next 0 false, .next 0 false,
   sample_replace ⟨[2], by decide⟩ (some (be 23 0 ++ [2])), .next 1 false, .next 1 false,
   sample_replace ⟨[3], by decide⟩ (some (be 23 0 ++ [1])), .next 2 false, .next 2 false,
   .next 2 false, .next 1 false]

def sample_step : Zone → Op → Option (Answer × Zone) :=
  content_step .unreadable flat_protos block_engine .FixedLocal

def snapshot_check (z : Zone) : Op → Bool
  | .next i _ =>
    match z.threads[i]? with
    | some ⟨.replace_content_if_version key _ expected _, .staged old _⟩ =>
      decide (current_version z.machine.store key ≠ expected) ||
        (decide (old.map MetadataSnapshot.version = expected) &&
          old.all fun snap => decide (snap.metadata.gen.toNat + 1 < 2 ^ 64))
    | _ => true
  | .call _ => true

theorem snapshotOk_of_check (z : Zone) (op : Op) (h : snapshot_check z op = true) :
    SnapshotOk z op := by
  cases op with
  | call call => trivial
  | next i lost =>
    intro t ht key content expected incarnation old metadata hcall hphase hcurrent
    obtain ⟨call, phase⟩ := t
    subst hcall hphase
    rw [snapshot_check, Option.mem_def.mp ht] at h
    simpa [hcurrent, Option.all_eq_true] using h

def returns (a : Answer) (content version : Bytes) : Bool :=
  match a with
  | .content key bytes v => decide (key = sample_path.1 ∧ bytes = content ∧ v = version)
  | _ => false

theorem returns_iff (h : returns a content version = true) :
    a = .content sample_path.1 content version := by
  cases a with
  | content key bytes v =>
    obtain ⟨rfl, rfl, rfl⟩ := of_decide_eq_true h
    rfl
  | silent | error | absent | committed | conflict => cases h

theorem conditional_content_is_a_register_two_writers :
    ∃ answers z c, run sample_step (.init .fresh []) sample_ops = some (answers, z) ∧
      c ∈ z.commits sample_path.1 ∧ c.version = be 23 0 ++ [2] ∧ c.content = [3] ∧
      ((z.commits sample_path.1).map Commit.expected).Nodup ∧
      (z.commits sample_path.1).Pairwise fun c d => c.gen < d.gen := by
  obtain ⟨answers, z, hrun, hwritten, hread⟩ := run_decides sample_step (.init .fresh []) sample_ops
    (fun _ z => (∀ x ∈ z.blobs.written, ∀ y ∈ z.blobs.written,
        block_engine.hash_content x = block_engine.hash_content y → x = y) ∧
      ((sample_step z (.next 2 false)).any fun q => returns q.1 [3] (be 23 0 ++ [2])) = true)
    (by decide +kernel)
  have hdistinct : Distinct block_engine z.blobs.written := by simpa [Distinct] using hwritten
  obtain ⟨⟨a, z'⟩, hstep, ha⟩ := (Option.any_eq_true _ _).mp hread
  obtain rfl : a = _ := returns_iff ha
  have hseen : along sample_step SnapshotOk (.init .fresh []) sample_ops :=
    along_of_check snapshotOk_of_check (by decide +kernel)
  obtain ⟨hreads, hnodup, -, hgens⟩ := conditional_content_is_a_register .unreadable flat_protos
    flat_protos_documented block_engine lawful_block_engine minPieces_block_engine .FixedLocal .fresh []
    sample_path.1 (by decide +kernel) (by decide +kernel) sample_ops answers z hrun
  obtain ⟨c, hc, hversion, hcontent, -⟩ := hreads hdistinct _ _ _ _ hstep
  exact ⟨answers, z, c, hrun, hc, hversion, hcontent, hnodup, hgens hseen⟩

/-- **A generation that does not grow.** The second replacement commits over a version that its
snapshot did not show, and takes the generation that version already had. -/
theorem stale_snapshot_repeats_generation :
    flat_protos.Documented ∧ Lawful block_engine ∧ MinPieces block_engine ∧
      validate_path_fast sample_path.1 = none ∧
      ∃ answers z, run sample_step (.init .fresh []) stale_ops = some (answers, z) ∧
        (z.commits sample_path.1).map Commit.expected =
          [none, some (be 23 0 ++ [1]), some (be 23 0 ++ [2])] ∧
        (z.commits sample_path.1).map Commit.gen = [1, 2, 2] ∧
        ¬ (z.commits sample_path.1).Pairwise fun c d => c.gen < d.gen := by
  refine ⟨flat_protos_documented, lawful_block_engine, minPieces_block_engine, by decide +kernel, ?_⟩
  refine exists_run (fun _ z => (z.commits sample_path.1).map Commit.expected =
      [none, some (be 23 0 ++ [1]), some (be 23 0 ++ [2])] ∧
    (z.commits sample_path.1).map Commit.gen = [1, 2, 2]) (by decide +kernel) ?_
  rintro answers z - ⟨hexpected, hgen⟩
  refine ⟨hexpected, hgen, fun hgens => ?_⟩
  have hpair : ((z.commits sample_path.1).map Commit.gen).Pairwise (· < ·) :=
    pairwise_map.mpr hgens
  rw [hgen] at hpair
  revert hpair
  decide

/-! ## One chain -/

theorem RegInv.expected_at (h : RegInv p e K z) (hc : (z.commits K)[i]? = some c) :
    c.expected = current ((z.commits K).take i) := by
  -- the register equation at position `i`
  obtain ⟨hi, -⟩ := List.getElem?_eq_some_iff.mp hc
  have hat := congrArg (·[i]?) h.register
  rw [getElem?_append_left (by rwa [length_map]), getElem?_map, hc] at hat
  cases i with
  | zero => exact Option.some.inj hat
  | succ n =>
    have hlast : ((z.commits K).take (n + 1)).getLast? = (z.commits K)[n]? := by
      rw [getLast?_eq_getElem?, length_take, Nat.min_eq_left hi.le, Nat.add_sub_cancel,
        getElem?_take_of_lt (Nat.lt_succ_self n)]
    rw [getElem?_cons_succ, getElem?_map] at hat
    unfold current
    rw [hlast]
    cases hn : (z.commits K)[n]? with
    | none =>
      rw [hn] at hat
      cases hat
    | some d =>
      rw [hn] at hat
      exact Option.some.inj hat

/-- **No replacement is lost.** For any number of calls in any interleaving, with a disk that may
refuse any write and replies that may be lost: each replacement of a file that committed was made
over the version of the one before it, the first over absence, and the file is always what the last
of them made it. -/
theorem replacements_form_one_chain (codec : MetadataCodec) (p : Protos) (hp : p.Documented)
    (e : Engine) (he : Lawful e) (policy : MembershipPolicy) (m : FullStateMachine)
    (faults : List (Option String)) (K : String) (hK : validate_path_fast K = none)
    (hm : m.store.metadata.get K = none) (ops : List Op) (answers : List Answer) (z : Zone)
    (hrun : run (content_step codec p e policy) (.init m faults) ops = some (answers, z)) :
    (∀ i c, (z.commits K)[i]? = some c → c.expected = current ((z.commits K).take i)) ∧
      Holds p e z K := by
  have hmarker := ne_marker_of_valid hK
  have hany : along (content_step codec p e policy) (fun _ _ => True) (.init m faults) ops :=
    along_of_forall_mem fun _ _ _ => trivial
  have hreg : RegInv p e K z := run_invariant (RegInv p e K)
    (fun _ _ _ _ h _ hs => h.step hp he hmarker hs) (regInv_init p e faults hm) hany hrun
  exact ⟨fun _ _ hc => hreg.expected_at hc, hreg.row⟩

/-- Three replacements, of which the last took its snapshot before the second committed. -/
theorem replacements_form_one_chain_stale :
    ∃ answers z, run sample_step (.init .fresh []) stale_ops = some (answers, z) ∧
      (z.commits sample_path.1).length = 3 ∧
      (∀ i c, (z.commits sample_path.1)[i]? = some c →
        c.expected = current ((z.commits sample_path.1).take i)) ∧
      Holds flat_protos block_engine z sample_path.1 := by
  refine exists_run (fun _ z => (z.commits sample_path.1).length = 3) (by decide +kernel) ?_
  intro answers z hrun hlength
  exact ⟨hlength, replacements_form_one_chain .unreadable flat_protos flat_protos_documented
    block_engine lawful_block_engine .FixedLocal .fresh [] sample_path.1 (by decide +kernel)
    (by decide +kernel) stale_ops answers z hrun⟩

end NexusVfs.ConditionalContent
