/-
I/O on guarded records: `zone_meta_store/record_guard/io.rs` and the reads of
`state_machine/record_guard/io.rs`.

`begin_record_io` checks that the owner is live, takes a lock on a file of the host
shared and checks again; `try_exclude_retired_record_io` checks that the owner is
retired, tries to take the lock exclusively and checks again. A call is a thread that
goes through these phases, with commands applied in between. Who holds which lock is
read off the phases.
-/
import NexusVfs.Retirement

namespace NexusVfs.RecordIo

open Option Words Text Runs List

/-! ## The domain of a record -/

/-- The directory of the lock files, and the owner. -/
abbrev Domain := String × String

def is_record_io_owner_in_read (s : Store) (path : String) : Bool :=
  record_policy_in_txn s path == some RECORD_IO_OWNER

/-- The owner of a record: the one it is bound to, or itself if it is enrolled. -/
def owner_in_read (s : Store) (record : String) : Except RaftError String :=
  match s.control (.binding record) with
  | some binding =>
    match from_utf8 binding with
    | some owner => .ok owner
    | none => .error (storage_error "invalid utf-8")
  | none =>
    if is_record_io_owner_in_read s record then .ok record
    else .error (.UnsupportedOperation "record has no owner binding")

def live_record_io_domain (dir : String) (s : Store) (record : String) (expected : Bytes) :
    Except RaftError Domain := do
  let owner ← owner_in_read s record
  if ¬ is_record_io_owner_in_read s owner then
    throw (.UnsupportedOperation "record owner I/O is not enrolled")
  else
    let image ← get_versioned_metadata s owner
    if image.version ≠ some expected ∨ (s.control (.retired owner)).isSome then
      throw (.InvalidState "record owner handle is not live")
    else return (dir, owner)

def retired_record_io_domain (dir : String) (s : Store) (owner : String) (terminal_version : Bytes) :
    Except RaftError Domain := do
  if ¬ is_record_io_owner_in_read s owner then
    throw (.UnsupportedOperation "record owner I/O is not enrolled")
  else
    let image ← get_versioned_metadata s owner
    if image.version ≠ some terminal_version ∨ s.control (.retired owner) ≠ some terminal_version then
      throw (.InvalidState "record owner is not retired at the expected revision")
    else return (dir, owner)

def hex (byte : UInt8) : List Char :=
  [Nat.digitChar (byte >>> 4).toNat, Nat.digitChar (byte &&& 15).toNat]

def lock_path (digest : Bytes → Bytes) (domain : Domain) : String :=
  domain.1 ++ "/" ++ String.ofList ((digest (as_bytes domain.2)).flatMap hex)

/-! ## Calls -/

inductive Call where
  | begin_record_io (key : String) (guard_version : Bytes)
  | try_exclude_retired_record_io (key : String) (terminal_version : Bytes)
  deriving DecidableEq

namespace Call

/-- The check that is made before the lock is taken and again under it. -/
def domain (dir : String) (s : Store) : Call → Except RaftError Domain
  | begin_record_io key guard_version => live_record_io_domain dir s key guard_version
  | try_exclude_retired_record_io key terminal_version =>
    retired_record_io_domain dir s key terminal_version

def exclusive : Call → Bool
  | begin_record_io .. => false
  | try_exclude_retired_record_io .. => true

def key : Call → String
  | begin_record_io key _ => key
  | try_exclude_retired_record_io key _ => key

def changed : Call → String
  | begin_record_io .. => "record I/O owner changed during admission"
  | try_exclude_retired_record_io .. => "record I/O owner changed during exclusion"

end Call

inductive IoError where
  | state (error : RaftError)
  | refused (message : String)
  deriving DecidableEq

inductive Phase where
  | called
  | checked (domain : Domain)
  | opened (domain : Domain)
  | locked (domain : Domain)
  /-- The second check passed; the call has not returned yet. -/
  | verified (domain : Domain)
  /-- The second check failed; the file is still open. -/
  | failing (domain : Domain) (error : IoError)
  /-- The call has returned and its guard is alive. -/
  | guarding (domain : Domain)
  | done
  deriving DecidableEq

def Phase.lock : Phase → Option Domain
  | locked domain | verified domain | failing domain _ | guarding domain => some domain
  | _ => none

structure Thread where
  call : Call
  phase : Phase
  deriving DecidableEq

def Thread.holds (digest : Bytes → Bytes) (t : Thread) (path : String) : Bool :=
  t.phase.lock.any fun domain => lock_path digest domain == path

/-! ## A node -/

structure IoNode where
  machine : FullStateMachine
  threads : List Thread

inductive Answer where
  | silent
  | applied (result : CommandResult)
  | error (error : IoError)
  /-- `Ok(None)` of an exclusion. -/
  | blocked
  /-- A guard of `begin_record_io`. -/
  | admitted (key owner : String)
  /-- A guard of `try_exclude_retired_record_io`. -/
  | excluded (owner : String)
  deriving DecidableEq

inductive Op where
  | apply (entry : LogEntry)
  | call (call : Call)
  | next (i : ℕ)
  /-- The operating system fails a thread that opens or locks its file. -/
  | io_error (i : ℕ) (message : String)
  | drop (i : ℕ)

def Call.returned (owner : String) : Call → Answer
  | begin_record_io key _ => .admitted key owner
  | try_exclude_retired_record_io .. => .excluded owner

def Call.recheck (dir : String) (s : Store) (call : Call) (domain : Domain) : Phase :=
  match call.domain dir s with
  | .error error => .failing domain (.state error)
  | .ok domain' =>
    if domain' = domain then .verified domain else .failing domain (.refused call.changed)

/-- One step of a thread. A shared lock waits, so the thread has no step while the file is held
exclusively; an exclusive lock is only tried. -/
def Thread.next (digest : Bytes → Bytes) (dir : String) (n : IoNode) (t : Thread) :
    Option (Answer × Phase) :=
  match t.phase with
  | .called =>
    match t.call.domain dir n.machine.store with
    | .error error => some (.error (.state error), .done)
    | .ok domain => some (.silent, .checked domain)
  | .checked domain => some (.silent, .opened domain)
  | .opened domain =>
    if t.call.exclusive then
      if n.threads.any fun u => u.holds digest (lock_path digest domain) then some (.blocked, .done)
      else some (.silent, .locked domain)
    else if n.threads.any fun u => u.call.exclusive && u.holds digest (lock_path digest domain) then none
    else some (.silent, .locked domain)
  | .locked domain => some (.silent, t.call.recheck dir n.machine.store domain)
  | .verified domain => some (t.call.returned domain.2, .guarding domain)
  | .failing _ error => some (.error error, .done)
  | .guarding _ | .done => none

def IoNode.set_phase (n : IoNode) (i : ℕ) (t : Thread) (phase : Phase) : IoNode :=
  { n with threads := n.threads.set i { t with phase } }

def io_step (codec : MetadataCodec) (digest : Bytes → Bytes) (dir : String) (n : IoNode) :
    Op → Option (Answer × IoNode)
  | .apply entry =>
    (apply_step codec n.machine entry).map fun p => (.applied p.1, { n with machine := p.2 })
  | .call call => some (.silent, { n with threads := n.threads ++ [⟨call, .called⟩] })
  | .next i =>
    n.threads[i]?.bind fun t =>
      (t.next digest dir n).map fun p => (p.1, n.set_phase i t p.2)
  | .io_error i message =>
    n.threads[i]?.bind fun t =>
      match t.phase with
      | .checked _ | .opened _ =>
        some (.error (.refused ("record I/O lifetime: " ++ message)), n.set_phase i t .done)
      | _ => none
  | .drop i =>
    n.threads[i]?.bind fun t =>
      match t.phase with
      | .guarding _ => some (.silent, n.set_phase i t .done)
      | _ => none

/-! ## What a check that passes has seen -/

/-- The record is bound to the owner, or is the owner itself and has the role of one. -/
def Owns (s : Store) (key owner : String) : Prop :=
  (∃ b, s.control (.binding key) = some b ∧ from_utf8 b = some owner) ∨
    (s.control (.binding key) = none ∧ owner = key ∧ is_record_owner_in_txn s key = true)

variable {s s' : Store} {owner : String} {d : Domain} {r : CommandResult} {codec : MetadataCodec}
variable {m m' : FullStateMachine} {e : LogEntry} {digest : Bytes → Bytes} {n n' : IoNode}
variable {t : Thread} {a : Answer} {p : Phase} {op : Op}

variable {key dir : String}

theorem owner_in_read_ok (h : owner_in_read s key = .ok owner) : Owns s key owner := by
  unfold owner_in_read at h
  cases hb : s.control (.binding key) with
  | some b =>
    rw [hb] at h
    dsimp only at h
    cases hu : from_utf8 b with
    | none =>
      rw [hu] at h
      cases h
    | some name =>
      rw [hu] at h
      cases h
      exact .inl ⟨b, hb, hu⟩
  | none =>
    rw [hb] at h
    split_ifs at h with hrole
    cases h
    refine .inr ⟨hb, rfl, ?_⟩
    unfold is_record_io_owner_in_read at hrole
    simp [is_record_owner_in_txn, hrole]

theorem live_record_io_domain_ok {expected : Bytes}
    (h : live_record_io_domain dir s key expected = .ok d) :
    d.1 = dir ∧ Owns s key d.2 ∧ s.control (.retired d.2) = none := by
  obtain ⟨owner, howner, h⟩ := bind_eq_ok.mp h
  split_ifs at h with hrole
  obtain ⟨image, -, h⟩ := bind_eq_ok.mp h
  split_ifs at h with hlive
  cases pure_eq_ok.mp h
  refine ⟨rfl, owner_in_read_ok howner, ?_⟩
  exact not_isSome_iff_eq_none.mp (not_or.mp hlive).2

theorem retired_record_io_domain_ok {terminal : Bytes}
    (h : retired_record_io_domain dir s key terminal = .ok d) :
    d = (dir, key) ∧ s.control (.retired key) = some terminal := by
  unfold retired_record_io_domain at h
  split_ifs at h with hrole
  obtain ⟨image, -, h⟩ := bind_eq_ok.mp h
  split_ifs at h with hmark
  exact ⟨(pure_eq_ok.mp h).symm, not_not.mp (not_or.mp hmark).2⟩

/-! ## Who changes bindings and roles -/

theorem execute_arm_binding {c : Command} (h : execute_arm codec s c = .ok (r, s')) (K : PlainPath) :
    s'.control (.binding K.1) = s.control (.binding K.1) ∨ is_record_owner_in_txn s K.1 = false := by
  by_cases hbound : c.bound_path = some K.1
  · cases c with
    | BindRecordGuard key expected_image guard_key guard_version incarnation =>
      rcases bind_record_guard_ok h with rfl | ⟨-, -, -, -, -, hrole, -⟩
      · exact .inl rfl
      · rw [← some.inj hbound]
        exact .inr hrole
    | _ => cases hbound
  · exact .inl ((execute_arm_frame h).control _ (K.nulFree rfl) hbound)

theorem is_record_owner_iff {K : String} : is_record_owner_in_txn s K = true ↔
    s.control (.policy K) = some RECORD_OWNER ∨ s.control (.policy K) = some RECORD_IO_OWNER := by
  simp [is_record_owner_in_txn, record_policy_in_txn]

theorem write_record_owner (hw : Write s s') (K : PlainPath)
    (h : is_record_owner_in_txn s K.1 = true) : is_record_owner_in_txn s' K.1 = true := by
  rw [is_record_owner_iff] at h ⊢
  cases hw with
  | metadata t => exact h
  | control t hrows =>
    have hpol := hrows (.policy K.1) (K.nulFree rfl)
    rw [show ({ s with control_state := t } : Store).control (.policy K.1) = s.control (.policy K.1)
      from hpol]
    exact h
  | advance key hfresh =>
    rw [control_advance]
    exact h
  | requirement v | binding key guard_key hpath hfree hret hpol
  | retired key token hfree hbind hpol =>
    rw [s.control_put_control_of_ne _ (by simp)]
    exact h
  | policy key v hv =>
    rw [s.control_put_control]
    split_ifs with hkey
    · cases hkey
      rcases hv with ⟨-, hnone⟩ | rfl | rfl
      · rw [hnone] at h
        simp at h
      · exact .inl rfl
      · exact .inr rfl
    · exact h

theorem writes_record_owner (hw : Writes s s') (K : PlainPath)
    (h : is_record_owner_in_txn s K.1 = true) : is_record_owner_in_txn s' K.1 = true := by
  induction hw with
  | refl => exact h
  | tail _ hlast ih => exact write_record_owner hlast K ih

theorem apply_binding (h : apply codec m e.index e.command = .ok (r, m')) (K : PlainPath) :
    m'.store.control (.binding K.1) = m.store.control (.binding K.1) ∨
      is_record_owner_in_txn m.store K.1 = false := by
  rcases apply_store_cases h with heq | ⟨-, -, store, hexec, heq⟩
  · exact .inl (by rw [heq])
  · rw [heq]
    rcases execute_cases hexec with ⟨-, rfl⟩ | ⟨-, -, harm⟩
    · exact .inl rfl
    · exact execute_arm_binding harm K

theorem Owns.apply {K : PlainPath} (howns : Owns m.store K.1 owner) (h : FenceInv m.store)
    (happly : apply codec m e.index e.command = .ok (r, m')) : Owns m'.store K.1 owner := by
  rcases howns with ⟨b, hb, hu⟩ | ⟨hb, hkey, hrole⟩
  · exact .inl ⟨b, (apply_fence h happly).2.binding K b hb, hu⟩
  · right
    refine ⟨?_, hkey, writes_record_owner (apply_writes happly) K hrole⟩
    rcases apply_binding happly K with hsame | hno
    · rw [hsame, hb]
    · rw [hrole] at hno
      cases hno

/-! ## What a step can do -/

inductive Move (digest : Bytes → Bytes) (dir : String) (n : IoNode) (t : Thread) : Answer → Phase → Prop
  | ended (a : Answer) (hadmitted : ∀ key owner, a ≠ .admitted key owner)
      (hexcluded : ∀ owner, a ≠ .excluded owner) : Move digest dir n t a .done
  | check (d : Domain) (h : t.call.domain dir n.machine.store = .ok d) :
      Move digest dir n t .silent (.checked d)
  | opens (d : Domain) (h : t.phase = .checked d) : Move digest dir n t .silent (.opened d)
  /-- Whoever holds the file already shares it. -/
  | lock (d : Domain) (h : t.phase = .opened d)
      (hfree : ∀ u ∈ n.threads, u.holds digest (lock_path digest d) = true →
        t.call.exclusive = false ∧ u.call.exclusive = false) : Move digest dir n t .silent (.locked d)
  | verify (d : Domain) (h : t.phase = .locked d) (hdomain : t.call.domain dir n.machine.store = .ok d) :
      Move digest dir n t .silent (.verified d)
  | fail (d : Domain) (error : IoError) (h : t.phase = .locked d) :
      Move digest dir n t .silent (.failing d error)
  | guard (d : Domain) (h : t.phase = .verified d) :
      Move digest dir n t (t.call.returned d.2) (.guarding d)

theorem next_move (h : t.next digest dir n = some (a, p)) : Move digest dir n t a p := by
  unfold Thread.next at h
  cases hphase : t.phase with
  | called =>
    rw [hphase] at h
    cases hd : t.call.domain dir n.machine.store with
    | error e =>
      rw [hd] at h
      cases h
      exact .ended _ (by simp) (by simp)
    | ok d =>
      rw [hd] at h
      cases h
      exact .check d hd
  | checked d =>
    rw [hphase] at h
    cases h
    exact .opens d hphase
  | opened d =>
    rw [hphase] at h
    dsimp only at h
    split_ifs at h with hex hheld hheld
    · cases h
      exact .ended _ (by simp) (by simp)
    · cases h
      refine .lock d hphase fun u hu hholds => ?_
      exact absurd (any_eq_true.mpr ⟨u, hu, hholds⟩) hheld
    · cases h
      refine .lock d hphase fun u hu hholds => ⟨Bool.eq_false_iff.mpr hex, ?_⟩
      rw [Bool.eq_false_iff]
      intro huex
      exact hheld (any_eq_true.mpr ⟨u, hu, by rw [huex, hholds]; rfl⟩)
  | locked d =>
    rw [hphase] at h
    cases h
    unfold Call.recheck
    cases hd : t.call.domain dir n.machine.store with
    | error e => exact .fail d _ hphase
    | ok d' =>
      dsimp only
      split_ifs with hsame
      · exact .verify d hphase (hsame ▸ hd)
      · exact .fail d _ hphase
  | verified d =>
    rw [hphase] at h
    cases h
    exact .guard d hphase
  | failing d error =>
    rw [hphase] at h
    cases h
    exact .ended _ (by simp) (by simp)
  | guarding d | done =>
    rw [hphase] at h
    cases h

theorem io_step_cases (h : io_step codec digest dir n op = some (a, n')) :
    (∃ (e : LogEntry) (r : CommandResult) (m' : FullStateMachine), a = .applied r ∧
      apply codec n.machine e.index e.command = .ok (r, m') ∧ n' = { n with machine := m' }) ∨
    (∃ call, a = .silent ∧ n' = { n with threads := n.threads ++ [⟨call, .called⟩] }) ∨
    ∃ i t p, n.threads[i]? = some t ∧ Move digest dir n t a p ∧ n' = n.set_phase i t p := by
  cases op with
  | apply e =>
    obtain ⟨⟨r, m'⟩, hstep, heq⟩ := map_eq_some_iff.mp h
    cases heq
    exact .inl ⟨e, r, m', rfl, apply_step_eq_some.mp hstep, rfl⟩
  | call call =>
    cases h
    exact .inr (.inl ⟨call, rfl, rfl⟩)
  | next i =>
    obtain ⟨t, ht, h⟩ := bind_eq_some_iff.mp h
    obtain ⟨⟨a', p⟩, hnext, heq⟩ := map_eq_some_iff.mp h
    cases heq
    exact .inr (.inr ⟨i, t, p, ht, next_move hnext, rfl⟩)
  | io_error i message =>
    obtain ⟨t, ht, h⟩ := bind_eq_some_iff.mp h
    split at h
    case h_3 => cases h
    all_goals
      cases h
      exact .inr (.inr ⟨i, t, .done, ht, .ended _ (by simp) (by simp), rfl⟩)
  | drop i =>
    obtain ⟨t, ht, h⟩ := bind_eq_some_iff.mp h
    split at h
    · cases h
      exact .inr (.inr ⟨i, t, .done, ht, .ended _ (by simp) (by simp), rfl⟩)
    · cases h

/-! ## The invariant -/

def Phase.domain : Phase → Option Domain
  | .checked d | .opened d | .locked d | .verified d | .failing d _ | .guarding d => some d
  | _ => none

def Phase.passed : Phase → Option Domain
  | .verified d | .guarding d => some d
  | _ => none

/-- What the second check of a call has seen and no command takes back. -/
def Passed (s : Store) (d : Domain) : Call → Prop
  | .begin_record_io key _ => ∀ K : PlainPath, K.1 = key → Owns s key d.2
  | .try_exclude_retired_record_io key _ =>
    d.2 = key ∧ ∀ K : PlainPath, K.1 = key → (s.control (.retired key)).isSome

structure ThreadOk (dir : String) (s : Store) (t : Thread) : Prop where
  dir : ∀ d ∈ t.phase.domain, d.1 = dir
  passed : ∀ d ∈ t.phase.passed, Passed s d t.call

structure NodeInv (digest : Bytes → Bytes) (dir : String) (n : IoNode) : Prop where
  fence : FenceInv n.machine.store
  thread : ∀ t ∈ n.threads, ThreadOk dir n.machine.store t
  /-- Of two threads that hold one file, neither holds it exclusively. -/
  locks : ∀ (i j : ℕ) (t u : Thread) (d e : Domain), i ≠ j → n.threads[i]? = some t → n.threads[j]? = some u →
    t.phase.lock = some d → u.phase.lock = some e → lock_path digest d = lock_path digest e →
    t.call.exclusive = false

theorem Passed.apply {call : Call} (h : Passed m.store d call) (hinv : FenceInv m.store)
    (happly : apply codec m e.index e.command = .ok (r, m')) : Passed m'.store d call := by
  cases call with
  | begin_record_io key v =>
    intro K hK
    subst hK
    exact (h K rfl).apply hinv happly
  | try_exclude_retired_record_io key v =>
    refine ⟨h.1, fun K hK => ?_⟩
    subst hK
    obtain ⟨mark, hmark⟩ := isSome_iff_exists.mp (h.2 K rfl)
    rw [(apply_fence hinv happly).2.retired K mark hmark]
    rfl

theorem passed_of_domain {call : Call} (h : call.domain dir s = .ok d) :
    d.1 = dir ∧ Passed s d call := by
  cases call with
  | begin_record_io key v =>
    obtain ⟨hdir, howns, -⟩ := live_record_io_domain_ok h
    exact ⟨hdir, fun _ _ => howns⟩
  | try_exclude_retired_record_io key v =>
    obtain ⟨rfl, hmark⟩ := retired_record_io_domain_ok h
    refine ⟨rfl, rfl, fun _ _ => ?_⟩
    rw [hmark]
    rfl

theorem ThreadOk.move (h : ThreadOk dir n.machine.store t) (hmove : Move digest dir n t a p) :
    ThreadOk dir n.machine.store { t with phase := p } := by
  cases hmove with
  | ended => exact ⟨by simp [Phase.domain], by simp [Phase.passed]⟩
  | check d hd =>
    refine ⟨fun e he => ?_, by simp [Phase.passed]⟩
    cases he
    exact (passed_of_domain hd).1
  | opens d hphase | lock d hphase hfree | fail d error hphase =>
    refine ⟨fun e he => ?_, by simp [Phase.passed]⟩
    cases he
    exact h.dir d (by rw [hphase]; rfl)
  | verify d hphase hd =>
    refine ⟨fun e he => ?_, fun e he => ?_⟩
    · cases he
      exact (passed_of_domain hd).1
    · cases he
      exact (passed_of_domain hd).2
  | guard d hphase =>
    refine ⟨fun e he => ?_, fun e he => ?_⟩
    · cases he
      exact h.dir d (by rw [hphase]; rfl)
    · cases he
      exact h.passed d (by rw [hphase]; rfl)

theorem Move.lock_cases (hmove : Move digest dir n t a p) (hd : p.lock = some d) :
    t.phase.lock = some d ∨ ∀ u ∈ n.threads, u.holds digest (lock_path digest d) = true →
      t.call.exclusive = false ∧ u.call.exclusive = false := by
  cases hmove with
  | ended => cases hd
  | check => cases hd
  | opens => cases hd
  | lock e hphase hfree =>
    cases hd
    exact .inr hfree
  | verify e hphase | fail e error hphase | guard e hphase =>
    cases hd
    rw [hphase]
    exact .inl rfl

theorem Move.returned (hmove : Move digest dir n t a p)
    (ha : (∃ key owner, a = .admitted key owner) ∨ ∃ owner, a = .excluded owner) :
    ∃ d, t.phase = .verified d ∧ p = .guarding d ∧ a = t.call.returned d.2 := by
  cases hmove with
  | ended _ hadmitted hexcluded =>
    rcases ha with ⟨key, owner, rfl⟩ | ⟨owner, rfl⟩
    · exact absurd rfl (hadmitted key owner)
    · exact absurd rfl (hexcluded owner)
  | guard d hphase => exact ⟨d, hphase, rfl, rfl⟩
  | check | opens | lock | verify | fail => simp at ha

theorem Move.admitted (hmove : Move digest dir n t (.admitted key owner) p) :
    ∃ v d, t.call = .begin_record_io key v ∧ t.phase = .verified d ∧ d.2 = owner := by
  obtain ⟨d, hphase, -, ha⟩ := hmove.returned (.inl ⟨key, owner, rfl⟩)
  cases hcall : t.call with
  | try_exclude_retired_record_io key' v =>
    rw [hcall] at ha
    cases ha
  | begin_record_io key' v =>
    rw [hcall] at ha
    obtain ⟨rfl, rfl⟩ := Answer.admitted.inj ha
    exact ⟨v, d, rfl, hphase, rfl⟩

theorem Move.excluded (hmove : Move digest dir n t (.excluded owner) p) :
    ∃ key v d, t.call = .try_exclude_retired_record_io key v ∧ t.phase = .verified d ∧
      p = .guarding d ∧ d.2 = owner := by
  obtain ⟨d, hphase, hp, ha⟩ := hmove.returned (.inr ⟨owner, rfl⟩)
  cases hcall : t.call with
  | begin_record_io key v =>
    rw [hcall] at ha
    cases ha
  | try_exclude_retired_record_io key v =>
    rw [hcall] at ha
    exact ⟨key, v, d, rfl, hphase, hp, (Answer.excluded.inj ha).symm⟩

theorem holds_of_lock {path : String} (h : t.phase.lock = some d)
    (hpath : lock_path digest d = path) : t.holds digest path = true := by
  rw [Thread.holds, h]
  simp [hpath]

theorem getElem?_set_phase {i : ℕ} (ht : n.threads[i]? = some t) (p : Phase) (j : ℕ) :
    (n.set_phase i t p).threads[j]? =
      if i = j then some { t with phase := p } else n.threads[j]? := by
  have hi : i < n.threads.length := (List.getElem?_eq_some_iff.mp ht).1
  rw [IoNode.set_phase, List.getElem?_set]
  split_ifs with hij
  · rfl
  · rfl

theorem mem_set_phase {i : ℕ} {u : Thread} (hu : u ∈ (n.set_phase i t p).threads) :
    u = { t with phase := p } ∨ u ∈ n.threads := by
  rcases mem_or_eq_of_mem_set hu with hold | hnew
  · exact .inr hold
  · exact .inl hnew

theorem NodeInv.step (h : NodeInv digest dir n)
    (hstep : io_step codec digest dir n op = some (a, n')) : NodeInv digest dir n' := by
  rcases io_step_cases hstep with
    ⟨e, r, m', -, happly, rfl⟩ | ⟨call, -, rfl⟩ | ⟨i, t, p, ht, hmove, rfl⟩
  · refine ⟨(apply_fence h.fence happly).1, fun t ht => ?_, h.locks⟩
    exact ⟨(h.thread t ht).dir, fun d hd => ((h.thread t ht).passed d hd).apply h.fence happly⟩
  · refine ⟨h.fence, fun t ht => ?_, ?_⟩
    · rcases mem_append.mp ht with hold | hnew
      · exact h.thread t hold
      · rw [mem_singleton.mp hnew]
        exact ⟨by simp [Phase.domain], by simp [Phase.passed]⟩
    · -- the new thread holds nothing
      have hold : ∀ (i : ℕ) (t : Thread) (d : Domain), (n.threads ++ [⟨call, .called⟩])[i]? = some t → t.phase.lock = some d →
          n.threads[i]? = some t := by
        intro i t d ht hlock
        rw [getElem?_append] at ht
        split_ifs at ht with hi
        · exact ht
        · have hmem := mem_of_getElem? ht
          rw [mem_singleton.mp hmem] at hlock
          cases hlock
      intro i j t u d e hij ht hu htl hul hpath
      exact h.locks i j t u d e hij (hold i t d ht htl) (hold j u e hu hul) htl hul hpath
  · have htmem := mem_of_getElem? ht
    refine ⟨h.fence, fun u hu => ?_, ?_⟩
    · rcases mem_set_phase hu with rfl | hold
      · exact (h.thread t htmem).move hmove
      · exact h.thread u hold
    · intro j k u v d e hjk hu hv hul hvl hpath
      rw [getElem?_set_phase ht] at hu hv
      split_ifs at hu hv with hj hk hk
      · exact absurd (hj.symm.trans hk) hjk
      · -- the moved thread first
        cases hu
        rcases hmove.lock_cases hul with hold | hfree
        · exact h.locks j k t v d e hjk (hj ▸ ht) hv hold hvl hpath
        · exact (hfree v (mem_of_getElem? hv) (holds_of_lock hvl hpath.symm)).1
      · cases hv
        rcases hmove.lock_cases hvl with hold | hfree
        · exact h.locks j k u t d e hjk hu (hk ▸ ht) hul hold hpath
        · exact (hfree u (mem_of_getElem? hu) (holds_of_lock hul hpath)).2
      · exact h.locks j k u v d e hjk hu hv hul hvl hpath

/-! ## After an exclusion -/

/-- The owner is marked, and no admission that passed its check for this owner is still to return. -/
structure Sealed (G : String) (n : IoNode) : Prop where
  mark : (n.machine.store.control (.retired G)).isSome
  none_pending : ∀ t ∈ n.threads, ∀ d, t.call.exclusive = false → t.phase = .verified d → d.2 ≠ G

theorem Sealed.step {G : PlainPath} (h : Sealed G.1 n) (hinv : NodeInv digest dir n)
    (hstep : io_step codec digest dir n op = some (a, n')) : Sealed G.1 n' := by
  rcases io_step_cases hstep with
    ⟨e, r, m', -, happly, rfl⟩ | ⟨call, -, rfl⟩ | ⟨i, t, p, ht, hmove, rfl⟩
  · obtain ⟨mark, hmark⟩ := isSome_iff_exists.mp h.mark
    refine ⟨?_, h.none_pending⟩
    show (m'.store.control (.retired G.1)).isSome
    rw [(apply_fence hinv.fence happly).2.retired G mark hmark]
    rfl
  · refine ⟨h.mark, fun t ht d hex hphase => ?_⟩
    rcases mem_append.mp ht with hold | hnew
    · exact h.none_pending t hold d hex hphase
    · rw [mem_singleton.mp hnew] at hphase
      cases hphase
  · refine ⟨h.mark, fun u hu d hex hphase => ?_⟩
    rcases mem_set_phase hu with rfl | hold
    · -- the check under the lock is the only way there, and it looks for the mark
      subst hphase
      cases hmove with
      | verify _ _ hdomain =>
        cases hcall : t.call with
        | try_exclude_retired_record_io key v =>
          rw [hcall] at hex
          cases hex
        | begin_record_io key v =>
          rw [hcall] at hdomain
          obtain ⟨-, -, hlive⟩ := live_record_io_domain_ok hdomain
          intro heq
          have hmark := h.mark
          rw [← heq, hlive] at hmark
          cases hmark
    · exact h.none_pending u hold d hex hphase

/-- A returned exclusion seals its owner: it still holds the file, so no admission is between its
second check and its return. -/
theorem Sealed.of_excluded {G : PlainPath} (hinv : NodeInv digest dir n)
    (hstep : io_step codec digest dir n op = some (.excluded G.1, n')) : Sealed G.1 n' := by
  rcases io_step_cases hstep with
    ⟨e, r, m', hanswer, -, -⟩ | ⟨call, hanswer, -⟩ | ⟨i, t, p, ht, hmove, rfl⟩
  · cases hanswer
  · cases hanswer
  · obtain ⟨key, v, d, hcall, hphase, rfl, hG⟩ := hmove.excluded
    have hok := hinv.thread t (mem_of_getElem? ht)
    have hpassed := hok.passed d (by rw [hphase]; rfl)
    rw [hcall] at hpassed
    obtain ⟨hkey, hmark⟩ := hpassed
    refine ⟨?_, fun u hu e hex huphase heq => ?_⟩
    · have hmarked := hmark G (hG.symm.trans hkey)
      rw [← hkey, hG] at hmarked
      exact hmarked
    · rcases mem_set_phase hu with rfl | hold
      · cases huphase
      · obtain ⟨j, hj⟩ := mem_iff_getElem?.mp hold
        -- both threads work on the file of this owner
        have hde : d = e := by
          refine Prod.ext ?_ (hG.trans heq.symm)
          rw [hok.dir d (by rw [hphase]; rfl),
            (hinv.thread u hold).dir e (by rw [huphase]; rfl)]
        have hij : i ≠ j := by
          rintro rfl
          rw [ht] at hj
          cases hj
          rw [hcall] at hex
          cases hex
        have hshared := hinv.locks i j t u d e hij ht hj (by rw [hphase]; rfl)
          (by rw [huphase]; rfl) (by rw [hde])
        rw [hcall] at hshared
        cases hshared

theorem NodeInv.init (h : Reachable codec m) (digest : Bytes → Bytes) (dir : String) :
    NodeInv digest dir ⟨m, []⟩ := by
  obtain ⟨entries, results, hrun⟩ := h
  exact ⟨fence_reachable hrun, by simp, by simp⟩

theorem NodeInv.run {ops : List Op} {answers : List Answer} (h : NodeInv digest dir n)
    (hrun : Runs.run (io_step codec digest dir) n ops = some (answers, n')) :
    NodeInv digest dir n' :=
  have hany : along (io_step codec digest dir) (fun _ _ => True) n ops :=
    along_of_forall_mem fun _ _ _ => trivial
  run_invariant (NodeInv digest dir) (fun _ _ _ _ hinv _ hs => hinv.step hs) h hany hrun

/-- **Retired records admit no I/O.** Let a node run from any reachable store. While a guard of an
exclusion is alive, no guard of an admission of the same owner is. And once an exclusion of an owner
has been returned, whatever is admitted later has another owner: it is not this owner's record, and
not a record bound to it. -/
theorem retired_records_admit_no_io (codec : MetadataCodec) (digest : Bytes → Bytes) (dir : String)
    (m : FullStateMachine) (hm : Reachable codec m) (ops : List Op) (answers : List Answer) (n : IoNode)
    (hrun : Runs.run (io_step codec digest dir) ⟨m, []⟩ ops = some (answers, n)) :
    (∀ t ∈ n.threads, ∀ u ∈ n.threads, ∀ d e, t.call.exclusive = true → t.phase = .guarding d →
      u.call.exclusive = false → u.phase = .guarding e → d.2 ≠ e.2) ∧
    ∀ G : PlainPath, .excluded G.1 ∈ answers →
      ∀ op key owner n', io_step codec digest dir n op = some (.admitted key owner, n') →
        owner ≠ G.1 ∧ key ≠ G.1 ∧
          ∀ K : PlainPath, K.1 = key → n.machine.store.control (.binding key) ≠ some (as_bytes G.1) := by
  have hinit := NodeInv.init hm digest dir
  have hinv := hinit.run hrun
  refine ⟨?_, ?_⟩
  · intro t ht u hu d e hexclusive hguard hshared hguard' heq
    obtain ⟨i, hi⟩ := mem_iff_getElem?.mp ht
    obtain ⟨j, hj⟩ := mem_iff_getElem?.mp hu
    have hij : i ≠ j := by
      rintro rfl
      rw [hi] at hj
      cases hj
      rw [hexclusive] at hshared
      cases hshared
    have hde : d = e := by
      refine Prod.ext ?_ heq
      rw [(hinv.thread t ht).dir d (by rw [hguard]; rfl),
        (hinv.thread u hu).dir e (by rw [hguard']; rfl)]
    have hfalse := hinv.locks i j t u d e hij hi hj (by rw [hguard]; rfl) (by rw [hguard']; rfl)
      (by rw [hde])
    rw [hexclusive] at hfalse
    cases hfalse
  · intro G hG op key owner n' hstep
    -- the run up to the exclusion, and the rest of it
    obtain ⟨before, i, after, _, _, n₁, n₂, -, hbefore, hexclusion, hafter⟩ := run_answer hrun hG
    have hinv₁ := hinit.run hbefore
    have hany : along (io_step codec digest dir) (fun _ _ => True) n₂ after :=
      along_of_forall_mem fun _ _ _ => trivial
    have hsealed : NodeInv digest dir n ∧ Sealed G.1 n := by
      refine run_invariant (fun n => NodeInv digest dir n ∧ Sealed G.1 n) ?_
        ⟨hinv₁.step hexclusion, .of_excluded hinv₁ hexclusion⟩ hany hafter
      intro s op r s' h _ hs
      exact ⟨h.1.step hs, h.2.step h.1 hs⟩
    obtain ⟨-, hsealed⟩ := hsealed
    rcases io_step_cases hstep with
      ⟨e, r, m', hanswer, -, -⟩ | ⟨call, hanswer, -⟩ | ⟨j, t, p, ht, hmove, rfl⟩
    · cases hanswer
    · cases hanswer
    · obtain ⟨v, d, hcall, hphase, rfl⟩ := hmove.admitted
      have htmem := mem_of_getElem? ht
      have howner : d.2 ≠ G.1 := hsealed.none_pending t htmem d (by rw [hcall]; rfl) hphase
      have hpassed := (hinv.thread t htmem).passed d (by rw [hphase]; rfl)
      rw [hcall] at hpassed
      refine ⟨howner, ?_, ?_⟩
      · intro hkey
        -- a retired owner is bound to nobody, so it could only be its own
        obtain ⟨mark, hmark⟩ := isSome_iff_exists.mp hsealed.mark
        have hfree := (hinv.fence.retired G mark hmark).2
        rcases hpassed G hkey.symm with ⟨b, hb, -⟩ | ⟨-, hself, -⟩
        · rw [hkey, hfree] at hb
          cases hb
        · exact howner (hself.trans hkey)
      · intro K hK hbound
        rcases hpassed K hK with ⟨b, hb, hutf⟩ | ⟨hnone, -, -⟩
        · rw [hb] at hbound
          rw [some.inj hbound, from_utf8_as_bytes] at hutf
          exact howner (some.inj hutf).symm
        · rw [hnone] at hbound
          cases hbound

def enrolled : List LogEntry :=
  [⟨1, .SetMetadata "/g" [9]⟩,
   ⟨2, .AdoptProtectedMetadata "/g" (some [9]) sample_incarnation⟩,
   ⟨3, .AdmitRecordIoOwner "/g" (be 23 0 ++ [1])⟩,
   ⟨4, .BindRecordGuard "/k" none "/g" (be 23 0 ++ [1]) sample_incarnation⟩]

/-- I/O on the record begins and ends, the owner is retired and then excluded. -/
def excluded_after_io : List Op :=
  [.call (.begin_record_io "/k" (be 23 0 ++ [1])), .next 0, .next 0, .next 0, .next 0, .next 0,
   .drop 0, .apply ⟨5, .RetireRecordGuard "/g" (be 23 0 ++ [1]) [] sample_incarnation⟩,
   .call (.try_exclude_retired_record_io "/g" (be 23 0 ++ [2])), .next 1, .next 1, .next 1, .next 1,
   .next 1]

theorem retired_records_admit_no_io_after_exclusion :
    ∃ m answers n, Reachable .unreadable m ∧
      Runs.run (io_step .unreadable id "io") ⟨m, []⟩ excluded_after_io = some (answers, n) ∧
      .admitted "/k" "/g" ∈ answers ∧ .excluded "/g" ∈ answers ∧
      ∀ op owner n', io_step .unreadable id "io" n op ≠ some (.admitted "/k" owner, n') := by
  have heval : (Runs.run (apply_step .unreadable) .fresh enrolled).any (fun p =>
      (Runs.run (io_step .unreadable id "io") ⟨p.2, []⟩ excluded_after_io).any fun q =>
        decide (.admitted "/k" "/g" ∈ q.1) && decide (.excluded "/g" ∈ q.1) &&
        decide (q.2.machine.store.control (.binding "/k") = some (as_bytes "/g"))) = true := by
    decide +kernel
  obtain ⟨⟨results, m⟩, hsetup, heval⟩ := (any_eq_true _ _).mp heval
  obtain ⟨⟨answers, n⟩, hrun, heval⟩ := (any_eq_true _ _).mp heval
  simp only [Bool.and_eq_true, decide_eq_true_eq] at heval
  obtain ⟨⟨hadmitted, hexcluded⟩, hbound⟩ := heval
  have hm : Reachable .unreadable m := ⟨enrolled, results, hsetup⟩
  refine ⟨m, answers, n, hm, hrun, hadmitted, hexcluded, fun op owner n' hstep => ?_⟩
  have hafter := (retired_records_admit_no_io .unreadable id "io" m hm excluded_after_io answers n
    hrun).2 ⟨"/g", by decide⟩ hexcluded op "/k" owner n' hstep
  exact hafter.2.2 ⟨"/k", by decide⟩ rfl hbound

end NexusVfs.RecordIo
