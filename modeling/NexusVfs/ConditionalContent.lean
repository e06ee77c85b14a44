/-
Conditional replacement of a file's content: `kernel/conditional_content.rs` over
`zone_meta_store/conditional.rs`.

A replacement reads a snapshot of the file's row, writes the new content, builds the new
row from the snapshot and submits it with the version its caller expects, which is
compared where the command is applied. Calls run side by side, so each is a thread that
goes through these phases. Only a zone with fixed local membership answers, so there is
one state machine. No step reads `history`.
-/
import NexusVfs.CasRoundTrip
import NexusVfs.Revisions

namespace NexusVfs.ConditionalContent

open Words Text Runs Cas List

/-! ## Rows -/

/-- The fields of a row that conditional content reads. -/
structure FileMetadata where
  path : String
  size : UInt64
  content_id : Option String
  gen : UInt64
  version : UInt32
  entry_type : UInt8
  deriving DecidableEq

def DT_REG : UInt8 := 0

/-- The encoding of a row, a prost message. -/
structure Protos where
  kernel_to_proto : FileMetadata → Bytes
  proto_to_kernel : Bytes → Except String FileMetadata

/-- A message that was encoded is decoded again; an empty content identifier stands for none. -/
def Protos.Documented (p : Protos) : Prop :=
  ∀ m : FileMetadata, m.content_id ≠ some "" → p.proto_to_kernel (p.kernel_to_proto m) = .ok m

/-! ## Rows in fixed widths

An encoding with which runs can be evaluated. -/

/-- A text that ends itself. -/
def delimited : List Char → Bytes
  | [] => [0]
  | c :: cs => 1 :: be 4 c.toNat ++ delimited cs

def undelimited : Bytes → Option (List Char × Bytes)
  | 0 :: rest => some ([], rest)
  | _ :: a :: b :: c :: d :: rest =>
    (undelimited rest).map fun p => (Char.ofNat (ofBe [a, b, c, d]) :: p.1, p.2)
  | _ => none

theorem undelimited_delimited (cs : List Char) (rest : Bytes) :
    undelimited (delimited cs ++ rest) = some (cs, rest) := by
  induction cs with
  | nil => rfl
  | cons c cs ih =>
    have hsmall : c.toNat < 256 ^ 4 := by
      have hval := c.val.toNat_lt
      show c.val.toNat < 256 ^ 4
      omega
    obtain ⟨x, y, z, w, hbe⟩ : ∃ x y z w, be 4 c.toNat = [x, y, z, w] := ⟨_, _, _, _, rfl⟩
    rw [delimited, hbe]
    show (undelimited (delimited cs ++ rest)).map _ = _
    rw [ih, Option.map_some, ← hbe, ofBe_be hsmall, Char.ofNat_toNat]

/-- A row in fixed widths, then its path, then its content identifier. -/
def flat_protos : Protos where
  kernel_to_proto m :=
    be 8 m.size.toNat ++ (be 8 m.gen.toNat ++ (be 4 m.version.toNat ++ (be 1 m.entry_type.toNat ++
      (delimited m.path.toList ++ delimited (m.content_id.getD "").toList))))
  proto_to_kernel bytes :=
    match undelimited (bytes.drop 21) with
    | none => .error "path"
    | some (path, rest) =>
      match undelimited rest with
      | none => .error "content_id"
      | some (id, _) => .ok
        { path := String.ofList path
          size := UInt64.ofNat (ofBe (bytes.take 8))
          content_id := if id = [] then none else some (String.ofList id)
          gen := UInt64.ofNat (ofBe ((bytes.drop 8).take 8))
          version := UInt32.ofNat (ofBe ((bytes.drop 16).take 4))
          entry_type := UInt8.ofNat (ofBe ((bytes.drop 20).take 1)) }

theorem flat_protos_documented : flat_protos.Documented := by
  intro m hid
  have hsize : m.size.toNat < 256 ^ 8 := m.size.toNat_lt
  have hgen : m.gen.toNat < 256 ^ 8 := m.gen.toNat_lt
  have hversion : m.version.toNat < 256 ^ 4 := m.version.toNat_lt
  have htype : m.entry_type.toNat < 256 ^ 1 := m.entry_type.toNat_lt
  have hdrop : (flat_protos.kernel_to_proto m).drop 21 =
      delimited m.path.toList ++ delimited (m.content_id.getD "").toList := by
    simp [flat_protos, drop_append, drop_eq_nil_of_le]
  have htext := undelimited_delimited (m.content_id.getD "").toList []
  rw [append_nil] at htext
  have hread : flat_protos.proto_to_kernel (flat_protos.kernel_to_proto m) = .ok
      { path := String.ofList m.path.toList
        size := UInt64.ofNat (ofBe (be 8 m.size.toNat))
        content_id := if (m.content_id.getD "").toList = [] then none
          else some (String.ofList (m.content_id.getD "").toList)
        gen := UInt64.ofNat (ofBe (be 8 m.gen.toNat))
        version := UInt32.ofNat (ofBe (be 4 m.version.toNat))
        entry_type := UInt8.ofNat (ofBe (be 1 m.entry_type.toNat)) } := by
    show (match undelimited ((flat_protos.kernel_to_proto m).drop 21) with
      | none => _
      | some (path, rest) => _) = _
    rw [hdrop, undelimited_delimited]
    dsimp only
    rw [htext]
    simp [flat_protos, drop_append, drop_eq_nil_of_le]
  rw [hread, ofBe_be hsize, ofBe_be hgen, ofBe_be hversion, ofBe_be htype]
  obtain ⟨path, size, content_id, gen, version, entry_type⟩ := m
  cases content_id with
  | none => simp
  | some id =>
    have hne : id ≠ "" := fun h => hid (congrArg some h)
    simp [hne]

structure MetadataSnapshot where
  metadata : FileMetadata
  version : Bytes
  deriving DecidableEq

inductive MembershipPolicy where
  | Managed
  | FixedLocal
  deriving DecidableEq

inductive ConditionalContentError where
  | Unsupported
  | Failed (message : String)
  | Metadata (error : RaftError)
  | Storage (error : CASError)
  | Unknown (message : String)

def map_error : RaftError → ConditionalContentError
  | .UnsupportedOperation _ => .Unsupported
  | error => .Metadata error

def read_versioned (p : Protos) (policy : MembershipPolicy) (s : NexusVfs.Store) (key : String) :
    Except ConditionalContentError (Option MetadataSnapshot) :=
  if policy ≠ .FixedLocal then .error .Unsupported
  else
    match get_versioned_metadata s key with
    | .error error => .error (map_error error)
    | .ok ⟨none, none⟩ => .ok none
    | .ok ⟨some value, some version⟩ =>
      match p.proto_to_kernel value with
      | .error error => .error (.Failed ("FileMetadata proto decode: " ++ error))
      | .ok metadata => .ok (some ⟨metadata, version⟩)
    | .ok _ => .error (.Failed "conditional metadata image and revision disagree")

def saturating_succ (n : UInt64) : UInt64 := if n.toNat + 1 < 2 ^ 64 then n + 1 else n

/-- The row a replacement publishes, built from the row its snapshot showed. -/
def replacement_file_metadata (path : String) (content_id : String) (size : ℕ)
    (old : Option FileMetadata) : FileMetadata where
  path := path
  size := UInt64.ofNat size
  content_id := some content_id
  gen := saturating_succ (old.elim 0 FileMetadata.gen)
  version := old.elim 0 FileMetadata.version + 1
  entry_type := DT_REG

def regular (m : FileMetadata) : Bool := m.entry_type == DT_REG

def read_immutable_content (e : Engine) (s : Cas.Store) (metadata : FileMetadata) :
    Except ConditionalContentError Bytes :=
  if !regular metadata then .error .Unsupported
  else
    match metadata.content_id with
    | none => .error (.Failed "versioned regular file has no immutable content identifier")
    | some content_id =>
      match (e.read_content content_id s).1 with
      | .error error => .error (.Storage error)
      | .ok content =>
        if UInt64.ofNat content.length ≠ metadata.size then
          .error (.Failed "versioned content size differs from its metadata image")
        else .ok content

/-! ## Calls -/

inductive Call where
  | replace_content_if_version (key : String) (content : Buffer) (expected_version : Option Bytes)
      (incarnation : Incarnation)
  | read_versioned_content (key : String)

inductive Phase where
  | called
  | snapshotted (old : Option MetadataSnapshot)
  /-- The content is stored under an identifier and the row is built. -/
  | staged (old : Option MetadataSnapshot) (metadata : FileMetadata)
  | done

structure Thread where
  call : Call
  phase : Phase

inductive Answer where
  | silent
  | error (error : ConditionalContentError)
  | absent
  | content (key : String) (content version : Bytes)
  | committed (version : Bytes)
  | conflict (current_version : Option Bytes)

structure Commit where
  key : String
  expected : Option Bytes
  version : Bytes
  content : Bytes
  gen : UInt64
  deriving DecidableEq

structure Zone where
  machine : FullStateMachine
  blobs : Cas.Store
  threads : List Thread
  history : List Commit

inductive Op where
  | call (call : Call)
  /-- A thread takes its next step; the answer of a submitted command may be lost. -/
  | next (i : ℕ) (lost : Bool)

/-- The answer of the store to a replacement. -/
def decode_result : CommandResult → Answer
  | .ConditionalMetadata true current =>
    match current.version with
    | some version => .committed version
    | none => .error (.Unknown "committed metadata response has no revision")
  | .ConditionalMetadata false current => .conflict current.version
  | .ConditionalMetadataUnsupported => .error .Unsupported
  | .Error message => .error (.Failed message)
  | _ => .error (.Unknown "conditional metadata response has an unexpected result")

def outcome_unknown : Answer := .error (.Unknown "proposal outcome unknown")

section System

variable (codec : MetadataCodec) (p : Protos) (e : Engine) (policy : MembershipPolicy)

def snapshot (z : Zone) (key : String) : Except ConditionalContentError (Option MetadataSnapshot) :=
  match validate_path_fast key with
  | some message => .error (.Failed message)
  | none => read_versioned p policy z.machine.store key

def Zone.set_phase (z : Zone) (i : ℕ) (t : Thread) (phase : Phase) : Zone :=
  { z with threads := z.threads.set i { t with phase } }

/-- Applies the command of a replacement and records it if it committed. -/
def publish (z : Zone) (key : String) (content : Buffer) (expected : Option Bytes)
    (incarnation : Incarnation) (metadata : FileMetadata) : Answer × Zone :=
  match apply codec z.machine (z.machine.last_applied + 1)
      (.WriteVersionedMetadata key (p.kernel_to_proto metadata) expected incarnation) with
  | .error error => (.error (map_error error), z)
  | .ok (result, machine) =>
    let answer := decode_result result
    match answer with
    | .committed version =>
      (answer, { z with
        machine, history := z.history ++ [⟨key, expected, version, content.1, metadata.gen⟩] })
    | _ => (answer, { z with machine })

def Thread.next (z : Zone) (i : ℕ) (lost : Bool) (t : Thread) : Option (Answer × Zone) :=
  match t.call, t.phase with
  | .replace_content_if_version key _ _ _, .called =>
    match snapshot p policy z key with
    | .error error => some (.error error, z.set_phase i t .done)
    | .ok old =>
      if old.any fun s => !regular s.metadata then some (.error .Unsupported, z.set_phase i t .done)
      else some (.silent, z.set_phase i t (.snapshotted old))
  | .replace_content_if_version key content _ _, .snapshotted old =>
    match e.write_content content.1 z.blobs with
    | (.error error, blobs) => some (.error (.Storage error), { z with blobs }.set_phase i t .done)
    | (.ok content_id, blobs) =>
      some (.silent, { z with blobs }.set_phase i t (.staged old
        (replacement_file_metadata key content_id content.1.length
          (old.map MetadataSnapshot.metadata))))
  | .replace_content_if_version key content expected incarnation, .staged _ metadata =>
    let (answer, z) := publish codec p z key content expected incarnation metadata
    some (if lost then outcome_unknown else answer, z.set_phase i t .done)
  | .read_versioned_content key, .called =>
    match snapshot p policy z key with
    | .error error => some (.error error, z.set_phase i t .done)
    | .ok none => some (.absent, z.set_phase i t .done)
    | .ok (some old) => some (.silent, z.set_phase i t (.snapshotted (some old)))
  | .read_versioned_content key, .snapshotted (some old) =>
    match read_immutable_content e z.blobs old.metadata with
    | .error error => some (.error error, z.set_phase i t .done)
    | .ok content => some (.content key content old.version, z.set_phase i t .done)
  | _, _ => none

def content_step (z : Zone) : Op → Option (Answer × Zone)
  | .call call => some (.silent, { z with threads := z.threads ++ [⟨call, .called⟩] })
  | .next i lost => z.threads[i]?.bind fun t => t.next codec p e policy z i lost

end System

end NexusVfs.ConditionalContent
