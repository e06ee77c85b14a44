/-
The content-addressed store: blobs under the hash of their bytes, sidecars beside them,
and the engine that chunks, reassembles and deletes.

The hash, the JSON reader and the FastCDC cutter are parameters. `faults` says which of
the coming writes fail; a publication can fail after the bytes have become visible.
`written` is the history of byte strings handed to the disk, which no operation reads. A
`fetch` stands for the remote fetcher with the origins of a call.
-/
import NexusVfs.Actions
import NexusVfs.Json
import NexusVfs.Table

namespace NexusVfs.Cas

open Actions Actions.Action Json Words Text

/-! ## Computations on the store -/

inductive ErrorKind where
  | InvalidData
  | InvalidInput
  | Other
deriving DecidableEq, Repr

/-- `Panicked`: the call does not return. -/
inductive CASError where
  | NotFound (content_id : String)
  | IOError (kind : ErrorKind) (message : String)
  | Panicked
deriving DecidableEq, Repr

structure Store where
  blobs : Table String Bytes
  metas : Table String Bytes
  faults : List (Option String)
  written : List Bytes

def Store.empty : Store := ⟨∅, ∅, [], []⟩

abbrev CasM := Action Store CASError

def disk : CasM Unit := fun s =>
  match s.faults with
  | [] => (.ok (), s)
  | none :: faults => (.ok (), { s with faults })
  | some message :: faults => (.error (.IOError .Other message), { s with faults })

/-! ## Transport -/

inductive Strategy where
  | FastCDC
  | MessageBoundary
deriving DecidableEq, Repr

structure Engine where
  hash_content : Bytes → String
  from_slice : Bytes → Except String Value
  cut : Bytes → List Bytes
  strategy : Strategy

def MAX_VEC : ℕ := 2 ^ 63

def saturating_add (a b : ℕ) : ℕ := min (a + b) (2 ^ 64 - 1)

namespace Engine

variable (e : Engine)

def mismatch : CASError := .IOError .InvalidData "CAS object does not match its content hash"

def read_blob (content_id : String) : CasM Bytes := fun s =>
  match s.blobs.get content_id with
  | none => (.error (.NotFound content_id), s)
  | some content => if e.hash_content content = content_id then (.ok content, s) else (.error mismatch, s)

def confirm_existing_blob (content_id : String) : CasM Bool := fun s =>
  match s.blobs.get content_id with
  | none => (.ok false, s)
  | some existing =>
    if e.hash_content existing = content_id then (.ok true, s) else (.error mismatch, s)

/-- Nothing is replaced: an object that is there is kept. The last barrier comes after the bytes are
visible. -/
def publish_blob (content : Bytes) (content_id : String) : CasM Bool := do
  Action.modify fun s => { s with written := content :: s.written }
  if ← e.confirm_existing_blob content_id then
    disk
    pure false
  else
    disk
    Action.modify fun s => { s with blobs := s.blobs.insert content_id content }
    disk
    pure true

def write_blob_tracked (content : Bytes) : CasM (String × Bool) := do
  let hash := e.hash_content content
  let published ← e.publish_blob content hash
  pure (hash, published)

def write_blob (content : Bytes) : CasM String := do
  let written ← e.write_blob_tracked content
  pure written.1

def write_blob_with_hash (content : Bytes) (content_id : String) : CasM Bool :=
  if e.hash_content content ≠ content_id then
    fail (.IOError .InvalidInput "supplied CAS content hash does not match the input bytes")
  else e.publish_blob content content_id

def remove_blob (content_id : String) : CasM Unit := fun s =>
  match s.blobs.get content_id with
  | none => (.error (.NotFound content_id), s)
  | some _ => (.ok (), { s with blobs := s.blobs.remove content_id })

def blob_size (content_id : String) : CasM ℕ := fun s =>
  match s.blobs.get content_id with
  | none => (.error (.NotFound content_id), s)
  | some content => (.ok content.length, s)

def write_meta (content_id : String) (data : Bytes) : CasM Unit := do
  disk
  Action.modify fun s => { s with metas := s.metas.insert content_id data }
  disk

def read_meta (content_id : String) : CasM Bytes := fun s =>
  match s.metas.get content_id with
  | none => (.error (.NotFound content_id), s)
  | some data => (.ok data, s)

def meta_exists (content_id : String) : CasM Bool := fun s => (.ok (s.metas.get content_id).isSome, s)

def remove_meta (content_id : String) : CasM Unit :=
  Action.modify fun s => { s with metas := s.metas.remove content_id }

/-! ## Manifests -/

def CDC_THRESHOLD_BYTES : ℕ := 16 * 1024 * 1024

def MANIFEST_LIMIT : ℕ := 500 * 1024

def is_manifest (v : Value) : Bool :=
  (v.get "type").bind Value.as_str == some "chunked_manifest" &&
    ((v.get "chunks").bind Value.as_array).isSome

def parse_chunk_manifest (data : Bytes) : Option Value :=
  if MANIFEST_LIMIT ≤ data.length ∨ data.head? ≠ some 0x7b then none
  else
    match e.from_slice data with
    | .error _ => none
    | .ok manifest => if is_manifest manifest then some manifest else none

def entry (chunk_hash : String) (offset length : ℕ) : Value :=
  .Obj [("chunk_hash", .Str chunk_hash), ("length", .PosInt length), ("offset", .PosInt offset)]

def manifest_value (chunk_entries : List Value) (chunk_count total_size : ℕ)
    (full_content_hash : String) : Value :=
  .Obj [("avg_chunk_size", .PosInt (total_size / chunk_count)), ("chunk_count", .PosInt chunk_count),
    ("chunks", .Arr chunk_entries), ("content_id", .Str full_content_hash),
    ("total_size", .PosInt total_size), ("type", .Str "chunked_manifest")]

def sidecar_value (chunk_count total_size : ℕ) : Value :=
  .Obj [("chunk_count", .PosInt chunk_count), ("is_chunked_manifest", .Boolean true),
    ("size", .PosInt total_size)]

def finalize_manifest (chunk_entries : List Value) (chunk_count total_size : ℕ)
    (full_content_hash : String) : CasM (String × Bool) := do
  let written ← e.write_blob_tracked
    (to_vec (manifest_value chunk_entries chunk_count total_size full_content_hash))
  write_meta written.1 (to_vec (sidecar_value chunk_count total_size))
  pure written

def write_literal_manifest (content : Bytes) : CasM (String × Bool) := do
  let written ← e.write_blob_tracked content
  e.finalize_manifest [entry written.1 0 content.length] 1 content.length written.1

/-! ## Reading -/

def read_and_verify_chunk (fetch : String → Option Bytes) (expected_hash : String) : CasM Bytes :=
  fun s =>
    match e.read_blob expected_hash s with
    | (.error (.NotFound _), s) =>
      match fetch expected_hash with
      | none => (.error (.NotFound expected_hash), s)
      | some bytes =>
        if e.hash_content bytes ≠ expected_hash then
          (.error (.IOError .InvalidData ("remote chunk hash mismatch: expected " ++ expected_hash ++
            ", got " ++ e.hash_content bytes)), s)
        else
          (do
            ignore (e.write_blob_with_hash bytes expected_hash)
            pure bytes : CasM Bytes) s
    | other => other

def read_parts (fetch : String → Option Bytes) : List Value → CasM (List (ℕ × Bytes))
  | [] => pure []
  | chunk :: chunks =>
    match (chunk.get "chunk_hash").bind Value.as_str with
    | none => fail (.IOError .InvalidData "missing chunk_hash")
    | some hash =>
      let offset := ((chunk.get "offset").bind Value.as_i64).getD 0
      if offset < 0 then
        fail (.IOError .InvalidData
          ("negative chunk offset " ++ toString offset ++ " for " ++ hash))
      else do
        let data ← e.read_and_verify_chunk fetch hash
        let parts ← read_parts fetch chunks
        pure ((offset.toNat, data) :: parts)

/-- The parts must start at `expected` and follow one another; answers where they end. -/
def check_cover : ℕ → List (ℕ × Bytes) → Except CASError ℕ
  | expected, [] => .ok expected
  | expected, (offset, data) :: parts =>
    if offset ≠ expected then
      .error (.IOError .InvalidData ("chunked manifest has " ++
        (if expected < offset then "gap" else "overlap") ++ " at offset " ++ toString offset ++
        " (expected " ++ toString expected ++ ")"))
    else if 2 ^ 64 ≤ offset + data.length then
      .error (.IOError .InvalidData "chunked manifest total size overflows u64")
    else check_cover (offset + data.length) parts

def reassemble_chunks (fetch : String → Option Bytes) (chunks : List Value) : CasM Bytes := do
  let parts ← e.read_parts fetch chunks
  let sorted := parts.mergeSort fun a b => a.1 ≤ b.1
  let _ ← of_except (check_cover 0 sorted)
  pure (sorted.map Prod.snd).flatten

def try_reassemble (fetch : String → Option Bytes) (data : Bytes) : CasM (Option Bytes) :=
  match e.parse_chunk_manifest data with
  | none => pure none
  | some manifest =>
    match (manifest.get "chunks").bind Value.as_array with
    | none => pure none
    | some chunks => do
      let content ← e.reassemble_chunks fetch chunks
      pure (some content)

def read_content_with_origins (content_id : String) (fetch : String → Option Bytes) : CasM Bytes := do
  let data ← e.read_blob content_id
  let reassembled ← e.try_reassemble fetch data
  pure (reassembled.getD data)

def read_content (content_id : String) : CasM Bytes :=
  e.read_content_with_origins content_id fun _ => none

/-! ## Writing -/

def with_offsets : ℕ → List Bytes → List (ℕ × Bytes)
  | _, [] => []
  | offset, piece :: pieces => (offset, piece) :: with_offsets (offset + piece.length) pieces

def messages (content : Bytes) : Except CASError (List Value) :=
  match e.from_slice content with
  | .error message => .error (.IOError .Other message)
  | .ok parsed =>
    match parsed.as_array with
    | none => .error (.IOError .Other "expected JSON array of messages")
    | some messages => .ok messages

/-- The pieces with their offsets: FastCDC cuts the bytes, the message strategy prints every
message of the array. -/
def chunk_content (content : Bytes) : Except CASError (List (ℕ × Bytes)) :=
  match e.strategy with
  | .FastCDC => .ok (with_offsets 0 (e.cut content))
  | .MessageBoundary => (e.messages content).map fun messages => with_offsets 0 (messages.map to_vec)

/-- A conversation: an array of two messages or more, of which the first is an object with a role. -/
def is_conversation (v : Value) : Bool :=
  match v with
  | .Arr (first :: _ :: _) => (first.get "role").isSome
  | _ => false

def should_chunk (content : Bytes) : Bool :=
  match e.strategy with
  | .FastCDC => CDC_THRESHOLD_BYTES < content.length
  | .MessageBoundary =>
    match e.from_slice content with
    | .error _ => false
    | .ok v => is_conversation v

def supports_partial_writes : Bool := e.strategy == .FastCDC

/-- Every piece is written, and listed at `base` and its offset. -/
def write_chunks (base : ℕ) : List (ℕ × Bytes) → CasM (List Value)
  | [] => pure []
  | (offset, piece) :: pieces => do
    let chunk_hash ← e.write_blob piece
    let entries ← write_chunks base pieces
    pure (entry chunk_hash ((base + offset) % 2 ^ 64) piece.length :: entries)

def write_chunked (content : Bytes) : CasM (String × Bool) := do
  let pieces ← of_except (e.chunk_content content)
  let chunk_entries ← e.write_chunks 0 pieces
  e.finalize_manifest chunk_entries pieces.length content.length (e.hash_content content)

def write_content_tracked (content : Bytes) : CasM (String × Bool) :=
  if (e.parse_chunk_manifest content).isSome then e.write_literal_manifest content
  else if e.should_chunk content then e.write_chunked content
  else e.write_blob_tracked content

def write_content (content : Bytes) : CasM String := do
  let written ← e.write_content_tracked content
  pure written.1

/-! ## Sizes and deletes -/

def content_size (content_id : String) : CasM ℕ := blob_size content_id

def delete_content (content_id : String) : CasM Unit := remove_blob content_id

def parse_json (data : Bytes) : Except CASError Value :=
  match e.from_slice data with
  | .error message => .error (.IOError .InvalidData message)
  | .ok v => .ok v

def is_chunked (content_id : String) : CasM Bool := fun s =>
  match s.metas.get content_id with
  | none => (.ok false, s)
  | some data =>
    match e.from_slice data with
    | .error _ => (.ok false, s)
    | .ok parsed => (.ok (((parsed.get "is_chunked_manifest").bind Value.as_bool).getD false), s)

def get_size (content_id : String) : CasM ℕ := do
  if ← meta_exists content_id then
    let data ← read_meta content_id
    let parsed ← of_except (e.parse_json data)
    pure (((parsed.get "size").bind Value.as_u64).getD 0)
  else content_size content_id

def chunk_hashes (manifest : Value) : List String :=
  (((manifest.get "chunks").bind Value.as_array).getD []).filterMap fun chunk =>
    (chunk.get "chunk_hash").bind Value.as_str

def remove_all : List String → CasM Unit
  | [] => pure ()
  | id :: ids => do
    ignore (remove_blob id)
    ignore (remove_meta id)
    remove_all ids

def delete_chunked (content_id : String) : CasM Unit := do
  let manifest_data ← e.read_blob content_id
  let manifest ← of_except (e.parse_json manifest_data)
  remove_all (chunk_hashes manifest ++ [content_id])

/-- How the backends delete. -/
def backend_delete (content_id : String) : CasM Unit := do
  if ← e.is_chunked content_id then e.delete_chunked content_id
  else delete_content content_id

/-! ## Partial writes -/

structure PartialWriteResult where
  content_id : String
  size : ℕ

/-- `buf` at `offset`, with zeros up to it and what was behind it. -/
def splice (old buf : Bytes) (offset : ℕ) : Bytes :=
  old.take offset ++ List.replicate (offset - old.length) 0 ++ buf ++ old.drop (offset + buf.length)

def chunk_offset (chunk : Value) : ℕ := ((chunk.get "offset").bind Value.as_u64).getD 0

def chunk_length (chunk : Value) : ℕ := ((chunk.get "length").bind Value.as_u64).getD 0

def chunk_end (chunk : Value) : ℕ := saturating_add (chunk_offset chunk) (chunk_length chunk)

def chunk_hash (chunk : Value) : Except CASError String :=
  match (chunk.get "chunk_hash").bind Value.as_str with
  | none => .error (.IOError .InvalidData "chunk missing hash")
  | some hash => .ok hash

def read_affected (fetch : String → Option Bytes) : List String → CasM Bytes
  | [] => pure []
  | hash :: hashes => do
    let data ← e.read_and_verify_chunk fetch hash
    let rest ← read_affected fetch hashes
    pure (data ++ rest)

/-- The bytes that replace the affected chunks, and where they start. -/
def new_region (fetch : String → Option Bytes) (old_total_size : ℕ) (affected suffix : List Value)
    (buf : Bytes) (offset : ℕ) : CasM (ℕ × Bytes) :=
  match affected with
  | [] =>
    if MAX_VEC ≤ (offset - old_total_size) + buf.length then fail .Panicked
    else
      pure (if suffix.isEmpty then old_total_size else offset,
        List.replicate (offset - old_total_size) 0 ++ buf)
  | first :: _ => do
    let region_start := chunk_offset first
    let hashes ← of_except (affected.mapM chunk_hash)
    let assembled ← e.read_affected fetch hashes
    let splice_start := (offset + 2 ^ 64 - region_start) % 2 ^ 64
    if MAX_VEC ≤ max assembled.length (splice_start + buf.length) then fail .Panicked
    else pure (region_start, splice assembled buf splice_start)

def write_chunked_partial_with_origins (old_manifest_hash : String) (buf : Bytes) (offset : ℕ)
    (fetch : String → Option Bytes) : CasM PartialWriteResult :=
  if !e.supports_partial_writes then
    fail (.IOError .Other "current ChunkingStrategy does not support partial writes")
  else do
    let manifest_data ← e.read_blob old_manifest_hash
    let manifest ← of_except (e.parse_json manifest_data)
    match (manifest.get "chunks").bind Value.as_array with
    | none => fail (.IOError .InvalidData "manifest missing chunks")
    | some chunks =>
      let old_total_size := ((manifest.get "total_size").bind Value.as_u64).getD 0
      let write_end := saturating_add offset buf.length
      let before := fun chunk => decide (chunk_end chunk ≤ offset)
      let behind := fun chunk => !before chunk && decide (write_end ≤ chunk_offset chunk)
      let affected := chunks.filter fun chunk => !before chunk && !behind chunk
      let region ← e.new_region fetch old_total_size affected (chunks.filter behind) buf offset
      let pieces ← of_except (e.chunk_content region.2)
      let new_entries ← e.write_chunks region.1 pieces
      let all_chunks := chunks.filter before ++ new_entries ++ chunks.filter behind
      if MAX_VEC ≤ all_chunks.length then fail .Panicked
      else
        let total_size := (all_chunks.map chunk_end).foldl max 0
        let written ← e.finalize_manifest all_chunks all_chunks.length total_size ""
        pure ⟨written.1, total_size⟩

def write_partial (old_hash : String) (buf : Bytes) (offset : ℕ) (fetch : String → Option Bytes) :
    CasM PartialWriteResult := do
  if ← e.is_chunked old_hash then
    e.write_chunked_partial_with_origins old_hash buf offset fetch
  else
    let old ← e.read_blob old_hash
    let new_len := max old.length (saturating_add offset buf.length)
    if MAX_VEC ≤ new_len then fail .Panicked
    else
      let content_id ← e.write_content (splice old buf offset)
      pure ⟨content_id, new_len⟩

end Engine

end NexusVfs.Cas
