/-
Session traffic over a conversation: `a2a/src/session.rs` and `a2a/src/session_io.rs`.

The two ends of an attachment number their frames and append them to a transcript that
others write too. A reader takes its records one by one and delivers the peer's frames
by number. JSON is a parameter here.
-/
import NexusVfs.Mailbox
import NexusVfs.Runs

namespace NexusVfs.Session

open List Option Words Json Mailbox Runs

def SESSION_PROTOCOL : String := "acp-mailbox/1"

def SESSION_KIND : String := "session"

def MAX_SAFE_INTEGER : ℕ := 9007199254740991

def MAX_SESSION_FRAME_BYTES : ℕ := 4 * 1024 * 1024

inductive SessionPayload where
  | Rpc (message : Value)
  | Closed (reason : String)

structure SessionFrame where
  protocol : String
  channel_id : String
  sequence : ℕ
  payload : SessionPayload

/-- `sender` and `recipient` are the fields `from` and `to`. -/
structure Envelope where
  sender : String
  recipient : String
  kind : String
  body : String
  deriving DecidableEq

/-! ## JSON -/

/-- `value.get(key).and_then(Value::as_str)`. -/
def text_of (value : Value) (key : String) : Option String :=
  (value.get key).bind Value.as_str

/-- The derived decoder; only objects reach it. -/
def envelope_of_value (value : Value) : Option Envelope :=
  match value with
  | .Obj fields =>
    (string_field fields "from").bind fun sender =>
      (text_of value "to").bind fun recipient =>
        (text_of value "kind").bind fun kind =>
          (text_of value "body").map fun body => ⟨sender, recipient, kind, body⟩
  | _ => none

/-- The payload is tagged by the field `type`. -/
def payload_of_value (value : Value) : Option SessionPayload :=
  match text_of value "type" with
  | some "rpc" => (value.get "message").map .Rpc
  | some "closed" => (text_of value "reason").map .Closed
  | _ => none

/-- The payload is flattened into the frame. -/
def frame_of_value (value : Value) : Option SessionFrame :=
  (text_of value "protocol").bind fun protocol =>
    (text_of value "channel_id").bind fun channel_id =>
      ((value.get "sequence").bind Value.as_u64).bind fun sequence =>
        (payload_of_value value).map fun payload => ⟨protocol, channel_id, sequence, payload⟩

/-- `serde_json`; `mismatch` is its text for a value of the wrong type. -/
structure Serde where
  from_slice : Bytes → Except String Value
  from_str : String → Except String Value
  mismatch : Value → String
  to_vec : Envelope → Bytes
  to_string : SessionFrame → String

def Serde.from_value (d : Serde) (of_value : Value → Option α) (value : Value) : Except String α :=
  match of_value value with
  | some a => .ok a
  | none => .error (d.mismatch value)

variable (d : Serde)

/-! ## The codec -/

def validate_payload : SessionPayload → Except String Unit
  | .Closed _ => .ok ()
  | .Rpc (.Obj object) =>
    if (object.lookup "jsonrpc").bind Value.as_str ≠ some "2.0" then
      .error "session RPC requires jsonrpc 2.0"
    else if (object.lookup "id").any fun id =>
        !(id.as_str.isSome || id.as_i64.any (·.natAbs ≤ MAX_SAFE_INTEGER)) then
      .error "session RPC ID must be a string or safe integer"
    else
      match object.lookup "method" with
      | some method =>
        if method.as_str.isNone || (object.lookup "result").isSome ||
            (object.lookup "error").isSome then
          .error "invalid session RPC request"
        else .ok ()
      | none =>
        if (object.lookup "id").isNone ||
            (object.lookup "result").isSome == (object.lookup "error").isSome then
          .error "session RPC response requires an ID and one result or error"
        else .ok ()
  | .Rpc _ => .error "session RPC must be a JSON object"

structure SessionCodec where
  channel_id : String
  sender : String
  recipient : String
  sent : ℕ
  received : ℕ

namespace SessionCodec

def frame (c : SessionCodec) (payload : SessionPayload) : SessionFrame :=
  ⟨SESSION_PROTOCOL, c.channel_id, c.sent + 1, payload⟩

def envelope (c : SessionCodec) (payload : SessionPayload) : Envelope :=
  ⟨c.sender, c.recipient, SESSION_KIND, d.to_string (c.frame payload)⟩

def encode (c : SessionCodec) (payload : SessionPayload) : Except String (Bytes × SessionCodec) :=
  validate_payload payload >>= fun _ =>
    if MAX_SAFE_INTEGER < c.sent + 1 then .error "session sequence exhausted"
    else if MAX_SESSION_FRAME_BYTES < (d.to_vec (c.envelope d payload)).length then
      .error "session frame exceeds the size limit"
    else .ok (d.to_vec (c.envelope d payload), { c with sent := c.sent + 1 })

def accept (c : SessionCodec) (envelope : Envelope) (frame : SessionFrame) :
    Except String (Option SessionPayload × SessionCodec) :=
  if envelope.sender ≠ c.recipient ∨ envelope.recipient ≠ c.sender then
    .error "session frame participants do not match the attachment"
  else if frame.protocol ≠ SESSION_PROTOCOL then
    .error ("unsupported session protocol: " ++ frame.protocol)
  else if frame.sequence = 0 ∨ MAX_SAFE_INTEGER < frame.sequence then
    .error "session sequence starts at one"
  else if frame.sequence ≤ c.received then .ok (none, c)
  else if frame.sequence ≠ c.received + 1 then
    .error ("session sequence gap: expected " ++ toString (c.received + 1) ++ ", received " ++
      toString frame.sequence)
  else
    validate_payload frame.payload >>= fun _ =>
      .ok (some frame.payload, { c with received := frame.sequence })

def decode (c : SessionCodec) (bytes : Bytes) :
    Except String (Option SessionPayload × SessionCodec) :=
  d.from_slice bytes >>= fun value =>
    if text_of value "kind" ≠ some SESSION_KIND then .ok (none, c)
    else if MAX_SESSION_FRAME_BYTES < bytes.length then
      .error "session frame exceeds the size limit"
    else
      d.from_value envelope_of_value value >>= fun envelope =>
        if envelope.sender = c.sender ∧ envelope.recipient = c.recipient then .ok (none, c)
        else
          d.from_str envelope.body >>= fun body =>
            if text_of body "channel_id" ≠ some c.channel_id then .ok (none, c)
            else d.from_value frame_of_value body >>= c.accept envelope

end SessionCodec

/-! ## The mailbox -/

/-- What `sys_read` answers: an error, with the numbers of `StreamTruncated` if it is one, or data,
empty when the time is up, with the offset after it. -/
inductive SysRead where
  | error (truncated : Option (ℕ × ℕ)) (text : String)
  | data (bytes : Bytes) (next : Option ℕ)

/-- The reader of an attachment, and whether the attachment is closed. -/
structure SessionMailbox where
  codec : SessionCodec
  offset : ℕ
  closed : Bool

def SessionMailbox.receive (m : SessionMailbox) (result : SysRead) :
    Except String (Option SessionPayload) × SessionMailbox :=
  if m.closed then (.error "session channel is closed", m)
  else
    match result with
    | .error (some (earliest, 0)) text =>
      if m.offset = 0 ∧ 0 < earliest then (.ok none, { m with offset := earliest })
      else (.error ("session read failed: " ++ text), m)
    | .error _ text => (.error ("session read failed: " ++ text), m)
    | .data [] _ => (.ok none, m)
    | .data _ none => (.error "session conversation must be a framed stream", m)
    | .data bytes (some next) =>
      if next ≤ m.offset then (.error "session stream did not advance its cursor", m)
      else
        -- the offset moves only after the decoder has answered
        match m.codec.decode d bytes with
        | .error e => (.error e, m)
        | .ok (decoded, codec) => (.ok decoded, ⟨codec, next, decoded matches some (.Closed _)⟩)

/-- The records of a transcript, each with the agent that wrote it; an offset counts records. -/
def sys_read (records : List (String × Bytes)) (offset : ℕ) : SysRead :=
  match records[offset]? with
  | some record => .data record.2 (some (offset + 1))
  | none => .data [] none

/-! ## Other traffic -/

/-- The bytes are an envelope around a frame. -/
def reads (bytes : Bytes) (envelope : Envelope) (frame : SessionFrame) : Prop :=
  ∃ value body, d.from_slice bytes = .ok value ∧ envelope_of_value value = some envelope ∧
    d.from_str envelope.body = .ok body ∧ frame_of_value body = some frame

/-- A record that is a session frame of the channel. -/
def of_channel (channel : String) (bytes : Bytes) : Prop :=
  ∃ envelope frame, reads d bytes envelope frame ∧ envelope.kind = SESSION_KIND ∧
    frame.channel_id = channel

/-- A record the decoder gets through: it is JSON and, if it calls itself a session frame, has the
size and fields of an envelope that is the reader's own or whose body is JSON of another channel. -/
def passable (c : SessionCodec) (bytes : Bytes) : Prop :=
  ∃ value, d.from_slice bytes = .ok value ∧
    (text_of value "kind" = some SESSION_KIND →
      bytes.length ≤ MAX_SESSION_FRAME_BYTES ∧ ∃ envelope, envelope_of_value value = some envelope ∧
        (envelope.sender = c.sender ∧ envelope.recipient = c.recipient ∨
          ∃ body, d.from_str envelope.body = .ok body ∧
            text_of body "channel_id" ≠ some c.channel_id))

variable {d} {c : SessionCodec} {bytes : Bytes}

theorem envelope_of_value_eq_some {value : Value} {envelope : Envelope}
    (h : envelope_of_value value = some envelope) :
    text_of value "kind" = some envelope.kind ∧
      ∃ fields, value = .Obj fields ∧ string_field fields "from" = some envelope.sender := by
  unfold envelope_of_value at h
  split at h
  next fields =>
    obtain ⟨sender, hsender, h⟩ := bind_eq_some_iff.mp h
    obtain ⟨recipient, -, h⟩ := bind_eq_some_iff.mp h
    obtain ⟨kind, hkind, h⟩ := bind_eq_some_iff.mp h
    obtain ⟨body, -, rfl⟩ := map_eq_some_iff.mp h
    exact ⟨hkind, fields, rfl, hsender⟩
  · cases h

theorem channel_of_frame {body : Value} {frame : SessionFrame} (h : frame_of_value body = some frame) :
    text_of body "channel_id" = some frame.channel_id := by
  obtain ⟨protocol, -, h⟩ := bind_eq_some_iff.mp h
  obtain ⟨channel_id, hchannel, h⟩ := bind_eq_some_iff.mp h
  obtain ⟨sequence, -, h⟩ := bind_eq_some_iff.mp h
  obtain ⟨payload, -, rfl⟩ := map_eq_some_iff.mp h
  exact hchannel

theorem from_value_eq_ok {of_value : Value → Option α} {value : Value} {a : α} :
    d.from_value of_value value = .ok a ↔ of_value value = some a := by
  unfold Serde.from_value
  split
  next b hb => rw [hb, Except.ok.injEq, some.injEq]
  next hb => simp only [hb, reduceCtorEq]

theorem decode_foreign (hforeign : ¬ of_channel d c.channel_id bytes) :
    c.decode d bytes = .ok (none, c) ↔ passable d c bytes := by
  rw [SessionCodec.decode, bind_eq_ok]
  refine exists_congr fun value => and_congr_right fun hvalue => ?_
  by_cases hkind : text_of value "kind" = some SESSION_KIND
  case neg => simp only [hkind, ne_eq, not_false_eq_true, if_true, false_imp_iff]
  rw [if_neg (not_not.mpr hkind), imp_iff_right hkind]
  by_cases hsize : bytes.length ≤ MAX_SESSION_FRAME_BYTES
  case neg => simp only [Nat.not_le.mp hsize, if_true, hsize, false_and, reduceCtorEq]
  rw [if_neg hsize.not_gt, and_iff_right hsize, bind_eq_ok]
  refine exists_congr fun envelope => ?_
  rw [from_value_eq_ok]
  refine and_congr_right fun henvelope => ?_
  by_cases hown : envelope.sender = c.sender ∧ envelope.recipient = c.recipient
  case pos => simp only [hown, and_self, if_true, true_or]
  rw [if_neg hown, or_iff_right hown, bind_eq_ok]
  refine exists_congr fun body => and_congr_right fun hbody => ?_
  by_cases hchannel : text_of body "channel_id" = some c.channel_id
  case neg => simp only [hchannel, ne_eq, not_false_eq_true, if_true]
  -- a body that names the channel and is no frame is an error too
  rw [if_neg (not_not.mpr hchannel), bind_eq_ok]
  refine iff_of_false ?_ (not_not.mpr hchannel)
  rintro ⟨frame, hframe, -⟩
  rw [from_value_eq_ok] at hframe
  rw [channel_of_frame hframe, some.injEq] at hchannel
  rw [(envelope_of_value_eq_some henvelope).1, some.injEq] at hkind
  exact hforeign ⟨envelope, frame, ⟨value, body, hvalue, henvelope, hbody, hframe⟩, hkind, hchannel⟩

/-- A record that is not of the attachment's channel is passed over, with nothing but the offset
changed, exactly if it is not empty and the decoder gets through it. -/
theorem receive_passes_over_iff (d : Serde) (m : SessionMailbox) (records : List (String × Bytes))
    (writer : String) (bytes : Bytes) (hopen : m.closed = false)
    (hrecord : records[m.offset]? = some (writer, bytes))
    (hforeign : ¬ of_channel d m.codec.channel_id bytes) :
    m.receive d (sys_read records m.offset) = (.ok none, { m with offset := m.offset + 1 }) ↔
      bytes ≠ [] ∧ passable d m.codec bytes := by
  have hread : sys_read records m.offset = .data bytes (some (m.offset + 1)) := by
    rw [sys_read, hrecord]
  rw [hread, ← decode_foreign hforeign]
  cases bytes with
  | nil =>
    -- an empty record is taken for a timeout, and the offset stays before it
    refine iff_of_false (fun h => ?_) (fun h => h.1 rfl)
    rw [SessionMailbox.receive, hopen] at h
    exact absurd (congrArg (·.2.offset) h) (Nat.succ_ne_self _).symm
  | cons b bs =>
    simp only [SessionMailbox.receive, hopen, Bool.false_eq_true, if_false,
      Nat.not_succ_le_self, ne_eq, reduceCtorEq, not_false_eq_true, true_and]
    cases m.codec.decode d (b :: bs) with
    | error e => simp only [Prod.mk.injEq, reduceCtorEq, false_and]
    | ok answer =>
      obtain ⟨decoded, codec⟩ := answer
      constructor
      · intro h
        obtain ⟨hdecoded, hm⟩ := Prod.mk.inj h
        have hcodec : codec = m.codec := congrArg SessionMailbox.codec hm
        rw [Except.ok.inj hdecoded, hcodec]
      · intro h
        obtain ⟨rfl, rfl⟩ := Prod.mk.inj (Except.ok.inj h)
        rw [← hopen]

def brackets : Serde :=
  ⟨fun bytes => if bytes = [91, 93] then .ok (.Arr []) else .error "expected value",
    fun _ => .error "expected value", fun _ => "invalid type", fun _ => [], fun _ => ""⟩

def opened : SessionMailbox := ⟨⟨"c", "agent", "controller", 0, 0⟩, 0, false⟩

theorem receive_passes_over_array :
    opened.receive brackets (sys_read [("mallory", [91, 93])] 0) =
      (.ok none, { opened with offset := 1 }) := by
  refine (receive_passes_over_iff brackets opened _ "mallory" [91, 93] rfl rfl ?_).mpr ?_
  · rintro ⟨envelope, -, ⟨value, -, hvalue, henvelope, -⟩, -⟩
    cases hvalue
    cases henvelope
  · exact ⟨cons_ne_nil _ _, _, rfl, fun hkind => by cases hkind⟩

/-- At a record that is not JSON the reader fails for good. -/
theorem receive_stalls_on_text :
    ¬ of_channel brackets "c" [104, 105] ∧
      opened.receive brackets (sys_read [("mallory", [104, 105])] 0) =
        (.error "expected value", opened) := by
  refine ⟨?_, rfl⟩
  rintro ⟨-, -, ⟨value, -, hvalue, -⟩, -⟩
  cases hvalue

/-! ## Delivery -/

/-- One attachment: the peer's writing codec and what it has encoded, the transcript with the writer
of each record, and the reader with what it has returned. -/
structure Attachment where
  peer : SessionCodec
  encoded : List (SessionPayload × Bytes)
  records : List (String × Bytes)
  mailbox : SessionMailbox
  delivered : List SessionPayload

def attach (channel me peer : String) : Attachment :=
  ⟨⟨channel, peer, me, 0, 0⟩, [], [], ⟨⟨channel, me, peer, 0, 0⟩, 0, false⟩, []⟩

/-- `failure` is an error of `sys_read`, `close` what a failed append does at the reader's end. -/
inductive Event where
  | encode (payload : SessionPayload)
  | append (writer : String) (bytes : Bytes)
  | receive (failure : Option (Option (ℕ × ℕ) × String))
  | close

def Attachment.read (s : Attachment) : Option (Option (ℕ × ℕ) × String) → SysRead
  | some (truncated, text) => .error truncated text
  | none => sys_read s.records s.mailbox.offset

variable (d)

def step (s : Attachment) : Event → Option (Option SessionPayload × Attachment)
  | .encode payload =>
    match s.peer.encode d payload with
    | .error _ => some (none, s)
    | .ok (bytes, peer) => some (none, { s with peer, encoded := s.encoded ++ [(payload, bytes)] })
  | .append writer bytes => some (none, { s with records := s.records ++ [(writer, bytes)] })
  | .receive failure =>
    let answer := s.mailbox.receive d (s.read failure)
    some (answer.1.toOption.join, { s with
      mailbox := answer.2, delivered := s.delivered ++ answer.1.toOption.join.toList })
  | .close => some (none, { s with mailbox.closed := true })

/-- What the transcript may hold: the hook has set `from` to the writer of an object, and a frame
the peer writes on the channel is one its codec encoded, whether for the first time or again. -/
def admits (s : Attachment) (writer : String) (bytes : Bytes) : Prop :=
  (∀ fields, d.from_slice bytes = .ok (.Obj fields) → string_field fields "from" = some writer) ∧
    (writer = s.peer.sender → of_channel d s.peer.channel_id bytes →
      ∃ sent ∈ s.encoded, reads d bytes = reads d sent.2)

/-- JSON is exact on what is encoded, and the transcript admits what is appended. -/
def lawful (s : Attachment) : Event → Prop
  | .encode payload =>
    reads d (d.to_vec (s.peer.envelope d payload)) (s.peer.envelope d payload) (s.peer.frame payload)
  | .append writer bytes => admits d s writer bytes
  | _ => True

/-- The codec takes the record's frame as the next one. -/
def takes (c : SessionCodec) (bytes : Bytes) (payload : SessionPayload) : Prop :=
  ∃ envelope frame, reads d bytes envelope frame ∧ envelope.kind = SESSION_KIND ∧
    frame.channel_id = c.channel_id ∧ envelope.sender = c.recipient ∧
    frame.sequence = c.received + 1 ∧ frame.payload = payload

variable {d} {c' : SessionCodec} {s s' : Attachment} {decoded : Option SessionPayload}

theorem reads_unique {e e' : Envelope} {f f' : SessionFrame} (h : reads d bytes e f)
    (h' : reads d bytes e' f') : f = f' := by
  obtain ⟨value, body, hvalue, he, hbody, hf⟩ := h
  obtain ⟨value', body', hvalue', he', hbody', hf'⟩ := h'
  obtain rfl : value = value' := Except.ok.inj (hvalue.symm.trans hvalue')
  obtain rfl : e = e' := some.inj (he.symm.trans he')
  obtain rfl : body = body' := Except.ok.inj (hbody.symm.trans hbody')
  exact some.inj (hf.symm.trans hf')

theorem accept_cases {envelope : Envelope} {frame : SessionFrame}
    (h : c.accept envelope frame = .ok (decoded, c')) :
    decoded = none ∧ c' = c ∨
      envelope.sender = c.recipient ∧ frame.sequence = c.received + 1 ∧
        decoded = some frame.payload ∧ c' = { c with received := frame.sequence } := by
  unfold SessionCodec.accept at h
  obtain ⟨-, h⟩ | ⟨hends, h⟩ := ite_eq_iff.mp h
  · cases h
  obtain ⟨-, h⟩ | ⟨-, h⟩ := ite_eq_iff.mp h
  · cases h
  obtain ⟨-, h⟩ | ⟨-, h⟩ := ite_eq_iff.mp h
  · cases h
  obtain ⟨-, h⟩ | ⟨-, h⟩ := ite_eq_iff.mp h
  · cases h
    exact .inl ⟨rfl, rfl⟩
  obtain ⟨-, h⟩ | ⟨hnext, h⟩ := ite_eq_iff.mp h
  · cases h
  obtain ⟨-, -, h⟩ := bind_eq_ok.mp h
  cases h
  exact .inr ⟨not_not.mp (not_or.mp hends).1, not_not.mp hnext, rfl, rfl⟩

theorem decode_cases (h : c.decode d bytes = .ok (decoded, c')) :
    decoded = none ∧ c' = c ∨ ∃ payload, decoded = some payload ∧
      c' = { c with received := c.received + 1 } ∧ takes d c bytes payload := by
  rw [SessionCodec.decode, bind_eq_ok] at h
  obtain ⟨value, hvalue, h⟩ := h
  obtain ⟨-, h⟩ | ⟨hkind, h⟩ := ite_eq_iff.mp h
  · cases h
    exact .inl ⟨rfl, rfl⟩
  obtain ⟨-, h⟩ | ⟨-, h⟩ := ite_eq_iff.mp h
  · cases h
  obtain ⟨envelope, henvelope, h⟩ := bind_eq_ok.mp h
  obtain ⟨-, h⟩ | ⟨-, h⟩ := ite_eq_iff.mp h
  · cases h
    exact .inl ⟨rfl, rfl⟩
  obtain ⟨body, hbody, h⟩ := bind_eq_ok.mp h
  obtain ⟨-, h⟩ | ⟨hchannel, h⟩ := ite_eq_iff.mp h
  · cases h
    exact .inl ⟨rfl, rfl⟩
  obtain ⟨frame, hframe, h⟩ := bind_eq_ok.mp h
  rw [from_value_eq_ok] at henvelope hframe
  rw [not_not, (envelope_of_value_eq_some henvelope).1, some.injEq] at hkind
  rw [not_not, channel_of_frame hframe, some.injEq] at hchannel
  refine (accept_cases h).imp_right ?_
  rintro ⟨hsender, hsequence, rfl, rfl⟩
  exact ⟨frame.payload, rfl, by rw [hsequence], envelope, frame,
    ⟨value, body, hvalue, henvelope, hbody, hframe⟩, hkind, hchannel, hsender, hsequence, rfl⟩

/-- A call either returns no payload and leaves the codec, or returns the payload of the next frame
and counts it. -/
theorem receive_cases {m m' : SessionMailbox} {result : SysRead}
    {reply : Except String (Option SessionPayload)} (h : m.receive d result = (reply, m')) :
    reply.toOption.join = none ∧ m'.codec = m.codec ∨
      ∃ bytes next payload, result = .data bytes (some next) ∧ reply = .ok (some payload) ∧
        m'.codec = { m.codec with received := m.codec.received + 1 } ∧
        takes d m.codec bytes payload := by
  unfold SessionMailbox.receive at h
  split_ifs at h
  · cases h
    exact .inl ⟨rfl, rfl⟩
  split at h
  case h_5 bytes next hbytes =>
    split_ifs at h
    · cases h
      exact .inl ⟨rfl, rfl⟩
    split at h
    · cases h
      exact .inl ⟨rfl, rfl⟩
    next decoded codec hdecode =>
      cases h
      refine (decode_cases hdecode).imp ?_ ?_
      · rintro ⟨rfl, hcodec⟩
        exact ⟨rfl, hcodec⟩
      · rintro ⟨payload, rfl, hcodec, htakes⟩
        exact ⟨bytes, _, payload, rfl, rfl, hcodec, htakes⟩
  case h_1 => split_ifs at h <;> cases h <;> exact .inl ⟨rfl, rfl⟩
  all_goals
    cases h
    exact .inl ⟨rfl, rfl⟩

structure Delivers (d : Serde) (channel peer : String) (s : Attachment) : Prop where
  writer : s.peer.channel_id = channel ∧ s.peer.sender = peer ∧ s.peer.sent = s.encoded.length
  reader : s.mailbox.codec.channel_id = channel ∧ s.mailbox.codec.recipient = peer
  frames : ∀ i payload bytes, s.encoded[i]? = some (payload, bytes) → ∃ envelope frame,
    reads d bytes envelope frame ∧ frame.sequence = i + 1 ∧ frame.payload = payload
  records : ∀ record ∈ s.records, admits d s record.1 record.2
  counted : s.mailbox.codec.received ≤ s.encoded.length
  delivered : s.delivered = (s.encoded.map Prod.fst).take s.mailbox.codec.received

variable {channel peer : String}

/-- A record the reader takes as the next frame is the peer's, and the frame the one its codec
numbered so. -/
theorem Delivers.taken (hs : Delivers d channel peer s) {record : String × Bytes}
    {payload : SessionPayload} (hrecord : record ∈ s.records)
    (h : takes d s.mailbox.codec record.2 payload) :
    record.1 = peer ∧ (s.encoded.map Prod.fst)[s.mailbox.codec.received]? = some payload := by
  obtain ⟨envelope, frame, hreads, hkind, hchannel, hsender, hsequence, rfl⟩ := h
  obtain ⟨value, body, hvalue, henvelope, -⟩ := id hreads
  obtain ⟨-, fields, rfl, hfrom⟩ := envelope_of_value_eq_some henvelope
  obtain ⟨hstamped, hencoded⟩ := hs.records record hrecord
  have hpeer : record.1 = peer := by
    rw [hstamped fields hvalue, some.injEq] at hfrom
    rw [hfrom, hsender, hs.reader.2]
  refine ⟨hpeer, ?_⟩
  rw [hs.writer.1, hs.writer.2.1, ← hs.reader.1] at hencoded
  obtain ⟨⟨payload, bytes⟩, hmem, hsame⟩ := hencoded hpeer ⟨envelope, frame, hreads, hkind, hchannel⟩
  obtain ⟨i, hi⟩ := mem_iff_getElem?.mp hmem
  obtain ⟨envelope', frame', hreads', hsequence', rfl⟩ := hs.frames i _ _ hi
  obtain rfl : frame = frame' := by
    rw [hsame] at hreads
    exact reads_unique hreads hreads'
  obtain rfl : i = s.mailbox.codec.received := Nat.succ.inj (hsequence'.symm.trans hsequence)
  rw [getElem?_map, hi]
  rfl

theorem Delivers.encode (hs : Delivers d channel peer s) {payload : SessionPayload}
    (hjson : lawful d s (.encode payload)) (h : s.peer.encode d payload = .ok (bytes, c)) :
    Delivers d channel peer { s with peer := c, encoded := s.encoded ++ [(payload, bytes)] } := by
  obtain ⟨-, -, h⟩ := bind_eq_ok.mp h
  split_ifs at h
  cases h
  obtain ⟨hchannel, hpeer, hsent⟩ := hs.writer
  refine ⟨⟨hchannel, hpeer, ?_⟩, hs.reader, ?_, ?_, ?_, ?_⟩
  · rw [length_append, ← hsent]
    rfl
  · intro i payload' bytes' hi
    obtain hi' | hi' := lt_or_ge i s.encoded.length
    · exact hs.frames i payload' bytes' (getElem?_append_left hi' ▸ hi)
    · obtain rfl : i = s.encoded.length := by
        have hlt := (List.getElem?_eq_some_iff.mp hi).1
        rw [length_append, length_singleton] at hlt
        omega
      rw [getElem?_concat_length] at hi
      cases hi
      exact ⟨_, _, hjson, congrArg Nat.succ hsent, rfl⟩
  · intro record hrecord
    obtain ⟨hstamped, hencoded⟩ := hs.records record hrecord
    refine ⟨hstamped, fun hwriter hof => ?_⟩
    obtain ⟨sent, hmem, hsame⟩ := hencoded hwriter hof
    exact ⟨sent, mem_append_left _ hmem, hsame⟩
  · rw [length_append]
    exact hs.counted.trans (Nat.le_add_right _ _)
  · rw [map_append, take_append_of_le_length (by rw [length_map]; exact hs.counted)]
    exact hs.delivered

theorem sys_read_eq_data {records : List (String × Bytes)} {offset next : ℕ}
    (h : sys_read records offset = .data bytes (some next)) :
    ∃ writer, records[offset]? = some (writer, bytes) := by
  unfold sys_read at h
  split at h
  next record hrecord =>
    cases h
    exact ⟨record.1, hrecord⟩
  · cases h

/-- A call that returns a payload has read a record of the peer, and the payload is the next one
encoded. -/
theorem Delivers.returned (hs : Delivers d channel peer s)
    (failure : Option (Option (ℕ × ℕ) × String)) :
    let answer := s.mailbox.receive d (s.read failure)
    answer.1.toOption.join = none ∧ answer.2.codec = s.mailbox.codec ∨
      ∃ bytes payload, s.records[s.mailbox.offset]? = some (peer, bytes) ∧
        answer.1 = .ok (some payload) ∧
        answer.2.codec = { s.mailbox.codec with received := s.mailbox.codec.received + 1 } ∧
        (s.encoded.map Prod.fst)[s.mailbox.codec.received]? = some payload := by
  refine (receive_cases (Prod.eta _).symm).imp_right ?_
  rintro ⟨bytes, next, payload, hread, hreply, hcodec, htakes⟩
  cases failure with
  | some error => cases hread
  | none =>
    obtain ⟨writer, hrecord⟩ := sys_read_eq_data hread
    obtain ⟨rfl, hnext⟩ := hs.taken (mem_of_getElem? hrecord) htakes
    exact ⟨bytes, payload, hrecord, hreply, hcodec, hnext⟩

theorem Delivers.step (hs : Delivers d channel peer s) {event : Event}
    {answer : Option SessionPayload} (hlaw : lawful d s event)
    (h : step d s event = some (answer, s')) : Delivers d channel peer s' := by
  cases event with
  | encode payload =>
    rw [Session.step] at h
    split at h
    · cases h
      exact hs
    next hencode =>
      cases h
      exact hs.encode hlaw hencode
  | append writer bytes =>
    cases h
    refine ⟨hs.writer, hs.reader, hs.frames, fun record hrecord => ?_, hs.counted, hs.delivered⟩
    obtain hrecord | hrecord := mem_append.mp hrecord
    · exact hs.records record hrecord
    · rw [mem_singleton.mp hrecord]
      exact hlaw
  | receive failure =>
    cases h
    obtain ⟨hnone, hcodec⟩ | ⟨bytes, payload, -, hreply, hcodec, hnext⟩ := hs.returned failure
    · refine ⟨hs.writer, hcodec ▸ hs.reader, hs.frames, hs.records, hcodec ▸ hs.counted, ?_⟩
      rw [hnone, hcodec, hs.delivered, toList_none, append_nil]
    · have hlt := (List.getElem?_eq_some_iff.mp hnext).1
      rw [length_map] at hlt
      refine ⟨hs.writer, hcodec ▸ hs.reader, hs.frames, hs.records, hcodec ▸ hlt, ?_⟩
      rw [hreply, hcodec, hs.delivered, take_add_one, hnext]
      rfl
  | close =>
    cases h
    exact ⟨hs.writer, hs.reader, hs.frames, hs.records, hs.counted, hs.delivered⟩

/-- JSON with one envelope and one frame. -/
def farewell : Serde :=
  ⟨fun _ => .ok (.Obj [("from", .Str "controller"), ("to", .Str "agent"), ("kind", .Str "session"),
      ("body", .Str "")]),
    fun _ => .ok (.Obj [("protocol", .Str SESSION_PROTOCOL), ("channel_id", .Str "c"),
      ("sequence", .PosInt 1), ("type", .Str "closed"), ("reason", .Str "bye")]),
    fun _ => "", fun _ => [1], fun _ => ""⟩

end NexusVfs.Session
