import Mathlib
import Higress.Lib.GoString

/-!
Streaming responses of Bedrock (`ai-proxy/provider/bedrock.go` and `onStreamingResponseBody` of
`ai-proxy/main.go`). The response is a sequence of messages of the Amazon event stream, which the
callbacks receive in pieces of any size. A callback decodes the messages that are complete,
converts their events, and keeps the bytes of the next message.

The JSON of a payload and the conversion of an event are parameters: the results are about every
way to do them. The conversion has a state, since it numbers the tool calls of a response; it
never returns an error. There is no promotion of thinking and no conversion to the Claude format
behind it, and the api is not that of Anthropic messages.

A callback that has no event returns an error together with the raw chunk, and the chunk is what
the client is sent.
-/

namespace Higress.AiProxy.Bedrock

open Lib

/-! ### Messages of the event stream -/

/-- A step of `crc32.IEEE` by one bit. -/
def crcBit (c : UInt32) : UInt32 := if c &&& 1 = 1 then (c >>> 1) ^^^ 0xEDB88320 else c >>> 1

def crcByte (c : UInt32) (b : UInt8) : UInt32 :=
  (List.range 8).foldl (fun c _ => crcBit c) (c ^^^ b.toUInt32)

/-- `crc32.IEEE`. -/
def crc32 (s : GoString) : UInt32 := (s.foldl crcByte 0xFFFFFFFF) ^^^ 0xFFFFFFFF

/-- The number that bytes are in big endian. -/
def bigEndian (s : GoString) : ℕ := s.foldl (fun n b => n * 256 + b.toNat) 0

/-- `decodeUint32`. -/
def decodeUint32 (r : GoString) : Option (UInt32 × GoString) :=
  if 4 ≤ r.length then some (UInt32.ofNat (bigEndian (r.take 4)), r.drop 4) else none

/-- `decodeBytesValue`. -/
def decodeBytesValue (r : GoString) : Option (GoString × GoString) :=
  if 2 ≤ r.length ∧ bigEndian (r.take 2) ≤ (r.drop 2).length then
    some ((r.drop 2).take (bigEndian (r.take 2)), (r.drop 2).drop (bigEndian (r.take 2)))
  else none

/-- `stringValueType`. -/
def stringValueType : UInt8 := 7

/-- `decodeHeaderValue`: a value of another type is nil, and its bytes are not read. -/
def decodeHeaderValue : GoString → Option (Option GoString × GoString)
  | [] => none
  | typ :: r =>
      if typ = stringValueType then (decodeBytesValue r).map fun v => (some v.1, v.2)
      else some (none, r)

/-- `decodeHeaderName`. There are no more headers if nothing follows, or nothing follows the
length of a name. -/
inductive HeaderRead
  | eof
  | fail
  | header (name : GoString) (value : Option GoString) (r : GoString)

def decodeHeader : GoString → HeaderRead
  | [] => .eof
  | n :: r =>
      if r = [] ∧ n ≠ 0 then .eof
      else if r.length < n.toNat then .fail
      else
        match decodeHeaderValue (r.drop n.toNat) with
        | none => .fail
        | some (value, rest) => .header (r.take n.toNat) value rest

abbrev Headers := List (GoString × Option GoString)

/-- `headers.Set`. -/
def Headers.set (hs : Headers) (name : GoString) (value : Option GoString) : Headers :=
  match hs with
  | [] => [(name, value)]
  | h :: hs => if h.1 = name then (name, value) :: hs else h :: Headers.set hs name value

theorem length_of_decodeHeaderValue {r rest : GoString} {value : Option GoString}
    (h : decodeHeaderValue r = some (value, rest)) : rest.length < r.length := by
  cases r with
  | nil => cases h
  | cons typ r =>
      rw [decodeHeaderValue] at h
      split at h
      · obtain ⟨v, hv, heq⟩ := Option.map_eq_some_iff.mp h
        rw [decodeBytesValue] at hv
        split at hv
        · obtain rfl := Option.some.inj hv
          obtain ⟨-, rfl⟩ := Prod.mk.inj heq
          simp only [List.length_drop, List.length_cons]
          omega
        · cases hv
      · obtain ⟨-, rfl⟩ := Prod.mk.inj (Option.some.inj h)
        simp

theorem length_of_decodeHeader {bs r : GoString} {name : GoString} {value : Option GoString}
    (h : decodeHeader bs = .header name value r) : r.length < bs.length := by
  cases bs with
  | nil => cases h
  | cons n bs =>
      rw [decodeHeader] at h
      split at h
      · cases h
      · split at h
        · cases h
        · split at h
          · cases h
          · rename_i value' rest hvalue
            have hlt := length_of_decodeHeaderValue hvalue
            simp only [HeaderRead.header.injEq] at h
            obtain ⟨-, -, rfl⟩ := h
            simp only [List.length_drop] at hlt
            simp only [List.length_cons]
            omega

/-- `decodeHeaders`, with the headers so far. -/
def decodeHeaders (hs : Headers) (r : GoString) : Option Headers :=
  match _h : decodeHeader r with
  | .eof => some hs
  | .fail => none
  | .header name value rest => decodeHeaders (hs.set name value) rest
termination_by r.length
decreasing_by exact length_of_decodeHeader _h

structure MessagePrelude where
  length : UInt32
  headersLen : UInt32

/-- `PayloadLen`. -/
def MessagePrelude.payloadLen (p : MessagePrelude) : UInt32 := p.length - p.headersLen - 16

/-- `decodePrelude`, with what follows it. -/
def decodePrelude (r : GoString) : Option (MessagePrelude × GoString) :=
  (decodeUint32 r).bind fun length =>
    (decodeUint32 length.2).bind fun headersLen =>
      if length.1 = 0 then none
      else
        (decodeUint32 headersLen.2).bind fun crc =>
          if crc.1 = crc32 (r.take 8) then some (⟨length.1, headersLen.1⟩, crc.2) else none

/-- `decodeMessage`: the headers, the payload and what follows. The last checksum is of all bytes
before it. -/
def decodeMessage (r : GoString) : Option (Headers × GoString × GoString) :=
  (decodePrelude r).bind fun prelude =>
    let headersLen := prelude.1.headersLen.toNat
    (if 0 < headersLen then decodeHeaders [] (prelude.2.take headersLen) else some []).bind
      fun hs =>
        let body := prelude.2.drop headersLen
        let payloadLen := prelude.1.payloadLen.toNat
        (decodeUint32 (body.drop payloadLen)).bind fun crc =>
          if crc.1 = crc32 (r.take (r.length - (body.drop payloadLen).length)) then
            some (hs, body.take payloadLen, crc.2)
          else none

/-! ### The callbacks -/

/-- `amazonEventType`: the method of a nil value panics, which is the outer `none`. -/
def amazonEventType : Headers → Option (Option GoString)
  | [] => some none
  | (name, value) :: hs =>
      if name = bytes ":event-type" then value.map some else amazonEventType hs

/-- `ssePrefix + "[DONE]"`. -/
def doneEvent : GoString := bytes "data: [DONE]\n\n"

variable {ε σ : Type}

/-- `json.Unmarshal` of a payload to a `ConverseStreamEvent`, the assignment of its
`ContentBlockStop`, and `convertEventFromBedrockToOpenAI` with its state. -/
structure Codec (ε σ : Type) where
  unmarshal : GoString → Option ε
  contentBlockStop : ε → ε
  convert : σ → ε → GoString × σ

variable (cd : Codec ε σ)

/-- The event of a message, if its payload is one. -/
def Codec.event (hs : Headers) (payload : GoString) : Option (Option ε) :=
  match cd.unmarshal payload with
  | none => some none
  | some event =>
      (amazonEventType hs).map fun eventType =>
        some (if eventType = some (bytes "contentBlockStop") then cd.contentBlockStop event
          else event)

theorem eq_of_decodeUint32 {r : GoString} {x : UInt32 × GoString}
    (h : decodeUint32 r = some x) : 4 ≤ r.length ∧ x.2 = r.drop 4 := by
  rw [decodeUint32] at h
  split at h
  · obtain rfl := Option.some.inj h
    exact ⟨‹_›, rfl⟩
  · cases h

theorem eq_of_decodePrelude {r : GoString} {x : MessagePrelude × GoString}
    (h : decodePrelude r = some x) : 12 ≤ r.length ∧ x.2 = r.drop 12 := by
  obtain ⟨length, hlength, h⟩ := Option.bind_eq_some_iff.mp h
  obtain ⟨headersLen, hheadersLen, h⟩ := Option.bind_eq_some_iff.mp h
  split at h
  · cases h
  · obtain ⟨crc, hcrc, h⟩ := Option.bind_eq_some_iff.mp h
    split at h
    · obtain rfl := Option.some.inj h
      obtain ⟨-, h₁⟩ := eq_of_decodeUint32 hlength
      obtain ⟨-, h₂⟩ := eq_of_decodeUint32 hheadersLen
      obtain ⟨hlen, h₃⟩ := eq_of_decodeUint32 hcrc
      rw [h₁] at h₂
      rw [h₂] at hlen h₃
      simp only [List.length_drop] at hlen
      exact ⟨by omega, by rw [h₃, List.drop_drop, List.drop_drop]⟩
    · cases h

theorem length_of_decodeMessage {r : GoString} {m : Headers × GoString × GoString}
    (h : decodeMessage r = some m) : m.2.2.length < r.length := by
  obtain ⟨prelude, hprelude, h⟩ := Option.bind_eq_some_iff.mp h
  obtain ⟨hs, -, h⟩ := Option.bind_eq_some_iff.mp h
  obtain ⟨crc, hcrc, h⟩ := Option.bind_eq_some_iff.mp h
  split at h
  · obtain rfl := Option.some.inj h
    obtain ⟨hlen, hrest⟩ := eq_of_decodePrelude hprelude
    obtain ⟨-, hcrc⟩ := eq_of_decodeUint32 hcrc
    simp only [hcrc, hrest, List.length_drop]
    omega
  · cases h

/-- `extractAmazonEventStreamEvents` of a body: the events, and the bytes of the next message. -/
def extractAmazonEventStreamEvents (body : GoString) : Option (List ε × GoString) :=
  match _h : decodeMessage body with
  | none => some ([], body)
  | some m =>
      (cd.event m.1 m.2.1).bind fun event =>
        (extractAmazonEventStreamEvents m.2.2).map fun rest => (event.toList ++ rest.1, rest.2)
termination_by body.length
decreasing_by exact length_of_decodeMessage _h

/-- The conversion of events one after the other. -/
def Codec.convertAll : σ → List ε → GoString × σ
  | s, [] => ([], s)
  | s, event :: events =>
      let out := cd.convert s event
      let rest := convertAll out.2 events
      (out.1 ++ rest.1, rest.2)

/-- What a response keeps between callbacks. -/
structure Context (σ : Type) where
  streamingBody : Option GoString
  conversion : σ

/-- `OnStreamingResponseBody`; without a result it returns an error with the chunk. -/
def onStreamingResponseBody (ctx : Context σ) (chunk : GoString) (isLastChunk : Bool) :
    Option (Option GoString × Context σ) :=
  (extractAmazonEventStreamEvents cd (ctx.streamingBody.getD [] ++ chunk)).map fun extracted =>
    let streamingBody := if extracted.2 = [] then none else some extracted.2
    if extracted.1 = [] then
      (if isLastChunk then some doneEvent else none, { ctx with streamingBody })
    else
      let out := cd.convertAll ctx.conversion extracted.1
      (some (out.1 ++ if isLastChunk then doneEvent else []), ⟨streamingBody, out.2⟩)

/-- `onStreamingResponseBody` of the plugin: the chunk itself is sent if there was an error. -/
def pluginOnStreamingResponseBody (ctx : Context σ) (chunk : GoString) (isLastChunk : Bool) :
    Option (GoString × Context σ) :=
  (onStreamingResponseBody cd ctx chunk isLastChunk).map fun next => (next.1.getD chunk, next.2)

/-- The bytes that the client is sent. The last callback is marked as the end of the stream. -/
def deliver (ctx : Context σ) : List GoString → Option GoString
  | [] => some []
  | chunk :: chunks =>
      (pluginOnStreamingResponseBody cd ctx chunk (decide (chunks = []))).bind fun next =>
        (deliver next.2 chunks).map fun rest => next.1 ++ rest

/-! ### Messages on the wire -/

/-- Four bytes in big endian. -/
def be32 (n : UInt32) : GoString :=
  [UInt8.ofNat (n.toNat / 16777216), UInt8.ofNat (n.toNat / 65536), UInt8.ofNat (n.toNat / 256),
    UInt8.ofNat n.toNat]

/-- A message: the bytes of its headers and its payload. -/
structure Message where
  headers : GoString
  payload : GoString
  size : 16 + headers.length + payload.length < 2 ^ 32

namespace Message

variable (m : Message)

def prelude : GoString :=
  be32 (UInt32.ofNat (16 + m.headers.length + m.payload.length)) ++
    be32 (UInt32.ofNat m.headers.length)

/-- All but the last checksum. -/
def front : GoString := m.prelude ++ be32 (crc32 m.prelude) ++ m.headers ++ m.payload

def encode : GoString := m.front ++ be32 (crc32 m.front)

/-- The decoder takes the headers, and does not panic on the type of the event. It does if all
values are strings. -/
def Accepted : Prop := ∃ hs, decodeHeaders [] m.headers = some hs ∧ (amazonEventType hs).isSome

/-- The event of a message. -/
def event : Option ε :=
  ((decodeHeaders [] m.headers).bind fun hs => cd.event hs m.payload).join

end Message

section Wire

theorem be32_length (n : UInt32) : (be32 n).length = 4 := rfl

theorem bigEndian_be32 (n : UInt32) : UInt32.ofNat (bigEndian (be32 n)) = n := by
  have hn := n.toNat_lt
  have hvalue : bigEndian (be32 n) = n.toNat := by
    simp only [bigEndian, be32, List.foldl_cons, List.foldl_nil, UInt8.toNat_ofNat']
    omega
  rw [hvalue, UInt32.ofNat_toNat]

theorem decodeUint32_be32 (n : UInt32) (r : GoString) :
    decodeUint32 (be32 n ++ r) = some (n, r) := by
  have hlen := be32_length n
  rw [decodeUint32, if_pos (by rw [List.length_append]; omega), List.take_left' hlen,
    List.drop_left' hlen, bigEndian_be32]

variable (m : Message)

theorem Message.prelude_length : m.prelude.length = 8 := rfl

theorem decodePrelude_encode (r : GoString) :
    decodePrelude (m.prelude ++ be32 (crc32 m.prelude) ++ r) =
      some (⟨UInt32.ofNat (16 + m.headers.length + m.payload.length),
        UInt32.ofNat m.headers.length⟩, r) := by
  have htake : (m.prelude ++ be32 (crc32 m.prelude) ++ r).take 8 = m.prelude := by
    rw [List.append_assoc, List.take_left' m.prelude_length]
  have hlength : UInt32.ofNat (16 + m.headers.length + m.payload.length) ≠ 0 := by
    intro hzero
    have := congrArg UInt32.toNat hzero
    rw [UInt32.toNat_ofNat_of_lt' m.size] at this
    have hz : (0 : UInt32).toNat = 0 := rfl
    omega
  rw [decodePrelude, htake, Message.prelude, List.append_assoc, List.append_assoc,
    decodeUint32_be32, Option.bind_some, decodeUint32_be32, Option.bind_some, if_neg hlength,
    decodeUint32_be32, Option.bind_some, if_pos rfl]

theorem payloadLen_encode :
    (MessagePrelude.mk (UInt32.ofNat (16 + m.headers.length + m.payload.length))
      (UInt32.ofNat m.headers.length)).payloadLen.toNat = m.payload.length := by
  have hsize := m.size
  simp only [MessagePrelude.payloadLen, UInt32.toNat_sub, UInt32.toNat_ofNat']
  have h16 : (16 : UInt32).toNat = 16 := rfl
  omega

theorem Message.encode_append (r : GoString) :
    m.encode ++ r = m.prelude ++ be32 (crc32 m.prelude) ++
      (m.headers ++ (m.payload ++ (be32 (crc32 m.front) ++ r))) := by
  simp [Message.encode, Message.front]

theorem Message.encode_length : m.encode.length = 16 + m.headers.length + m.payload.length := by
  simp only [Message.encode, Message.front, List.length_append, m.prelude_length, be32_length]
  omega

theorem Message.headersLen_toNat : (UInt32.ofNat m.headers.length).toNat = m.headers.length :=
  UInt32.toNat_ofNat_of_lt' (by have := m.size; show m.headers.length < 2 ^ 32; omega)

/-- A whole message, whatever follows. -/
theorem decodeMessage_encode {hs : Headers} (h : decodeHeaders [] m.headers = some hs)
    (r : GoString) : decodeMessage (m.encode ++ r) = some (hs, m.payload, r) := by
  have hheaders : (if 0 < m.headers.length then decodeHeaders [] m.headers else some []) =
      some hs := by
    split
    · exact h
    · rename_i hpos
      have hnil : m.headers = [] := List.length_eq_zero_iff.mp (by omega)
      rw [hnil, decodeHeaders, decodeHeader] at h
      exact h
  have hfront : (m.encode ++ r).take ((m.encode ++ r).length -
      (be32 (crc32 m.front) ++ r).length) = m.front := by
    rw [Message.encode, List.append_assoc, List.length_append, Nat.add_sub_cancel,
      List.take_left' rfl]
  rw [decodeMessage]
  conv_lhs =>
    enter [1]
    rw [Message.encode_append, decodePrelude_encode]
  rw [Option.bind_some]
  dsimp only
  rw [m.headersLen_toNat, payloadLen_encode, List.take_left' rfl, List.drop_left' rfl, hheaders,
    Option.bind_some, List.drop_left' rfl, List.take_left' rfl, hfront, decodeUint32_be32,
    Option.bind_some, if_pos rfl]

/-- The start of a message is none. -/
theorem decodeMessage_prefix {p : GoString} (hp : p <+: m.encode) (hne : p ≠ m.encode) :
    decodeMessage p = none := by
  have hlen : p.length < m.encode.length :=
    Nat.lt_of_le_of_ne hp.length_le fun heq => hne (hp.eq_of_length heq)
  have hencode := m.encode_length
  cases hdecode : decodeMessage p with
  | none => rfl
  | some x =>
      obtain ⟨prelude, hprelude, hdecode⟩ := Option.bind_eq_some_iff.mp hdecode
      obtain ⟨hs, -, hdecode⟩ := Option.bind_eq_some_iff.mp hdecode
      obtain ⟨crc, hcrc, -⟩ := Option.bind_eq_some_iff.mp hdecode
      obtain ⟨h12, -⟩ := eq_of_decodePrelude hprelude
      have hfirst : m.prelude ++ be32 (crc32 m.prelude) <+: m.encode :=
        ⟨_, (by simpa using (m.encode_append []).symm)⟩
      obtain ⟨q, rfl⟩ := List.prefix_of_prefix_length_le hfirst hp h12
      rw [decodePrelude_encode] at hprelude
      obtain rfl := Option.some.inj hprelude
      -- There is no place for the last checksum.
      obtain ⟨h4, -⟩ := eq_of_decodeUint32 hcrc
      simp only [m.headersLen_toNat, payloadLen_encode, List.length_drop] at h4
      simp only [List.length_append, m.prelude_length, be32_length] at hlen
      omega

end Wire

/-! ### Any cut of the messages -/

/-- The messages that end within some first bytes. -/
def completed : List Message → ℕ → List Message
  | [], _ => []
  | m :: ms, n => if m.encode.length ≤ n then m :: completed ms (n - m.encode.length) else []

/-- Every callback but the last one that has bytes completes a message with an event. The first
message may have some bytes pending. -/
def Productive (ms : List Message) (pending : ℕ) : List GoString → Prop
  | [] => True
  | chunk :: chunks =>
      let done := completed ms (pending + chunk.length)
      (chunks ≠ [] → chunk ≠ [] → ∃ m ∈ done, (m.event cd).isSome) ∧
        Productive (ms.drop done.length)
          (pending + chunk.length - (done.flatMap Message.encode).length) chunks

instance decidableProductive :
    (ms : List Message) → (pending : ℕ) → (chunks : List GoString) →
      Decidable (Productive cd ms pending chunks)
  | _, _, [] => isTrue trivial
  | ms, pending, chunk :: chunks =>
      let done := completed ms (pending + chunk.length)
      have := decidableProductive (ms.drop done.length)
        (pending + chunk.length - (done.flatMap Message.encode).length) chunks
      inferInstanceAs (Decidable ((chunks ≠ [] → chunk ≠ [] → ∃ m ∈ done, (m.event cd).isSome) ∧ _))

/-- The converted events of messages, and the end. -/
def converted (s : σ) (ms : List Message) : GoString :=
  (cd.convertAll s (ms.filterMap fun m => m.event cd)).1 ++ doneEvent

/-- Bytes that are the start of the next message. -/
def Pending (p : GoString) (ms : List Message) : Prop :=
  p = [] ∨ ∃ m ∈ ms.head?, p <+: m.encode ∧ p ≠ m.encode

section Cuts

variable {cd}

theorem Pending.decodeMessage {p : GoString} {ms : List Message} (h : Pending p ms) :
    Bedrock.decodeMessage p = none := by
  rcases h with rfl | ⟨m, -, hp, hne⟩
  · rfl
  · exact decodeMessage_prefix m hp hne

theorem extract_of_none {body : GoString} (h : decodeMessage body = none) :
    extractAmazonEventStreamEvents cd body = some ([], body) := by
  rw [extractAmazonEventStreamEvents]
  split
  · rfl
  · rename_i m hm
    rw [h] at hm
    cases hm

theorem extract_of_some {body : GoString} {m : Headers × GoString × GoString}
    (h : decodeMessage body = some m) :
    extractAmazonEventStreamEvents cd body = (cd.event m.1 m.2.1).bind fun event =>
      (extractAmazonEventStreamEvents cd m.2.2).map fun rest =>
        (event.toList ++ rest.1, rest.2) := by
  rw [extractAmazonEventStreamEvents]
  split
  · rename_i hm
    rw [h] at hm
    cases hm
  · rename_i m' hm
    rw [h] at hm
    obtain rfl := Option.some.inj hm
    rfl

variable (cd) in
/-- A message that the decoder takes has an event or none, and does not panic. -/
theorem Message.Accepted.event {m : Message} (h : m.Accepted) :
    ∃ hs, decodeHeaders [] m.headers = some hs ∧ cd.event hs m.payload = some (m.event cd) := by
  obtain ⟨hs, hdecode, htype⟩ := h
  refine ⟨hs, hdecode, ?_⟩
  have hevent : ∃ event, cd.event hs m.payload = some event := by
    obtain ⟨eventType, heventType⟩ := Option.isSome_iff_exists.mp htype
    rw [Codec.event]
    cases cd.unmarshal m.payload with
    | none => exact ⟨_, rfl⟩
    | some event =>
        rw [heventType]
        exact ⟨_, rfl⟩
  obtain ⟨event, hevent⟩ := hevent
  rw [Message.event, hdecode, Option.bind_some, hevent]
  rfl

/-- The complete messages are decoded, and the bytes of the next one are kept. -/
theorem extract_messages {ms rest : List Message} {p : GoString} (hms : ∀ m ∈ ms, m.Accepted)
    (hp : Pending p rest) :
    extractAmazonEventStreamEvents cd (ms.flatMap Message.encode ++ p) =
      some (ms.filterMap fun m => m.event cd, p) := by
  induction ms with
  | nil => exact extract_of_none hp.decodeMessage
  | cons m ms ih =>
      obtain ⟨hs, hdecode, hevent⟩ := (hms m List.mem_cons_self).event cd
      rw [List.flatMap_cons, List.append_assoc, extract_of_some (decodeMessage_encode m hdecode _)]
      dsimp only
      rw [hevent, Option.bind_some, ih fun m' hm' => hms m' (List.mem_cons_of_mem _ hm')]
      cases hm : m.event cd with
      | none => simp [hm]
      | some event => simp [hm]

theorem Message.encode_ne_nil (m : Message) : m.encode ≠ [] := by
  intro hnil
  have hlen := m.encode_length
  rw [hnil, List.length_nil] at hlen
  omega

theorem completed_prefix (ms : List Message) (n : ℕ) : completed ms n <+: ms := by
  induction ms generalizing n with
  | nil => exact List.prefix_rfl
  | cons m ms ih =>
      rw [completed]
      split
      · exact List.cons_prefix_cons.mpr ⟨rfl, ih _⟩
      · exact List.nil_prefix

/-- The first bytes of messages are the messages that they complete and the start of the next. -/
theorem split_prefix {ms : List Message} {q : GoString} (h : q <+: ms.flatMap Message.encode) :
    ∃ p, q = (completed ms q.length).flatMap Message.encode ++ p ∧
      Pending p (ms.drop (completed ms q.length).length) := by
  induction ms generalizing q with
  | nil =>
      obtain rfl : q = [] := List.prefix_nil.mp h
      exact ⟨[], rfl, .inl rfl⟩
  | cons m ms ih =>
      rw [List.flatMap_cons] at h
      rw [completed]
      split
      · rename_i hle
        obtain ⟨q', rfl⟩ := List.prefix_of_prefix_length_le (List.prefix_append _ _) h hle
        obtain ⟨p, hq, hp⟩ := ih ((List.prefix_append_right_inj _).mp h)
        have hlen : (m.encode ++ q').length - m.encode.length = q'.length := by simp
        rw [hlen]
        refine ⟨p, ?_, by simpa using hp⟩
        rw [List.flatMap_cons, List.append_assoc, ← hq]
      · rename_i hlt
        have hp := List.prefix_of_prefix_length_le h (List.prefix_append m.encode _) (by omega)
        refine ⟨q, rfl, .inr ⟨m, rfl, hp, ?_⟩⟩
        rintro rfl
        exact hlt (Nat.le_refl _)

/-- All bytes are of complete messages. -/
theorem Pending.eq_nil {p : GoString} {ms : List Message} (h : Pending p ms)
    (heq : p = ms.flatMap Message.encode) : ms = [] := by
  cases ms with
  | nil => rfl
  | cons m ms =>
      rw [List.flatMap_cons] at heq
      rcases h with rfl | ⟨m', hm', hp, hne⟩
      · have hnil := (List.append_eq_nil_iff.mp heq.symm).1
        exact absurd hnil m.encode_ne_nil
      · obtain rfl : m = m' := by simpa using hm'
        have hle := hp.length_le
        have hlen : p.length = m.encode.length := by
          rw [heq, List.length_append] at hle ⊢
          omega
        exact absurd (hp.eq_of_length hlen) hne

theorem convertAll_append (s : σ) (a b : List ε) :
    cd.convertAll s (a ++ b) =
      ((cd.convertAll s a).1 ++ (cd.convertAll (cd.convertAll s a).2 b).1,
        (cd.convertAll (cd.convertAll s a).2 b).2) := by
  induction a generalizing s with
  | nil => rfl
  | cons event a ih => simp [Codec.convertAll, ih]

/-- One callback: what it sends, and what it keeps. -/
theorem callback {done rest : List Message} {p : GoString} {ctx : Context σ} {chunk : GoString}
    (last : Bool) (hdone : ∀ m ∈ done, m.Accepted)
    (hbody : ctx.streamingBody.getD [] ++ chunk = done.flatMap Message.encode ++ p)
    (hp : Pending p rest) :
    ∃ ctx' : Context σ, ctx'.streamingBody.getD [] = p ∧
      ctx'.conversion = (cd.convertAll ctx.conversion (done.filterMap fun m => m.event cd)).2 ∧
      pluginOnStreamingResponseBody cd ctx chunk last =
        some (if done.filterMap (fun m => m.event cd) = [] ∧ last = false then chunk
          else (cd.convertAll ctx.conversion (done.filterMap fun m => m.event cd)).1 ++
            if last then doneEvent else [], ctx') := by
  have hkept : (if p = [] then none else some p : Option GoString).getD [] = p := by
    split
    · rename_i hnil
      exact hnil.symm
    · rfl
  refine ⟨⟨if p = [] then none else some p, _⟩, hkept, rfl, ?_⟩
  rw [pluginOnStreamingResponseBody, onStreamingResponseBody, hbody, extract_messages hdone hp]
  simp only [Option.map_some]
  by_cases hevents : done.filterMap (fun m => m.event cd) = []
  · rw [if_pos hevents, hevents]
    cases last with
    | true => rfl
    | false => rfl
  · rw [if_neg hevents]
    simp only [hevents, false_and, if_false]
    rfl

theorem filterMap_eq_nil_iff (ms : List Message) :
    ms.filterMap (fun m => m.event cd) = [] ↔ ¬ ∃ m ∈ ms, (m.event cd).isSome := by
  rw [List.filterMap_eq_nil_iff]
  constructor
  · rintro h ⟨m, hm, hsome⟩
    rw [h m hm] at hsome
    cases hsome
  · intro h m hm
    cases hevent : m.event cd with
    | none => rfl
    | some event => exact absurd ⟨m, hm, by rw [hevent]; rfl⟩ h

/-- What the client is sent, and that it is more than the converted events if a callback was not
productive. -/
theorem deliver_messages {ms : List Message} {chunks : List GoString} {p : GoString}
    {ctx : Context σ} (hms : ∀ m ∈ ms, m.Accepted) (hne : chunks ≠ [])
    (hctx : ctx.streamingBody.getD [] = p)
    (hbytes : p ++ chunks.flatten = ms.flatMap Message.encode) :
    ∃ out, deliver cd ctx chunks = some out ∧
      (Productive cd ms p.length chunks → out = converted cd ctx.conversion ms) ∧
      (¬ Productive cd ms p.length chunks →
        (converted cd ctx.conversion ms).length < out.length) := by
  induction chunks generalizing ms p ctx with
  | nil => exact absurd rfl hne
  | cons chunk chunks ih =>
      have hprefix : p ++ chunk <+: ms.flatMap Message.encode :=
        ⟨chunks.flatten, by rw [← hbytes, List.flatten_cons, List.append_assoc]⟩
      obtain ⟨p', hbody, hp'⟩ := split_prefix hprefix
      rw [List.length_append] at hbody hp'
      obtain ⟨rest, hrest⟩ := completed_prefix ms (p.length + chunk.length)
      generalize hdone : completed ms (p.length + chunk.length) = done at *
      subst hrest
      have haccepted : ∀ m ∈ done, m.Accepted := fun m hm => hms m (List.mem_append_left _ hm)
      rw [List.drop_left' rfl] at hp'
      have hplen : p.length + chunk.length - (done.flatMap Message.encode).length = p'.length := by
        have := congrArg List.length hbody
        rw [List.length_append, List.length_append] at this
        omega
      have hafter : p' ++ chunks.flatten = rest.flatMap Message.encode := by
        rw [List.flatten_cons, ← List.append_assoc, hbody, List.append_assoc,
          List.flatMap_append] at hbytes
        exact List.append_cancel_left hbytes
      obtain ⟨ctx', hctx', hconversion, hcallback⟩ :=
        callback (decide (chunks = [])) haccepted (by rw [hctx]; exact hbody) hp'
      have hconverted : converted cd ctx.conversion (done ++ rest) =
          (cd.convertAll ctx.conversion (done.filterMap fun m => m.event cd)).1 ++
            converted cd ctx'.conversion rest := by
        rw [converted, List.filterMap_append, convertAll_append, converted, hconversion,
          List.append_assoc]
      rw [deliver, hcallback, Option.bind_some]
      simp only [Productive, hdone, List.drop_left' rfl, hplen]
      by_cases hlast : chunks = []
      · subst hlast
        obtain rfl := hp'.eq_nil (by simpa using hafter)
        refine ⟨_, rfl, fun _ => ?_, fun h => absurd ⟨by simp, trivial⟩ h⟩
        simp [converted]
      · obtain ⟨out, hout, hproductive, hmore⟩ :=
          ih (fun m hm => hms m (List.mem_append_right _ hm)) hlast hctx' hafter
        rw [hout, hconverted]
        refine ⟨_, rfl, ?_⟩
        by_cases hevent : ∃ m ∈ done, (m.event cd).isSome
        · have hnonempty := mt (filterMap_eq_nil_iff done).mp (not_not.mpr hevent)
          simp only [hnonempty, false_and, if_false, hlast, decide_false, List.append_nil,
            Bool.false_eq_true]
          refine ⟨fun h => by rw [hproductive h.2], fun h => ?_⟩
          have hlt := hmore fun hrest => h ⟨fun _ _ => hevent, hrest⟩
          rw [List.length_append, List.length_append]
          omega
        · have hempty := (filterMap_eq_nil_iff done).mpr hevent
          simp only [hempty, hlast, decide_false, and_self, if_true, Codec.convertAll,
            List.nil_append]
          constructor
          · intro h
            have hchunk : chunk = [] := not_not.mp fun hne => hevent (h.1 hlast hne)
            rw [hchunk, List.nil_append, hproductive h.2]
          · intro h
            rw [List.length_append]
            by_cases hrest : Productive cd rest p'.length chunks
            · have hchunk : chunk ≠ [] := fun hnil => h ⟨fun _ hne => absurd hnil hne, hrest⟩
              have hpos := List.length_pos_of_ne_nil hchunk
              rw [hproductive hrest]
              omega
            · have hlt := hmore hrest
              omega

end Cuts

/-! ### Headers with strings -/

/-- A header on the wire whose value is a string. -/
def encodeHeader (h : GoString × GoString) : GoString :=
  UInt8.ofNat h.1.length :: (h.1 ++ stringValueType ::
    UInt8.ofNat (h.2.length / 256) :: UInt8.ofNat h.2.length :: h.2)

theorem decodeHeader_encodeHeader {h : GoString × GoString} (hname : h.1.length < 256)
    (hvalue : h.2.length < 65536) (r : GoString) :
    decodeHeader (encodeHeader h ++ r) = .header h.1 (some h.2) r := by
  have hn : (UInt8.ofNat h.1.length).toNat = h.1.length := by
    rw [UInt8.toNat_ofNat']
    omega
  have hv : bigEndian [UInt8.ofNat (h.2.length / 256), UInt8.ofNat h.2.length] = h.2.length := by
    simp only [bigEndian, List.foldl_cons, List.foldl_nil, UInt8.toNat_ofNat']
    omega
  have hbytes : decodeBytesValue (UInt8.ofNat (h.2.length / 256) :: UInt8.ofNat h.2.length ::
      (h.2 ++ r)) = some (h.2, r) := by
    simp [decodeBytesValue, hv]
  rw [encodeHeader, List.cons_append, decodeHeader, if_neg (by simp), hn,
    if_neg (by simp), List.append_assoc, List.drop_left' rfl, List.take_left' rfl]
  simp [decodeHeaderValue, hbytes]

theorem decodeHeaders_of_header {hs : Headers} {r rest name : GoString} {value : Option GoString}
    (h : decodeHeader r = .header name value rest) :
    decodeHeaders hs r = decodeHeaders (hs.set name value) rest := by
  rw [decodeHeaders]
  split
  · rename_i heof
    rw [h] at heof
    cases heof
  · rename_i hfail
    rw [h] at hfail
    cases hfail
  · rename_i name' value' rest' hheader
    rw [h] at hheader
    obtain ⟨rfl, rfl, rfl⟩ := HeaderRead.header.inj hheader
    rfl

theorem decodeHeaders_strings {headers : List (GoString × GoString)}
    (h : ∀ x ∈ headers, x.1.length < 256 ∧ x.2.length < 65536) (hs : Headers) :
    decodeHeaders hs (headers.flatMap encodeHeader) =
      some (headers.foldl (fun hs x => hs.set x.1 (some x.2)) hs) := by
  induction headers generalizing hs with
  | nil =>
      rw [List.flatMap_nil, decodeHeaders, decodeHeader]
      rfl
  | cons x headers ih =>
      obtain ⟨hname, hvalue⟩ := h x List.mem_cons_self
      rw [List.flatMap_cons, decodeHeaders_of_header (decodeHeader_encodeHeader hname hvalue _),
        ih fun y hy => h y (List.mem_cons_of_mem _ hy)]
      rfl

theorem mem_set {hs : Headers} {name : GoString} {value : Option GoString}
    {x : GoString × Option GoString} (h : x ∈ hs.set name value) :
    x = (name, value) ∨ x ∈ hs := by
  induction hs with
  | nil => exact .inl (List.mem_singleton.mp h)
  | cons y hs ih =>
      rw [Headers.set] at h
      split at h
      · rcases List.mem_cons.mp h with h | h
        · exact .inl h
        · exact .inr (List.mem_cons_of_mem _ h)
      · rcases List.mem_cons.mp h with rfl | h
        · exact .inr List.mem_cons_self
        · exact (ih h).imp_right (List.mem_cons_of_mem _)

theorem amazonEventType_isSome {hs : Headers} (h : ∀ x ∈ hs, x.2.isSome) :
    (amazonEventType hs).isSome := by
  induction hs with
  | nil => rfl
  | cons x hs ih =>
      rw [amazonEventType]
      split
      · rw [Option.isSome_map]
        exact h x List.mem_cons_self
      · exact ih fun y hy => h y (List.mem_cons_of_mem _ hy)

/-- The decoder takes headers whose values are strings. -/
theorem accepted_of_strings {m : Message} {headers : List (GoString × GoString)}
    (h : ∀ x ∈ headers, x.1.length < 256 ∧ x.2.length < 65536)
    (hm : m.headers = headers.flatMap encodeHeader) : m.Accepted := by
  refine ⟨_, hm ▸ decodeHeaders_strings h [], amazonEventType_isSome ?_⟩
  have hall : ∀ (hs : Headers), (∀ x ∈ hs, x.2.isSome) →
      ∀ x ∈ headers.foldl (fun hs x => hs.set x.1 (some x.2)) hs, x.2.isSome := by
    clear h hm
    induction headers with
    | nil => exact fun hs hhs => hhs
    | cons y headers ih =>
        intro hs hhs
        apply ih
        intro x hx
        rcases mem_set hx with rfl | hx
        · rfl
        · exact hhs x hx
  exact hall [] (by simp)

/-! ### What the client is sent -/

/-- The client is sent the converted events of the messages and one end of the stream exactly if
every callback but the last one that has bytes completes a message with an event. -/
theorem deliver_eq_converted_iff (s : σ) (ms : List Message) (chunks : List GoString)
    (hms : ∀ m ∈ ms, m.Accepted) (hne : chunks ≠ [])
    (hbytes : chunks.flatten = ms.flatMap Message.encode) :
    deliver cd ⟨none, s⟩ chunks = some (converted cd s ms) ↔ Productive cd ms 0 chunks := by
  obtain ⟨out, hout, hproductive, hmore⟩ :=
    @deliver_messages ε σ cd ms chunks [] ⟨none, s⟩ hms hne rfl hbytes
  rw [hout]
  constructor
  · intro heq
    by_contra hnot
    have hlt := hmore hnot
    rw [Option.some.inj heq] at hlt
    exact Nat.lt_irrefl _ hlt
  · intro h
    rw [hproductive h]

/-- The end of a content block, which the conversion sends nothing for. -/
def stopMessage : Message :=
  ⟨encodeHeader (bytes ":event-type", bytes "contentBlockStop"),
    bytes "\x7b\"contentBlockIndex\":0\x7d", by decide⟩

/-- The codec as far as such messages go: an event is whether a content block stops. -/
def stopCodec : Codec Bool Unit where
  unmarshal payload := if payload = stopMessage.payload then some false else none
  contentBlockStop _ := true
  convert _ stop := (if stop then [] else bytes "data: \x7b\x7d\n\n", ())

theorem stopMessage_accepted : ∀ m ∈ [stopMessage, stopMessage], m.Accepted := by
  intro m hm
  obtain rfl : m = stopMessage := by simpa using hm
  exact @accepted_of_strings stopMessage [(bytes ":event-type", bytes "contentBlockStop")]
    (by decide) rfl

theorem deliver_eq_converted_iff_two :
    let chunks := [stopMessage.encode ++ stopMessage.encode.take 20, stopMessage.encode.drop 20]
    Productive stopCodec [stopMessage, stopMessage] 0 chunks ∧
      deliver stopCodec ⟨none, ()⟩ chunks =
        some (converted stopCodec () [stopMessage, stopMessage]) := by
  intro chunks
  have hproductive : Productive stopCodec [stopMessage, stopMessage] 0 chunks := by decide +kernel
  refine ⟨hproductive, ?_⟩
  exact (deliver_eq_converted_iff stopCodec () _ chunks stopMessage_accepted (by simp [chunks])
    (by simp [chunks])).mpr hproductive

/-- The first callback has no complete message: the client is sent its bytes. -/
theorem deliver_raw_bytes :
    deliver stopCodec ⟨none, ()⟩ [stopMessage.encode.take 20, stopMessage.encode.drop 20] =
        some (stopMessage.encode.take 20 ++ doneEvent) ∧
      converted stopCodec () [stopMessage] = doneEvent := by
  decide +kernel

end Higress.AiProxy.Bedrock
