import Mathlib
import Higress.AiProxy.Bedrock

/-!
The decoder of the Amazon event stream (`extractAmazonEventStreamEvents` in
`ai-proxy/provider/bedrock.go`) on messages with string headers, whose bytes come in any pieces, and
on any bytes. A reader gives no more than it has, so a length that is too large makes the decoder
fail or see less; what is kept is always the end of what has come.
-/

namespace Higress.AiProxy.Bedrock

open Lib

/-! ### String headers -/

/-- A header with a string value. -/
structure StringHeader where
  name : GoString
  value : GoString
  name_lt : name.length < 256
  value_lt : value.length < 65536

/-- Two bytes in big endian. -/
def be16 (n : ℕ) : GoString := [UInt8.ofNat (n / 256), UInt8.ofNat n]

def StringHeader.encode (h : StringHeader) : GoString :=
  UInt8.ofNat h.name.length :: (h.name ++ stringValueType :: (be16 h.value.length ++ h.value))

theorem bigEndian_be16 {n : ℕ} (hn : n < 65536) : bigEndian (be16 n) = n := by
  simp only [bigEndian, be16, List.foldl_cons, List.foldl_nil, UInt8.toNat_ofNat']
  omega

theorem decodeBytesValue_be16 {v : GoString} (hv : v.length < 65536) (r : GoString) :
    decodeBytesValue (be16 v.length ++ (v ++ r)) = some (v, r) := by
  have htwo : (be16 v.length).length = 2 := rfl
  have htake : (be16 v.length ++ (v ++ r)).take 2 = be16 v.length := List.take_left' htwo
  have hdrop : (be16 v.length ++ (v ++ r)).drop 2 = v ++ r := List.drop_left' htwo
  have hlen : 2 ≤ (be16 v.length ++ (v ++ r)).length := by
    rw [List.length_append, htwo]
    omega
  rw [decodeBytesValue, htake, hdrop, bigEndian_be16 hv, if_pos ⟨hlen, by simp⟩, List.take_left' rfl,
    List.drop_left' rfl]

theorem decodeHeader_encode (h : StringHeader) (r : GoString) :
    decodeHeader (h.encode ++ r) = .header h.name (some h.value) r := by
  have hn : (UInt8.ofNat h.name.length).toNat = h.name.length := by
    rw [UInt8.toNat_ofNat']
    exact Nat.mod_eq_of_lt h.name_lt
  have hne : ¬ (h.name ++ stringValueType :: (be16 h.value.length ++ h.value) ++ r = [] ∧
      UInt8.ofNat h.name.length ≠ 0) := by
    simp
  have hlen : ¬ (h.name ++ stringValueType :: (be16 h.value.length ++ h.value) ++ r).length <
      h.name.length := by
    simp only [List.length_append]
    omega
  have hdrop : (h.name ++ stringValueType :: (be16 h.value.length ++ h.value) ++ r).drop
      h.name.length = stringValueType :: (be16 h.value.length ++ (h.value ++ r)) := by
    rw [List.append_assoc, List.drop_left' rfl]
    simp
  have htake : (h.name ++ stringValueType :: (be16 h.value.length ++ h.value) ++ r).take
      h.name.length = h.name := by
    rw [List.append_assoc, List.take_left' rfl]
  rw [StringHeader.encode, List.cons_append, decodeHeader, if_neg hne, hn, if_neg hlen, hdrop, htake,
    decodeHeaderValue, if_pos rfl, decodeBytesValue_be16 h.value_lt]
  rfl

/-- The headers that are decoded: of several with one name the last. -/
def setAll (hs : Headers) (headers : List StringHeader) : Headers :=
  headers.foldl (fun hs h => hs.set h.name (some h.value)) hs

theorem decodeHeaders_encode (hs : Headers) (headers : List StringHeader) :
    decodeHeaders hs (headers.flatMap StringHeader.encode) = some (setAll hs headers) := by
  induction headers generalizing hs with
  | nil =>
      rw [List.flatMap_nil, decodeHeaders, decodeHeader]
      rfl
  | cons h headers ih =>
      rw [List.flatMap_cons, decodeHeaders]
      split
      · rename_i heof
        rw [decodeHeader_encode] at heof
        cases heof
      · rename_i hfail
        rw [decodeHeader_encode] at hfail
        cases hfail
      · rename_i name value rest hheader
        rw [decodeHeader_encode, HeaderRead.header.injEq] at hheader
        obtain ⟨rfl, rfl, rfl⟩ := hheader
        exact ih _

/-- The type of an event, the last one if there are several. -/
def typeOf (start : Option GoString) (headers : List StringHeader) : Option GoString :=
  headers.foldl (fun t h => if h.name = bytes ":event-type" then some h.value else t) start

theorem amazonEventType_set (hs : Headers) (name value : GoString) {t : Option GoString}
    (h : amazonEventType hs = some t) :
    amazonEventType (hs.set name (some value)) =
      some (if name = bytes ":event-type" then some value else t) := by
  induction hs with
  | nil =>
      obtain rfl : none = t := Option.some.inj h
      rw [Headers.set, amazonEventType]
      split_ifs <;> rfl
  | cons header hs ih =>
      obtain ⟨name', value'⟩ := header
      rw [amazonEventType] at h
      rw [Headers.set]
      split_ifs with hsame hname hname
      · -- the first header with this name is the one that is set
        rw [amazonEventType, if_pos hname]
        rfl
      · change name' = name at hsame
        subst hsame
        rw [if_neg hname] at h
        rw [amazonEventType, if_neg hname]
        exact h
      · rw [amazonEventType]
        change ¬ name' = name at hsame
        have hother : name' ≠ bytes ":event-type" := fun heq => hsame (heq.trans hname.symm)
        rw [if_neg hother] at h
        rw [if_neg hother, ih h, if_pos hname]
      · rw [amazonEventType]
        split_ifs with htype
        · rw [if_pos htype] at h
          exact h
        · rw [if_neg htype] at h
          rw [ih h, if_neg hname]

theorem amazonEventType_setAll (hs : Headers) (headers : List StringHeader) {t : Option GoString}
    (h : amazonEventType hs = some t) :
    amazonEventType (setAll hs headers) = some (typeOf t headers) := by
  induction headers generalizing hs t with
  | nil => exact h
  | cons header headers ih => exact ih _ (amazonEventType_set hs header.name header.value h)

/-! ### Messages -/

variable {ε σ : Type} {cd : Codec ε σ}

/-- A message with string headers. Its lengths and checksums are those of its bytes. -/
structure StringMessage where
  headers : List StringHeader
  payload : GoString
  size : 16 + (headers.flatMap StringHeader.encode).length + payload.length < 2 ^ 32

namespace StringMessage

def toMessage (m : StringMessage) : Message where
  headers := m.headers.flatMap StringHeader.encode
  payload := m.payload
  size := m.size

def encode (m : StringMessage) : GoString := m.toMessage.encode

/-- The event of a message, if its payload is one. -/
def event (cd : Codec ε σ) (m : StringMessage) : Option ε :=
  (cd.unmarshal m.payload).map fun event =>
    if typeOf none m.headers = some (bytes "contentBlockStop") then cd.contentBlockStop event
    else event

theorem accepted (m : StringMessage) : m.toMessage.Accepted :=
  ⟨_, decodeHeaders_encode [] m.headers, by
    rw [amazonEventType_setAll [] m.headers rfl]
    rfl⟩

theorem event_eq (cd : Codec ε σ) (m : StringMessage) : m.toMessage.event cd = m.event cd := by
  have hdecode : decodeHeaders [] m.toMessage.headers = some (setAll [] m.headers) :=
    decodeHeaders_encode [] m.headers
  rw [Message.event, hdecode, Option.bind_some, Codec.event, event]
  have hpayload : m.toMessage.payload = m.payload := rfl
  rw [hpayload]
  cases cd.unmarshal m.payload with
  | none => rfl
  | some event =>
      rw [amazonEventType_setAll [] m.headers rfl]
      rfl

end StringMessage

/-! ### Calls -/

/-- Calls of `extractAmazonEventStreamEvents` one after the other: all events, and the bytes that the
context keeps (`ctxKeyStreamingBody`). -/
def extractCalls (cd : Codec ε σ) (buffered : Option GoString) :
    List GoString → Option (List ε × Option GoString)
  | [] => some ([], buffered)
  | chunk :: chunks =>
      (extractAmazonEventStreamEvents cd (buffered.getD [] ++ chunk)).bind fun extracted =>
        (extractCalls cd (if extracted.2 = [] then none else some extracted.2) chunks).map
          fun rest => (extracted.1 ++ rest.1, rest.2)

/-- The messages that end within some first bytes. -/
def completedStrings : List StringMessage → ℕ → List StringMessage
  | [], _ => []
  | m :: ms, n =>
      if m.encode.length ≤ n then m :: completedStrings ms (n - m.encode.length) else []

theorem map_completedStrings (ms : List StringMessage) (n : ℕ) :
    (completedStrings ms n).map StringMessage.toMessage =
      completed (ms.map StringMessage.toMessage) n := by
  induction ms generalizing n with
  | nil => rfl
  | cons m ms ih =>
      rw [completedStrings, List.map_cons, completed]
      split_ifs with hle hlt hlt
      · rw [List.map_cons, ih]
        rfl
      · exact absurd hle hlt
      · exact absurd hlt hle
      · rfl

theorem flatMap_encode (ms : List StringMessage) :
    (ms.map StringMessage.toMessage).flatMap Message.encode = ms.flatMap StringMessage.encode := by
  rw [List.flatMap_map]
  rfl

/-- Two pieces of the bytes give the messages of the first one and then those that the second one
completes. -/
theorem completed_append {ms : List Message} {a b : ℕ} :
    completed ms (a + b) = completed ms a ++
      completed (ms.drop (completed ms a).length)
        (a + b - ((completed ms a).flatMap Message.encode).length) := by
  induction ms generalizing a with
  | nil => simp [completed]
  | cons m ms ih =>
      by_cases hle : m.encode.length ≤ a
      · have hadd : m.encode.length ≤ a + b := by omega
        have hsub : a + b - m.encode.length = (a - m.encode.length) + b := by omega
        rw [completed, completed, if_pos hle, if_pos hadd, hsub, ih, List.cons_append,
          List.length_cons, List.drop_succ_cons, List.flatMap_cons, List.length_append]
        congr 3
        omega
      · have hnone : completed (m :: ms) a = [] := by rw [completed, if_neg hle]
        rw [hnone]
        simp

/-- Any calls, with some bytes of the next message buffered. -/
theorem extractCalls_messages {ms : List Message} (hms : ∀ m ∈ ms, m.Accepted)
    {buffered : Option GoString} {chunks : List GoString}
    (hbytes : buffered.getD [] ++ chunks.flatten <+: ms.flatMap Message.encode)
    (hpending : Pending (buffered.getD []) ms) :
    let received := buffered.getD [] ++ chunks.flatten
    ∃ kept, extractCalls cd buffered chunks =
        some ((completed ms received.length).filterMap fun m => m.event cd, kept) ∧
      kept.getD [] =
        received.drop ((completed ms received.length).flatMap Message.encode).length := by
  induction chunks generalizing ms buffered with
  | nil =>
      have hnone : completed ms (buffered.getD [] ++ ([] : List GoString).flatten).length = [] := by
        cases ms with
        | nil => rfl
        | cons m ms =>
            rw [completed, if_neg]
            rcases hpending with hnil | ⟨m', hm', hp, hne⟩
            · have hpos := List.length_pos_iff.mpr m.encode_ne_nil
              simp only [hnil, List.flatten_nil, List.append_nil, List.length_nil]
              omega
            · obtain rfl : m = m' := by simpa using hm'
              have hlt := Nat.lt_of_le_of_ne hp.length_le fun heq => hne (hp.eq_of_length heq)
              simp only [List.flatten_nil, List.append_nil]
              omega
      refine ⟨buffered, ?_, ?_⟩
      · rw [hnone]
        rfl
      · rw [hnone]
        simp
  | cons chunk chunks ih =>
      have hprefix : buffered.getD [] ++ chunk <+: ms.flatMap Message.encode := by
        refine List.IsPrefix.trans ⟨chunks.flatten, ?_⟩ hbytes
        rw [List.flatten_cons, List.append_assoc]
      obtain ⟨p, hbody, hp⟩ := split_prefix hprefix
      obtain ⟨rest, hrest⟩ := completed_prefix ms (buffered.getD [] ++ chunk).length
      have hsplit : completed ms (buffered.getD [] ++ (chunk :: chunks).flatten).length = _ :=
        (congrArg (completed ms) (by
          rw [List.flatten_cons, ← List.append_assoc, List.length_append])).trans
          (@completed_append ms (buffered.getD [] ++ chunk).length chunks.flatten.length)
      generalize completed ms (buffered.getD [] ++ chunk).length = done at *
      subst hrest
      have hdone : ∀ m ∈ done, m.Accepted := fun m hm => hms m (List.mem_append_left _ hm)
      have hmore : ∀ m ∈ rest, m.Accepted := fun m hm => hms m (List.mem_append_right _ hm)
      rw [List.drop_left' rfl] at hp hsplit
      have hkept : (if p = [] then none else some p : Option GoString).getD [] = p := by
        split_ifs with hnil
        · exact hnil.symm
        · rfl
      have hreceived : buffered.getD [] ++ (chunk :: chunks).flatten =
          done.flatMap Message.encode ++ (p ++ chunks.flatten) := by
        rw [List.flatten_cons, ← List.append_assoc, hbody, List.append_assoc]
      have hbytes' : p ++ chunks.flatten <+: rest.flatMap Message.encode := by
        rw [hreceived, List.flatMap_append] at hbytes
        exact (List.prefix_append_right_inj _).mp hbytes
      have hlen : (buffered.getD [] ++ chunk).length + chunks.flatten.length -
          (done.flatMap Message.encode).length = (p ++ chunks.flatten).length := by
        rw [hbody, List.length_append, List.length_append]
        omega
      rw [hlen] at hsplit
      have hstep := @extract_messages ε σ cd done rest p hdone hp
      rw [← hbody] at hstep
      obtain ⟨kept, hcalls, hrestkept⟩ :=
        @ih rest hmore (if p = [] then none else some p) (by rwa [hkept]) (by rwa [hkept])
      rw [hkept] at hcalls hrestkept
      generalize completed rest (p ++ chunks.flatten).length = more at *
      refine ⟨kept, ?_, ?_⟩
      · rw [extractCalls, hstep, Option.bind_some]
        dsimp only
        rw [hcalls, hsplit, List.filterMap_append]
        rfl
      · rw [hrestkept, hsplit, hreceived, List.flatMap_append, List.length_append,
          ← List.drop_drop, List.drop_left' rfl]

/-! ### Any bytes -/

/-- Where a message that is decoded stands: its payload and its last checksum are before what
follows, in the bytes that were given. -/
theorem decodeMessage_within {r : GoString} {m : Headers × GoString × GoString}
    (h : decodeMessage r = some m) :
    ∃ before checksum, r = before ++ m.2.1 ++ checksum ++ m.2.2 ∧ 12 ≤ before.length ∧
      checksum.length = 4 := by
  obtain ⟨prelude, hprelude, h⟩ := Option.bind_eq_some_iff.mp h
  obtain ⟨hs, -, h⟩ := Option.bind_eq_some_iff.mp h
  obtain ⟨crc, hcrc, h⟩ := Option.bind_eq_some_iff.mp h
  split at h
  · obtain rfl := Option.some.inj h
    obtain ⟨hlen, hrest⟩ := eq_of_decodePrelude hprelude
    obtain ⟨hfour, hdrop⟩ := eq_of_decodeUint32 hcrc
    generalize prelude.1.headersLen.toNat = headersLen at *
    generalize prelude.1.payloadLen.toNat = payloadLen at *
    refine ⟨r.take 12 ++ (r.drop 12).take headersLen,
      ((prelude.2.drop headersLen).drop payloadLen).take 4, ?_, ?_, ?_⟩
    · dsimp only
      rw [hdrop, hrest, List.append_assoc, List.take_append_drop, List.append_assoc,
        List.take_append_drop, List.append_assoc, List.take_append_drop, List.take_append_drop]
    · rw [List.length_append, List.length_take]
      omega
    · rw [List.length_take]
      omega
  · cases h

/-- What is kept is the end of the bytes that were given. -/
theorem kept_suffix {body : GoString} {events : List ε} {kept : GoString}
    (h : extractAmazonEventStreamEvents cd body = some (events, kept)) : kept <:+ body := by
  induction hn : body.length using Nat.strongRecOn generalizing body events with
  | _ n ih =>
      subst hn
      cases hdecode : decodeMessage body with
      | none =>
          rw [extract_of_none hdecode] at h
          obtain ⟨-, rfl⟩ := Prod.mk.inj (Option.some.inj h)
          exact List.suffix_refl body
      | some m =>
          rw [extract_of_some hdecode] at h
          obtain ⟨event, -, h⟩ := Option.bind_eq_some_iff.mp h
          obtain ⟨rest, hrest, heq⟩ := Option.map_eq_some_iff.mp h
          obtain ⟨-, rfl⟩ := Prod.mk.inj heq
          have hsuffix := ih m.2.2.length (length_of_decodeMessage hdecode) hrest rfl
          obtain ⟨before, checksum, hbody, -⟩ := decodeMessage_within hdecode
          exact hsuffix.trans ⟨before ++ m.2.1 ++ checksum, hbody.symm⟩

/-- The calls on the bytes of messages with string headers, cut anywhere: they return the events of
the messages that are complete, each once and in order, and keep the bytes of the next one. On any
bytes, whatever their length fields say, a message is read from the bytes that were given, and what
is kept is their end. -/
theorem extract_any_cut (cd : Codec ε σ) :
    (∀ (ms : List StringMessage) (chunks : List GoString),
      chunks.flatten <+: ms.flatMap StringMessage.encode →
      let complete := completedStrings ms chunks.flatten.length
      ∃ kept, extractCalls cd none chunks = some (complete.filterMap (StringMessage.event cd), kept) ∧
        chunks.flatten = complete.flatMap StringMessage.encode ++ kept.getD []) ∧
    (∀ r m, decodeMessage r = some m →
      ∃ before checksum, r = before ++ m.2.1 ++ checksum ++ m.2.2 ∧ 12 ≤ before.length ∧
        checksum.length = 4) ∧
    ∀ body events kept, extractAmazonEventStreamEvents cd body = some (events, kept) →
      kept <:+ body := by
  refine ⟨?_, fun r m => decodeMessage_within, fun body events kept => kept_suffix⟩
  intro ms chunks hbytes complete
  rw [← flatMap_encode] at hbytes
  have haccepted : ∀ m ∈ ms.map StringMessage.toMessage, m.Accepted := by
    intro m hm
    obtain ⟨sm, -, rfl⟩ := List.mem_map.mp hm
    exact sm.accepted
  obtain ⟨kept, hcalls, hkept⟩ := @extractCalls_messages ε σ cd _ haccepted none chunks hbytes
    (Or.inl rfl)
  have hevents : (completed (ms.map StringMessage.toMessage) chunks.flatten.length).filterMap
      (fun m => m.event cd) = complete.filterMap (StringMessage.event cd) := by
    rw [← map_completedStrings, List.filterMap_map]
    exact List.filterMap_congr fun m _ => m.event_eq cd
  simp only [Option.getD_none, List.nil_append] at hcalls hkept
  refine ⟨kept, ?_, ?_⟩
  · rw [hcalls, hevents]
  · obtain ⟨p, hp, -⟩ := split_prefix hbytes
    rw [hkept, ← flatMap_encode, map_completedStrings]
    generalize (completed (ms.map StringMessage.toMessage) chunks.flatten.length).flatMap
      Message.encode = front at *
    rw [hp, List.drop_left' rfl]

end Higress.AiProxy.Bedrock
