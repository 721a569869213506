import Higress.Mcp.Capabilities
import Higress.Mcp.Classification

/-!
The preparation of a request before it is dispatched (`request.go`,
`envelope.go`, `transport.go`): its dialect is classified, the envelope and the
metadata are read, and a modern request passes the policy of its method, which
may require capabilities of the client.

The third-party JSON reader `gjson` is a parameter. `json.Unmarshal` is the
reader of the library, with its limit on nesting.
-/

namespace Higress.Mcp.Request

open Lib Capabilities Classification

/-! ### Errors -/

structure ErrorData where
  supported : List GoString
  requested : GoString
  requiredCapabilities : Option ClientCapabilities

structure Error where
  httpStatus : ℕ
  code : ℤ
  message : GoString
  data : Option ErrorData

def newError (httpStatus : ℕ) (code : ℤ) (message : GoString) : Error :=
  ⟨httpStatus, code, message, none⟩

def parseError : Error := newError 400 (-32700) (bytes "parse error")

def invalidRequest (message : GoString) : Error := newError 400 (-32600) message

def invalidParams (message : GoString) : Error := newError 400 (-32602) message

def headerMismatch : Error :=
  newError 400 (-32020) (bytes "MCP header does not match request body")

/-- `cloneClientCapabilities`: written and read again. -/
def cloneClientCapabilities (capabilities : ClientCapabilities) : ClientCapabilities :=
  (unmarshalJSON capabilities.marshalJSON).getD {}

def missingRequiredClientCapability (requiredCapabilities : ClientCapabilities) : Error :=
  { newError 400 (-32021) (bytes "missing required client capability") with
    data := some ⟨[], [], some (cloneClientCapabilities requiredCapabilities)⟩ }

def unsupportedVersion (requested : GoString) (supported : List GoString) : Error :=
  { newError 400 (-32022) (bytes "unsupported MCP protocol version") with
    data := some ⟨supported, requested, none⟩ }

def methodNotFound : Error := newError 404 (-32601) (bytes "method not found")

def methodNotAllowed : Error :=
  newError 405 (-32600) (bytes "HTTP method not supported on this MCP endpoint")

def requestTooLarge : Error := newError 413 (-32600) (bytes "request body exceeds the MCP limit")

/-! ### Versions and transports -/

inductive Era
  | legacy
  | modern
  deriving DecidableEq

def version20260728 : GoString := bytes "2026-07-28"

def legacyVersions : List GoString :=
  [bytes "2024-11-05", bytes "2025-03-26", bytes "2025-06-18", bytes "2025-11-25"]

def supportedVersions : List GoString := legacyVersions ++ [version20260728]

def isLegacyVersion (version : GoString) : Bool := legacyVersions.contains version

def isModernVersion (version : GoString) : Bool := version == version20260728

/-- The fields of `Transport` that are read here. -/
structure Transport where
  method : GoString
  protocolVersion : GoString
  mcpMethod : GoString
  mcpName : GoString
  hasProtocolVersion : Bool
  hasMCPMethod : Bool
  hasMCPName : Bool
  ambiguousModernHeader : Bool

def hasModernIdentityHeaders (t : Transport) : Bool :=
  t.hasMCPMethod || t.hasMCPName || t.mcpMethod != [] || t.mcpName != [] ||
    t.ambiguousModernHeader || (t.hasProtocolVersion && t.protocolVersion == []) ||
    (t.protocolVersion != [] && !isLegacyVersion t.protocolVersion)

def validateModernTransport (t : Transport) : Option Error :=
  if t.ambiguousModernHeader then some headerMismatch
  else if t.method = bytes "GET" ∨ t.method = bytes "DELETE" then some methodNotAllowed
  else none

/-! ### Reading bodies -/

/-- What is used of `gjson`: validity, the members of an object in order with
their raw values, and the contents of a string. -/
structure Gjson where
  valid : GoString → Bool
  forEach : GoString → List (GoString × GoString)
  string : GoString → Option GoString
  getString : GoString → GoString → GoString

mutual

/-- How deep objects and arrays are nested. -/
def depth : Json → ℕ
  | .arr vs => depthElems vs + 1
  | .obj ms => depthMembers ms + 1
  | _ => 0

def depthElems : List Json → ℕ
  | [] => 0
  | v :: vs => max (depth v) (depthElems vs)

def depthMembers : List (GoString × Json) → ℕ
  | [] => 0
  | (_, v) :: ms => max (depth v) (depthMembers ms)

end

/-- `json.Unmarshal` up to the type of its target. -/
def unmarshal (raw : GoString) : Option Json :=
  (Json.unmarshal raw).filter fun v => depth v ≤ 10000

/-- `json.Unmarshal` into an empty string, which `null` leaves as it is. -/
def unmarshalString (raw : GoString) : Option GoString :=
  match unmarshal raw with
  | some (.str s) => some s
  | some .null => some []
  | _ => none

def isJSONObject (raw : GoString) : Bool := (Strings.trimSpace raw).head? == some 123

section

variable (g : Gjson)

/-- `businessObjectMembers`: of members with one name the first counts. -/
def businessObjectMember (body name : GoString) : Option GoString := (g.forEach body).lookup name

/-- `ambiguousModernIdentity`. -/
def ambiguousModernIdentity (body : GoString) : Bool :=
  let isObject := fun raw : GoString => raw.head? == some 123
  let members := g.forEach body
  let params := (members.filter fun m => m.1 == bytes "params" && isObject m.2).flatMap
    fun m => g.forEach m.2
  let metas := (params.filter fun m => m.1 == bytes "_meta" && isObject m.2).flatMap
    fun m => g.forEach m.2
  let methods := members.countP (·.1 == bytes "method")
  let names := params.countP (·.1 == bytes "name")
  let versions := metas.countP (·.1 == bytes "io.modelcontextprotocol/protocolVersion")
  methods > 1 || versions > 1 ||
    (g.getString body (bytes "method") == bytes "tools/call" && names > 1)

/-- `ParseID`: no identifier, or the text of one. -/
def parseID (raw : Option GoString) : Except Error (Option GoString) :=
  match raw with
  | none => .ok none
  | some [] => .ok none
  | some raw =>
      let trimmed := Strings.trimSpace raw
      match unmarshal trimmed with
      | some .null | some (.str _) | some (.num _) => .ok (some trimmed)
      | _ => .error (invalidRequest (bytes "JSON-RPC id must be a string, number or null"))

structure Envelope where
  id : Option GoString := none
  method : GoString := []
  params : Option GoString := none
  notification : Bool := false
  raw : Option GoString := none

/-- `decodeEnvelope`. -/
def decodeEnvelope (body : GoString) (modern : Bool) : Envelope × Option Error :=
  if !Json.validUTF8 body || !g.valid body then ({}, some parseError)
  else if !isJSONObject body then
    ({}, some (invalidRequest
      (bytes "JSON-RPC batch and non-object envelopes are not supported")))
  else
    let member := fun name => businessObjectMember g body (bytes name)
    match parseID (member "id") with
    | .error err => ({ params := member "params", raw := some body }, some err)
    | .ok id =>
        let envelope : Envelope := { id, params := member "params", raw := some body }
        if modern && ambiguousModernIdentity g body then (envelope, some parseError)
        else if (member "result").getD [] != [] || (member "error").getD [] != [] then
          (envelope, some (invalidRequest (bytes "JSON-RPC response envelopes are not accepted")))
        else if modern && unmarshalString ((member "jsonrpc").getD []) != some (bytes "2.0") then
          (envelope, some (invalidRequest (bytes "jsonrpc must be 2.0")))
        else
          match g.string ((member "method").getD []) with
          | none =>
              (envelope, some (invalidRequest (bytes "method must be a non-empty string")))
          | some method =>
              if Strings.trimSpace method = [] then
                (envelope, some (invalidRequest (bytes "method must be a non-empty string")))
              else ({ envelope with method, notification := id.isNone }, none)

/-- The fields of `Metadata` that are read here. -/
structure Metadata where
  protocolVersion : GoString := []
  clientCapabilities : ClientCapabilities := {}

/-- `decodeMetadata`. Capabilities that cannot be read count as none. -/
def decodeMetadata (params : GoString) : Except Error Metadata :=
  if !isJSONObject params then .error headerMismatch
  else
    let metaRaw := (businessObjectMember g params (bytes "_meta")).getD []
    if !isJSONObject metaRaw then .error headerMismatch
    else
      let member := fun name => (businessObjectMember g metaRaw (bytes name)).getD []
      match unmarshalString (member "io.modelcontextprotocol/protocolVersion") with
      | none => .error headerMismatch
      | some version =>
          if version = [] then .error headerMismatch
          else
            .ok ⟨version, ((unmarshal (member "io.modelcontextprotocol/clientCapabilities")).bind
              unmarshalJSON).getD {}⟩

/-! ### The name header -/

def base64Digit (n : ℕ) : UInt8 :=
  if n < 26 then UInt8.ofNat (65 + n)
  else if n < 52 then UInt8.ofNat (71 + n)
  else if n < 62 then UInt8.ofNat (n - 4)
  else if n = 62 then 43
  else 47

def base64Value (b : UInt8) : Option ℕ := (List.range 64).find? fun n => base64Digit n == b

/-- `base64.StdEncoding.EncodeToString`. -/
def base64Encode : GoString → GoString
  | [] => []
  | [a] => [base64Digit (a.toNat / 4), base64Digit (a.toNat % 4 * 16), 61, 61]
  | [a, b] =>
      [base64Digit (a.toNat / 4), base64Digit (a.toNat % 4 * 16 + b.toNat / 16),
        base64Digit (b.toNat % 16 * 4), 61]
  | a :: b :: c :: s =>
      base64Digit (a.toNat / 4) :: base64Digit (a.toNat % 4 * 16 + b.toNat / 16) ::
        base64Digit (b.toNat % 16 * 4 + c.toNat / 64) :: base64Digit (c.toNat % 64) ::
        base64Encode s

/-- `base64.StdEncoding.Strict().DecodeString`, on a text without line ends. -/
def base64Decode : GoString → Option GoString
  | [] => some []
  | a :: b :: c :: d :: s => do
      let x ← base64Value a
      let y ← base64Value b
      let first := UInt8.ofNat (x * 4 + y / 16)
      if d = 61 ∧ s = [] then
        if c = 61 then
          if y % 16 = 0 then return [first] else none
        else
          let z ← base64Value c
          if z % 4 = 0 then return [first, UInt8.ofNat (y % 16 * 16 + z / 4)] else none
      else
        let z ← base64Value c
        let w ← base64Value d
        let rest ← base64Decode s
        return first :: UInt8.ofNat (y % 16 * 16 + z / 4) :: UInt8.ofNat (z % 4 * 64 + w) :: rest
  | _ => none

/-- `decodeNameHeader`. -/
def decodeNameHeader (value : GoString) (present : Bool) : Option GoString :=
  let starts := Strings.startsWith value (bytes "=?base64?")
  let ends := (bytes "?=").isSuffixOf value
  if !present || value == [] then none
  else if starts || ends then
    if !starts || !ends then none
    else
      let payload := Strings.trimSuffix (value.drop (bytes "=?base64?").length) (bytes "?=")
      if payload == [] || Strings.containsAny payload [13, 10] then none
      else
        match base64Decode payload with
        | none => none
        | some decoded =>
            if decoded == [] || !Json.validUTF8 decoded || base64Encode decoded != payload then none
            else some decoded
  else
    let blank := fun b : UInt8 => b == 32 || b == 9
    if value.head?.any blank || value.getLast?.any blank then none
    else if value.all fun b => blank b || (0x21 ≤ b && b ≤ 0x7e) then some value
    else none

/-- `validateNameHeader`. -/
def validateNameHeader (t : Transport) (envelope : Envelope) : Option Error :=
  let hasNameHeader := t.hasMCPName || t.mcpName != []
  if envelope.method ≠ bytes "tools/call" then
    if hasNameHeader then some headerMismatch else none
  else
    let nameRaw := businessObjectMember g (envelope.params.getD []) (bytes "name")
    match unmarshalString (nameRaw.getD []) with
    | none => some (invalidParams (bytes "tools/call params.name is required"))
    | some name =>
        if name = [] then some (invalidParams (bytes "tools/call params.name is required"))
        else if decodeNameHeader t.mcpName hasNameHeader = some name then none
        else some headerMismatch

def isCurrentModernMethod (method : GoString) : Bool :=
  [bytes "server/discover", bytes "tools/list", bytes "tools/call"].contains method

/-! ### Preparation -/

def classify (t : Transport) (body : GoString) : Except Error Era :=
  if hasModernIdentityHeaders t then .ok .modern
  else match classifyRequestBody body with
    | .modern => .ok .modern
    | .legacy => .ok .legacy
    | .invalid => .error parseError

structure MethodPolicy where
  available : Bool
  requiredClientCapabilities : ClientCapabilities

structure RequestContext where
  era : Era
  version : GoString
  transport : Transport
  envelope : Envelope
  metadata : Metadata

variable {F : Type*} [BEq F] (parseFloat : GoString → Option F)

/-- The checks of a modern request, in their order; the context keeps the
metadata once they are read. -/
def prepareModern (t : Transport) (policyLookup : Option (GoString → MethodPolicy))
    (request : RequestContext) : RequestContext × Option Error :=
  let request := { request with version := version20260728 }
  if t.protocolVersion != [] && !isModernVersion t.protocolVersion &&
      !isLegacyVersion t.protocolVersion then
    (request, some (unsupportedVersion t.protocolVersion supportedVersions))
  else match validateModernTransport t with
  | some err => (request, some err)
  | none =>
  if !isModernVersion t.protocolVersion || t.mcpMethod == [] then (request, some headerMismatch)
  else match decodeMetadata g (request.envelope.params.getD []) with
  | .error err => (request, some err)
  | .ok metadata =>
  let request := { request with metadata }
  if !isModernVersion metadata.protocolVersion then
    (request, some (unsupportedVersion metadata.protocolVersion supportedVersions))
  else if t.protocolVersion == [] || t.protocolVersion != metadata.protocolVersion then
    (request, some headerMismatch)
  else if t.mcpMethod == [] || t.mcpMethod != request.envelope.method then
    (request, some headerMismatch)
  else match validateNameHeader g t request.envelope with
  | some err => (request, some err)
  | none =>
  match policyLookup with
  | none => (request, some methodNotFound)
  | some policyLookup =>
  if !isCurrentModernMethod request.envelope.method then (request, some methodNotFound)
  else
    let policy := policyLookup request.envelope.method
    if !policy.available then (request, some methodNotFound)
    else
      let missingCapabilities := missingClientCapabilities parseFloat metadata.clientCapabilities
        policy.requiredClientCapabilities
      if !missingCapabilities.isEmpty then
        (request, some (missingRequiredClientCapability missingCapabilities))
      else (request, none)

/-- `PrepareRequestWithPolicy`: a context, unless the body cannot be read, and
an error. A legacy request has no policy. -/
def prepareRequestWithPolicy (t : Transport) (body : GoString)
    (policyLookup : Option (GoString → MethodPolicy)) : Option RequestContext × Option Error :=
  if body.length > legacyMaxBodyBytes then (none, some requestTooLarge)
  else match classify t body with
    | .error err => (none, some err)
    | .ok era =>
        let (envelope, envelopeError) := decodeEnvelope g body (era == .modern)
        let request : RequestContext := ⟨era, t.protocolVersion, t, envelope, {}⟩
        match envelopeError with
        | some err => (if envelope.raw.isNone then none else some request, some err)
        | none =>
            match era with
            | .legacy => (some request, none)
            | .modern =>
                let (request, err) := prepareModern g parseFloat t policyLookup request
                (some request, err)

/-! ### The gate -/

variable {g parseFloat}

/-- A modern request that is let through has passed the policy of its method. -/
theorem prepareModern_none {t : Transport} {policyLookup : GoString → MethodPolicy}
    {request request' : RequestContext}
    (h : prepareModern g parseFloat t (some policyLookup) request = (request', none)) :
    decodeMetadata g (request.envelope.params.getD []) = .ok request'.metadata ∧
      (missingClientCapabilities parseFloat request'.metadata.clientCapabilities
        (policyLookup request'.envelope.method).requiredClientCapabilities).isEmpty = true := by
  rw [prepareModern] at h
  dsimp only at h
  split at h
  · simp at h
  split at h
  · simp at h
  split at h
  · simp at h
  split at h
  · simp at h
  rename_i metadata hmetadata
  split at h
  · simp at h
  split at h
  · simp at h
  split at h
  · simp at h
  split at h
  · simp at h
  split at h
  · simp at h
  split at h
  · simp at h
  split at h
  · simp at h
  rename_i hempty
  obtain rfl := (Prod.mk.inj h).1
  exact ⟨hmetadata, by simpa using hempty⟩

theorem wellFormed_decodeMetadata {params : GoString} {metadata : Metadata}
    (h : decodeMetadata g params = .ok metadata) : WellFormed metadata.clientCapabilities := by
  have hempty : WellFormed {} := ⟨by simp, by simp, by simp, by simp⟩
  simp only [decodeMetadata] at h
  split at h
  · simp at h
  split at h
  · simp at h
  split at h
  · simp at h
  split at h
  · simp at h
  obtain rfl := Except.ok.inj h
  cases hdata : (unmarshal ((businessObjectMember g ((businessObjectMember g params
      (bytes "_meta")).getD []) (bytes "io.modelcontextprotocol/clientCapabilities")).getD [])).bind
      unmarshalJSON with
  | none => exact hempty
  | some c =>
      obtain ⟨data, -, hc⟩ := Option.bind_eq_some_iff.mp hdata
      exact wellFormed_of_unmarshalJSON hc

theorem prepareRequestWithPolicy_modern {t : Transport} {body : GoString}
    {policyLookup : GoString → MethodPolicy} {request : RequestContext}
    (h : prepareRequestWithPolicy g parseFloat t body (some policyLookup) = (some request, none))
    (hera : request.era = .modern) :
    WellFormed request.metadata.clientCapabilities ∧
      (missingClientCapabilities parseFloat request.metadata.clientCapabilities
        (policyLookup request.envelope.method).requiredClientCapabilities).isEmpty = true := by
  rw [prepareRequestWithPolicy] at h
  split at h
  · simp at h
  split at h
  · simp at h
  dsimp only at h
  split at h
  · simp at h
  split at h
  · obtain rfl := Option.some.inj (Prod.mk.inj h).1
    simp at hera
  · rename_i hmodern
    obtain ⟨hrequest, hnone⟩ := Prod.mk.inj h
    obtain ⟨hmetadata, hempty⟩ := prepareModern_none
      (@Prod.ext _ _ _ (request, none) (Option.some.inj hrequest) hnone)
    exact ⟨wellFormed_decodeMetadata hmetadata, hempty⟩

/-- The gate is open exactly for the clients that declare what is required, and
a modern request that is let through comes from such a client, unless an empty
collection is overlooked. -/
theorem capabilityGate_iff (parseFloat : GoString → Option F) :
    (∀ actualData requiredData actual required, unmarshalJSON actualData = some actual →
      unmarshalJSON requiredData = some required →
      (((missingClientCapabilities parseFloat actual required).isEmpty = true ↔
        Declares parseFloat actual.marshalJSON required.marshalJSON) ↔
        ¬ Overlooked parseFloat actual required)) ∧
    (∀ g t body (policyLookup : GoString → MethodPolicy) request,
      (∀ method, ∃ data,
        unmarshalJSON data = some (policyLookup method).requiredClientCapabilities) →
      prepareRequestWithPolicy g parseFloat t body (some policyLookup) = (some request, none) →
      request.era = .modern →
      (Declares parseFloat request.metadata.clientCapabilities.marshalJSON
        (policyLookup request.envelope.method).requiredClientCapabilities.marshalJSON ↔
        ¬ Overlooked parseFloat request.metadata.clientCapabilities
          (policyLookup request.envelope.method).requiredClientCapabilities)) := by
  refine ⟨?_, ?_⟩
  · intro actualData requiredData actual required hactual hrequired
    exact isEmpty_iff_declares_iff parseFloat (wellFormed_of_unmarshalJSON hactual)
      (wellFormed_of_unmarshalJSON hrequired)
  · intro g t body policyLookup request hpolicy hprepared hera
    obtain ⟨hwell, hempty⟩ := prepareRequestWithPolicy_modern hprepared hera
    obtain ⟨data, hdata⟩ := hpolicy request.envelope.method
    have hgate := isEmpty_iff_declares_iff parseFloat hwell (wellFormed_of_unmarshalJSON hdata)
    rw [hempty] at hgate
    simpa using hgate

end

/-! ### Two requests -/

/-- A reader that agrees with `gjson` on texts without blanks. -/
def compactGjson : Gjson where
  valid s := (Json.parse s).isSome
  forEach s :=
    match Json.parse s with
    | some (.obj ms) => ms.map fun m => ((Json.unquote m.1).getD [], Json.writeRaw m.2)
    | _ => []
  string s :=
    match Json.unmarshal s with
    | some (.str v) => some v
    | _ => none
  getString s name :=
    match Json.unmarshal s with
    | some (.obj ms) =>
        match ms.lookup name with
        | some (.str v) => v
        | _ => []
    | _ => []

/-- A request for the list of tools by a client with given capabilities. -/
def listRequest (capabilities : String) : GoString :=
  bytes "\x7b\"jsonrpc\":\"2.0\",\"id\":1,\"method\":\"tools/list\",\"params\":\x7b\"_meta\":\x7b\"io.modelcontextprotocol/protocolVersion\":\"2026-07-28\",\"io.modelcontextprotocol/clientCapabilities\":" ++
    bytes capabilities ++ bytes "\x7d\x7d\x7d"

def listTransport : Transport :=
  ⟨bytes "POST", version20260728, bytes "tools/list", [], true, true, false, false⟩

def rootsPolicy (_ : GoString) : MethodPolicy := ⟨true, { roots := some ⟨⟩ }⟩

def experimentalPolicy (_ : GoString) : MethodPolicy := ⟨true, { experimental := some [] }⟩

/-- Whether a modern request is let through. -/
def passes (body : GoString) (policyLookup : GoString → MethodPolicy) : Bool :=
  let outcome := prepareRequestWithPolicy compactGjson (some : GoString → Option GoString)
    listTransport body (some policyLookup)
  outcome.2.isNone && outcome.1.any (·.era == .modern)

theorem exists_of_passes {body : GoString} {policyLookup : GoString → MethodPolicy}
    (h : passes body policyLookup = true) :
    ∃ request, prepareRequestWithPolicy compactGjson (some : GoString → Option GoString)
      listTransport body (some policyLookup) = (some request, none) ∧ request.era = .modern := by
  rw [passes] at h
  generalize prepareRequestWithPolicy compactGjson some listTransport body (some policyLookup) =
    outcome at h ⊢
  obtain ⟨request | request, err | err⟩ := outcome
  · simp at h
  · simp at h
  · exact ⟨request, rfl, by simpa using h⟩
  · simp at h

/-- A client that declares its roots to a method that requires them. -/
theorem capabilityGate_roots :
    ∃ request, prepareRequestWithPolicy compactGjson (some : GoString → Option GoString)
      listTransport (listRequest "\x7b\"roots\":\x7b\x7d\x7d") (some rootsPolicy) =
        (some request, none) ∧ request.era = .modern ∧
      (Declares (some : GoString → Option GoString)
        request.metadata.clientCapabilities.marshalJSON
        (rootsPolicy request.envelope.method).requiredClientCapabilities.marshalJSON ↔
        ¬ Overlooked (some : GoString → Option GoString) request.metadata.clientCapabilities
          (rootsPolicy request.envelope.method).requiredClientCapabilities) := by
  obtain ⟨request, hprepared, hera⟩ := exists_of_passes
    (show passes (listRequest "\x7b\"roots\":\x7b\x7d\x7d") rootsPolicy = true by decide +kernel)
  refine ⟨request, hprepared, hera, ?_⟩
  exact (capabilityGate_iff some).2 _ _ _ _ request
    (fun _ => ⟨.obj [(Known.roots.name, .obj [])], rfl⟩) hprepared hera

/-- A method requires an empty collection of experimental capabilities, and a
client without any is let through. -/
theorem capabilityGate_overlooks_experimental :
    unmarshalJSON (.obj [(Known.experimental.name, .obj [])]) = some { experimental := some [] } ∧
      (missingClientCapabilities (some : GoString → Option GoString) {}
        { experimental := some [] }).isEmpty = true ∧
      ¬ Declares (some : GoString → Option GoString) (ClientCapabilities.marshalJSON {})
        (ClientCapabilities.marshalJSON { experimental := some [] }) ∧
      passes (listRequest "\x7b\x7d") experimentalPolicy = true := by
  have hempty : unmarshalJSON (.obj []) = some {} := rfl
  have hexperimental : unmarshalJSON (.obj [(Known.experimental.name, .obj [])]) =
      some { experimental := some [] } := rfl
  refine ⟨hexperimental, by decide, ?_, by decide +kernel⟩
  exact not_declares_of_undeclaredEmpty some (wellFormed_of_unmarshalJSON hempty)
    (wellFormed_of_unmarshalJSON hexperimental) (Or.inl ⟨rfl, rfl⟩)

end Higress.Mcp.Request
