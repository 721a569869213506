import Higress.Lib.HttpFilter
import Higress.WasmCpp.RuleMatcher

/-!
The HMAC authentication plugin (`extensions/hmac_auth/plugin.cc`).

A request names a key and carries a signature of its header fields, its path and its
parameters. The consumer of the key is looked up in the header callback, and its name is
added to the request there. The signature is checked there too, unless the request is a
form: the parameters of a form are in its body, so the check is left to the callback that
ends the body. A body is also held back to compare its digest.

If no callback ends the body, because there is none or because trailers follow it, neither
of the two is done. And the check begins by dropping the name of the consumer, which in
the header callback is the one that has just been added.
-/

namespace Higress.WasmCpp.HmacAuth

open Lib HttpFilter

/-- `HmacAuthConfigRule`. -/
structure HmacAuthConfigRule where
  credentials : List (GoString × GoString) := []
  keyToName : List (GoString × GoString) := []
  dateNanoOffset : ℤ := -1
deriving DecidableEq

inductive HashType
  | sha1
  | sha256
deriving DecidableEq

/-- What the plugin gets from outside: the hash functions, in Base64, the current time, and
the times that a date and a timestamp stand for, in nanoseconds. -/
structure Env where
  getShaHmacBase64 : HashType → GoString → GoString → GoString
  getMD5Base64 : GoString → GoString
  currentTime : ℤ
  httpTime : GoString → Option ℤ
  timestamp : GoString → Option ℤ

/-! ### The configuration -/

section Parse

/-- A field that must be there and be a string. -/
def stringField (j : Json) (field : String) : Option GoString :=
  (find j (bytes field)).bind valueAsString

/-- One round of the loop over the credentials. -/
def parseCredential (rule : HmacAuthConfigRule) (credential : Json) : Option HmacAuthConfigRule := do
  let key ← stringField credential "key"
  let secret ← stringField credential "secret"
  if (rule.credentials.lookup key).isSome then none
  else some { rule with credentials := rule.credentials ++ [(key, secret)] }

/-- One round of the loop over the consumers. -/
def parseConsumer (rule : HmacAuthConfigRule) (consumer : Json) : Option HmacAuthConfigRule := do
  let key ← stringField consumer "key"
  let secret ← stringField consumer "secret"
  let name ← stringField consumer "name"
  if (rule.credentials.lookup key).isSome then none
  else some { rule with
    credentials := rule.credentials ++ [(key, secret)]
    keyToName := rule.keyToName ++ [(key, name)] }

variable (valueAsInt64 : Json → Option ℤ)

/-- The offset is given in seconds. -/
def parseDateOffset (configuration : Json) (rule : HmacAuthConfigRule) :
    Option HmacAuthConfigRule :=
  match find configuration (bytes "date_offset") with
  | none => some rule
  | some value => (valueAsInt64 value).map fun offset =>
      { rule with dateNanoOffset := offset * (1000 * 1000 * 1000) }

/-- `parsePluginConfig`; `valueAsInt64` reads the number of the offset. -/
def parsePluginConfig (configuration : Json) : Option HmacAuthConfigRule :=
  if (find configuration (bytes "consumers")).isSome &&
      (find configuration (bytes "credentials")).isSome then none
  else do
    let credentials ← arrayIterate configuration (bytes "credentials") some
    let rule ← credentials.foldlM parseCredential {}
    let consumers ← arrayIterate configuration (bytes "consumers") some
    let rule ← consumers.foldlM parseConsumer rule
    if rule.credentials = [] then none else parseDateOffset valueAsInt64 configuration rule

end Parse

/-! ### The string to sign -/

/-- `CHECK_HEADERS`. -/
def checkHeaders : List GoString :=
  [bytes ":method", bytes "accept", bytes "content-md5", bytes "content-type", bytes "date"]

def caSignature : GoString := bytes "x-ca-signature"

def caSignatureHeaders : GoString := bytes "x-ca-signature-headers"

/-- The headers of the request's own list that are signed besides the fixed ones. -/
def dynamicHeaders (headers : Headers) : List GoString :=
  let names := ((headers.get caSignatureHeaders).splitOn 44).filter (· ≠ [])
  let signed := (names.map lower).filter fun name =>
    name ≠ caSignature && name ≠ caSignatureHeaders && !checkHeaders.contains name
  signed.mergeSort (· ≤ ·)

def getStringToSign (headers : Headers) : GoString :=
  (checkHeaders.flatMap fun name => headers.get name ++ bytes "\n") ++
    (dynamicHeaders headers).flatMap fun name => name ++ bytes ":" ++ headers.get name ++ bytes "\n"

/-- The parameters of the query and of a form; those of the query come first. -/
def signedParams (path : GoString) (bodyParams : Option QueryParams) : QueryParams :=
  match bodyParams with
  | none => parseAndDecodeQueryString path
  | some params => params.entries.foldl emplace (parseAndDecodeQueryString path)

def writeParam (param : GoString × GoString) : GoString := param.1 ++ bytes "=" ++ param.2

/-- `getStringToSignWithParam`. -/
def getStringToSignWithParam (strToSign path : GoString) (bodyParams : Option QueryParams) :
    GoString :=
  let params := (signedParams path bodyParams).entries
  strToSign ++ (cutByte 63 path).1 ++
    (if params = [] then [] else bytes "?" ++ (bytes "&").intercalate (params.map writeParam))

/-! ### The check -/

/-- `PluginContext`, and what `checkPlugin` has said. -/
structure Ctx where
  caKey : GoString := []
  signature : GoString := []
  signatureMethod : GoString := []
  path : GoString := []
  date : GoString := []
  strToSign : GoString := []
  bodyMd5 : GoString := []
  isTimestamp : Bool := false
  config : Option HmacAuthConfigRule := none
  allowSet : Option AllowSet := none
  checkBodyParams : Bool := false
  bodyTotalSize : ℕ := 0
  verdicts : List Bool := []

def maxBodySize : ℕ := 32 * 1024 * 1024

def consumerHeader : GoString := bytes "X-Mse-Consumer"

/-- An answer whose details are its body. -/
def deny (code : ℕ) (text : String) (headers : Headers) : LocalResponse :=
  ⟨code, bytes text, bytes text, headers⟩

def deniedInvalidCaKey : LocalResponse := deny 401 "Invalid Key" []

def deniedNoSignature : LocalResponse := deny 401 "Empty Signature" []

def deniedUnauthorizedConsumer : LocalResponse := deny 403 "Unauthorized Consumer" []

def deniedInvalidCredentials (errmsg : GoString) : LocalResponse :=
  deny 400 "Invalid Signature" [(bytes "x-ca-error-message", errmsg)]

def deniedInvalidContentMD5 : LocalResponse := deny 400 "Invalid Content-MD5" []

def deniedInvalidDate : LocalResponse := deny 400 "Invalid Date" []

def deniedBodyTooLarge : LocalResponse := deny 413 "Request Body Too Large" []

section Check

variable (env : Env) (rule : HmacAuthConfigRule)

/-- Why `checkConsumer` refuses a key. -/
def consumerRefusal (allowSet : Option AllowSet) (caKey : GoString) : Option LocalResponse :=
  if caKey = [] then some deniedInvalidCaKey
  else if (rule.credentials.lookup caKey).isNone then some deniedInvalidCaKey
  else match rule.keyToName.lookup caKey, allowSet with
    | some name, some names =>
        if names = [] then some deniedUnauthorizedConsumer
        else if name ∈ names then none
        else some deniedUnauthorizedConsumer
    | _, _ => none

def checkConsumer (caKey : GoString) (allowSet : Option AllowSet) (s : Stream Ctx) :
    Bool × Stream Ctx :=
  match consumerRefusal rule allowSet caKey with
  | some response => (false, s.sendLocalResponse response)
  | none =>
      match rule.keyToName.lookup caKey with
      | some name => (true, { s with headers := s.headers.add consumerHeader name })
      | none => (true, s)

/-- The time that a request gives, if it is well formed. -/
def requestTime (isTimestamp : Bool) (date : GoString) : Option ℤ :=
  if isTimestamp then env.timestamp date else env.httpTime date

/-- The request is not older than is allowed, nor younger. -/
def dateValid (isTimestamp : Bool) (date : GoString) : Bool :=
  if 0 < rule.dateNanoOffset then
    match requestTime env isTimestamp date with
    | none => false
    | some time => |time - env.currentTime| ≤ rule.dateNanoOffset
  else true

def hashTypeOf (signatureMethod : GoString) : HashType :=
  if signatureMethod = bytes "HmacSHA1" then .sha1 else .sha256

/-- The message that shows the string to sign on one line. -/
def serverStringToSign (strToSign : GoString) : GoString :=
  bytes "Server StringToSign:`" ++ strToSign.map (fun b => if b = 10 then 35 else b) ++ bytes "`"

/-- Why `checkPlugin` refuses a request. -/
def signatureRefusal (c : Ctx) (bodyParams : Option QueryParams) : Option LocalResponse :=
  if c.caKey = [] then some deniedInvalidCaKey
  else if c.signature = [] then some deniedNoSignature
  else if !dateValid env rule c.isTimestamp c.date then some deniedInvalidDate
  else match rule.credentials.lookup c.caKey with
    | none => some deniedInvalidCaKey
    | some secret =>
        let strToSign := getStringToSignWithParam c.strToSign c.path bodyParams
        if env.getShaHmacBase64 (hashTypeOf c.signatureMethod) secret strToSign ≠ c.signature then
          some (deniedInvalidCredentials (serverStringToSign strToSign))
        else none

/-- `checkPlugin`, with a record of what it says. -/
def checkPlugin (bodyParams : Option QueryParams) (s : Stream Ctx) : Bool × Stream Ctx :=
  let s := { s with headers := s.headers.remove consumerHeader }
  match signatureRefusal env rule s.ctx bodyParams with
  | some response =>
      (false, { s with ctx := { s.ctx with verdicts := s.ctx.verdicts ++ [false] } }
        |>.sendLocalResponse response)
  | none => (true, { s with ctx := { s.ctx with verdicts := s.ctx.verdicts ++ [true] } })

end Check

/-! ### The callbacks -/

def isForm (headers : Headers) : Bool :=
  Strings.contains (lower (headers.get (bytes "content-type")))
    (bytes "application/x-www-form-urlencoded")

/-- What the header callback takes from the request. -/
def readRequest (headers : Headers) : Ctx :=
  let date := headers.get (bytes "date")
  { caKey := headers.get (bytes "x-ca-key")
    signature := headers.get caSignature
    signatureMethod := headers.get (bytes "x-ca-signature-method")
    path := headers.get (bytes ":path")
    date := if date = [] then headers.get (bytes "x-ca-timestamp") else date
    strToSign := getStringToSign headers
    bodyMd5 := headers.get (bytes "content-md5")
    isTimestamp := date = [] }

section Callbacks

variable (env : Env) (m : Matcher HmacAuthConfigRule) (info : RouteInfo)

/-- The header callback when there is a configuration. -/
def onMatched (rule : HmacAuthConfigRule) (allowSet : Option AllowSet) (isForm : Bool)
    (s : Stream Ctx) : HeadersStatus × Stream Ctx :=
  let consumer := checkConsumer rule s.ctx.caKey allowSet s
  if !consumer.1 then (.stopIteration, consumer.2)
  else if isForm then
    (.goOn, { consumer.2 with ctx := { consumer.2.ctx with checkBodyParams := true } })
  else
    let signature := checkPlugin env rule none consumer.2
    (if signature.1 then .goOn else .stopIteration, signature.2)

def onRequestHeaders (s : Stream Ctx) : HeadersStatus × Stream Ctx :=
  let s' := { s with ctx := readRequest s.headers }
  match m.getMatchAuthConfig info with
  | (none, _) => (.goOn, s')
  | (some rule, allowSet) =>
      onMatched env rule allowSet (isForm s.headers)
        { s' with ctx := { s'.ctx with config := some rule, allowSet := allowSet } }

/-- The end of a body that has been held back. -/
def onBodyEnd (rule : HmacAuthConfigRule) (body : GoString) (s : Stream Ctx) :
    DataStatus × Stream Ctx :=
  if s.ctx.bodyMd5 ≠ [] && (body = [] || env.getMD5Base64 body ≠ s.ctx.bodyMd5) then
    (.stopIterationNoBuffer, s.sendLocalResponse deniedInvalidContentMD5)
  else if s.ctx.checkBodyParams then
    let signature := checkPlugin env rule (some (parseFromBody body)) s
    (if signature.1 then .goOn else .stopIterationNoBuffer, signature.2)
  else (.goOn, s)

def onRequestBody (bodySize : ℕ) (buffer : GoString) (endStream : Bool) (s : Stream Ctx) :
    DataStatus × Stream Ctx :=
  match s.ctx.config with
  | none => (.goOn, s)
  | some rule =>
      if s.ctx.bodyMd5 = [] && !s.ctx.checkBodyParams then (.goOn, s)
      else
        let s := { s with ctx := { s.ctx with bodyTotalSize := s.ctx.bodyTotalSize + bodySize } }
        if maxBodySize < s.ctx.bodyTotalSize then
          (.stopIterationNoBuffer, s.sendLocalResponse deniedBodyTooLarge)
        else if !endStream then (.stopIterationAndBuffer, s)
        else onBodyEnd env rule (buffer.take s.ctx.bodyTotalSize) s

def plugin : HttpFilter.Filter Ctx := ⟨onRequestHeaders env m info, onRequestBody env⟩

end Callbacks

/-! ### What the callbacks do -/

/-- The request after its consumer has been found. -/
def named (rule : HmacAuthConfigRule) (headers : Headers) : Headers :=
  match rule.keyToName.lookup (headers.get (bytes "x-ca-key")) with
  | some name => headers.add consumerHeader name
  | none => headers

/-- What the plugin keeps of a request that a configuration has matched. -/
def matched (rule : HmacAuthConfigRule) (allowSet : Option AllowSet) (headers : Headers) : Ctx :=
  { readRequest headers with config := some rule, allowSet := allowSet }

theorem matched_caKey (rule : HmacAuthConfigRule) (allowSet : Option AllowSet) (headers : Headers) :
    (matched rule allowSet headers).caKey = headers.get (bytes "x-ca-key") := rfl

/-- The consumer of the request is known and allowed. -/
def Known (rule : HmacAuthConfigRule) (allowSet : Option AllowSet) (headers : Headers) : Prop :=
  consumerRefusal rule allowSet (headers.get (bytes "x-ca-key")) = none

/-- The signature is right, for the parameters that have been read from the body. -/
def Signed (env : Env) (rule : HmacAuthConfigRule) (headers : Headers)
    (bodyParams : Option QueryParams) : Prop :=
  signatureRefusal env rule (readRequest headers) bodyParams = none

/-- The stream when so much of the body has come. -/
def grown (s : Stream Ctx) (n : ℕ) : Stream Ctx :=
  { s with ctx := { s.ctx with bodyTotalSize := n } }

@[simp] theorem grown_answer (s : Stream Ctx) (n : ℕ) : (grown s n).answer = s.answer := rfl

section Callbacks

variable (env : Env) {m : Matcher HmacAuthConfigRule} {info : RouteInfo}
  {rule : HmacAuthConfigRule} {allowSet : Option AllowSet}

theorem checkConsumer_known {headers : Headers} (hknown : Known rule allowSet headers) (ctx : Ctx) :
    checkConsumer rule (matched rule allowSet headers).caKey allowSet ⟨headers, none, ctx⟩ =
      (true, ⟨named rule headers, none, ctx⟩) := by
  have hnone : consumerRefusal rule allowSet (headers.get (bytes "x-ca-key")) = none := hknown
  rw [matched_caKey, checkConsumer, hnone, named]
  cases rule.keyToName.lookup (headers.get (bytes "x-ca-key")) <;> rfl

section Header

variable (hmatch : m.getMatchAuthConfig info = (some rule, allowSet)) {headers : Headers}
include hmatch

theorem onRequestHeaders_eq : onRequestHeaders env m info ⟨headers, none, {}⟩ =
    onMatched env rule allowSet (isForm headers) ⟨headers, none, matched rule allowSet headers⟩ := by
  rw [onRequestHeaders, hmatch]
  rfl

theorem onRequestHeaders_unknown (hunknown : ¬ Known rule allowSet headers) :
    (onRequestHeaders env m info ⟨headers, none, {}⟩).2.answer.isSome = true := by
  obtain ⟨response, hresponse⟩ := Option.ne_none_iff_exists'.mp hunknown
  have hconsumer (s : Stream Ctx) :
      checkConsumer rule (matched rule allowSet headers).caKey allowSet s =
        (false, s.sendLocalResponse response) := by
    rw [matched_caKey, checkConsumer, hresponse]
  rw [onRequestHeaders_eq env hmatch, onMatched]
  simp [hconsumer, Stream.sendLocalResponse]

theorem onRequestHeaders_form (hknown : Known rule allowSet headers) (hform : isForm headers = true) :
    onRequestHeaders env m info ⟨headers, none, {}⟩ =
      (.goOn, ⟨named rule headers, none,
        { matched rule allowSet headers with checkBodyParams := true }⟩) := by
  rw [onRequestHeaders_eq env hmatch, onMatched]
  simp [checkConsumer_known hknown, hform]

theorem onRequestHeaders_signed (hknown : Known rule allowSet headers)
    (hform : isForm headers = false) (hsigned : Signed env rule headers none) :
    onRequestHeaders env m info ⟨headers, none, {}⟩ =
      (.goOn, ⟨(named rule headers).remove consumerHeader, none,
        { matched rule allowSet headers with verdicts := [true] }⟩) := by
  have hcheck : signatureRefusal env rule (matched rule allowSet headers) none = none := hsigned
  rw [onRequestHeaders_eq env hmatch, onMatched]
  simp only [checkConsumer_known hknown, hform, checkPlugin, hcheck]
  rfl

theorem onRequestHeaders_unsigned (hknown : Known rule allowSet headers)
    (hform : isForm headers = false) (hunsigned : ¬ Signed env rule headers none) :
    (onRequestHeaders env m info ⟨headers, none, {}⟩).2.answer.isSome = true := by
  obtain ⟨response, hresponse⟩ := Option.ne_none_iff_exists'.mp hunsigned
  have hcheck : signatureRefusal env rule (matched rule allowSet headers) none = some response :=
    hresponse
  rw [onRequestHeaders_eq env hmatch, onMatched]
  simp only [checkConsumer_known hknown, hform, checkPlugin, hcheck]
  rfl

end Header

section Body

variable {s : Stream Ctx} (hconfig : s.ctx.config = some rule)
  (hwants : s.ctx.bodyMd5 ≠ [] ∨ s.ctx.checkBodyParams = true)
include hconfig hwants

/-- One callback for a body that is held back. -/
theorem onRequestBody_held (buffer chunk : GoString) (endStream : Bool) :
    onRequestBody env chunk.length (buffer ++ chunk) endStream (grown s buffer.length) =
      if maxBodySize < (buffer ++ chunk).length then
        (.stopIterationNoBuffer,
          (grown s (buffer ++ chunk).length).sendLocalResponse deniedBodyTooLarge)
      else if endStream then
        onBodyEnd env rule (buffer ++ chunk) (grown s (buffer ++ chunk).length)
      else (.stopIterationAndBuffer, grown s (buffer ++ chunk).length) := by
  have hno : (decide (s.ctx.bodyMd5 = []) && !s.ctx.checkBodyParams) = false := by
    rcases hwants with h | h <;> simp [h]
  simp only [onRequestBody, grown, hconfig, hno, ← List.length_append, List.take_length]
  cases endStream <;> rfl

/-- A body that is too large is answered before its end. -/
theorem runBody_large (m : Matcher HmacAuthConfigRule) (info : RouteInfo)
    (hanswer : s.answer = none) (trailers : Bool) (chunks : List GoString) (buffer : GoString)
    (hsmall : buffer.length ≤ maxBodySize) (hlarge : maxBodySize < (buffer ++ chunks.flatten).length) :
    ((plugin env m info).runBody trailers chunks buffer
      (grown s buffer.length)).2.answer.isSome = true := by
  induction chunks generalizing buffer with
  | nil => simp at hlarge; omega
  | cons chunk rest ih =>
      have hone := onRequestBody_held env hconfig hwants buffer chunk (rest.isEmpty && !trailers)
      by_cases hnow : maxBodySize < (buffer ++ chunk).length
      · rw [if_pos hnow] at hone
        simp [Filter.runBody, plugin, hone, Stream.sendLocalResponse]
      · have hmore : rest ≠ [] := by
          rintro rfl
          simp at hlarge hnow
          omega
        have hempty : rest.isEmpty = false := by simpa using hmore
        rw [if_neg hnow, hempty, Bool.false_and, if_neg (by simp)] at hone
        have hnext := ih (buffer ++ chunk) (by omega) (by simpa using hlarge)
        rw [plugin] at hnext ⊢
        simpa [Filter.runBody, hone, hempty, hanswer] using hnext

/-- A body that is not too large is held back to its end. -/
theorem runBody_small (m : Matcher HmacAuthConfigRule) (info : RouteInfo)
    (hanswer : s.answer = none) (hstart : s.ctx.bodyTotalSize = 0) (trailers : Bool)
    {chunks : List GoString} (hchunks : chunks ≠ [])
    (hsmall : chunks.flatten.length ≤ maxBodySize) :
    (plugin env m info).runBody trailers chunks [] s =
      if trailers then (.stopIterationAndBuffer, grown s chunks.flatten.length)
      else onBodyEnd env rule chunks.flatten (grown s chunks.flatten.length) := by
  obtain ⟨init, last, rfl⟩ := (List.eq_nil_or_concat' chunks).resolve_left hchunks
  have hhold (chunk buffer : GoString) (s' : Stream Ctx) (hs' : s' = grown s buffer.length)
      (hle : (buffer ++ chunk).length ≤ maxBodySize) :
      ((plugin env m info).onRequestBody chunk.length (buffer ++ chunk) false s').1 =
          .stopIterationAndBuffer ∧
        ((plugin env m info).onRequestBody chunk.length (buffer ++ chunk) false s').2.answer = none ∧
        ((plugin env m info).onRequestBody chunk.length (buffer ++ chunk) false s').2 =
          grown s (buffer ++ chunk).length := by
    have hone := onRequestBody_held env hconfig hwants buffer chunk false
    rw [if_neg (by omega), if_neg (by simp)] at hone
    subst hs'
    show (onRequestBody _ _ _ _ _).1 = _ ∧ (onRequestBody _ _ _ _ _).2.answer = _ ∧
      (onRequestBody _ _ _ _ _).2 = _
    rw [hone]
    exact ⟨rfl, hanswer, rfl⟩
  have hflat : (init ++ [last]).flatten = init.flatten ++ last := by simp
  rw [hflat] at hsmall ⊢
  obtain ⟨s', hs', hrun⟩ := Filter.runBody_of_hold (· ≤ maxBodySize) (fun n k h => by omega) hhold
    trailers init last [] (s := s) (by simp [grown, ← hstart])
    (by rw [List.nil_append]; rw [List.length_append] at hsmall; omega)
  rw [List.nil_append] at hs' hrun
  have hlast := onRequestBody_held env hconfig hwants init.flatten last (!trailers)
  rw [if_neg (by omega), ← hs'] at hlast
  rw [hrun]
  refine hlast.trans ?_
  cases trailers <;> rfl

end Body

/-- The end of a body answers the request, or it has compared the digest and, for a form,
checked the signature. -/
theorem onBodyEnd_cases (rule : HmacAuthConfigRule) {s : Stream Ctx} (hanswer : s.answer = none)
    (body : GoString) :
    (onBodyEnd env rule body s).2.answer.isSome = true ∨
      ((onBodyEnd env rule body s).1 = .goOn ∧ (onBodyEnd env rule body s).2.answer = none ∧
        (s.ctx.bodyMd5 ≠ [] → env.getMD5Base64 body = s.ctx.bodyMd5) ∧
        (onBodyEnd env rule body s).2.ctx.verdicts =
          s.ctx.verdicts ++ (if s.ctx.checkBodyParams then [true] else []) ∧
        (s.ctx.checkBodyParams = true →
          signatureRefusal env rule s.ctx (some (parseFromBody body)) = none)) := by
  rw [onBodyEnd]
  split
  · exact .inl rfl
  · rename_i hdigest
    have hmd5 : s.ctx.bodyMd5 ≠ [] → env.getMD5Base64 body = s.ctx.bodyMd5 := by
      intro hne
      by_contra hno
      exact hdigest (by simp [hne, hno])
    cases hform : s.ctx.checkBodyParams with
    | false => exact .inr ⟨rfl, hanswer, hmd5, by simp, by simp⟩
    | true =>
        cases hcheck : signatureRefusal env rule s.ctx (some (parseFromBody body)) with
        | some response =>
            left
            simp [checkPlugin, hcheck, Stream.sendLocalResponse]
        | none =>
            right
            simpa [checkPlugin, hcheck, hanswer] using hmd5

end Callbacks

/-! ### Runs -/

section Runs

variable (env : Env) {m : Matcher HmacAuthConfigRule} {info : RouteInfo}
  {rule : HmacAuthConfigRule} {allowSet : Option AllowSet} {r : Request} {s : Stream Ctx}

section Held

variable (hfirst : onRequestHeaders env m info ⟨r.headers, none, {}⟩ = (.goOn, s))
  (hanswer : s.answer = none)
include hfirst hanswer

/-- Nothing is done about a request without a body. -/
theorem run_without_body (hchunks : r.chunks = []) :
    (plugin env m info).run r {} = .forwarded s.headers s.ctx := by
  have hgo : (plugin env m info).onRequestHeaders ⟨r.headers, none, {}⟩ = (.goOn, s) := hfirst
  rw [Filter.run_of_goOn hgo hanswer, hchunks]
  simp [Filter.runBody, hanswer]

variable (hconfig : s.ctx.config = some rule)
include hconfig

/-- Nothing is done about a body without a digest that is no form. -/
theorem run_unwanted (hmd5 : s.ctx.bodyMd5 = []) (hform : s.ctx.checkBodyParams = false) :
    (plugin env m info).run r {} = .forwarded s.headers s.ctx := by
  have hgo : (plugin env m info).onRequestHeaders ⟨r.headers, none, {}⟩ = (.goOn, s) := hfirst
  have hpass (size : ℕ) (buffer : GoString) (endStream : Bool) :
      (plugin env m info).onRequestBody size buffer endStream s = (.goOn, s) := by
    simp [plugin, onRequestBody, hconfig, hmd5, hform]
  rw [Filter.run_of_goOn hgo hanswer, Filter.runBody_of_pass hpass hanswer]
  simp [hanswer]

variable (hwants : s.ctx.bodyMd5 ≠ [] ∨ s.ctx.checkBodyParams = true) (hstart : s.ctx.bodyTotalSize = 0)
include hwants hstart

theorem run_large (hlarge : maxBodySize < r.body.length) :
    ∃ response ctx, (plugin env m info).run r {} = .answered response ctx := by
  have hgo : (plugin env m info).onRequestHeaders ⟨r.headers, none, {}⟩ = (.goOn, s) := hfirst
  have hanswered := runBody_large env hconfig hwants m info hanswer r.trailers r.chunks []
    (Nat.zero_le _) hlarge
  have hs : grown s (List.length ([] : GoString)) = s := by simp [grown, ← hstart]
  rw [hs] at hanswered
  obtain ⟨response, hresponse⟩ := Option.isSome_iff_exists.mp hanswered
  rw [Filter.run_of_goOn hgo hanswer, hresponse]
  exact ⟨response, _, rfl⟩

/-- A body whose end no callback sees goes on as it is. -/
theorem run_trailers (hchunks : r.chunks ≠ []) (hsmall : r.body.length ≤ maxBodySize)
    (htrailers : r.trailers = true) :
    (plugin env m info).run r {} = .forwarded s.headers (grown s r.body.length).ctx := by
  have hgo : (plugin env m info).onRequestHeaders ⟨r.headers, none, {}⟩ = (.goOn, s) := hfirst
  rw [Filter.run_of_goOn hgo hanswer,
    runBody_small env hconfig hwants m info hanswer hstart r.trailers hchunks hsmall, htrailers]
  simp [hanswer, Request.body]

theorem run_ended (hchunks : r.chunks ≠ []) (hsmall : r.body.length ≤ maxBodySize)
    (htrailers : r.trailers = false) :
    (∃ response ctx, (plugin env m info).run r {} = .answered response ctx) ∨
      ∃ ctx, (plugin env m info).run r {} = .forwarded s.headers ctx ∧
        (s.ctx.bodyMd5 ≠ [] → env.getMD5Base64 r.body = s.ctx.bodyMd5) ∧
        ctx.verdicts = s.ctx.verdicts ++ (if s.ctx.checkBodyParams then [true] else []) ∧
        (s.ctx.checkBodyParams = true →
          signatureRefusal env rule s.ctx (some (parseFromBody r.body)) = none) := by
  have hgo : (plugin env m info).onRequestHeaders ⟨r.headers, none, {}⟩ = (.goOn, s) := hfirst
  have hbody := runBody_small env hconfig hwants m info hanswer hstart r.trailers hchunks hsmall
  rw [htrailers, if_neg (by simp)] at hbody
  rw [Filter.run_of_goOn hgo hanswer, htrailers, hbody]
  rcases onBodyEnd_cases env rule (s := grown s r.body.length) hanswer r.body with hsome | hgone
  · obtain ⟨response, hresponse⟩ := Option.isSome_iff_exists.mp hsome
    left
    rw [Request.body] at hresponse
    rw [hresponse]
    exact ⟨response, _, rfl⟩
  · obtain ⟨hstatus, hnone, hmd5, hverdicts, hsigned⟩ := hgone
    right
    rw [Request.body] at hstatus hnone
    rw [hnone, hstatus]
    exact ⟨_, rfl, hmd5, hverdicts, hsigned⟩

end Held

/-- Some callback ends the body. -/
def Ended (r : Request) : Prop := r.chunks ≠ [] ∧ r.trailers = false

def DigestMatches (env : Env) (r : Request) : Prop :=
  env.getMD5Base64 r.body = r.headers.get (bytes "content-md5")

variable (hmatch : m.getMatchAuthConfig info = (some rule, allowSet))
include hmatch

/-- What is known of a form that goes on. -/
theorem run_form_forwarded (hknown : Known rule allowSet r.headers) (hform : isForm r.headers = true)
    {headers : Headers} {ctx : Ctx} (h : (plugin env m info).run r {} = .forwarded headers ctx) :
    headers = named rule r.headers ∧
      ((¬ Ended r ∧ (r.trailers = true → r.body.length ≤ maxBodySize) ∧ ctx.verdicts = []) ∨
        (Ended r ∧ ctx.verdicts = [true] ∧
          Signed env rule r.headers (some (parseFromBody r.body)) ∧
          (r.headers.get (bytes "content-md5") ≠ [] → DigestMatches env r))) := by
  have hfirst := onRequestHeaders_form env hmatch hknown hform
  by_cases hchunks : r.chunks = []
  · rw [run_without_body env hfirst rfl hchunks] at h
    cases h
    refine ⟨rfl, .inl ⟨fun hended => hended.1 hchunks, fun _ => ?_, rfl⟩⟩
    simp [Request.body, hchunks]
  · by_cases hlarge : maxBodySize < r.body.length
    · obtain ⟨_, _, hrun⟩ := run_large env hfirst rfl rfl (.inr rfl) rfl hlarge
      rw [hrun] at h
      cases h
    · have hsmall : r.body.length ≤ maxBodySize := by omega
      cases htrailers : r.trailers with
      | true =>
          rw [run_trailers env hfirst rfl rfl (.inr rfl) rfl hchunks hsmall htrailers] at h
          cases h
          exact ⟨rfl, .inl ⟨fun hended => by simp [htrailers, Ended] at hended, fun _ => hsmall, rfl⟩⟩
      | false =>
          rcases run_ended env hfirst rfl rfl (.inr rfl) rfl hchunks hsmall htrailers with
            ⟨_, _, hrun⟩ | ⟨ctx', hrun, hmd5, hverdicts, hsigned⟩
          · rw [hrun] at h
            cases h
          · rw [hrun] at h
            cases h
            exact ⟨rfl, .inr ⟨⟨hchunks, htrailers⟩, hverdicts, hsigned rfl, hmd5⟩⟩

/-- What is known of another request that goes on. -/
theorem run_plain_forwarded (hknown : Known rule allowSet r.headers)
    (hform : isForm r.headers = false) {headers : Headers} {ctx : Ctx}
    (h : (plugin env m info).run r {} = .forwarded headers ctx) :
    headers = (named rule r.headers).remove consumerHeader ∧ ctx.verdicts = [true] ∧
      Signed env rule r.headers none ∧
      (r.headers.get (bytes "content-md5") ≠ [] → r.chunks ≠ [] →
        r.body.length ≤ maxBodySize ∧ (r.trailers = false → DigestMatches env r)) := by
  by_cases hsigned : Signed env rule r.headers none
  · have hfirst := onRequestHeaders_signed env hmatch hknown hform hsigned
    by_cases hmd5 : r.headers.get (bytes "content-md5") = []
    · rw [run_unwanted env hfirst rfl rfl hmd5 rfl] at h
      cases h
      exact ⟨rfl, rfl, hsigned, fun hne => absurd hmd5 hne⟩
    · by_cases hchunks : r.chunks = []
      · rw [run_without_body env hfirst rfl hchunks] at h
        cases h
        exact ⟨rfl, rfl, hsigned, fun _ hne => absurd hchunks hne⟩
      · by_cases hlarge : maxBodySize < r.body.length
        · obtain ⟨_, _, hrun⟩ := run_large env hfirst rfl rfl (.inl hmd5) rfl hlarge
          rw [hrun] at h
          cases h
        · have hsmall : r.body.length ≤ maxBodySize := by omega
          cases htrailers : r.trailers with
          | true =>
              rw [run_trailers env hfirst rfl rfl (.inl hmd5) rfl hchunks hsmall htrailers] at h
              cases h
              exact ⟨rfl, rfl, hsigned, fun _ _ => ⟨hsmall, fun hno => by cases hno⟩⟩
          | false =>
              rcases run_ended env hfirst rfl rfl (.inl hmd5) rfl hchunks hsmall htrailers with
                ⟨_, _, hrun⟩ | ⟨ctx', hrun, hdigest, hverdicts, -⟩
              · rw [hrun] at h
                cases h
              · rw [hrun] at h
                cases h
                exact ⟨rfl, hverdicts, hsigned, fun hne _ => ⟨hsmall, fun _ => hdigest hne⟩⟩
  · obtain ⟨_, _, hrun⟩ := Filter.run_of_answer (f := plugin env m info)
      (onRequestHeaders_unsigned env hmatch hknown hform hsigned)
    rw [hrun] at h
    cases h

theorem known_of_forwarded {headers : Headers} {ctx : Ctx}
    (h : (plugin env m info).run r {} = .forwarded headers ctx) : Known rule allowSet r.headers := by
  by_contra hunknown
  obtain ⟨_, _, hrun⟩ := Filter.run_of_answer (f := plugin env m info)
    (onRequestHeaders_unknown env hmatch hunknown)
  rw [hrun] at h
  cases h

end Runs

/-! ### Which requests are let through -/

/-- A request goes on only if the check has agreed, and with a digest only if it is the
one of the body. -/
structure Admits (env : Env) (r : Request) (outcome : Outcome Ctx) : Prop where
  verified : ∀ headers ctx, outcome = .forwarded headers ctx → true ∈ ctx.verdicts
  digest : ∀ headers ctx, outcome = .forwarded headers ctx →
    r.headers.get (bytes "content-md5") ≠ [] → r.chunks ≠ [] → DigestMatches env r

/-- What makes up for the callbacks that do nothing: a form has a body, and if trailers
follow it, it is too large; and if trailers follow another body that is not too large, its
digest is right anyway. -/
def Covered (env : Env) (rule : HmacAuthConfigRule) (r : Request) : Prop :=
  if isForm r.headers = true then
    r.chunks ≠ [] ∧ (r.trailers = true → maxBodySize < r.body.length)
  else
    Signed env rule r.headers none → r.headers.get (bytes "content-md5") ≠ [] → r.chunks ≠ [] →
      r.trailers = true → r.body.length ≤ maxBodySize → DigestMatches env r

/-- Only verified requests go on, exactly if no request of a known consumer depends on a
callback that does nothing. -/
theorem admits_verified_iff (env : Env) {m : Matcher HmacAuthConfigRule} {info : RouteInfo}
    {rule : HmacAuthConfigRule} {allowSet : Option AllowSet}
    (hmatch : m.getMatchAuthConfig info = (some rule, allowSet)) (r : Request) :
    Admits env r ((plugin env m info).run r {}) ↔
      (Known rule allowSet r.headers → Covered env rule r) := by
  constructor
  · intro hadmits hknown
    rw [Covered]
    split
    · rename_i hform
      have hfirst := onRequestHeaders_form env hmatch hknown hform
      -- a form that is not covered goes on without a verdict
      have hchunks : r.chunks ≠ [] := by
        intro hnil
        cases hadmits.verified _ _ (run_without_body env hfirst rfl hnil)
      refine ⟨hchunks, fun htrailers => ?_⟩
      by_contra hsmall
      cases hadmits.verified _ _
        (run_trailers env hfirst rfl rfl (.inr rfl) rfl hchunks (by omega) htrailers)
    · rename_i hform
      intro hsigned hmd5 hchunks htrailers hsmall
      have hfirst := onRequestHeaders_signed env hmatch hknown (by simpa using hform) hsigned
      exact hadmits.digest _ _
        (run_trailers env hfirst rfl rfl (.inl hmd5) rfl hchunks hsmall htrailers) hmd5 hchunks
  · intro hcovered
    refine ⟨fun headers ctx hrun => ?_, fun headers ctx hrun hmd5 hchunks => ?_⟩
    · have hknown := known_of_forwarded env hmatch hrun
      have hcov := hcovered hknown
      cases hform : isForm r.headers with
      | false =>
          obtain ⟨-, hverdicts, -⟩ := run_plain_forwarded env hmatch hknown hform hrun
          simp [hverdicts]
      | true =>
          rw [Covered, if_pos hform] at hcov
          obtain ⟨-, ⟨hopen, hsmall, -⟩ | ⟨-, hverdicts, -⟩⟩ :=
            run_form_forwarded env hmatch hknown hform hrun
          · have htrailers : r.trailers = true := by
              by_contra hno
              exact hopen ⟨hcov.1, by simpa using hno⟩
            have := hcov.2 htrailers
            have := hsmall htrailers
            omega
          · simp [hverdicts]
    · have hknown := known_of_forwarded env hmatch hrun
      have hcov := hcovered hknown
      cases hform : isForm r.headers with
      | false =>
          rw [Covered, if_neg (by simp [hform])] at hcov
          obtain ⟨-, -, hsigned, hbody⟩ := run_plain_forwarded env hmatch hknown hform hrun
          obtain ⟨hsmall, hended⟩ := hbody hmd5 hchunks
          cases htrailers : r.trailers with
          | true => exact hcov hsigned hmd5 hchunks htrailers hsmall
          | false => exact hended htrailers
      | true =>
          rw [Covered, if_pos hform] at hcov
          obtain ⟨-, ⟨hopen, hsmall, -⟩ | ⟨-, -, -, hdigest⟩⟩ :=
            run_form_forwarded env hmatch hknown hform hrun
          · have htrailers : r.trailers = true := by
              by_contra hno
              exact hopen ⟨hcov.1, by simpa using hno⟩
            have := hcov.2 htrailers
            have := hsmall htrailers
            omega
          · exact hdigest hmd5

/-! ### Requests of one consumer -/

namespace Sample

def configuration : Json :=
  .obj [(bytes "consumers", .arr [.obj [(bytes "key", .str (bytes "appKey")),
    (bytes "secret", .str (bytes "appSecret")), (bytes "name", .str (bytes "alice"))]])]

def rule : HmacAuthConfigRule :=
  { credentials := [(bytes "appKey", bytes "appSecret")], keyToName := [(bytes "appKey", bytes "alice")] }

def matcher : Matcher HmacAuthConfigRule := ⟨none, [], some rule⟩

def info : RouteInfo := ⟨bytes "example.com", bytes "route", []⟩

/-- The HMAC of two messages; other messages are marked. -/
def hmac (_ : HashType) (_ message : GoString) : GoString :=
  if message = bytes "GET\n\n\n\n\n/" then bytes "T4qerBrdgw4wUqiykxI2lakuqYToJXe31pV8eZof8E4="
  else if message = bytes "POST\n\n\napplication/x-www-form-urlencoded\n\n/?a=1" then
    bytes "cNzwrirkEoeuqu/2x2igERl+EhPvoIr90hs2ealwyn8="
  else 0 :: message

def env : Env := ⟨hmac, fun _ => [], 0, fun _ => none, fun _ => none⟩

def plain : Request :=
  { headers := [(bytes ":method", bytes "GET"), (bytes ":path", bytes "/"),
      (bytes "x-ca-key", bytes "appKey"),
      (bytes "x-ca-signature", bytes "T4qerBrdgw4wUqiykxI2lakuqYToJXe31pV8eZof8E4=")] }

def form (signature : String) (chunks : List GoString) : Request :=
  { headers := [(bytes ":method", bytes "POST"), (bytes ":path", bytes "/"),
      (bytes "content-type", bytes "application/x-www-form-urlencoded"),
      (bytes "x-ca-key", bytes "appKey"), (bytes "x-ca-signature", bytes signature)]
    chunks := chunks }

/-- The names under which a request goes on, and what the check has said. -/
def forwardedAs : Outcome Ctx → Option (List GoString × List Bool)
  | .forwarded headers ctx => some (headers.values consumerHeader, ctx.verdicts)
  | _ => none

theorem exists_of_forwardedAs {outcome : Outcome Ctx} {names : List GoString} {verdicts : List Bool}
    (h : forwardedAs outcome = some (names, verdicts)) :
    ∃ headers ctx, outcome = .forwarded headers ctx ∧ headers.values consumerHeader = names ∧
      ctx.verdicts = verdicts := by
  cases outcome with
  | forwarded headers ctx =>
      cases h
      exact ⟨headers, ctx, rfl, rfl, rfl⟩
  | answered response ctx => cases h
  | held ctx => cases h

end Sample

open Sample in
theorem admits_plain : matcher.getMatchAuthConfig info = (some rule, none) ∧
    Admits env plain ((plugin env matcher info).run plain {}) := by
  have hmatch : matcher.getMatchAuthConfig info = (some rule, none) := rfl
  refine ⟨hmatch, (admits_verified_iff env hmatch plain).mpr fun _ => ?_⟩
  rw [Covered, if_neg (by decide)]
  exact fun _ _ hchunks => absurd rfl hchunks

open Sample in
/-- A form without a signature goes on if it has no body. -/
theorem not_admits_form : matcher.getMatchAuthConfig info = (some rule, none) ∧
    ¬ Admits env (form "" []) ((plugin env matcher info).run (form "" []) {}) := by
  refine ⟨rfl, fun h => ?_⟩
  have hnames : forwardedAs ((plugin env matcher info).run (form "" []) {}) =
      some ([bytes "alice"], []) := by decide
  obtain ⟨headers, ctx, hrun, -, hverdicts⟩ := exists_of_forwardedAs hnames
  have htrue := h.verified headers ctx hrun
  rw [hverdicts] at htrue
  cases htrue

/-! ### Under which name they go on -/

/-- The names of all keys are configured. -/
theorem named_of_parse {valueAsInt64 : Json → Option ℤ} {configuration : Json}
    {rule : HmacAuthConfigRule} (h : parsePluginConfig valueAsInt64 configuration = some rule)
    (hconsumers : (find configuration (bytes "consumers")).isSome = true) (key : GoString) :
    (rule.keyToName.lookup key).isSome = (rule.credentials.lookup key).isSome := by
  have hstep (items : List Json) (rule rule' : HmacAuthConfigRule)
      (hrule : ∀ key, (rule.keyToName.lookup key).isSome = (rule.credentials.lookup key).isSome)
      (hfold : items.foldlM parseConsumer rule = some rule') (key : GoString) :
      (rule'.keyToName.lookup key).isSome = (rule'.credentials.lookup key).isSome := by
    induction items generalizing rule with
    | nil =>
        obtain rfl : rule = rule' := by simpa using hfold
        exact hrule key
    | cons item items ih =>
        rw [List.foldlM_cons, Option.bind_eq_bind, Option.bind_eq_some_iff] at hfold
        obtain ⟨rule₁, hone, hfold⟩ := hfold
        refine ih rule₁ (fun key => ?_) hfold
        simp only [parseConsumer, Option.bind_eq_bind, Option.bind_eq_some_iff] at hone
        obtain ⟨k, -, secret, -, name, -, hone⟩ := hone
        split at hone
        · cases hone
        · cases hone
          simp only [List.lookup_append, Option.isSome_or, hrule key, List.lookup_cons,
            List.lookup_nil]
          cases key == k <;> rfl
  rw [parsePluginConfig] at h
  split at h
  · cases h
  · rename_i hboth
    have hnone : find configuration (bytes "credentials") = none := by
      simpa [hconsumers] using hboth
    simp only [arrayIterate, hnone, Option.bind_eq_bind, Option.bind_eq_some_iff] at h
    obtain ⟨credentials, hcredentials, rule₀, hstart, items, -, rule₁, hfold, h⟩ := h
    obtain rfl : [] = credentials := by simpa using hcredentials
    obtain rfl : {} = rule₀ := by simpa using hstart
    have hall := hstep items {} rule₁ (by simp) hfold key
    split at h
    · cases h
    · rw [parseDateOffset] at h
      split at h
      · cases h
        exact hall
      · obtain ⟨_, -, rfl⟩ := Option.map_eq_some_iff.mp h
        exact hall

theorem lookup_of_known {rule : HmacAuthConfigRule} {allowSet : Option AllowSet} {headers : Headers}
    (h : Known rule allowSet headers) :
    (rule.credentials.lookup (headers.get (bytes "x-ca-key"))).isSome = true := by
  unfold Known consumerRefusal at h
  split at h
  · cases h
  · split at h
    · cases h
    · rename_i hsome
      simpa using hsome

/-- The request goes on under the name of its key and no other. -/
def Identified (rule : HmacAuthConfigRule) (r : Request) (headers : Headers) : Prop :=
  ∃ name, rule.keyToName.lookup (r.headers.get (bytes "x-ca-key")) = some name ∧
    headers.values consumerHeader = [name]

/-- An accepted request has exactly the name of its consumer if it is a form and the client
has sent no name itself; all others that are not forms have none. -/
theorem identified_iff (env : Env) {valueAsInt64 : Json → Option ℤ} {configuration : Json}
    {rule : HmacAuthConfigRule} (hparse : parsePluginConfig valueAsInt64 configuration = some rule)
    (hconsumers : (find configuration (bytes "consumers")).isSome = true)
    {m : Matcher HmacAuthConfigRule} {info : RouteInfo} {allowSet : Option AllowSet}
    (hmatch : m.getMatchAuthConfig info = (some rule, allowSet)) {r : Request} {headers : Headers}
    {ctx : Ctx} (hrun : (plugin env m info).run r {} = .forwarded headers ctx) :
    Identified rule r headers ↔
      isForm r.headers = true ∧ r.headers.values consumerHeader = [] := by
  have hknown := known_of_forwarded env hmatch hrun
  have hsome := lookup_of_known hknown
  rw [← named_of_parse hparse hconsumers] at hsome
  obtain ⟨name, hname⟩ := Option.isSome_iff_exists.mp hsome
  cases hform : isForm r.headers with
  | true =>
      obtain ⟨rfl, -⟩ := run_form_forwarded env hmatch hknown hform hrun
      simp [Identified, named, hname]
  | false =>
      obtain ⟨rfl, -⟩ := run_plain_forwarded env hmatch hknown hform hrun
      simp [Identified]

open Sample in
theorem identified_form : ∃ headers ctx,
    (plugin env matcher info).run (form "cNzwrirkEoeuqu/2x2igERl+EhPvoIr90hs2ealwyn8="
      [bytes "a=1"]) {} = .forwarded headers ctx ∧
    Identified rule (form "cNzwrirkEoeuqu/2x2igERl+EhPvoIr90hs2ealwyn8=" [bytes "a=1"]) headers := by
  have hparse : parsePluginConfig (fun _ => none) configuration = some rule := by decide
  have hnames : forwardedAs ((plugin env matcher info).run
      (form "cNzwrirkEoeuqu/2x2igERl+EhPvoIr90hs2ealwyn8=" [bytes "a=1"]) {}) =
        some ([bytes "alice"], [true]) := by decide +kernel
  obtain ⟨headers, ctx, hrun, -, -⟩ := exists_of_forwardedAs hnames
  refine ⟨headers, ctx, hrun, ?_⟩
  exact (identified_iff env hparse (by decide) rfl hrun).mpr (by decide)

open Sample in
/-- A request with a good signature goes on without a name. -/
theorem not_identified_plain : parsePluginConfig (fun _ => none) configuration = some rule ∧
    ∃ headers ctx, (plugin env matcher info).run plain {} = .forwarded headers ctx ∧
      true ∈ ctx.verdicts ∧ ¬ Identified rule plain headers := by
  have hnames : forwardedAs ((plugin env matcher info).run plain {}) = some ([], [true]) := by
    decide +kernel
  obtain ⟨headers, ctx, hrun, hnone, hverdicts⟩ := exists_of_forwardedAs hnames
  refine ⟨by decide, headers, ctx, hrun, by simp [hverdicts], ?_⟩
  rintro ⟨name, -, hname⟩
  rw [hnone] at hname
  cases hname

end Higress.WasmCpp.HmacAuth
