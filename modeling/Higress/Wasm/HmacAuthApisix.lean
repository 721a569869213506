import Higress.Lib.Base64
import Higress.Lib.HttpFilter
import Higress.Lib.LetterCase

/-!
The plugin `hmac-auth-apisix`. A request names the key, the algorithm and the headers of
its signature in its `Authorization` header. The string to sign has the key and a line for
each listed header that the request has; the method and the path are signed under the name
`@request-target`. A configuration may demand headers that have to be listed.
-/

namespace Higress.HmacAuthApisix

open Lib HttpFilter

inductive Hash
  | sha1
  | sha256
  | sha512
  deriving DecidableEq

/-- What the plugin uses of its libraries: the HMACs by key and message, the time of a date
as `time.Parse` reads it, and the table of `unicode.ToLower`. -/
structure Env where
  hmac : Hash → GoString → GoString → GoString
  parseDate : GoString → Option ℤ
  caseTable : CaseTable

structure Consumer where
  name : GoString
  accessKey : GoString
  secretKey : GoString

structure HmacAuthConfig where
  consumers : List Consumer
  globalAuth : Option Bool := none
  allowedAlgorithms : List GoString := [bytes "hmac-sha1", bytes "hmac-sha256", bytes "hmac-sha512"]
  clockSkew : ℤ := 300
  signedHeaders : List GoString := [bytes "date"]
  validateRequestBody : Bool := false
  hideCredentials : Bool := false
  anonymousConsumer : GoString := []
  allow : List GoString := []
  ruleSet : Bool := false

/-- `GetHttpRequestHeader`, which compares names without regard to the case of ASCII
letters and takes the first header of the name. -/
def getHttpRequestHeader (hs : Headers) (name : GoString) : Option GoString :=
  (hs.find? fun h => h.1 == lower name).map Prod.snd

/-! ### The fields of the `Authorization` header -/

/-- `\w` -/
def isWord (b : UInt8) : Bool :=
  (48 ≤ b && b ≤ 57) || (65 ≤ b && b ≤ 90) || b == 95 || (97 ≤ b && b ≤ 122)

/-- How much of the pattern `(\w+)="([^"]*)"` has been read. -/
inductive FieldScan
  | word (key : GoString)
  | equals (key : GoString)
  | quoted (key value : GoString)

/-- One byte of a text, and the match that ends with it. A match begins with the first byte of
a run of word bytes, so a run that leads to no match is given up as a whole. -/
def FieldScan.step (b : UInt8) : FieldScan → FieldScan × Option (GoString × GoString)
  | .word key =>
      if isWord b then (.word (key ++ [b]), none)
      else if b = 61 ∧ key ≠ [] then (.equals key, none)
      else (.word [], none)
  | .equals key =>
      if b = 34 then (.quoted key [], none)
      else if isWord b then (.word [b], none)
      else (.word [], none)
  | .quoted key value =>
      if b = 34 then (.word [], some (key, value)) else (.quoted key (value ++ [b]), none)

/-- `fieldRegex.FindAllStringSubmatch`, from a state of the search on. -/
def findFrom (scan : FieldScan) : GoString → List (GoString × GoString)
  | [] => []
  | b :: s => (scan.step b).2.toList ++ findFrom (scan.step b).1 s

def findAllStringSubmatch (s : GoString) : List (GoString × GoString) := findFrom (.word []) s

structure HmacParams where
  keyId : GoString := []
  algorithm : GoString := []
  signature : GoString := []
  headers : List GoString := []
  consumerName : GoString := []

/-- The effect of one match on the parameters. -/
def HmacParams.set (params : HmacParams) (field : GoString × GoString) : HmacParams :=
  if field.1 = bytes "keyId" then { params with keyId := field.2 }
  else if field.1 = bytes "algorithm" then { params with algorithm := field.2 }
  else if field.1 = bytes "signature" then { params with signature := field.2 }
  else if field.1 = bytes "headers" then
    if field.2 ≠ [] then { params with headers := field.2.splitOn 32 } else params
  else params

def signatureStart : GoString := bytes "Signature "

/-- The parameters that an `Authorization` header gives. -/
def parseFields (authString : GoString) : HmacParams :=
  (findAllStringSubmatch (authString.drop signatureStart.length)).foldl HmacParams.set {}

def HmacAuthConfig.findConsumer (cfg : HmacAuthConfig) (keyId : GoString) : Option Consumer :=
  cfg.consumers.find? fun consumer => consumer.accessKey == keyId

def retrieveHmacFieldsAndConsumer (cfg : HmacAuthConfig) (hs : Headers) :
    Except GoString HmacParams :=
  match getHttpRequestHeader hs (bytes "Authorization") with
  | none => .error (bytes "missing Authorization header")
  | some authString =>
      if !Strings.startsWith authString signatureStart then
        .error (bytes "Authorization header does not start with 'Signature '")
      else
        let params := parseFields authString
        if params.keyId = [] ∨ params.signature = [] then
          .error (bytes "keyId or signature missing")
        else if params.algorithm = [] then .error (bytes "algorithm missing")
        else match cfg.findConsumer params.keyId with
          | none => .error (bytes "Invalid keyId")
          | some consumer => .ok { params with consumerName := consumer.name }

/-! ### The signature -/

section Signature

variable (env : Env) (cfg : HmacAuthConfig) (hs : Headers)

def requestTargetName : GoString := bytes "@request-target"

def requestMethod : GoString := (getHttpRequestHeader hs (bytes ":method")).getD (bytes "GET")

def requestURI : GoString :=
  match getHttpRequestHeader hs (bytes ":path") with
  | none => bytes "/"
  | some path => if path = [] then bytes "/" else path

/-- The line for a listed header, without its end; a header that the request does not have
is passed over. -/
def signingStringItem (name : GoString) : Option GoString :=
  if name = requestTargetName then some (requestMethod hs ++ bytes " " ++ requestURI hs)
  else (getHttpRequestHeader hs name).map fun value => name ++ bytes ": " ++ value

def generateSigningString (params : HmacParams) : GoString :=
  Strings.join (params.keyId :: params.headers.filterMap (signingStringItem hs)) (bytes "\n") ++
    bytes "\n"

def hashOf (algorithm : GoString) : Option Hash :=
  if algorithm = bytes "hmac-sha1" then some .sha1
  else if algorithm = bytes "hmac-sha256" then some .sha256
  else if algorithm = bytes "hmac-sha512" then some .sha512
  else none

def generateHmacSignature (secretKey algorithm message : GoString) : Except GoString GoString :=
  match hashOf algorithm with
  | none => .error (bytes "unsupported algorithm: " ++ algorithm)
  | some hash => .ok (Base64.encodeToString (env.hmac hash secretKey message))

def hmacSignatureEqual (expectedEncoded actualEncoded : GoString) : Bool :=
  if expectedEncoded.length ≠ actualEncoded.length ∨
      Strings.containsAny actualEncoded (bytes "\r\n") = true then false
  else match Base64.decodeString false expectedEncoded with
    | none => false
    | some expected =>
        match Base64.decodeString true actualEncoded with
        | none => false
        | some actual => actual.length == expected.length && expected == actual

/-- The error of `validateSignature`. -/
def validateSignature (params : HmacParams) : Option GoString :=
  match cfg.findConsumer params.keyId with
  | none => some (bytes "Invalid keyId")
  | some consumer =>
      match generateHmacSignature env consumer.secretKey params.algorithm
          (generateSigningString hs params) with
      | .error e => some e
      | .ok expected =>
          if hmacSignatureEqual expected params.signature then none
          else some (bytes "Invalid signature")

end Signature

/-! ### The other checks -/

section Checks

variable (env : Env) (cfg : HmacAuthConfig) (now : ℤ) (hs : Headers)

/-- The error of `validateClockSkew`. -/
def validateClockSkew : Option GoString :=
  let date := (getHttpRequestHeader hs (bytes "Date")).getD []
  if date = [] then some (bytes "Date header missing. failed to validate clock skew")
  else match env.parseDate date with
    | none => some (bytes "Invalid GMT format time")
    | some time =>
        if |now - time| > cfg.clockSkew then some (bytes "Clock skew exceeded") else none

/-- The check of one header that has to be signed. -/
def requiredHeaderError (listed : List GoString) (required : GoString) : Option GoString :=
  if toLower env.caseTable required ∉ listed.map (toLower env.caseTable) then
    some (bytes "expected header \"" ++ required ++ bytes "\" missing in signing")
  else if toLower env.caseTable required = requestTargetName then none
  else if getHttpRequestHeader hs required = none then
    some (bytes "expected header \"" ++ required ++ bytes "\" missing in request")
  else none

def signedHeadersError (params : HmacParams) : Option GoString :=
  if cfg.signedHeaders = [] then none
  else if params.headers = [] then some (bytes "headers missing")
  else cfg.signedHeaders.findSome? (requiredHeaderError env hs params.headers)

/-- The first check that a request with some parameters fails. -/
def refusal (params : HmacParams) : Option GoString :=
  if cfg.allow ≠ [] ∧ params.consumerName ∉ cfg.allow then
    some (bytes "consumer '" ++ params.consumerName ++ bytes "' is not allowed")
  else match (if cfg.clockSkew > 0 then validateClockSkew env cfg now hs else none) with
    | some e => some e
    | none =>
        if params.algorithm ∉ cfg.allowedAlgorithms then some (bytes "Invalid algorithm")
        else match signedHeadersError env cfg hs params with
          | some e => some e
          | none => validateSignature env cfg hs params

end Checks

/-! ### Requests -/

/-- What the plugin makes of a request. -/
inductive Verdict
  | notRequired
  | anonymous
  | verified (params : HmacParams)
  | refused (message : GoString)

def authenticate (env : Env) (cfg : HmacAuthConfig) (now : ℤ) (hs : Headers) : Verdict :=
  if cfg.globalAuth = some false ∧ cfg.ruleSet = false ∧ cfg.allow = [] then .notRequired
  else if cfg.ruleSet = true ∧ cfg.allow = [] ∧ cfg.globalAuth ≠ some true then
    .refused (bytes "no consumer is allowed")
  else match retrieveHmacFieldsAndConsumer cfg hs with
    | .error e => if cfg.anonymousConsumer ≠ [] then .anonymous else .refused e
    | .ok params =>
        match refusal env cfg now hs params with
        | some e => .refused e
        | none => .verified params

/-- Whether the body is to be read. -/
structure HttpContext where
  hasRequestBody : Bool
  readsRequestBody : Option Bool := none

def sendUnauthorizedResponse (message : GoString) (s : Stream HttpContext) :
    HeadersStatus × Stream HttpContext :=
  (.goOn, s.sendLocalResponse
    { code := 401, details := [], headers := []
      body := bytes "\x7b\"message\":\"client request can't be validated: " ++ message ++
        bytes "\"\x7d" })

def consumerHeader : GoString := bytes "X-Mse-Consumer"

def setConsumerHeader (name : GoString) (hs : Headers) : Headers :=
  (hs.remove consumerHeader).add consumerHeader name

def onHttpRequestHeaders (env : Env) (cfg : HmacAuthConfig) (now : ℤ) (s : Stream HttpContext) :
    HeadersStatus × Stream HttpContext :=
  match authenticate env cfg now s.headers with
  | .notRequired => (.goOn, { s with ctx.readsRequestBody := some false })
  | .anonymous =>
      (.goOn, { s with
        headers := setConsumerHeader cfg.anonymousConsumer s.headers
        ctx.readsRequestBody := some false })
  | .refused message => sendUnauthorizedResponse message s
  | .verified params =>
      let named := setConsumerHeader params.consumerName s.headers
      let hidden := if cfg.hideCredentials then named.remove (bytes "Authorization") else named
      if s.ctx.hasRequestBody && cfg.validateRequestBody then
        (.stopIteration, { s with headers := hidden, ctx.readsRequestBody := some true })
      else (.goOn, { s with headers := hidden, ctx.readsRequestBody := some false })

end Higress.HmacAuthApisix
