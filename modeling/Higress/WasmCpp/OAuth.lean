import Higress.Lib.HttpFilter
import Higress.WasmCpp.RuleMatcher

/-!
The OAuth plugin (`extensions/oauth/plugin.cc`).

One header callback does two things: a request whose path ends with the path of the
authorization endpoint is given a token, all others must carry one. The parameters of a
token are in the query or, for a form, in the body, which comes in later callbacks.

Only two methods are known at the endpoint; a request with another one goes on as it is,
and so does a form whose body never comes to its end in a callback.
-/

namespace Higress.WasmCpp.OAuth

open Lib HttpFilter

structure Consumer where
  name : GoString
  clientId : GoString
  clientSecret : GoString
deriving DecidableEq

/-- `OAuthConfigRule`; the consumers are found by their `client_id`. -/
structure OAuthConfigRule where
  consumers : List (GoString × Consumer) := []
  issuer : GoString := bytes "Higress-Gateway"
  authHeaderName : GoString := bytes "Authorization"
  authPath : GoString := bytes "/oauth2/token"
  globalCredentials : Bool := true
  tokenTtl : ℕ := 7200
  keepToken : Bool := true
  clockSkew : ℕ := 60
deriving DecidableEq

/-! ### Tokens -/

/-- A claim of a token, as far as its type matters. -/
inductive ClaimValue
  | string (s : GoString)
  | integer
  | other

/-- What a token is made of when it is signed. -/
structure TokenClaims where
  audience : GoString
  scope : Option GoString
  issuer : GoString
  type : GoString
  subject : GoString
  ttl : ℕ
  clientId : GoString

/-- What a token is verified against. -/
structure Verifier where
  secret : GoString
  issuer : GoString
  subject : GoString
  type : GoString
  leeway : ℕ

/-- The library for tokens, with its clock and its source of random ids. A text that is no
token has no claims; a token that has been signed is not empty. -/
structure Jwt where
  decode : GoString → List (GoString × ClaimValue)
  verify : Verifier → GoString → Bool
  sign : TokenClaims → GoString → Except GoString GoString
  sign_ne_nil : ∀ claims secret token, sign claims secret = .ok token → token ≠ []

def typeHeader : GoString := bytes "application/at+jwt"

/-- A parameter that must be there. -/
def parameter (params : QueryParams) (name : String) : Except GoString GoString :=
  match params.get (bytes name) with
  | none => .error (bytes name ++ bytes " is missing")
  | some value => .ok value

/-- `generateToken`: the token or the message of the error. -/
def generateToken (jwt : Jwt) (rule : OAuthConfigRule) (routeName rawParams : GoString) :
    Except GoString GoString := do
  let params := parseParameters rawParams true
  let grantType ← parameter params "grant_type"
  if grantType ≠ bytes "client_credentials" then
    .error (bytes "grant_type:" ++ grantType ++ bytes " is not support")
  else do
    let clientId ← parameter params "client_id"
    match rule.consumers.lookup clientId with
    | none => .error (bytes "invalid client_id or client_secret")
    | some consumer => do
        let clientSecret ← parameter params "client_secret"
        if clientSecret ≠ consumer.clientSecret then
          .error (bytes "invalid client_id or client_secret")
        else
          let claims : TokenClaims :=
            { audience := if rule.globalCredentials then bytes "default" else routeName
              scope := params.get (bytes "scope")
              issuer := rule.issuer
              type := typeHeader
              subject := consumer.name
              ttl := rule.tokenTtl
              clientId := consumer.clientId }
          match jwt.sign claims consumer.clientSecret with
          | .ok token => .ok token
          | .error message => .error (bytes "jwt sign failed: %s" ++ message)

/-! ### The check -/

inductive Refusal
  | unverified
  | denied

def ClaimValue.isString : ClaimValue → Bool
  | .string _ => true
  | _ => false

def ClaimValue.isInteger : ClaimValue → Bool
  | .integer => true
  | _ => false

/-- The claims that a token must have, each of its type. -/
def hasClaims (token : List (GoString × ClaimValue)) : Bool :=
  (["client_id", "iss", "sub", "aud"].all fun claim =>
    (token.lookup (bytes claim)).any ClaimValue.isString) &&
    ["exp", "iat"].all fun claim => (token.lookup (bytes claim)).any ClaimValue.isInteger

def asString : Option ClaimValue → GoString
  | some (.string s) => s
  | _ => []

/-- Who has sent the request, if its token is good. -/
def verifyToken (jwt : Jwt) (rule : OAuthConfigRule) (allowSet : Option AllowSet)
    (routeName authHeader : GoString) : Except Refusal Consumer :=
  match Strings.index authHeader (bytes "Bearer ") with
  | none => .error .unverified
  | some pos =>
      let tokenStr := authHeader.drop (pos + (bytes "Bearer ").length)
      let token := jwt.decode tokenStr
      if !hasClaims token then .error .unverified
      else
        match rule.consumers.lookup (asString (token.lookup (bytes "client_id"))) with
        | none => .error .unverified
        | some consumer =>
            if !jwt.verify ⟨consumer.clientSecret, rule.issuer, consumer.name, typeHeader,
              rule.clockSkew⟩ tokenStr then .error .unverified
            else if allowSet.any fun names => !names.contains consumer.name then .error .denied
            else if !rule.globalCredentials &&
              asString (token.lookup (bytes "aud")) != routeName then .error .denied
            else .ok consumer

def consumerHeader : GoString := bytes "X-Mse-Consumer"

/-- `buildOriginalUri` with a limit for the path. -/
def buildOriginalUri (maxPathLength : ℕ) (headers : Headers) : GoString :=
  let path := headers.get (bytes ":path")
  if path = [] then []
  else
    let envoyPath := headers.get (bytes "x-envoy-original-path")
    let finalPath := if envoyPath = [] then path else envoyPath
    headers.get (bytes ":scheme") ++ bytes "://" ++ headers.get (bytes ":authority") ++
      finalPath.take maxPathLength

def rcDetail : GoString := bytes "oauth_access_denied"

section Plugin

variable {σ : Type}

def refuse (refusal : Refusal) (s : Stream σ) : Stream σ :=
  s.sendLocalResponse <| match refusal with
    | .unverified =>
        ⟨401, rcDetail, bytes "Invalid Jwt token", [(bytes "WWW-Authenticate",
          bytes "Bearer realm=\"" ++ buildOriginalUri 256 s.headers ++ bytes "\"")]⟩
    | .denied => ⟨403, rcDetail, bytes "Access Denied", []⟩

def checkPlugin (jwt : Jwt) (routeName : GoString) (rule : OAuthConfigRule)
    (allowSet : Option AllowSet) (s : Stream σ) : Bool × Stream σ :=
  let s := { s with headers := s.headers.remove consumerHeader }
  match verifyToken jwt rule allowSet routeName (s.headers.get rule.authHeaderName) with
  | .error refusal => (false, refuse refusal s)
  | .ok consumer =>
      let headers := if rule.keepToken then s.headers else s.headers.remove rule.authHeaderName
      (true, { s with headers := headers.add consumerHeader consumer.name })

end Plugin

/-! ### The callbacks -/

/-- `PluginContext`, and what `checkPlugin` has said. -/
structure Ctx where
  routeName : GoString := []
  config : Option OAuthConfigRule := none
  checkBodyParams : Bool := false
  bodyTotalSize : ℕ := 0
  verdicts : List Bool := []

def tokenResponse (token : GoString) (ttl : ℕ) : LocalResponse :=
  ⟨200, [], bytes "\n\x7b\n  \"token_type\": \"bearer\",\n  \"access_token\": \"" ++ token ++
    bytes "\",\n  \"expires_in\": " ++ bytes (toString ttl) ++ bytes "\n\x7d",
    [(bytes "Content-Type", bytes "application/json")]⟩

def generateRcDetails (errorMsg : GoString) : GoString :=
  rcDetail ++ bytes "\x7b" ++ errorMsg.map (fun b => if b = 32 then 95 else b) ++ bytes "\x7d"

def errorResponse (errMsg : GoString) : LocalResponse := ⟨400, generateRcDetails errMsg, errMsg, []⟩

/-- The path of a request without its query. -/
def uriOf (path : GoString) : GoString := (cutByte 63 path).1

def isForm (headers : Headers) : Bool :=
  Strings.contains (lower (headers.get (bytes "content-type")))
    (bytes "application/x-www-form-urlencoded")

section Callbacks

variable (jwt : Jwt) (m : Matcher OAuthConfigRule) (info : RouteInfo)

/-- `checkPlugin`, with a record of what it says. -/
def checked (rule : OAuthConfigRule) (allowSet : Option AllowSet) (s : Stream Ctx) :
    Bool × Stream Ctx :=
  let done := checkPlugin jwt s.ctx.routeName rule allowSet s
  (done.1, { done.2 with ctx := { done.2.ctx with verdicts := done.2.ctx.verdicts ++ [done.1] } })

/-- The end of the branch for the endpoint, with the token and the message it has come to. -/
def authorized (config : OAuthConfigRule) (token errMsg : GoString) (s : Stream Ctx) :
    HeadersStatus × Stream Ctx :=
  if errMsg ≠ [] then (.stopIteration, s.sendLocalResponse (errorResponse errMsg))
  else if token ≠ [] then (.goOn, s.sendLocalResponse (tokenResponse token config.tokenTtl))
  else (.goOn, s)

/-- The branch for the endpoint. -/
def authorize (config : OAuthConfigRule) (s : Stream Ctx) : HeadersStatus × Stream Ctx :=
  let method := s.headers.get (bytes ":method")
  if method = bytes "GET" then
    match queryOf (s.headers.get (bytes ":path")) with
    | none => authorized config [] (bytes "Authorize parameters are missing") s
    | some params =>
        match generateToken jwt config s.ctx.routeName params with
        | .ok token => authorized config token [] s
        | .error errMsg => authorized config [] errMsg s
  else if method = bytes "POST" then
    if !isForm s.headers then authorized config [] (bytes "Invalid content-type") s
    else authorized config [] [] { s with ctx := { s.ctx with checkBodyParams := true } }
  else authorized config [] [] s

def onRequestHeaders (s : Stream Ctx) : HeadersStatus × Stream Ctx :=
  match (m.getMatchAuthConfig info).1 with
  | none => (.goOn, s)
  | some config =>
      let s := { s with ctx := { s.ctx with config := some config, routeName := info.routeName } }
      if config.authPath.isSuffixOf (uriOf (s.headers.get (bytes ":path"))) then
        authorize jwt config s
      else
        let done := m.checkAuthRule info (checked jwt) s
        (if done.1 then .goOn else .stopIteration, done.2)

def onRequestBody (bodySize : ℕ) (buffer : GoString) (endStream : Bool) (s : Stream Ctx) :
    DataStatus × Stream Ctx :=
  if !s.ctx.checkBodyParams then (.goOn, s)
  else
    let s := { s with ctx := { s.ctx with bodyTotalSize := s.ctx.bodyTotalSize + bodySize } }
    if !endStream then (.stopIterationAndBuffer, s)
    else
      match s.ctx.config with
      | none => (.goOn, s)
      | some config =>
          match generateToken jwt config s.ctx.routeName (buffer.take s.ctx.bodyTotalSize) with
          | .ok token => (.goOn, s.sendLocalResponse (tokenResponse token config.tokenTtl))
          | .error errMsg => (.stopIterationNoBuffer, s.sendLocalResponse (errorResponse errMsg))

def plugin : HttpFilter.Filter Ctx := ⟨onRequestHeaders jwt m info, onRequestBody jwt⟩

end Callbacks

/-! ### Which requests are let through -/

/-- A request goes on only if the check has agreed, and at the endpoint all others are
answered. -/
structure Admits (config : OAuthConfigRule) (r : Request) (outcome : Outcome Ctx) : Prop where
  verified : ∀ headers ctx, outcome = .forwarded headers ctx → true ∈ ctx.verdicts
  endpoint : config.authPath.isSuffixOf (uriOf (r.headers.get (bytes ":path"))) = true →
    (∃ headers ctx, outcome = .forwarded headers ctx) ∨ ∃ response ctx, outcome = .answered response ctx

theorem Admits.of_verified {config : OAuthConfigRule} {r : Request} {outcome : Outcome Ctx}
    {headers : Headers} {ctx : Ctx} (h : outcome = .forwarded headers ctx)
    (hverdict : true ∈ ctx.verdicts) : Admits config r outcome := by
  subst h
  refine ⟨fun _ _ heq => ?_, fun _ => .inl ⟨headers, ctx, rfl⟩⟩
  cases heq
  exact hverdict

theorem Admits.of_answered {config : OAuthConfigRule} {r : Request} {outcome : Outcome Ctx}
    {response : LocalResponse} {ctx : Ctx} (h : outcome = .answered response ctx) :
    Admits config r outcome := by
  subst h
  refine ⟨fun _ _ heq => ?_, fun _ => .inr ⟨response, ctx, rfl⟩⟩
  cases heq

/-- The endpoint answers the request: by its method, or when its body has ended. -/
def Answers (r : Request) : Prop :=
  r.headers.get (bytes ":method") = bytes "GET" ∨
    (r.headers.get (bytes ":method") = bytes "POST" ∧
      (isForm r.headers = true → r.chunks ≠ [] ∧ r.trailers = false))

theorem plugin_onRequestHeaders (jwt : Jwt) (m : Matcher OAuthConfigRule) (info : RouteInfo) :
    (plugin jwt m info).onRequestHeaders = onRequestHeaders jwt m info := rfl

section Runs

variable (jwt : Jwt) {m : Matcher OAuthConfigRule} {info : RouteInfo} {r : Request}

/-- The check answers the request or lets it through, and keeps what it does not know. -/
theorem checkPlugin_answer {σ : Type} (routeName : GoString) (rule : OAuthConfigRule)
    (allowSet : Option AllowSet) {s : Stream σ} (hs : s.answer = none) :
    (checkPlugin jwt routeName rule allowSet s).2.ctx = s.ctx ∧
      (checkPlugin jwt routeName rule allowSet s).2.answer.isSome =
        !(checkPlugin jwt routeName rule allowSet s).1 := by
  rw [checkPlugin]
  dsimp only
  split
  · exact ⟨rfl, rfl⟩
  · exact ⟨rfl, by simp [hs]⟩

/-- A request that the plugin does not want the body of. -/
theorem run_of_header {s : Stream Ctx}
    (hfirst : onRequestHeaders jwt m info ⟨r.headers, none, {}⟩ = (.goOn, s))
    (hanswer : s.answer = none) (hbody : s.ctx.checkBodyParams = false) :
    (plugin jwt m info).run r {} = .forwarded s.headers s.ctx := by
  have hpass (size : ℕ) (buffer : GoString) (endStream : Bool) :
      (plugin jwt m info).onRequestBody size buffer endStream s = (.goOn, s) := by
    simp [plugin, onRequestBody, hbody]
  rw [Filter.run_of_goOn hfirst hanswer, Filter.runBody_of_pass hpass hanswer]
  simp [hanswer]

/-- Off the endpoint the request is let through by the check only. -/
theorem run_of_check {config : OAuthConfigRule} {allowSet : Option AllowSet}
    (hmatch : m.getMatchAuthConfig info = (some config, allowSet))
    (hon : ¬ (allowSet = none ∧ m.globalAuth = some false))
    (hpath : config.authPath.isSuffixOf (uriOf (r.headers.get (bytes ":path"))) = false) :
    (∃ headers ctx, (plugin jwt m info).run r {} = .forwarded headers ctx ∧ true ∈ ctx.verdicts) ∨
      ∃ response ctx, (plugin jwt m info).run r {} = .answered response ctx := by
  let s : Stream Ctx := ⟨r.headers, none, { config := some config, routeName := info.routeName }⟩
  have hfirst : onRequestHeaders jwt m info ⟨r.headers, none, {}⟩ =
      (if (checked jwt config allowSet s).1 then .goOn else .stopIteration,
        (checked jwt config allowSet s).2) := by
    have hcheck := Matcher.checkAuthRule_of_match hmatch hon (checked jwt) s
    simp only [onRequestHeaders, hmatch, hpath]
    rw [if_neg (by simp), hcheck]
  obtain ⟨hctx, hanswer⟩ := checkPlugin_answer jwt info.routeName config allowSet
    (s := s) rfl
  cases hverdict : (checkPlugin jwt info.routeName config allowSet s).1 with
  | true =>
      have hnone : (checked jwt config allowSet s).2.answer = none := by
        rw [hverdict] at hanswer
        simpa [checked] using hanswer
      have hcheck : (checked jwt config allowSet s).1 = true := hverdict
      rw [hcheck, if_pos rfl] at hfirst
      refine .inl ⟨_, _, run_of_header jwt hfirst hnone ?_, ?_⟩
      · simp only [checked]
        rw [show s.ctx.routeName = info.routeName from rfl, hctx]
      · have : (checked jwt config allowSet s).2.ctx.verdicts = [true] := by
          simp only [checked]
          rw [show s.ctx.routeName = info.routeName from rfl, hctx, hverdict]
          rfl
        rw [this]
        simp
  | false =>
      refine .inr (Filter.run_of_answer ?_)
      rw [plugin_onRequestHeaders, hfirst]
      rw [hverdict] at hanswer
      exact hanswer

/-- Neither the token nor the message is empty. -/
def Speaks : Except GoString GoString → Prop
  | .ok token => token ≠ []
  | .error errMsg => errMsg ≠ []

theorem speaks_parameter (params : QueryParams) (name : String)
    {f : GoString → Except GoString GoString} (hf : ∀ value, Speaks (f value)) :
    Speaks (parameter params name >>= f) := by
  rw [parameter]
  cases params.get (bytes name) with
  | none =>
      have hmissing : bytes " is missing" ≠ [] := by decide
      simp [Speaks, bind, Except.bind, hmissing]
  | some value => exact hf value

theorem speaks_generateToken (rule : OAuthConfigRule) (routeName rawParams : GoString) :
    Speaks (generateToken jwt rule routeName rawParams) := by
  apply speaks_parameter
  intro grantType
  split
  · have hgrant : bytes "grant_type:" ≠ [] := by decide
    simp [Speaks, hgrant]
  · apply speaks_parameter
    intro clientId
    have hinvalid : bytes "invalid client_id or client_secret" ≠ [] := by decide
    split
    · exact hinvalid
    · apply speaks_parameter
      intro clientSecret
      split
      · exact hinvalid
      · dsimp only
        split
        · rename_i token hsign
          exact jwt.sign_ne_nil _ _ _ hsign
        · have hfailed : bytes "jwt sign failed: %s" ≠ [] := by decide
          simp [Speaks, hfailed]

theorem authorized_answer (config : OAuthConfigRule) (token : GoString) {errMsg : GoString}
    {s : Stream Ctx} (h : token ≠ [] ∨ errMsg ≠ []) : (authorized config token errMsg s).2.answer.isSome = true := by
  rw [authorized]
  split
  · rfl
  · rename_i hnone
    rw [if_pos (h.resolve_right hnone)]
    rfl

/-- The endpoint answers a query at once. -/
theorem authorize_get {config : OAuthConfigRule} {s : Stream Ctx}
    (hmethod : s.headers.get (bytes ":method") = bytes "GET") :
    (authorize jwt config s).2.answer.isSome = true := by
  rw [authorize]
  dsimp only
  rw [if_pos hmethod]
  split
  · exact authorized_answer config _ (.inr (by decide))
  · rename_i params _
    have hspeaks := speaks_generateToken jwt config s.ctx.routeName params
    split
    · rename_i token htoken
      rw [htoken] at hspeaks
      exact authorized_answer config _ (.inl hspeaks)
    · rename_i errMsg herror
      rw [herror] at hspeaks
      exact authorized_answer config _ (.inr hspeaks)

/-- What the body callbacks make of a form at the endpoint. -/
theorem runBody_form (m : Matcher OAuthConfigRule) (info : RouteInfo) {config : OAuthConfigRule} {s : Stream Ctx} (hanswer : s.answer = none)
    (hbody : s.ctx.checkBodyParams = true) (hconfig : s.ctx.config = some config)
    (trailers : Bool) {chunks : List GoString} (hchunks : chunks ≠ []) :
    ((plugin jwt m info).runBody trailers chunks [] s).2.answer.isSome = !trailers ∧
      ((plugin jwt m info).runBody trailers chunks [] s).2.ctx.verdicts = s.ctx.verdicts := by
  let I (_ : GoString) (s' : Stream Ctx) : Prop := s'.answer = none ∧
    s'.ctx.checkBodyParams = true ∧ s'.ctx.config = some config ∧ s'.ctx.verdicts = s.ctx.verdicts
  obtain ⟨init, last, rfl⟩ := (List.eq_nil_or_concat' chunks).resolve_left hchunks
  have hhold (chunk buffer : GoString) (s' : Stream Ctx) (hs' : I buffer s') (_ : True) :
      ((plugin jwt m info).onRequestBody chunk.length (buffer ++ chunk) false s').1 =
          .stopIterationAndBuffer ∧
        ((plugin jwt m info).onRequestBody chunk.length (buffer ++ chunk) false s').2.answer = none ∧
        I (buffer ++ chunk)
          ((plugin jwt m info).onRequestBody chunk.length (buffer ++ chunk) false s').2 := by
    obtain ⟨hnone, hcheck, hcfg, hverdicts⟩ := hs'
    simp [plugin, onRequestBody, I, hnone, hcheck, hcfg, hverdicts]
  obtain ⟨s', ⟨hnone, hcheck, hcfg, hverdicts⟩, hrun⟩ :=
    Filter.runBody_of_hold (fun _ => True) (fun _ _ _ => trivial) hhold trailers init last []
      (s := s) ⟨hanswer, hbody, hconfig, rfl⟩ trivial
  rw [hrun]
  cases trailers with
  | true => simp [plugin, onRequestBody, hnone, hcheck, hverdicts]
  | false =>
      simp only [plugin, onRequestBody, hcheck, hcfg]
      rw [if_neg (by simp), if_neg (by simp)]
      split
      · exact ⟨rfl, hverdicts⟩
      · exact ⟨rfl, hverdicts⟩

section Endpoint

variable {config : OAuthConfigRule} (hconfig : (m.getMatchAuthConfig info).1 = some config)
  (hpath : config.authPath.isSuffixOf (uriOf (r.headers.get (bytes ":path"))) = true)
include hconfig hpath

theorem onRequestHeaders_endpoint : onRequestHeaders jwt m info ⟨r.headers, none, {}⟩ =
    authorize jwt config
      ⟨r.headers, none, { config := some config, routeName := info.routeName }⟩ := by
  simp only [onRequestHeaders, hconfig]
  rw [if_pos hpath]

/-- The endpoint waits for the body of a form. -/
theorem run_form (hmethod : r.headers.get (bytes ":method") = bytes "POST")
    (hform : isForm r.headers = true) :
    (r.chunks ≠ [] ∧ r.trailers = false →
      ∃ response ctx, (plugin jwt m info).run r {} = .answered response ctx) ∧
    (¬ (r.chunks ≠ [] ∧ r.trailers = false) →
      ∃ headers ctx, (plugin jwt m info).run r {} = .forwarded headers ctx ∧ ctx.verdicts = []) := by
  let s : Stream Ctx := ⟨r.headers, none,
    { config := some config, routeName := info.routeName, checkBodyParams := true }⟩
  have hfirst : (plugin jwt m info).onRequestHeaders ⟨r.headers, none, {}⟩ = (.goOn, s) := by
    have hpost : bytes "POST" ≠ bytes "GET" := by decide
    rw [plugin_onRequestHeaders, onRequestHeaders_endpoint jwt hconfig hpath, authorize]
    simp [hmethod, hpost, hform, authorized, s]
  rw [Filter.run_of_goOn hfirst rfl]
  cases hchunks : r.chunks with
  | nil => exact ⟨fun h => absurd rfl h.1, fun _ => ⟨_, _, rfl, rfl⟩⟩
  | cons chunk rest =>
      obtain ⟨hanswer, hverdicts⟩ := runBody_form jwt m info (s := s) rfl rfl rfl r.trailers
        (List.cons_ne_nil chunk rest)
      cases htrailers : r.trailers with
      | false =>
          rw [htrailers] at hanswer
          obtain ⟨response, hresponse⟩ := Option.isSome_iff_exists.mp hanswer
          rw [hresponse]
          exact ⟨fun _ => ⟨response, _, rfl⟩, fun h => absurd ⟨List.cons_ne_nil _ _, rfl⟩ h⟩
      | true =>
          rw [htrailers] at hanswer hverdicts
          have hnone := Option.not_isSome_iff_eq_none.mp (by simpa using hanswer)
          refine ⟨fun h => absurd h.2 (by simp), fun _ => ⟨s.headers, _, ?_, hverdicts⟩⟩
          rw [hnone]
          simp

/-- At the endpoint a request is answered, or it goes on without a check. -/
theorem run_endpoint :
    (Answers r → ∃ response ctx, (plugin jwt m info).run r {} = .answered response ctx) ∧
    (¬ Answers r →
      ∃ headers ctx, (plugin jwt m info).run r {} = .forwarded headers ctx ∧ ctx.verdicts = []) := by
  have hheaders := onRequestHeaders_endpoint jwt hconfig hpath
  have hpost : bytes "POST" ≠ bytes "GET" := by decide
  by_cases hget : r.headers.get (bytes ":method") = bytes "GET"
  · refine ⟨fun _ => Filter.run_of_answer ?_, fun h => absurd (.inl hget) h⟩
    rw [plugin_onRequestHeaders, hheaders]
    exact authorize_get jwt hget
  · by_cases hmethod : r.headers.get (bytes ":method") = bytes "POST"
    · cases hform : isForm r.headers with
      | true =>
          have hiff : Answers r ↔ r.chunks ≠ [] ∧ r.trailers = false := by
            simp [Answers, hmethod, hform, hpost]
          rw [hiff]
          exact run_form jwt hconfig hpath hmethod hform
      | false =>
          refine ⟨fun _ => Filter.run_of_answer ?_, fun h => absurd ?_ h⟩
          · rw [plugin_onRequestHeaders, hheaders, authorize]
            dsimp only
            rw [if_neg hget, if_pos hmethod, hform]
            have hmessage : bytes "Invalid content-type" ≠ [] := by decide
            exact authorized_answer config [] (.inr hmessage)
          · exact .inr ⟨hmethod, fun h => by rw [hform] at h; cases h⟩
    · refine ⟨fun h => absurd h ?_, fun _ => ?_⟩
      · simp [Answers, hget, hmethod]
      · have hother : onRequestHeaders jwt m info ⟨r.headers, none, {}⟩ =
            (.goOn, ⟨r.headers, none, { config := some config, routeName := info.routeName }⟩) := by
          rw [hheaders, authorize]
          simp [hget, hmethod, authorized]
        exact ⟨_, _, run_of_header jwt hother rfl rfl, rfl⟩

end Endpoint

end Runs

/-- Only requests that the check agrees with go on, exactly if a request at the endpoint
has one of the two methods and the body of a form ends in a callback. -/
theorem admits_iff (jwt : Jwt) {m : Matcher OAuthConfigRule} {info : RouteInfo}
    {config : OAuthConfigRule} {allowSet : Option AllowSet}
    (hmatch : m.getMatchAuthConfig info = (some config, allowSet))
    (hon : ¬ (allowSet = none ∧ m.globalAuth = some false)) (r : Request) :
    Admits config r ((plugin jwt m info).run r {}) ↔
      (config.authPath.isSuffixOf (uriOf (r.headers.get (bytes ":path"))) = true → Answers r) := by
  have hconfig : (m.getMatchAuthConfig info).1 = some config := by rw [hmatch]
  cases hpath : config.authPath.isSuffixOf (uriOf (r.headers.get (bytes ":path"))) with
  | false =>
      refine ⟨fun _ h => absurd h (by simp), fun _ => ?_⟩
      rcases run_of_check jwt hmatch hon hpath with ⟨_, _, hrun, htrue⟩ | ⟨_, _, hrun⟩
      · exact Admits.of_verified hrun htrue
      · exact Admits.of_answered hrun
  | true =>
      obtain ⟨hanswers, hnot⟩ := run_endpoint jwt hconfig hpath
      constructor
      · intro hadmits _
        by_contra hno
        obtain ⟨_, _, hrun, hverdicts⟩ := hnot hno
        have := hadmits.verified _ _ hrun
        rw [hverdicts] at this
        cases this
      · intro h
        obtain ⟨response, ctx, hrun⟩ := hanswers (h rfl)
        exact Admits.of_answered hrun

/-! ### Requests at the endpoint -/

namespace Sample

/-- A library that knows no token. -/
def jwt : Jwt where
  decode _ := []
  verify _ _ := false
  sign _ _ := .ok (bytes "a.b.c")
  sign_ne_nil claims secret token h := by
    cases h
    decide

def config : OAuthConfigRule := { consumers := [(bytes "id", ⟨bytes "alice", bytes "id", bytes "s"⟩)] }

def matcher : Matcher OAuthConfigRule := ⟨none, [], some config⟩

def info : RouteInfo := ⟨bytes "example.com", bytes "route", []⟩

def request (method : String) : Request :=
  { headers := [(bytes ":method", bytes method), (bytes ":path", bytes "/api/oauth2/token")] }

end Sample

open Sample in
theorem admits_get : matcher.getMatchAuthConfig info = (some config, none) ∧
    Admits config (request "GET") ((plugin jwt matcher info).run (request "GET") {}) := by
  have hmatch : matcher.getMatchAuthConfig info = (some config, none) := rfl
  refine ⟨hmatch, (admits_iff jwt hmatch (by decide) _).mpr fun _ => ?_⟩
  exact .inl (by decide)

open Sample in
/-- With another method the request goes on without a token and without a check. -/
theorem not_admits_put : matcher.getMatchAuthConfig info = (some config, none) ∧
    ¬ Admits config (request "PUT") ((plugin jwt matcher info).run (request "PUT") {}) := by
  refine ⟨rfl, fun h => ?_⟩
  have hrun : (plugin jwt matcher info).run (request "PUT") {} =
      .forwarded (request "PUT").headers { config := some config, routeName := bytes "route" } := rfl
  cases h.verified _ _ hrun

end Higress.WasmCpp.OAuth
