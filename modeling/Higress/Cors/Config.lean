import Higress.Cors.OriginPattern
import Higress.Lib.Run
import Higress.Lib.Runes

/-!
The configuration of the cors plugin, the calls that build it, and what it answers to a request.

The wildcard origin and credentials exclude each other. The calls that set the one look for the
other: `AddAllowOrigin` for the text `*` before its last `/` is cut off, and `SetAllowCredentials`
for a list that begins with `*`. A request is admitted by a `*` anywhere in the list.
-/

namespace Higress.Cors

open Lib

/-! ### Strings -/

/-- `strings.TrimSpace`. -/
def trimSpace (s : List Char) : List Char := (s.dropWhile unicodeIsSpace).rdropWhile unicodeIsSpace

/-- What the plugin uses of Go's library on characters and URLs: `url.Parse` yields the scheme and
the host. -/
structure Library where
  caseMapping : CaseMapping
  toUpper : List Char → List Char
  equalFold : List Char → List Char → Bool
  parseUrl : List Char → Option (List Char × List Char)

def splitCommaSeparatedValues (values : List Char) : List (List Char) :=
  ((values.splitOn ',').map trimSpace).filter (· ≠ [])

def joinComma (values : List (List Char)) : List Char := List.intercalate [','] values

/-! ### The configuration -/

def defaultMatchAll : List Char := ['*']

def defaultAllowMethods : List Char := "GET, PUT, POST, DELETE, PATCH, OPTIONS".toList

def defaultAllowHeaders : List Char :=
  ("DNT,X-CustomHeader,Keep-Alive,User-Agent,X-Requested-With," ++
    "If-Modified-Since,Cache-Control,Content-Type,Authorization").toList

def defaultMaxAge : ℤ := 86400

structure CorsConfig where
  allowOrigins : List (List Char) := []
  allowOriginPatterns : List OriginPattern := []
  allowMethods : List (List Char) := []
  allowHeaders : List (List Char) := []
  exposeHeaders : List (List Char) := []
  allowCredentials : Bool := false
  maxAge : ℤ := 0

namespace CorsConfig

variable (lib : Library) (c : CorsConfig)

def fillDefaultValues : CorsConfig :=
  { c with
    allowOrigins :=
      if c.allowOrigins.isEmpty && c.allowOriginPatterns.isEmpty && !c.allowCredentials then
        [defaultMatchAll]
      else c.allowOrigins
    allowHeaders :=
      if c.allowHeaders.isEmpty then splitCommaSeparatedValues defaultAllowHeaders
      else c.allowHeaders
    allowMethods :=
      if c.allowMethods.isEmpty then splitCommaSeparatedValues defaultAllowMethods
      else c.allowMethods
    maxAge := if c.maxAge = 0 then defaultMaxAge else c.maxAge }

def addAllowOrigin (origin : List Char) : Except String CorsConfig :=
  let origin := trimSpace origin
  if origin = [] then .ok c
  else if origin = defaultMatchAll then
    if c.allowCredentials then
      .error ("can't set origin to * when allowCredentials is true, " ++
        "use AllowOriginPatterns instead")
    else .ok { c with allowOrigins := [defaultMatchAll] }
  else .ok { c with allowOrigins := c.allowOrigins ++ [trimSlash origin] }

/-- A value that is added to a list, unless it is empty; the wildcard replaces the list. -/
def addValue (values : List (List Char)) (value : List Char) (change : List Char → List Char) :
    List (List Char) :=
  let value := trimSpace value
  if value = [] then values
  else if value = defaultMatchAll then [defaultMatchAll]
  else values ++ [change value]

def addAllowHeader (header : List Char) : CorsConfig :=
  { c with allowHeaders := addValue c.allowHeaders header id }

def addAllowMethod (method : List Char) : CorsConfig :=
  { c with allowMethods := addValue c.allowMethods method lib.toUpper }

def addExposeHeader (header : List Char) : CorsConfig :=
  { c with exposeHeaders := addValue c.exposeHeaders header id }

/-- `none` is a pattern that does not compile. -/
def addAllowOriginPattern (pattern : List Char) : Option CorsConfig :=
  let pattern := trimSpace pattern
  if pattern = [] then some c
  else (newOriginPatternFromString lib.caseMapping pattern).map fun op =>
    { c with allowOriginPatterns := c.allowOriginPatterns ++ [op] }

def setAllowCredentials (allowCredentials : Bool) : Except String CorsConfig :=
  if allowCredentials = true ∧ c.allowOrigins.head? = some defaultMatchAll then
    .error "can't set allowCredentials to true when allowOrigin is *"
  else .ok { c with allowCredentials := allowCredentials }

def setMaxAge (maxAge : ℤ) : CorsConfig :=
  { c with maxAge := if maxAge ≤ 0 then defaultMaxAge else maxAge }

/-! ### Requests -/

/-- `checkOrigin`; `none` is an origin that is not allowed. -/
def checkOrigin (origin : List Char) : Option (List Char) :=
  let origin := trimSpace origin
  let matchOrigin := lib.caseMapping.lower origin
  if origin = [] then none
  else if c.allowOrigins.any fun allowOrigin =>
      allowOrigin == defaultMatchAll || lib.caseMapping.lower allowOrigin == matchOrigin then
    some origin
  else if c.allowOriginPatterns.any fun op =>
      op.declaredPattern == defaultMatchAll || op.pattern.matchString matchOrigin then
    some origin
  else none

def checkHeaders (requestHeaders : List Char) : Option (List Char) :=
  let allowHeaders := splitCommaSeparatedValues (joinComma c.allowHeaders)
  if c.allowHeaders = [] ∨ allowHeaders = [] then none
  else if defaultMatchAll ∈ allowHeaders then
    some (joinComma (splitCommaSeparatedValues requestHeaders))
  else if requestHeaders = [] ∨ splitCommaSeparatedValues requestHeaders = [] then
    some (joinComma allowHeaders)
  else if (splitCommaSeparatedValues requestHeaders).all fun h => allowHeaders.any (lib.equalFold h)
    then some (joinComma c.allowHeaders)
  else none

def checkMethods (requestMethod : List Char) : Option (List Char) :=
  let requestMethod := trimSpace requestMethod
  let allowMethods := splitCommaSeparatedValues (joinComma c.allowMethods)
  if requestMethod = [] then none
  else
    (allowMethods.find? fun method => method == defaultMatchAll || lib.equalFold method requestMethod).map
      fun method => if method = defaultMatchAll then requestMethod else joinComma allowMethods

def getHostAndPort (scheme host : List Char) : List Char × List Char :=
  let scheme := lib.caseMapping.lower scheme
  let host := lib.caseMapping.lower host
  let (host, port) :=
    match host.splitOn ':' with
    | h :: p :: _ => (h, p)
    | _ => (host, [])
  if port = [] ∧ scheme = "http".toList then (host, "80".toList)
  else if port = [] ∧ scheme = "https".toList then (host, "443".toList)
  else (host, port)

def isPreFlight (origin method controlRequestMethod : List Char) : Bool :=
  origin ≠ [] && lib.caseMapping.lower method = lib.caseMapping.lower "OPTIONS".toList &&
    controlRequestMethod ≠ []

def isCorsRequest (scheme host origin : List Char) : Bool :=
  if origin = [] then false
  else
    match lib.parseUrl (trimSpace origin) with
    | none => false
    | some (urlScheme, urlHost) =>
        if lib.caseMapping.lower scheme ≠ lib.caseMapping.lower urlScheme then true
        else getHostAndPort lib scheme host ≠ getHostAndPort lib urlScheme urlHost

end CorsConfig

structure HttpCorsContext where
  isValid : Bool := true
  validReason : List Char := []
  isPreFlight : Bool := false
  isCorsRequest : Bool := false
  allowOrigin : List Char := []
  allowMethods : List Char := []
  allowHeaders : List Char := []
  exposeHeaders : List Char := []
  allowCredentials : Bool := false
  maxAge : ℤ := 0

/-- The headers of a request that the plugin reads. -/
structure ControlHeaders where
  origin : List Char := []
  requestMethod : List Char := []
  requestHeaders : List Char := []

/-- The loop over the headers of a request; of a header that occurs more than once the last counts. -/
def controlHeaders (lib : Library) (headers : List (List Char × List Char)) : ControlHeaders :=
  headers.foldl (fun h header =>
    let key := lib.caseMapping.lower header.1
    { origin :=
        if key = lib.caseMapping.lower "Origin".toList then trimSlash (trimSpace header.2)
        else h.origin
      requestMethod :=
        if key = lib.caseMapping.lower "Access-Control-Request-Method".toList then
          trimSpace header.2
        else h.requestMethod
      requestHeaders :=
        if key = lib.caseMapping.lower "Access-Control-Request-Headers".toList then
          trimSpace header.2
        else h.requestHeaders }) {}

structure Request where
  scheme : List Char
  host : List Char
  method : List Char
  headers : List (List Char × List Char)

namespace CorsConfig

variable (lib : Library) (c : CorsConfig)

/-- `Process`. -/
def process (request : Request) : HttpCorsContext :=
  let scheme := lib.caseMapping.lower (trimSpace request.scheme)
  let host := lib.caseMapping.lower (trimSpace request.host)
  let method := lib.caseMapping.lower (trimSpace request.method)
  let control := controlHeaders lib request.headers
  let isPreFlight := isPreFlight lib control.origin method control.requestMethod
  let context : HttpCorsContext :=
    { isCorsRequest := isCorsRequest lib scheme host control.origin, isPreFlight := isPreFlight }
  if ¬ context.isCorsRequest then context
  else
    match c.checkOrigin lib control.origin with
    | none =>
        { context with
          isValid := false
          validReason := "origin:".toList ++ control.origin ++ " is not allowed".toList }
    | some allowOrigin =>
        let requestMethod := if isPreFlight then control.requestMethod else method
        match c.checkMethods lib requestMethod with
        | none =>
            { context with
              isValid := false
              validReason := "method:".toList ++ requestMethod ++ " is not allowed".toList }
        | some allowMethods =>
            let checked := c.checkHeaders lib control.requestHeaders
            if isPreFlight ∧ checked = none then
              { context with
                isValid := false
                validReason := "Reject: headers are not allowed".toList }
            else
              { context with
                allowOrigin := allowOrigin
                allowMethods := if isPreFlight then allowMethods else []
                allowHeaders := if isPreFlight then checked.getD [] else []
                maxAge := if isPreFlight ∧ 0 < c.maxAge then c.maxAge else 0
                exposeHeaders := if c.exposeHeaders = [] then [] else joinComma c.exposeHeaders
                allowCredentials := c.allowCredentials }

end CorsConfig

/-! ### Runs of calls -/

/-- A call that changes the configuration. -/
inductive Call
  | addAllowOrigin (origin : List Char)
  | addAllowOriginPattern (pattern : List Char)
  | addAllowMethod (method : List Char)
  | addAllowHeader (header : List Char)
  | addExposeHeader (header : List Char)
  | setAllowCredentials (allowCredentials : Bool)
  | setMaxAge (maxAge : ℤ)
  | fillDefaultValues

/-- The configuration after a call; a call that is rejected leaves it. -/
def call (lib : Library) (c : CorsConfig) : Call → CorsConfig
  | .addAllowOrigin origin => (c.addAllowOrigin origin).toOption.getD c
  | .addAllowOriginPattern pattern => (c.addAllowOriginPattern lib pattern).getD c
  | .addAllowMethod method => c.addAllowMethod lib method
  | .addAllowHeader header => c.addAllowHeader header
  | .addExposeHeader header => c.addExposeHeader header
  | .setAllowCredentials allowCredentials => (c.setAllowCredentials allowCredentials).toOption.getD c
  | .setMaxAge maxAge => c.setMaxAge maxAge
  | .fillDefaultValues => c.fillDefaultValues

/-- The configuration without the wildcard among its origins. -/
def CorsConfig.withoutWildcard (c : CorsConfig) : CorsConfig :=
  { c with allowOrigins := c.allowOrigins.filter (· ≠ defaultMatchAll) }

/-- An origin that is admitted only because of the wildcard in the list of origins. -/
def CorsConfig.OnlyByWildcard (lib : Library) (c : CorsConfig) (origin : List Char) : Prop :=
  (c.checkOrigin lib origin).isSome ∧ c.withoutWildcard.checkOrigin lib origin = none

/-- No request gets credentials for an origin that only the wildcard admits. -/
def CorsConfig.Safe (lib : Library) (c : CorsConfig) : Prop :=
  ∀ request, (c.process lib request).allowCredentials = true →
    ¬ c.OnlyByWildcard lib (controlHeaders lib request.headers).origin

/-- What keeps the wildcard and credentials apart: the spelling `*/` does not come while
credentials are allowed, and credentials are not set over a wildcard that does not stand first. -/
def Meets (c : CorsConfig) : Call → Prop
  | .addAllowOrigin origin => trimSpace origin = ['*', '/'] → c.allowCredentials = false
  | .setAllowCredentials true =>
      defaultMatchAll ∈ c.allowOrigins → c.allowOrigins.head? = some defaultMatchAll
  | _ => True

/-- The wildcard and credentials are not there together. -/
def CorsConfig.Apart (c : CorsConfig) : Prop :=
  c.allowCredentials = true → defaultMatchAll ∉ c.allowOrigins

section Runs

variable {lib : Library} {c : CorsConfig}

theorem CorsConfig.Apart.congr {c' : CorsConfig} (h : c.Apart)
    (horigins : c'.allowOrigins = c.allowOrigins)
    (hcredentials : c'.allowCredentials = c.allowCredentials) : c'.Apart := by
  rw [CorsConfig.Apart, horigins, hcredentials]
  exact h

/-- Apart from the wildcard itself only one spelling becomes the wildcard. -/
theorem trimSlash_eq_wildcard {s : List Char} (h : trimSlash s = defaultMatchAll) :
    s = defaultMatchAll ∨ s = ['*', '/'] := by
  rw [trimSlash] at h
  split at h
  · rename_i hlast
    right
    rw [← List.dropLast_append_getLast? '/' hlast, h]
    rfl
  · exact .inl h

theorem apart_addAllowOrigin {origin : List Char} (h : c.Apart)
    (hmeets : Meets c (.addAllowOrigin origin)) : (call lib c (.addAllowOrigin origin)).Apart := by
  simp only [call, CorsConfig.addAllowOrigin]
  split_ifs with hempty hwildcard hcredentials
  · exact h
  · exact h
  · intro htrue
    exact absurd htrue hcredentials
  · intro htrue hmem
    rcases List.mem_append.mp hmem with hmem | hmem
    · exact h htrue hmem
    · have hslash := trimSlash_eq_wildcard (List.mem_singleton.mp hmem).symm
      rcases hslash with hslash | hslash
      · exact hwildcard hslash
      · have htrue' : c.allowCredentials = true := htrue
        rw [hmeets hslash] at htrue'
        exact absurd htrue' Bool.false_ne_true

theorem apart_setAllowCredentials {value : Bool} (h : c.Apart)
    (hmeets : Meets c (.setAllowCredentials value)) :
    (call lib c (.setAllowCredentials value)).Apart := by
  simp only [call, CorsConfig.setAllowCredentials]
  split_ifs with hrejected
  · exact h
  · rintro htrue hmem
    obtain rfl : value = true := htrue
    exact hrejected ⟨rfl, hmeets hmem⟩

theorem apart_fillDefaultValues (h : c.Apart) : (call lib c .fillDefaultValues).Apart := by
  intro htrue
  have htrue' : c.allowCredentials = true := htrue
  simpa [call, CorsConfig.fillDefaultValues, htrue'] using h htrue'

/-- One call. -/
theorem apart_call (a : Call) (h : c.Apart) (hmeets : Meets c a) : (call lib c a).Apart := by
  cases a with
  | addAllowOrigin origin => exact apart_addAllowOrigin h hmeets
  | addAllowOriginPattern pattern =>
      rw [call, CorsConfig.addAllowOriginPattern]
      split_ifs
      · exact h
      · cases newOriginPatternFromString lib.caseMapping (trimSpace pattern) with
        | none => exact h
        | some op => exact h.congr rfl rfl
  | addAllowMethod method => exact h.congr rfl rfl
  | addAllowHeader header => exact h.congr rfl rfl
  | addExposeHeader header => exact h.congr rfl rfl
  | setAllowCredentials value => exact apart_setAllowCredentials h hmeets
  | setMaxAge maxAge => exact h.congr rfl rfl
  | fillDefaultValues => exact apart_fillDefaultValues h

/-- Credentials are those of the configuration. -/
theorem allowCredentials_of_process {request : Request}
    (h : (c.process lib request).allowCredentials = true) : c.allowCredentials = true := by
  unfold CorsConfig.process at h
  dsimp only at h
  split at h
  · exact absurd h Bool.false_ne_true
  · split at h
    · exact absurd h Bool.false_ne_true
    · split at h
      · exact absurd h Bool.false_ne_true
      · split at h
        · exact absurd h Bool.false_ne_true
        · exact h

theorem CorsConfig.Apart.safe (h : c.Apart) : c.Safe lib := by
  rintro request hcredentials ⟨hsome, hnone⟩
  have hmem := h (allowCredentials_of_process hcredentials)
  have hsame : c.withoutWildcard = c := by
    rw [CorsConfig.withoutWildcard, List.filter_eq_self.mpr]
    intro a ha
    have hne : a ≠ defaultMatchAll := by
      rintro rfl
      exact hmem ha
    simpa using hne
  rw [hsame] at hnone
  simp [hnone] at hsome

end Runs

/-- In a run of calls that all meet the condition no state reached gives credentials to an origin
that only the wildcard admits. -/
theorem credentials_without_wildcard (lib : Library) (done todo : List Call)
    (h : Run.Along (call lib) Meets {} (done ++ todo)) :
    (done.foldl (call lib) {}).Safe lib := by
  have hinit : CorsConfig.Apart {} := fun h => absurd h (by simp)
  have hdone := Run.Along.of_append h
  exact (Run.foldl_of_along (fun a _ _ => apart_call a) hinit hdone).safe

/-- Go's library as far as an example needs it. -/
def sampleLibrary : Library where
  caseMapping := asciiCaseMapping
  toUpper s := s.map Char.toUpper
  equalFold s t := s.map Char.toLower == t.map Char.toLower
  parseUrl s := if s = "https://evil.com".toList then some ("https".toList, "evil.com".toList) else none

theorem credentials_without_wildcard_of_slash :
    (([.addAllowOrigin "https://a.com/".toList, .setAllowCredentials true, .fillDefaultValues] :
      List Call).foldl (call sampleLibrary) {}).Safe sampleLibrary :=
  credentials_without_wildcard sampleLibrary _ [.addAllowOrigin "*".toList]
    ⟨fun _ => rfl, fun h => absurd h (by decide), True.intro, fun h => absurd h (by decide), True.intro⟩

/-- The wildcard with a slash behind another origin, and credentials after that. -/
theorem credentials_with_wildcard :
    ¬ (([.addAllowOrigin "https://a.com".toList, .addAllowOrigin "*/".toList,
      .setAllowCredentials true, .fillDefaultValues] : List Call).foldl (call sampleLibrary) {}).Safe
        sampleLibrary := by
  intro hsafe
  refine hsafe ⟨"https".toList, "b.com".toList, "GET".toList,
    [("origin".toList, "https://evil.com".toList)]⟩ (by decide) ⟨by decide, by decide⟩

end Higress.Cors
