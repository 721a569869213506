import Higress.Ingress.RouteOrder
import Higress.Ingress.Convert

/-!
Canary ingresses. A canary that is selected by a header or a cookie becomes a
route of its own in front of the route it shadows; a weighted one becomes a
further destination of that route. The routes of the host are sorted
afterwards, and Envoy takes the first one that matches.

The route of a canary is a copy of its base route whose header matches are
replaced by the canary condition. What the base route asks of the headers is
lost that way, and a base route with several header matches is sorted in front
of its canary. `canary_firstMatch` says for which requests the canary is still
the route it should be.
-/

namespace Higress.Ingress

open Higress.Lib Higress.Lib.StableSort

/-! ### Annotations on routes -/

/-- `createMethodMatch`: the methods are the alternatives of a regex. -/
def createMethodMatch (methods : List GoString) : StringMatch :=
  .regex (Strings.join methods (bytes "|"))

def MatchType.stringMatch : MatchType → GoString → StringMatch
  | .exact => .exact
  | .prefixed => .prefixed
  | .regex => .regex

/-- `merge`: names that the first map has already are left alone. -/
def merge (m1 : List (GoString × StringMatch)) (m2 : List (MatchType × GoString × GoString)) :
    List (GoString × StringMatch) :=
  m2.foldl (fun m1 e =>
    if m1.any (fun entry => entry.1 == e.2.1) then m1
    else m1 ++ [(e.2.1, e.1.stringMatch e.2.2)]) m1

/-- `match.ApplyRoute`. -/
def matchApplyRoute (route : HTTPRoute) (config : MatchConfig) : HTTPRoute :=
  let route := match config.methods with
    | none => route
    | some methods => { route with
        «match» := route.match.map fun m => { m with method := some (createMethodMatch methods) } }
  let route := match config.headers with
    | none => route
    | some headers => { route with
        «match» := route.match.map fun m => { m with headers := merge m.headers headers } }
  match config.queryParams with
  | none => route
  | some params => { route with
      «match» := route.match.map fun m => { m with queryParams := merge m.queryParams params } }

/-- `ignoreCaseMatching.ApplyRoute`. -/
def ignoreCaseApplyRoute (route : HTTPRoute) (ignoreUriCase : Bool) : HTTPRoute :=
  if ignoreUriCase then
    { route with «match» := route.match.map fun m => { m with ignoreUriCase := true } }
  else route

/-- `headerControl.ApplyRoute`. -/
def headerControlApplyRoute (route : HTTPRoute) (config : Option HeaderControlConfig) :
    HTTPRoute :=
  match config with
  | none => route
  | some config =>
      { route with
        headers := some
          { request := config.request.getD {}
            response := config.response.getD {} } }

/-- The route handlers in their order, as far as they touch the modelled part
of a route. -/
def applyRoute (route : HTTPRoute) (a : Annotations) : HTTPRoute :=
  headerControlApplyRoute (matchApplyRoute (ignoreCaseApplyRoute route a.ignoreUriCase) a.match)
    a.headerControl

def annotateRoute (r : WrapperHTTPRoute) : WrapperHTTPRoute :=
  { r with httpRoute := applyRoute r.httpRoute r.wrapperConfig.annotationsConfig }

/-- The loop that applies the annotations to all routes before the canaries. -/
def annotateRoutes (o : ConvertOptions) : ConvertOptions :=
  { o with httpRoutes := fun host => (o.httpRoutes host).map fun routes =>
      routes.map annotateRoute }

/-! ### Canaries -/

/-- The header match that selects a canary. -/
def canaryHeader (config : CanaryConfig) : Option (GoString × StringMatch) :=
  if config.header ≠ [] then
    if config.headerValue ≠ [] then
      some (config.header, .regex (bytes "always|" ++ config.headerValue))
    else if config.headerPattern ≠ [] then
      some (config.header, .regex (bytes ".*" ++ config.headerPattern ++ bytes ".*"))
    else some (config.header, .exact (bytes "always"))
  else if config.cookie ≠ [] then
    some (bytes "cookie",
      .regex (bytes "^(.*?;\\s*)?(" ++ config.cookie ++ bytes "=always)(;.*)?$"))
  else none

/-- The fallback of a canary: the first destination of its base route and then
the fallback of that one. -/
def fallbackOf (route : HTTPRoute) : List Destination :=
  match route.route with
  | [] => []
  | d :: _ => d.destination :: d.fallbackClusters

/-- `ApplyByHeader`, the canary route it leaves. A checked backend has a
destination, so the indexing of the destinations is in range. -/
def applyByHeader (canary route : HTTPRoute) (a : Annotations) : HTTPRoute :=
  let copy : HTTPRoute := { route with route := canary.route }
  let copy : HTTPRoute := match a.canary.bind canaryHeader with
    | some header => { copy with
        «match» := copy.match.map fun m => { m with headers := [header] } }
    | none => copy
  let copy := headerControlApplyRoute { copy with headers := none } a.headerControl
  { copy with
    route := copy.route.modifyHead fun d =>
      { d with fallbackClusters := d.fallbackClusters ++ fallbackOf route } }

/-- `ApplyByWeight`, the base route it leaves. The canary destination is shared
between both routes, so it joins the base route in its final form. -/
def applyByWeight (canary route : HTTPRoute) (a : Annotations) : HTTPRoute :=
  let route :=
    if route.route.length = 1 then
      { route with
        route := route.route.modifyHead fun d => { d with headers := route.headers }
        headers := none }
    else route
  let headers := (headerControlApplyRoute canary a.headerControl).headers
  { route with
    route := route.route ++ (canary.route.take 1).map fun d =>
      { d with
        weight := toInt32 ((a.canary.map CanaryConfig.weight).getD 0)
        headers := headers
        fallbackClusters := fallbackOf route } }

def isCanaryRoute (canary route : WrapperHTTPRoute) : Bool :=
  !route.wrapperConfig.annotationsConfig.isCanary && canary.ruleKey == route.ruleKey

/-- The route of a canary path before its base route is known. -/
def canaryRouteOf (c : Controller) (wrapper : WrapperConfig) (host : GoString)
    (httpPath : HTTPIngressPath) : WrapperHTTPRoute :=
  let (pathType, originPath) := pathTypeOf wrapper.annotationsConfig httpPath
  let canary : WrapperHTTPRoute :=
    { httpRoute :=
        { route := (backendToRouteDestination c httpPath.backend wrapper.config.namespace
            wrapper.annotationsConfig.destination).route }
      wrapperConfig := wrapper
      clusterId := c.clusterId
      host := host
      originPath := originPath
      originPathType := pathType }
  { canary with ruleKey := createRuleKey wrapper.config.annotations canary.pathFormat }

/-- The route that a header canary inserts in front of `target`. -/
def headerCanaryRoute (c : Controller) (canary target : WrapperHTTPRoute) : WrapperHTTPRoute :=
  { canary with
    httpRoute :=
      { applyByHeader canary.httpRoute target.httpRoute canary.wrapperConfig.annotationsConfig with
        name := generateUniqueRouteName c.systemNamespace canary.wrapperConfig } }

/-- The base route after a weighted canary has joined it. -/
def weightCanaryRoute (canary target : WrapperHTTPRoute) : WrapperHTTPRoute :=
  let a := canary.wrapperConfig.annotationsConfig
  { target with
    weightTotal :=
      if target.weightTotal = 0 then toInt32 ((a.canary.map CanaryConfig.weightTotal).getD 0)
      else target.weightTotal
    httpRoute := applyByWeight canary.httpRoute target.httpRoute a }

/-- The search for the base route and the change of the list at its place: the
first route that passes the test is replaced. -/
def replaceFirst {α : Type*} (p : α → Bool) (f : α → List α) : List α → List α
  | [] => []
  | x :: xs => if p x then f x ++ xs else x :: replaceFirst p f xs

/-- What a canary path does to the routes of its host. -/
def placeCanary (c : Controller) (canary : WrapperHTTPRoute) (routes : List WrapperHTTPRoute) :
    List WrapperHTTPRoute :=
  replaceFirst (isCanaryRoute canary) (fun target =>
    if canary.wrapperConfig.annotationsConfig.canaryByHeader then
      [headerCanaryRoute c canary target, target]
    else [weightCanaryRoute canary target]) routes

/-- `ConvertBackendService`; the host has the form the service FQDN gives it
when it has two parts or ends in the cluster domain. -/
def convertBackendService (d : HTTPRouteDestination) : BackendService :=
  let parts := d.destination.host.splitOn 46
  if parts.length = 2 ∨
      parts.length > 2 ∧ (bytes "cluster.local").isSuffixOf d.destination.host then
    ⟨parts.getD 1 [], parts.getD 0 [], d.destination.port, d.weight⟩
  else ⟨[], d.destination.host, d.destination.port, d.weight⟩

/-- `IngressRouteCache.Update`. -/
def IngressRouteCache.update (cache : IngressRouteCache) (route : WrapperHTTPRoute) :
    IngressRouteCache :=
  match cache.routes route.httpRoute.name with
  | none => cache
  | some builder =>
      { cache with
        routes := Function.update cache.routes route.httpRoute.name
          (some { builder with serviceList := route.httpRoute.route.map convertBackendService }) }

/-- The body of the loop over the paths of a rule of a canary ingress. -/
def applyCanaryPath (c : Controller) (wrapper : WrapperConfig) (host : GoString)
    (o : ConvertOptions) (httpPath : HTTPIngressPath) : ConvertOptions :=
  let canary := canaryRouteOf c wrapper host httpPath
  let check := backendToRouteDestination c httpPath.backend wrapper.config.namespace
    wrapper.annotationsConfig.destination
  let builder := { IngressRouteCache.new canary with
    portName := check.portName, serviceList := check.serviceList }
  if check.event ≠ .normal then
    { o with
      ingressRouteCache := o.ingressRouteCache.add { builder with event := check.event } }
  else
    let routes := (o.httpRoutes host).getD []
    match routes.find? (isCanaryRoute canary) with
    | none => o
    | some target =>
        { o with
          httpRoutes := Function.update o.httpRoutes host (some (placeCanary c canary routes))
          ingressRouteCache :=
            if wrapper.annotationsConfig.canaryByHeader then
              o.ingressRouteCache.add
                { builder with routeName := generateUniqueRouteName c.systemNamespace wrapper }
            else o.ingressRouteCache.update (weightCanaryRoute canary target) }

/-- The body of the loop over the rules of a canary ingress. -/
def applyCanaryRule (c : Controller) (wrapper : WrapperConfig) (o : ConvertOptions)
    (rule : IngressRule) : ConvertOptions :=
  if rule.paths = [] ∨ (o.httpRoutes rule.host).isNone then o
  else rule.paths.foldl (applyCanaryPath c wrapper rule.host) o

/-- `ApplyCanaryIngress`: the options it leaves and the error it returns. -/
def applyCanaryIngress (c : Controller) (o : ConvertOptions) (wrapper : WrapperConfig) :
    ConvertOptions × Option GoString :=
  match wrapper.config.spec with
  | none => (o, some (specTypeError c))
  | some spec =>
      if spec.rules = [] ∧ spec.defaultBackend = none then
        (o, some (emptyRuleError c wrapper.config
          (bytes ", either `defaultBackend` or `rules` must be specified")))
      else (spec.rules.foldl (applyCanaryRule c wrapper) o, none)

/-- `applyCanaryIngresses`: each canary goes to the controller of its cluster,
if there is one. -/
def applyCanaryIngresses (remoteIngressControllers : GoString → Option Controller)
    (o : ConvertOptions) : ConvertOptions :=
  o.canaryIngresses.foldl (fun o wrapper =>
    match remoteIngressControllers (getClusterId wrapper.config.annotations) with
    | none => o
    | some c => (applyCanaryIngress c o wrapper).1) o

/-! ### The data plane -/

/-- How Envoy decides the single conditions of a match. -/
structure Envoy (Request : Type*) where
  uri : Option StringMatch → Bool → Request → Bool
  method : Option StringMatch → Request → Bool
  header : GoString → StringMatch → Request → Bool
  query : GoString → StringMatch → Request → Bool

section

variable {Request : Type*} (E : Envoy Request)

def Envoy.headersMatch (headers : List (GoString × StringMatch)) (req : Request) : Bool :=
  headers.all fun h => E.header h.1 h.2 req

/-- The conditions of a match on everything but the headers. -/
def Envoy.coreMatch (m : HTTPMatchRequest) (req : Request) : Bool :=
  E.uri m.uri m.ignoreUriCase req && E.method m.method req &&
    m.queryParams.all fun q => E.query q.1 q.2 req

/-- A route without matches takes every request. -/
def Envoy.routeMatches (r : WrapperHTTPRoute) (req : Request) : Bool :=
  r.httpRoute.match.isEmpty ||
    r.httpRoute.match.any fun m => E.coreMatch m req && E.headersMatch m.headers req

/-- The routes are tried in order. -/
def Envoy.firstMatch (routes : List WrapperHTTPRoute) (req : Request) : Option WrapperHTTPRoute :=
  routes.find? fun r => E.routeMatches r req

/-- Some match of the route holds, its headers aside. -/
def Envoy.routeCoreMatches (r : WrapperHTTPRoute) (req : Request) : Bool :=
  r.httpRoute.match.any fun m => E.coreMatch m req

/-- The header or cookie condition of a canary ingress. -/
def Envoy.canarySelected (a : Annotations) (req : Request) : Bool :=
  match a.canary.bind canaryHeader with
  | some h => E.header h.1 h.2 req
  | none => true

end

/-! ### Matches of base and canary -/

/-- The header matches that the annotations of an ingress put on its routes. -/
def Annotations.matchHeaders (a : Annotations) : List (GoString × StringMatch) :=
  merge [] (a.match.headers.getD [])

/-- `base` has the matches that conversion and annotations give to the path
`httpPath`. Nothing is said about its destinations, which weighted canaries and
the other handlers change. -/
structure BaseRoute (c : Controller) (wrapper : WrapperConfig) (host : GoString)
    (httpPath : HTTPIngressPath) (base : WrapperHTTPRoute) : Prop where
  matches_eq : base.httpRoute.match =
    (applyRoute (wrapperHttpRouteOf c wrapper host httpPath).httpRoute
      wrapper.annotationsConfig).match
  host_eq : base.host = host
  ruleKey_eq : base.ruleKey = createRuleKey wrapper.config.annotations base.pathFormat
  not_default : base.isDefaultBackend = false

theorem baseRoute_annotateRoute (c : Controller) (wrapper : WrapperConfig) (host : GoString)
    (httpPath : HTTPIngressPath) :
    BaseRoute c wrapper host httpPath (annotateRoute (wrapperHttpRouteOf c wrapper host httpPath)) :=
  ⟨rfl, rfl, rfl, rfl⟩

theorem headerControlApplyRoute_match (route : HTTPRoute) (config : Option HeaderControlConfig) :
    (headerControlApplyRoute route config).match = route.match := by
  cases config <;> rfl

/-- The handlers treat all matches of a route alike. -/
theorem applyRoute_match (route : HTTPRoute) (a : Annotations) :
    ∃ f : HTTPMatchRequest → HTTPMatchRequest,
      (applyRoute route a).match = route.match.map f ∧
        ∀ m, (f m).headers = merge m.headers (a.match.headers.getD []) := by
  rw [applyRoute, headerControlApplyRoute_match]
  unfold matchApplyRoute ignoreCaseApplyRoute
  cases a.ignoreUriCase <;> cases a.match.methods <;> cases a.match.headers <;>
    cases a.match.queryParams <;> simp only [Bool.false_eq_true, if_true, if_false, List.map_map]
  case' false.none.none.none => exact ⟨id, by simp, fun m => rfl⟩
  all_goals exact ⟨_, rfl, fun m => rfl⟩

theorem generateHttpMatches_ne_nil (pathType : PathType) (path : GoString) :
    generateHttpMatches pathType path ≠ [] := by
  unfold generateHttpMatches
  cases pathType <;> simp only [ne_eq, List.cons_ne_nil, not_false_eq_true]
  split <;> simp

theorem headers_generateHttpMatches (pathType : PathType) (path : GoString) :
    ∀ m ∈ generateHttpMatches pathType path, m.headers = [] := by
  unfold generateHttpMatches
  cases pathType <;> simp only [List.mem_singleton, forall_eq]
  split <;> simp

section

variable {c : Controller} {wrapper : WrapperConfig} {host : GoString} {httpPath : HTTPIngressPath}
  {base : WrapperHTTPRoute}

theorem BaseRoute.match_ne_nil (h : BaseRoute c wrapper host httpPath base) :
    base.httpRoute.match ≠ [] := by
  obtain ⟨f, hf, -⟩ := applyRoute_match (wrapperHttpRouteOf c wrapper host httpPath).httpRoute
    wrapper.annotationsConfig
  rw [h.matches_eq, hf]
  simpa [wrapperHttpRouteOf] using generateHttpMatches_ne_nil _ _

/-- All matches of a base route ask for the same headers. -/
theorem BaseRoute.headers_eq (h : BaseRoute c wrapper host httpPath base) :
    ∀ m ∈ base.httpRoute.match, m.headers = wrapper.annotationsConfig.matchHeaders := by
  obtain ⟨f, hf, hheaders⟩ := applyRoute_match
    (wrapperHttpRouteOf c wrapper host httpPath).httpRoute wrapper.annotationsConfig
  rw [h.matches_eq, hf]
  intro m' hm'
  obtain ⟨m, hm, rfl⟩ := List.mem_map.mp hm'
  rw [hheaders, headers_generateHttpMatches _ _ m hm, Annotations.matchHeaders]

/-- A route whose matches all ask for the same headers. -/
theorem routeMatches_iff_of_headers {Request : Type*} (E : Envoy Request) {r : WrapperHTTPRoute}
    {headers : List (GoString × StringMatch)} (hne : r.httpRoute.match ≠ [])
    (hheaders : ∀ m ∈ r.httpRoute.match, m.headers = headers) (req : Request) :
    E.routeMatches r req = true ↔
      E.routeCoreMatches r req = true ∧ E.headersMatch headers req = true := by
  have hempty : r.httpRoute.match.isEmpty = false := by simpa using hne
  simp only [Envoy.routeMatches, hempty, Bool.false_or, Envoy.routeCoreMatches, List.any_eq_true,
    Bool.and_eq_true]
  constructor
  · rintro ⟨m, hm, hcore, hh⟩
    exact ⟨⟨m, hm, hcore⟩, hheaders m hm ▸ hh⟩
  · rintro ⟨⟨m, hm, hcore⟩, hh⟩
    exact ⟨m, hm, hcore, (hheaders m hm).symm ▸ hh⟩

/-- A base route takes a request that passes one of its matches, the headers
aside, and its header matches. -/
theorem BaseRoute.routeMatches_iff {Request : Type*} (E : Envoy Request)
    (h : BaseRoute c wrapper host httpPath base) (req : Request) :
    E.routeMatches base req = true ↔ E.routeCoreMatches base req = true ∧
      E.headersMatch wrapper.annotationsConfig.matchHeaders req = true := by
  exact routeMatches_iff_of_headers E h.match_ne_nil h.headers_eq req

end

/-- The route that a header canary puts in front of `base`. -/
def canaryOf (c : Controller) (wrapper : WrapperConfig) (host : GoString)
    (httpPath : HTTPIngressPath) (base : WrapperHTTPRoute) : WrapperHTTPRoute :=
  headerCanaryRoute c (canaryRouteOf c wrapper host httpPath) base

section

variable (c : Controller) {wrapper : WrapperConfig} (host : GoString) (httpPath : HTTPIngressPath)
  (base : WrapperHTTPRoute)

theorem canaryHeader_of_canaryByHeader (h : wrapper.annotationsConfig.canaryByHeader = true) :
    ∃ header, wrapper.annotationsConfig.canary.bind canaryHeader = some header := by
  unfold Annotations.canaryByHeader at h
  cases hc : wrapper.annotationsConfig.canary with
  | none => simp [hc] at h
  | some config =>
      simp only [hc, Bool.and_eq_true, Bool.or_eq_true, bne_iff_ne, ne_eq] at h
      simp only [Option.bind_some, canaryHeader]
      split
      · split
        · exact ⟨_, rfl⟩
        · split <;> exact ⟨_, rfl⟩
      · have hcookie : config.cookie ≠ [] := by tauto
        simp [hcookie]

/-- The matches of a canary are those of its base with the headers replaced. -/
theorem match_canaryOf {header : GoString × StringMatch}
    (hh : wrapper.annotationsConfig.canary.bind canaryHeader = some header) :
    (canaryOf c wrapper host httpPath base).httpRoute.match =
      base.httpRoute.match.map fun m => { m with headers := [header] } := by
  simp only [canaryOf, headerCanaryRoute, applyByHeader, headerControlApplyRoute_match]
  simp [canaryRouteOf, hh]

/-- A canary takes a request that passes one of the matches of its base, the
headers aside, and the canary condition. -/
theorem routeMatches_canaryOf_iff {Request : Type*} (E : Envoy Request)
    (hby : wrapper.annotationsConfig.canaryByHeader = true) (hne : base.httpRoute.match ≠ [])
    (req : Request) :
    E.routeMatches (canaryOf c wrapper host httpPath base) req = true ↔
      E.routeCoreMatches base req = true ∧
        E.canarySelected wrapper.annotationsConfig req = true := by
  obtain ⟨header, hh⟩ := canaryHeader_of_canaryByHeader hby
  have hmatch := match_canaryOf c host httpPath base hh
  have hcore : E.routeCoreMatches (canaryOf c wrapper host httpPath base) req =
      E.routeCoreMatches base req := by
    simp [Envoy.routeCoreMatches, hmatch, List.any_map, Function.comp_def, Envoy.coreMatch]
  have hheaders : ∀ m ∈ (canaryOf c wrapper host httpPath base).httpRoute.match,
      m.headers = [header] := by
    simp [hmatch]
  rw [routeMatches_iff_of_headers E (by simpa [hmatch] using hne) hheaders, hcore]
  simp [Envoy.headersMatch, Envoy.canarySelected, hh]

/-- A base route on the same path is sorted in front of its canary exactly when
it has several header matches. -/
theorem routeLess_canaryOf_iff {c₀ : Controller} {wrapper₀ : WrapperConfig} {host₀ : GoString}
    {httpPath₀ : HTTPIngressPath} (hbase : BaseRoute c₀ wrapper₀ host₀ httpPath₀ base)
    (hby : wrapper.annotationsConfig.canaryByHeader = true)
    (htype : (canaryOf c wrapper host httpPath base).originPathType = base.originPathType)
    (hpath : (canaryOf c wrapper host httpPath base).originPath = base.originPath) :
    routeLess base (canaryOf c wrapper host httpPath base) = true ↔
      1 < wrapper₀.annotationsConfig.matchHeaders.length := by
  obtain ⟨header, hh⟩ := canaryHeader_of_canaryByHeader hby
  have hmatch := match_canaryOf c host httpPath base hh
  have hdefault : (canaryOf c wrapper host httpPath base).isDefaultBackend = false := rfl
  cases hm : base.httpRoute.match with
  | nil => exact absurd hm hbase.match_ne_nil
  | cons m ms =>
      have hheaders := hbase.headers_eq m (by simp [hm])
      rw [hm, List.map_cons] at hmatch
      have hcanary : isAllCatch (canaryOf c wrapper host httpPath base) = false := by
        simp [isAllCatch, hmatch]
      have hcatch : isAllCatch base = true → ¬1 < wrapper₀.annotationsConfig.matchHeaders.length := by
        simp only [isAllCatch, hm, hheaders]
        split
        · simp only [Bool.and_eq_true, beq_iff_eq]
          rintro ⟨⟨h, -⟩, -⟩
          omega
        · simp
      unfold routeLess
      simp only [hbase.not_default, hdefault, hcanary, htype, hpath, hm, hmatch, matchLess,
        hheaders, List.length_singleton]
      by_cases hb : isAllCatch base = true
      · simpa [hb] using hcatch hb
      · have hb' : isAllCatch base = false := by simpa using hb
        by_cases h1 : wrapper₀.annotationsConfig.matchHeaders.length = 1
        · simp [hb', h1]
        · simp [hb', h1]

end

/-! ### Sorting a canary and its base -/

section

variable {pre post : List WrapperHTTPRoute} {canary base : WrapperHTTPRoute}

/-- The sort does not bring the base in front when the comparison does not ask
for it. -/
theorem sort_keeps_canary
    (hsort : (pre ++ canary :: base :: post).length ≤ 20 ∨ Separated (pre ++ canary :: base :: post))
    (hne : canary ≠ base) (hcanary : canary ∉ pre ++ post) (hbase : base ∉ pre ++ post)
    (hless : routeLess base canary = false) :
    (sortHTTPRoutes (pre ++ canary :: base :: post)).Pairwise
      fun a b => ¬(a = base ∧ b = canary) := by
  have hr : Reorders routeLess (pre ++ canary :: base :: post)
      (sortHTTPRoutes (pre ++ canary :: base :: post)) := by
    rcases hsort with hlen | hsep
    · rw [sortHTTPRoutes, sliceStable_of_length_le routeLess hlen]
      exact reorders_insertionSort _
    · exact (sliceStable_spec routeLess_trans routeLess_asymm
        ((consistent_iff_separated _).mpr hsep)).2
  simp only [List.mem_append, not_or] at hcanary hbase
  refine hr.pairwise _ ?_ fun a _ b _ hab h => ?_
  · refine List.pairwise_append.mpr ⟨?_, ?_, fun a ha b _ h => hbase.1 (h.1 ▸ ha)⟩
    · exact List.pairwise_iff_forall_sublist.mpr fun h hab => hbase.1 (hab.1 ▸ h.subset (by simp))
    · refine List.pairwise_cons.mpr ⟨fun b _ h => hne h.1, List.pairwise_cons.mpr
        ⟨fun b hb h => hcanary.2 (h.2 ▸ hb), ?_⟩⟩
      exact List.pairwise_iff_forall_sublist.mpr fun h hab => hbase.2 (hab.1 ▸ h.subset (by simp))
  · rw [h.1, h.2, hless] at hab
    simp at hab

/-- The sort brings the base in front when the comparison asks for it. -/
theorem sort_moves_base
    (hsort : (pre ++ canary :: base :: post).length ≤ 20 ∨ Separated (pre ++ canary :: base :: post))
    (hcanary : canary ∉ pre ++ post) (hbase : base ∉ pre ++ post)
    (hless : routeLess base canary = true) :
    (sortHTTPRoutes (pre ++ canary :: base :: post)).Pairwise
      fun a b => ¬(a = canary ∧ b = base) := by
  rcases hsort with hlen | hsep
  · rw [sortHTTPRoutes, sliceStable_of_length_le routeLess hlen]
    exact insertionSort_exchanges routeLess_trans routeLess_asymm hless hcanary hbase
  · have ho := (sliceStable_spec routeLess_trans routeLess_asymm
      ((consistent_iff_separated _).mpr hsep)).1
    refine ho.imp fun {a b} hab h => ?_
    rw [h.1, h.2, hless] at hab
    simp at hab

theorem eq_pair_of_perm {α : Type*} {l : List α} {x y : α} (h : l.Perm [x, y])
    (hne : x ≠ y) (hR : l.Pairwise fun a b => ¬(a = y ∧ b = x)) : l = [x, y] := by
  match l, h.length_eq with
  | [a, b], _ =>
      have ha : a ∈ [x, y] := h.mem_iff.mp (by simp)
      have hx : x ∈ [a, b] := h.mem_iff.mpr (by simp)
      have hy : y ∈ [a, b] := h.mem_iff.mpr (by simp)
      simp only [List.mem_cons, List.not_mem_nil, or_false] at ha hx hy
      simp only [List.pairwise_cons, List.mem_singleton, forall_eq] at hR
      grind

/-- When no other route takes the request, the first match is the canary if it
takes the request and is not sorted behind a base that takes it too. -/
theorem firstMatch_eq_canary_iff {Request : Type*} (E : Envoy Request) (req : Request)
    (hsort : (pre ++ canary :: base :: post).length ≤ 20 ∨ Separated (pre ++ canary :: base :: post))
    (hne : canary ≠ base) (hothers : ∀ r ∈ pre ++ post, E.routeMatches r req = false) :
    E.firstMatch (sortHTTPRoutes (pre ++ canary :: base :: post)) req = some canary ↔
      E.routeMatches canary req = true ∧
        (E.routeMatches base req = true → routeLess base canary = false) := by
  set sorted := sortHTTPRoutes (pre ++ canary :: base :: post)
  set p := fun r => E.routeMatches r req with hp
  have hpre : pre.filter p = [] := by
    rw [List.filter_eq_nil_iff]
    exact fun r hr => by simp [hp, hothers r (List.mem_append_left _ hr)]
  have hpost : post.filter p = [] := by
    rw [List.filter_eq_nil_iff]
    exact fun r hr => by simp [hp, hothers r (List.mem_append_right _ hr)]
  have hperm : (sorted.filter p).Perm ([canary, base].filter p) := by
    have h := (@perm_sliceStable _ routeLess (pre ++ canary :: base :: post)).filter p
    simpa [sorted, sortHTTPRoutes, List.filter_append, List.filter_cons, hpre, hpost] using h
  have hfirst : E.firstMatch sorted req = (sorted.filter p).head? := by
    rw [List.head?_filter, Envoy.firstMatch]
  rw [hfirst]
  cases hc : p canary with
  | false =>
      refine iff_of_false (fun h => ?_) (fun h => by simp [hp, h.1] at hc)
      have hmem := List.mem_of_mem_head? h
      simp [hc] at hmem
  | true =>
      have hcanary : canary ∉ pre ++ post := fun h => by simp [hp, hothers _ h] at hc
      cases hb : p base with
      | false =>
          have hone : sorted.filter p = [canary] := by
            simpa [hc, hb] using hperm
          simp [hone, hp ▸ hc, show E.routeMatches base req = false from hb]
      | true =>
          have hbase : base ∉ pre ++ post := fun h => by simp [hp, hothers _ h] at hb
          have htwo : (sorted.filter p).Perm [canary, base] := by simpa [hc, hb] using hperm
          cases hless : routeLess base canary with
          | false =>
              have h := (sort_keeps_canary hsort hne hcanary hbase hless).sublist
                (List.filter_sublist (p := p))
              rw [eq_pair_of_perm htwo hne h]
              simp [show E.routeMatches canary req = true from hc]
          | true =>
              have h := (sort_moves_base hsort hcanary hbase hless).sublist
                (List.filter_sublist (p := p))
              rw [eq_pair_of_perm (htwo.trans (List.Perm.swap _ _ _)) hne.symm h]
              simp [show E.routeMatches base req = true from hb, hne.symm]

end

/-! ### The run over all canaries -/

section

variable {α : Type*} {p : α → Bool} {f : α → List α}

theorem replaceFirst_append (xs ys : List α) :
    replaceFirst p f (xs ++ ys) =
      if xs.any p then replaceFirst p f xs ++ ys else xs ++ replaceFirst p f ys := by
  induction xs with
  | nil => simp
  | cons x xs ih =>
      by_cases hx : p x = true
      · simp [replaceFirst, hx]
      · simp only [List.cons_append, replaceFirst, hx, ih, List.any_cons, Bool.false_or]
        cases xs.any p <;> rfl

theorem replaceFirst_eq_self {xs : List α} (h : ∀ x ∈ xs, p x = false) :
    replaceFirst p f xs = xs := by
  induction xs with
  | nil => rfl
  | cons x xs ih =>
      simp [replaceFirst, h x (by simp), ih fun y hy => h y (by simp [hy])]

theorem mem_replaceFirst {xs : List α} {y : α} (h : y ∈ replaceFirst p f xs) :
    y ∈ xs ∨ ∃ x ∈ xs, p x = true ∧ y ∈ f x := by
  induction xs with
  | nil => simp [replaceFirst] at h
  | cons x xs ih =>
      rw [replaceFirst] at h
      split at h
      · rename_i hx
        rcases List.mem_append.mp h with h | h
        · exact Or.inr ⟨x, by simp, hx, h⟩
        · exact Or.inl (by simp [h])
      · rcases List.mem_cons.mp h with rfl | h
        · exact Or.inl (by simp)
        · rcases ih h with h | ⟨z, hz, hrest⟩
          · exact Or.inl (by simp [h])
          · exact Or.inr ⟨z, by simp [hz], hrest⟩

end

/-- The paths of the canary ingresses with their controllers, in the order in
which they are applied. -/
def canaryEntries (remoteIngressControllers : GoString → Option Controller)
    (canaries : List WrapperConfig) : List (Controller × Entry) :=
  canaries.flatMap fun wrapper =>
    match remoteIngressControllers (getClusterId wrapper.config.annotations) with
    | none => []
    | some c =>
        (((wrapper.config.spec.map IngressSpec.rules).getD []).flatMap
          (ruleEntries wrapper)).map fun e => (c, e)

def Entry.canaryRoute (c : Controller) (e : Entry) : WrapperHTTPRoute :=
  canaryRouteOf c e.wrapper e.host e.httpPath

/-- The effect of one canary path on the routes of `host`. -/
def placeEntry (host : GoString) (routes : List WrapperHTTPRoute) (ce : Controller × Entry) :
    List WrapperHTTPRoute :=
  if ce.2.host = host ∧ ce.2.backendNormal ce.1 then
    placeCanary ce.1 (ce.2.canaryRoute ce.1) routes
  else routes

theorem applyCanaryPath_httpRoutes (c : Controller) (e : Entry) (o : ConvertOptions)
    (host : GoString) :
    (applyCanaryPath c e.wrapper e.host o e.httpPath).httpRoutes host =
      (o.httpRoutes host).map fun routes => placeEntry host routes (c, e) := by
  unfold applyCanaryPath placeEntry Entry.backendNormal
  by_cases hnormal : (backendToRouteDestination c e.httpPath.backend e.wrapper.config.namespace
      e.wrapper.annotationsConfig.destination).event = .normal
  · simp only [hnormal, ne_eq, not_true_eq_false, if_false, and_true]
    set canary := canaryRouteOf c e.wrapper e.host e.httpPath with hcanary
    cases hfind : ((o.httpRoutes e.host).getD []).find? (isCanaryRoute canary) with
    | none =>
        by_cases hhost : e.host = host
        · obtain rfl := hhost
          cases hroutes : o.httpRoutes e.host with
          | none => simp
          | some routes =>
              rw [hroutes, Option.getD_some, List.find?_eq_none] at hfind
              have hsame : placeCanary c canary routes = routes :=
                replaceFirst_eq_self fun r hr => by simpa using hfind r hr
              simp [Entry.canaryRoute, ← hcanary, hsame]
        · simp [hhost]
    | some target =>
        by_cases hhost : e.host = host
        · obtain rfl := hhost
          cases hroutes : o.httpRoutes e.host with
          | none => simp [hroutes] at hfind
          | some routes => simp [Entry.canaryRoute, ← hcanary]
        · simp [hhost, Function.update_of_ne (Ne.symm hhost)]
  · simp [hnormal]

theorem foldl_applyCanaryPath_httpRoutes (c : Controller) (wrapper : WrapperConfig)
    (rule : IngressRule) (o : ConvertOptions) (host : GoString) :
    (rule.paths.foldl (applyCanaryPath c wrapper rule.host) o).httpRoutes host =
      (o.httpRoutes host).map fun routes =>
        ((ruleEntries wrapper rule).map fun e => (c, e)).foldl (placeEntry host) routes := by
  unfold ruleEntries
  generalize rule.paths = paths
  induction paths generalizing o with
  | nil => simp
  | cons httpPath paths ih =>
      rw [List.foldl_cons, ih, applyCanaryPath_httpRoutes c ⟨wrapper, rule.host, httpPath⟩ o host]
      simp [Function.comp_def]

theorem applyCanaryRule_httpRoutes (c : Controller) (wrapper : WrapperConfig) (rule : IngressRule)
    (o : ConvertOptions) (host : GoString) :
    (applyCanaryRule c wrapper o rule).httpRoutes host =
      (o.httpRoutes host).map fun routes =>
        ((ruleEntries wrapper rule).map fun e => (c, e)).foldl (placeEntry host) routes := by
  rw [← foldl_applyCanaryPath_httpRoutes, applyCanaryRule]
  split
  · rename_i h
    rcases h with h | h
    · simp [h]
    · -- without routes for the host of the rule nothing can be placed
      rw [foldl_applyCanaryPath_httpRoutes]
      by_cases hhost : rule.host = host
      · simp [← hhost, Option.isNone_iff_eq_none.mp h]
      · have hskip : ∀ (es : List Entry), (∀ e ∈ es, e.host = rule.host) → ∀ routes,
            (es.map fun e => (c, e)).foldl (placeEntry host) routes = routes := by
          intro es
          induction es with
          | nil => simp
          | cons e es ih =>
              intro hes routes
              have he : e.host ≠ host := by rw [hes e (by simp)]; exact hhost
              rw [List.map_cons, List.foldl_cons, placeEntry, if_neg (fun h => he h.1)]
              exact ih (fun e he => hes e (by simp [he])) routes
        have hid := hskip (ruleEntries wrapper rule) (by simp [ruleEntries])
        simp [hid]
  · rfl

/-- The canaries are placed path by path into the routes of a host. -/
theorem applyCanaryIngresses_httpRoutes (remoteIngressControllers : GoString → Option Controller)
    (o : ConvertOptions) (host : GoString) :
    (applyCanaryIngresses remoteIngressControllers o).httpRoutes host =
      (o.httpRoutes host).map fun routes =>
        (canaryEntries remoteIngressControllers o.canaryIngresses).foldl (placeEntry host)
          routes := by
  have hrules : ∀ (c : Controller) (wrapper : WrapperConfig) (rules : List IngressRule)
      (o : ConvertOptions), (rules.foldl (applyCanaryRule c wrapper) o).httpRoutes host =
        (o.httpRoutes host).map fun routes =>
          ((rules.flatMap (ruleEntries wrapper)).map fun e => (c, e)).foldl (placeEntry host)
            routes := by
    intro c wrapper rules
    induction rules with
    | nil => simp
    | cons rule rules ih =>
        intro o
        rw [List.foldl_cons, ih, applyCanaryRule_httpRoutes]
        simp [Function.comp_def]
  rw [applyCanaryIngresses]
  generalize o.canaryIngresses = canaries
  induction canaries generalizing o with
  | nil => simp [canaryEntries]
  | cons wrapper canaries ih =>
      rw [List.foldl_cons, ih]
      cases hc : remoteIngressControllers (getClusterId wrapper.config.annotations) with
      | none => simp [canaryEntries, hc]
      | some c =>
          unfold applyCanaryIngress
          cases hspec : wrapper.config.spec with
          | none => simp [canaryEntries, hc, hspec]
          | some spec =>
              dsimp only
              split
              · rename_i hempty
                simp [canaryEntries, hc, hspec, hempty.1]
              · rw [hrules]
                simp [canaryEntries, hc, hspec, Function.comp_def]

/-- A route that a canary with this rule key can attach to. -/
def isTarget (key : GoString) (r : WrapperHTTPRoute) : Bool :=
  !r.wrapperConfig.annotationsConfig.isCanary && key == r.ruleKey

/-- The invariant of the run: `block` stands in the routes of the host, and no
route before it is a target for `key`. -/
def Placed (key : GoString) (block routes : List WrapperHTTPRoute) : Prop :=
  ∃ pre post, routes = pre ++ (block ++ post) ∧ ∀ r ∈ pre, isTarget key r = false

theorem isCanary_of_canaryByHeader {a : Annotations} (h : a.canaryByHeader = true) :
    a.isCanary = true := by
  unfold Annotations.canaryByHeader at h
  unfold Annotations.isCanary
  cases hc : a.canary with
  | none => simp [hc] at h
  | some config =>
      simp only [hc, Bool.and_eq_true] at h
      exact h.1

/-- Placing a canary creates no target where there was none. -/
theorem isTarget_placeCanary {c : Controller} {canary : WrapperHTTPRoute}
    {routes : List WrapperHTTPRoute} {key : GoString}
    (h : ∀ r ∈ routes, isTarget key r = false) :
    ∀ r ∈ placeCanary c canary routes, isTarget key r = false := by
  intro r hr
  rcases mem_replaceFirst hr with hr | ⟨t, ht, -, hr⟩
  · exact h r hr
  · split at hr
    · rename_i hby
      rcases List.mem_cons.mp hr with rfl | hr
      · simp [isTarget, headerCanaryRoute, isCanary_of_canaryByHeader hby]
      · rw [List.mem_singleton.mp hr]
        exact h t ht
    · rw [List.mem_singleton.mp hr]
      exact h t ht

/-- A canary of another rule key leaves the block alone. -/
theorem Placed.other {key : GoString} {block routes : List WrapperHTTPRoute} {c : Controller}
    {canary : WrapperHTTPRoute} (h : Placed key block routes)
    (hblock : ∀ r ∈ block, isCanaryRoute canary r = false) :
    Placed key block (placeCanary c canary routes) := by
  obtain ⟨pre, post, rfl, hpre⟩ := h
  have hnone : block.any (isCanaryRoute canary) = false := by simpa using hblock
  rw [placeCanary, replaceFirst_append]
  split
  · exact ⟨_, post, rfl, isTarget_placeCanary hpre⟩
  · rw [replaceFirst_append, if_neg (by simp [hnone])]
    exact ⟨pre, _, rfl, hpre⟩

/-- The canary of the base route itself is put in front of it. -/
theorem Placed.insert {base : WrapperHTTPRoute} {routes : List WrapperHTTPRoute} {c : Controller}
    {canary : WrapperHTTPRoute} (h : Placed canary.ruleKey [base] routes)
    (hbase : isCanaryRoute canary base = true)
    (hby : canary.wrapperConfig.annotationsConfig.canaryByHeader = true) :
    Placed canary.ruleKey [headerCanaryRoute c canary base, base]
      (placeCanary c canary routes) := by
  obtain ⟨pre, post, rfl, hpre⟩ := h
  have hnone : pre.any (isCanaryRoute canary) = false := by
    simpa using show ∀ r ∈ pre, isCanaryRoute canary r = false from hpre
  refine ⟨pre, post, ?_, hpre⟩
  rw [placeCanary, replaceFirst_append, if_neg (by simp [hnone])]
  simp [replaceFirst, hbase, hby]

/-- A run over canary paths none of which is for `key` keeps the block. -/
theorem Placed.run {key host : GoString} {block : List WrapperHTTPRoute}
    (hblock : ∀ r ∈ block, r.wrapperConfig.annotationsConfig.isCanary = true ∨ r.ruleKey = key)
    (es : List (Controller × Entry))
    (hes : ∀ ce ∈ es, ce.2.host = host → ce.2.backendNormal ce.1 →
      (ce.2.canaryRoute ce.1).ruleKey ≠ key)
    {routes : List WrapperHTTPRoute} (h : Placed key block routes) :
    Placed key block (es.foldl (placeEntry host) routes) := by
  induction es generalizing routes with
  | nil => exact h
  | cons ce es ih =>
      refine ih (fun ce hce => hes ce (by simp [hce])) ?_
      unfold placeEntry
      split
      · rename_i hactive
        have hkey := hes ce (by simp) hactive.1 hactive.2
        refine h.other fun r hr => ?_
        rcases hblock r hr with hcanary | hr
        · simp [isCanaryRoute, hcanary]
        · simp [isCanaryRoute, hr, hkey]
      · exact h

/-- The canary paths that attach to the base route with this key. -/
def canariesFor (host key : GoString) (es : List (Controller × Entry)) : List (Controller × Entry) :=
  es.filter fun ce =>
    ce.2.host == host && decide (ce.2.backendNormal ce.1) && (ce.2.canaryRoute ce.1).ruleKey == key

/-- The only canary of a base route ends up right in front of it. -/
theorem placed_canary {host key : GoString} {es : List (Controller × Entry)} {c : Controller}
    {e : Entry} {routes : List WrapperHTTPRoute} {base : WrapperHTTPRoute}
    (hfind : routes.find? (isTarget key) = some base)
    (hone : canariesFor host key es = [(c, e)])
    (hby : e.wrapper.annotationsConfig.canaryByHeader = true) :
    ∃ pre post, es.foldl (placeEntry host) routes =
      pre ++ canaryOf c e.wrapper e.host e.httpPath base :: base :: post := by
  obtain ⟨hbase, pre₀, post₀, hroutes, hpre₀⟩ := List.find?_eq_some_iff_append.mp hfind
  have hstart : Placed key [base] routes := ⟨pre₀, post₀, by simpa using hroutes, by
    simpa using hpre₀⟩
  obtain ⟨es₁, es₂, rfl, hes₁, hactive, hes₂⟩ := List.filter_eq_cons_iff.mp hone
  have hother : ∀ {es : List (Controller × Entry)},
      (∀ ce ∈ es, ¬(ce.2.host == host && decide (ce.2.backendNormal ce.1) &&
        (ce.2.canaryRoute ce.1).ruleKey == key) = true) →
      ∀ ce ∈ es, ce.2.host = host → ce.2.backendNormal ce.1 →
        (ce.2.canaryRoute ce.1).ruleKey ≠ key := by
    intro es h ce hce hhost hnormal hkey
    exact h ce hce (by simp [hhost, hnormal, hkey])
  simp only [Bool.and_eq_true, beq_iff_eq, decide_eq_true_eq] at hactive
  obtain ⟨⟨hhost, hnormal⟩, hkey⟩ := hactive
  have hbasekey : base.ruleKey = key := by
    simp only [isTarget, Bool.and_eq_true, beq_iff_eq] at hbase
    exact hbase.2.symm
  have hbefore := hstart.run (by simp [hbasekey]) es₁ (hother hes₁)
  rw [← hkey] at hbefore hbase
  have hinsert := Placed.insert (c := c) hbefore hbase hby
  rw [hkey] at hinsert
  have hafter := @Placed.run key host _
    (by simp [hbasekey, headerCanaryRoute, Entry.canaryRoute, canaryRouteOf,
      isCanary_of_canaryByHeader hby])
    es₂ (hother (by simpa [List.filter_eq_nil_iff] using hes₂)) _ hinsert
  obtain ⟨pre, post, hfinal, -⟩ := hafter
  refine ⟨pre, post, ?_⟩
  rw [List.foldl_append, List.foldl_cons]
  have hplace : placeEntry host (es₁.foldl (placeEntry host) routes) (c, e) =
      placeCanary c (e.canaryRoute c) (es₁.foldl (placeEntry host) routes) := by
    rw [placeEntry, if_pos ⟨hhost, hnormal⟩]
  rw [hplace, hfinal]
  simp [canaryOf, Entry.canaryRoute]

/-! ### Canary and base share their path -/

theorem dash_notMem_text (t : PathType) : (45 : UInt8) ∉ t.text := by
  cases t <;> decide

theorem PathType.text_injective {t t' : PathType} (h : t.text = t'.text) : t = t' := by
  cases t <;> cases t' <;> first | rfl | exact absurd h (by decide)

/-- On one host, rule keys of paths without line feeds tell the paths apart. -/
theorem path_eq_of_ruleKey {annots annots' : List (GoString × GoString)} {r r' : WrapperHTTPRoute}
    (hhost : r.host = r'.host) (hr : 10 ∉ r.pathFormat) (hr' : 10 ∉ r'.pathFormat)
    (h : createRuleKey annots r.pathFormat = createRuleKey annots' r'.pathFormat) :
    r.originPathType = r'.originPathType ∧ r.originPath = r'.originPath := by
  have hsep : bytes "\n\n" = [10, 10] := by decide
  have hdash : bytes "-" = [45] := by decide
  have hformat : r.pathFormat = r'.pathFormat := by
    simp only [createRuleKey, hsep, List.append_assoc, List.cons_append] at h
    exact (append_cons_inj_of_notMem hr hr' h).1
  simp only [WrapperHTTPRoute.pathFormat, Strings.join, hhost, hdash, List.intercalate,
    List.intersperse, List.flatten_cons, List.flatten_nil, List.append_nil, List.append_cancel_left_eq,
    List.singleton_append] at hformat
  obtain ⟨htype, hpath⟩ := append_cons_inj_of_notMem (dash_notMem_text _) (dash_notMem_text _)
    (List.cons.inj hformat).2
  exact ⟨PathType.text_injective htype, hpath⟩

/-! ### First match -/

/-- The only header or cookie canary of a base route stands in front of it in
the routes that are sorted. Among requests that no other route takes, it is the
route chosen for exactly those that pass the base route and the canary
condition, if and only if the request does not get as far as the headers of the
base route, or passes them and the base is not sorted in front of its canary.
The latter happens when the base has several header matches. The sort is known
to respect the comparison on up to twenty routes and on separated ones. -/
theorem canary_firstMatch {Request : Type*} (E : Envoy Request)
    (remoteIngressControllers : GoString → Option Controller) (o : ConvertOptions)
    (rest routes : List WrapperHTTPRoute) {host : GoString} {c₀ c : Controller}
    {wrapper₀ : WrapperConfig} {httpPath₀ : HTTPIngressPath} {base : WrapperHTTPRoute} {e : Entry}
    (hroutes : o.httpRoutes host = some routes)
    (hbase : BaseRoute c₀ wrapper₀ host httpPath₀ base)
    (hfind : routes.find? (isTarget base.ruleKey) = some base)
    (hone : canariesFor host base.ruleKey
      (canaryEntries remoteIngressControllers o.canaryIngresses) = [(c, e)])
    (hby : e.wrapper.annotationsConfig.canaryByHeader = true) :
    let canary := canaryOf c e.wrapper e.host e.httpPath base
    let all := (applyCanaryIngresses remoteIngressControllers o).routesOf host ++ rest
    (10 ∉ base.pathFormat → 10 ∉ canary.pathFormat →
      (routeLess base canary = true ↔ 1 < wrapper₀.annotationsConfig.matchHeaders.length)) ∧
    ∃ pre post, all = pre ++ canary :: base :: post ∧
      ∀ req, (∀ r ∈ pre ++ post, E.routeMatches r req = false) →
        (all.length ≤ 20 ∨ Separated all) →
        ((E.firstMatch (sortHTTPRoutes all) req = some canary ↔
            E.routeMatches base req = true ∧
              E.canarySelected e.wrapper.annotationsConfig req = true) ↔
          ¬(E.routeCoreMatches base req = true ∧
              E.canarySelected e.wrapper.annotationsConfig req = true) ∨
            E.headersMatch wrapper₀.annotationsConfig.matchHeaders req = true ∧
              routeLess base canary = false) := by
  intro canary all
  have hmem : (c, e) ∈ canariesFor host base.ruleKey
      (canaryEntries remoteIngressControllers o.canaryIngresses) := by simp [hone]
  simp only [canariesFor, List.mem_filter, Bool.and_eq_true, beq_iff_eq] at hmem
  obtain ⟨-, ⟨hhost, -⟩, hkey⟩ := hmem
  have hnoncanary : base.wrapperConfig.annotationsConfig.isCanary = false := by
    have h := List.find?_some hfind
    simp only [isTarget, Bool.and_eq_true] at h
    simpa using h.1
  have hne : canary ≠ base := by
    intro h
    have hcanary : canary.wrapperConfig.annotationsConfig.isCanary = true :=
      isCanary_of_canaryByHeader hby
    rw [h, hnoncanary] at hcanary
    simp at hcanary
  refine ⟨fun hb hc => ?_, ?_⟩
  · have hkeys : createRuleKey e.wrapper.config.annotations canary.pathFormat =
        createRuleKey wrapper₀.config.annotations base.pathFormat := by
      rw [← hbase.ruleKey_eq]
      exact hkey
    obtain ⟨htype, hpath⟩ := path_eq_of_ruleKey
      (show canary.host = base.host from hhost.trans hbase.host_eq.symm) hc hb hkeys
    exact routeLess_canaryOf_iff c e.host e.httpPath base hbase hby htype hpath
  · obtain ⟨pre, post, hplaced⟩ := placed_canary hfind hone hby
    have hall : all = pre ++ canary :: base :: (post ++ rest) := by
      simp only [all, ConvertOptions.routesOf, applyCanaryIngresses_httpRoutes, hroutes,
        Option.map_some, Option.getD_some, hplaced]
      simp [canary]
    refine ⟨pre, post ++ rest, hall, fun req hothers hsort => ?_⟩
    rw [hall] at hsort ⊢
    rw [firstMatch_eq_canary_iff E req hsort hne hothers,
      routeMatches_canaryOf_iff c e.host e.httpPath base E hby hbase.match_ne_nil,
      hbase.routeMatches_iff E req]
    cases routeLess base canary <;> cases E.routeCoreMatches base req <;>
      cases E.canarySelected e.wrapper.annotationsConfig req <;>
      cases E.headersMatch wrapper₀.annotationsConfig.matchHeaders req <;> simp

/-! ### A host with one canary -/

namespace Sample

def controller : Controller :=
  { clusterId := bytes "c1"
    systemNamespace := bytes "higress-system"
    domainSuffix := bytes "cluster.local"
    resolveNamedPort := fun _ _ => none }

def controllers (clusterId : GoString) : Option Controller :=
  if clusterId = bytes "c1" then some controller else none

def host : GoString := bytes "example.com"

def httpPath (service : String) : HTTPIngressPath :=
  { path := bytes "/app"
    pathType := some .exact
    backend := { service := some { name := bytes service, port := { number := 80 } } } }

/-- An ingress that matches the header `x-env: prod` on the path `/app`. -/
def ingress (service : String) (canary : Option CanaryConfig) : WrapperConfig :=
  { config :=
      { name := bytes service
        «namespace» := bytes "default"
        annotations :=
          [(bytes "internal.higress.io/cluster-id", bytes "c1"),
            (bytes "higress.io/exact-match-header-x-env", bytes "prod")]
        spec := some { rules := [{ host := host, paths := [httpPath service] }] } }
    annotationsConfig :=
      { canary := canary
        «match» := { headers := some [(.exact, bytes "x-env", bytes "prod")] } } }

def stable : WrapperConfig := ingress "stable" none

def canary : WrapperConfig :=
  ingress "canary" (some { enabled := true, header := bytes "x-canary" })

def options : ConvertOptions := annotateRoutes (convertAll controller {} [stable, canary])

def base : WrapperHTTPRoute :=
  annotateRoute (wrapperHttpRouteOf controller stable host (httpPath "stable"))

structure Request where
  path : GoString
  method : GoString := bytes "GET"
  headers : List (GoString × GoString)

def valueMatch : StringMatch → GoString → Bool
  | .exact value, s => value == s
  | .prefixed value, s => Strings.startsWith s value
  | .regex _, _ => false

/-- Envoy on requests without a query, for ingresses without regex matches. -/
def envoy : Envoy Request where
  uri m _ req := (m.map fun m => valueMatch m req.path).getD true
  method m req := (m.map fun m => valueMatch m req.method).getD true
  header name m req := ((lookup req.headers name).map (valueMatch m)).getD false
  query _ _ _ := false

/-- A request for the canary that the stable ingress does not accept. -/
def strayRequest : Request :=
  { path := bytes "/app", headers := [(bytes "x-canary", bytes "always")] }

/-- A request for the canary that the stable ingress accepts. -/
def canaryRequest : Request :=
  { path := bytes "/app"
    headers := [(bytes "x-env", bytes "prod"), (bytes "x-canary", bytes "always")] }

theorem httpRoutes_options : options.httpRoutes host = some [base] := by decide +kernel

theorem routesOf_canaries : (applyCanaryIngresses controllers options).routesOf host =
    [canaryOf controller canary host (httpPath "canary") base, base] := by decide +kernel

theorem canariesFor_base : canariesFor host base.ruleKey
    (canaryEntries controllers options.canaryIngresses) =
      [(controller, ⟨canary, host, httpPath "canary"⟩)] := by
  have hentries : canaryEntries controllers options.canaryIngresses =
      [(controller, ⟨canary, host, httpPath "canary"⟩)] := rfl
  rw [hentries]
  exact List.filter_cons_of_pos (by decide +kernel)

end Sample

open Sample in
/-- The canary takes a request that the stable ingress rejects for its header. -/
theorem canary_takes_stray_request :
    ¬(envoy.firstMatch (sortHTTPRoutes ((applyCanaryIngresses controllers options).routesOf host))
        strayRequest = some (canaryOf controller canary host (httpPath "canary") base) ↔
      envoy.routeMatches base strayRequest = true ∧
        envoy.canarySelected canary.annotationsConfig strayRequest = true) := by
  rw [routesOf_canaries, sortHTTPRoutes, sliceStable_of_length_le routeLess (by decide)]
  decide +kernel

open Sample in
/-- A request that passes the one header match of the stable ingress reaches
the canary as it should. -/
theorem canary_firstMatch_sample :
    envoy.firstMatch
      (sortHTTPRoutes ((applyCanaryIngresses controllers options).routesOf host ++ []))
      canaryRequest = some (canaryOf controller canary host (httpPath "canary") base) := by
  have hfind : [base].find? (isTarget base.ruleKey) = some base := by decide +kernel
  obtain ⟨-, pre, post, hall, hmain⟩ := canary_firstMatch envoy controllers options [] [base]
    httpRoutes_options (baseRoute_annotateRoute controller stable host (httpPath "stable")) hfind
    canariesFor_base (by decide)
  have hlen := congrArg List.length hall
  simp only [routesOf_canaries, List.append_nil, List.length_append, List.length_cons,
    List.length_nil] at hlen
  obtain rfl : pre = [] := List.eq_nil_of_length_eq_zero (by omega)
  obtain rfl : post = [] := List.eq_nil_of_length_eq_zero (by omega)
  have hiff := hmain canaryRequest (by simp) (Or.inl (by simp [routesOf_canaries]))
  exact (hiff.mpr (Or.inr ⟨by decide, by decide⟩)).mpr (by decide)

end Higress.Ingress
