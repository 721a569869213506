import Mathlib.Logic.Function.Basic
import Mathlib.Data.List.Nodup
import Higress.Lib.StableSort
import Higress.Ingress.Model

/-!
Conversion of ingresses into the HTTP routes of their hosts.

The ingresses are converted one by one into one `ConvertOptions`. A route that
repeats an earlier one is dropped. What counts as a repetition is kept in
three places: `Route2Ingress` holds the rule keys of the rules that have been
completed, `definedRules` the paths of the ingress under conversion, and the
route builder the event of the current path. `firstWins` shows that together
they drop a path exactly when any earlier one has the same rule key.
-/

namespace Higress.Ingress

open Higress.Lib

/-! ### Rule keys -/

def higressAnnotationsPrefix : GoString := bytes "higress.io"
def matchMethod : GoString := bytes "match-method"
def matchQuery : GoString := bytes "match-query"
def matchHeader : GoString := bytes "match-header"
def matchPseudoHeader : GoString := bytes "match-pseudo-header"

/-- The lookup of a Go map whose entries are listed in iteration order. -/
def lookup (annots : List (GoString × GoString)) (key : GoString) : Option GoString :=
  (annots.find? fun kv => kv.1 == key).map Prod.snd

/-- What an annotation contributes to the rule key. -/
inductive RuleKeyPart
  | header (key value : GoString)
  | param (key value : GoString)
  | nothing

/-- One iteration of the loop over the annotations: `k[start:idx]`, the infix
of pseudo headers and `k[idx+len+1:]`, or nothing when a bound is out of range. -/
def ruleKeyPart (kv : GoString × GoString) : RuleKeyPart :=
  let start := higressAnnotationsPrefix.length + 1
  let k := kv.1
  let cut := fun (idx len : ℕ) (mid : GoString) =>
    (k.take idx).drop start ++ mid ++ k.drop (idx + len + 1)
  match Strings.index k matchHeader with
  | some idx =>
      if idx < start ∨ idx + matchHeader.length + 1 > k.length then .nothing
      else .header (cut idx matchHeader.length []) kv.2
  | none =>
      match Strings.index k matchPseudoHeader with
      | some idx =>
          if idx < start ∨ idx + matchPseudoHeader.length + 1 > k.length then .nothing
          else .header (cut idx matchPseudoHeader.length (bytes ":")) kv.2
      | none =>
          match Strings.index k matchQuery with
          | some idx =>
              if idx < start ∨ idx + matchQuery.length + 1 > k.length then .nothing
              else .param (cut idx matchQuery.length []) kv.2
          | none => .nothing

/-- Go's `<` on strings. -/
def stringLess : GoString → GoString → Bool
  | [], [] => false
  | [], _ :: _ => true
  | _ :: _, [] => false
  | a :: s, b :: t => if a = b then stringLess s t else a < b

/-- The entries of one section of the rule key, sorted and written one a line. -/
def ruleKeySection (entries : List (GoString × GoString)) : GoString :=
  Strings.join
    ((StableSort.sliceStable (fun e e' => stringLess e.1 e'.1) entries).map
      fun e => e.1 ++ bytes "\t" ++ e.2) (bytes "\n")

def RuleKeyPart.header? : RuleKeyPart → Option (GoString × GoString)
  | .header k v => some (k, v)
  | _ => none

def RuleKeyPart.param? : RuleKeyPart → Option (GoString × GoString)
  | .param k v => some (k, v)
  | _ => none

def createRuleKey (annots : List (GoString × GoString)) (hostAndPath : GoString) : GoString :=
  let sep := bytes "\n\n"
  let parts := annots.map ruleKeyPart
  hostAndPath ++ sep ++
    ((lookup annots (higressAnnotationsPrefix ++ bytes "/" ++ matchMethod)).getD [] ++ sep ++
      ruleKeySection (parts.filterMap RuleKeyPart.header?) ++ sep ++
      ruleKeySection (parts.filterMap RuleKeyPart.param?) ++ sep)

/-- Within one ingress the rule key tells apart exactly what the path format
does. -/
theorem createRuleKey_inj (annots : List (GoString × GoString)) (p q : GoString) :
    createRuleKey annots p = createRuleKey annots q ↔ p = q := by
  simp only [createRuleKey, List.append_assoc]
  exact List.append_left_inj _

/-! ### The state of a conversion -/

/-- `Event`, as far as the conversion of routes raises it. -/
inductive Event
  | normal
  | invalidBackendService
  | duplicatedRoute
  | portNameResolveError
  deriving DecidableEq

structure BackendService where
  «namespace» : GoString
  name : GoString
  port : ℕ
  weight : ℤ
  deriving DecidableEq

structure IngressRouteBuilder where
  clusterId : GoString
  routeName : GoString
  host : GoString
  pathType : GoString
  path : GoString
  serviceList : List BackendService := []
  portName : GoString := []
  event : Event := .normal
  ingress : Config
  preIngress : Option Config := none

/-- `model.IngressRoute`, the report about one route. -/
structure IngressRoute where
  name : GoString
  host : GoString
  path : GoString
  pathType : GoString
  multiple : Bool
  serviceList : List BackendService
  serviceName : GoString
  error : GoString

def getClusterId (annots : List (GoString × GoString)) : GoString :=
  (lookup annots (bytes "internal.higress.io/cluster-id")).getD []

/-- `Build`. The message for a repeated route names the ingress that came
first; a builder with that event always knows it. -/
def IngressRouteBuilder.build (i : IngressRouteBuilder) : IngressRoute :=
  let place := bytes "host " ++ i.host ++ bytes " and path " ++ i.path
  let origin := fun cfg : Config => cfg.namespace ++ bytes "/" ++ cfg.name
  { name := i.routeName
    host := i.host
    path := i.path
    pathType := i.pathType
    multiple := 1 < i.serviceList.length
    serviceList := i.serviceList
    serviceName := ((i.serviceList.head?).map BackendService.name).getD []
    error := match i.event with
      | .duplicatedRoute =>
          place ++ bytes " in ingress " ++ origin i.ingress ++ bytes " within cluster " ++
            i.clusterId ++ bytes " is already defined in ingress " ++
            ((i.preIngress.map fun pre => origin pre ++ bytes " within cluster " ++
              getClusterId pre.annotations).getD [])
      | .invalidBackendService =>
          bytes "backend service of " ++ place ++ bytes " is invalid defined in ingress " ++
            origin i.ingress ++ bytes " within cluster " ++ i.clusterId
      | .portNameResolveError =>
          bytes "service port name " ++ i.portName ++ bytes " of " ++ place ++
            bytes " resolves error defined in ingress " ++ origin i.ingress ++
            bytes " within cluster " ++ i.clusterId
      | .normal => [] }

structure IngressRouteCache where
  routes : GoString → Option IngressRouteBuilder := fun _ => none
  invalid : List IngressRoute := []

def IngressRouteCache.add (cache : IngressRouteCache) (builder : IngressRouteBuilder) :
    IngressRouteCache :=
  if builder.event ≠ .normal then
    { cache with
      invalid := cache.invalid ++
        [IngressRouteBuilder.build { builder with routeName := bytes "invalid-route" }] }
  else
    { cache with routes := Function.update cache.routes builder.routeName (some builder) }

/-- A TLS passthrough route: the hosts it matches and where it leads. -/
structure TLSRoute where
  sniHosts : List GoString
  route : List (Destination × ℤ)
  deriving DecidableEq

structure WrapperVirtualService where
  hosts : List GoString
  wrapperConfig : WrapperConfig
  configuredDefaultBackend : Bool := false
  appRoot : GoString := []
  tls : List TLSRoute := []

def wildcardHost (host : GoString) : GoString := if host = [] then bytes "*" else host

def newWrapperVirtualService (host : GoString) (wrapper : WrapperConfig) : WrapperVirtualService :=
  { hosts := [wildcardHost host], wrapperConfig := wrapper }

def WrapperVirtualService.hasTLSRouteForHost (w : WrapperVirtualService) (host : GoString) : Bool :=
  w.tls.any fun r => r.sniHosts.any fun sniHost => wildcardHost sniHost == wildcardHost host

/-- `ConvertOptions`, as far as routes are concerned. Go maps are functions;
the owner map is iterated, so it is a list of entries, with `none` for nil. -/
structure ConvertOptions where
  route2Ingress : GoString → Option (Config × GoString) := fun _ => none
  ingressRouteCache : IngressRouteCache := {}
  virtualServices : GoString → Option WrapperVirtualService := fun _ => none
  httpRoutes : GoString → Option (List WrapperHTTPRoute) := fun _ => none
  canaryIngresses : List WrapperConfig := []
  passthroughTLSHostOwners : Option (List (GoString × Config)) := none
  hasDefaultBackend : Bool := false

/-- What the controller contributes: its cluster, the namespace of the control
plane, the domain of service names and the lookup of named ports. -/
structure Controller where
  clusterId : GoString
  systemNamespace : GoString
  domainSuffix : GoString
  resolveNamedPort : IngressServiceBackend → GoString → Option ℕ

/-! ### From a path to a route -/

def createServiceFQDN (c : Controller) (ns name : GoString) : GoString :=
  name ++ bytes "." ++ ns ++ bytes ".svc." ++
    (if c.domainSuffix = [] then bytes "cluster.local" else c.domainSuffix)

/-- The backend check: the destinations, the event and what the builder learns
about the port and the service. -/
structure BackendCheck where
  route : List HTTPRouteDestination := []
  event : Event
  portName : GoString := []
  serviceList : List BackendService := []

def backendToRouteDestination (c : Controller) (backend : IngressBackend) (ns : GoString)
    (config : Option DestinationConfig) : BackendCheck :=
  match backend.service with
  | none =>
      if backend.resource then
        match config with
        | some config => { route := config.mcpDestination, event := .normal }
        | none => { event := .invalidBackendService }
      else { event := .invalidBackendService }
  | some service =>
      let port := if service.port.number > 0 then some service.port.number.toNat
        else c.resolveNamedPort service ns
      match port with
      | none => { event := .portNameResolveError, portName := service.port.name }
      | some port =>
          { route := [{ destination := ⟨createServiceFQDN c ns service.name, port⟩, weight := 100 }]
            event := .normal
            portName := service.port.name
            serviceList := [⟨ns, service.name, port, 100⟩] }

/-- The path type and the origin path of a path of an ingress. -/
def pathTypeOf (a : Annotations) (httpPath : HTTPIngressPath) : PathType × GoString :=
  if a.needRegexMatch httpPath.path then
    if a.isFullPathRegexMatch then (.fullPathRegex, httpPath.path)
    else (.prefixRegex, httpPath.path)
  else
    match httpPath.pathType.getD .prefixPath with
    | .exact => (.exact, httpPath.path)
    | .prefixPath =>
        if httpPath.path ≠ bytes "/" then
          (.prefixPath, Strings.trimSuffix httpPath.path (bytes "/"))
        else (.prefixPath, httpPath.path)
    | .implementationSpecific => (.unset, httpPath.path)

/-- `generateHttpMatches`, its result. A prefix path other than the root is
matched exactly and below. -/
def generateHttpMatches (pathType : PathType) (path : GoString) : List HTTPMatchRequest :=
  match pathType with
  | .prefixRegex => [{ uri := some (.regex (path ++ bytes ".*")) }]
  | .fullPathRegex => [{ uri := some (.regex (path ++ bytes "$")) }]
  | .exact => [{ uri := some (.exact path) }]
  | .prefixPath =>
      if path = bytes "/" then [{ uri := some (.prefixed path) }]
      else
        let newPath := Strings.trimSuffix path (bytes "/")
        [{ uri := some (.exact newPath) }, { uri := some (.prefixed (newPath ++ bytes "/")) }]
  | .unset => [{}]

def generateUniqueRouteName (defaultNs : GoString) (wrapper : WrapperConfig) : GoString :=
  if wrapper.config.namespace = defaultNs then wrapper.config.name
  else Strings.join [wrapper.config.namespace, wrapper.config.name] (bytes "/")

/-- The route that the conversion builds for one path of a rule, the backend
check apart. -/
def wrapperHttpRouteOf (c : Controller) (wrapper : WrapperConfig) (host : GoString)
    (httpPath : HTTPIngressPath) : WrapperHTTPRoute :=
  let a := wrapper.annotationsConfig
  let (pathType, originPath) := pathTypeOf a httpPath
  let route : WrapperHTTPRoute :=
    { httpRoute :=
        { name := generateUniqueRouteName c.systemNamespace wrapper
          «match» := generateHttpMatches pathType httpPath.path
          route := (backendToRouteDestination c httpPath.backend wrapper.config.namespace
            a.destination).route }
      wrapperConfig := wrapper
      clusterId := c.clusterId
      host := host
      originPath := originPath
      originPathType := pathType
      weightTotal := toInt32 ((a.destination.map DestinationConfig.weightSum).getD 0) }
  { route with ruleKey := createRuleKey wrapper.config.annotations route.pathFormat }

def IngressRouteCache.new (route : WrapperHTTPRoute) : IngressRouteBuilder :=
  { clusterId := route.clusterId
    routeName := route.httpRoute.name
    path := route.originPath
    pathType := route.originPathType.text
    host := route.host
    ingress := route.wrapperConfig.config }

/-! ### Converting an ingress -/

/-- The variables of the loops over the rules and paths of one ingress. -/
structure LoopState where
  options : ConvertOptions
  definedRules : List GoString := []
  tempRuleKey : List GoString := []
  wrapperHttpRoutes : List WrapperHTTPRoute := []

/-- The body of the loop over the paths of a rule. -/
def convertPath (c : Controller) (wrapper : WrapperConfig) (host : GoString) (st : LoopState)
    (httpPath : HTTPIngressPath) : LoopState :=
  let route := wrapperHttpRouteOf c wrapper host httpPath
  let options :=
    -- a root prefix path configures the default backend of its host
    if route.originPathType = .prefixPath ∧ httpPath.path = bytes "/" then
      { st.options with
        virtualServices := Function.update st.options.virtualServices host
          ((st.options.virtualServices host).map fun vs =>
            { vs with configuredDefaultBackend := true }) }
    else st.options
  let builder := IngressRouteCache.new route
  let builder := match options.route2Ingress route.ruleKey with
    | some pre => { builder with preIngress := some pre.1, event := .duplicatedRoute }
    | none => builder
  let pathFormat := route.pathFormat
  -- two duplicated rules in the same ingress
  let (builder, definedRules) :=
    if builder.event = .normal then
      (if st.definedRules.contains pathFormat then
          { builder with preIngress := some wrapper.config, event := .duplicatedRoute }
        else builder, st.definedRules ++ [pathFormat])
    else (builder, st.definedRules)
  let check := backendToRouteDestination c httpPath.backend wrapper.config.namespace
    wrapper.annotationsConfig.destination
  let event := if builder.event ≠ .normal then builder.event else check.event
  let builder := { builder with
    event := event, portName := check.portName, serviceList := check.serviceList }
  { options := { options with ingressRouteCache := options.ingressRouteCache.add builder }
    definedRules := definedRules
    tempRuleKey := st.tempRuleKey ++ [route.ruleKey]
    wrapperHttpRoutes :=
      if event = .normal then st.wrapperHttpRoutes ++ [route] else st.wrapperHttpRoutes }

/-- The loop that publishes the rule keys of the ingress after each rule. -/
def publishRuleKeys (cfg : Config) (route2Ingress : GoString → Option (Config × GoString))
    (tempRuleKey : List GoString) : GoString → Option (Config × GoString) :=
  tempRuleKey.foldl (fun m item =>
    match m item with
    | some val => if val.2 ≠ item then Function.update m item (some (cfg, item)) else m
    | none => Function.update m item (some (cfg, item))) route2Ingress

/-- The body of the loop over the rules of an ingress. -/
def convertRule (c : Controller) (wrapper : WrapperConfig) (st : LoopState) (rule : IngressRule) :
    LoopState :=
  if rule.paths = [] then st
  else
    let vs := (st.options.virtualServices rule.host).getD
      (newWrapperVirtualService rule.host wrapper)
    let vs := if wrapper.annotationsConfig.appRoot ≠ [] then
      { vs with appRoot := wrapper.annotationsConfig.appRoot } else vs
    let st := { st with
      options := { st.options with
        virtualServices := Function.update st.options.virtualServices rule.host (some vs) }
      wrapperHttpRoutes := [] }
    let st := rule.paths.foldl (convertPath c wrapper rule.host) st
    { st with
      options := { st.options with
        route2Ingress := publishRuleKeys wrapper.config st.options.route2Ingress st.tempRuleKey
        httpRoutes := Function.update st.options.httpRoutes rule.host
          (some ((st.options.httpRoutes rule.host).getD [] ++ st.wrapperHttpRoutes)) } }

def sameConfig (left right : Config) : Bool :=
  getClusterId left.annotations == getClusterId right.annotations &&
    left.namespace == right.namespace && left.name == right.name

def ownerOf (owners : List (GoString × Config)) (host : GoString) : Option Config :=
  (owners.find? fun entry => entry.1 == host).map Prod.snd

def isPassthroughTLSHostOwner (o : ConvertOptions) (cfg : Config) (host : GoString) : Bool :=
  match o.passthroughTLSHostOwners with
  | none => true
  | some owners => ((ownerOf owners host).map fun owner => sameConfig owner cfg).getD false

def hasPassthroughTLSHostOwner (o : ConvertOptions) (cfg : Config) : Bool :=
  match o.passthroughTLSHostOwners with
  | none => false
  | some owners => owners.any fun entry => sameConfig entry.2 cfg

/-- `backendToTLSRouteDestination`, the destinations with their weights. -/
def backendToTLSRouteDestination (c : Controller) (backend : IngressBackend) (ns : GoString)
    (config : Option DestinationConfig) : Option (List (Destination × ℤ)) :=
  match backend.service with
  | none =>
      match config with
      | some config =>
          if config.mcpDestination = [] then none
          else some (config.mcpDestination.map fun d => (d.destination, d.weight))
      | none => none
  | some service =>
      let port := if service.port.number > 0 then some service.port.number.toNat
        else c.resolveNamedPort service ns
      port.map fun port => [(⟨createServiceFQDN c ns service.name, port⟩, 100)]

def rootHTTPIngressPath (paths : List HTTPIngressPath) : Option HTTPIngressPath :=
  paths.find? fun p => p.path == [] || p.path == bytes "/"

/-- The body of the loop of `ConvertTLSRoute`. -/
def convertTLSRule (c : Controller) (wrapper : WrapperConfig) (o : ConvertOptions)
    (rule : IngressRule) : ConvertOptions :=
  if isPassthroughTLSHostOwner o wrapper.config rule.host then
    match rootHTTPIngressPath rule.paths with
    | none => o
    | some httpPath =>
        let known := o.virtualServices rule.host
        if ((known.map fun vs => vs.hasTLSRouteForHost rule.host).getD false) then o
        else
          let vs := known.getD (newWrapperVirtualService rule.host wrapper)
          let vs := match backendToTLSRouteDestination c httpPath.backend wrapper.config.namespace
              wrapper.annotationsConfig.destination with
            | some route => { vs with tls := vs.tls ++ [⟨[wildcardHost rule.host], route⟩] }
            | none => vs
          { o with virtualServices := Function.update o.virtualServices rule.host (some vs) }
  else o

def emptyRuleError (c : Controller) (cfg : Config) (missing : GoString) : GoString :=
  bytes "invalid ingress rule " ++ cfg.namespace ++ bytes ":" ++ cfg.name ++
    bytes " in cluster " ++ c.clusterId ++ missing

def specTypeError (c : Controller) : GoString :=
  bytes "convert type is invalid in cluster " ++ c.clusterId

def convertTLSRoute (c : Controller) (o : ConvertOptions) (wrapper : WrapperConfig) :
    ConvertOptions × Option GoString :=
  match wrapper.config.spec with
  | none => (o, some (specTypeError c))
  | some spec =>
      if spec.rules = [] then
        (o, some (emptyRuleError c wrapper.config (bytes ", `rules` must be specified")))
      else (spec.rules.foldl (convertTLSRule c wrapper) o, none)

def declaresDefaultBackend (spec : IngressSpec) : Bool :=
  match spec.defaultBackend with
  | none => false
  | some backend => ((backend.service.map fun s => s.name != []).getD false) || backend.resource

/-- `ConvertHTTPRoute`: the options it leaves and the error it returns. -/
def convertHTTPRoute (c : Controller) (o : ConvertOptions) (wrapper : WrapperConfig) :
    ConvertOptions × Option GoString :=
  if wrapper.annotationsConfig.isCanary then
    ({ o with canaryIngresses := o.canaryIngresses ++ [wrapper] }, none)
  else
    match wrapper.config.spec with
    | none => (o, some (specTypeError c))
    | some spec =>
        if spec.rules = [] ∧ spec.defaultBackend = none then
          (o, some (emptyRuleError c wrapper.config
            (bytes ", either `defaultBackend` or `rules` must be specified")))
        else
          let o := { o with hasDefaultBackend := o.hasDefaultBackend || declaresDefaultBackend spec }
          let st := spec.rules.foldl (convertRule c wrapper) { options := o }
          if hasPassthroughTLSHostOwner st.options wrapper.config ||
              (st.options.passthroughTLSHostOwners.isNone &&
                wrapper.annotationsConfig.sslPassthrough) then
            convertTLSRoute c st.options wrapper
          else (st.options, none)

/-- The ingresses are fed to the conversion one by one; a failed one is logged
and the next one follows. -/
def convertAll (c : Controller) (o : ConvertOptions) (wrappers : List WrapperConfig) :
    ConvertOptions :=
  wrappers.foldl (fun o wrapper => (convertHTTPRoute c o wrapper).1) o

/-! ### First wins -/

/-- One path of one rule of an ingress, as the conversion meets it. -/
structure Entry where
  wrapper : WrapperConfig
  host : GoString
  httpPath : HTTPIngressPath

def Entry.route (c : Controller) (e : Entry) : WrapperHTTPRoute :=
  wrapperHttpRouteOf c e.wrapper e.host e.httpPath

def Entry.ruleKey (c : Controller) (e : Entry) : GoString := (e.route c).ruleKey

/-- The entry's own backend check is `Normal`. -/
def Entry.backendNormal (c : Controller) (e : Entry) : Prop :=
  (backendToRouteDestination c e.httpPath.backend e.wrapper.config.namespace
    e.wrapper.annotationsConfig.destination).event = .normal

instance (c : Controller) (e : Entry) : Decidable (e.backendNormal c) :=
  inferInstanceAs (Decidable (_ = _))

def ruleEntries (wrapper : WrapperConfig) (rule : IngressRule) : List Entry :=
  rule.paths.map fun httpPath => ⟨wrapper, rule.host, httpPath⟩

/-- The entries of an ingress in processing order. A canary ingress is put
aside and contributes none. -/
def entriesOf (wrapper : WrapperConfig) : List Entry :=
  if wrapper.annotationsConfig.isCanary then []
  else ((wrapper.config.spec.map IngressSpec.rules).getD []).flatMap (ruleEntries wrapper)

/-- The accepted ones of `entries` when `earlier` came before them: those whose
rule key no earlier entry has and whose backend check is `Normal`. -/
def acceptedAfter (c : Controller) : List Entry → List Entry → List Entry
  | _, [] => []
  | earlier, e :: entries =>
      if (∀ e' ∈ earlier, e'.ruleKey c ≠ e.ruleKey c) ∧ e.backendNormal c then
        e :: acceptedAfter c (earlier ++ [e]) entries
      else acceptedAfter c (earlier ++ [e]) entries

theorem acceptedAfter_append (c : Controller) (earlier es es' : List Entry) :
    acceptedAfter c earlier (es ++ es') =
      acceptedAfter c earlier es ++ acceptedAfter c (earlier ++ es) es' := by
  induction es generalizing earlier with
  | nil => simp [acceptedAfter]
  | cons e es ih =>
      simp only [List.cons_append, acceptedAfter, ih]
      split <;> simp

theorem mem_of_mem_acceptedAfter {c : Controller} {earlier es : List Entry} {e : Entry}
    (h : e ∈ acceptedAfter c earlier es) :
    e ∈ es ∧ ∀ e' ∈ earlier, e'.ruleKey c ≠ e.ruleKey c := by
  induction es generalizing earlier with
  | nil => simp [acceptedAfter] at h
  | cons x es ih =>
      rw [acceptedAfter] at h
      split at h
      · rename_i hx
        rcases List.mem_cons.mp h with rfl | h
        · exact ⟨List.mem_cons_self, hx.1⟩
        · obtain ⟨hmem, hkeys⟩ := ih h
          exact ⟨List.mem_cons_of_mem _ hmem, fun e' he' => hkeys e' (by simp [he'])⟩
      · obtain ⟨hmem, hkeys⟩ := ih h
        exact ⟨List.mem_cons_of_mem _ hmem, fun e' he' => hkeys e' (by simp [he'])⟩

section

variable (c : Controller) (wrapper : WrapperConfig) (host : GoString)

theorem ruleKey_eq (httpPath : HTTPIngressPath) :
    (wrapperHttpRouteOf c wrapper host httpPath).ruleKey =
      createRuleKey wrapper.config.annotations
        (wrapperHttpRouteOf c wrapper host httpPath).pathFormat := rfl

/-- What one path does to the variables of the loops. The event of the builder
is no longer visible: it decided between these updates. -/
theorem convertPath_spec (st : LoopState) (httpPath : HTTPIngressPath) :
    let e : Entry := ⟨wrapper, host, httpPath⟩
    let st' := convertPath c wrapper host st httpPath
    st'.options.route2Ingress = st.options.route2Ingress ∧
      st'.options.httpRoutes = st.options.httpRoutes ∧
      st'.tempRuleKey = st.tempRuleKey ++ [e.ruleKey c] ∧
      st'.definedRules =
        (if (st.options.route2Ingress (e.ruleKey c)).isSome then st.definedRules
          else st.definedRules ++ [(e.route c).pathFormat]) ∧
      st'.wrapperHttpRoutes =
        (if (st.options.route2Ingress (e.ruleKey c)).isNone ∧
            (e.route c).pathFormat ∉ st.definedRules ∧ e.backendNormal c then
          st.wrapperHttpRoutes ++ [e.route c] else st.wrapperHttpRoutes) := by
  intro e st'
  simp only [st', convertPath, apply_ite ConvertOptions.route2Ingress,
    apply_ite ConvertOptions.httpRoutes, ite_self, true_and]
  refine ⟨rfl, ?_, ?_⟩
  · cases h : st.options.route2Ingress (wrapperHttpRouteOf c wrapper host httpPath).ruleKey with
    | some pre => simp [e, Entry.ruleKey, Entry.route, h]
    | none => simp [e, Entry.ruleKey, Entry.route, h, IngressRouteCache.new]
  · cases h : st.options.route2Ingress (wrapperHttpRouteOf c wrapper host httpPath).ruleKey with
    | some pre => simp [e, Entry.ruleKey, Entry.route, h]
    | none =>
        by_cases hd : (wrapperHttpRouteOf c wrapper host httpPath).pathFormat ∈ st.definedRules
        · simp [e, Entry.ruleKey, Entry.route, h, hd, IngressRouteCache.new]
        · simp [e, Entry.ruleKey, Entry.route, Entry.backendNormal, h, hd, IngressRouteCache.new]

end

theorem publishRuleKeys_isSome (cfg : Config) (m : GoString → Option (Config × GoString))
    (keys : List GoString) (k : GoString) :
    (publishRuleKeys cfg m keys k).isSome ↔ (m k).isSome ∨ k ∈ keys := by
  induction keys generalizing m with
  | nil => simp [publishRuleKeys]
  | cons item keys ih =>
      rw [publishRuleKeys, List.foldl_cons, ← publishRuleKeys, ih]
      have hupdate : (Function.update m item (some (cfg, item)) k).isSome ↔
          (m k).isSome ∨ k = item := by
        by_cases hk : k = item
        · simp [hk]
        · simp [hk]
      cases hm : m item with
      | none => simp only [hupdate, List.mem_cons]; tauto
      | some val =>
          by_cases hval : val.2 ≠ item
          · simp only [hval, ne_eq, not_false_eq_true, if_true, hupdate, List.mem_cons]; tauto
          · have hitem : k = item → (m k).isSome := by rintro rfl; simp [hm]
            simp only [hval, if_false, List.mem_cons]; tauto

/-- The invariant between two ingresses: the published rule keys are those of
all earlier entries. -/
def Published (c : Controller) (earlier : List Entry) (o : ConvertOptions) : Prop :=
  ∀ k, (o.route2Ingress k).isSome ↔ ∃ e ∈ earlier, e.ruleKey c = k

/-- The invariant between two rules: what the ingress remembers of itself
concerns earlier entries too. -/
structure RuleInv (c : Controller) (wrapper : WrapperConfig) (earlier : List Entry)
    (st : LoopState) : Prop where
  published : Published c earlier st.options
  defined : ∀ p ∈ st.definedRules,
    ∃ e ∈ earlier, e.wrapper = wrapper ∧ (e.route c).pathFormat = p
  temp : ∀ k ∈ st.tempRuleKey, ∃ e ∈ earlier, e.ruleKey c = k

/-- The invariant inside a rule. `earlier` came before the rule and `done` are
its paths so far, whose keys are not published yet; each of them is found
either among the published keys or among the defined paths. -/
structure PathInv (c : Controller) (wrapper : WrapperConfig) (earlier done : List Entry)
    (start st : LoopState) : Prop where
  route2Ingress : st.options.route2Ingress = start.options.route2Ingress
  httpRoutes : st.options.httpRoutes = start.options.httpRoutes
  temp : st.tempRuleKey = start.tempRuleKey ++ done.map (Entry.ruleKey c)
  defined : ∀ p ∈ st.definedRules,
    ∃ e ∈ earlier ++ done, e.wrapper = wrapper ∧ (e.route c).pathFormat = p
  found : ∀ e ∈ done, (st.options.route2Ingress (e.ruleKey c)).isSome ∨
    (e.route c).pathFormat ∈ st.definedRules
  own : ∀ e ∈ done, e.wrapper = wrapper
  accepted : st.wrapperHttpRoutes =
    start.wrapperHttpRoutes ++ (acceptedAfter c earlier done).map (Entry.route c)

/-- Two entries of one ingress have the same rule key exactly when they have
the same path format. -/
theorem ruleKey_eq_iff {c : Controller} {wrapper : WrapperConfig} {e e' : Entry}
    (he : e.wrapper = wrapper) (he' : e'.wrapper = wrapper) :
    e.ruleKey c = e'.ruleKey c ↔ (e.route c).pathFormat = (e'.route c).pathFormat := by
  subst he
  have h := createRuleKey_inj e.wrapper.config.annotations (e.route c).pathFormat
    (e'.route c).pathFormat
  rw [← h]
  unfold Entry.ruleKey Entry.route
  rw [ruleKey_eq, ruleKey_eq, he']

/-- Inside a rule the three structures together know all earlier rule keys. -/
theorem PathInv.fresh_iff {c : Controller} {wrapper : WrapperConfig} {earlier done : List Entry}
    {start st : LoopState}
    (hpub : Published c earlier start.options)
    (h : PathInv c wrapper earlier done start st) {e : Entry} (he : e.wrapper = wrapper) :
    ((st.options.route2Ingress (e.ruleKey c)).isNone ∧
        (e.route c).pathFormat ∉ st.definedRules) ↔
      ∀ e' ∈ earlier ++ done, e'.ruleKey c ≠ e.ruleKey c := by
  constructor
  · rintro ⟨hnone, hnot⟩ e' he' heq
    rcases List.mem_append.mp he' with he' | he'
    · have hsome := (hpub (e.ruleKey c)).mpr ⟨e', he', heq⟩
      rw [← h.route2Ingress] at hsome
      simp_all
    · rcases h.found e' he' with hsome | hmem
      · rw [heq] at hsome
        simp_all
      · rw [(ruleKey_eq_iff (h.own e' he') he).mp heq] at hmem
        exact hnot hmem
  · intro hall
    constructor
    · by_contra hsome
      have hsome' : (start.options.route2Ingress (e.ruleKey c)).isSome := by
        rw [← h.route2Ingress]
        simpa [Option.isSome_iff_ne_none] using hsome
      obtain ⟨e', he', heq⟩ := (hpub _).mp hsome'
      exact hall e' (List.mem_append_left _ he') heq
    · intro hmem
      obtain ⟨e', he', hw, hp⟩ := h.defined _ hmem
      exact hall e' he' ((ruleKey_eq_iff hw he).mpr hp)

/-- One path keeps the invariant of the rule. -/
theorem PathInv.step {c : Controller} {wrapper : WrapperConfig} {earlier done : List Entry}
    {start st : LoopState}
    (hpub : Published c earlier start.options)
    (h : PathInv c wrapper earlier done start st) (host : GoString) (httpPath : HTTPIngressPath) :
    PathInv c wrapper earlier (done ++ [⟨wrapper, host, httpPath⟩]) start
      (convertPath c wrapper host st httpPath) := by
  obtain ⟨hr2i, hroutes, htemp, hdefined, haccepted⟩ := convertPath_spec c wrapper host st httpPath
  set e : Entry := ⟨wrapper, host, httpPath⟩ with hedef
  have hfresh := h.fresh_iff hpub (e := e) rfl
  refine ⟨hr2i.trans h.route2Ingress, hroutes.trans h.httpRoutes, ?_, ?_, ?_, ?_, ?_⟩
  · rw [htemp, h.temp]
    simp
  · intro p hp
    rw [hdefined] at hp
    have hmem : p ∈ st.definedRules ∨ p = (e.route c).pathFormat := by
      split at hp
      · exact Or.inl hp
      · simpa using hp
    rcases hmem with hp | rfl
    · obtain ⟨e', he', hw, hf⟩ := h.defined p hp
      exact ⟨e', by rw [← List.append_assoc]; exact List.mem_append_left _ he', hw, hf⟩
    · exact ⟨e, by simp, rfl, rfl⟩
  · intro e' he'
    rw [hr2i, hdefined]
    rcases List.mem_append.mp he' with he' | he'
    · refine (h.found e' he').imp_right fun hmem => ?_
      split
      · exact hmem
      · exact List.mem_append_left _ hmem
    · obtain rfl : e' = e := by simpa using he'
      by_cases hsome : (st.options.route2Ingress (e.ruleKey c)).isSome
      · exact Or.inl hsome
      · exact Or.inr (by simp [hsome])
  · intro e' he'
    rcases List.mem_append.mp he' with he' | he'
    · exact h.own e' he'
    · obtain rfl : e' = e := by simpa using he'
      rfl
  · rw [haccepted, h.accepted, acceptedAfter_append]
    simp only [← and_assoc, hfresh, acceptedAfter]
    split <;> simp

theorem PathInv.run {c : Controller} {wrapper : WrapperConfig} {earlier done : List Entry}
    {start st : LoopState}
    (hpub : Published c earlier start.options)
    (h : PathInv c wrapper earlier done start st) (host : GoString)
    (paths : List HTTPIngressPath) :
    PathInv c wrapper earlier (done ++ paths.map fun httpPath => ⟨wrapper, host, httpPath⟩) start
      (paths.foldl (convertPath c wrapper host) st) := by
  induction paths generalizing done st with
  | nil => simpa using h
  | cons p paths ih =>
      rw [List.foldl_cons, List.map_cons,
        show done ++ (⟨wrapper, host, p⟩ : Entry) :: paths.map (fun httpPath =>
            (⟨wrapper, host, httpPath⟩ : Entry)) =
          done ++ [⟨wrapper, host, p⟩] ++ paths.map (fun httpPath =>
            (⟨wrapper, host, httpPath⟩ : Entry)) by simp]
      exact ih (h.step hpub host p)

/-- The routes of a host, as the readers of the map see them. -/
def ConvertOptions.routesOf (o : ConvertOptions) (host : GoString) : List WrapperHTTPRoute :=
  (o.httpRoutes host).getD []

/-- The accepted routes that belong to a host. -/
def hostRoutes (c : Controller) (host : GoString) (es : List Entry) : List WrapperHTTPRoute :=
  (es.filter fun e => e.host = host).map (Entry.route c)

/-- One rule keeps the invariant and appends its accepted routes to its host. -/
theorem RuleInv.step {c : Controller} {wrapper : WrapperConfig} {earlier : List Entry}
    {st : LoopState} (h : RuleInv c wrapper earlier st) (rule : IngressRule) :
    RuleInv c wrapper (earlier ++ ruleEntries wrapper rule) (convertRule c wrapper st rule) ∧
      ∀ host, (convertRule c wrapper st rule).options.routesOf host =
        st.options.routesOf host ++
          hostRoutes c host (acceptedAfter c earlier (ruleEntries wrapper rule)) := by
  unfold convertRule
  split
  · rename_i hempty
    refine ⟨by simpa [ruleEntries, hempty] using h, fun host => ?_⟩
    simp [ruleEntries, hempty, acceptedAfter, hostRoutes]
  · extract_lets vs vs' options start after
    have hstart : PathInv c wrapper earlier [] start start :=
      ⟨rfl, rfl, by simp, by simpa using h.defined, by simp, by simp, by simp [acceptedAfter]⟩
    have hrun : PathInv c wrapper earlier (ruleEntries wrapper rule) start after := by
      simpa [ruleEntries] using hstart.run
        (show Published c earlier start.options from h.published) rule.host rule.paths
    refine ⟨⟨fun k => ?_, fun p hp => ?_, fun k hk => ?_⟩, fun host => ?_⟩
    · rw [publishRuleKeys_isSome, hrun.route2Ingress, h.published k, hrun.temp]
      constructor
      · rintro (⟨e, he, rfl⟩ | hk)
        · exact ⟨e, List.mem_append_left _ he, rfl⟩
        · rcases List.mem_append.mp hk with hk | hk
          · obtain ⟨e, he, rfl⟩ := h.temp k hk
            exact ⟨e, List.mem_append_left _ he, rfl⟩
          · obtain ⟨e, he, rfl⟩ := List.mem_map.mp hk
            exact ⟨e, List.mem_append_right _ he, rfl⟩
      · rintro ⟨e, he, rfl⟩
        rcases List.mem_append.mp he with he | he
        · exact Or.inl ⟨e, he, rfl⟩
        · exact Or.inr (List.mem_append_right _ (List.mem_map.mpr ⟨e, he, rfl⟩))
    · exact hrun.defined p hp
    · rw [show _ = start.tempRuleKey ++ _ from hrun.temp] at hk
      rcases List.mem_append.mp hk with hk | hk
      · obtain ⟨e, he, rfl⟩ := h.temp k hk
        exact ⟨e, List.mem_append_left _ he, rfl⟩
      · obtain ⟨e, he, rfl⟩ := List.mem_map.mp hk
        exact ⟨e, List.mem_append_right _ he, rfl⟩
    · -- every entry of the rule belongs to the rule's host
      have hhost : ∀ e ∈ acceptedAfter c earlier (ruleEntries wrapper rule), e.host = rule.host := by
        intro e he
        obtain ⟨p, -, rfl⟩ := List.mem_map.mp (mem_of_mem_acceptedAfter he).1
        rfl
      unfold ConvertOptions.routesOf hostRoutes
      rw [hrun.httpRoutes, hrun.accepted]
      by_cases hh : host = rule.host
      · subst hh
        rw [List.filter_eq_self.mpr (by simpa using hhost)]
        simp [start, options]
      · rw [List.filter_eq_nil_iff.mpr (fun e he => by simp [hhost e he, Ne.symm hh])]
        simp [start, options, hh]

theorem RuleInv.run {c : Controller} {wrapper : WrapperConfig} {earlier : List Entry}
    {st : LoopState} (h : RuleInv c wrapper earlier st) (rules : List IngressRule) :
    RuleInv c wrapper (earlier ++ rules.flatMap (ruleEntries wrapper))
        (rules.foldl (convertRule c wrapper) st) ∧
      ∀ host, (rules.foldl (convertRule c wrapper) st).options.routesOf host =
        st.options.routesOf host ++ hostRoutes c host
          (acceptedAfter c earlier (rules.flatMap (ruleEntries wrapper))) := by
  induction rules generalizing earlier st with
  | nil => exact ⟨by simpa using h, by simp [acceptedAfter, hostRoutes]⟩
  | cons rule rules ih =>
      obtain ⟨hinv, hroutes⟩ := h.step rule
      obtain ⟨hinv', hroutes'⟩ := ih hinv
      refine ⟨by simpa using hinv', fun host => ?_⟩
      rw [List.foldl_cons, hroutes', hroutes, List.flatMap_cons, acceptedAfter_append]
      simp [hostRoutes]

/-- The conversion of TLS routes leaves HTTP routes and rule keys alone. -/
theorem convertTLSRoute_frame (c : Controller) (o : ConvertOptions) (wrapper : WrapperConfig) :
    (convertTLSRoute c o wrapper).1.httpRoutes = o.httpRoutes ∧
      (convertTLSRoute c o wrapper).1.route2Ingress = o.route2Ingress := by
  have hrule : ∀ (o : ConvertOptions) (rule : IngressRule),
      (convertTLSRule c wrapper o rule).httpRoutes = o.httpRoutes ∧
        (convertTLSRule c wrapper o rule).route2Ingress = o.route2Ingress := by
    intro o rule
    unfold convertTLSRule
    split
    · split
      · exact ⟨rfl, rfl⟩
      · dsimp only
        split <;> exact ⟨rfl, rfl⟩
    · exact ⟨rfl, rfl⟩
  have hrules : ∀ (rules : List IngressRule) (o : ConvertOptions),
      (rules.foldl (convertTLSRule c wrapper) o).httpRoutes = o.httpRoutes ∧
        (rules.foldl (convertTLSRule c wrapper) o).route2Ingress = o.route2Ingress := by
    intro rules
    induction rules with
    | nil => exact fun o => ⟨rfl, rfl⟩
    | cons rule rules ih =>
        intro o
        obtain ⟨hr, hk⟩ := ih (convertTLSRule c wrapper o rule)
        exact ⟨hr.trans (hrule o rule).1, hk.trans (hrule o rule).2⟩
  unfold convertTLSRoute
  split
  · exact ⟨rfl, rfl⟩
  · split
    · exact ⟨rfl, rfl⟩
    · exact hrules _ o

/-- One ingress keeps the invariant and appends its accepted routes. -/
theorem Published.step {c : Controller} {earlier : List Entry} {o : ConvertOptions}
    (h : Published c earlier o) (wrapper : WrapperConfig) :
    Published c (earlier ++ entriesOf wrapper) (convertHTTPRoute c o wrapper).1 ∧
      ∀ host, (convertHTTPRoute c o wrapper).1.routesOf host = o.routesOf host ++
        hostRoutes c host (acceptedAfter c earlier (entriesOf wrapper)) := by
  unfold convertHTTPRoute entriesOf
  split
  · exact ⟨by rw [List.append_nil]; exact h, fun host => by
      simp [acceptedAfter, hostRoutes, ConvertOptions.routesOf]⟩
  · split
    · rename_i hspec
      exact ⟨by simpa [hspec] using h, fun host => by
        simp [hspec, acceptedAfter, hostRoutes, ConvertOptions.routesOf]⟩
    · rename_i spec hspec
      simp only [hspec, Option.map_some, Option.getD_some]
      split
      · rename_i hempty
        exact ⟨by simpa [hempty.1] using h, fun host => by
          simp [hempty.1, acceptedAfter, hostRoutes, ConvertOptions.routesOf]⟩
      · set o' : ConvertOptions :=
          { o with hasDefaultBackend := o.hasDefaultBackend || declaresDefaultBackend spec }
        set st := spec.rules.foldl (convertRule c wrapper) { options := o' }
        have hstart : RuleInv c wrapper earlier { options := o' } :=
          ⟨h, by simp, by simp⟩
        obtain ⟨hinv, hroutes⟩ := hstart.run spec.rules
        split
        · obtain ⟨hr, hk⟩ := convertTLSRoute_frame c st.options wrapper
          refine ⟨fun k => by rw [hk]; exact hinv.published k, fun host => ?_⟩
          rw [ConvertOptions.routesOf, hr]
          exact hroutes host
        · exact ⟨hinv.published, hroutes⟩

theorem Published.run {c : Controller} {earlier : List Entry} {o : ConvertOptions}
    (h : Published c earlier o) (wrappers : List WrapperConfig) :
    Published c (earlier ++ wrappers.flatMap entriesOf) (convertAll c o wrappers) ∧
      ∀ host, (convertAll c o wrappers).routesOf host = o.routesOf host ++
        hostRoutes c host (acceptedAfter c earlier (wrappers.flatMap entriesOf)) := by
  induction wrappers generalizing earlier o with
  | nil => exact ⟨by simpa [convertAll] using h, by simp [convertAll, acceptedAfter, hostRoutes]⟩
  | cons wrapper wrappers ih =>
      obtain ⟨hpub, hroutes⟩ := h.step wrapper
      obtain ⟨hpub', hroutes'⟩ := ih hpub
      refine ⟨by simpa [convertAll] using hpub', fun host => ?_⟩
      rw [convertAll, List.foldl_cons, ← convertAll, hroutes', hroutes, List.flatMap_cons,
        acceptedAfter_append]
      simp [hostRoutes]

end Higress.Ingress
