import Mathlib.Data.Int.Notation
import Higress.Lib.GoString

/-!
The data model of the ingress pipeline: the Kubernetes ingress as the
controller reads it, the parsed annotations it carries, and the Istio routes
that are built from it. Of the generated Istio messages only the fields that
the modelled functions read or write are kept.
-/

namespace Higress.Ingress

open Higress.Lib

/-! ### Istio routes -/

/-- `networking.StringMatch` with its match type. -/
inductive StringMatch
  | exact (value : GoString)
  | prefixed (value : GoString)
  | regex (value : GoString)
  deriving DecidableEq

/-- `GetRegex`, which also answers for a nil match and for other match types. -/
def StringMatch.getRegex : Option StringMatch → GoString
  | some (.regex value) => value
  | _ => []

/-- `networking.HTTPMatchRequest`. The two Go maps are kept as lists of their
entries; a nil map and an empty one are not told apart by any reader. -/
structure HTTPMatchRequest where
  uri : Option StringMatch := none
  ignoreUriCase : Bool := false
  method : Option StringMatch := none
  headers : List (GoString × StringMatch) := []
  queryParams : List (GoString × StringMatch) := []
  deriving DecidableEq

structure HeaderOperations where
  add : List (GoString × GoString) := []
  set : List (GoString × GoString) := []
  remove : List GoString := []
  deriving DecidableEq

/-- `networking.Headers`. -/
structure Headers where
  request : HeaderOperations := {}
  response : HeaderOperations := {}
  deriving DecidableEq

structure Destination where
  host : GoString
  port : ℕ
  deriving DecidableEq

/-- `networking.HTTPRouteDestination`. -/
structure HTTPRouteDestination where
  destination : Destination
  weight : ℤ := 0
  headers : Option Headers := none
  fallbackClusters : List Destination := []
  deriving DecidableEq

/-- `networking.HTTPRoute`. -/
structure HTTPRoute where
  name : GoString := []
  «match» : List HTTPMatchRequest := []
  route : List HTTPRouteDestination := []
  headers : Option Headers := none
  deriving DecidableEq

/-! ### Annotations -/

structure RewriteConfig where
  rewriteTarget : GoString := []
  useRegex : Bool := false
  fullPathRegex : Bool := false
  deriving DecidableEq

structure CanaryConfig where
  enabled : Bool := false
  header : GoString := []
  headerValue : GoString := []
  headerPattern : GoString := []
  cookie : GoString := []
  weight : ℤ := 0
  weightTotal : ℤ := 0
  deriving DecidableEq

/-- The three match types an annotation key can name. -/
inductive MatchType
  | exact
  | prefixed
  | regex
  deriving DecidableEq

/-- `MatchConfig`. A nested map from match type to name to value is kept as the
list of its entries in iteration order; `none` is the nil map. -/
structure MatchConfig where
  methods : Option (List GoString) := none
  headers : Option (List (MatchType × GoString × GoString)) := none
  queryParams : Option (List (MatchType × GoString × GoString)) := none
  deriving DecidableEq

structure DestinationConfig where
  mcpDestination : List HTTPRouteDestination := []
  weightSum : ℤ := 0
  deriving DecidableEq

structure HeaderControlConfig where
  request : Option HeaderOperations := none
  response : Option HeaderOperations := none
  deriving DecidableEq

/-- `annotations.Ingress`, the parsed annotations of one ingress. -/
structure Annotations where
  rewrite : Option RewriteConfig := none
  appRoot : GoString := []
  sslPassthrough : Bool := false
  canary : Option CanaryConfig := none
  destination : Option DestinationConfig := none
  ignoreUriCase : Bool := false
  «match» : MatchConfig := {}
  headerControl : Option HeaderControlConfig := none
  deriving DecidableEq

def Annotations.isFullPathRegexMatch (a : Annotations) : Bool :=
  match a.rewrite with
  | some r => r.fullPathRegex
  | none => false

def Annotations.needRegexMatch (a : Annotations) (path : GoString) : Bool :=
  match a.rewrite with
  | none => false
  | some r =>
      (r.rewriteTarget != [] && Strings.containsAny path (bytes "\\.+*?()|[]\x7b\x7d^$")) ||
        Strings.containsAny r.rewriteTarget (bytes "$\\") || r.useRegex || r.fullPathRegex

def Annotations.isCanary (a : Annotations) : Bool :=
  match a.canary with
  | some c => c.enabled
  | none => false

/-- `CanaryKind`, its first result: the canary is selected by header or cookie. -/
def Annotations.canaryByHeader (a : Annotations) : Bool :=
  match a.canary with
  | some c => c.enabled && (c.header != [] || c.cookie != [])
  | none => false

/-! ### The Kubernetes ingress -/

inductive IngressPathType
  | exact
  | prefixPath
  | implementationSpecific
  deriving DecidableEq

structure ServiceBackendPort where
  name : GoString := []
  number : ℤ := 0
  deriving DecidableEq

structure IngressServiceBackend where
  name : GoString
  port : ServiceBackendPort := {}
  deriving DecidableEq

/-- `IngressBackend`; of the resource reference only its presence is read. -/
structure IngressBackend where
  service : Option IngressServiceBackend := none
  resource : Bool := false
  deriving DecidableEq

structure HTTPIngressPath where
  path : GoString
  pathType : Option IngressPathType := none
  backend : IngressBackend := {}
  deriving DecidableEq

/-- `IngressRule`; a rule without HTTP part and one without paths are treated
alike by every reader. -/
structure IngressRule where
  host : GoString
  paths : List HTTPIngressPath := []
  deriving DecidableEq

structure IngressTLS where
  hosts : List GoString := []
  secretName : GoString := []
  deriving DecidableEq

structure IngressSpec where
  rules : List IngressRule := []
  defaultBackend : Option IngressBackend := none
  tls : List IngressTLS := []
  deriving DecidableEq

/-- `config.Config` of an ingress. The annotation map is the list of its
entries in iteration order; a spec of another type is `none`. -/
structure Config where
  name : GoString
  «namespace» : GoString
  annotations : List (GoString × GoString) := []
  spec : Option IngressSpec := some {}
  deriving DecidableEq

structure WrapperConfig where
  config : Config
  annotationsConfig : Annotations := {}
  deriving DecidableEq

/-! ### Wrapped routes -/

/-- `PathType`, with the zero value that a path type outside the switch of the
conversion leaves behind. -/
inductive PathType
  | exact
  | prefixPath
  | prefixRegex
  | fullPathRegex
  | unset
  deriving DecidableEq

def PathType.text : PathType → GoString
  | .exact => bytes "exact"
  | .prefixPath => bytes "prefix"
  | .prefixRegex => bytes "prefixRegex"
  | .fullPathRegex => bytes "fullPathRegex"
  | .unset => []

/-- The conversion `int32(n)`. -/
def toInt32 (n : ℤ) : ℤ := n.bmod 4294967296

structure WrapperHTTPRoute where
  httpRoute : HTTPRoute := {}
  wrapperConfig : WrapperConfig
  clusterId : GoString := []
  host : GoString := []
  originPath : GoString
  originPathType : PathType
  weightTotal : ℤ := 0
  isDefaultBackend : Bool := false
  ruleKey : GoString := []
  deriving DecidableEq

def WrapperHTTPRoute.pathFormat (w : WrapperHTTPRoute) : GoString :=
  Strings.join [w.host, w.originPathType.text, w.originPath] (bytes "-")

end Higress.Ingress
