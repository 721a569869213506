import Mathlib.Logic.Function.Basic
import Mathlib.Data.List.TakeDrop
import Higress.Lib.Path
import Higress.Ingress.Convert

/-!
Conversion of ingresses into the gateways of their hosts, and how it agrees with the
TLS routes that the conversion of routes makes.

Both conversions go through the ingresses on their own. For a host with an owner,
both let only the rules of the owner with a root path have a say (`claims`): the first of
them makes the gateway pass TLS through, and the first of them whose backend can be
resolved makes the route.
-/

namespace Higress.Ingress

open Higress.Lib

/-! ### Gateways -/

inductive TLSMode
  | passthrough
  | simple
  deriving DecidableEq

structure ServerTLSSettings where
  mode : TLSMode
  credentialName : GoString := []
  deriving DecidableEq

/-- `networking.Server`, with the fields of its port. -/
structure Server where
  number : ℕ
  protocol : GoString
  name : GoString
  hosts : List GoString
  tls : Option ServerTLSSettings := none
  deriving DecidableEq

/-- `IsTLSServer` of Istio: TLS settings on a port that does not speak HTTP. -/
def Server.isTLSServer (server : Server) : Bool :=
  server.tls.isSome && server.protocol != bytes "HTTP"

structure WrapperGateway where
  wrapperConfig : WrapperConfig
  clusterId : GoString
  host : GoString
  selector : Option (GoString × GoString)
  servers : List Server

/-- `IsHTTPS`. -/
def WrapperGateway.isHTTPS (w : WrapperGateway) : Bool := w.servers.any Server.isTLSServer

inductive Protocol
  | http
  | https
  deriving DecidableEq

/-- `IngressDomainBuilder`; `preIngress` is set when the TLS settings are in conflict with
those of an earlier ingress, which is the event `DuplicatedTls`. -/
structure IngressDomainBuilder where
  clusterId : GoString
  host : GoString
  protocol : Protocol := .http
  secretName : GoString := []
  ingress : Config
  preIngress : Option Config := none

/-- `model.IngressDomain`, the report about one host. -/
structure IngressDomain where
  host : GoString
  protocol : Protocol
  secretName : GoString
  error : GoString

/-- `Build`. -/
def IngressDomainBuilder.build (i : IngressDomainBuilder) : IngressDomain :=
  { host := i.host
    protocol := i.protocol
    secretName := i.secretName
    error :=
      match i.preIngress with
      | none => []
      | some pre =>
          bytes "tls field of host " ++ i.host ++ bytes " defined in ingress " ++
            i.ingress.namespace ++ bytes "/" ++ i.ingress.name ++ bytes " within cluster " ++
            i.clusterId ++ bytes " is conflicted with ingress " ++ pre.namespace ++ bytes "/" ++
            pre.name ++ bytes " within cluster " ++ getClusterId pre.annotations }

/-- `ConvertOptions`, as far as gateways are concerned. -/
structure GatewayOptions where
  gateways : GoString → Option WrapperGateway := fun _ => none
  valid : GoString → Option IngressDomainBuilder := fun _ => none
  invalid : List IngressDomain := []
  passthroughTLSHostOwners : Option (List (GoString × Config)) := none

/-- What the conversion of gateways needs besides: the ports and the selector, the lookup
of secrets, and the names Istio gives to credentials. -/
structure GatewayController extends Controller where
  gatewayHttpPort : ℕ
  gatewayHttpsPort : ℕ
  gatewaySelector : Option (GoString × GoString)
  secretIsNotFound : GoString → GoString → Bool
  toKubernetesIngressResource : GoString → GoString → GoString

/-- `cert.Config`; `subsetOf` is Istio's comparison of host names in lower case. -/
structure CredentialConfig where
  fallbackForInvalidSecret : Bool
  credentials : List (List GoString × GoString)
  subsetOf : GoString → GoString → Bool

/-- `MatchSecretNameByDomain`. -/
def CredentialConfig.matchSecretNameByDomain (config : CredentialConfig) (domain : GoString) :
    GoString :=
  ((config.credentials.find? fun credential => credential.1.any (config.subsetOf domain)).map
    Prod.snd).getD []

/-- `ParseTLSSecret`: the namespace and the name. -/
def parseTLSSecret (tlsSecret : GoString) : GoString × GoString :=
  match Path.elements tlsSecret with
  | [_] => ([], tlsSecret)
  | [ns, name] => (ns, name)
  | _ => ([], [])

def extractTLSSecretName (host : GoString) (tls : List IngressTLS) : GoString :=
  ((tls.find? fun t => t.hosts.contains host).map IngressTLS.secretName).getD []

/-- The namespace and the name of the secret of a host; there is none if the name is
empty. -/
def secretOf (c : GatewayController) (https : Option CredentialConfig) (cfg : Config)
    (tls : List IngressTLS) (host : GoString) : GoString × GoString :=
  let secretName := extractTLSSecretName host tls
  match https with
  | none => (cfg.namespace, secretName)
  | some https =>
      let matchSecretName := https.matchSecretNameByDomain host
      let (ns, secret) := parseTLSSecret matchSecretName
      if secretName ≠ [] then
        if https.fallbackForInvalidSecret && c.secretIsNotFound cfg.namespace secretName &&
            matchSecretName != [] then
          (if ns = [] then c.systemNamespace else ns, secret)
        else (cfg.namespace, secretName)
      else if ns ≠ [] then (ns, secret)
      else (c.systemNamespace, matchSecretName)

/-- `CreateConvertedName`. -/
def createConvertedName (items : List GoString) : GoString :=
  Strings.join (items.filter fun item => !item.isEmpty) (bytes "-")

/-- The name of a server on a port. -/
def serverName (c : GatewayController) (protocol : GoString) (port : ℕ) : GoString :=
  createConvertedName
    [protocol ++ bytes "-" ++ (Nat.toDigits 10 port).map (fun d => d.toNat.toUInt8) ++ bytes "-ingress",
      c.clusterId]

/-- `CreateSSLPassthroughServer`. -/
def createSSLPassthroughServer (c : GatewayController) (host : GoString) : Server :=
  { number := c.gatewayHttpsPort
    protocol := bytes "TLS"
    name := serverName c (bytes "tls") c.gatewayHttpsPort
    hosts := [wildcardHost host]
    tls := some { mode := .passthrough } }

/-- The server that terminates TLS with a secret. -/
def httpsServer (c : GatewayController) (host ns secretName : GoString) : Server :=
  { number := c.gatewayHttpsPort
    protocol := bytes "HTTPS"
    name := serverName c (bytes "https") c.gatewayHttpsPort
    hosts := [wildcardHost host]
    tls := some { mode := .simple, credentialName := c.toKubernetesIngressResource ns secretName } }

/-- The gateway of a host that has none yet. -/
def newWrapperGateway (c : GatewayController) (wrapper : WrapperConfig) (host : GoString) :
    WrapperGateway :=
  { wrapperConfig := wrapper
    clusterId := c.clusterId
    host := host
    selector := c.gatewaySelector
    servers :=
      [{ number := c.gatewayHttpPort
         protocol := bytes "HTTP"
         name := serverName c (bytes "http") c.gatewayHttpPort
         hosts := [wildcardHost host] }] }

/-! ### Converting an ingress -/

/-- `PassthroughTLSHostOwner`. -/
def passthroughTLSHostOwner (owners : Option (List (GoString × Config))) (host : GoString) :
    Option Config :=
  owners.bind fun owners => ownerOf owners host

namespace GatewayOptions

def isHTTPS (o : GatewayOptions) (host : GoString) : Bool :=
  ((o.gateways host).map WrapperGateway.isHTTPS).getD false

/-- A server is added to the gateway of a host, and the builder is its domain. -/
def addServer (o : GatewayOptions) (host : GoString) (server : Server)
    (builder : IngressDomainBuilder) : GatewayOptions :=
  { o with
    gateways := Function.update o.gateways host
      ((o.gateways host).map fun w => { w with servers := w.servers ++ [server] })
    valid := Function.update o.valid host (some builder) }

/-- The gateway and the domain of a host, unless there are some. -/
def ensure (o : GatewayOptions) (host : GoString) (gateway : WrapperGateway)
    (builder : IngressDomainBuilder) : GatewayOptions :=
  match o.gateways host with
  | some _ => o
  | none =>
      { o with
        gateways := Function.update o.gateways host (some gateway)
        valid := Function.update o.valid host (some builder) }

/-- A duplicate is reported. The builder of a host that was new is the one that has
just been kept as its domain, so that what is set in it shows there. -/
def reject (o : GatewayOptions) (isNew : Bool) (builder : IngressDomainBuilder) : GatewayOptions :=
  { o with
    invalid := o.invalid ++ [builder.build]
    valid := if isNew then Function.update o.valid builder.host (some builder) else o.valid }

end GatewayOptions

/-- The options with a gateway for the host of a rule. -/
def withGateway (c : GatewayController) (wrapper : WrapperConfig) (o : GatewayOptions)
    (rule : IngressRule) : GatewayOptions :=
  o.ensure rule.host (newWrapperGateway c wrapper rule.host)
    { clusterId := c.clusterId, host := rule.host, ingress := wrapper.config }

/-- The ingress has TLS passed through for the host of a rule: it is the owner of the
host, or there are no owners and it says so itself. -/
def mayPass (wrapper : WrapperConfig) (o : GatewayOptions) (rule : IngressRule) : Bool :=
  ((passthroughTLSHostOwner o.passthroughTLSHostOwners rule.host).map fun owner =>
    sameConfig owner wrapper.config).getD false ||
  (o.passthroughTLSHostOwners.isNone && wrapper.annotationsConfig.sslPassthrough)

/-- The body of the loop of `ConvertGateway`. -/
def convertGatewayRule (c : GatewayController) (https : Option CredentialConfig)
    (wrapper : WrapperConfig) (tls : List IngressTLS) (o : GatewayOptions) (rule : IngressRule) :
    GatewayOptions :=
  let cfg := wrapper.config
  let isNew := (o.gateways rule.host).isNone
  let preIngress := (o.valid rule.host).map IngressDomainBuilder.ingress
  let builder : IngressDomainBuilder :=
    { clusterId := c.clusterId, host := rule.host, protocol := .https, ingress := cfg }
  let passthroughOwner := passthroughTLSHostOwner o.passthroughTLSHostOwners rule.host
  let o₁ := withGateway c wrapper o rule
  if mayPass wrapper o rule then
    if (rootHTTPIngressPath rule.paths).isNone then o₁
    else if o₁.isHTTPS rule.host then
      if (preIngress.map fun pre => sameConfig pre cfg).getD false then o₁
      else o₁.reject isNew { builder with preIngress := preIngress }
    else o₁.addServer rule.host (createSSLPassthroughServer c rule.host) builder
  else if wrapper.annotationsConfig.sslPassthrough then
    if (rootHTTPIngressPath rule.paths).isSome && passthroughOwner.isSome then
      o₁.reject isNew { builder with preIngress := passthroughOwner }
    else o₁
  else if tls = [] then o₁
  else
    let (ns, secretName) := secretOf c https cfg tls rule.host
    let builder := { builder with secretName := Path.join [c.clusterId, cfg.namespace, secretName] }
    if secretName = [] then o₁
    else if passthroughOwner.isSome then o₁.reject isNew { builder with preIngress := passthroughOwner }
    else if o₁.isHTTPS rule.host then o₁.reject isNew { builder with preIngress := preIngress }
    else o₁.addServer rule.host (httpsServer c rule.host ns secretName) builder

/-- `ConvertGateway`: the options it leaves and the error it returns. -/
def convertGateway (c : GatewayController) (https : Option CredentialConfig) (o : GatewayOptions)
    (wrapper : WrapperConfig) : GatewayOptions × Option GoString :=
  if wrapper.annotationsConfig.isCanary then (o, none)
  else
    match wrapper.config.spec with
    | none => (o, some (specTypeError c.toController))
    | some spec =>
        if spec.rules = [] ∧ spec.defaultBackend = none then
          (o, some (emptyRuleError c.toController wrapper.config
            (bytes ", either `defaultBackend` or `rules` must be specified")))
        else (spec.rules.foldl (convertGatewayRule c https wrapper spec.tls) o, none)

/-! ### All ingresses -/

section All

variable (remoteIngressControllers : GoString → Option GatewayController)

/-- The loop of `convertGateways`. -/
def convertGateways (https : Option CredentialConfig) (o : GatewayOptions)
    (configs : List WrapperConfig) : GatewayOptions :=
  configs.foldl (fun o wrapper =>
    match remoteIngressControllers (getClusterId wrapper.config.annotations) with
    | none => o
    | some c => (convertGateway c https o wrapper).1) o

/-- The loop of `convertVirtualService` that converts the routes. -/
def convertVirtualService (o : ConvertOptions) (configs : List WrapperConfig) : ConvertOptions :=
  configs.foldl (fun o wrapper =>
    match remoteIngressControllers (getClusterId wrapper.config.annotations) with
    | none => o
    | some c => (convertHTTPRoute c.toController o wrapper).1) o

end All

/-- The rules of an ingress that is not a canary. -/
def rulesOf (wrapper : WrapperConfig) : List IngressRule :=
  if wrapper.annotationsConfig.isCanary then []
  else (wrapper.config.spec.map IngressSpec.rules).getD []

/-- `preparePassthroughTLSHostOwners`: the owner of a host that some ingress wants passed
through is the first ingress with a root path for it. -/
def preparePassthroughTLSHostOwners (configs : List WrapperConfig) : List (GoString × Config) :=
  let passthroughHosts := (configs.filter fun wrapper => wrapper.annotationsConfig.sslPassthrough).flatMap
    fun wrapper => (rulesOf wrapper).map IngressRule.host
  passthroughHosts.dedup.filterMap fun host =>
    (configs.find? fun wrapper => (rulesOf wrapper).any fun rule =>
      rule.host == host && (rootHTTPIngressPath rule.paths).isSome).map fun wrapper =>
        (host, wrapper.config)

/-! ### Claims to a host -/

/-- A rule of the owner of a host with a root path: the ingress, with the controller that
converts it, and the path. -/
structure HostClaim where
  controller : GatewayController
  wrapper : WrapperConfig
  httpPath : HTTPIngressPath

section Claims

variable (remoteIngressControllers : GoString → Option GatewayController) (host : GoString)
    (owners : List (GoString × Config))

/-- The claims of one rule. -/
def ruleClaims (c : GatewayController) (wrapper : WrapperConfig) (rule : IngressRule) : List HostClaim :=
  if rule.host = host ∧
      ((ownerOf owners host).map fun owner => sameConfig owner wrapper.config).getD false then
    (rootHTTPIngressPath rule.paths).toList.map fun httpPath => ⟨c, wrapper, httpPath⟩
  else []

/-- The claims of the ingresses, in the order in which they are converted. -/
def claims (configs : List WrapperConfig) : List HostClaim :=
  configs.flatMap fun wrapper =>
    match remoteIngressControllers (getClusterId wrapper.config.annotations) with
    | none => []
    | some c => (rulesOf wrapper).flatMap (ruleClaims host owners c wrapper)

/-- The route that a claim asks for, if its backend can be resolved. -/
def HostClaim.route (claim : HostClaim) : Option TLSRoute :=
  (backendToTLSRouteDestination claim.controller.toController claim.httpPath.backend
    claim.wrapper.config.namespace claim.wrapper.annotationsConfig.destination).map fun route =>
      ⟨[wildcardHost host], route⟩

end Claims

/-! ### Servers -/

namespace GatewayOptions

/-- The servers of a host with TLS settings. -/
def tlsServers (o : GatewayOptions) (host : GoString) : List Server :=
  ((o.gateways host).map fun w => w.servers.filter Server.isTLSServer).getD []

variable (o : GatewayOptions) (h host : GoString)

theorem isHTTPS_eq_false_iff : o.isHTTPS host = false ↔ o.tlsServers host = [] := by
  rw [isHTTPS, tlsServers]
  cases o.gateways host with
  | none => simp
  | some w => simp [WrapperGateway.isHTTPS]

theorem tlsServers_eq_nil_of_new (hnew : (o.gateways host).isNone) : o.tlsServers host = [] := by
  rw [tlsServers, Option.isNone_iff_eq_none.mp hnew]
  rfl

theorem gateways_ensure_isSome (gateway : WrapperGateway) (builder : IngressDomainBuilder) :
    ((o.ensure h gateway builder).gateways h).isSome := by
  rw [ensure]
  cases hgateway : o.gateways h with
  | none => simp
  | some w => simp [hgateway]

theorem tlsServers_ensure (c : GatewayController) (wrapper : WrapperConfig)
    (builder : IngressDomainBuilder) :
    (o.ensure h (newWrapperGateway c wrapper h) builder).tlsServers host = o.tlsServers host := by
  rw [ensure]
  cases hgateway : o.gateways h with
  | some w => rfl
  | none =>
      by_cases hhost : host = h
      · subst hhost
        simp [tlsServers, hgateway, newWrapperGateway, Server.isTLSServer]
      · simp [tlsServers, hhost]

theorem tlsServers_addServer {server : Server} (hserver : server.isTLSServer)
    (hgateway : (o.gateways h).isSome) (builder : IngressDomainBuilder) :
    (o.addServer h server builder).tlsServers host =
      o.tlsServers host ++ if host = h then [server] else [] := by
  by_cases hhost : host = h
  · subst hhost
    obtain ⟨w, hw⟩ := Option.isSome_iff_exists.mp hgateway
    simp [addServer, tlsServers, hw, hserver]
  · simp [addServer, tlsServers, hhost]

/-- The domain of a host that has a gateway is not touched before a server is added. -/
theorem valid_ensure {gateway : WrapperGateway} {builder : IngressDomainBuilder}
    (hhost : host ≠ h ∨ (o.gateways h).isNone = false) :
    (o.ensure h gateway builder).valid host = o.valid host := by
  rw [ensure]
  cases hgateway : o.gateways h with
  | some w => rfl
  | none =>
      rcases hhost with hhost | hnew
      · simp [hhost]
      · simp [hgateway] at hnew

end GatewayOptions

/-! ### One rule -/

section Rule

variable (c : GatewayController) (https : Option CredentialConfig) (wrapper : WrapperConfig)
    (tls : List IngressTLS) (o : GatewayOptions) (rule : IngressRule)

theorem owners_withGateway :
    (withGateway c wrapper o rule).passthroughTLSHostOwners = o.passthroughTLSHostOwners := by
  rw [withGateway, GatewayOptions.ensure]
  split <;> rfl

/-- What a rule can do: pass TLS through, terminate TLS, or leave the servers alone. -/
theorem convertGatewayRule_cases :
    let o₁ := withGateway c wrapper o rule
    let next := convertGatewayRule c https wrapper tls o rule
    (∃ builder : IngressDomainBuilder, builder.ingress = wrapper.config ∧
      next = o₁.addServer rule.host (createSSLPassthroughServer c rule.host) builder ∧
      mayPass wrapper o rule ∧ (rootHTTPIngressPath rule.paths).isSome ∧
      o₁.isHTTPS rule.host = false) ∨
    (∃ builder ns secretName,
      next = o₁.addServer rule.host (httpsServer c rule.host ns secretName) builder ∧
      passthroughTLSHostOwner o.passthroughTLSHostOwners rule.host = none ∧
      mayPass wrapper o rule = false ∧ o₁.isHTTPS rule.host = false) ∨
    ((next = o₁ ∨ ∃ builder : IngressDomainBuilder, builder.host = rule.host ∧
      next = o₁.reject (o.gateways rule.host).isNone builder) ∧
      (mayPass wrapper o rule → (rootHTTPIngressPath rule.paths).isSome →
        o₁.isHTTPS rule.host)) := by
  intro o₁ next
  have hnext : next = convertGatewayRule c https wrapper tls o rule := rfl
  rw [convertGatewayRule] at hnext
  by_cases hpass : mayPass wrapper o rule
  · rw [if_pos hpass] at hnext
    cases hroot : rootHTTPIngressPath rule.paths with
    | none => exact .inr (.inr ⟨.inl (by rw [hnext, hroot]; rfl), by simp⟩)
    | some path =>
        rw [hroot, if_neg (by simp)] at hnext
        split at hnext
        · rename_i hhttps
          refine .inr (.inr ⟨?_, fun _ _ => hhttps⟩)
          split at hnext
          · exact .inl hnext
          · exact .inr ⟨_, rfl, hnext⟩
        · rename_i hhttps
          exact .inl ⟨_, rfl, hnext, hpass, rfl, by simpa using hhttps⟩
  · rw [if_neg hpass] at hnext
    have hvacuous : mayPass wrapper o rule → (rootHTTPIngressPath rule.paths).isSome →
        o₁.isHTTPS rule.host := fun h => absurd h hpass
    split at hnext
    · split at hnext
      · exact .inr (.inr ⟨.inr ⟨_, rfl, hnext⟩, hvacuous⟩)
      · exact .inr (.inr ⟨.inl hnext, hvacuous⟩)
    · split at hnext
      · exact .inr (.inr ⟨.inl hnext, hvacuous⟩)
      · split at hnext
        dsimp only at hnext
        split at hnext
        · exact .inr (.inr ⟨.inl hnext, hvacuous⟩)
        · split at hnext
          · exact .inr (.inr ⟨.inr ⟨_, rfl, hnext⟩, hvacuous⟩)
          · rename_i howner
            split at hnext
            · exact .inr (.inr ⟨.inr ⟨_, rfl, hnext⟩, hvacuous⟩)
            · rename_i hhttps
              exact .inr (.inl ⟨_, _, _, hnext, by simpa using howner, by simpa using hpass,
                by simpa using hhttps⟩)

theorem owners_convertGatewayRule :
    (convertGatewayRule c https wrapper tls o rule).passthroughTLSHostOwners =
      o.passthroughTLSHostOwners := by
  rw [← owners_withGateway c wrapper o rule]
  rcases convertGatewayRule_cases c https wrapper tls o rule with
    ⟨_, _, hnext, _⟩ | ⟨_, _, _, hnext, _⟩ | ⟨hnext | ⟨_, _, hnext⟩, _⟩
  all_goals rw [hnext]
  all_goals rfl

theorem gateways_withGateway_isSome : ((withGateway c wrapper o rule).gateways rule.host).isSome :=
  o.gateways_ensure_isSome rule.host _ _

theorem isTLSServer_createSSLPassthroughServer (host : GoString) :
    (createSSLPassthroughServer c host).isTLSServer := rfl

theorem isTLSServer_httpsServer (host ns secretName : GoString) :
    (httpsServer c host ns secretName).isTLSServer := rfl

variable {host : GoString}

theorem tlsServers_withGateway :
    (withGateway c wrapper o rule).tlsServers host = o.tlsServers host :=
  o.tlsServers_ensure rule.host host c wrapper _

/-- A rule is about its own host only. -/
theorem convertGatewayRule_other (hhost : host ≠ rule.host) :
    (convertGatewayRule c https wrapper tls o rule).tlsServers host = o.tlsServers host ∧
      (convertGatewayRule c https wrapper tls o rule).valid host = o.valid host := by
  have hservers : (withGateway c wrapper o rule).tlsServers host = o.tlsServers host :=
    tlsServers_withGateway c wrapper o rule
  have hvalid : (withGateway c wrapper o rule).valid host = o.valid host :=
    o.valid_ensure rule.host host (.inl hhost)
  have hsome := gateways_withGateway_isSome c wrapper o rule
  rcases convertGatewayRule_cases c https wrapper tls o rule with
    ⟨b, _, hnext, _⟩ | ⟨b, _, _, hnext, _⟩ | ⟨hnext | ⟨b, hb, hnext⟩, _⟩
  · rw [hnext, GatewayOptions.tlsServers_addServer _ _ _
      (isTLSServer_createSSLPassthroughServer c _) hsome, if_neg hhost, List.append_nil]
    exact ⟨hservers, by simp [GatewayOptions.addServer, hhost, hvalid]⟩
  · rw [hnext, GatewayOptions.tlsServers_addServer _ _ _ (isTLSServer_httpsServer c _ _ _) hsome,
      if_neg hhost, List.append_nil]
    exact ⟨hservers, by simp [GatewayOptions.addServer, hhost, hvalid]⟩
  · rw [hnext]
    exact ⟨hservers, hvalid⟩
  · rw [hnext]
    refine ⟨hservers, ?_⟩
    rw [GatewayOptions.reject, hb]
    split
    · simp [hhost, hvalid]
    · exact hvalid

/-- What the claims so far have made of the gateway of a host: its TLS server is the one
of the first of them, if the host has an owner at all. -/
structure Passes (host : GoString) (owners : List (GoString × Config)) (o : GatewayOptions)
    (cl : List HostClaim) : Prop where
  owners_eq : o.passthroughTLSHostOwners = some owners
  owned : (ownerOf owners host).isSome →
    o.tlsServers host =
      (cl.map fun claim => createSSLPassthroughServer claim.controller host).take 1
  notOwned : ownerOf owners host = none →
    cl = [] ∧ (o.tlsServers host).length ≤ 1 ∧
      ∀ server ∈ o.tlsServers host, server.tls.map ServerTLSSettings.mode = some .simple
  valid : ∀ claim, cl.head? = some claim →
    (o.valid host).map IngressDomainBuilder.ingress = some claim.wrapper.config

variable {c https wrapper tls o rule} {owners : List (GoString × Config)} {cl : List HostClaim}

theorem mayPass_eq (howners : o.passthroughTLSHostOwners = some owners) :
    mayPass wrapper o rule =
      ((ownerOf owners rule.host).map fun owner => sameConfig owner wrapper.config).getD false := by
  simp [mayPass, howners, passthroughTLSHostOwner]

theorem ruleClaims_eq (howners : o.passthroughTLSHostOwners = some owners) :
    ruleClaims rule.host owners c wrapper rule =
      if mayPass wrapper o rule then
        (rootHTTPIngressPath rule.paths).toList.map fun httpPath => ⟨c, wrapper, httpPath⟩
      else [] := by
  rw [mayPass_eq howners, ruleClaims]
  simp

/-- The first claim is the one that has been served. -/
theorem Passes.servers_eq_nil_iff (hp : Passes host owners o cl) (howner : (ownerOf owners host).isSome) :
    o.tlsServers host = [] ↔ cl = [] := by
  rw [hp.owned howner]
  cases cl with
  | nil => simp
  | cons claim cl => simp

theorem Passes.afterOwnRule (hp : Passes rule.host owners o cl) :
    Passes rule.host owners (convertGatewayRule c https wrapper tls o rule)
      (cl ++ ruleClaims rule.host owners c wrapper rule) := by
  have hservers : (withGateway c wrapper o rule).tlsServers rule.host = o.tlsServers rule.host :=
    tlsServers_withGateway c wrapper o rule
  have hsome := gateways_withGateway_isSome c wrapper o rule
  have howners := (owners_convertGatewayRule c https wrapper tls o rule).trans hp.owners_eq
  rw [ruleClaims_eq hp.owners_eq]
  rcases convertGatewayRule_cases c https wrapper tls o rule with
    ⟨b, hb, hnext, hmay, hroot, hhttps⟩ | ⟨b, ns, secretName, hnext, hnone, hmay, hhttps⟩ |
      ⟨hnext, hhttps⟩
  · -- the first claim: TLS is passed through from now on
    obtain ⟨path, hpath⟩ := Option.isSome_iff_exists.mp hroot
    have howner : (ownerOf owners rule.host).isSome := by
      rw [mayPass_eq hp.owners_eq] at hmay
      cases h : ownerOf owners rule.host with
      | none => simp [h] at hmay
      | some owner => rfl
    rw [GatewayOptions.isHTTPS_eq_false_iff, hservers] at hhttps
    obtain rfl : cl = [] := (hp.servers_eq_nil_iff howner).mp hhttps
    rw [if_pos hmay, hpath]
    refine ⟨howners, fun _ => ?_, fun h => ?_, ?_⟩
    · rw [hnext, GatewayOptions.tlsServers_addServer _ _ _
        (isTLSServer_createSSLPassthroughServer c _) hsome, hservers, hhttps]
      simp
    · rw [h] at howner
      cases howner
    · rintro claim ⟨⟩
      rw [hnext]
      simpa [GatewayOptions.addServer] using hb
  · -- a host without owner: TLS is terminated
    have hunowned : ownerOf owners rule.host = none := by
      rw [hp.owners_eq] at hnone
      exact hnone
    obtain ⟨rfl, -, hsimple⟩ := hp.notOwned hunowned
    rw [GatewayOptions.isHTTPS_eq_false_iff, hservers] at hhttps
    rw [hmay, if_neg Bool.false_ne_true, List.append_nil]
    refine ⟨howners, fun h => ?_, fun _ => ?_, by simp⟩
    · rw [hunowned] at h
      cases h
    · rw [hnext, GatewayOptions.tlsServers_addServer _ _ _ (isTLSServer_httpsServer c _ _ _) hsome,
        hservers, hhttps]
      simp [httpsServer]
  · have hnext_servers : (convertGatewayRule c https wrapper tls o rule).tlsServers rule.host =
        o.tlsServers rule.host := by
      rcases hnext with hnext | ⟨b, -, hnext⟩
      · rw [hnext]
        exact hservers
      · rw [hnext]
        exact hservers
    have hnext_valid : (o.gateways rule.host).isNone = false →
        (convertGatewayRule c https wrapper tls o rule).valid rule.host = o.valid rule.host := by
      intro hold
      have hvalid : (withGateway c wrapper o rule).valid rule.host = o.valid rule.host :=
        o.valid_ensure rule.host rule.host (.inr hold)
      rcases hnext with hnext | ⟨b, -, hnext⟩
      · rw [hnext]
        exact hvalid
      · rw [hnext, GatewayOptions.reject, hold]
        exact hvalid
    cases howner : ownerOf owners rule.host with
    | none =>
        have hmay : mayPass wrapper o rule = false := by
          rw [mayPass_eq hp.owners_eq, howner]
          rfl
        obtain ⟨rfl, hsimple⟩ := hp.notOwned howner
        rw [hmay, if_neg Bool.false_ne_true, List.append_nil]
        refine ⟨howners, fun h => ?_, fun _ => ?_, by simp⟩
        · rw [howner] at h
          cases h
        · rw [hnext_servers]
          exact ⟨rfl, hsimple⟩
    | some owner =>
        have hsome : (ownerOf owners rule.host).isSome := by rw [howner]; rfl
        by_cases hcl : cl = []
        · -- no claim has been served, so this rule makes none
          subst hcl
          have hnil : o.tlsServers rule.host = [] := (hp.servers_eq_nil_iff hsome).mpr rfl
          have hnone : (if mayPass wrapper o rule then
              (rootHTTPIngressPath rule.paths).toList.map fun httpPath => HostClaim.mk c wrapper httpPath
              else []) = [] := by
            split
            · rename_i hmay
              cases hroot : rootHTTPIngressPath rule.paths with
              | none => rfl
              | some path =>
                  have hfalse := (GatewayOptions.isHTTPS_eq_false_iff _ _).mpr (hservers.trans hnil)
                  have htrue := hhttps hmay (by rw [hroot]; rfl)
                  rw [hfalse] at htrue
                  cases htrue
            · rfl
          rw [hnone, List.append_nil]
          refine ⟨howners, fun _ => hnext_servers.trans hnil, fun h => ?_, by simp⟩
          rw [h] at hsome
          cases hsome
        · -- the first claim stays the first
          have hold : (o.gateways rule.host).isNone = false := by
            by_contra hnew
            exact hcl ((hp.servers_eq_nil_iff hsome).mp (o.tlsServers_eq_nil_of_new rule.host
              (by simpa using hnew)))
          obtain ⟨first, rest, rfl⟩ := List.exists_cons_of_ne_nil hcl
          refine ⟨howners, fun _ => ?_, fun h => ?_, ?_⟩
          · rw [hnext_servers, hp.owned hsome]
            simp
          · rw [h] at hsome
            cases hsome
          · rintro claim ⟨⟩
            rw [hnext_valid hold]
            exact hp.valid first rfl

theorem Passes.afterRule (hp : Passes host owners o cl) :
    Passes host owners (convertGatewayRule c https wrapper tls o rule)
      (cl ++ ruleClaims host owners c wrapper rule) := by
  by_cases hhost : rule.host = host
  · subst hhost
    exact hp.afterOwnRule
  · obtain ⟨hservers, hvalid⟩ := convertGatewayRule_other c https wrapper tls o rule (Ne.symm hhost)
    have hnone : ruleClaims host owners c wrapper rule = [] := by
      rw [ruleClaims, if_neg (fun h => hhost h.1)]
    rw [hnone, List.append_nil]
    constructor
    · rw [owners_convertGatewayRule, hp.owners_eq]
    · rw [hservers]
      exact hp.owned
    · rw [hservers]
      exact hp.notOwned
    · rw [hvalid]
      exact hp.valid

/-! ### All gateways -/

theorem Passes.afterRules (hp : Passes host owners o cl) (rules : List IngressRule) :
    Passes host owners (rules.foldl (convertGatewayRule c https wrapper tls) o)
      (cl ++ rules.flatMap (ruleClaims host owners c wrapper)) := by
  induction rules generalizing o cl with
  | nil => simpa using hp
  | cons rule rules ih =>
      rw [List.foldl_cons, List.flatMap_cons, ← List.append_assoc]
      exact ih hp.afterRule

theorem Passes.afterIngress (hp : Passes host owners o cl) :
    Passes host owners (convertGateway c https o wrapper).1
      (cl ++ (rulesOf wrapper).flatMap (ruleClaims host owners c wrapper)) := by
  rw [convertGateway, rulesOf]
  split
  · simpa using hp
  · split
    · rename_i hspec
      simpa [hspec] using hp
    · rename_i spec hspec
      simp only [hspec, Option.map_some, Option.getD_some]
      split
      · rename_i hempty
        simpa [hempty.1] using hp
      · exact hp.afterRules spec.rules

theorem Passes.run (hp : Passes host owners o cl)
    (remoteIngressControllers : GoString → Option GatewayController) (configs : List WrapperConfig) :
    Passes host owners (convertGateways remoteIngressControllers https o configs)
      (cl ++ claims remoteIngressControllers host owners configs) := by
  induction configs generalizing o cl with
  | nil => simpa [convertGateways, claims] using hp
  | cons wrapper configs ih =>
      rw [convertGateways, List.foldl_cons, ← convertGateways, claims, List.flatMap_cons, ← claims]
      cases hc : remoteIngressControllers (getClusterId wrapper.config.annotations) with
      | none => exact ih hp
      | some c =>
          rw [← List.append_assoc]
          exact ih hp.afterIngress

theorem passes_fresh (host : GoString) (owners : List (GoString × Config)) :
    Passes host owners { passthroughTLSHostOwners := some owners } [] :=
  ⟨rfl, fun _ => rfl, fun _ => ⟨rfl, by simp [GatewayOptions.tlsServers], by
    simp [GatewayOptions.tlsServers]⟩, by simp⟩

end Rule

/-! ### TLS routes -/

/-- The TLS routes of the virtual service of a host. -/
def ConvertOptions.tlsRoutes (o : ConvertOptions) (host : GoString) : List TLSRoute :=
  ((o.virtualServices host).map WrapperVirtualService.tls).getD []

section Routes

variable {c : GatewayController} {wrapper : WrapperConfig} {host : GoString}
    {owners : List (GoString × Config)} {cl : List HostClaim} {o : ConvertOptions}

/-- What the claims so far have made of the virtual service of a host: its TLS route is
the one of the first of them that asks for one. -/
structure Routed (host : GoString) (owners : List (GoString × Config)) (o : ConvertOptions)
    (cl : List HostClaim) : Prop where
  owners_eq : o.passthroughTLSHostOwners = some owners
  tlsRoutes_eq : o.tlsRoutes host = (cl.filterMap (HostClaim.route host)).take 1

/-- The conversion of HTTP routes leaves the TLS routes alone. -/
theorem convertPath_tls (c : Controller) (wrapper : WrapperConfig) (h : GoString) (st : LoopState)
    (httpPath : HTTPIngressPath) :
    (convertPath c wrapper h st httpPath).options.tlsRoutes host = st.options.tlsRoutes host ∧
      (convertPath c wrapper h st httpPath).options.passthroughTLSHostOwners =
        st.options.passthroughTLSHostOwners := by
  simp only [convertPath, ConvertOptions.tlsRoutes]
  split
  · refine ⟨?_, rfl⟩
    by_cases hhost : host = h
    · subst hhost
      cases hvs : st.options.virtualServices host with
      | none => simp
      | some vs => simp
    · simp [hhost]
  · exact ⟨rfl, rfl⟩

theorem convertRule_tls (c : Controller) (wrapper : WrapperConfig) (st : LoopState)
    (rule : IngressRule) :
    (convertRule c wrapper st rule).options.tlsRoutes host = st.options.tlsRoutes host ∧
      (convertRule c wrapper st rule).options.passthroughTLSHostOwners =
        st.options.passthroughTLSHostOwners := by
  have hpaths : ∀ (paths : List HTTPIngressPath) (st : LoopState),
      (paths.foldl (convertPath c wrapper rule.host) st).options.tlsRoutes host =
          st.options.tlsRoutes host ∧
        (paths.foldl (convertPath c wrapper rule.host) st).options.passthroughTLSHostOwners =
          st.options.passthroughTLSHostOwners := by
    intro paths
    induction paths with
    | nil => exact fun st => ⟨rfl, rfl⟩
    | cons path paths ih =>
        intro st
        obtain ⟨hroutes, howners⟩ := ih (convertPath c wrapper rule.host st path)
        obtain ⟨hroutes', howners'⟩ := convertPath_tls c wrapper rule.host st path
        exact ⟨hroutes.trans hroutes', howners.trans howners'⟩
  rw [convertRule]
  split
  · exact ⟨rfl, rfl⟩
  · refine ⟨(hpaths _ _).1.trans ?_, (hpaths _ _).2⟩
    simp only [ConvertOptions.tlsRoutes]
    by_cases hhost : host = rule.host
    · subst hhost
      cases hvs : st.options.virtualServices rule.host with
      | none =>
          by_cases hroot : wrapper.annotationsConfig.appRoot = []
          · simp [hroot, newWrapperVirtualService]
          · simp [hroot, newWrapperVirtualService]
      | some vs =>
          by_cases hroot : wrapper.annotationsConfig.appRoot = []
          · simp [hroot]
          · simp [hroot]
    · simp [hhost]

theorem wildcardHost_idem (host : GoString) : wildcardHost (wildcardHost host) = wildcardHost host := by
  by_cases h : host = []
  · subst h
    rfl
  · simp [wildcardHost, h]

/-- A virtual service whose routes come from claims has a route for its host as soon as
it has any. -/
theorem Routed.hasTLSRouteForHost_eq (hr : Routed host owners o cl) :
    ((o.virtualServices host).map fun vs => vs.hasTLSRouteForHost host).getD false =
      !(o.tlsRoutes host).isEmpty := by
  have hsni : ∀ route ∈ o.tlsRoutes host, route.sniHosts = [wildcardHost host] := by
    intro route hroute
    rw [hr.tlsRoutes_eq] at hroute
    obtain ⟨claim, -, hclaim⟩ := List.mem_filterMap.mp (List.mem_of_mem_take hroute)
    obtain ⟨destinations, -, rfl⟩ := Option.map_eq_some_iff.mp hclaim
    rfl
  rw [ConvertOptions.tlsRoutes] at hsni ⊢
  cases hvs : o.virtualServices host with
  | none => rfl
  | some vs =>
      simp only [hvs, Option.map_some, Option.getD_some] at hsni ⊢
      rw [WrapperVirtualService.hasTLSRouteForHost]
      cases htls : vs.tls with
      | nil => rfl
      | cons route routes =>
          have hfirst := hsni route (by rw [htls]; exact List.mem_cons_self)
          simp [hfirst, wildcardHost_idem]

theorem owners_convertTLSRule (c : Controller) (rule : IngressRule) :
    (convertTLSRule c wrapper o rule).passthroughTLSHostOwners = o.passthroughTLSHostOwners := by
  rw [convertTLSRule]
  split
  · split
    · rfl
    · dsimp only
      split <;> rfl
  · rfl

theorem tlsRoutes_convertTLSRule_other (c : Controller) {rule : IngressRule} (hhost : host ≠ rule.host) :
    (convertTLSRule c wrapper o rule).tlsRoutes host = o.tlsRoutes host := by
  rw [convertTLSRule]
  split
  · split
    · rfl
    · dsimp only
      split
      · rfl
      · simp [ConvertOptions.tlsRoutes, hhost]
  · rfl

/-- The rule of an owner with a root path, for a virtual service without TLS route. -/
theorem tlsRoutes_convertTLSRule (c : GatewayController) {rule : IngressRule} {httpPath : HTTPIngressPath}
    (howner : isPassthroughTLSHostOwner o wrapper.config rule.host)
    (hroot : rootHTTPIngressPath rule.paths = some httpPath)
    (hhas : ((o.virtualServices rule.host).map fun vs => vs.hasTLSRouteForHost rule.host).getD false = false)
    (hnil : o.tlsRoutes rule.host = []) :
    (convertTLSRule c.toController wrapper o rule).tlsRoutes rule.host =
      (HostClaim.route rule.host ⟨c, wrapper, httpPath⟩).toList := by
  have htls : ((o.virtualServices rule.host).getD (newWrapperVirtualService rule.host wrapper)).tls = [] := by
    rw [ConvertOptions.tlsRoutes] at hnil
    cases hvs : o.virtualServices rule.host with
    | none => rfl
    | some vs => simpa [hvs] using hnil
  rw [convertTLSRule, if_pos howner, hroot]
  simp only [hhas, if_neg Bool.false_ne_true, HostClaim.route]
  cases hdest : backendToTLSRouteDestination c.toController httpPath.backend wrapper.config.namespace
      wrapper.annotationsConfig.destination with
  | none => simpa [ConvertOptions.tlsRoutes] using htls
  | some destinations => simpa [ConvertOptions.tlsRoutes] using htls

theorem Routed.afterRule (hr : Routed host owners o cl) (rule : IngressRule) :
    Routed host owners (convertTLSRule c.toController wrapper o rule)
      (cl ++ ruleClaims host owners c wrapper rule) := by
  refine ⟨(owners_convertTLSRule _ rule).trans hr.owners_eq, ?_⟩
  have howner : isPassthroughTLSHostOwner o wrapper.config rule.host =
      ((ownerOf owners rule.host).map fun owner => sameConfig owner wrapper.config).getD false := by
    rw [isPassthroughTLSHostOwner, hr.owners_eq]
  by_cases hhost : rule.host = host
  · subst hhost
    rw [ruleClaims]
    by_cases hsame : ((ownerOf owners rule.host).map fun owner =>
        sameConfig owner wrapper.config).getD false
    · rw [if_pos ⟨rfl, hsame⟩]
      cases hroot : rootHTTPIngressPath rule.paths with
      | none =>
          rw [convertTLSRule, hroot, howner, if_pos hsame]
          simpa using hr.tlsRoutes_eq
      | some httpPath =>
          have hhas := hr.hasTLSRouteForHost_eq
          by_cases hnil : o.tlsRoutes rule.host = []
          · rw [tlsRoutes_convertTLSRule c (howner.trans hsame) hroot (by rw [hhas, hnil]; rfl) hnil]
            have hbefore : cl.filterMap (HostClaim.route rule.host) = [] := by
              rw [hr.tlsRoutes_eq] at hnil
              simpa using hnil
            rw [List.filterMap_append, hbefore]
            cases hroute : HostClaim.route rule.host ⟨c, wrapper, httpPath⟩ with
            | none => simp [hroute]
            | some route => simp [hroute]
          · -- there is a route, and the first claim that asked for it stays the first
            rw [convertTLSRule, hroot, howner, if_pos hsame]
            simp only [hhas]
            rw [if_pos (by simpa using hnil), hr.tlsRoutes_eq, List.filterMap_append]
            rw [hr.tlsRoutes_eq] at hnil
            cases hrest : cl.filterMap (HostClaim.route rule.host) with
            | nil => simp [hrest] at hnil
            | cons route routes => simp
    · rw [convertTLSRule, howner, if_neg hsame, if_neg (fun h => hsame h.2), List.append_nil]
      exact hr.tlsRoutes_eq
  · rw [tlsRoutes_convertTLSRule_other _ (Ne.symm hhost), ruleClaims, if_neg (fun h => hhost h.1),
      List.append_nil]
    exact hr.tlsRoutes_eq

theorem Routed.afterRules (hr : Routed host owners o cl) (rules : List IngressRule) :
    Routed host owners (rules.foldl (convertTLSRule c.toController wrapper) o)
      (cl ++ rules.flatMap (ruleClaims host owners c wrapper)) := by
  induction rules generalizing o cl with
  | nil => simpa using hr
  | cons rule rules ih =>
      rw [List.foldl_cons, List.flatMap_cons, ← List.append_assoc]
      exact ih (hr.afterRule rule)

theorem Routed.afterHTTPRules (hr : Routed host owners o cl) (c : Controller) (wrapper : WrapperConfig)
    (rules : List IngressRule) :
    Routed host owners (rules.foldl (convertRule c wrapper) { options := o }).options cl := by
  have hrules : ∀ st : LoopState, Routed host owners st.options cl →
      Routed host owners (rules.foldl (convertRule c wrapper) st).options cl := by
    induction rules with
    | nil => exact fun st h => h
    | cons rule rules ih =>
        intro st h
        obtain ⟨hroutes, howners⟩ := convertRule_tls c wrapper st rule
        exact ih _ ⟨howners.trans h.owners_eq, hroutes.trans h.tlsRoutes_eq⟩
  exact hrules _ hr

/-- An ingress that owns no host makes no claim. -/
theorem ruleClaims_eq_nil (hnone : (owners.any fun entry => sameConfig entry.2 wrapper.config) = false)
    (rule : IngressRule) : ruleClaims host owners c wrapper rule = [] := by
  rw [ruleClaims, if_neg]
  rintro ⟨-, hsame⟩
  rw [List.any_eq_false] at hnone
  rw [ownerOf] at hsame
  cases hfind : owners.find? (fun entry => entry.1 == host) with
  | none => simp [hfind] at hsame
  | some entry =>
      refine hnone entry (List.mem_of_find?_eq_some hfind) ?_
      simpa [hfind] using hsame

theorem Routed.afterIngress (hr : Routed host owners o cl) :
    Routed host owners (convertHTTPRoute c.toController o wrapper).1
      (cl ++ (rulesOf wrapper).flatMap (ruleClaims host owners c wrapper)) := by
  rw [convertHTTPRoute, rulesOf]
  split
  · rw [List.flatMap_nil, List.append_nil]
    exact ⟨hr.owners_eq, hr.tlsRoutes_eq⟩
  · split
    · rename_i hspec
      simpa [hspec] using hr
    · rename_i spec hspec
      simp only [hspec, Option.map_some, Option.getD_some]
      split
      · rename_i hempty
        simpa [hempty.1] using hr
      · have hstart : Routed host owners
            { o with hasDefaultBackend := o.hasDefaultBackend || declaresDefaultBackend spec } cl :=
          ⟨hr.owners_eq, hr.tlsRoutes_eq⟩
        have hhttp := hstart.afterHTTPRules c.toController wrapper spec.rules
        split
        · rw [convertTLSRoute, hspec]
          dsimp only
          split
          · rename_i hempty
            simpa [hempty] using hhttp
          · exact hhttp.afterRules spec.rules
        · rename_i hnone
          rw [hhttp.owners_eq, Option.isNone_some, Bool.false_and, Bool.or_false,
            hasPassthroughTLSHostOwner, hhttp.owners_eq] at hnone
          have hclaims : spec.rules.flatMap (ruleClaims host owners c wrapper) = [] :=
            List.flatMap_eq_nil_iff.mpr fun rule _ => ruleClaims_eq_nil (by simpa using hnone) rule
          rw [hclaims, List.append_nil]
          exact hhttp

theorem Routed.run (hr : Routed host owners o cl)
    (remoteIngressControllers : GoString → Option GatewayController) (configs : List WrapperConfig) :
    Routed host owners (convertVirtualService remoteIngressControllers o configs)
      (cl ++ claims remoteIngressControllers host owners configs) := by
  induction configs generalizing o cl with
  | nil => simpa [convertVirtualService, claims] using hr
  | cons wrapper configs ih =>
      rw [convertVirtualService, List.foldl_cons, ← convertVirtualService, claims, List.flatMap_cons,
        ← claims]
      cases hc : remoteIngressControllers (getClusterId wrapper.config.annotations) with
      | none => exact ih hr
      | some c =>
          rw [← List.append_assoc]
          exact ih hr.afterIngress

theorem routed_fresh (host : GoString) (owners : List (GoString × Config)) :
    Routed host owners { passthroughTLSHostOwners := some owners } [] := ⟨rfl, rfl⟩

end Routes

/-! ### Agreement -/

/-- Only the owner of a host claims it. -/
theorem sameConfig_of_mem_claims {remoteIngressControllers : GoString → Option GatewayController}
    {host : GoString} {owners : List (GoString × Config)} {configs : List WrapperConfig}
    {claim : HostClaim} (h : claim ∈ claims remoteIngressControllers host owners configs) :
    claim.wrapper ∈ configs ∧
      ∃ owner, ownerOf owners host = some owner ∧ sameConfig owner claim.wrapper.config := by
  obtain ⟨wrapper, hwrapper, hclaim⟩ := List.mem_flatMap.mp h
  cases hc : remoteIngressControllers (getClusterId wrapper.config.annotations) with
  | none => simp [hc] at hclaim
  | some c =>
      rw [hc] at hclaim
      obtain ⟨rule, -, hclaim⟩ := List.mem_flatMap.mp hclaim
      rw [ruleClaims] at hclaim
      split at hclaim
      · rename_i hsame
        obtain ⟨httpPath, -, rfl⟩ := List.mem_map.mp hclaim
        refine ⟨hwrapper, ?_⟩
        cases howner : ownerOf owners host with
        | none => simp [howner] at hsame
        | some owner => exact ⟨owner, rfl, by simpa [howner] using hsame.2⟩
      · cases hclaim

/-- SSL passthrough. Whatever ingresses are converted, with the same owners on both sides,
a host has at most one TLS server. Its virtual service has a TLS route exactly if this
server passes TLS through and the backend of some claim of the owner can be resolved; the
route is the one such a claim asks for, and the server was made for a claim of the same
owner. -/
theorem passthrough_agrees (remoteIngressControllers : GoString → Option GatewayController)
    (https : Option CredentialConfig) (owners : List (GoString × Config))
    (configs : List WrapperConfig) (host : GoString) :
    let gateways := convertGateways remoteIngressControllers https
      { passthroughTLSHostOwners := some owners } configs
    let services := convertVirtualService remoteIngressControllers
      { passthroughTLSHostOwners := some owners } configs
    let made := claims remoteIngressControllers host owners configs
    let passed := ∃ server ∈ gateways.tlsServers host,
      server.tls.map ServerTLSSettings.mode = some .passthrough
    (gateways.tlsServers host).length ≤ 1 ∧
    (passed ↔ made ≠ []) ∧
    (services.tlsRoutes host ≠ [] ↔ passed ∧ ∃ claim ∈ made, (claim.route host).isSome) ∧
    (∀ route ∈ services.tlsRoutes host, ∃ claim ∈ made, claim.route host = some route) ∧
    (passed → ∃ claim ∈ made,
      (gateways.valid host).map IngressDomainBuilder.ingress = some claim.wrapper.config) ∧
    ∀ claim ∈ made, claim.wrapper ∈ configs ∧
      ∃ owner, ownerOf owners host = some owner ∧ sameConfig owner claim.wrapper.config := by
  intro gateways services made passed
  have hpasses : Passes host owners gateways made :=
    (passes_fresh host owners).run remoteIngressControllers configs
  have hrouted : Routed host owners services made :=
    (routed_fresh host owners).run remoteIngressControllers configs
  have hsame : ∀ claim ∈ made, _ := fun claim hclaim => sameConfig_of_mem_claims hclaim
  have hpassed : passed ↔ made ≠ [] := by
    cases howner : ownerOf owners host with
    | none =>
        obtain ⟨hnil, -, hsimple⟩ := hpasses.notOwned howner
        refine iff_of_false ?_ (not_not.mpr hnil)
        rintro ⟨server, hserver, hmode⟩
        rw [hsimple server hserver] at hmode
        cases hmode
    | some owner =>
        have hservers := hpasses.owned (by rw [howner]; rfl)
        cases hmade : made with
        | nil => simp [passed, hservers, hmade]
        | cons claim rest => simp [passed, hservers, hmade, createSSLPassthroughServer]
  refine ⟨?_, hpassed, ?_, ?_, ?_, hsame⟩
  · cases howner : ownerOf owners host with
    | none => exact (hpasses.notOwned howner).2.1
    | some owner =>
        rw [hpasses.owned (by rw [howner]; rfl)]
        exact List.length_take_le 1 _
  · rw [hrouted.tlsRoutes_eq, hpassed]
    constructor
    · intro hne
      obtain ⟨route, hroute⟩ := List.exists_mem_of_ne_nil _ hne
      obtain ⟨claim, hclaim, hsome⟩ := List.mem_filterMap.mp (List.mem_of_mem_take hroute)
      exact ⟨List.ne_nil_of_mem hclaim, claim, hclaim, by rw [hsome]; rfl⟩
    · rintro ⟨-, claim, hclaim, hsome⟩
      obtain ⟨route, hroute⟩ := Option.isSome_iff_exists.mp hsome
      have hmem : route ∈ made.filterMap (HostClaim.route host) :=
        List.mem_filterMap.mpr ⟨claim, hclaim, hroute⟩
      cases hroutes : made.filterMap (HostClaim.route host) with
      | nil => simp [hroutes] at hmem
      | cons first rest => simp
  · intro route hroute
    rw [hrouted.tlsRoutes_eq] at hroute
    exact List.mem_filterMap.mp (List.mem_of_mem_take hroute)
  · intro hpass
    obtain ⟨claim, rest, hmade⟩ := List.exists_cons_of_ne_nil (hpassed.mp hpass)
    exact ⟨claim, by rw [hmade]; exact List.mem_cons_self, hpasses.valid claim (by rw [hmade]; rfl)⟩

/-! ### A backend that cannot be resolved -/

/-- A controller that knows no named ports. -/
def sampleController : GatewayController where
  clusterId := []
  systemNamespace := bytes "higress-system"
  domainSuffix := []
  resolveNamedPort _ _ := none
  gatewayHttpPort := 80
  gatewayHttpsPort := 443
  gatewaySelector := none
  secretIsNotFound _ _ := false
  toKubernetesIngressResource ns name := bytes "kubernetes-ingress:///" ++ ns ++ bytes "/" ++ name

/-- An ingress whose TLS is passed through to a named port. -/
def namedPortIngress : WrapperConfig where
  config :=
    { name := bytes "app"
      «namespace» := bytes "default"
      spec := some
        { rules :=
            [{ host := bytes "example.com"
               paths :=
                [{ path := bytes "/"
                   backend := { service := some ⟨bytes "app", { name := bytes "tls" }⟩ } }] }] } }
  annotationsConfig := { sslPassthrough := true }

/-- The port of the backend is not known: the gateway passes TLS through, but there is no
route. -/
theorem passthrough_without_route :
    let owners := preparePassthroughTLSHostOwners [namedPortIngress]
    let gateways := convertGateways (fun _ => some sampleController) none
      { passthroughTLSHostOwners := some owners } [namedPortIngress]
    let services := convertVirtualService (fun _ => some sampleController)
      { passthroughTLSHostOwners := some owners } [namedPortIngress]
    (gateways.tlsServers (bytes "example.com")).map (fun s => s.tls.map ServerTLSSettings.mode) =
        [some .passthrough] ∧
      services.tlsRoutes (bytes "example.com") = [] := by
  decide +kernel

end Higress.Ingress
