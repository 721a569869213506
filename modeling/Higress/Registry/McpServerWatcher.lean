import Mathlib
import Higress.Ingress.Gateway
import Higress.Registry.Watchers

/-!
The watcher of the MCP servers of a Nacos registry (`registry/nacos/mcpserver/watcher.go`). A callback
brings the specification of a server with its services and tools, from which up to five configs are
derived and cached under the id of its data.

A config that is not derived is not touched in the cache. So what an earlier callback has derived there
stays: the destination rule of a server that was reached with TLS, the entry of services that are gone, the
plugin rule of a server that had tools.
-/

namespace Higress.Registry.McpServer

open Lib

/-! ### The model -/

/-- The kinds of config that are derived. -/
inductive Kind
  | serviceEntry
  | virtualService
  | mcpServer
  | destinationRule
  | wasmPlugin
deriving DecidableEq

structure Instance where
  ip : GoString
  port : ℕ
  healthy : Bool
  enable : Bool
  metadata : Option (List (GoString × GoString))

structure ServiceRef where
  namespaceId : GoString
  groupName : GoString
  serviceName : GoString

/-- `McpServer`, as far as it is used; there is no reference without a remote server config. -/
structure Server where
  protocol : GoString
  name : GoString
  serviceRef : Option ServiceRef

/-- `McpServerConfig`, what a callback brings. -/
structure Info (κ : Type) where
  serverSpecConfig : GoString
  toolsSpecConfig : GoString
  serviceInfo : Option (List Instance)
  credentials : κ

structure VirtualService where
  hosts : List GoString
  gateways : List GoString
  routeName : GoString
  path : GoString
  destination : GoString
  rewriteUri : Option GoString
  rewriteAuthority : Option GoString

structure McpServerSpec where
  name : GoString
  domains : List GoString
  pathMatchType : GoString
  pathMatchValue : GoString
  upstreamType : GoString
  enablePathRewrite : Bool
  pathRewritePrefix : GoString

/-- The traffic policy of a destination rule. -/
inductive TrafficPolicy
  | consistentHashSourceIp
  | simpleTls

structure DestinationRule where
  host : GoString
  trafficPolicy : TrafficPolicy

/-- `McpServerRule`, with the tools as they are converted. -/
structure Rule (κ ρ : Type) where
  matchRoute : List GoString
  serverName : GoString
  credentials : κ
  tools : ρ

inductive Spec (κ ρ : Type)
  | serviceEntry (se : ServiceEntry)
  | virtualService (vs : VirtualService)
  | mcpServer (ms : McpServerSpec)
  | destinationRule (dr : DestinationRule)
  | rule (rule : Rule κ ρ)

structure Config (κ ρ : Type) where
  name : GoString
  namespaceName : GoString
  spec : Spec κ ρ

/-- What the watcher has others do: the reading of JSON, where a specification is filled as far as it
could be read, the conversion of the tools, addresses, hashes of host names and letter case. -/
structure Env (τ ρ : Type) where
  unmarshalServer : GoString → Server × Bool
  unmarshalTools : GoString → Option τ
  convertTools : τ → ρ
  isValidIP : GoString → Bool
  cleanHost : GoString → GoString
  caseTable : CaseTable
  istioIngressGatewayName : GoString

structure Settings where
  mcpServerExportDomains : List GoString
  mcpServerBaseUrl : GoString
  namespaceName : GoString
  clusterId : GoString

variable {τ ρ κ : Type} (env : Env τ ρ) (w : Settings)

/-- `store.configs` -/
abbrev ConfigCache (κ ρ : Type) := Kind → GoString → Option (Config κ ρ)

/-- `UpdateConfigCache` without a forced deletion. -/
def updateConfigCache (cache : ConfigCache κ ρ) (kind : Kind) (key : GoString)
    (cfg : Option (Config κ ρ)) : ConfigCache κ ρ :=
  match cfg with
  | none => cache
  | some cfg => Function.update cache kind (Function.update (cache kind) key (some cfg))

def supportedProtocols : List GoString :=
  [bytes "http", bytes "https", bytes "mcp-sse", bytes "mcp-streamable"]

def generatedName (part dataId : GoString) : GoString :=
  bytes "istio-autogenerated-mcp-" ++ part ++ bytes "-" ++ Strings.trimSuffix dataId (bytes ".json")

def getServiceFullHostFromMcpServer (server : Server) : GoString :=
  match server.serviceRef with
  | none => []
  | some ref =>
      let groupName := if ref.groupName = bytes "DEFAULT_GROUP" then bytes "DEFAULT-GROUP" else ref.groupName
      let suffix := Strings.join [groupName, ref.namespaceId, bytes "nacos"] (bytes ".")
      Strings.join [ref.serviceName, suffix] (bytes ".")

def getNacosServiceResolution (hosts : List Instance) : Resolution :=
  if hosts.any fun host => env.isValidIP host.ip then .static else .dns

def servicePort (service : Instance) : ServicePort :=
  let value := ((service.metadata.getD []).lookup (bytes "protocol")).getD []
  let protocol := if value ≠ [] then parseProtocol env.caseTable value else .http
  ⟨protocol.string, service.port % 2 ^ 32, protocol.string⟩

def generateServiceEntry (host : GoString) (services : Option (List Instance)) : Option ServiceEntry :=
  match services with
  | none => none
  | some [] => none
  | some (service :: hosts) =>
      let serving := (service :: hosts).filter fun service => service.healthy && service.enable
      some
        { hosts := [host]
          ports := (serving.map (servicePort env)).take 1
          resolution := getNacosServiceResolution env (service :: hosts)
          endpoints := serving.map fun service =>
            let port := servicePort env service
            ⟨service.ip, (port.protocol, port.number), service.metadata.getD [], 0⟩ }

/-- The domains that the server is exported to. -/
def exportDomains : List GoString :=
  if w.mcpServerExportDomains = [] then [bytes "*"] else w.mcpServerExportDomains

/-- The path of the server below the base path. -/
def mergePath (server : Server) : GoString :=
  if w.mcpServerBaseUrl ≠ [] ∧ w.mcpServerBaseUrl ≠ bytes "/" then
    Strings.trimSuffix w.mcpServerBaseUrl (bytes "/") ++ bytes "/" ++ server.name
  else bytes "/" ++ server.name

def buildVirtualServiceForMcpServer (server : Server) (dataId serviceName : GoString)
    (se : Option ServiceEntry) : VirtualService :=
  let hosts := exportDomains w
  { hosts := hosts
    gateways := hosts.flatMap fun host =>
      [w.namespaceName ++ bytes "/" ++
          Ingress.createConvertedName [w.clusterId, env.cleanHost host],
        Ingress.createConvertedName [env.istioIngressGatewayName, env.cleanHost host]]
    routeName := generatedName (bytes "httproute") dataId
    path := mergePath w server
    destination := serviceName
    -- the path is rewritten for the transports of MCP, and the host for services with a DNS name
    rewriteUri :=
      if server.protocol = bytes "mcp-sse" ∨ server.protocol = bytes "mcp-streamable" then
        some (bytes "/")
      else none
    rewriteAuthority := match se with
      | some ⟨_, _, .dns, endpoint :: _⟩ => some endpoint.address
      | _ => none }

def upstreamType (protocol : GoString) : GoString :=
  if protocol = bytes "http" ∨ protocol = bytes "https" then bytes "rest"
  else if protocol = bytes "mcp-sse" then bytes "sse"
  else if protocol = bytes "mcp-streamable" then bytes "streamable"
  else []

def buildMcpServerForMcpServer (vs : VirtualService) (dataId : GoString) (server : Server) :
    McpServerSpec :=
  let rewrites := server.protocol = bytes "mcp-sse"
  { name := generatedName (bytes "mcpserver") dataId
    domains := exportDomains w
    pathMatchType := bytes "prefix"
    pathMatchValue := vs.path
    upstreamType := upstreamType server.protocol
    enablePathRewrite := decide rewrites
    pathRewritePrefix := if rewrites then bytes "/" else [] }

def generateDrForMcpServer (host protocol : GoString) : Option DestinationRule :=
  if protocol = bytes "mcp-sse" then some ⟨host, .consistentHashSourceIp⟩
  else if protocol = bytes "https" then some ⟨host, .simpleTls⟩
  else none

def processServerConfig (cache : ConfigCache κ ρ) (dataId : GoString)
    (services : Option (List Instance)) (mcpServer : Server) : ConfigCache κ ρ :=
  let serviceHost := getServiceFullHostFromMcpServer mcpServer
  let serviceEntry := generateServiceEntry env serviceHost services
  let cache := updateConfigCache cache .serviceEntry dataId
    (serviceEntry.map fun se => ⟨generatedName (bytes "se") dataId, bytes "mcp", .serviceEntry se⟩)
  let virtualService := buildVirtualServiceForMcpServer env w mcpServer dataId serviceHost serviceEntry
  -- the name of the virtual service has the whole id
  let cache := updateConfigCache cache .virtualService dataId
    (some ⟨bytes "istio-autogenerated-mcp-vs-" ++ dataId, w.namespaceName,
      .virtualService virtualService⟩)
  let ms := buildMcpServerForMcpServer w virtualService dataId mcpServer
  let cache := updateConfigCache cache .mcpServer dataId
    (some ⟨ms.name, w.namespaceName, .mcpServer ms⟩)
  let destinationRule := generateDrForMcpServer serviceHost mcpServer.protocol
  updateConfigCache cache .destinationRule dataId
    (destinationRule.map fun dr =>
      ⟨generatedName (bytes "dr") dataId, w.namespaceName, .destinationRule dr⟩)

def processToolConfig (cache : ConfigCache κ ρ) (dataId data : GoString) (credentials : κ)
    (server : Server) : ConfigCache κ ρ :=
  if server.protocol ≠ bytes "http" ∧ server.protocol ≠ bytes "https" then cache
  else
    match env.unmarshalTools data with
    | none => cache
    | some toolsDescription =>
        let rule : Rule κ ρ :=
          ⟨[generatedName (bytes "httproute") dataId], server.name, credentials,
            env.convertTools toolsDescription⟩
        updateConfigCache cache .wasmPlugin dataId (some ⟨[], w.namespaceName, .rule rule⟩)

/-- The function that `mcpServerListener` returns. A specification that could not be read is used as far
as it could. -/
def mcpServerListener (cache : ConfigCache κ ρ) (dataId : GoString) (info : Info κ) :
    ConfigCache κ ρ :=
  let mcpServer := (env.unmarshalServer info.serverSpecConfig).1
  if mcpServer.protocol ∉ supportedProtocols then cache
  else
    processToolConfig env w (processServerConfig env w cache dataId info.serviceInfo mcpServer) dataId
      info.toolsSpecConfig info.credentials mcpServer

/-- The cache after some callbacks, each with its data id. -/
def run (callbacks : List (GoString × Info κ)) : ConfigCache κ ρ :=
  callbacks.foldl (fun cache callback => mcpServerListener env w cache callback.1 callback.2)
    fun _ _ => none

/-! ### What a callback asks for -/

/-- The config of a kind that the data of a callback ask for. -/
def derived (dataId : GoString) (info : Info κ) (kind : Kind) : Option (Config κ ρ) :=
  let server := (env.unmarshalServer info.serverSpecConfig).1
  let host := getServiceFullHostFromMcpServer server
  let se := generateServiceEntry env host info.serviceInfo
  let vs := buildVirtualServiceForMcpServer env w server dataId host se
  match kind with
  | .serviceEntry => se.map fun se => ⟨generatedName (bytes "se") dataId, bytes "mcp", .serviceEntry se⟩
  | .virtualService =>
      some ⟨bytes "istio-autogenerated-mcp-vs-" ++ dataId, w.namespaceName, .virtualService vs⟩
  | .mcpServer =>
      let ms := buildMcpServerForMcpServer w vs dataId server
      some ⟨ms.name, w.namespaceName, .mcpServer ms⟩
  | .destinationRule => (generateDrForMcpServer host server.protocol).map fun dr =>
      ⟨generatedName (bytes "dr") dataId, w.namespaceName, .destinationRule dr⟩
  | .wasmPlugin =>
      if server.protocol = bytes "http" ∨ server.protocol = bytes "https" then
        (env.unmarshalTools info.toolsSpecConfig).map fun tools =>
          ⟨[], w.namespaceName, .rule ⟨[generatedName (bytes "httproute") dataId], server.name,
            info.credentials, env.convertTools tools⟩⟩
      else none

/-- The protocol of the specification is supported, so that the callback does something. -/
def Supported (info : Info κ) : Prop :=
  (env.unmarshalServer info.serverSpecConfig).1.protocol ∈ supportedProtocols

instance (info : Info κ) : Decidable (Supported env info) :=
  inferInstanceAs (Decidable (_ ∈ supportedProtocols))

/-- The specification could be read. -/
structure Valid (info : Info κ) : Prop where
  read : (env.unmarshalServer info.serverSpecConfig).2 = true
  supported : Supported env info

variable {env w}

theorem updateConfigCache_apply (cache : ConfigCache κ ρ) (kind kind' : Kind) (key key' : GoString)
    (cfg : Option (Config κ ρ)) : updateConfigCache cache kind key cfg kind' key' =
      if kind' = kind ∧ key' = key then cfg.or (cache kind' key') else cache kind' key' := by
  cases cfg with
  | none => simp [updateConfigCache]
  | some cfg =>
      rw [updateConfigCache]
      by_cases hkind : kind' = kind
      · subst hkind
        by_cases hkey : key' = key
        · simp [hkey]
        · simp [hkey]
      · simp [hkind]

/-- The first step writes the kinds other than the rule of the plugin. -/
theorem processServerConfig_apply (cache : ConfigCache κ ρ) (dataId : GoString) (info : Info κ)
    (kind : Kind) (key : GoString) :
    processServerConfig env w cache dataId info.serviceInfo
        (env.unmarshalServer info.serverSpecConfig).1 kind key =
      if kind ≠ .wasmPlugin ∧ key = dataId then (derived env w dataId info kind).or (cache kind key)
      else cache kind key := by
  simp only [processServerConfig, updateConfigCache_apply]
  cases kind <;> by_cases hkey : key = dataId <;> simp [derived, hkey]

/-- The second step writes the rule of the plugin. -/
theorem processToolConfig_apply (cache : ConfigCache κ ρ) (dataId : GoString) (info : Info κ)
    (kind : Kind) (key : GoString) :
    processToolConfig env w cache dataId info.toolsSpecConfig info.credentials
        (env.unmarshalServer info.serverSpecConfig).1 kind key =
      if kind = .wasmPlugin ∧ key = dataId then (derived env w dataId info kind).or (cache kind key)
      else cache kind key := by
  have hrule : kind = .wasmPlugin → derived env w dataId info kind =
      derived env w dataId info .wasmPlugin := congrArg _
  rw [processToolConfig]
  split
  · rename_i hother
    have hnone : derived env w dataId info .wasmPlugin = none := by
      rw [derived]
      exact if_neg (not_or.mpr hother)
    split
    · rename_i hkind
      rw [hrule hkind.1, hnone, Option.none_or]
    · rfl
  · rename_i hhttp
    have hsome : derived env w dataId info .wasmPlugin =
        (env.unmarshalTools info.toolsSpecConfig).map fun tools =>
          ⟨[], w.namespaceName, .rule ⟨[generatedName (bytes "httproute") dataId],
            (env.unmarshalServer info.serverSpecConfig).1.name, info.credentials,
            env.convertTools tools⟩⟩ := by
      rw [derived]
      exact if_pos (by simpa only [ne_eq, not_and_or, not_not] using hhttp)
    cases htools : env.unmarshalTools info.toolsSpecConfig with
    | none =>
        rw [htools] at hsome
        split
        · rename_i hkind
          rw [hrule hkind.1, hsome, Option.map_none, Option.none_or]
        · rfl
    | some tools =>
        rw [htools] at hsome
        dsimp only
        rw [updateConfigCache_apply]
        split
        · rename_i hkind
          rw [hrule hkind.1, hsome]
          rfl
        · rfl

/-- The configs under other ids are left alone, and those under its own id are replaced where new ones
are derived. -/
theorem mcpServerListener_apply (cache : ConfigCache κ ρ) (dataId : GoString) (info : Info κ)
    (kind : Kind) (key : GoString) : mcpServerListener env w cache dataId info kind key =
      if Supported env info ∧ key = dataId then (derived env w dataId info kind).or (cache kind key)
      else cache kind key := by
  rw [mcpServerListener]
  by_cases hsupported : Supported env info
  · have hmem : (env.unmarshalServer info.serverSpecConfig).1.protocol ∈ supportedProtocols := hsupported
    simp only [hsupported, hmem, not_true_eq_false, if_false, true_and]
    rw [processToolConfig_apply, processServerConfig_apply]
    by_cases hkind : kind = .wasmPlugin <;> by_cases hkey : key = dataId <;> simp [hkind, hkey]
  · have hmem : (env.unmarshalServer info.serverSpecConfig).1.protocol ∉ supportedProtocols := hsupported
    simp [hsupported, hmem]

/-! ### Runs -/

/-- A kind is in the cache if one of the callbacks has derived it. -/
theorem run_isSome {callbacks : List (GoString × Info κ)} {kind : Kind} {key : GoString} :
    (run env w callbacks kind key).isSome = true ↔ ∃ callback ∈ callbacks, callback.1 = key ∧
      Supported env callback.2 ∧ (derived env w key callback.2 kind).isSome = true := by
  induction callbacks using List.reverseRecOn with
  | nil => simp [run]
  | append_singleton callbacks callback ih =>
      have hstep : run env w (callbacks ++ [callback]) kind key =
          if Supported env callback.2 ∧ key = callback.1 then
            (derived env w callback.1 callback.2 kind).or (run env w callbacks kind key)
          else run env w callbacks kind key := by
        rw [run, List.foldl_append]
        exact mcpServerListener_apply _ _ _ _ _
      rw [hstep]
      simp only [List.mem_append, List.mem_singleton, or_and_right, exists_or, exists_eq_left]
      rw [← ih]
      split
      · rename_i h
        obtain ⟨hsupported, rfl⟩ := h
        rw [Option.isSome_or]
        simp [hsupported, or_comm]
      · rename_i h
        rw [or_iff_left]
        rintro ⟨rfl, hsupported, -⟩
        exact h ⟨hsupported, rfl⟩

/-- After a callback with a valid specification, the configs under its id are those that its data ask
for if and only if it derives every kind that a callback for the same id has derived before. -/
theorem cached_iff_derived (env : Env τ ρ) (w : Settings) (callbacks : List (GoString × Info κ))
    (dataId : GoString) (info : Info κ) (hvalid : Valid env info) :
    (∀ kind, run env w (callbacks ++ [(dataId, info)]) kind dataId = derived env w dataId info kind) ↔
      ∀ kind, ∀ callback ∈ callbacks, callback.1 = dataId → Supported env callback.2 →
        (derived env w dataId callback.2 kind).isSome = true →
          (derived env w dataId info kind).isSome = true := by
  have hstep (kind : Kind) : run env w (callbacks ++ [(dataId, info)]) kind dataId =
      (derived env w dataId info kind).or (run env w callbacks kind dataId) := by
    rw [run, List.foldl_append, List.foldl_cons, List.foldl_nil, mcpServerListener_apply,
      if_pos ⟨hvalid.supported, rfl⟩]
    rfl
  refine forall_congr' fun kind => ?_
  rw [hstep]
  cases hderived : derived env w dataId info kind with
  | some cfg => simp
  | none =>
      rw [Option.none_or, ← Option.not_isSome_iff_eq_none, run_isSome]
      simp only [not_exists, not_and, Option.isSome_none, Bool.false_eq_true]

/-! ### A server that is reached without TLS again -/

namespace Sample

def spec (protocol : GoString) : GoString :=
  bytes "\x7b\"protocol\":\"" ++ protocol ++ bytes "\",\"name\":\"tools\"\x7d"

/-- The reading of these specifications, all with tools that can be read. -/
def reader : Env Unit Unit where
  unmarshalServer s :=
    match supportedProtocols.find? fun protocol => spec protocol == s with
    | some protocol => (⟨protocol, bytes "tools", none⟩, true)
    | none => (⟨[], [], none⟩, false)
  unmarshalTools _ := some ()
  convertTools _ := ()
  isValidIP _ := true
  cleanHost host := host
  caseTable := plainCaseTable
  istioIngressGatewayName := bytes "istio-ingressgateway"

def settings : Settings := ⟨[], [], bytes "higress-system", bytes "Kubernetes"⟩

def info (protocol : GoString) : Info Unit := ⟨spec protocol, [], none, ()⟩

def dataId : GoString := bytes "a-mcp-server.json"

end Sample

theorem cached_after_https :
    Valid Sample.reader (Sample.info (bytes "https")) ∧
      ∀ kind, run Sample.reader Sample.settings
          ([(Sample.dataId, Sample.info (bytes "http"))] ++
            [(Sample.dataId, Sample.info (bytes "https"))]) kind Sample.dataId =
        derived Sample.reader Sample.settings Sample.dataId (Sample.info (bytes "https")) kind := by
  have hvalid : Valid Sample.reader (Sample.info (bytes "https")) := ⟨by decide, by decide⟩
  refine ⟨hvalid, (cached_iff_derived Sample.reader Sample.settings
    [(Sample.dataId, Sample.info (bytes "http"))] Sample.dataId (Sample.info (bytes "https"))
    hvalid).mpr ?_⟩
  intro kind callback hcallback _ _ hderived
  rw [List.mem_singleton.mp hcallback] at hderived
  cases kind with
  | serviceEntry => exact absurd hderived (by decide)
  | virtualService => rfl
  | mcpServer => rfl
  | destinationRule => exact absurd hderived (by decide)
  | wasmPlugin => decide

/-- The destination rule with TLS stays. -/
theorem cached_destinationRule_stale :
    Valid Sample.reader (Sample.info (bytes "http")) ∧
      (derived Sample.reader Sample.settings Sample.dataId (Sample.info (bytes "http"))
        .destinationRule).isSome = false ∧
      (run Sample.reader Sample.settings [(Sample.dataId, Sample.info (bytes "https")),
        (Sample.dataId, Sample.info (bytes "http"))] .destinationRule Sample.dataId).isSome = true := by
  refine ⟨⟨by decide, by decide⟩, by decide, by decide⟩

end Higress.Registry.McpServer
