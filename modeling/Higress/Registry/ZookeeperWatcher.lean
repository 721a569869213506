import Mathlib
import Higress.Lib.Decimal
import Higress.Lib.Path
import Higress.Registry.Watchers

/-!
The watcher of a ZooKeeper registry (`registry/zookeeper/watcher.go`). The children of the path of a
service are its providers. When they change, the interface configs of all hosts are derived from the
children, and the hosts that are new or differ are put into a table and into the store.

Hosts that are derived no more stay in both. There is an event that deletes endpoints, but it is made only
when no child is left, and for children that can still be read.
-/

namespace Higress.Registry.Zookeeper

open Lib

/-! ### The model -/

inductive ServiceType
  | dubbo
  | springCloud
deriving DecidableEq

/-- An endpoint; the metadata are a map, listed in a fixed order. -/
structure Endpoint where
  ip : GoString
  port : GoString
  metadata : Option (List (GoString × GoString))
deriving DecidableEq

structure InterfaceConfig where
  host : GoString
  endpoints : List Endpoint
  protocol : GoString
  serviceType : ServiceType
deriving DecidableEq

/-- `SpringCloudInstance`, as far as it is used. -/
structure SpringCloudInstance where
  address : GoString
  port : ℤ
  metadata : Option (List (GoString × GoString))

/-- What the watcher has others read: JSON, and URLs with their queries. -/
structure Env where
  unmarshalInstance : GoString → Option SpringCloudInstance
  /-- the path and the raw query of a URL -/
  parseURL : GoString → Option (GoString × GoString)
  parseQuery : GoString → Option (List (GoString × List GoString))
  caseTable : CaseTable

variable (env : Env)

/-- The first value of a query parameter. -/
def firstValue (values : List (GoString × List GoString)) (key : GoString) : Option GoString :=
  (values.lookup key).bind List.head?

def getSpringCloudConfig (interfaceName content : GoString) : Option (GoString × InterfaceConfig) :=
  (env.unmarshalInstance content).map fun instance' =>
    let protocol := ((instance'.metadata.getD []).lookup (bytes "protocol")).getD []
    (interfaceName,
      { host := interfaceName
        protocol :=
          (if protocol ≠ [] then parseProtocol env.caseTable protocol else Protocol.http).string
        endpoints := [⟨instance'.address, formatInt instance'.port, instance'.metadata⟩]
        serviceType := .springCloud })

/-- The text of a Dubbo URL with the separators of its query unescaped. -/
def unescapeSeparators (dubboUrl : GoString) : GoString :=
  replaceAll (replaceAll (Strings.replaceFirst dubboUrl (bytes "%3F") (bytes "?")) (bytes "%3D")
    (bytes "=")) (bytes "%26") (bytes "&")

def getDubboConfig (dubboUrl : GoString) : Option (GoString × InterfaceConfig) :=
  let dubboUrl := unescapeSeparators dubboUrl
  let tempPath := replaceAll dubboUrl (bytes "/dubbo/") []
  let key := (split tempPath (bytes "/providers/dubbo")).headD []
  (env.parseURL dubboUrl).bind fun serviceUrl =>
    let path := replaceAll serviceUrl.1
      (bytes "/dubbo/" ++ key ++ bytes "/providers" ++ bytes "/dubbo://") []
    (env.parseQuery serviceUrl.2).bind fun values =>
      let group := (firstValue values (bytes "group")).getD []
      let version := (firstValue values (bytes "version")).getD (bytes "0.0.0")
      let host := bytes "providers:" ++ key ++ bytes ":" ++ version ++ bytes ":" ++ group
      match split ((split path (bytes "/")).headD []) (bytes ":") with
      | [ip, port] =>
          let single := values.filterMap fun value =>
            if value.2.length = 1 then some (value.1, value.2.headD []) else none
          let metadata := single.filter (·.1 ≠ bytes "protocol") ++ [(bytes "protocol", bytes "dubbo")]
          some (host,
            { host := host
              endpoints := [⟨ip, port, some metadata⟩]
              protocol := bytes "dubbo"
              serviceType := .dubbo })
      | _ => none

/-- The number of a port, if `strconv.ParseUint(port, 10, 16)` can read it and it is not zero. -/
def portNumber (port : GoString) : Option ℕ :=
  if isDecimal port = true ∧ decimalValue port < 2 ^ 16 ∧ decimalValue port ≠ 0 then
    some (decimalValue port)
  else none

def generateServiceEntry (config : InterfaceConfig) : ServiceEntry :=
  let served := config.endpoints.filterMap fun service =>
    (portNumber service.port).map fun number =>
      let value := ((service.metadata.getD []).lookup (bytes "protocol")).getD []
      let protocol := if value ≠ [] then parseProtocol env.caseTable value else .http
      (service, (⟨protocol.string, number, protocol.string⟩ : ServicePort))
  { hosts := [config.host ++ bytes ".zookeeper"]
    ports := (served.map Prod.snd).take 1
    resolution := .static
    endpoints := served.map fun service =>
      ⟨service.1.ip, (service.2.protocol, service.2.number), service.1.metadata.getD [], 1⟩ }

/-- The watcher: its table, the store that it writes to, and its configuration. -/
structure Watcher (β : Type) where
  serviceEntry : Entries InterfaceConfig := ∅
  cache : Store (ServiceWrapper ServiceEntry) β
  keepStaleWhenEmpty : Bool := false
  type : GoString
  name : GoString

variable {β : Type}

/-- The service entry of a config goes into the store. -/
def Watcher.update (w : Watcher β) (host : GoString) (config : InterfaceConfig) (now : ℕ) : Watcher β :=
  { w with
    cache := w.cache.updateServiceWrapper host
      ⟨host, generateServiceEntry env config, bytes "zookeeper", w.type, w.name⟩ now }

inductive EventAction
  | add
  | update
  | del
deriving DecidableEq

/-- The two endpoints are at the same address. -/
def sameAddress (a b : Endpoint) : Bool := a.ip == b.ip && a.port == b.port

/-- `DataChange`, with the config that `GetInterfaceConfig` returns for its event; a config has one
endpoint. -/
def dataChange (w : Watcher β) (action : EventAction) (interfaceConfig : Option (GoString × InterfaceConfig))
    (now : ℕ) : Watcher β :=
  match interfaceConfig with
  | none => w
  | some (host, config) =>
      let endpoint := config.endpoints.head?
      match action with
      | .add | .update =>
          let value := match w.serviceEntry.lookup host with
            | none => config
            | some value =>
                if value.endpoints.any fun e => endpoint.any (sameAddress e) then value
                else { value with endpoints := value.endpoints ++ endpoint.toList }
          Watcher.update env { w with serviceEntry := w.serviceEntry.insert host value } host value now
      | .del =>
          let value := (w.serviceEntry.lookup host).map fun value =>
            { value with endpoints := value.endpoints.filter fun e => !endpoint.any (sameAddress e) }
          let w := match value with
            | none => w
            | some value => { w with serviceEntry := w.serviceEntry.insert host value }
          let value := value.getD ⟨[], [], [], .dubbo⟩
          if (generateServiceEntry env value).endpoints = [] then
            if w.keepStaleWhenEmpty then w
            else { w with cache := w.cache.deleteServiceWrapper host }
          else w.update env host value now

/-- What ZooKeeper has under a path when it is read: whether the path is there, and its children with their
contents. -/
structure Observation where
  pathExists : Bool
  nodes : List (GoString × GoString)
  oldChildren : List GoString
  now : ℕ

/-- The service that is watched. -/
structure Service where
  type : ServiceType
  interfaceName : GoString
  zkPath : GoString

/-- The config of a child that can be read. A Dubbo child is not read: its name has all that is needed. -/
def childConfig (service : Service) (o : Observation) (child : GoString) :
    Option (GoString × InterfaceConfig) :=
  match service.type with
  | .dubbo => getDubboConfig env (Path.join [service.zkPath, child])
  | .springCloud => (o.nodes.lookup child).bind (getSpringCloudConfig env service.interfaceName)

/-- A config beside those that have been derived: its endpoints follow those of its host. -/
def addConfig (entries : Entries InterfaceConfig) (config : GoString × InterfaceConfig) :
    Entries InterfaceConfig :=
  entries.insert config.1 (match entries.lookup config.1 with
    | none => config.2
    | some existing => { existing with endpoints := existing.endpoints ++ config.2.endpoints })

/-- `SpringCloudChildToServiceEntry` and `DubboChildToServiceEntry`. -/
def derived (service : Service) (o : Observation) : Entries InterfaceConfig :=
  ((o.nodes.map Prod.fst).filterMap (childConfig env service o)).foldl addConfig ∅

/-- A derived config goes into the table and into the store, unless the table has it. -/
def publish (now : ℕ) (w : Watcher β) (entry : Σ _ : GoString, InterfaceConfig) : Watcher β :=
  if w.serviceEntry.lookup entry.1 = some entry.2 then w
  else
    Watcher.update env { w with serviceEntry := w.serviceEntry.insert entry.1 entry.2 } entry.1 entry.2 now

def childToServiceEntry (service : Service) (w : Watcher β) (o : Observation) : Watcher β :=
  (derived env service o).entries.foldl (publish env o.now) w

/-- `handleZkNodeEvent`. Without children, the ones that were there before are deleted as far as they can
still be read. -/
def handleZkNodeEvent (service : Service) (w : Watcher β) (o : Observation) : Watcher β :=
  if o.nodes = [] then
    if o.pathExists then
      o.oldChildren.foldl (fun w child =>
        match o.nodes.lookup child with
        | none => w
        | some _ => dataChange env w .del (childConfig env service o child) o.now) w
    else w
  else childToServiceEntry env service w o

/-- A run of observations from an empty table and an empty store. -/
def run (service : Service) (type name : GoString) (observations : List Observation) : Watcher β :=
  observations.foldl (handleZkNodeEvent env service) { cache := .new, type := type, name := name }

/-! ### What is in the table and in the store -/

/-- The service entry of a host in the store, unless it is to be deleted. -/
def Watcher.live (w : Watcher β) (host : GoString) : Option ServiceEntry :=
  if host ∈ w.cache.deferredDeleteServices.keys then none
  else (w.cache.sew.lookup host).map fun wrapper => wrapper.data.serviceEntry

/-- The table and the store have exactly the given hosts, with their configs and service entries. -/
structure Converged (w : Watcher β) (configs : Entries InterfaceConfig) : Prop where
  table : ∀ host, w.serviceEntry.lookup host = configs.lookup host
  cache : ∀ host, w.live host = (configs.lookup host).map (generateServiceEntry env)

/-- The store has the service entries of the table. -/
def Consistent (w : Watcher β) : Prop :=
  ∀ host, w.live host = (w.serviceEntry.lookup host).map (generateServiceEntry env)

variable {env}

theorem live_update (w : Watcher β) (host h : GoString) (config : InterfaceConfig) (now : ℕ) :
    (w.update env host config now).live h =
      if h = host then some (generateServiceEntry env config) else w.live h := by
  simp only [Watcher.live, Watcher.update, Store.updateServiceWrapper, ← AList.mem_keys,
    AList.mem_erase]
  by_cases hsame : h = host
  · subst hsame
    simp [AList.lookup_insert, Store.stamp]
  · simp [hsame, AList.lookup_insert_ne hsame]

/-- A host that is published has its config in the table, and the others are left alone. -/
theorem lookup_publish (now : ℕ) (w : Watcher β) (entry : Σ _ : GoString, InterfaceConfig)
    (h : GoString) : (publish env now w entry).serviceEntry.lookup h =
      if h = entry.1 then some entry.2 else w.serviceEntry.lookup h := by
  rw [publish]
  split
  · rename_i hknown
    split
    · rename_i hsame
      rw [hsame, hknown]
    · rfl
  · split
    · rename_i hsame
      rw [hsame]
      exact AList.lookup_insert _
    · rename_i hother
      exact AList.lookup_insert_ne hother

theorem Consistent.publish {w : Watcher β} (hw : Consistent env w) (now : ℕ)
    (entry : Σ _ : GoString, InterfaceConfig) : Consistent env (publish env now w entry) := by
  intro h
  rw [lookup_publish, Zookeeper.publish]
  split
  · rename_i hknown
    rw [hw h]
    split
    · rename_i hsame
      rw [hsame, hknown]
    · rfl
  · rw [live_update]
    split
    · rfl
    · exact hw h

theorem lookup_foldl_publish (now : ℕ) {entries : List (Σ _ : GoString, InterfaceConfig)}
    (hnodup : entries.NodupKeys) (w : Watcher β) (h : GoString) :
    (entries.foldl (publish env now) w).serviceEntry.lookup h =
      (entries.dlookup h).or (w.serviceEntry.lookup h) := by
  induction entries generalizing w with
  | nil => rfl
  | cons entry entries ih =>
      obtain ⟨host, config⟩ := entry
      rw [List.nodupKeys_cons] at hnodup
      rw [List.foldl_cons, ih hnodup.2, lookup_publish]
      by_cases hsame : h = host
      · subst hsame
        rw [List.dlookup_eq_none.mpr hnodup.1, List.dlookup_cons_eq]
        simp
      · rw [if_neg hsame, List.dlookup_cons_ne _ _ hsame]

/-- An observation adds what it derives to the table. -/
theorem lookup_handleZkNodeEvent (service : Service) (w : Watcher β) (o : Observation) (h : GoString) :
    (handleZkNodeEvent env service w o).serviceEntry.lookup h =
      ((derived env service o).lookup h).or (w.serviceEntry.lookup h) := by
  rw [handleZkNodeEvent]
  split
  · rename_i hnodes
    -- no child can be read, so nothing is deleted, and nothing is derived
    have hnone : (derived env service o).lookup h = none := by
      rw [derived, hnodes]
      rfl
    rw [hnone, Option.none_or]
    split
    · rw [hnodes]
      simp
    · rfl
  · exact lookup_foldl_publish _ (derived env service o).nodupKeys w h

theorem Consistent.handleZkNodeEvent {w : Watcher β} (hw : Consistent env w) (service : Service)
    (o : Observation) : Consistent env (handleZkNodeEvent env service w o) := by
  rw [Zookeeper.handleZkNodeEvent]
  split
  · rename_i hnodes
    split
    · rw [hnodes]
      simpa using hw
    · exact hw
  · rw [childToServiceEntry]
    generalize (derived env service o).entries = entries
    induction entries generalizing w with
    | nil => exact hw
    | cons entry entries ih => exact ih (hw.publish o.now entry)

/-! ### Runs -/

section Runs

variable {service : Service} {type name : GoString}

theorem consistent_run (observations : List Observation) :
    Consistent env (run env service type name observations : Watcher β) := by
  induction observations using List.reverseRecOn with
  | nil => exact fun _ => rfl
  | append_singleton observations o ih =>
      rw [run, List.foldl_append]
      exact ih.handleZkNodeEvent service o

/-- The hosts of the table are those that were derived at some time. -/
theorem mem_run_iff (observations : List Observation) (host : GoString) :
    host ∈ (run env service type name observations : Watcher β).serviceEntry ↔
      ∃ o ∈ observations, host ∈ derived env service o := by
  induction observations using List.reverseRecOn with
  | nil => simp [run]
  | append_singleton observations o ih =>
      rw [run, List.foldl_append, List.foldl_cons, List.foldl_nil, ← AList.lookup_isSome,
        lookup_handleZkNodeEvent, Option.isSome_or, Bool.or_eq_true, AList.lookup_isSome,
        AList.lookup_isSome]
      rw [run] at ih
      rw [ih]
      simp only [List.mem_append, List.mem_singleton, or_and_right, exists_or, exists_eq_left]
      exact or_comm

/-- After an observation, the table and the store have exactly the hosts that are derived from its
children, with their endpoints, if and only if it derives every host that an earlier one has derived. -/
theorem converged_iff (env : Env) (service : Service) (type name : GoString)
    (observations : List Observation) (o : Observation) :
    Converged env (run env service type name (observations ++ [o]) : Watcher β)
        (derived env service o) ↔
      ∀ earlier ∈ observations, ∀ host ∈ derived env service earlier,
        host ∈ derived env service o := by
  have hlookup (host : GoString) :
      (run env service type name (observations ++ [o]) : Watcher β).serviceEntry.lookup host =
        ((derived env service o).lookup host).or
          ((run env service type name observations : Watcher β).serviceEntry.lookup host) := by
    rw [run, List.foldl_append]
    exact lookup_handleZkNodeEvent _ _ _ _
  constructor
  · intro h earlier hearlier host hhost
    have hold : host ∈ (run env service type name observations : Watcher β).serviceEntry :=
      (mem_run_iff _ _).mpr ⟨earlier, hearlier, hhost⟩
    have htable := h.table host
    rw [← AList.lookup_isSome, ← htable, hlookup, Option.isSome_or, AList.lookup_isSome.mpr hold,
      Bool.or_true]
  · intro h
    have htable (host : GoString) :
        (run env service type name (observations ++ [o]) : Watcher β).serviceEntry.lookup host =
          (derived env service o).lookup host := by
      rw [hlookup]
      cases hderived : (derived env service o).lookup host with
      | some config => rfl
      | none =>
          rw [Option.none_or, AList.lookup_eq_none, mem_run_iff]
          rintro ⟨earlier, hearlier, hhost⟩
          exact AList.lookup_eq_none.mp hderived (h earlier hearlier host hhost)
    refine ⟨htable, fun host => ?_⟩
    rw [consistent_run, htable]

/-- After every run, the table has for a host the config of the last observation that derived one, and
the store has its service entry. -/
theorem run_latest (service : Service) (type name : GoString) (observations : List Observation)
    (host : GoString) :
    let latest := observations.reverse.findSome? fun o => (derived env service o).lookup host
    (run env service type name observations : Watcher β).serviceEntry.lookup host = latest ∧
      (run env service type name observations : Watcher β).live host =
        latest.map (generateServiceEntry env) := by
  intro latest
  have htable :
      (run env service type name observations : Watcher β).serviceEntry.lookup host = latest := by
    induction observations using List.reverseRecOn with
    | nil => rfl
    | append_singleton observations o ih =>
        rw [run, List.foldl_append]
        refine (lookup_handleZkNodeEvent _ _ _ _).trans ?_
        rw [← run, ih]
        simp only [latest, List.reverse_append, List.reverse_singleton, List.singleton_append,
          List.findSome?_cons]
        cases (derived env service o).lookup host with
        | none => rfl
        | some config => rfl
  exact ⟨htable, by rw [consistent_run, htable]⟩

end Runs

/-! ### A version that goes away -/

namespace Sample

/-- A Dubbo provider as the name of a node, with its version. -/
def provider (version : GoString) : GoString :=
  bytes "dubbo%3A%2F%2F10.0.0.1%3A20880%2Fdemo%3Fversion%3D" ++ version

/-- The reading of the URLs of these providers. -/
def reader : Env where
  unmarshalInstance _ := none
  parseURL s :=
    let query := cutByte 63 s
    query.2.map fun rawQuery => (bytes "/dubbo/demo/providers/dubbo://10.0.0.1:20880/demo", rawQuery)
  parseQuery s :=
    let pair := cutByte 61 s
    some [(pair.1, [pair.2.getD []])]
  caseTable := plainCaseTable

def service : Service := ⟨.dubbo, bytes "demo", bytes "/dubbo/demo/providers"⟩

def observe (versions : List GoString) : Observation :=
  ⟨true, versions.map fun version => (provider version, []), [], 0⟩

def watcher (observations : List Observation) : Watcher Unit :=
  run reader service (bytes "zookeeper") (bytes "z") observations

end Sample

theorem converged_more_versions :
    Converged Sample.reader
      (Sample.watcher ([Sample.observe [bytes "1.0.0"]] ++
        [Sample.observe [bytes "1.0.0", bytes "2.0.0"]]))
      (derived Sample.reader Sample.service (Sample.observe [bytes "1.0.0", bytes "2.0.0"])) := by
  refine (converged_iff Sample.reader Sample.service (bytes "zookeeper") (bytes "z")
    [Sample.observe [bytes "1.0.0"]] (Sample.observe [bytes "1.0.0", bytes "2.0.0"])).mpr ?_
  intro earlier hearlier host hhost
  rw [List.mem_singleton.mp hearlier] at hhost
  have hkeys : (derived Sample.reader Sample.service (Sample.observe [bytes "1.0.0"])).keys =
      [bytes "providers:demo:1.0.0:"] := by decide
  have hkeys' : bytes "providers:demo:1.0.0:" ∈
      (derived Sample.reader Sample.service (Sample.observe [bytes "1.0.0", bytes "2.0.0"])).keys := by
    decide
  rw [AList.mem_keys, hkeys] at hhost
  rw [AList.mem_keys, List.mem_singleton.mp hhost]
  exact hkeys'

/-- The host of a version that went away stays in the table. -/
theorem not_converged_version :
    ¬ Converged Sample.reader
      (Sample.watcher [Sample.observe [bytes "1.0.0"], Sample.observe [bytes "2.0.0"]])
      (derived Sample.reader Sample.service (Sample.observe [bytes "2.0.0"])) := by
  intro h
  have htable := congrArg Option.isSome (h.table (bytes "providers:demo:1.0.0:"))
  revert htable
  decide

end Higress.Registry.Zookeeper
