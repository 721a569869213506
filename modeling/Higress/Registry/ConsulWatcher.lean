import Mathlib
import Higress.Registry.Watchers

/-!
The watcher of a Consul registry (`registry/consul/watcher.go`). A refresh reads the catalog, stops the
plans of the services that are gone and starts a plan for each new one. A plan hands the instances of its
service to a callback, which puts the host of the service into the store if one of them is healthy.

A service that is gone is dropped from the watched ones with its plan, but its host stays in the store.
When the watcher stops, it deletes the hosts of the watched services only. Meanwhile the plans that are
not stopped yet go on calling back.
-/

namespace Higress.Registry.Consul

open Lib

/-! ### The model -/

/-- The configuration of a watcher, as far as it is used here. -/
structure RegistryConfig where
  type : GoString
  name : GoString
  consulDatacenter : GoString
  consulServiceTag : GoString

/-- An instance of a service; `aggregatedStatus` is the worst status of its checks. -/
structure Instance where
  aggregatedStatus : GoString
  metaData : List (GoString × GoString)
  address : GoString
  port : ℤ

def suffix (config : RegistryConfig) (serviceName : GoString) : GoString :=
  Strings.join [serviceName, config.consulDatacenter, config.type] (bytes ".")

def hostOf (config : RegistryConfig) (serviceName : GoString) : GoString :=
  replaceAll (suffix config serviceName) (bytes "_") (bytes "-")

def filterTags (table : CaseTable) (consulTag : GoString) (tags : List GoString) : Bool :=
  consulTag == [] || tags.any fun tag => toLower table tag == consulTag

def shouldSubscribe (_serviceName : GoString) : Bool := true

/-- The port of an instance. -/
def servicePort (table : CaseTable) (service : Instance) : ServicePort :=
  let value := (service.metaData.lookup (bytes "protocol")).getD []
  let protocol := if value ≠ [] then parseProtocol table value else .http
  ⟨protocol.string, (service.port % 2 ^ 32).toNat, protocol.string⟩

/-- `generateServiceEntry`, with nothing for a service none of whose instances is healthy. -/
def generateServiceEntry (table : CaseTable) (host : GoString) (services : List Instance) :
    Option ServiceEntry :=
  let passing := services.filter (·.aggregatedStatus == bytes "passing")
  let ports := passing.map (servicePort table)
  let endpoints := passing.map fun service =>
    let port := servicePort table service
    (⟨service.address, (port.protocol, port.number), service.metaData, 0⟩ : WorkloadEntry)
  if endpoints.isEmpty then none else some ⟨[host], ports.take 1, .static, endpoints⟩

variable {β : Type}

/-- A watcher with the store that it writes to; `watchers` are the services whose plans run, and `put`
the hosts that it has ever put into the store. -/
structure Watcher (β : Type) where
  watchingServices : List GoString := []
  watchers : List GoString := []
  isStop : Bool := false
  cache : Store (ServiceWrapper ServiceEntry) β
  put : List GoString := []

/-- The services of a catalog that have the configured tag. -/
def fetchedServices (table : CaseTable) (config : RegistryConfig)
    (catalog : List (GoString × List GoString)) : List GoString :=
  ((catalog.filter fun service => filterTags table config.consulServiceTag service.2).map
    Prod.fst).dedup

/-- The plan of a service is stopped. -/
def unsubscribe (w : Watcher β) (serviceName : GoString) : Watcher β :=
  { w with watchers := w.watchers.filter (· ≠ serviceName) }

/-- A service is dropped by a refresh. -/
def drop (w : Watcher β) (serviceName : GoString) : Watcher β :=
  { unsubscribe w serviceName with
    watchingServices := w.watchingServices.filter (· ≠ serviceName) }

/-- `fetchAllServices`; the catalog is nothing if it could not be read, and `parsed` says whether the
plan of a service could be made. -/
def fetchAllServices (table : CaseTable) (config : RegistryConfig) (w : Watcher β)
    (catalog : Option (List (GoString × List GoString))) (parsed : GoString → Bool) : Watcher β :=
  if w.isStop then w
  else
    match catalog with
    | none => w
    | some catalog =>
        let fetched := fetchedServices table config catalog
        let gone := w.watchingServices.filter (· ∉ fetched)
        let left := gone.foldl drop w
        let new := fetched.filter fun serviceName =>
          decide (serviceName ∉ left.watchingServices) && shouldSubscribe serviceName &&
            parsed serviceName
        { left with
          watchers := left.watchers ++ new
          watchingServices := left.watchingServices ++ new }

/-- The function that `getSubscribeCallback` returns for a service, called by a plan that runs. -/
def subscribeCallback (table : CaseTable) (config : RegistryConfig) (w : Watcher β)
    (serviceName : GoString) (services : List Instance) (now : ℕ) : Watcher β :=
  let host := hostOf config serviceName
  match generateServiceEntry table host services with
  | none => w
  | some serviceEntry =>
      { w with
        cache := w.cache.updateServiceWrapper host
          ⟨serviceName, serviceEntry, suffix config serviceName, config.type, config.name⟩ now
        put := w.put ++ [host] }

inductive Event
  | refresh (catalog : Option (List (GoString × List GoString))) (parsed : GoString → Bool)
  | callback (serviceName : GoString) (services : List Instance) (now : ℕ)

def step (table : CaseTable) (config : RegistryConfig) (w : Watcher β) : Event → Watcher β
  | .refresh catalog parsed => fetchAllServices table config w catalog parsed
  | .callback serviceName services now =>
      if serviceName ∈ w.watchers then subscribeCallback table config w serviceName services now else w

/-- A run from a new watcher and a store with the hosts of others. -/
def run (table : CaseTable) (config : RegistryConfig) (cache : Store (ServiceWrapper ServiceEntry) β)
    (events : List Event) : Watcher β :=
  events.foldl (step table config) { cache := cache }

/-- What happens while `Stop` runs: it goes over the watched services, in some order, and the plans that
still run call back. -/
inductive StopEvent
  | clean (serviceName : GoString)
  | callback (serviceName : GoString) (services : List Instance) (now : ℕ)

def stopStep (table : CaseTable) (config : RegistryConfig) (w : Watcher β) : StopEvent → Watcher β
  | .clean serviceName =>
      if serviceName ∈ w.watchingServices then
        { drop w serviceName with cache := w.cache.deleteServiceWrapper (hostOf config serviceName) }
      else w
  | .callback serviceName services now =>
      if serviceName ∈ w.watchers then subscribeCallback table config w serviceName services now else w

/-- `Stop`, which ends when no service is watched any more. -/
def stop (table : CaseTable) (config : RegistryConfig) (w : Watcher β) (events : List StopEvent) :
    Watcher β :=
  { events.foldl (stopStep table config) w with isStop := true }

/-! ### Hosts that are left behind -/

section Runs

variable {table : CaseTable} {config : RegistryConfig} {w : Watcher β}

/-- Every host that the watcher has put is to be deleted, or is that of a watched service. -/
def Watcher.Kept (config : RegistryConfig) (w : Watcher β) : Prop :=
  Registry.Kept (hostOf config) w.cache w.put w.watchingServices

/-- A catalog has the watched services whose hosts are in the store and not to be deleted. -/
def Event.Harmless (table : CaseTable) (config : RegistryConfig) (w : Watcher β) : Event → Prop
  | .refresh catalog _ => ∀ services, catalog = some services →
      ∀ serviceName ∈ w.watchingServices, hostOf config serviceName ∈ w.put →
        ¬ w.cache.Deferred (hostOf config serviceName) .service →
          serviceName ∈ fetchedServices table config services
  | .callback _ _ _ => True

/-- Every event of a run is harmless where it happens. -/
def HarmlessRun (table : CaseTable) (config : RegistryConfig) (w : Watcher β) : List Event → Prop
  | [] => True
  | e :: events => e.Harmless table config w ∧ HarmlessRun table config (step table config w e) events

/-- Plans run for watched services only, and the hosts that were put are in the store. -/
structure Watcher.Sound (w : Watcher β) : Prop where
  watchers : ∀ serviceName ∈ w.watchers, serviceName ∈ w.watchingServices
  present : Present w.cache w.put

theorem foldl_drop (gone : List GoString) (w : Watcher β) :
    (gone.foldl drop w).watchingServices = w.watchingServices.filter (· ∉ gone) ∧
      (gone.foldl drop w).watchers = w.watchers.filter (· ∉ gone) ∧
      (gone.foldl drop w).cache = w.cache ∧ (gone.foldl drop w).put = w.put := by
  induction gone generalizing w with
  | nil => simp
  | cons serviceName gone ih =>
      obtain ⟨hwatching, hwatchers, hcache, hput⟩ := ih (drop w serviceName)
      rw [List.foldl_cons, hwatching, hwatchers, hcache, hput]
      refine ⟨?_, ?_, rfl, rfl⟩
      · simp only [drop, List.filter_filter, List.mem_cons, not_or]
        exact List.filter_congr fun x _ => by rw [Bool.decide_and, Bool.and_comm]
      · simp only [drop, unsubscribe, List.filter_filter, List.mem_cons, not_or]
        exact List.filter_congr fun x _ => by rw [Bool.decide_and, Bool.and_comm]

/-- What a refresh leaves: the store, and the watched services that are in the catalog. -/
theorem fetchAllServices_spec (w : Watcher β) (catalog : Option (List (GoString × List GoString)))
    (parsed : GoString → Bool) :
    (fetchAllServices table config w catalog parsed).cache = w.cache ∧
      (fetchAllServices table config w catalog parsed).put = w.put ∧
      (w.Sound → (fetchAllServices table config w catalog parsed).Sound) ∧
      ∀ serviceName ∈ w.watchingServices, (∀ services, catalog = some services →
        serviceName ∈ fetchedServices table config services) →
        serviceName ∈ (fetchAllServices table config w catalog parsed).watchingServices := by
  unfold fetchAllServices
  split
  · exact ⟨rfl, rfl, id, fun _ hmem _ => hmem⟩
  · cases catalog with
    | none => exact ⟨rfl, rfl, id, fun _ hmem _ => hmem⟩
    | some services =>
        obtain ⟨hwatching, hwatchers, hcache, hput⟩ := foldl_drop
          (w.watchingServices.filter (· ∉ fetchedServices table config services)) w
        refine ⟨hcache, hput, fun hsound => ⟨?_, ?_⟩, ?_⟩
        · intro serviceName hmem
          rcases List.mem_append.mp hmem with hmem | hmem
          · apply List.mem_append_left
            rw [hwatchers, List.mem_filter] at hmem
            rw [hwatching, List.mem_filter]
            exact ⟨hsound.watchers serviceName hmem.1, hmem.2⟩
          · exact List.mem_append_right _ hmem
        · dsimp only
          rw [hcache, hput]
          exact hsound.present
        · intro serviceName hmem hfetched
          apply List.mem_append_left
          rw [hwatching, List.mem_filter]
          refine ⟨hmem, ?_⟩
          simp [hfetched services rfl]

/-- A callback leaves the watcher alone or puts the host of its service. -/
theorem subscribeCallback_cases (table : CaseTable) (config : RegistryConfig) (w : Watcher β)
    (serviceName : GoString) (services : List Instance) (now : ℕ) :
    subscribeCallback table config w serviceName services now = w ∨
      ∃ data, subscribeCallback table config w serviceName services now =
        { w with
          cache := w.cache.updateServiceWrapper (hostOf config serviceName) data now
          put := w.put ++ [hostOf config serviceName] } := by
  simp only [subscribeCallback]
  split
  · exact .inl rfl
  · exact .inr ⟨_, rfl⟩

theorem sound_callback (h : w.Sound) (serviceName : GoString) (services : List Instance) (now : ℕ) :
    (subscribeCallback table config w serviceName services now).Sound := by
  rcases subscribeCallback_cases table config w serviceName services now with heq | ⟨data, heq⟩
  · rwa [heq]
  · rw [heq]
    exact ⟨h.watchers, h.present.update _ _ _⟩

theorem kept_callback (h : w.Kept config) {serviceName : GoString}
    (hwatched : serviceName ∈ w.watchingServices) (services : List Instance) (now : ℕ) :
    (subscribeCallback table config w serviceName services now).Kept config := by
  rcases subscribeCallback_cases table config w serviceName services now with heq | ⟨data, heq⟩
  · rwa [heq]
  · rw [heq]
    exact Registry.Kept.update h hwatched _ _

theorem sound_step (h : w.Sound) (e : Event) : (step table config w e).Sound := by
  cases e with
  | refresh catalog parsed => exact (fetchAllServices_spec w catalog parsed).2.2.1 h
  | callback serviceName services now =>
      rw [step]
      split
      · exact sound_callback h _ _ _
      · exact h

theorem kept_step (hsound : w.Sound) (h : w.Kept config) {e : Event} (he : e.Harmless table config w) :
    (step table config w e).Kept config := by
  cases e with
  | refresh catalog parsed =>
      obtain ⟨hcache, hput, -, hwatching⟩ := @fetchAllServices_spec _ table config w catalog parsed
      rw [step, Watcher.Kept, hcache, hput]
      refine h.mono fun serviceName hmem hname hdeferred => hwatching serviceName hmem ?_
      exact fun services hservices => he services hservices serviceName hmem hname hdeferred
  | callback serviceName services now =>
      rw [step]
      split
      · rename_i hplan
        exact kept_callback h (hsound.watchers _ hplan) _ _
      · exact h

theorem sound_run (table : CaseTable) (config : RegistryConfig)
    (cache : Store (ServiceWrapper ServiceEntry) β) (events : List Event) :
    (run table config cache events).Sound := by
  induction events using List.reverseRecOn with
  | nil => exact ⟨fun _ h => absurd h List.not_mem_nil, fun _ h => absurd h List.not_mem_nil⟩
  | append_singleton events e ih =>
      rw [run, List.foldl_append]
      exact sound_step ih e

theorem kept_of_harmlessRun (hsound : w.Sound) (h : w.Kept config) {events : List Event}
    (hrun : HarmlessRun table config w events) :
    (events.foldl (step table config) w).Kept config := by
  induction events generalizing w with
  | nil => exact h
  | cons e events ih => exact ih (sound_step hsound e) (kept_step hsound h hrun.1) hrun.2

/-! ### While the watcher stops -/

theorem sound_stopStep (h : w.Sound) (e : StopEvent) : (stopStep table config w e).Sound := by
  cases e with
  | clean serviceName =>
      rw [stopStep]
      split
      · refine ⟨fun name hname => ?_, h.present.delete _⟩
        simp only [drop, unsubscribe, List.mem_filter] at hname ⊢
        exact ⟨h.watchers name hname.1, hname.2⟩
      · exact h
  | callback serviceName services now =>
      rw [stopStep]
      split
      · exact sound_callback h _ _ _
      · exact h

/-- The host of a service that is cleaned is to be deleted from then on. -/
theorem kept_stopStep (hsound : w.Sound) (h : w.Kept config) (e : StopEvent) :
    (stopStep table config w e).Kept config := by
  cases e with
  | clean serviceName =>
      rw [stopStep]
      split
      · intro host hput
        have hpresent : w.cache.Has host .service := hsound.present host hput
        rw [(w.cache.deleteService_effect _ host .service).2]
        by_cases hsame : host = hostOf config serviceName
        · exact .inl (.inr ⟨hpresent, rfl, hsame⟩)
        · rcases h host hput with hdeferred | ⟨name, hname, rfl⟩
          · exact .inl (.inl hdeferred)
          · refine .inr ⟨name, ?_, rfl⟩
            simp only [drop, List.mem_filter, decide_eq_true_eq]
            refine ⟨hname, ?_⟩
            rintro rfl
            exact hsame rfl
      · exact h
  | callback serviceName services now =>
      rw [stopStep]
      split
      · rename_i hplan
        exact kept_callback h (hsound.watchers _ hplan) _ _
      · exact h

/-- A host that is not to be deleted and belongs to no watched service stays so. -/
theorem left_stopStep (hsound : w.Sound) {host : GoString} (hput : host ∈ w.put)
    (hdeferred : ¬ w.cache.Deferred host .service)
    (hunwatched : ∀ name ∈ w.watchingServices, hostOf config name ≠ host) (e : StopEvent) :
    host ∈ (stopStep table config w e).put ∧
      ¬ (stopStep table config w e).cache.Deferred host .service ∧
      ∀ name ∈ (stopStep table config w e).watchingServices, hostOf config name ≠ host := by
  cases e with
  | clean serviceName =>
      rw [stopStep]
      split
      · rename_i hwatched
        refine ⟨hput, ?_, fun name hname => hunwatched name (List.mem_of_mem_filter hname)⟩
        rw [(w.cache.deleteService_effect _ host .service).2]
        rintro (hold | ⟨-, -, hsame⟩)
        · exact hdeferred hold
        · exact hunwatched serviceName hwatched hsame.symm
      · exact ⟨hput, hdeferred, hunwatched⟩
  | callback serviceName services now =>
      rw [stopStep]
      split
      · rename_i hplan
        rcases subscribeCallback_cases table config w serviceName services now with heq | ⟨data, heq⟩
        · rw [heq]
          exact ⟨hput, hdeferred, hunwatched⟩
        · rw [heq]
          refine ⟨List.mem_append_left _ hput, ?_, hunwatched⟩
          rw [(w.cache.updateService_effect _ host .service data now).2]
          exact fun hnew => hdeferred hnew.1
      · exact ⟨hput, hdeferred, hunwatched⟩

/-- When no service is watched any more, every host that was put is to be deleted exactly if each was
kept when `Stop` began. -/
theorem stop_iff_kept (hsound : w.Sound) {events : List StopEvent}
    (hdone : (stop table config w events).watchingServices = []) :
    (∀ host ∈ (stop table config w events).put,
      (stop table config w events).cache.Deferred host .service) ↔ w.Kept config := by
  constructor
  · intro hall
    by_contra hkept
    obtain ⟨host, hput, hdeferred, hunwatched⟩ : ∃ host ∈ w.put,
        ¬ w.cache.Deferred host .service ∧ ∀ name ∈ w.watchingServices, hostOf config name ≠ host := by
      simpa [Watcher.Kept, Registry.Kept] using hkept
    -- the host stays as it is through all the events
    have hleft : host ∈ (events.foldl (stopStep table config) w).put ∧
        ¬ (events.foldl (stopStep table config) w).cache.Deferred host .service := by
      clear hall hdone hkept
      induction events generalizing w with
      | nil => exact ⟨hput, hdeferred⟩
      | cons e events ih =>
          obtain ⟨hput', hdeferred', hunwatched'⟩ :=
            @left_stopStep _ table config w hsound host hput hdeferred hunwatched e
          exact ih (sound_stopStep hsound e) hput' hdeferred' hunwatched'
    exact hleft.2 (hall host hleft.1)
  · intro hkept
    have hfinal : (events.foldl (stopStep table config) w).Kept config := by
      clear hdone
      induction events generalizing w with
      | nil => exact hkept
      | cons e events ih => exact ih (sound_stopStep hsound e) (kept_stopStep hsound hkept e)
    intro host hput
    rcases hfinal host hput with hdeferred | ⟨name, hname, -⟩
    · exact hdeferred
    · have hnone : (events.foldl (stopStep table config) w).watchingServices = [] := hdone
      rw [hnone] at hname
      cases hname

/-- Every host that the watcher has put is to be deleted after `Stop` exactly if each of them belonged to
a service that was still watched when it began (or was to be deleted); and that is so in every run in
which no watched service with a host in the store is missing from a catalog. -/
theorem stopped_consul_iff (table : CaseTable) (config : RegistryConfig)
    (cache : Store (ServiceWrapper ServiceEntry) β) (events : List Event) (stopping : List StopEvent)
    (hdone : (stop table config (run table config cache events) stopping).watchingServices = []) :
    ((∀ host ∈ (stop table config (run table config cache events) stopping).put,
        (stop table config (run table config cache events) stopping).cache.Deferred host .service) ↔
      (run table config cache events).Kept config) ∧
    (HarmlessRun table config { cache := cache } events →
      ∀ host ∈ (stop table config (run table config cache events) stopping).put,
        (stop table config (run table config cache events) stopping).cache.Deferred host .service) := by
  have hiff := stop_iff_kept (sound_run table config cache events) hdone
  refine ⟨hiff, fun hharmless => hiff.mpr (kept_of_harmlessRun ?_ ?_ hharmless)⟩
  · exact sound_run table config cache []
  · exact fun _ hput => absurd hput List.not_mem_nil

/-- In every run, and through `Stop`, plans run for watched services only, and the hosts that were put
are in the store. -/
theorem sound_stop (table : CaseTable) (config : RegistryConfig)
    (cache : Store (ServiceWrapper ServiceEntry) β) (events : List Event) (stopping : List StopEvent) :
    (stop table config (run table config cache events) stopping).Sound := by
  have hfinal : (stopping.foldl (stopStep table config) (run table config cache events)).Sound := by
    induction stopping using List.reverseRecOn with
    | nil => exact sound_run table config cache events
    | append_singleton stopping e ih =>
        rw [List.foldl_append]
        exact sound_stopStep ih e
  exact ⟨hfinal.watchers, hfinal.present⟩

end Runs

/-! ### A service that goes away -/

namespace Sample

def config : RegistryConfig := ⟨bytes "consul", bytes "c", bytes "dc1", []⟩

def healthy : Instance := ⟨bytes "passing", [], bytes "10.0.0.1", 80⟩

def refresh (names : List GoString) : Event :=
  .refresh (some (names.map fun name => (name, []))) fun _ => true

/-- A service is found, and a healthy instance comes. -/
def found : List Event := [refresh [bytes "web"], .callback (bytes "web") [healthy] 0]

/-- The service is missing from the next catalog. -/
def gone : List Event := found ++ [refresh []]

def watcher (events : List Event) : Watcher Unit := run plainCaseTable config .new events

end Sample

theorem stopped_consul_watching :
    (Sample.watcher Sample.found).put = [bytes "web.dc1.consul"] ∧
      ∀ host ∈ (stop plainCaseTable Sample.config (Sample.watcher Sample.found)
          [.clean (bytes "web")]).put,
        (stop plainCaseTable Sample.config (Sample.watcher Sample.found)
          [.clean (bytes "web")]).cache.Deferred host .service := by
  have hput : (Sample.watcher Sample.found).put = [hostOf Sample.config (bytes "web")] := by decide
  have hwatching : (Sample.watcher Sample.found).watchingServices = [bytes "web"] := by decide
  refine ⟨by decide, ?_⟩
  refine (stopped_consul_iff plainCaseTable Sample.config .new Sample.found [.clean (bytes "web")]
    (by decide)).1.mpr fun host hhost => ?_
  change host ∈ (Sample.watcher Sample.found).put at hhost
  rw [hput] at hhost
  refine .inr ⟨bytes "web", ?_, (List.mem_singleton.mp hhost).symm⟩
  change bytes "web" ∈ (Sample.watcher Sample.found).watchingServices
  simp [hwatching]

/-- The host of a service that went away stays. -/
theorem stopped_consul_left_behind :
    (Sample.watcher Sample.gone).watchingServices = [] ∧
      bytes "web.dc1.consul" ∈ (stop plainCaseTable Sample.config (Sample.watcher Sample.gone) []).put ∧
      ¬ (stop plainCaseTable Sample.config (Sample.watcher Sample.gone) []).cache.Deferred
        (bytes "web.dc1.consul") .service := by
  have hnone : (stop plainCaseTable Sample.config (Sample.watcher Sample.gone)
      []).cache.deferredDeleteServices.keys = [] := by decide
  refine ⟨by decide, by decide, fun hdeferred => ?_⟩
  have hmem : bytes "web.dc1.consul" ∈ (stop plainCaseTable Sample.config
      (Sample.watcher Sample.gone) []).cache.deferredDeleteServices.keys := hdeferred
  rw [hnone] at hmem
  cases hmem

end Higress.Registry.Consul
