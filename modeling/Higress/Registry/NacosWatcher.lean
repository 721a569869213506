import Mathlib
import Higress.Registry.Watchers

/-!
The watcher of a Nacos registry (`registry/nacos/v2/watcher.go`). A refresh reads the lists of services
of all groups, page by page, unsubscribes from the services that are gone and subscribes to the new ones.
Their instances come in callbacks, which put the host of the service into the store.

A service that is gone is dropped from the watched ones, but its host stays in the store. When the
watcher stops, it deletes the hosts of the watched services only.
-/

namespace Higress.Registry.Nacos

open Lib

/-! ### The model -/

/-- The configuration of a watcher, as far as it is used here. -/
structure RegistryConfig where
  type : GoString
  name : GoString
  nacosNamespace : GoString
  nacosGroups : List GoString
  updateCacheWhenEmpty : Bool

/-- Instances, with their metadata, and the service entry that `generateServiceEntry` makes of them. -/
structure Naming (ι ε : Type) where
  metadata : ι → Option (List (GoString × GoString))
  generateServiceEntry : GoString → List ι → ε

def suffix (config : RegistryConfig) (groupName : GoString) : GoString :=
  replaceAll (Strings.join [groupName, config.nacosNamespace, bytes "nacos"] (bytes ".")) (bytes "_")
    (bytes "-")

def makeHost (config : RegistryConfig) (groupName serviceName : GoString) : GoString :=
  Strings.join [serviceName, suffix config groupName] (bytes ".")

def defaultJoiner : GoString := bytes "@@"

/-- The group and the service of a key, `s[0]` and `s[1]` of its parts. -/
def splitKey (key : GoString) : GoString × GoString :=
  let s := split key defaultJoiner
  (s.getD 0 [], s.getD 1 [])

/-- The host of the service of a key. -/
def hostOf (config : RegistryConfig) (key : GoString) : GoString :=
  makeHost config (splitKey key).1 (splitKey key).2

def shouldSubscribe (serviceName : GoString) : Bool :=
  !Strings.startsWith serviceName (bytes "consumers:") && serviceName != []

def defaultFetchPageSize : ℕ := 50

def defaultFetchMaxRetries : ℕ := 10

/-- The loops over the groups and pages: the services that are fetched, if the lists could be read. The
answers to the requests come one after the other, `none` for an error. -/
def fetchServices : List GoString → ℕ → List GoString → List (Option (List GoString)) →
    Option (List GoString)
  | [], _, fetched, _ => some fetched
  | _ :: _, _, _, [] => none
  | group :: groups, tries, fetched, none :: answers =>
      if defaultFetchMaxRetries ≤ tries then none
      else fetchServices (group :: groups) (tries + 1) fetched answers
  | group :: groups, tries, fetched, some doms :: answers =>
      let fetched := fetched ++ doms.map fun serviceName => group ++ defaultJoiner ++ serviceName
      if doms.length < defaultFetchPageSize then fetchServices groups tries fetched answers
      else fetchServices (group :: groups) tries fetched answers

/-- The loop over the watched services: those that are left, and whether it came to its end. -/
def dropServices (fetched : List GoString) (unsubscribe : GoString → Bool) :
    List GoString → List GoString → List GoString × Bool
  | [], watching => (watching, true)
  | key :: order, watching =>
      if key ∈ fetched then dropServices fetched unsubscribe order watching
      else if unsubscribe key then
        dropServices fetched unsubscribe order (watching.filter (· ≠ key))
      else (watching, false)

variable {ι ε β : Type}

/-- A watcher with the store that it writes to. `subscribed` are the services that it has ever
subscribed to, whether or not with success, and `put` the hosts that it has ever put into the store. -/
structure Watcher (ε β : Type) where
  watchingServices : List GoString := []
  isStop : Bool := false
  cache : Store (ServiceWrapper ε) β
  subscribed : List GoString := []
  put : List GoString := []

/-- What a refresh meets: the answers to its requests, the order of the map of the watched services, and
which calls of the client succeed. -/
structure Refresh where
  answers : List (Option (List GoString))
  order : List GoString
  unsubscribe : GoString → Bool
  subscribe : GoString → Bool

def fetchAllServices (config : RegistryConfig) (w : Watcher ε β) (r : Refresh) : Watcher ε β :=
  if w.isStop then w
  else
    match fetchServices config.nacosGroups 0 [] r.answers with
    | none => w
    | some fetched =>
        match dropServices fetched r.unsubscribe r.order w.watchingServices with
        | (watching, false) => { w with watchingServices := watching }
        | (watching, true) =>
            let new := fetched.dedup.filter fun key =>
              decide (key ∉ watching) && shouldSubscribe (splitKey key).2
            { w with
              watchingServices := watching ++ new.filter r.subscribe
              subscribed := w.subscribed ++ new }

/-- The function that `getSubscribeCallback` returns for the service of a key. -/
def subscribeCallback (naming : Naming ι ε) (config : RegistryConfig) (w : Watcher ε β)
    (key : GoString) (services : List ι) (err : Option GoString) (now : ℕ) : Watcher ε β :=
  let groupName := (splitKey key).1
  let serviceName := (splitKey key).2
  let host := makeHost config groupName serviceName
  match err with
  | some err =>
      if Strings.contains err (bytes "hosts is empty") && config.updateCacheWhenEmpty then
        { w with cache := w.cache.deleteServiceWrapper host }
      else w
  | none =>
      if (services.head?.bind naming.metadata).any fun metadata =>
          metadata.lookup (bytes "register-resource") == some (bytes "mcp-bridge") then w
      else
        { w with
          cache := w.cache.updateServiceWrapper host
            ⟨serviceName, naming.generateServiceEntry host services, suffix config groupName,
              config.type, config.name⟩ now
          put := w.put ++ [host] }

/-- `Stop`, with the order of the map of the watched services. -/
def stop (config : RegistryConfig) (w : Watcher ε β) (order : List GoString)
    (unsubscribe : GoString → Bool) : Watcher ε β :=
  { w with
    watchingServices := w.watchingServices.filter fun key => !unsubscribe key
    cache := w.cache.clean (order.map (hostOf config))
    isStop := true }

inductive Event (ι : Type)
  | refresh (r : Refresh)
  | callback (key : GoString) (services : List ι) (err : Option GoString) (now : ℕ)

/-- A refresh goes over the map of the watched services in some order, and callbacks come for services
that were subscribed to. A refresh does not touch the store and a callback not the watched services, so
a callback that comes in the middle of a refresh does what it would do behind it. -/
def step (naming : Naming ι ε) (config : RegistryConfig) (w : Watcher ε β) : Event ι → Watcher ε β
  | .refresh r => if r.order.Perm w.watchingServices then fetchAllServices config w r else w
  | .callback key services err now =>
      if key ∈ w.subscribed then subscribeCallback naming config w key services err now else w

/-- A run from a new watcher and a store with the hosts of others. -/
def run (naming : Naming ι ε) (config : RegistryConfig) (cache : Store (ServiceWrapper ε) β)
    (events : List (Event ι)) : Watcher ε β :=
  events.foldl (step naming config) { cache := cache }

/-! ### Hosts that are left behind -/

section Runs

variable {naming : Naming ι ε} {config : RegistryConfig} {w : Watcher ε β}

/-- Every host that the watcher has put is to be deleted, or is that of a watched service. -/
def Watcher.Kept (config : RegistryConfig) (w : Watcher ε β) : Prop :=
  Registry.Kept (hostOf config) w.cache w.put w.watchingServices

/-- A refresh finds the watched services whose hosts are in the store and not to be deleted, and a
callback without an error comes for the host of a watched service. -/
def Event.Harmless (config : RegistryConfig) (w : Watcher ε β) : Event ι → Prop
  | .refresh r => ∀ fetched, fetchServices config.nacosGroups 0 [] r.answers = some fetched →
      ∀ key ∈ w.watchingServices, hostOf config key ∈ w.put →
        ¬ w.cache.Deferred (hostOf config key) .service → key ∈ fetched
  | .callback key _ err _ => err = none → ∃ key' ∈ w.watchingServices, hostOf config key' = hostOf config key

/-- Every event of a run is harmless where it happens. -/
def HarmlessRun (naming : Naming ι ε) (config : RegistryConfig) (w : Watcher ε β) :
    List (Event ι) → Prop
  | [] => True
  | e :: events => e.Harmless config w ∧ HarmlessRun naming config (step naming config w e) events

/-- A service that is fetched is not dropped. -/
theorem mem_dropServices {fetched order watching : List GoString} {unsubscribe : GoString → Bool}
    {key : GoString} (hfetched : key ∈ fetched) (hkey : key ∈ watching) :
    key ∈ (dropServices fetched unsubscribe order watching).1 := by
  induction order generalizing watching with
  | nil => exact hkey
  | cons other order ih =>
      rw [dropServices]
      split
      · exact ih hkey
      · rename_i hother
        split
        · apply ih
          rw [List.mem_filter]
          refine ⟨hkey, ?_⟩
          simp only [decide_eq_true_eq]
          rintro rfl
          exact hother hfetched
        · exact hkey

/-- What a refresh leaves of the store and of the watched services. -/
theorem fetchAllServices_spec (config : RegistryConfig) (w : Watcher ε β) (r : Refresh) :
    (fetchAllServices config w r).cache = w.cache ∧ (fetchAllServices config w r).put = w.put ∧
      ∀ key ∈ w.watchingServices, (∀ fetched,
        fetchServices config.nacosGroups 0 [] r.answers = some fetched → key ∈ fetched) →
        key ∈ (fetchAllServices config w r).watchingServices := by
  rw [fetchAllServices]
  split
  · exact ⟨rfl, rfl, fun key hkey _ => hkey⟩
  · cases hfetch : fetchServices config.nacosGroups 0 [] r.answers with
    | none => exact ⟨rfl, rfl, fun key hkey _ => hkey⟩
    | some fetched =>
        dsimp only
        have hdrop (key : GoString) (hkey : key ∈ w.watchingServices) (hfetched : key ∈ fetched) :=
          @mem_dropServices fetched r.order w.watchingServices r.unsubscribe key hfetched hkey
        rcases hresult : dropServices fetched r.unsubscribe r.order w.watchingServices with
          ⟨watching, _ | _⟩
        · refine ⟨rfl, rfl, fun key hkey hfetched => ?_⟩
          simpa [hresult] using hdrop key hkey (hfetched fetched rfl)
        · refine ⟨rfl, rfl, fun key hkey hfetched => ?_⟩
          have hleft := hdrop key hkey (hfetched fetched rfl)
          rw [hresult] at hleft
          exact List.mem_append_left _ hleft

/-- A callback leaves a store alone, deletes the host of its service there or puts it. -/
theorem subscribeCallback_cases (naming : Naming ι ε) (config : RegistryConfig) (w : Watcher ε β)
    (key : GoString) (services : List ι) (err : Option GoString) (now : ℕ) :
    subscribeCallback naming config w key services err now = w ∨
      subscribeCallback naming config w key services err now =
        { w with cache := w.cache.deleteServiceWrapper (hostOf config key) } ∨
      err = none ∧ ∃ data, subscribeCallback naming config w key services err now =
        { w with
          cache := w.cache.updateServiceWrapper (hostOf config key) data now
          put := w.put ++ [hostOf config key] } := by
  cases err with
  | some err =>
      simp only [subscribeCallback]
      split
      · exact .inr (.inl rfl)
      · exact .inl rfl
  | none =>
      simp only [subscribeCallback]
      split
      · exact .inl rfl
      · exact .inr (.inr ⟨True.intro, _, rfl⟩)

theorem present_step (h : Present w.cache w.put) (e : Event ι) :
    Present (step naming config w e).cache (step naming config w e).put := by
  cases e with
  | refresh r =>
      rw [step]
      split
      · obtain ⟨hcache, hput, -⟩ := fetchAllServices_spec config w r
        rwa [hcache, hput]
      · exact h
  | callback key services err now =>
      rw [step]
      split
      · rcases subscribeCallback_cases naming config w key services err now with
          heq | heq | ⟨-, data, heq⟩
        · rwa [heq]
        · rw [heq]
          exact h.delete _
        · rw [heq]
          exact h.update _ _ _
      · exact h

theorem kept_step (h : w.Kept config) {e : Event ι} (he : e.Harmless config w) :
    (step naming config w e).Kept config := by
  cases e with
  | refresh r =>
      rw [step]
      split
      · obtain ⟨hcache, hput, hwatching⟩ := fetchAllServices_spec config w r
        rw [Watcher.Kept, hcache, hput]
        refine h.mono fun key hkey hmem hdeferred => hwatching key hkey fun fetched hfetched => ?_
        exact he fetched hfetched key hkey hmem hdeferred
      · exact h
  | callback key services err now =>
      rw [step]
      split
      · rcases subscribeCallback_cases naming config w key services err now with
          heq | heq | ⟨hnone, data, heq⟩
        · rwa [heq]
        · rw [heq]
          exact Registry.Kept.delete h _
        · obtain ⟨key', hkey', hsame⟩ := he hnone
          rw [heq, ← hsame]
          exact Registry.Kept.update h hkey' _ _
      · exact h

theorem present_run (naming : Naming ι ε) (config : RegistryConfig)
    (cache : Store (ServiceWrapper ε) β) (events : List (Event ι)) :
    Present (run naming config cache events).cache (run naming config cache events).put := by
  induction events using List.reverseRecOn with
  | nil => exact fun _ hput => absurd hput List.not_mem_nil
  | append_singleton events e ih =>
      rw [run, List.foldl_append]
      exact present_step ih e

theorem kept_of_harmlessRun (h : w.Kept config) {events : List (Event ι)}
    (hrun : HarmlessRun naming config w events) :
    (events.foldl (step naming config) w).Kept config := by
  induction events generalizing w with
  | nil => exact h
  | cons e events ih => exact ih (kept_step h hrun.1) hrun.2

/-- Every host that the watcher has put is to be deleted after `Stop` exactly if each of them was so
before or belongs to a service that was still watched; and that is so in every run in which no watched
service with a host in the store is missing from a refresh, and no callback puts the host of a service
that is not watched. -/
theorem stopped_iff (naming : Naming ι ε) (config : RegistryConfig)
    (cache : Store (ServiceWrapper ε) β) (events : List (Event ι)) (order : List GoString)
    (unsubscribe : GoString → Bool)
    (horder : order.Perm (run naming config cache events).watchingServices) :
    ((∀ host ∈ (run naming config cache events).put,
        (stop config (run naming config cache events) order unsubscribe).cache.Deferred host .service) ↔
      (run naming config cache events).Kept config) ∧
    (HarmlessRun naming config { cache := cache } events →
      ∀ host ∈ (run naming config cache events).put,
        (stop config (run naming config cache events) order unsubscribe).cache.Deferred host
          .service) := by
  have hiff := @clean_iff_kept _ _ _ _ _ (hostOf config)
    (present_run naming config cache events) order horder
  refine ⟨hiff, fun hharmless => hiff.mpr ?_⟩
  refine kept_of_harmlessRun ?_ hharmless
  exact fun _ hput => absurd hput List.not_mem_nil

end Runs

/-! ### A service that goes away -/

namespace Sample

def config : RegistryConfig := ⟨bytes "nacos2", bytes "n", bytes "public", [bytes "g"], true⟩

def naming : Naming Unit Unit := ⟨fun _ => none, fun _ _ => ()⟩

def always (order : List GoString) (services : List GoString) : Event Unit :=
  .refresh ⟨[some services], order, fun _ => true, fun _ => true⟩

/-- A service is found, and its instances come. -/
def found : List (Event Unit) :=
  [always [] [bytes "a"], .callback (bytes "g@@a") [()] none 0]

/-- The service is missing from the next refresh. -/
def gone : List (Event Unit) := found ++ [always [bytes "g@@a"] []]

def watcher (events : List (Event Unit)) : Watcher Unit Unit := run naming config .new events

end Sample

theorem stopped_watching :
    (Sample.watcher Sample.found).put = [bytes "a.g.public.nacos"] ∧
      ∀ host ∈ (Sample.watcher Sample.found).put,
        (stop Sample.config (Sample.watcher Sample.found) [bytes "g@@a"] fun _ => true).cache.Deferred
          host .service := by
  have hwatching : (Sample.watcher Sample.found).watchingServices = [bytes "g@@a"] := by decide
  refine ⟨by decide, ?_⟩
  refine (stopped_iff Sample.naming Sample.config .new Sample.found [bytes "g@@a"] (fun _ => true)
    (by rw [show run Sample.naming Sample.config .new Sample.found = Sample.watcher Sample.found from rfl,
      hwatching])).1.mpr ?_
  intro host hhost
  have hput : (run Sample.naming Sample.config .new Sample.found : Watcher Unit Unit).put =
      [hostOf Sample.config (bytes "g@@a")] := by decide
  rw [hput] at hhost
  refine .inr ⟨bytes "g@@a", ?_, (List.mem_singleton.mp hhost).symm⟩
  change bytes "g@@a" ∈ (Sample.watcher Sample.found).watchingServices
  simp [hwatching]

/-- The host of a service that went away stays. -/
theorem stopped_left_behind :
    bytes "a.g.public.nacos" ∈ (Sample.watcher Sample.gone).put ∧
      (Sample.watcher Sample.gone).watchingServices = [] ∧
      ¬ (stop Sample.config (Sample.watcher Sample.gone) [] fun _ => true).cache.Deferred
        (bytes "a.g.public.nacos") .service := by
  have hnone : (stop Sample.config (Sample.watcher Sample.gone) [] fun _ =>
      true).cache.deferredDeleteServices.keys = [] := by decide
  refine ⟨by decide, by decide, fun hdeferred => ?_⟩
  have hmem : bytes "a.g.public.nacos" ∈ (stop Sample.config (Sample.watcher Sample.gone) [] fun _ =>
      true).cache.deferredDeleteServices.keys := hdeferred
  rw [hnone] at hmem
  cases hmem

end Higress.Registry.Nacos
