import Mathlib
import Higress.Lib.Path
import Higress.Lib.Run
import Higress.Registry.Cache

/-!
The reconciler of the service registries (`registry/reconcile/reconcile.go`). A
registry that is asked for has a watcher, which runs until the registry is no longer
asked for or is described otherwise. Watchers are numbered in the order in which they
are started, so that the number of those ever started and the list of those stopped
tell what has become of each.

What cannot be known from inside is part of a call: which secrets are there, which
watchers can be created, whether they are ready in time, what they do to the store
meanwhile, and in which order maps are gone through.
-/

namespace Higress.Registry

open Lib

/-- `RegistryConfig`; `rest` is what only the watchers read. -/
structure RegistryConfig (δ : Type) where
  type : GoString
  name : GoString
  authSecretName : GoString
  rest : δ
  deriving DecidableEq

/-- `ProxyConfig`; `rest` is what only the filter is built of. -/
structure ProxyConfig (ρ : Type) where
  name : GoString
  serverAddress : GoString
  serverPort : UInt32
  listenerPort : UInt32
  rest : ρ
  deriving DecidableEq

/-- `McpBridge.Spec`. -/
structure McpBridge (δ ρ : Type) where
  registries : List (RegistryConfig δ)
  proxies : List (ProxyConfig ρ)

/-- `Reconciler`, with what has become of the watchers, the proxies handed to the
client to be saved, and how often the update handler was called. -/
structure Reconciler (δ ρ α β : Type) where
  cache : Store α β
  registries : Entries (RegistryConfig δ)
  proxies : Entries (ProxyConfig ρ)
  watchers : Entries ℕ
  started : ℕ
  stopped : List ℕ
  saved : List (List (ProxyConfig ρ))
  serviceUpdates : ℕ

/-- A call of `Reconcile`, with what it meets. -/
structure Call (δ ρ α β : Type) where
  mcpbridge : Option (McpBridge δ ρ)
  saves : Except GoString Unit
  hasSecret : GoString → Bool
  newWatcher : RegistryConfig δ → Bool
  isReady : Bool
  meanwhile : List (Op α β)
  now : ℕ
  order : List GoString → List GoString
  order_perm : ∀ keys, (order keys).Perm keys

variable {δ ρ α β : Type}

/-! ### Ports of proxies -/

/-- `NeedToFillProxyListenerPorts`. -/
def needToFillProxyListenerPorts (proxies : List (ProxyConfig ρ)) : Bool :=
  proxies.any fun proxy => proxy.listenerPort ≤ 0

/-- `proxyPortRangeStart` up to `proxyPortRangeEnd`, which is not one of them. -/
def proxyPortRange : List UInt32 := (List.range' 50001 (51000 - 50001)).map UInt32.ofNat

/-- The second loop of `FillProxyListenerPorts`. -/
def fillPorts (usedPorts : List UInt32) : List (ProxyConfig ρ) → List (ProxyConfig ρ) × Bool
  | [] => ([], false)
  | proxy :: proxies =>
      if 0 < proxy.listenerPort then
        let (proxies, filled) := fillPorts usedPorts proxies
        (proxy :: proxies, filled)
      else match proxyPortRange.find? fun port => !usedPorts.contains port with
        | some port =>
            let (proxies, _) := fillPorts (port :: usedPorts) proxies
            ({ proxy with listenerPort := port } :: proxies, true)
        | none =>
            let (proxies, filled) := fillPorts usedPorts proxies
            (proxy :: proxies, filled)

/-- `FillProxyListenerPorts`. -/
def fillProxyListenerPorts (proxies : List (ProxyConfig ρ)) : List (ProxyConfig ρ) × Bool :=
  fillPorts ((proxies.map ProxyConfig.listenerPort).filter (0 < ·)) proxies

/-- The proxies a bridge is saved with instead of being reconciled: those of a bridge in
which ports could be filled. -/
def McpBridge.toBeSaved (bridge : McpBridge δ ρ) : Option (List (ProxyConfig ρ)) :=
  if needToFillProxyListenerPorts bridge.proxies then
    let (proxies, filled) := fillProxyListenerPorts bridge.proxies
    if filled then some proxies else none
  else none

/-! ### Registries -/

/-- The key of a registry. -/
def RegistryConfig.key (registry : RegistryConfig δ) : GoString :=
  Path.join [registry.type, registry.name]

/-- `newRegistries`: of registries with one key, the last. -/
def newRegistries (registries : List (RegistryConfig δ)) : Entries (RegistryConfig δ) :=
  registries.foldl (fun entries registry => entries.insert registry.key registry) ∅

/-- `getAuthOption`, as far as it fails. -/
def getAuthOption (call : Call δ ρ α β) (registry : RegistryConfig δ) : Bool :=
  registry.authSecretName.isEmpty || call.hasSecret registry.authSecretName

/-- The types there are watchers for. -/
def registryTypes : List GoString :=
  ["nacos", "nacos2", "nacos3", "zookeeper", "consul", "static", "dns", "eureka"].map bytes

/-- `generateWatcherFromRegistryConfig`, as far as it fails. -/
def generateWatcherFromRegistryConfig (call : Call δ ρ α β) (registry : RegistryConfig δ) : Bool :=
  getAuthOption call registry && registryTypes.contains registry.type && call.newWatcher registry

/-- The registries a call asks for, if it gets to them: a bridge in which ports could be
filled is saved, and reconciled by the call that follows. -/
def Call.registries (call : Call δ ρ α β) : Option (List (RegistryConfig δ)) :=
  match call.mcpbridge with
  | none => some []
  | some bridge =>
      match bridge.toBeSaved with
      | some _ => none
      | none => some bridge.registries

namespace Reconciler

/-- `NewReconciler`. -/
def new : Reconciler δ ρ α β := ⟨.new, ∅, ∅, ∅, 0, [], [], 0⟩

/-- The watcher of a key is stopped and the key is forgotten; `none` is a call of `Stop`
on a nil watcher. -/
def stop (r : Reconciler δ ρ α β) (k : GoString) : Option (Reconciler δ ρ α β) :=
  (r.watchers.lookup k).map fun watcher =>
    { r with
      stopped := r.stopped ++ [watcher]
      registries := r.registries.erase k
      watchers := r.watchers.erase k }

/-- A watcher is created for the key and run, unless that fails. -/
def start (call : Call δ ρ α β) (r : Reconciler δ ρ α β) (k : GoString) (v : RegistryConfig δ) :
    Reconciler δ ρ α β :=
  if generateWatcherFromRegistryConfig call v then
    { r with
      started := r.started + 1
      watchers := r.watchers.insert k r.started
      registries := r.registries.insert k v }
  else r

section Loops

variable [DecidableEq δ] [DecidableEq ρ]

/-- The keys of `toBeDeleted`. -/
def toBeDeleted (r : Reconciler δ ρ α β) (requested : Entries (RegistryConfig δ)) : List GoString :=
  r.registries.keys.filter fun k => (requested.lookup k).isNone

/-- The keys of `toBeUpdated`. -/
def toBeUpdated (r : Reconciler δ ρ α β) (requested : Entries (RegistryConfig δ)) : List GoString :=
  requested.keys.filter fun k =>
    (r.registries.lookup k).isSome && r.registries.lookup k != requested.lookup k

/-- The keys of `toBeCreated`. -/
def toBeCreated (r : Reconciler δ ρ α β) (requested : Entries (RegistryConfig δ)) : List GoString :=
  requested.keys.filter fun k => (r.registries.lookup k).isNone

/-- The loops over `toBeUpdated` and `toBeCreated` from where a watcher is created. -/
def restart (call : Call δ ρ α β) (requested : Entries (RegistryConfig δ))
    (r : Reconciler δ ρ α β) (k : GoString) : Reconciler δ ρ α β :=
  match requested.lookup k with
  | some v => r.start call k v
  | none => r

/-- `reconcileRegistries` up to where the watchers are waited for. -/
def renewWatchers (call : Call δ ρ α β) (r : Reconciler δ ρ α β)
    (requested : Entries (RegistryConfig δ)) : Option (Reconciler δ ρ α β) := do
  let r₁ ← (call.order (r.toBeDeleted requested)).foldlM stop r
  let r₂ ← (call.order (r.toBeUpdated requested)).foldlM
    (fun s k => (s.stop k).map fun s => s.restart call requested k) r₁
  return (call.order (r.toBeCreated requested)).foldl (restart call requested) r₂

/-- `errHappened`. -/
def errHappened (call : Call δ ρ α β) (r : Reconciler δ ρ α β)
    (requested : Entries (RegistryConfig δ)) : Bool :=
  (r.toBeUpdated requested ++ r.toBeCreated requested).any fun k =>
    match requested.lookup k with
    | some v => !generateWatcherFromRegistryConfig call v
    | none => false

/-- `reconcileRegistries`. The watchers work on the store as soon as they run. -/
def reconcileRegistries (call : Call δ ρ α β) (r : Reconciler δ ρ α β)
    (registries : List (RegistryConfig δ)) : Option (Reconciler δ ρ α β × Except GoString Unit) := do
  let requested := newRegistries registries
  let r' ← r.renewWatchers call requested
  let r' := { r' with cache := call.meanwhile.foldl Store.apply r'.cache }
  if r.errHappened call requested then
    return (r', .error (bytes "ReconcileRegistries failed, Init Watchers failed"))
  else if call.isReady then return (r', .ok ())
  else return (r', .error (bytes "ReoncileRegistries failed, waiting for ready timeout"))

/-! ### Proxies -/

section Proxies

variable (buildEnvoyFilter : ProxyConfig ρ → Except GoString (Option β))

/-- `BuildProxyWrapper`. -/
def buildProxyWrapper (config : ProxyConfig ρ) : Except GoString (Option β) :=
  if config.serverAddress.isEmpty || config.serverPort ≤ 0 || 65535 < config.serverPort ||
      config.listenerPort ≤ 0 || 65535 < config.listenerPort then .ok none
  else buildEnvoyFilter config

/-- The first loop of `reconcileProxies`. -/
def deleteProxy (r : Reconciler δ ρ α β) (k : GoString) : Reconciler δ ρ α β :=
  { r with cache := r.cache.deleteProxyWrapper k, proxies := r.proxies.erase k }

/-- The second loop of `reconcileProxies`, with whether the handler has to be called. -/
def updateProxy (call : Call δ ρ α β) (newProxies : Entries (ProxyConfig ρ))
    (left : Reconciler δ ρ α β × Bool) (k : GoString) : Reconciler δ ρ α β × Bool :=
  match newProxies.lookup k with
  | none => left
  | some v =>
      match buildProxyWrapper buildEnvoyFilter v with
      | .ok (some wrapper) =>
          ({ left.1 with
              cache := left.1.cache.updateProxyWrapper k wrapper call.now
              proxies := left.1.proxies.insert k v }, true)
      | _ => left

/-- `reconcileProxies`. -/
def reconcileProxies (call : Call δ ρ α β) (r : Reconciler δ ρ α β)
    (proxies : List (ProxyConfig ρ)) : Reconciler δ ρ α β :=
  let newProxies : Entries (ProxyConfig ρ) :=
    proxies.foldl (fun entries proxy => entries.insert proxy.name proxy) ∅
  let toBeUpdated := newProxies.keys.filter fun k => r.proxies.lookup k != newProxies.lookup k
  let toBeDeleted := r.proxies.keys.filter fun k => (newProxies.lookup k).isNone
  let deleted := (call.order toBeDeleted).foldl deleteProxy r
  let (r', needNotify) := (call.order toBeUpdated).foldl
    (updateProxy buildEnvoyFilter call newProxies) (deleted, !toBeDeleted.isEmpty)
  if needNotify then { r' with serviceUpdates := r'.serviceUpdates + 1 } else r'

/-! ### A call -/

/-- `Reconcile` from where the registries are known. -/
def reconcileAll (call : Call δ ρ α β) (r : Reconciler δ ρ α β)
    (registries : List (RegistryConfig δ)) (proxies : List (ProxyConfig ρ)) :
    Option (Reconciler δ ρ α β × Except GoString Unit) := do
  match ← r.reconcileRegistries call registries with
  | (r, .error e) => return (r, .error e)
  | (r, .ok ()) =>
      let r := r.reconcileProxies buildEnvoyFilter call proxies
      let (cache, purged) := r.cache.purgeStaleItems
      return ({ r with
        cache := cache
        serviceUpdates := if purged then r.serviceUpdates + 1 else r.serviceUpdates }, .ok ())

/-- `Reconcile`; `none` is a call of `Stop` on a nil watcher. -/
def reconcile (call : Call δ ρ α β) (r : Reconciler δ ρ α β) :
    Option (Reconciler δ ρ α β × Except GoString Unit) :=
  match call.mcpbridge with
  | none => r.reconcileAll buildEnvoyFilter call [] []
  | some bridge =>
      match bridge.toBeSaved with
      | some proxies =>
          some ({ r with saved := r.saved ++ [proxies] },
            call.saves.mapError (bytes "failed to save filled proxy listener ports: " ++ ·))
      | none => r.reconcileAll buildEnvoyFilter call bridge.registries bridge.proxies

/-- The reconciler after some calls. -/
def after (calls : List (Call δ ρ α β)) : Option (Reconciler δ ρ α β) :=
  calls.foldlM (fun r call => (r.reconcile buildEnvoyFilter call).map Prod.fst) new

end Proxies

end Loops

/-! ### Watchers -/

/-- The part of the state that the watchers are accounted for in. -/
def ledger (r : Reconciler δ ρ α β) : Entries (RegistryConfig δ) × Entries ℕ × ℕ × List ℕ :=
  (r.registries, r.watchers, r.started, r.stopped)

/-- The watchers of the reconciler are accounted for. -/
structure Accounted (r : Reconciler δ ρ α β) : Prop where
  keys : ∀ k, k ∈ r.registries ↔ k ∈ r.watchers
  injective : ∀ k k' w, r.watchers.lookup k = some w → r.watchers.lookup k' = some w → k = k'
  lt_started : ∀ k w, r.watchers.lookup k = some w → w < r.started
  stopped_lt : ∀ w ∈ r.stopped, w < r.started
  stopped_nodup : r.stopped.Nodup
  stopped_iff : ∀ w < r.started, w ∈ r.stopped ↔ ∀ k, r.watchers.lookup k ≠ some w

/-- Between two states the registries of some keys were made what is wanted of them,
with new watchers where they can be created, and nothing else was touched. -/
structure Handled (call : Call δ ρ α β) (wanted : GoString → Option (RegistryConfig δ))
    (keys : Set GoString) (r r' : Reconciler δ ρ α β) : Prop where
  accounted : r'.Accounted
  others : ∀ k ∉ keys, r'.registries.lookup k = r.registries.lookup k ∧
    r'.watchers.lookup k = r.watchers.lookup k
  started : r.started ≤ r'.started
  registry : ∀ k ∈ keys, r'.registries.lookup k =
    (wanted k).filter (generateWatcherFromRegistryConfig call)
  renewed : ∀ k ∈ keys, ∀ w, r'.watchers.lookup k = some w → r.started ≤ w

theorem accounted_new : (new : Reconciler δ ρ α β).Accounted := by
  constructor <;> simp [new]

variable {call : Call δ ρ α β} {r r₁ r₂ : Reconciler δ ρ α β}
    {wanted wanted' : GoString → Option (RegistryConfig δ)} {keys keys' : Set GoString}

theorem Accounted.exists_watcher (h : r.Accounted) {k : GoString} (hk : k ∈ r.registries) :
    ∃ w, r.watchers.lookup k = some w :=
  Option.isSome_iff_exists.mp (AList.lookup_isSome.mpr ((h.keys k).mp hk))

theorem Accounted.handled (h : r.Accounted) : r.Handled call wanted ∅ r where
  accounted := h
  others _ _ := ⟨rfl, rfl⟩
  started := le_rfl
  registry _ hk := hk.elim
  renewed _ hk := hk.elim

theorem Handled.trans (h₁ : r.Handled call wanted keys r₁) (h₂ : r₁.Handled call wanted' keys' r₂)
    (hwanted : ∀ k ∈ keys, k ∉ keys' → wanted k = wanted' k) :
    r.Handled call wanted' (keys ∪ keys') r₂ where
  accounted := h₂.accounted
  others k hk := by
    obtain ⟨hk₁, hk₂⟩ := not_or.mp hk
    exact ⟨(h₂.others k hk₂).1.trans (h₁.others k hk₁).1,
      (h₂.others k hk₂).2.trans (h₁.others k hk₁).2⟩
  started := h₁.started.trans h₂.started
  registry k hk := by
    by_cases hk' : k ∈ keys'
    · exact h₂.registry k hk'
    · have hmem : k ∈ keys := hk.resolve_right hk'
      rw [(h₂.others k hk').1, h₁.registry k hmem, hwanted k hmem hk']
  renewed k hk w hw := by
    by_cases hk' : k ∈ keys'
    · exact h₁.started.trans (h₂.renewed k hk' w hw)
    · rw [(h₂.others k hk').2] at hw
      exact h₁.renewed k (hk.resolve_right hk') w hw

theorem Handled.congr (h : r.Handled call wanted keys r₁)
    (hwanted : ∀ k ∈ keys, wanted k = wanted' k) : r.Handled call wanted' keys r₁ :=
  { h with registry := fun k hk => (h.registry k hk).trans (by rw [hwanted k hk]) }

theorem Handled.of_ledger (h : r.Handled call wanted keys r₁) (hledger : r₂.ledger = r₁.ledger) :
    r.Handled call wanted keys r₂ := by
  obtain ⟨hregistries, hwatchers, hstarted, hstopped⟩ :
      r₂.registries = r₁.registries ∧ r₂.watchers = r₁.watchers ∧ r₂.started = r₁.started ∧
        r₂.stopped = r₁.stopped := by
    simpa [ledger] using hledger
  obtain ⟨⟨hkeys, hinjective, hlt, hstopped_lt, hnodup, hiff⟩, hothers, hle, hregistry, hrenewed⟩ := h
  rw [← hregistries, ← hwatchers] at hkeys hothers
  rw [← hwatchers] at hinjective hrenewed
  rw [← hwatchers, ← hstarted] at hlt
  rw [← hstopped, ← hstarted] at hstopped_lt
  rw [← hstopped] at hnodup
  rw [← hstopped, ← hstarted, ← hwatchers] at hiff
  rw [← hstarted] at hle
  rw [← hregistries] at hregistry
  exact ⟨⟨hkeys, hinjective, hlt, hstopped_lt, hnodup, hiff⟩, hothers, hle, hregistry, hrenewed⟩

/-- A watcher of a key that is handled has been stopped. -/
theorem Handled.stopped (h : r.Handled call wanted keys r₁) (hr : r.Accounted) {k : GoString}
    (hk : k ∈ keys) {w : ℕ} (hw : r.watchers.lookup k = some w) : w ∈ r₁.stopped := by
  have hlt : w < r.started := hr.lt_started k w hw
  rw [h.accounted.stopped_iff w (hlt.trans_le h.started)]
  intro k' hw'
  by_cases hk' : k' ∈ keys
  · exact absurd (h.renewed k' hk' w hw') (by omega)
  · rw [(h.others k' hk').2] at hw'
    exact hk' (hr.injective k k' w hw hw' ▸ hk)

/-! ### One key -/

theorem stop_eq {k : GoString} {w : ℕ} (hw : r.watchers.lookup k = some w) :
    r.stop k = some { r with
      stopped := r.stopped ++ [w]
      registries := r.registries.erase k
      watchers := r.watchers.erase k } := by
  rw [stop, hw]
  rfl

theorem handled_stop (h : r.Accounted) {k : GoString} (hk : k ∈ r.registries) :
    ∃ r', r.stop k = some r' ∧ r.Handled call (fun _ => none) {k} r' := by
  obtain ⟨w, hw⟩ := h.exists_watcher hk
  have hlt := h.lt_started k w hw
  -- the watcher is not stopped yet, since the key still has it
  have hnot : w ∉ r.stopped := fun hmem => (h.stopped_iff w hlt).mp hmem k hw
  have hother : ∀ k' w', (r.watchers.erase k).lookup k' = some w' ↔
      k' ≠ k ∧ r.watchers.lookup k' = some w' := by
    intro k' w'
    by_cases hk' : k' = k
    · subst hk'
      simp
    · simp [AList.lookup_erase_ne hk', hk']
  refine ⟨_, stop_eq hw, ?_⟩
  refine ⟨?_, ?_, le_rfl, ?_, ?_⟩
  · constructor
    · intro k'
      simp only [AList.mem_erase, h.keys k']
    · intro k₁ k₂ w' h₁ h₂
      exact h.injective k₁ k₂ w' ((hother _ _).mp h₁).2 ((hother _ _).mp h₂).2
    · intro k' w' hw'
      exact h.lt_started k' w' ((hother _ _).mp hw').2
    · intro w' hw'
      rcases List.mem_append.mp hw' with hw' | hw'
      · exact h.stopped_lt w' hw'
      · rwa [List.mem_singleton.mp hw']
    · refine List.nodup_append.mpr ⟨h.stopped_nodup, List.nodup_singleton w, ?_⟩
      intro a ha b hb
      rw [List.mem_singleton.mp hb]
      rintro rfl
      exact hnot ha
    · intro w' hw'
      rw [List.mem_append, List.mem_singleton, h.stopped_iff w' hw']
      constructor
      · rintro (hnone | rfl) k' hk'
        · exact hnone k' ((hother _ _).mp hk').2
        · obtain ⟨hne, hk'⟩ := (hother _ _).mp hk'
          exact hne (h.injective k' k w' hk' hw)
      · intro hnone
        by_cases heq : w' = w
        · exact .inr heq
        · refine .inl fun k' hk' => hnone k' ((hother _ _).mpr ⟨?_, hk'⟩)
          rintro rfl
          exact heq (Option.some.inj (hk'.symm.trans hw))
  · intro k' hk'
    exact ⟨AList.lookup_erase_ne hk', AList.lookup_erase_ne hk'⟩
  · intro k' hk'
    obtain rfl : k' = k := hk'
    simp
  · intro k' hk' w' hw'
    exact absurd hk' ((hother _ _).mp hw').1

theorem handled_start (h : r.Accounted) {k : GoString} (hk : k ∉ r.registries)
    (v : RegistryConfig δ) : r.Handled call (fun _ => some v) {k} (r.start call k v) := by
  have hnone : r.registries.lookup k = none := AList.lookup_eq_none.mpr hk
  have hnone' : r.watchers.lookup k = none := AList.lookup_eq_none.mpr (mt (h.keys k).mpr hk)
  rw [start]
  split
  · rename_i hgen
    have hother : ∀ k' w, (r.watchers.insert k r.started).lookup k' = some w ↔
        k' = k ∧ w = r.started ∨ r.watchers.lookup k' = some w := by
      intro k' w
      by_cases hk' : k' = k
      · subst hk'
        simp [hnone', eq_comm]
      · simp [AList.lookup_insert_ne hk', hk']
    refine ⟨?_, ?_, Nat.le_succ _, ?_, ?_⟩
    · constructor
      · intro k'
        simp only [AList.mem_insert, h.keys k']
      · intro k₁ k₂ w h₁ h₂
        rcases (hother _ _).mp h₁ with ⟨hk₁, hw₁⟩ | hold₁
        · rcases (hother _ _).mp h₂ with ⟨hk₂, -⟩ | hold₂
          · exact hk₁.trans hk₂.symm
          · exact absurd (h.lt_started k₂ w hold₂) (by omega)
        · rcases (hother _ _).mp h₂ with ⟨-, hw₂⟩ | hold₂
          · exact absurd (h.lt_started k₁ w hold₁) (by omega)
          · exact h.injective k₁ k₂ w hold₁ hold₂
      · intro k' w hw
        rcases (hother _ _).mp hw with ⟨-, rfl⟩ | hw
        · exact Nat.lt_succ_self _
        · exact (h.lt_started k' w hw).trans (Nat.lt_succ_self _)
      · intro w hw
        exact (h.stopped_lt w hw).trans (Nat.lt_succ_self _)
      · exact h.stopped_nodup
      · intro w hw
        rcases Nat.lt_succ_iff_lt_or_eq.mp hw with hw | rfl
        · show w ∈ r.stopped ↔ _
          rw [h.stopped_iff w hw]
          refine forall_congr' fun k' => not_congr ?_
          rw [hother]
          exact (or_iff_right (by omega)).symm
        · refine iff_of_false (fun hmem => lt_irrefl _ (h.stopped_lt _ hmem)) fun hall => ?_
          exact hall k ((hother _ _).mpr (.inl ⟨rfl, rfl⟩))
    · intro k' hk'
      exact ⟨AList.lookup_insert_ne hk', AList.lookup_insert_ne hk'⟩
    · intro k' hk'
      obtain rfl : k' = k := hk'
      simp [Option.filter_some, hgen]
    · intro k' hk' w hw
      obtain rfl : k' = k := hk'
      rcases (hother _ _).mp hw with ⟨-, rfl⟩ | hw
      · exact le_rfl
      · rw [hnone'] at hw
        cases hw
  · rename_i hgen
    refine ⟨h, fun _ _ => ⟨rfl, rfl⟩, le_rfl, ?_, ?_⟩
    · intro k' hk'
      obtain rfl : k' = k := hk'
      simp [Option.filter_some, hgen, hnone]
    · intro k' hk' w hw
      obtain rfl : k' = k := hk'
      rw [hnone'] at hw
      cases hw

/-! ### The loops -/

/-- A loop over different keys whose steps handle their keys handles all of them. What a
step needs of its key no other step changes. -/
theorem handled_loop {step : Reconciler δ ρ α β → GoString → Option (Reconciler δ ρ α β)}
    {P : Option (RegistryConfig δ) → Prop} {ks : List GoString} (hnodup : ks.Nodup)
    (hr : r.Accounted) (hP : ∀ k ∈ ks, P (r.registries.lookup k))
    (hstep : ∀ s : Reconciler δ ρ α β, s.Accounted → ∀ k ∈ ks, P (s.registries.lookup k) →
      ∃ s', step s k = some s' ∧ s.Handled call wanted {k} s') :
    ∃ r', ks.foldlM step r = some r' ∧ r.Handled call wanted {k | k ∈ ks} r' := by
  induction ks generalizing r with
  | nil => exact ⟨r, rfl, by simpa using hr.handled⟩
  | cons k ks ih =>
      rw [List.nodup_cons] at hnodup
      obtain ⟨r₁, hr₁, hk⟩ := hstep r hr k List.mem_cons_self (hP k List.mem_cons_self)
      have hP₁ : ∀ k' ∈ ks, P (r₁.registries.lookup k') := by
        intro k' hk'
        have hne : k' ≠ k := fun heq => hnodup.1 (heq ▸ hk')
        rw [(hk.others k' hne).1]
        exact hP k' (List.mem_cons_of_mem _ hk')
      obtain ⟨r₂, hr₂, hks⟩ := ih hnodup.2 hk.accounted hP₁
        fun s hs k' hk' => hstep s hs k' (List.mem_cons_of_mem _ hk')
      have hunion : {k' | k' ∈ k :: ks} = {k} ∪ {k' | k' ∈ ks} := by
        ext k'
        simp
      refine ⟨r₂, ?_, hunion ▸ hk.trans hks fun _ _ _ => rfl⟩
      rw [List.foldlM_cons, hr₁]
      exact hr₂

theorem handled_restart (h : r.Accounted) {requested : Entries (RegistryConfig δ)} {k : GoString}
    (hk : k ∉ r.registries) (hrequested : k ∈ requested) :
    r.Handled call requested.lookup {k} (r.restart call requested k) := by
  obtain ⟨v, hv⟩ := Option.isSome_iff_exists.mp (AList.lookup_isSome.mpr hrequested)
  rw [restart, hv]
  refine (handled_start h hk v).congr ?_
  rintro _ rfl
  exact hv.symm

theorem handled_stop_restart (h : r.Accounted) {requested : Entries (RegistryConfig δ)}
    {k : GoString} (hk : k ∈ r.registries) (hrequested : k ∈ requested) :
    ∃ r', (r.stop k).map (fun s => s.restart call requested k) = some r' ∧
      r.Handled call requested.lookup {k} r' := by
  obtain ⟨r₁, hr₁, hstop⟩ : ∃ r₁, r.stop k = some r₁ ∧ r.Handled call (fun _ => none) {k} r₁ :=
    handled_stop h hk
  have hgone : k ∉ r₁.registries := by
    rw [← AList.lookup_eq_none, hstop.registry k rfl]
    rfl
  refine ⟨_, by rw [hr₁, Option.map_some], ?_⟩
  have hboth := hstop.trans (handled_restart hstop.accounted hgone hrequested)
    fun k' hk' hnot => absurd hk' hnot
  rwa [Set.union_self] at hboth

section Sorts

variable (requested : Entries (RegistryConfig δ)) (k : GoString)

theorem nodup_order_filter (entries : Entries (RegistryConfig δ)) (p : GoString → Bool) :
    (call.order (entries.keys.filter p)).Nodup :=
  ((call.order_perm _).nodup_iff).mpr (entries.keys_nodup.filter _)

theorem mem_toBeDeleted :
    k ∈ call.order (r.toBeDeleted requested) ↔ k ∈ r.registries ∧ k ∉ requested := by
  rw [(call.order_perm _).mem_iff, toBeDeleted, List.mem_filter, Option.isNone_iff_eq_none,
    AList.lookup_eq_none]
  rfl

theorem mem_toBeCreated :
    k ∈ call.order (r.toBeCreated requested) ↔ k ∈ requested ∧ k ∉ r.registries := by
  rw [(call.order_perm _).mem_iff, toBeCreated, List.mem_filter, Option.isNone_iff_eq_none,
    AList.lookup_eq_none]
  rfl

variable [DecidableEq δ]

theorem mem_toBeUpdated :
    k ∈ call.order (r.toBeUpdated requested) ↔
      k ∈ requested ∧ k ∈ r.registries ∧ r.registries.lookup k ≠ requested.lookup k := by
  rw [(call.order_perm _).mem_iff, toBeUpdated, List.mem_filter, Bool.and_eq_true,
    AList.lookup_isSome, bne_iff_ne]
  rfl

/-- A key whose registry is not what is requested is of one of the three sorts. -/
theorem changed_iff :
    r.registries.lookup k ≠ requested.lookup k ↔
      (k ∈ call.order (r.toBeDeleted requested) ∨ k ∈ call.order (r.toBeUpdated requested)) ∨
        k ∈ call.order (r.toBeCreated requested) := by
  rw [mem_toBeDeleted, mem_toBeUpdated, mem_toBeCreated]
  by_cases hold : k ∈ r.registries
  · by_cases hrequested : k ∈ requested
    · simp [hold, hrequested]
    · obtain ⟨v, hv⟩ := Option.isSome_iff_exists.mp (AList.lookup_isSome.mpr hold)
      simp [hold, hrequested, AList.lookup_eq_none.mpr hrequested, hv]
  · have hnone := AList.lookup_eq_none.mpr hold
    by_cases hrequested : k ∈ requested
    · obtain ⟨v, hv⟩ := Option.isSome_iff_exists.mp (AList.lookup_isSome.mpr hrequested)
      simp [hold, hrequested, hnone, hv]
    · simp [hold, hrequested, hnone, AList.lookup_eq_none.mpr hrequested]

end Sorts

variable [DecidableEq δ]

/-- The keys whose registry is not what is requested are handled, no other. -/
theorem handled_renewWatchers (h : r.Accounted) (requested : Entries (RegistryConfig δ)) :
    ∃ r', r.renewWatchers call requested = some r' ∧
      r.Handled call requested.lookup {k | r.registries.lookup k ≠ requested.lookup k} r' := by
  obtain ⟨r₁, hr₁, h₁⟩ : ∃ r₁, (call.order (r.toBeDeleted requested)).foldlM stop r = some r₁ ∧
      r.Handled call requested.lookup {k | k ∈ call.order (r.toBeDeleted requested)} r₁ := by
    refine handled_loop (P := fun old => old.isSome) (nodup_order_filter _ _) h ?_ ?_
    · exact fun k hk => AList.lookup_isSome.mpr ((mem_toBeDeleted _ k).mp hk).1
    · intro s hs k hk hold
      obtain ⟨s', hs', hstop⟩ := handled_stop hs (AList.lookup_isSome.mp hold)
      refine ⟨s', hs', hstop.congr ?_⟩
      rintro _ rfl
      exact (AList.lookup_eq_none.mpr ((mem_toBeDeleted _ _).mp hk).2).symm
  obtain ⟨r₂, hr₂, h₂⟩ : ∃ r₂, (call.order (r.toBeUpdated requested)).foldlM
      (fun s k => (s.stop k).map fun s => s.restart call requested k) r₁ = some r₂ ∧
      r₁.Handled call requested.lookup {k | k ∈ call.order (r.toBeUpdated requested)} r₂ := by
    refine handled_loop (P := fun old => old.isSome) (nodup_order_filter _ _) h₁.accounted ?_ ?_
    · intro k hk
      obtain ⟨hrequested, hold, -⟩ := (mem_toBeUpdated _ k).mp hk
      rw [(h₁.others k fun hmem => ((mem_toBeDeleted _ k).mp hmem).2 hrequested).1]
      exact AList.lookup_isSome.mpr hold
    · intro s hs k hk hold
      exact handled_stop_restart hs (AList.lookup_isSome.mp hold) ((mem_toBeUpdated _ k).mp hk).1
  have h₁₂ := h₁.trans h₂ fun _ _ _ => rfl
  obtain ⟨r₃, hr₃, h₃⟩ : ∃ r₃, (call.order (r.toBeCreated requested)).foldlM
      (fun s k => some (s.restart call requested k)) r₂ = some r₃ ∧
      r₂.Handled call requested.lookup {k | k ∈ call.order (r.toBeCreated requested)} r₃ := by
    refine handled_loop (P := fun old => old = none) (nodup_order_filter _ _) h₂.accounted ?_ ?_
    · intro k hk
      obtain ⟨-, hnew⟩ := (mem_toBeCreated _ k).mp hk
      rw [(h₁₂.others k ?_).1]
      · exact AList.lookup_eq_none.mpr hnew
      · rintro (hmem | hmem)
        · exact hnew ((mem_toBeDeleted _ k).mp hmem).1
        · exact hnew ((mem_toBeUpdated _ k).mp hmem).2.1
    · intro s hs k hk hold
      exact ⟨_, rfl, handled_restart hs (AList.lookup_eq_none.mp hold)
        ((mem_toBeCreated _ k).mp hk).1⟩
  have hfold : (call.order (r.toBeCreated requested)).foldl (restart call requested) r₂ = r₃ := by
    refine Option.some.inj (Eq.trans ?_ hr₃)
    exact (List.foldlM_pure (m := Option)).symm
  have hkeys : {k | r.registries.lookup k ≠ requested.lookup k} =
      {k | k ∈ call.order (r.toBeDeleted requested)} ∪
        {k | k ∈ call.order (r.toBeUpdated requested)} ∪
          {k | k ∈ call.order (r.toBeCreated requested)} := by
    ext k
    exact changed_iff requested k
  refine ⟨r₃, ?_, hkeys ▸ h₁₂.trans h₃ fun _ _ _ => rfl⟩
  simp only [renewWatchers, hr₁, hr₂, hfold, Option.bind_eq_bind, Option.bind_some, Option.pure_def]

/-! ### Calls -/

section Calls

variable [DecidableEq ρ] (buildEnvoyFilter : ProxyConfig ρ → Except GoString (Option β))

omit [DecidableEq δ] in
theorem ledger_reconcileProxies (r : Reconciler δ ρ α β) (proxies : List (ProxyConfig ρ)) :
    (r.reconcileProxies buildEnvoyFilter call proxies).ledger = r.ledger := by
  have hdeleted : ∀ (ks : List GoString) (s : Reconciler δ ρ α β),
      (ks.foldl deleteProxy s).ledger = s.ledger := by
    intro ks
    induction ks with
    | nil => exact fun _ => rfl
    | cons k ks ih => exact fun s => ih (s.deleteProxy k)
  have hupdated : ∀ (newProxies : Entries (ProxyConfig ρ)) (ks : List GoString)
      (left : Reconciler δ ρ α β × Bool),
      (ks.foldl (updateProxy buildEnvoyFilter call newProxies) left).1.ledger = left.1.ledger := by
    intro newProxies ks
    induction ks with
    | nil => exact fun _ => rfl
    | cons k ks ih =>
        intro left
        refine (ih _).trans ?_
        rw [updateProxy]
        repeat' split
        all_goals rfl
  rw [reconcileProxies]
  split
  rename_i r' needNotify hr'
  have hledger : r'.ledger = r.ledger := by
    have hfold : _ = r'.ledger := congrArg (fun left => ledger left.1) hr'
    rw [← hfold, hupdated, hdeleted]
  split
  · exact hledger
  · exact hledger

theorem handled_reconcileAll (h : r.Accounted) (call : Call δ ρ α β)
    (registries : List (RegistryConfig δ)) (proxies : List (ProxyConfig ρ)) :
    ∃ r' e, r.reconcileAll buildEnvoyFilter call registries proxies = some (r', e) ∧
      r.Handled call (newRegistries registries).lookup
        {k | r.registries.lookup k ≠ (newRegistries registries).lookup k} r' := by
  obtain ⟨r₁, hr₁, h₁⟩ : ∃ r₁, r.renewWatchers call (newRegistries registries) = some r₁ ∧
      r.Handled call (newRegistries registries).lookup
        {k | r.registries.lookup k ≠ (newRegistries registries).lookup k} r₁ :=
    handled_renewWatchers h _
  obtain ⟨r₂, e, hr₂, hledger⟩ : ∃ r₂ e, r.reconcileRegistries call registries = some (r₂, e) ∧
      r₂.ledger = r₁.ledger := by
    simp only [reconcileRegistries, hr₁, Option.bind_eq_bind, Option.bind_some, Option.pure_def]
    repeat' split
    all_goals exact ⟨_, _, rfl, rfl⟩
  simp only [reconcileAll, hr₂, Option.bind_eq_bind, Option.bind_some, Option.pure_def]
  cases e with
  | error e => exact ⟨r₂, .error e, rfl, h₁.of_ledger hledger⟩
  | ok _ =>
      refine ⟨_, .ok (), rfl, h₁.of_ledger ?_⟩
      exact (ledger_reconcileProxies buildEnvoyFilter r₂ proxies).trans hledger

theorem handled_reconcile (h : r.Accounted) (call : Call δ ρ α β) :
    ∃ r' e, r.reconcile buildEnvoyFilter call = some (r', e) ∧ r'.Accounted ∧
      (call.registries = none → r'.ledger = r.ledger) ∧
      ∀ registries, call.registries = some registries →
        r.Handled call (newRegistries registries).lookup
          {k | r.registries.lookup k ≠ (newRegistries registries).lookup k} r' := by
  rw [reconcile, Call.registries]
  cases hbridge : call.mcpbridge with
  | none =>
      obtain ⟨r', e, hr', hhandled⟩ := handled_reconcileAll buildEnvoyFilter h call [] []
      refine ⟨r', e, hr', hhandled.accounted, by simp, ?_⟩
      rintro registries ⟨⟩
      exact hhandled
  | some bridge =>
      cases hsaved : bridge.toBeSaved with
      | some proxies =>
          simp only [hsaved]
          have hnothing : r.Handled call (fun _ => none) ∅ { r with saved := r.saved ++ [proxies] } :=
            h.handled.of_ledger rfl
          exact ⟨_, _, rfl, hnothing.accounted, fun _ => rfl, by simp⟩
      | none =>
          simp only [hsaved]
          obtain ⟨r', e, hr', hhandled⟩ := handled_reconcileAll buildEnvoyFilter h call
            bridge.registries bridge.proxies
          refine ⟨r', e, hr', hhandled.accounted, by simp, ?_⟩
          rintro registries ⟨⟩
          exact hhandled

theorem after_accounted (calls : List (Call δ ρ α β)) :
    ∃ r, after buildEnvoyFilter calls = some r ∧ r.Accounted := by
  refine Run.foldlM_of_step ?_ accounted_new
  intro call _ r hr
  obtain ⟨r', e, hr', haccounted, -⟩ := handled_reconcile buildEnvoyFilter hr call
  exact ⟨r', by rw [hr']; rfl, haccounted⟩

omit [DecidableEq δ] [DecidableEq ρ] in
/-- A watcher runs for some key, or has been stopped once. -/
theorem Accounted.count_stopped (h : r.Accounted) {w : ℕ} (hw : w < r.started) :
    ((∃ k, r.watchers.lookup k = some w) ∧ r.stopped.count w = 0) ∨
      ((∀ k, r.watchers.lookup k ≠ some w) ∧ r.stopped.count w = 1) := by
  by_cases hstopped : w ∈ r.stopped
  · exact .inr ⟨(h.stopped_iff w hw).mp hstopped, List.count_eq_one_of_mem h.stopped_nodup hstopped⟩
  · refine .inl ⟨?_, List.count_eq_zero.mpr hstopped⟩
    by_contra hnone
    exact hstopped ((h.stopped_iff w hw).mpr fun k hk => hnone ⟨k, hk⟩)

omit [DecidableEq δ] in
theorem exists_of_mem_newRegistries {registries : List (RegistryConfig δ)} {k : GoString}
    (hk : k ∈ newRegistries registries) : ∃ registry ∈ registries, registry.key = k := by
  induction registries using List.reverseRecOn with
  | nil => simp [newRegistries] at hk
  | append_singleton registries registry ih =>
      rw [newRegistries, List.foldl_append, ← newRegistries] at hk
      rcases (AList.mem_insert _).mp hk with rfl | hk
      · exact ⟨registry, by simp, rfl⟩
      · obtain ⟨registry', hmem, hkey⟩ := ih hk
        exact ⟨registry', List.mem_append_left _ hmem, hkey⟩

/-- The watchers over every history of calls. No call stops a watcher that is not there.
The registries have the keys of the watchers, and every watcher that was started runs
for one of them or was stopped once. After a call that gets to the registries these keys
were asked for, and a registry that is described otherwise than before has lost its
watcher and has a new one exactly if it can be created; a call that only saves ports
leaves them all as they were. -/
theorem watchers_accounted (calls : List (Call δ ρ α β)) (call : Call δ ρ α β) :
    ∃ r r' e, after buildEnvoyFilter calls = some r ∧
      r.reconcile buildEnvoyFilter call = some (r', e) ∧
      (∀ k, k ∈ r'.registries ↔ k ∈ r'.watchers) ∧
      (∀ w < r'.started, ((∃ k, r'.watchers.lookup k = some w) ∧ r'.stopped.count w = 0) ∨
        ((∀ k, r'.watchers.lookup k ≠ some w) ∧ r'.stopped.count w = 1)) ∧
      (call.registries = none → r'.ledger = r.ledger) ∧
      ∀ registries, call.registries = some registries →
        (∀ k ∈ r'.watchers, ∃ registry ∈ registries, registry.key = k) ∧
        ∀ k old v, r.registries.lookup k = some old → (newRegistries registries).lookup k = some v →
          old ≠ v →
          (∀ w, r.watchers.lookup k = some w → w ∈ r'.stopped) ∧
          if generateWatcherFromRegistryConfig call v then
            r'.registries.lookup k = some v ∧ ∃ w, r'.watchers.lookup k = some w ∧ r.started ≤ w
          else k ∉ r'.watchers := by
  obtain ⟨r, hr, haccounted⟩ := after_accounted buildEnvoyFilter calls
  obtain ⟨r', e, hr', haccounted', hsaved, hhandled⟩ :=
    handled_reconcile buildEnvoyFilter haccounted call
  refine ⟨r, r', e, hr, hr', haccounted'.keys, fun w hw => haccounted'.count_stopped hw, hsaved, ?_⟩
  intro registries hregistries
  have hdone := hhandled registries hregistries
  refine ⟨?_, ?_⟩
  · intro k hk
    by_cases hsame : r.registries.lookup k = (newRegistries registries).lookup k
    · rw [← haccounted'.keys, ← AList.lookup_isSome, (hdone.others k (not_not.mpr hsame)).1, hsame,
        AList.lookup_isSome] at hk
      exact exists_of_mem_newRegistries hk
    · rw [← haccounted'.keys, ← AList.lookup_isSome, hdone.registry k hsame] at hk
      exact exists_of_mem_newRegistries (AList.lookup_isSome.mp (Option.isSome_of_isSome_filter _ _ hk))
  · intro k old v hold hv hne
    have hchanged : r.registries.lookup k ≠ (newRegistries registries).lookup k := by
      rw [hold, hv]
      exact fun heq => hne (Option.some.inj heq)
    refine ⟨fun w hw => hdone.stopped haccounted hchanged hw, ?_⟩
    have hregistry := hdone.registry k hchanged
    rw [hv, Option.filter_some] at hregistry
    split
    · rename_i hgen
      rw [if_pos hgen] at hregistry
      have hmem : k ∈ r'.registries := by
        rw [← AList.lookup_isSome, hregistry]
        rfl
      obtain ⟨w, hw⟩ := haccounted'.exists_watcher hmem
      exact ⟨hregistry, w, hw, hdone.renewed k hchanged w hw⟩
    · rename_i hgen
      rw [if_neg hgen] at hregistry
      rwa [← haccounted'.keys, ← AList.lookup_eq_none]

end Calls

/-- A static registry with the name `a`. -/
def staticRegistry (authSecretName : GoString) : RegistryConfig Unit :=
  ⟨bytes "static", bytes "a", authSecretName, ()⟩

/-- A call that meets no secret and no other trouble. -/
def calmCall (registries : List (RegistryConfig Unit)) (proxies : List (ProxyConfig Unit)) :
    Call Unit Unit Unit Unit where
  mcpbridge := some ⟨registries, proxies⟩
  saves := .ok ()
  hasSecret _ := false
  newWatcher _ := true
  isReady := true
  meanwhile := []
  now := 0
  order := id
  order_perm _ := .refl _

/-- A registry is described anew, with a secret that is not there: it has no watcher
then. And a bridge that asks for no registry but has a proxy without a port leaves the
registry in place. -/
theorem not_renewed_not_requested :
    let run := after fun _ : ProxyConfig Unit => .ok (some ())
    let first := calmCall [staticRegistry []] []
    let changed := calmCall [staticRegistry (bytes "s")] []
    let unnumbered := calmCall [] [⟨bytes "p", bytes "127.0.0.1", 80, 0, ()⟩]
    (run [first]).map (fun r => (r.registries.lookup (bytes "static/a"), r.watchers.lookup (bytes "static/a"))) =
        some (some (staticRegistry []), some 0) ∧
      (run [first, changed]).map (fun r => (r.watchers.keys, r.stopped)) = some ([], [0]) ∧
      (run [first, unnumbered]).map (fun r => (r.registries.keys, r.watchers.keys)) =
        some ([bytes "static/a"], [bytes "static/a"]) := by
  decide

end Reconciler

end Higress.Registry
