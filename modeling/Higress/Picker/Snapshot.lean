import Mathlib.Data.Set.Function
import Mathlib.Logic.Function.Basic
import Higress.Lib.GoString
import Higress.Lib.XxHash

/-!
The cache of upstream hosts (`ai-endpoint-picker/snapshot.go`) and the part of the metrics it compares
(`scheduling/parser.go`). A host keeps its parsed metrics as long as the fingerprint of its relevant
lines stays, so that what is returned depends on the calls before.

`gjson` and the Prometheus parser are parameters. Of the parsed metrics only the cache configuration is
looked at here.
-/

namespace Higress.Picker

open Lib

/-! ### The relevant lines of the metrics -/

def queueMetric : GoString := bytes "vllm:num_requests_waiting"

def currentKVMetric : GoString := bytes "vllm:kv_cache_usage_perc"

def legacyKVMetric : GoString := bytes "vllm:gpu_cache_usage_perc"

def loraMetric : GoString := bytes "vllm:lora_requests_info"

def cacheConfigMetric : GoString := bytes "vllm:cache_config_info"

def maxRelevantMetricsBytes : ℕ := 64 * 1024

def isRelevantMetricName (name : GoString) : Bool :=
  [queueMetric, currentKVMetric, legacyKVMetric, loraMetric, cacheConfigMetric].contains name

/-- `metricToken`: up to a brace, a blank, a tab or a carriage return. -/
def metricToken (line : GoString) : GoString := line.takeWhile fun b => !(List.contains [123, 32, 9, 13] b)

def directives : List GoString := [bytes "# HELP ", bytes "# TYPE ", bytes "# UNIT "]

def isRelevantMetricLine (line : GoString) : Bool :=
  match line.dropWhile fun b => [32, 9, 13].contains b with
  | [] => false
  | b :: rest =>
      if b = 35 then
        match directives.find? fun directive => Strings.startsWith (b :: rest) directive with
        | some directive => isRelevantMetricName (metricToken ((b :: rest).drop directive.length))
        | none => false
      else isRelevantMetricName (metricToken (b :: rest))

/-- The loop of `relevantMetricsSubset` over the lines that are left; `none` is
`ErrRelevantMetricsTooLarge`. -/
def relevantLines (result metrics : GoString) : Option GoString :=
  if metrics = [] then some result
  else
    let line := metrics.takeWhile (· ≠ 10)
    let kept := if isRelevantMetricLine line then result ++ line ++ [10] else result
    if isRelevantMetricLine line ∧ result.length + line.length + 1 > maxRelevantMetricsBytes then none
    else
      match h : metrics.drop line.length with
      | [] => some kept
      | _ :: rest => relevantLines kept rest
termination_by metrics.length
decreasing_by
  have hle : (metrics.drop line.length).length ≤ metrics.length := by simp
  rw [h, List.length_cons] at hle
  omega

def relevantMetricsSubset (metrics : GoString) : Option GoString := relevantLines [] metrics

/-- `CompactVLLMMetrics`. -/
def compactVLLMMetrics (metrics : GoString) : Option (GoString × UInt64) :=
  (relevantMetricsSubset metrics).map fun relevant => (relevant, XxHash.sum64 relevant)

/-! ### The cache -/

structure CacheConfig where
  blockSize : ℤ
  numGPUBlocks : ℤ
deriving Inhabited

/-- `VLLMMetrics`; the signals and adapters are only handed on. -/
structure VLLMMetrics (σ : Type*) where
  signals : σ
  cacheConfig : CacheConfig
deriving Inhabited

/-- A `gjson.Result`, with the text of a string. -/
inductive Value
  | missing
  | string (s : GoString)
  | other

structure Gjson where
  valid : GoString → Bool
  isObject : GoString → Bool
  get : GoString → GoString → Value

inductive CandidateSkipReason
  | address
  | metadata
  | health
  | metrics

def CandidateSkipReason.bit : CandidateSkipReason → UInt8
  | address => 1
  | metadata => 2
  | health => 4
  | metrics => 8

/-- `compactHostSnapshot`, of which the default is the zero value. -/
structure CompactHostSnapshot (σ : Type*) where
  address : GoString
  healthy : Bool
  metrics : VLLMMetrics σ
  cacheConfig : CacheConfig
  fingerprint : UInt64
deriving Inhabited

/-- `endpointSnapshotResult`. -/
structure SnapshotResult (σ : Type*) where
  hosts : List (CompactHostSnapshot σ)
  skipMask : UInt8
  skipped : ℕ

/-- A host and its metadata. -/
abbrev UpstreamHost : Type := GoString × GoString

/-- `endpointSnapshotCache`, with its times in nanoseconds from the zero time on. -/
structure SnapshotCache (σ : Type*) where
  expiresAt : ℤ
  result : SnapshotResult σ

def endpointSnapshotTTL : ℤ := 250 * 1000000

/-- The text of the metrics of a host; `none` when they are something else. -/
def metricsText (gjson : Gjson) (metadata : GoString) : Option GoString :=
  match gjson.get metadata (bytes "metrics") with
  | .missing => some []
  | .string s => some s
  | .other => none

section Cache

variable {σ : Type*} [Inhabited σ] (gjson : Gjson) (parse : GoString → Option (VLLMMetrics σ))

def emptyResult : SnapshotResult σ := ⟨[], 0, 0⟩

def newEndpointSnapshotCache : SnapshotCache σ := ⟨0, emptyResult⟩

/-- The metrics of a healthy host: those it had, if their fingerprint is the same, else they are
parsed. -/
def keepOrParse (address relevant : GoString) (fingerprint : UInt64)
    (previous : CompactHostSnapshot σ) : Except CandidateSkipReason (CompactHostSnapshot σ) :=
  if previous.address = address ∧ previous.healthy = true ∧ previous.fingerprint = fingerprint then
    .ok ⟨address, true, previous.metrics, previous.cacheConfig, fingerprint⟩
  else
    match parse relevant with
    | none => .error .metrics
    | some parsed =>
        .ok ⟨address, true, { parsed with cacheConfig := default }, parsed.cacheConfig, fingerprint⟩

def parseHost (host : UpstreamHost) (previous : CompactHostSnapshot σ) :
    Except CandidateSkipReason (CompactHostSnapshot σ) :=
  let address := Strings.trimSpace host.1
  let metadata := host.2
  if address = [] then .error .address
  else if !gjson.valid metadata || !gjson.isObject metadata then .error .metadata
  else
    match gjson.get metadata (bytes "health_status") with
    | .missing | .other => .error .health
    | .string health =>
        if Strings.trimSpace health = [] then .error .health
        else if health ≠ bytes "Healthy" then .ok { (default : CompactHostSnapshot σ) with
          address := address }
        else
          match (metricsText gjson metadata).bind compactVLLMMetrics with
          | none => .error .metrics
          | some (relevant, fingerprint) => keepOrParse parse address relevant fingerprint previous

/-- The map `previous`, in which a missing host is the zero value. -/
def previousHosts (hosts : List (CompactHostSnapshot σ)) : GoString → CompactHostSnapshot σ :=
  hosts.foldl (fun previous host => Function.update previous host.address host) fun _ => default

/-- The body of the loop over the hosts. -/
def addHost (previous : GoString → CompactHostSnapshot σ) (result : SnapshotResult σ)
    (host : UpstreamHost) : SnapshotResult σ :=
  match parseHost gjson parse host (previous (Strings.trimSpace host.1)) with
  | .error reason =>
      { result with skipMask := result.skipMask ||| reason.bit, skipped := result.skipped + 1 }
  | .ok snapshot => { result with hosts := result.hosts ++ [snapshot] }

def parseHosts (previous : GoString → CompactHostSnapshot σ) (hosts : List UpstreamHost) :
    SnapshotResult σ :=
  hosts.foldl (addHost gjson parse previous) emptyResult

/-- The test that lets `get` ask for the hosts. -/
def SnapshotCache.fetches (cache : SnapshotCache σ) (now : ℤ) : Bool :=
  !(cache.expiresAt ≠ 0 && now < cache.expiresAt)

/-- A call of `get`: the clock, and what the hosts would be if they were asked for. -/
structure SnapshotCall where
  now : ℤ
  hosts : Option (List UpstreamHost)

/-- `get`; no result is `errUpstreamHostsUnavailable`. -/
def SnapshotCache.get (cache : SnapshotCache σ) (call : SnapshotCall) :
    SnapshotCache σ × Option (SnapshotResult σ) :=
  if cache.fetches call.now then
    match call.hosts with
    | none | some [] => (⟨0, emptyResult⟩, none)
    | some hosts =>
        let result := parseHosts gjson parse (previousHosts cache.result.hosts) hosts
        (⟨call.now + endpointSnapshotTTL, result⟩, some result)
  else (cache, some cache.result)

/-- What parsing a list of hosts afresh gives. -/
def freshResult (hosts : List UpstreamHost) : SnapshotResult σ :=
  parseHosts gjson parse (fun _ => default) hosts

/-- A cache together with what was fetched last. -/
structure SnapshotHistory (σ : Type*) where
  cache : SnapshotCache σ
  fetched : Option (Option (List UpstreamHost))

def SnapshotHistory.call (s : SnapshotHistory σ) (call : SnapshotCall) : SnapshotHistory σ where
  cache := (s.cache.get gjson parse call).1
  fetched := if s.cache.fetches call.now then some call.hosts else s.fetched

/-- The history of a cache that is made, and called again and again. -/
def snapshotHistory (calls : List SnapshotCall) : SnapshotHistory σ :=
  calls.foldl (SnapshotHistory.call gjson parse) ⟨newEndpointSnapshotCache, none⟩

end Cache

/-! ### Results that are fresh -/

section Fresh

variable {σ : Type*} [Inhabited σ] {gjson : Gjson} {parse : GoString → Option (VLLMMetrics σ)}

/-- The texts that are parsed for the hosts that the calls can get. -/
def compactTexts (gjson : Gjson) (calls : List SnapshotCall) : Set GoString :=
  { relevant | ∃ call ∈ calls, ∃ hosts, call.hosts = some hosts ∧ ∃ host ∈ hosts, ∃ metrics,
    metricsText gjson host.2 = some metrics ∧ relevantMetricsSubset metrics = some relevant }

/-- What a host keeps is what its text is parsed to. -/
def CompactHostSnapshot.Parsed (parse : GoString → Option (VLLMMetrics σ)) (texts : Set GoString)
    (host : CompactHostSnapshot σ) : Prop :=
  host.healthy = true → ∃ relevant ∈ texts, ∃ parsed, parse relevant = some parsed ∧
    host.fingerprint = XxHash.sum64 relevant ∧ host.cacheConfig = parsed.cacheConfig ∧
      host.metrics = { parsed with cacheConfig := default }

theorem parsed_default (texts : Set GoString) :
    (default : CompactHostSnapshot σ).Parsed parse texts := by
  intro h
  cases h

theorem parsed_previousHosts {texts : Set GoString} {hosts : List (CompactHostSnapshot σ)}
    (h : ∀ host ∈ hosts, host.Parsed parse texts) (address : GoString) :
    (previousHosts hosts address).Parsed parse texts := by
  have hfold (previous : GoString → CompactHostSnapshot σ)
      (hprevious : ∀ address, (previous address).Parsed parse texts) :
      ∀ address, (hosts.foldl (fun previous host => Function.update previous host.address host)
        previous address).Parsed parse texts := by
    induction hosts generalizing previous with
    | nil => exact hprevious
    | cons host hosts ih =>
        refine ih (fun host hmem => h host (List.mem_cons_of_mem _ hmem)) _ fun address => ?_
        change (Function.update previous host.address host address).Parsed parse texts
        by_cases haddress : address = host.address
        · rw [haddress, Function.update_self]
          exact h host (by simp)
        · rw [Function.update_of_ne haddress]
          exact hprevious address
  exact hfold _ (fun _ => parsed_default texts) address

/-- The texts of a host. -/
def hostTexts (gjson : Gjson) (host : UpstreamHost) : Set GoString :=
  { relevant | ∃ metrics, metricsText gjson host.2 = some metrics ∧
    relevantMetricsSubset metrics = some relevant }

/-- Metrics that are kept were parsed from the text that the host has now, since the fingerprints
are the same. -/
theorem keepOrParse_eq_fresh {texts : Set GoString} (hinj : Set.InjOn XxHash.sum64 texts)
    {address relevant : GoString} (hrelevant : relevant ∈ texts) {previous : CompactHostSnapshot σ}
    (hprevious : previous.Parsed parse texts) :
    keepOrParse parse address relevant (XxHash.sum64 relevant) previous =
      keepOrParse parse address relevant (XxHash.sum64 relevant) default := by
  have hfresh : ¬((default : CompactHostSnapshot σ).address = address ∧
      (default : CompactHostSnapshot σ).healthy = true ∧
      (default : CompactHostSnapshot σ).fingerprint = XxHash.sum64 relevant) := fun h => by
    cases h.2.1
  rw [keepOrParse, keepOrParse, if_neg hfresh]
  split_ifs with hkeep
  · obtain ⟨-, hhealthy, hfingerprint⟩ := hkeep
    obtain ⟨relevant', hmem, parsed, hparsed, hsum, hconfig, hmetrics⟩ := hprevious hhealthy
    have heq : relevant' = relevant := hinj hmem hrelevant (hsum.symm.trans hfingerprint)
    subst heq
    rw [hparsed, hconfig, hmetrics]
  · rfl

theorem parseHost_eq_fresh {texts : Set GoString} (hinj : Set.InjOn XxHash.sum64 texts)
    {host : UpstreamHost} (htexts : hostTexts gjson host ⊆ texts)
    {previous : CompactHostSnapshot σ} (hprevious : previous.Parsed parse texts) :
    parseHost gjson parse host previous = parseHost gjson parse host default := by
  unfold parseHost
  dsimp only
  split_ifs with haddress
  · rfl
  · rfl
  · split
    · rfl
    · rfl
    · split_ifs
      · rfl
      · rfl
      · split
        · rfl
        · rename_i relevant fingerprint hcompact
          obtain ⟨metrics, hmetrics, hcompact⟩ := Option.bind_eq_some_iff.mp hcompact
          obtain ⟨_, hrelevant, heq⟩ := Option.map_eq_some_iff.mp hcompact
          cases heq
          exact keepOrParse_eq_fresh hinj (htexts ⟨metrics, hmetrics, hrelevant⟩) hprevious

theorem parseHost_parsed {texts : Set GoString} {host : UpstreamHost}
    (htexts : hostTexts gjson host ⊆ texts) {snapshot : CompactHostSnapshot σ}
    (h : parseHost gjson parse host default = .ok snapshot) : snapshot.Parsed parse texts := by
  unfold parseHost at h
  dsimp only at h
  split_ifs at h with haddress
  split at h
  · cases h
  · cases h
  · split_ifs at h
    · cases h
      intro hhealthy
      cases hhealthy
    · split at h
      · cases h
      · rename_i relevant fingerprint hcompact
        obtain ⟨metrics, hmetrics, hcompact⟩ := Option.bind_eq_some_iff.mp hcompact
        obtain ⟨_, hrelevant, heq⟩ := Option.map_eq_some_iff.mp hcompact
        cases heq
        rw [keepOrParse, if_neg fun hkeep => by cases hkeep.2.1] at h
        split at h
        · cases h
        · rename_i parsed hparsed
          cases h
          exact fun _ => ⟨relevant, htexts ⟨metrics, hmetrics, hrelevant⟩, parsed, hparsed, rfl, rfl,
            rfl⟩

/-! ### Whole lists of hosts -/

theorem parseHosts_eq_fresh {texts : Set GoString} (hinj : Set.InjOn XxHash.sum64 texts)
    {previous : GoString → CompactHostSnapshot σ}
    (hprevious : ∀ address, (previous address).Parsed parse texts) {hosts : List UpstreamHost}
    (htexts : ∀ host ∈ hosts, hostTexts gjson host ⊆ texts) :
    parseHosts gjson parse previous hosts = freshResult gjson parse hosts := by
  have hadd : ∀ host ∈ hosts, ∀ result, addHost gjson parse previous result host =
      addHost gjson parse (fun _ => default) result host := by
    intro host hmem result
    rw [addHost, addHost, parseHost_eq_fresh hinj (htexts host hmem) (hprevious _)]
  exact List.foldl_ext _ _ _ fun result host hmem => hadd host hmem result

theorem freshResult_parsed {texts : Set GoString} {hosts : List UpstreamHost}
    (htexts : ∀ host ∈ hosts, hostTexts gjson host ⊆ texts) :
    ∀ host ∈ (freshResult gjson parse hosts).hosts, host.Parsed parse texts := by
  have hfold (result : SnapshotResult σ) (hresult : ∀ host ∈ result.hosts, host.Parsed parse texts) :
      ∀ host ∈ (hosts.foldl (addHost gjson parse fun _ => default) result).hosts,
        host.Parsed parse texts := by
    induction hosts generalizing result with
    | nil => exact hresult
    | cons host hosts ih =>
        refine ih (fun host hmem => htexts host (List.mem_cons_of_mem _ hmem)) _ ?_
        rw [addHost]
        split
        · exact hresult
        · rename_i snapshot hsnapshot
          intro host' hmem
          rcases List.mem_append.mp hmem with hmem | hmem
          · exact hresult host' hmem
          · rw [List.mem_singleton.mp hmem]
            exact parseHost_parsed (htexts host (by simp)) hsnapshot
  exact hfold _ (by simp [emptyResult])

/-! ### Runs -/

/-- No hosts were got from a call. -/
def SnapshotCall.Failed (hosts : Option (List UpstreamHost)) : Prop := hosts = none ∨ hosts = some []

/-- The cache holds what the list that was fetched last is parsed to afresh, and nothing before the
first fetch and after a failed one. -/
structure SnapshotHistory.Fresh (gjson : Gjson) (parse : GoString → Option (VLLMMetrics σ))
    (texts : Set GoString) (s : SnapshotHistory σ) : Prop where
  parsed : ∀ host ∈ s.cache.result.hosts, host.Parsed parse texts
  result : s.cache = newEndpointSnapshotCache ∧
      (∀ hosts, s.fetched = some hosts → SnapshotCall.Failed hosts) ∨
    ∃ hosts, s.fetched = some (some hosts) ∧ hosts ≠ [] ∧
      s.cache.result = freshResult gjson parse hosts

theorem fresh_new (texts : Set GoString) :
    (⟨newEndpointSnapshotCache, none⟩ : SnapshotHistory σ).Fresh gjson parse texts :=
  ⟨by simp [newEndpointSnapshotCache, emptyResult], .inl ⟨rfl, by simp⟩⟩

/-- What a call does if it asks for the hosts. -/
theorem get_of_fetches {cache : SnapshotCache σ} {call : SnapshotCall}
    (h : cache.fetches call.now = true) :
    SnapshotCall.Failed call.hosts ∧
        cache.get gjson parse call = (newEndpointSnapshotCache, none) ∨
      ∃ hosts, call.hosts = some hosts ∧ hosts ≠ [] ∧ cache.get gjson parse call =
        (⟨call.now + endpointSnapshotTTL,
          parseHosts gjson parse (previousHosts cache.result.hosts) hosts⟩,
        some (parseHosts gjson parse (previousHosts cache.result.hosts) hosts)) := by
  rw [SnapshotCache.get, if_pos h]
  cases hhosts : call.hosts with
  | none => exact .inl ⟨.inl rfl, rfl⟩
  | some hosts =>
      cases hosts with
      | nil => exact .inl ⟨.inr rfl, rfl⟩
      | cons host hosts => exact .inr ⟨host :: hosts, rfl, by simp, rfl⟩

/-- One call keeps the cache fresh, and what it returns is what the cache then holds. -/
theorem fresh_call {texts : Set GoString} (hinj : Set.InjOn XxHash.sum64 texts)
    {s : SnapshotHistory σ} (hs : s.Fresh gjson parse texts) {call : SnapshotCall}
    (htexts : ∀ hosts, call.hosts = some hosts → ∀ host ∈ hosts, hostTexts gjson host ⊆ texts) :
    (s.call gjson parse call).Fresh gjson parse texts ∧
      ((s.cache.get gjson parse call).2 = none ∧
          (s.call gjson parse call).cache = newEndpointSnapshotCache ∧
          (∃ hosts, (s.call gjson parse call).fetched = some hosts ∧ SnapshotCall.Failed hosts) ∨
        (s.cache.get gjson parse call).2 = some (s.call gjson parse call).cache.result ∧
          ∃ hosts, (s.call gjson parse call).fetched = some (some hosts) ∧ hosts ≠ [] ∧
            (s.call gjson parse call).cache.result = freshResult gjson parse hosts) := by
  by_cases hfetches : s.cache.fetches call.now = true
  · have hfetched : (s.call gjson parse call).fetched = some call.hosts := if_pos hfetches
    have hcache : (s.call gjson parse call).cache = (s.cache.get gjson parse call).1 := rfl
    rcases get_of_fetches hfetches with ⟨hfailed, hget⟩ | ⟨hosts, hhosts, hne, hget⟩
    · rw [hget] at hcache
      refine ⟨⟨?_, .inl ⟨hcache, ?_⟩⟩, .inl ⟨by rw [hget], hcache, call.hosts, hfetched, hfailed⟩⟩
      · rw [hcache]
        simp [newEndpointSnapshotCache, emptyResult]
      · intro hosts hhosts
        rw [hfetched] at hhosts
        exact Option.some.inj hhosts ▸ hfailed
    · have hfresh : parseHosts gjson parse (previousHosts s.cache.result.hosts) hosts =
          freshResult gjson parse hosts :=
        parseHosts_eq_fresh hinj (parsed_previousHosts hs.parsed) (htexts hosts hhosts)
      rw [hget, hfresh] at hcache
      have hresult : (s.call gjson parse call).cache.result = freshResult gjson parse hosts := by
        rw [hcache]
      rw [hhosts] at hfetched
      refine ⟨⟨?_, .inr ⟨hosts, hfetched, hne, hresult⟩⟩,
        .inr ⟨?_, hosts, hfetched, hne, hresult⟩⟩
      · rw [hresult]
        exact freshResult_parsed (htexts hosts hhosts)
      · rw [hget, hfresh, hresult]
  · have hget : s.cache.get gjson parse call = (s.cache, some s.cache.result) := if_neg hfetches
    have hfetched : (s.call gjson parse call).fetched = s.fetched := if_neg hfetches
    have hcache : (s.call gjson parse call).cache = s.cache := by
      change (s.cache.get gjson parse call).1 = s.cache
      rw [hget]
    refine ⟨⟨hcache ▸ hs.parsed, by rw [hcache, hfetched]; exact hs.result⟩, .inr ?_⟩
    rcases hs.result with ⟨hnew, -⟩ | hold
    · -- a cache without a list has expired, so that this call would have asked for one
      refine absurd ?_ hfetches
      rw [hnew]
      rfl
    · rw [hget, hcache, hfetched]
      exact ⟨rfl, hold⟩

theorem fresh_history {texts : Set GoString} (hinj : Set.InjOn XxHash.sum64 texts)
    {calls : List SnapshotCall} (htexts : compactTexts gjson calls ⊆ texts) :
    (snapshotHistory gjson parse calls).Fresh gjson parse texts := by
  have hfold (s : SnapshotHistory σ) (hs : s.Fresh gjson parse texts) :
      (calls.foldl (SnapshotHistory.call gjson parse) s).Fresh gjson parse texts := by
    induction calls generalizing s with
    | nil => exact hs
    | cons call calls ih =>
        have hrest : compactTexts gjson calls ⊆ texts := by
          rintro relevant ⟨call', hmem, h⟩
          exact htexts ⟨call', List.mem_cons_of_mem _ hmem, h⟩
        refine ih hrest _ (fresh_call hinj hs ?_).1
        intro hosts hhosts host hmem relevant hrelevant
        exact htexts ⟨call, List.mem_cons_self, hosts, hhosts, host, hmem, hrelevant⟩
  exact hfold _ (fresh_new texts)

/-- In every run of calls of a new cache whose fingerprints tell its texts apart, a call returns
what the list that was fetched last is parsed to afresh; or the fetch has failed, and then there
is nothing in the cache. -/
theorem get_fresh (gjson : Gjson) (parse : GoString → Option (VLLMMetrics σ))
    (calls : List SnapshotCall) (call : SnapshotCall)
    (hinj : Set.InjOn XxHash.sum64 (compactTexts gjson (calls ++ [call]))) :
    ((snapshotHistory gjson parse calls).cache.get gjson parse call).2 = none ∧
        (snapshotHistory gjson parse (calls ++ [call])).cache = newEndpointSnapshotCache ∧
        (∃ hosts, (snapshotHistory gjson parse (calls ++ [call])).fetched = some hosts ∧
          SnapshotCall.Failed hosts) ∨
      ∃ hosts, (snapshotHistory gjson parse (calls ++ [call])).fetched = some (some hosts) ∧
        hosts ≠ [] ∧ ((snapshotHistory gjson parse calls).cache.get gjson parse call).2 =
          some (freshResult gjson parse hosts) := by
  have hlast : snapshotHistory gjson parse (calls ++ [call]) =
      (snapshotHistory gjson parse calls).call gjson parse call := by
    rw [snapshotHistory, List.foldl_append]
    rfl
  have hbefore : compactTexts gjson calls ⊆ compactTexts gjson (calls ++ [call]) := by
    rintro relevant ⟨call', hmem, h⟩
    exact ⟨call', List.mem_append_left _ hmem, h⟩
  have hhistory : (snapshotHistory gjson parse calls).Fresh gjson parse
      (compactTexts gjson (calls ++ [call])) := fresh_history hinj hbefore
  have hcall := (fresh_call hinj hhistory fun hosts hhosts host hmem relevant hrelevant =>
    ⟨call, by simp, hosts, hhosts, host, hmem, hrelevant⟩).2
  rw [hlast]
  rcases hcall with hfailed | ⟨hresult, hosts, hfetched, hne, hfresh⟩
  · exact .inl hfailed
  · refine .inr ⟨hosts, hfetched, hne, ?_⟩
    rw [hresult, hfresh]

end Fresh

/-! A healthy host without metrics, which is got twice. -/

namespace Sample

def healthy : Gjson where
  valid _ := true
  isObject _ := true
  get _ path := if path = bytes "health_status" then .string (bytes "Healthy") else .missing

def hosts : List UpstreamHost := [(bytes "10.0.0.1:8000", bytes "\x7b\"health_status\":\"Healthy\"\x7d")]

/-- No metrics are parsed to none. -/
def noMetrics (_ : GoString) : Option (VLLMMetrics Unit) := some default

end Sample

open Sample in
theorem get_fresh_again :
    ∃ hosts, (snapshotHistory healthy noMetrics
        ([⟨1000, some Sample.hosts⟩] ++ [⟨1000 + endpointSnapshotTTL, some Sample.hosts⟩])).fetched =
          some (some hosts) ∧ hosts ≠ [] ∧
      ((snapshotHistory healthy noMetrics [⟨1000, some Sample.hosts⟩]).cache.get healthy noMetrics
        ⟨1000 + endpointSnapshotTTL, some Sample.hosts⟩).2 =
          some (freshResult healthy noMetrics hosts) := by
  have htexts : ∀ relevant ∈ compactTexts healthy
      ([⟨1000, some Sample.hosts⟩] ++ [⟨1000 + endpointSnapshotTTL, some Sample.hosts⟩]),
      relevant = [] := by
    rintro relevant ⟨call, -, hosts, -, host, -, metrics, hmetrics, hrelevant⟩
    have hnone : metricsText healthy host.2 = some [] := rfl
    rw [hnone] at hmetrics
    rw [← Option.some.inj hmetrics, relevantMetricsSubset, relevantLines, if_pos rfl] at hrelevant
    exact (Option.some.inj hrelevant).symm
  have hinj : Set.InjOn XxHash.sum64 (compactTexts healthy
      ([⟨1000, some Sample.hosts⟩] ++ [⟨1000 + endpointSnapshotTTL, some Sample.hosts⟩])) :=
    fun a ha b hb _ => (htexts a ha).trans (htexts b hb).symm
  refine (get_fresh healthy noMetrics _ _ hinj).resolve_left fun hfailed => ?_
  obtain ⟨hosts, hfetched, hempty⟩ := hfailed.2.2
  have hagain : (snapshotHistory healthy noMetrics
      ([⟨1000, some Sample.hosts⟩] ++ [⟨1000 + endpointSnapshotTTL, some Sample.hosts⟩])).fetched =
        some (some Sample.hosts) := rfl
  rw [hagain] at hfetched
  rcases hempty with rfl | rfl
  · cases hfetched
  · cases hfetched

end Higress.Picker
