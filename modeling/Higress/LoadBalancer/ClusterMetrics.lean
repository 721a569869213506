import Mathlib
import Higress.Lib.GoString
import Higress.Lib.Sessions

/-!
The ongoing requests of services (`ai-load-balancer/cluster_metrics/lb_policy.go`). A service is
selected and counted when the headers of a request are handled, or later in the callback of a
script that is sent to Redis. What is counted is taken back when the stream is done, for the
service that the context of the request names.

The context is a map from keys to values, and the key of the service is the name of a header that
the configuration gives. What the arithmetic of latencies and scores says when a service is selected
is a reading that is given with each event, and the queues of latencies and the counts in Redis are
left out.
-/

namespace Higress.LoadBalancer.ClusterMetrics

open Lib

inductive Mode where
  | leastBusy
  | leastFirstTokenLatency
  | leastTotalLatency
  | adaptiveScore
  deriving DecidableEq

def Mode.text : Mode → GoString
  | .leastBusy => bytes "LeastBusy"
  | .leastFirstTokenLatency => bytes "LeastFirstTokenLatency"
  | .leastTotalLatency => bytes "LeastTotalLatency"
  | .adaptiveScore => bytes "AdaptiveScore"

/-- The configuration. `rateBelow` says of the requests of a service and of all of them whether
their rate is below `RateLimit`; `globalInflight` that there is a client for Redis. -/
structure Config where
  mode : Mode
  clusterHeader : GoString
  serviceList : List GoString
  rateBelow : ℤ → ℤ → Bool
  p2cChoices : ℕ
  globalInflight : Bool
  globalInflightKeyPrefix : GoString
  ne_nil : serviceList ≠ []
  p2cChoices_pos : 0 < p2cChoices

/-- `ServiceRequestOngoing` and `ServiceRequestCount`. -/
structure Stats where
  ongoing : GoString → ℤ
  count : GoString → ℤ

/-- What the handlers read when they select a service: a random number for the first candidate, the
services in the order of the map, whether a latency or a score is less than another one, whether the
cooldown of a service is over, and the random numbers of the sample. -/
structure Reading (cfg : Config) where
  random : ℕ
  order : List GoString
  less : GoString → GoString → Bool
  cooled : GoString → Bool
  draws : List ℕ
  order_mem : ∀ svc ∈ order, svc ∈ cfg.serviceList

section Selection

variable (cfg : Config) (s : Stats)

/-- `getRequestRate` is below `RateLimit`. -/
def below (svc : GoString) : Bool :=
  cfg.rateBelow (s.count svc) (cfg.serviceList.dedup.map s.count).sum

/-- The loop of the modes of least requests and latencies. -/
def leastLoop (less : GoString → GoString → Bool) : GoString → List GoString → GoString
  | candidate, [] => candidate
  | candidate, svc :: services =>
      if candidate = svc then leastLoop less candidate services
      else if !below cfg s candidate then leastLoop less svc services
      else if less svc candidate && below cfg s svc then leastLoop less svc services
      else leastLoop less candidate services

def adaptiveCandidateServices (cooled : GoString → Bool) : List GoString :=
  let rateLimited := cfg.serviceList.filter (below cfg s)
  let candidates := if rateLimited = [] then cfg.serviceList else rateLimited
  let available := candidates.filter cooled
  if available = [] then candidates else available

/-- The loop of `sampleAdaptiveCandidates`; `none` while the random numbers are not enough. -/
def sampleLoop (n : ℕ) (services : List GoString) :
    List ℕ → List GoString → Option (List GoString)
  | draws, choices =>
      if n ≤ choices.length then some choices
      else
        match draws with
        | [] => none
        | draw :: draws =>
            match services[draw % services.length]? with
            | none => none
            | some svc =>
                if svc ∈ choices then sampleLoop n services draws choices
                else sampleLoop n services draws (choices ++ [svc])

def sampleAdaptiveCandidates (r : Reading cfg) : Option (List GoString) :=
  let services := adaptiveCandidateServices cfg s r.cooled
  if services.length ≤ 1 ∨ services.length ≤ cfg.p2cChoices then some services
  else sampleLoop cfg.p2cChoices services r.draws []

def selectLowestScore (less : GoString → GoString → Bool) : List GoString → Option GoString
  | [] => none
  | candidate :: services =>
      some (services.foldl (fun candidate svc => if less svc candidate then svc else candidate)
        candidate)

def selectAdaptiveScore (r : Reading cfg) : Option GoString :=
  if cfg.serviceList.length = 1 then cfg.serviceList.head?
  else (sampleAdaptiveCandidates cfg s r).bind (selectLowestScore r.less)

/-- The candidate of `HandleHttpRequestHeaders` without Redis; `none` while the loop of the sample
has not ended. -/
def selectLocal (r : Reading cfg) : Option GoString :=
  match cfg.mode with
  | .adaptiveScore => selectAdaptiveScore cfg s r
  | .leastBusy =>
      (cfg.serviceList[r.random % cfg.serviceList.length]?).map fun candidate =>
        leastLoop cfg s (fun svc candidate => s.ongoing svc < s.ongoing candidate) candidate r.order
  | .leastFirstTokenLatency | .leastTotalLatency =>
      (cfg.serviceList[r.random % cfg.serviceList.length]?).map fun candidate =>
        leastLoop cfg s r.less candidate cfg.serviceList

end Selection

/-! ### Requests -/

/-- The values of a request context. -/
inductive Value where
  | str (s : GoString)
  | int (n : ℤ)
  | bool (b : Bool)
  | unit
  deriving DecidableEq

abbrev Context := GoString → Option Value

def Context.set (ctx : Context) (key : GoString) (value : Value) : Context :=
  Function.update ctx key (some value)

def hasService (cfg : Config) (svc : GoString) : Bool := svc ∈ cfg.serviceList

def getSelectedService (cfg : Config) (ctx : Context) : Option GoString :=
  match ctx cfg.clusterHeader with
  | some (.str candidate) =>
      if candidate = [] then none else if hasService cfg candidate then some candidate else none
  | _ => none

def globalInflightKey (cfg : Config) (routeName : GoString) : GoString :=
  cfg.globalInflightKeyPrefix ++ bytes ":" ++ routeName ++ bytes ":" ++ cfg.mode.text

/-- The headers are not handled, the callback is awaited, or there is none to await. -/
inductive Phase where
  | fresh
  | waiting
  | handled
  deriving DecidableEq

/-- A request: its context, the service to which it was applied, and whether its stream is done. -/
structure Request where
  ctx : Context := fun _ => none
  phase : Phase := .fresh
  applied : Option GoString := none
  done : Bool := false

def Request.fresh (_ : Unit) : Request := {}

/-- The reply of the script: an error, or an array with or without a first element. -/
inductive Reply where
  | error
  | array (first : Option GoString)

/-- What happens to a request. When the headers are handled, Redis may be ready, the route may have
a name and the script can be sent or not. -/
inductive Happening (cfg : Config) where
  | requestHeaders (reading : Reading cfg) (now : ℤ) (ready : Bool) (routeName : Option GoString)
      (sent : Bool)
  | callback (reply : Reply) (reading : Reading cfg)
  | responseHeaders (statusCode : GoString)
  | streamingResponseBody
  | done

section Handlers

variable (cfg : Config)

/-- `applySelectedService`. -/
def applySelectedService (s : Stats) (r : Request) (candidate : GoString) : Stats × Request :=
  (⟨Function.update s.ongoing candidate (s.ongoing candidate + 1),
      Function.update s.count candidate (s.count candidate + 1)⟩,
    { r with
      ctx := r.ctx.set cfg.clusterHeader (.str candidate)
      phase := .handled
      applied := some candidate })

/-- A selection that may not have ended, applied. -/
def applyOr (s : Stats) (r r' : Request) : Option GoString → Stats × Request
  | none => (s, r)
  | some candidate => applySelectedService cfg s r' candidate

def handleHttpRequestHeaders (s : Stats) (r : Request) (reading : Reading cfg) (now : ℤ)
    (ready : Bool) (routeName : Option GoString) (sent : Bool) : Stats × Request :=
  let r' := { r with ctx := r.ctx.set (bytes "request_start") (.int now) }
  if cfg.mode = .adaptiveScore ∧ cfg.globalInflight ∧ ready then
    match routeName.filter (· ≠ []) with
    | none => applyOr cfg s r r' (selectAdaptiveScore cfg s reading)
    | some routeName =>
        let r' := { r' with
          ctx := r'.ctx.set (bytes "global_inflight_key") (.str (globalInflightKey cfg routeName)) }
        match sampleAdaptiveCandidates cfg s reading with
        | none => (s, r)
        | some _ =>
            if sent then (s, { r' with phase := .waiting })
            else applyOr cfg s r r' (selectAdaptiveScore cfg s reading)
  else applyOr cfg s r r' (selectLocal cfg s reading)

/-- The callback of the script: a known service is applied, and otherwise a local one. -/
def handleCallback (s : Stats) (r : Request) (reply : Reply) (reading : Reading cfg) :
    Stats × Request :=
  match reply with
  | .array (some candidate) =>
      if candidate ≠ [] ∧ hasService cfg candidate then
        let (s, r) := applySelectedService cfg s r candidate
        (s, { r with ctx := r.ctx.set (bytes "global_inflight_selected") (.bool true) })
      else applyOr cfg s r r (selectAdaptiveScore cfg s reading)
  | _ => applyOr cfg s r r (selectAdaptiveScore cfg s reading)

/-- `HandleHttpStreamingResponseBody`. -/
def handleStreamingResponseBody (ctx : Context) : Context :=
  match ctx (bytes "ttft_recorded"), getSelectedService cfg ctx, ctx (bytes "request_start") with
  | none, some _, some (.int _) => ctx.set (bytes "ttft_recorded") .unit
  | _, _, _ => ctx

/-- `HandleHttpStreamDone`. -/
def handleHttpStreamDone (s : Stats) (ctx : Context) : Stats :=
  match getSelectedService cfg ctx with
  | none => s
  | some candidate =>
      { s with ongoing := Function.update s.ongoing candidate (s.ongoing candidate - 1) }

/-- Only the callback can run when the stream is done. -/
def handle (s : Stats) (r : Request) : Happening cfg → Stats × Request
  | .requestHeaders reading now ready routeName sent =>
      if r.phase = .fresh ∧ r.done = false then
        handleHttpRequestHeaders cfg s r reading now ready routeName sent
      else (s, r)
  | .callback reply reading =>
      if r.phase = .waiting then handleCallback cfg s r reply reading else (s, r)
  | .responseHeaders statusCode =>
      if r.done then (s, r)
      else (s, { r with ctx := r.ctx.set (bytes "statusCode") (.str statusCode) })
  | .streamingResponseBody =>
      if r.done then (s, r) else (s, { r with ctx := handleStreamingResponseBody cfg r.ctx })
  | .done =>
      if r.done then (s, r) else (handleHttpStreamDone cfg s r.ctx, { r with done := true })

end Handlers

/-! ### Candidates -/

section Candidates

variable {cfg : Config} {s : Stats}

theorem leastLoop_mem {less : GoString → GoString → Bool} {candidate : GoString}
    {services : List GoString} (hc : candidate ∈ cfg.serviceList)
    (hs : ∀ svc ∈ services, svc ∈ cfg.serviceList) :
    leastLoop cfg s less candidate services ∈ cfg.serviceList := by
  induction services generalizing candidate with
  | nil => exact hc
  | cons svc services ih =>
      simp only [List.mem_cons, forall_eq_or_imp] at hs
      simp only [leastLoop]
      split_ifs
      · exact ih hc hs.2
      · exact ih hs.1 hs.2
      · exact ih hs.1 hs.2
      · exact ih hc hs.2

theorem mem_of_mem_adaptiveCandidateServices {cooled : GoString → Bool} {svc : GoString}
    (h : svc ∈ adaptiveCandidateServices cfg s cooled) : svc ∈ cfg.serviceList := by
  simp only [adaptiveCandidateServices] at h
  split_ifs at h
  · exact h
  · exact List.mem_of_mem_filter h
  · exact List.mem_of_mem_filter h
  · exact List.mem_of_mem_filter (List.mem_of_mem_filter h)

theorem mem_of_mem_sampleLoop {n : ℕ} {draws : List ℕ} {services choices sample : List GoString}
    (h : sampleLoop n services draws choices = some sample) {svc : GoString} (hsvc : svc ∈ sample) :
    svc ∈ services ∨ svc ∈ choices := by
  induction draws generalizing choices with
  | nil =>
      simp only [sampleLoop] at h
      split at h
      · obtain rfl : choices = sample := by simpa using h
        exact .inr hsvc
      · cases h
  | cons draw draws ih =>
      simp only [sampleLoop] at h
      split at h
      · obtain rfl : choices = sample := by simpa using h
        exact .inr hsvc
      · split at h
        · cases h
        · rename_i drawn hdrawn
          split at h
          · exact ih h
          · rcases ih h with hmem | hmem
            · exact .inl hmem
            · rcases List.mem_append.1 hmem with hmem | hmem
              · exact .inr hmem
              · rw [List.mem_singleton.1 hmem]
                exact .inl (List.mem_of_getElem? hdrawn)

theorem selectLowestScore_mem {less : GoString → GoString → Bool} {services : List GoString}
    {svc : GoString} (h : selectLowestScore less services = some svc) : svc ∈ services := by
  cases services with
  | nil => cases h
  | cons candidate services =>
      obtain rfl := Option.some.inj h
      refine List.foldlRecOn (motive := fun c => c ∈ candidate :: services) _ _
        List.mem_cons_self fun c hc svc hsvc => ?_
      split_ifs
      · exact List.mem_cons_of_mem _ hsvc
      · exact hc

theorem selectAdaptiveScore_mem {r : Reading cfg} {candidate : GoString}
    (h : selectAdaptiveScore cfg s r = some candidate) : candidate ∈ cfg.serviceList := by
  unfold selectAdaptiveScore at h
  split at h
  · exact List.mem_of_mem_head? h
  · obtain ⟨sample, hsample, hlowest⟩ := Option.bind_eq_some_iff.1 h
    have hmem := selectLowestScore_mem hlowest
    simp only [sampleAdaptiveCandidates] at hsample
    split at hsample
    · obtain rfl := Option.some.inj hsample
      exact mem_of_mem_adaptiveCandidateServices hmem
    · rcases mem_of_mem_sampleLoop hsample hmem with hmem | hmem
      · exact mem_of_mem_adaptiveCandidateServices hmem
      · simp at hmem

theorem selectLocal_mem {r : Reading cfg} {candidate : GoString}
    (h : selectLocal cfg s r = some candidate) : candidate ∈ cfg.serviceList := by
  unfold selectLocal at h
  split at h
  · exact selectAdaptiveScore_mem h
  · obtain ⟨first, hfirst, rfl⟩ := Option.map_eq_some_iff.1 h
    exact leastLoop_mem (List.mem_of_getElem? hfirst) r.order_mem
  · obtain ⟨first, hfirst, rfl⟩ := Option.map_eq_some_iff.1 h
    exact leastLoop_mem (List.mem_of_getElem? hfirst) fun svc hsvc => hsvc
  · obtain ⟨first, hfirst, rfl⟩ := Option.map_eq_some_iff.1 h
    exact leastLoop_mem (List.mem_of_getElem? hfirst) fun svc hsvc => hsvc

end Candidates

/-! ### What is counted -/

/-- The request was applied to a service, and its stream is not done. -/
def Request.ongoing (svc : GoString) (r : Request) : Bool := r.applied = some svc && !r.done

def weight (svc : GoString) (r : Request) : ℕ := (r.ongoing svc).toNat

def meter (svc : GoString) (s : Stats) : ℤ := s.ongoing svc

/-- The key of the context under which the service is kept is not overwritten, and the service can
be read from it: no service has the empty name, and the cluster header is neither `statusCode` nor
`global_inflight_selected`, nor `global_inflight_key` where a service is called as a key is. -/
def Config.Readable (cfg : Config) : Prop :=
  [] ∉ cfg.serviceList ∧ cfg.clusterHeader ≠ bytes "statusCode" ∧
    cfg.clusterHeader ≠ bytes "global_inflight_selected" ∧
    (cfg.clusterHeader = bytes "global_inflight_key" →
      ∀ routeName, globalInflightKey cfg routeName ∉ cfg.serviceList)

/-- The callback of the script does not run when the stream is done. -/
def InTime (cfg : Config) (w : Sessions Stats Request) :
    Sessions.Event Unit (Happening cfg) → Prop
  | .act i (.callback _ _) => ∀ r, w.all[i]? = some r → r.phase = .waiting → r.done = false
  | _ => True

/-- The context names the service to which the request was applied, and none before. -/
def Request.Ok (cfg : Config) (r : Request) : Prop :=
  getSelectedService cfg r.ctx = r.applied ∧ (r.phase ≠ .handled → r.applied = none)

/-- What happens to a request keeps it well, and changes each count as the request. -/
def Keeps (cfg : Config) (s : Stats) (r : Request) (p : Stats × Request) : Prop :=
  p.2.Ok cfg ∧ ∀ svc, meter svc p.1 + weight svc r = meter svc s + weight svc p.2

section Steps

variable {cfg : Config} {s : Stats} {r : Request}

theorem Keeps.refl (h : r.Ok cfg) : Keeps cfg s r (s, r) := ⟨h, fun _ => rfl⟩

theorem getSelectedService_set {ctx : Context} {key : GoString} (h : key ≠ cfg.clusterHeader)
    (value : Value) : getSelectedService cfg (ctx.set key value) = getSelectedService cfg ctx := by
  simp [getSelectedService, Context.set, Function.update_of_ne h.symm]

theorem getSelectedService_set_int {ctx : Context} (h : getSelectedService cfg ctx = none)
    (key : GoString) (n : ℤ) : getSelectedService cfg (ctx.set key (.int n)) = none := by
  by_cases hk : key = cfg.clusterHeader
  · subst hk
    simp [getSelectedService, Context.set]
  · rw [getSelectedService_set hk, h]

theorem getSelectedService_candidate {ctx : Context} (hcfg : cfg.Readable) {candidate : GoString}
    (hc : candidate ∈ cfg.serviceList) :
    getSelectedService cfg (ctx.set cfg.clusterHeader (.str candidate)) = some candidate := by
  have hne : candidate ≠ [] := fun heq => hcfg.1 (heq ▸ hc)
  simp [getSelectedService, Context.set, hne, hasService, hc]

/-- A service of the list is applied to a request whose stream is not done. -/
theorem keeps_applySelectedService (hcfg : cfg.Readable) {r' : Request} {candidate : GoString}
    (ha : r.applied = none) (hd : r'.done = false) (hc : candidate ∈ cfg.serviceList) :
    Keeps cfg s r (applySelectedService cfg s r' candidate) := by
  refine ⟨⟨getSelectedService_candidate hcfg hc, by simp [applySelectedService]⟩, fun svc => ?_⟩
  by_cases hsvc : svc = candidate
  · subst hsvc
    simp [applySelectedService, meter, weight, Request.ongoing, ha, hd]
  · simp [applySelectedService, meter, weight, Request.ongoing, ha, hsvc, Ne.symm hsvc]

theorem keeps_applyOr (hcfg : cfg.Readable) (h : r.Ok cfg) {r' : Request}
    {selection : Option GoString} (ha : r.applied = none) (hd : r'.done = false)
    (hc : ∀ candidate, selection = some candidate → candidate ∈ cfg.serviceList) :
    Keeps cfg s r (applyOr cfg s r r' selection) := by
  cases selection with
  | none => exact Keeps.refl h
  | some candidate => exact keeps_applySelectedService hcfg ha hd (hc candidate rfl)

theorem keeps_requestHeaders (hcfg : cfg.Readable) (h : r.Ok cfg) (reading : Reading cfg) (now : ℤ)
    (ready : Bool) (routeName : Option GoString) (sent : Bool) :
    Keeps cfg s r (handle cfg s r (.requestHeaders reading now ready routeName sent)) := by
  simp only [handle]
  split
  · rename_i hfresh
    have ha : r.applied = none := h.2 (by simp [hfresh.1])
    have hsel : getSelectedService cfg r.ctx = none := h.1.trans ha
    simp only [handleHttpRequestHeaders]
    split
    · split
      · exact keeps_applyOr hcfg h ha hfresh.2 fun _ => selectAdaptiveScore_mem
      · rename_i name hname
        split
        · exact Keeps.refl h
        · split
          · -- the callback is awaited, and the context has no service
            refine ⟨⟨?_, fun _ => ha⟩, fun svc => ?_⟩
            · show getSelectedService cfg (((r.ctx.set _ _)).set _ _) = r.applied
              rw [ha]
              by_cases hk : bytes "global_inflight_key" = cfg.clusterHeader
              · have hnot := hcfg.2.2.2 hk.symm name
                simp [getSelectedService, Context.set, hk, hasService, hnot]
              · rw [getSelectedService_set hk, getSelectedService_set_int hsel]
            · simp [weight, Request.ongoing]
          · exact keeps_applyOr hcfg h ha hfresh.2 fun _ => selectAdaptiveScore_mem
    · exact keeps_applyOr hcfg h ha hfresh.2 fun _ => selectLocal_mem
  · exact Keeps.refl h

theorem keeps_callback (hcfg : cfg.Readable) (h : r.Ok cfg) (reply : Reply) (reading : Reading cfg)
    (hd : r.phase = .waiting → r.done = false) :
    Keeps cfg s r (handle cfg s r (.callback reply reading)) := by
  simp only [handle]
  split
  · rename_i hwaiting
    have ha : r.applied = none := h.2 (by simp [hwaiting])
    have hlocal : Keeps cfg s r (applyOr cfg s r r (selectAdaptiveScore cfg s reading)) :=
      keeps_applyOr hcfg h ha (hd hwaiting) fun _ => selectAdaptiveScore_mem
    unfold handleCallback
    split
    · rename_i candidate
      split
      · rename_i hknown
        have hc : candidate ∈ cfg.serviceList := by simpa [hasService] using hknown.2
        obtain ⟨hok, hmeter⟩ := @keeps_applySelectedService cfg s r hcfg r candidate ha
          (hd hwaiting) hc
        refine ⟨⟨?_, hok.2⟩, hmeter⟩
        rw [← hok.1]
        exact getSelectedService_set (Ne.symm hcfg.2.2.1) _
      · exact hlocal
    · exact hlocal
  · exact Keeps.refl h

theorem keeps_responseHeaders (hcfg : cfg.Readable) (h : r.Ok cfg) (statusCode : GoString) :
    Keeps cfg s r (handle cfg s r (.responseHeaders statusCode)) := by
  simp only [handle]
  split
  · exact Keeps.refl h
  · refine ⟨⟨?_, h.2⟩, fun svc => rfl⟩
    rw [← h.1]
    exact getSelectedService_set (Ne.symm hcfg.2.1) _

/-- If the cluster header is `ttft_recorded`, the key is there as soon as a service is, and not
overwritten. -/
theorem keeps_streamingResponseBody (h : r.Ok cfg) :
    Keeps cfg s r (handle cfg s r .streamingResponseBody) := by
  simp only [handle]
  split
  · exact Keeps.refl h
  · refine ⟨⟨?_, h.2⟩, fun svc => rfl⟩
    rw [← h.1]
    simp only [handleStreamingResponseBody]
    split
    · rename_i hrecorded hselected _
      refine getSelectedService_set (fun hk => ?_) _
      rw [hk] at hrecorded
      simp [getSelectedService, hrecorded] at hselected
    · rfl

theorem keeps_done (h : r.Ok cfg) : Keeps cfg s r (handle cfg s r .done) := by
  simp only [handle]
  split
  · exact Keeps.refl h
  · rename_i hdone
    refine ⟨⟨h.1, h.2⟩, fun svc => ?_⟩
    simp only [handleHttpStreamDone, h.1]
    cases ha : r.applied with
    | none => simp [meter, weight, Request.ongoing, ha]
    | some candidate =>
        by_cases hsvc : svc = candidate
        · subst hsvc
          simp [meter, weight, Request.ongoing, ha, hdone]
        · simp [meter, weight, Request.ongoing, ha, hsvc, Ne.symm hsvc]

end Steps

/-! ### Runs -/

/-- The counts of a run in which no callback comes too late. -/
theorem metered_run {cfg : Config} (hcfg : cfg.Readable) {s : Stats}
    (hs : ∀ svc, s.ongoing svc = 0) {events : List (Sessions.Event Unit (Happening cfg))}
    (hin : Sessions.Along Request.fresh (handle cfg) (InTime cfg) ⟨s, []⟩ events) :
    Sessions.Metered (Request.Ok cfg) weight meter
      (Sessions.run Request.fresh (handle cfg) ⟨s, []⟩ events) := by
  have hfresh (u : Unit) :
      (Request.fresh u).Ok cfg ∧ ∀ svc, weight svc (Request.fresh u) = 0 :=
    ⟨⟨rfl, fun _ => rfl⟩, fun svc => by simp [weight, Request.ongoing, Request.fresh]⟩
  have hinit : Sessions.Metered (Request.Ok cfg) weight meter ⟨s, []⟩ :=
    ⟨by simp, fun svc => by simp [meter, hs, Sessions.total]⟩
  refine Sessions.run_of_step (fun w e hw hc => hw.step (C := InTime cfg) hfresh
    (fun w i r e hw hr hc => ?_) hc) hinit hin
  have hok : r.Ok cfg := hw.ok r (List.mem_of_getElem? hr)
  cases e with
  | requestHeaders reading now ready routeName sent =>
      exact keeps_requestHeaders hcfg hok reading now ready routeName sent
  | callback reply reading => exact keeps_callback hcfg hok reply reading (hc r hr)
  | responseHeaders statusCode => exact keeps_responseHeaders hcfg hok statusCode
  | streamingResponseBody => exact keeps_streamingResponseBody hok
  | done => exact keeps_done hok

/-- The ongoing requests: if the service can be read from the context and no callback runs for a
stream that is done, then in every run the count of a service is the number of the requests that
were applied to it and whose streams are not done. It is not negative, and zero when all streams
are done. -/
theorem ongoing_eq (cfg : Config) (hcfg : cfg.Readable) (s : Stats)
    (hs : ∀ svc, s.ongoing svc = 0) (events : List (Sessions.Event Unit (Happening cfg)))
    (hin : Sessions.Along Request.fresh (handle cfg) (InTime cfg) ⟨s, []⟩ events)
    (svc : GoString) :
    let w := Sessions.run Request.fresh (handle cfg) ⟨s, []⟩ events
    w.shared.ongoing svc = w.all.countP (Request.ongoing svc) ∧
      0 ≤ w.shared.ongoing svc ∧
      ((∀ r ∈ w.all, r.done = true) → w.shared.ongoing svc = 0) := by
  intro w
  have hcount : w.shared.ongoing svc = w.all.countP (Request.ongoing svc) := by
    rw [← Sessions.total_eq_countP Request.ongoing svc w]
    exact (metered_run hcfg hs hin).meter_eq svc
  refine ⟨hcount, by omega, fun hall => ?_⟩
  have hnone : w.all.countP (Request.ongoing svc) = 0 := by
    rw [List.countP_eq_zero]
    intro r hr
    simp [Request.ongoing, hall r hr]
  rw [hcount, hnone]
  rfl

/-- One service, selected by Redis. -/
def oneService : Config where
  mode := .adaptiveScore
  clusterHeader := bytes "x-higress-target-cluster"
  serviceList := [[97]]
  rateBelow := fun _ _ => true
  p2cChoices := 2
  globalInflight := true
  globalInflightKeyPrefix := bytes "higress:adaptive_score_inflight"
  ne_nil := by simp
  p2cChoices_pos := by simp

def noStats : Stats := ⟨fun _ => 0, fun _ => 0⟩

def plainReading : Reading oneService := ⟨0, [], fun _ _ => false, fun _ => true, [], by simp⟩

/-- The headers of a request, for which the script is sent. -/
def plainHeaders : Happening oneService := .requestHeaders plainReading 0 true (some [114]) true

/-- The callback with the service. -/
def plainCallback : Happening oneService := .callback (.array (some [97])) plainReading

theorem ongoing_eq_oneService :
    (Sessions.run Request.fresh (handle oneService) ⟨noStats, []⟩
      [.opened (), .act 0 plainHeaders, .act 0 plainCallback, .act 0 .done]).shared.ongoing [97] =
        0 := by
  have hcfg : oneService.Readable :=
    ⟨by decide, by decide, by decide, fun heq => absurd heq (by decide)⟩
  have hin : Sessions.Along Request.fresh (handle oneService) (InTime oneService) ⟨noStats, []⟩
      [.opened (), .act 0 plainHeaders, .act 0 plainCallback, .act 0 .done] := by
    refine ⟨trivial, trivial, fun r hr _ => ?_, trivial, trivial⟩
    have hopen : ∀ r ∈ (Sessions.run Request.fresh (handle oneService) ⟨noStats, []⟩
        [.opened (), .act 0 plainHeaders]).all, r.done = false := by decide
    exact hopen r (List.mem_of_getElem? hr)
  exact (ongoing_eq oneService hcfg noStats (fun _ => rfl) _ hin [97]).2.2 (by decide)

/-- A callback that runs when the stream is done leaves a count for ever. -/
theorem ongoing_leaks :
    let w := Sessions.run Request.fresh (handle oneService) ⟨noStats, []⟩
      [.opened (), .act 0 plainHeaders, .act 0 .done, .act 0 plainCallback]
    (∀ r ∈ w.all, r.done = true) ∧ w.all.countP (Request.ongoing [97]) = 0 ∧
      w.shared.ongoing [97] = 1 := by
  decide

end Higress.LoadBalancer.ClusterMetrics
