import Mathlib
import Higress.LoadBalancer.ClusterMetrics

/-!
Which service `ai-load-balancer/cluster_metrics/lb_policy.go` selects. Rates and average latencies
are read here as exact rationals. The three modes of least requests and latencies go through the
services once and keep one candidate, which is one of the services under the limit as soon as one
has been met and is then no worse than any of those met. The mode of scores draws a sample first,
and the loop that draws it ends only if there are as many names as it asks for.
-/

namespace Higress.LoadBalancer.ClusterMetrics

open Lib

/-! ### Rates and latencies -/

/-- `getRequestRate`, from the requests of a service and of all of them. -/
def requestRate (count total : ℤ) : ℚ := if total ≠ 0 then count / total else 0

def getRequestRate (cfg : Config) (s : Stats) (svc : GoString) : ℚ :=
  requestRate (s.count svc) (cfg.serviceList.dedup.map s.count).sum

/-- The configuration with the limit `rate_limit`. -/
def Config.withRateLimit (cfg : Config) (rateLimit : ℚ) : Config :=
  { cfg with rateBelow := fun count total => requestRate count total < rateLimit }

/-- The queues `FirstTokenLatencyRequests` and `TotalLatencyRequests`. -/
structure Latencies where
  firstToken : GoString → List ℚ
  total : GoString → List ℚ

/-- The average of a queue, as `getServiceTTFT` and `getServiceTotalRT` take it. -/
def average (queue : List ℚ) : ℚ :=
  if queue.length = 0 then 0 else queue.foldl (· + ·) 0 / queue.length

def getServiceTTFT (latencies : Latencies) (svc : GoString) : ℚ :=
  average (latencies.firstToken svc)

def getServiceTotalRT (latencies : Latencies) (svc : GoString) : ℚ :=
  average (latencies.total svc)

/-- What a mode keeps small. -/
def leastValue (mode : Mode) (s : Stats) (latencies : Latencies) (svc : GoString) : ℚ :=
  match mode with
  | .leastBusy => s.ongoing svc
  | .leastFirstTokenLatency => getServiceTTFT latencies svc
  | .leastTotalLatency => getServiceTotalRT latencies svc
  | .adaptiveScore => 0

theorem below_withRateLimit {cfg : Config} {s : Stats} {rateLimit : ℚ} {svc : GoString} :
    below (cfg.withRateLimit rateLimit) s svc = true ↔ getRequestRate cfg s svc < rateLimit := by
  simp [below, Config.withRateLimit, getRequestRate]

/-! ### The loop of the modes of least requests and latencies -/

/-- The candidate after the services `met`: one under the limit that is least among those met, or
one over it if all those met are. -/
def LeastOf (cfg : Config) (s : Stats) (value : GoString → ℚ) (met : GoString → Prop)
    (candidate : GoString) : Prop :=
  (below cfg s candidate = true ∧
      ∀ svc, met svc → below cfg s svc = true → value candidate ≤ value svc) ∨
    (below cfg s candidate = false ∧ ∀ svc, met svc → below cfg s svc = false)

section Loop

variable {cfg : Config} {s : Stats} {value : GoString → ℚ} {met : GoString → Prop}
  {candidate svc : GoString}

/-- One round of the loop. -/
def leastStep (cfg : Config) (s : Stats) (less : GoString → GoString → Bool)
    (candidate svc : GoString) : GoString :=
  if candidate = svc then candidate
  else if !below cfg s candidate then svc
  else if less svc candidate && below cfg s svc then svc
  else candidate

theorem leastLoop_cons (less : GoString → GoString → Bool) (services : List GoString) :
    leastLoop cfg s less candidate (svc :: services) =
      leastLoop cfg s less (leastStep cfg s less candidate svc) services := by
  simp only [leastLoop, leastStep]
  split_ifs <;> rfl

theorem LeastOf.leastStep {less : GoString → GoString → Bool}
    (hless : ∀ a b, less a b = true ↔ value a < value b)
    (h : LeastOf cfg s value met candidate) (svc : GoString) :
    LeastOf cfg s value (fun x => met x ∨ x = svc) (leastStep cfg s less candidate svc) := by
  unfold ClusterMetrics.leastStep
  split_ifs with hsame hover hbetter
  · -- the candidate is met again
    subst hsame
    rcases h with ⟨hbelow, hleast⟩ | ⟨hover, hall⟩
    · refine Or.inl ⟨hbelow, ?_⟩
      rintro x (hx | rfl) hxbelow
      · exact hleast x hx hxbelow
      · exact le_rfl
    · refine Or.inr ⟨hover, ?_⟩
      rintro x (hx | rfl)
      · exact hall x hx
      · exact hover
  · -- the candidate is over the limit, and so are all met before
    have hover' : below cfg s candidate = false := by simpa using hover
    have hall : ∀ x, met x → below cfg s x = false := by
      rcases h with ⟨hbelow, -⟩ | ⟨-, hall⟩
      · rw [hover'] at hbelow
        cases hbelow
      · exact hall
    cases hsvc : below cfg s svc with
    | true =>
        refine Or.inl ⟨hsvc, ?_⟩
        rintro x (hx | rfl) hxbelow
        · rw [hall x hx] at hxbelow
          cases hxbelow
        · exact le_rfl
    | false =>
        refine Or.inr ⟨hsvc, ?_⟩
        rintro x (hx | rfl)
        · exact hall x hx
        · exact hsvc
  · -- the service is under the limit and better than the candidate
    obtain ⟨hlt, hsvc⟩ := Bool.and_eq_true_iff.mp hbetter
    have hbelow : below cfg s candidate = true := by simpa using hover
    have hleast : ∀ x, met x → below cfg s x = true → value candidate ≤ value x := by
      rcases h with ⟨-, hleast⟩ | ⟨hover', -⟩
      · exact hleast
      · rw [hbelow] at hover'
        cases hover'
    refine Or.inl ⟨hsvc, ?_⟩
    rintro x (hx | rfl) hxbelow
    · exact ((hless _ _).mp hlt).le.trans (hleast x hx hxbelow)
    · exact le_rfl
  · have hbelow : below cfg s candidate = true := by simpa using hover
    rcases h with ⟨-, hleast⟩ | ⟨hover', -⟩
    · refine Or.inl ⟨hbelow, ?_⟩
      rintro x (hx | rfl) hxbelow
      · exact hleast x hx hxbelow
      · have hnot : ¬ less x candidate = true := fun hlt => hbetter (by rw [hlt, hxbelow]; rfl)
        exact not_lt.mp (mt (hless _ _).mpr hnot)
    · rw [hbelow] at hover'
      cases hover'

theorem LeastOf.leastLoop {less : GoString → GoString → Bool}
    (hless : ∀ a b, less a b = true ↔ value a < value b)
    (h : LeastOf cfg s value met candidate) (services : List GoString) :
    LeastOf cfg s value (fun x => met x ∨ x ∈ services)
      (leastLoop cfg s less candidate services) := by
  induction services generalizing met candidate with
  | nil => simpa [ClusterMetrics.leastLoop] using h
  | cons svc services ih =>
      rw [leastLoop_cons]
      have hrest := ih (h.leastStep hless svc)
      simpa only [List.mem_cons, or_assoc] using hrest

/-- Whichever candidate the loop starts with, a service under the limit that it meets makes it end
with one that is under the limit and least among those met. -/
theorem leastLoop_least {less : GoString → GoString → Bool}
    (hless : ∀ a b, less a b = true ↔ value a < value b) {services : List GoString}
    (hsome : ∃ svc ∈ services, below cfg s svc = true) :
    below cfg s (leastLoop cfg s less candidate services) = true ∧
      ∀ svc ∈ services, below cfg s svc = true →
        value (leastLoop cfg s less candidate services) ≤ value svc := by
  have hstart : LeastOf cfg s value (fun _ => False) candidate := by
    cases hc : below cfg s candidate with
    | true => exact Or.inl ⟨hc, fun _ h => h.elim⟩
    | false => exact Or.inr ⟨hc, fun _ h => h.elim⟩
  rcases hstart.leastLoop hless services with ⟨hbelow, hleast⟩ | ⟨-, hall⟩
  · exact ⟨hbelow, fun svc hsvc => hleast svc (Or.inr hsvc)⟩
  · obtain ⟨svc, hsvc, hbelow⟩ := hsome
    rw [hall svc (Or.inr hsvc)] at hbelow
    cases hbelow

end Loop

theorem selectLocal_of_busy {cfg : Config} (s : Stats) (r : Reading cfg)
    (h : cfg.mode = .leastBusy) :
    selectLocal cfg s r = (cfg.serviceList[r.random % cfg.serviceList.length]?).map fun candidate =>
      leastLoop cfg s (fun svc candidate => s.ongoing svc < s.ongoing candidate) candidate
        r.order := by
  simp only [selectLocal, h]

theorem selectLocal_of_latency {cfg : Config} (s : Stats) (r : Reading cfg)
    (h : cfg.mode = .leastFirstTokenLatency ∨ cfg.mode = .leastTotalLatency) :
    selectLocal cfg s r = (cfg.serviceList[r.random % cfg.serviceList.length]?).map fun candidate =>
      leastLoop cfg s r.less candidate cfg.serviceList := by
  rcases h with h | h <;> simp only [selectLocal, h]

/-- What is read in the modes of least requests and latencies: any first candidate, any order of the
map, and the latencies. -/
def Reading.ofLatencies (cfg : Config) (rateLimit : ℚ) (s : Stats) (latencies : Latencies)
    (random : ℕ) (order : List GoString) (horder : order.Perm cfg.serviceList.dedup) :
    Reading (cfg.withRateLimit rateLimit) where
  random := random
  order := order
  less svc candidate := leastValue cfg.mode s latencies svc < leastValue cfg.mode s latencies candidate
  cooled _ := true
  draws := []
  order_mem _ hsvc := List.mem_dedup.mp (horder.mem_iff.mp hsvc)

/-- In the modes of least requests and latencies the selected service is under the limit if any
is, and then least among those under it. -/
theorem selectLocal_least (cfg : Config) (rateLimit : ℚ) (s : Stats) (latencies : Latencies)
    (random : ℕ) (order : List GoString) (horder : order.Perm cfg.serviceList.dedup)
    (hmode : cfg.mode ≠ .adaptiveScore)
    (hsome : ∃ svc ∈ cfg.serviceList, getRequestRate cfg s svc < rateLimit) :
    ∃ candidate,
      selectLocal (cfg.withRateLimit rateLimit) s
        (Reading.ofLatencies cfg rateLimit s latencies random order horder) =
          some candidate ∧
      candidate ∈ cfg.serviceList ∧ getRequestRate cfg s candidate < rateLimit ∧
      ∀ svc ∈ cfg.serviceList, getRequestRate cfg s svc < rateLimit →
        leastValue cfg.mode s latencies candidate ≤ leastValue cfg.mode s latencies svc := by
  obtain ⟨svc₀, hsvc₀, hrate₀⟩ := hsome
  have hbelow₀ := below_withRateLimit.mpr hrate₀
  have hlt : random % cfg.serviceList.length < cfg.serviceList.length :=
    Nat.mod_lt _ (List.length_pos_iff.mpr cfg.ne_nil)
  have hfirst : cfg.serviceList[random % cfg.serviceList.length]? =
      some cfg.serviceList[random % cfg.serviceList.length] := List.getElem?_eq_getElem hlt
  have hin : ∀ svc, svc ∈ order ↔ svc ∈ cfg.serviceList := fun svc =>
    horder.mem_iff.trans List.mem_dedup
  -- whichever list the loop goes through, its members are the services
  have hloop : ∀ (less : GoString → GoString → Bool) (services : List GoString),
      (∀ a b, less a b = true ↔
        leastValue cfg.mode s latencies a < leastValue cfg.mode s latencies b) →
      (∀ svc, svc ∈ services ↔ svc ∈ cfg.serviceList) →
      let candidate := leastLoop (cfg.withRateLimit rateLimit) s less
        cfg.serviceList[random % cfg.serviceList.length] services
      candidate ∈ cfg.serviceList ∧ getRequestRate cfg s candidate < rateLimit ∧
        ∀ svc ∈ cfg.serviceList, getRequestRate cfg s svc < rateLimit →
          leastValue cfg.mode s latencies candidate ≤ leastValue cfg.mode s latencies svc := by
    intro less services hless hmem candidate
    obtain ⟨hbelow, hleast⟩ := @leastLoop_least _ s _
      cfg.serviceList[random % cfg.serviceList.length] _ hless _
      ⟨svc₀, (hmem svc₀).mpr hsvc₀, hbelow₀⟩
    refine ⟨leastLoop_mem (List.getElem_mem hlt) fun svc hsvc => (hmem svc).mp hsvc,
      below_withRateLimit.mp hbelow, ?_⟩
    intro svc hsvc hrate
    exact hleast svc ((hmem svc).mpr hsvc) (below_withRateLimit.mpr hrate)
  have hlatency : cfg.mode = .leastFirstTokenLatency ∨ cfg.mode = .leastTotalLatency →
      ∃ candidate, selectLocal (cfg.withRateLimit rateLimit) s
        (Reading.ofLatencies cfg rateLimit s latencies random order horder) =
          some candidate ∧ candidate ∈ cfg.serviceList ∧
        getRequestRate cfg s candidate < rateLimit ∧
        ∀ svc ∈ cfg.serviceList, getRequestRate cfg s svc < rateLimit →
          leastValue cfg.mode s latencies candidate ≤ leastValue cfg.mode s latencies svc := by
    intro hm
    refine ⟨_, ?_, hloop (fun a b => leastValue cfg.mode s latencies a <
      leastValue cfg.mode s latencies b) cfg.serviceList (fun a b => by simp) fun _ => Iff.rfl⟩
    rw [@selectLocal_of_latency (cfg.withRateLimit rateLimit) s _ hm]
    change (cfg.serviceList[random % cfg.serviceList.length]?).map _ = _
    rw [hfirst]
    rfl
  cases hm : cfg.mode with
  | adaptiveScore => exact absurd hm hmode
  | leastBusy =>
      rw [hm] at hloop
      refine ⟨_, ?_, hloop (fun a b => s.ongoing a < s.ongoing b) order ?_ hin⟩
      · rw [@selectLocal_of_busy (cfg.withRateLimit rateLimit) s _ hm]
        change (cfg.serviceList[random % cfg.serviceList.length]?).map _ = _
        rw [hfirst]
        rfl
      · intro a b
        simp [leastValue]
  | leastFirstTokenLatency => exact hm ▸ hlatency (Or.inl hm)
  | leastTotalLatency => exact hm ▸ hlatency (Or.inr hm)

/-- Three services, of which the first has had most of the requests. -/
def threeServices : Config where
  mode := .leastBusy
  clusterHeader := bytes "x-envoy-target-cluster"
  serviceList := [bytes "a", bytes "b", bytes "c"]
  rateBelow _ _ := true
  p2cChoices := 2
  globalInflight := false
  globalInflightKeyPrefix := []
  ne_nil := by simp
  p2cChoices_pos := by decide

def threeStats : Stats where
  ongoing svc := if svc = bytes "a" then 0 else if svc = bytes "b" then 5 else 3
  count svc := if svc = bytes "a" then 8 else 1

theorem getRequestRate_threeServices :
    getRequestRate threeServices threeStats (bytes "c") < 1 / 2 := by
  have hcount : threeStats.count (bytes "c") = 1 := by decide
  have htotal : (threeServices.serviceList.dedup.map threeStats.count).sum = 10 := by decide
  rw [getRequestRate, hcount, htotal, requestRate]
  norm_num

theorem selectLocal_least_three :
    ∃ candidate,
      selectLocal (threeServices.withRateLimit (1 / 2)) threeStats
        (Reading.ofLatencies threeServices (1 / 2) threeStats ⟨fun _ => [], fun _ => []⟩ 0
          [bytes "c", bytes "a", bytes "b"] (by decide)) = some candidate ∧
      candidate ∈ threeServices.serviceList ∧
      getRequestRate threeServices threeStats candidate < 1 / 2 ∧
      ∀ svc ∈ threeServices.serviceList, getRequestRate threeServices threeStats svc < 1 / 2 →
        leastValue .leastBusy threeStats ⟨fun _ => [], fun _ => []⟩ candidate ≤
          leastValue .leastBusy threeStats ⟨fun _ => [], fun _ => []⟩ svc :=
  selectLocal_least threeServices (1 / 2) threeStats ⟨fun _ => [], fun _ => []⟩ 0
    [bytes "c", bytes "a", bytes "b"] (by decide) (by decide)
    ⟨bytes "c", by decide, getRequestRate_threeServices⟩

/-! ### The sample of the mode of scores -/

section Sample

variable {cfg : Config} {s : Stats} {n : ℕ} {services choices sample : List GoString}

/-- The random numbers, taken one after another, pick each of the services at some time. -/
def HitsEach (services : List GoString) (draws : ℕ → ℕ) : Prop :=
  ∀ svc ∈ services, ∃ k, services[draws k % services.length]? = some svc

/-- The reading with the first `N` of the random numbers. -/
def Reading.drawing (r : Reading cfg) (draws : ℕ → ℕ) (N : ℕ) : Reading cfg :=
  { r with draws := (List.range N).map draws }

/-- Whatever the random numbers are, the loop ends and its sample has the number of candidates that
is asked for, or all of them, and none twice. -/
def Samples (cfg : Config) (s : Stats) (r : Reading cfg) : Prop :=
  let services := adaptiveCandidateServices cfg s r.cooled
  ∀ draws, HitsEach services draws →
    ∃ N sample, sampleAdaptiveCandidates cfg s (r.drawing draws N) = some sample ∧
      sample.Nodup ∧ (∀ svc ∈ sample, svc ∈ services ∧ svc ∈ cfg.serviceList) ∧
      sample.length = min cfg.p2cChoices services.dedup.length

theorem sampleLoop_cons {draw : ℕ} {draws : List ℕ} {svc : GoString}
    (hlen : choices.length < n) (hsvc : services[draw % services.length]? = some svc) :
    sampleLoop n services (draw :: draws) choices =
      sampleLoop n services draws (if svc ∈ choices then choices else choices ++ [svc]) := by
  rw [sampleLoop.eq_def]
  simp only [Nat.not_le.mpr hlen, if_false, hsvc]
  split_ifs <;> rfl

theorem exists_getElem?_mod (hne : services ≠ []) (draw : ℕ) :
    ∃ svc ∈ services, services[draw % services.length]? = some svc := by
  have hlt : draw % services.length < services.length :=
    Nat.mod_lt _ (List.length_pos_iff.mpr hne)
  exact ⟨services[draw % services.length], List.getElem_mem hlt, List.getElem?_eq_getElem hlt⟩

/-- What the loop has chosen: services, none of them twice, and not more than are asked for. -/
structure Choosing (n : ℕ) (services choices : List GoString) : Prop where
  nodup : choices.Nodup
  mem : ∀ svc ∈ choices, svc ∈ services
  length_le : choices.length ≤ n

theorem Choosing.add (h : Choosing n services choices) (hlen : choices.length < n)
    {svc : GoString} (hsvc : svc ∈ services) :
    Choosing n services (if svc ∈ choices then choices else choices ++ [svc]) := by
  split_ifs with hseen
  · exact h
  · refine ⟨?_, ?_, ?_⟩
    · rw [List.nodup_append]
      refine ⟨h.nodup, List.nodup_singleton svc, ?_⟩
      intro a ha b hb heq
      rw [List.mem_singleton.mp hb] at heq
      exact hseen (heq ▸ ha)
    · intro x hx
      rcases List.mem_append.mp hx with hx | hx
      · exact h.mem x hx
      · exact List.mem_singleton.mp hx ▸ hsvc
    · simpa using hlen

theorem Choosing.length_le_dedup (h : Choosing n services choices) :
    choices.length ≤ services.dedup.length :=
  (List.subperm_of_subset h.nodup fun svc hsvc => List.mem_dedup.mpr (h.mem svc hsvc)).length_le

/-- A sample that the loop ends with. -/
theorem choosing_of_sampleLoop (hne : services ≠ []) {draws : List ℕ}
    (h : Choosing n services choices) (hs : sampleLoop n services draws choices = some sample) :
    Choosing n services sample ∧ sample.length = n := by
  induction draws generalizing choices with
  | nil =>
      rw [sampleLoop] at hs
      split_ifs at hs with hlen
      · obtain rfl : choices = sample := by simpa using hs
        exact ⟨h, le_antisymm h.length_le hlen⟩
  | cons draw draws ih =>
      by_cases hlen : n ≤ choices.length
      · rw [sampleLoop, if_pos hlen] at hs
        obtain rfl : choices = sample := by simpa using hs
        exact ⟨h, le_antisymm h.length_le hlen⟩
      · obtain ⟨svc, hmem, hsvc⟩ := exists_getElem?_mod hne draw
        rw [sampleLoop_cons (by omega) hsvc] at hs
        exact ih (h.add (by omega) hmem) hs

/-- A loop that has not ended has chosen all that was drawn, and that is not enough. -/
theorem choosing_of_sampleLoop_none (hne : services ≠ []) {draws : List ℕ}
    (h : Choosing n services choices) (hs : sampleLoop n services draws choices = none) :
    ∃ chosen, Choosing n services chosen ∧ chosen.length < n ∧ (∀ svc ∈ choices, svc ∈ chosen) ∧
      ∀ draw ∈ draws, ∀ svc, services[draw % services.length]? = some svc → svc ∈ chosen := by
  induction draws generalizing choices with
  | nil =>
      rw [sampleLoop] at hs
      split_ifs at hs with hlen
      exact ⟨choices, h, by omega, fun svc hsvc => hsvc, by simp⟩
  | cons draw draws ih =>
      by_cases hlen : n ≤ choices.length
      · rw [sampleLoop, if_pos hlen] at hs
        cases hs
      · obtain ⟨svc, hmem, hsvc⟩ := exists_getElem?_mod hne draw
        rw [sampleLoop_cons (by omega) hsvc] at hs
        obtain ⟨chosen, hchosen, hshort, hkept, hdrawn⟩ := ih (h.add (by omega) hmem) hs
        have hchoice : ∀ x ∈ choices, x ∈ chosen := by
          intro x hx
          refine hkept x ?_
          split_ifs
          · exact hx
          · exact List.mem_append_left _ hx
        have hnow : svc ∈ chosen := by
          by_cases hseen : svc ∈ choices
          · exact hchoice svc hseen
          · exact hkept svc (by simp [hseen])
        refine ⟨chosen, hchosen, hshort, hchoice, ?_⟩
        intro d hd x hx
        rcases List.mem_cons.mp hd with rfl | hd
        · rw [hsvc] at hx
          exact Option.some.inj hx ▸ hnow
        · exact hdrawn d hd x hx

theorem exists_bound {P : GoString → ℕ → Prop} (h : ∀ svc ∈ services, ∃ k, P svc k) :
    ∃ N : ℕ, ∀ svc ∈ services, ∃ k < N, P svc k := by
  induction services with
  | nil => exact ⟨0, by simp⟩
  | cons x xs ih =>
      obtain ⟨N, hN⟩ := ih fun svc hsvc => h svc (List.mem_cons_of_mem _ hsvc)
      obtain ⟨k, hk⟩ := h x List.mem_cons_self
      refine ⟨max N (k + 1), ?_⟩
      intro svc hsvc
      rcases List.mem_cons.mp hsvc with rfl | hsvc
      · exact ⟨k, by omega, hk⟩
      · obtain ⟨k', hk', hP⟩ := hN svc hsvc
        exact ⟨k', by omega, hP⟩

theorem Choosing.nil : Choosing n services [] := ⟨List.nodup_nil, by simp, by simp⟩

/-- With enough names the loop ends. -/
theorem exists_sampleLoop (hne : services ≠ []) (hn : n ≤ services.dedup.length) {draws : ℕ → ℕ}
    (hhits : HitsEach services draws) :
    ∃ N sample, sampleLoop n services ((List.range N).map draws) [] = some sample := by
  obtain ⟨N, hN⟩ := exists_bound hhits
  refine ⟨N, ?_⟩
  cases hs : sampleLoop n services ((List.range N).map draws) [] with
  | some sample => exact ⟨sample, rfl⟩
  | none =>
      obtain ⟨chosen, hchosen, hshort, -, hdrawn⟩ :=
        choosing_of_sampleLoop_none hne Choosing.nil hs
      have hall : ∀ svc ∈ services.dedup, svc ∈ chosen := by
        intro svc hsvc
        obtain ⟨k, hk, hget⟩ := hN svc (List.mem_dedup.mp hsvc)
        exact hdrawn _ (List.mem_map_of_mem (List.mem_range.mpr hk)) svc hget
      have hle : services.dedup.length ≤ chosen.length :=
        (List.subperm_of_subset (List.nodup_dedup services) hall).length_le
      omega

/-- There are random numbers that pick each service: those that count up. -/
theorem hitsEach_id (services : List GoString) : HitsEach services id := by
  intro svc hsvc
  obtain ⟨k, hk, rfl⟩ := List.mem_iff_getElem.mp hsvc
  exact ⟨k, by simp [Nat.mod_eq_of_lt hk, hk]⟩

theorem adaptiveCandidateServices_ne_nil (cooled : GoString → Bool) :
    adaptiveCandidateServices cfg s cooled ≠ [] := by
  simp only [adaptiveCandidateServices]
  split_ifs with hrate havailable havailable
  · exact cfg.ne_nil
  · exact havailable
  · exact hrate
  · exact havailable

/-- The candidates are few enough to be the sample, or are drawn. -/
theorem sampleAdaptiveCandidates_drawing (r : Reading cfg) (draws : ℕ → ℕ) (N : ℕ) :
    sampleAdaptiveCandidates cfg s (r.drawing draws N) =
      (let services := adaptiveCandidateServices cfg s r.cooled
      if services.length ≤ cfg.p2cChoices then some services
      else sampleLoop cfg.p2cChoices services ((List.range N).map draws) []) := by
  have hpos := cfg.p2cChoices_pos
  change (if (adaptiveCandidateServices cfg s r.cooled).length ≤ 1 ∨
      (adaptiveCandidateServices cfg s r.cooled).length ≤ cfg.p2cChoices then
      some (adaptiveCandidateServices cfg s r.cooled) else _) = _
  by_cases hle : (adaptiveCandidateServices cfg s r.cooled).length ≤ cfg.p2cChoices
  · exact (if_pos (Or.inr hle)).trans (if_pos hle).symm
  · refine (if_neg ?_).trans (if_neg hle).symm
    omega

theorem samples_of_names {r : Reading cfg}
    (h : (adaptiveCandidateServices cfg s r.cooled).Nodup ∨
      (cfg.p2cChoices < (adaptiveCandidateServices cfg s r.cooled).length ∧
        cfg.p2cChoices ≤ (adaptiveCandidateServices cfg s r.cooled).dedup.length)) :
    Samples cfg s r := by
  unfold Samples
  intro services draws hhits
  have hconfigured : ∀ svc ∈ services, svc ∈ services ∧ svc ∈ cfg.serviceList :=
    fun svc hsvc => ⟨hsvc, mem_of_mem_adaptiveCandidateServices hsvc⟩
  have hne : services ≠ [] := adaptiveCandidateServices_ne_nil r.cooled
  by_cases hle : services.length ≤ cfg.p2cChoices
  · have hnodup : services.Nodup :=
      h.resolve_right fun hlt => absurd hlt.1 (not_lt.mpr hle)
    refine ⟨0, services, ?_, hnodup, hconfigured, ?_⟩
    · rw [sampleAdaptiveCandidates_drawing]
      exact if_pos hle
    · rw [hnodup.dedup]
      exact (min_eq_right hle).symm
  · have hn : cfg.p2cChoices ≤ services.dedup.length := by
      rcases h with hnodup | ⟨-, hn⟩
      · rw [hnodup.dedup]
        exact (not_le.mp hle).le
      · exact hn
    obtain ⟨N, sample, hs⟩ := exists_sampleLoop hne hn hhits
    obtain ⟨hchosen, hlen⟩ := choosing_of_sampleLoop hne Choosing.nil hs
    refine ⟨N, sample, ?_, hchosen.nodup, fun svc hsvc => hconfigured svc (hchosen.mem svc hsvc), ?_⟩
    · rw [sampleAdaptiveCandidates_drawing]
      exact (if_neg hle).trans hs
    · exact hlen.trans (min_eq_left hn).symm

/-- A sample of the random numbers that count up needs enough names. -/
theorem names_of_sample {r : Reading cfg} {N : ℕ}
    (hs : sampleAdaptiveCandidates cfg s (r.drawing id N) = some sample) (hnodup : sample.Nodup) :
    (adaptiveCandidateServices cfg s r.cooled).Nodup ∨
      (cfg.p2cChoices < (adaptiveCandidateServices cfg s r.cooled).length ∧
        cfg.p2cChoices ≤ (adaptiveCandidateServices cfg s r.cooled).dedup.length) := by
  rw [sampleAdaptiveCandidates_drawing] at hs
  dsimp only at hs
  split_ifs at hs with hle
  · exact Or.inl (Option.some.inj hs ▸ hnodup)
  · obtain ⟨hchosen, hlen⟩ :=
      choosing_of_sampleLoop (adaptiveCandidateServices_ne_nil r.cooled) Choosing.nil hs
    exact Or.inr ⟨by omega, hlen ▸ hchosen.length_le_dedup⟩

/-- The sample is drawn as asked for exactly when no name is repeated among the candidates, or
fewer are asked for than there are candidates and no more than there are names. -/
theorem samples_iff (cfg : Config) (s : Stats) (r : Reading cfg) :
    Samples cfg s r ↔
      (adaptiveCandidateServices cfg s r.cooled).Nodup ∨
        (cfg.p2cChoices < (adaptiveCandidateServices cfg s r.cooled).length ∧
          cfg.p2cChoices ≤ (adaptiveCandidateServices cfg s r.cooled).dedup.length) := by
  constructor
  · intro h
    obtain ⟨N, sample, hs, hnodup, -⟩ := h id (hitsEach_id _)
    exact names_of_sample hs hnodup
  · exact samples_of_names

end Sample

/-- One service, named three times in the list. -/
def thriceConfig : Config where
  mode := .adaptiveScore
  clusterHeader := bytes "x-envoy-target-cluster"
  serviceList := [bytes "a", bytes "a", bytes "a"]
  rateBelow _ _ := true
  p2cChoices := 2
  globalInflight := false
  globalInflightKeyPrefix := []
  ne_nil := by simp
  p2cChoices_pos := by decide

def thriceReading : Reading thriceConfig where
  random := 0
  order := [bytes "a"]
  less _ _ := false
  cooled _ := true
  draws := []
  order_mem := by decide

/-- The loop looks for two names where there is one, and never ends. -/
theorem thrice_never_ends :
    HitsEach (adaptiveCandidateServices thriceConfig ⟨fun _ => 0, fun _ => 0⟩
      thriceReading.cooled) id ∧
    ∀ N, sampleAdaptiveCandidates thriceConfig ⟨fun _ => 0, fun _ => 0⟩
      (thriceReading.drawing id N) = none := by
  refine ⟨hitsEach_id _, ?_⟩
  intro N
  rw [sampleAdaptiveCandidates_drawing]
  change sampleLoop 2 [bytes "a", bytes "a", bytes "a"] ((List.range N).map id) [] = none
  cases hs : sampleLoop 2 [bytes "a", bytes "a", bytes "a"] ((List.range N).map id) [] with
  | none => rfl
  | some sample =>
      obtain ⟨hchosen, hlen⟩ := choosing_of_sampleLoop (by simp) Choosing.nil hs
      have hle : sample.length ≤ 1 := hchosen.length_le_dedup.trans (by decide)
      omega

end Higress.LoadBalancer.ClusterMetrics
