import Higress.Lib.Sessions
import Higress.LoadBalancer.PrefixCache

/-!
The shared counts of requests (`ai-load-balancer/global_least_request` and
`ai-load-balancer/prefix_cache`). Every gateway sends a script to Redis when it has the body of a
request. The script selects a host, adds one to its count and, from time to time, deletes the
counts of the hosts that are not known any more. The callback of the script overrides the host of
the request, and the end of the stream takes one from the count.

The sessions are the requests of all gateways. A script that was sent runs later or is lost, its
callback runs with the reply or with an error, and the stream may end at any time. A command that
changes a count is executed when it is sent, or is lost. What Redis holds under keys of other types
and the log of the counts are left out.
-/

namespace Higress.LoadBalancer.LeastRequest

open Lib PrefixCache

/-! ### Redis -/

/-- `RedisKeyFormat`. -/
def redisKey (routeName clusterName : GoString) : GoString :=
  bytes "higress:global_least_request_table:" ++ routeName ++ bytes ":" ++ clusterName

/-- `RedisLastCleanKeyFormat`. -/
def redisLastCleanKey (routeName clusterName : GoString) : GoString :=
  bytes "higress:global_least_request_table:last_clean_time:" ++ routeName ++ bytes ":" ++ clusterName

/-- The tables of counts, the times of the last cleanups, and the hosts of prefixes. -/
structure Store where
  tables : GoString → GoString → Option ℤ
  lastClean : GoString → Option ℤ
  strings : GoString → Option GoString

/-- The count of a host; a host without one counts as zero. -/
def Store.count (s : Store) (table host : GoString) : ℤ := (s.tables table host).getD 0

/-- `HINCRBY`. -/
def Store.hIncrBy (s : Store) (table host : GoString) (delta : ℤ) : Store :=
  { s with
    tables := Function.update s.tables table
      (Function.update (s.tables table) host (some (s.count table host + delta))) }

/-- The target, its count and the number of hosts with this count, after some of the hosts. -/
structure Pick where
  currentTarget : GoString
  currentCount : ℤ
  sameCountHits : ℕ

def selectStep (table : GoString → Option ℤ) (random : ℕ → Bool) (pick : Pick)
    (host : GoString × ℕ) : Pick :=
  let count := (table host.1).getD 0
  if pick.sameCountHits = 0 ∨ count < pick.currentCount then ⟨host.1, count, 1⟩
  else if count = pick.currentCount then
    ⟨if random host.2 then host.1 else pick.currentTarget, count, pick.sameCountHits + 1⟩
  else pick

/-- The selection; where the count of a host is the least one so far once more, `random` says
whether it is taken. -/
def select (table : GoString → Option ℤ) (random : ℕ → Bool) (hosts : Hosts) : GoString :=
  (hosts.healthy.zipIdx.foldl (selectStep table random) ⟨hosts.defaultTarget, 0, 0⟩).currentTarget

/-- The cleanup: if it is due, the counts of the hosts that are not current are deleted. -/
def cleanup (seed : ℤ) (hsetKey lastCleanKey : GoString) (cleanInterval : ℤ)
    (currentHosts : List GoString) (s : Store) : Store :=
  let currentTime := seed / 1000000
  let lastCleanTime := (s.lastClean lastCleanKey).getD 0
  if currentTime - lastCleanTime ≥ cleanInterval then
    { s with
      tables := Function.update s.tables hsetKey fun host =>
        if host ∈ currentHosts then s.tables hsetKey host else none
      lastClean := Function.update s.lastClean lastCleanKey (some currentTime) }
  else s

/-- The scripts and their keys. -/
inductive Call where
  | leastRequest (seed : ℤ) (hsetKey lastCleanKey : GoString) (cleanInterval : ℤ) (hosts : Hosts)
      (unhealthy : List GoString)
  | prefixCache (hsetKey : GoString) (hosts : Hosts) (args : List GoString)

def Call.hsetKey : Call → GoString
  | .leastRequest _ hsetKey _ _ _ _ => hsetKey
  | .prefixCache hsetKey _ _ => hsetKey

/-- The reply of a script; a prefix cache has no use for the count. -/
structure Reply where
  host : GoString
  newCount : ℤ

/-- A run of a script; `none` if it raises an error, which that of a prefix cache does for what is
no hash. -/
def Call.run (random : ℕ → Bool) (s : Store) : Call → Option (Store × Reply)
  | .leastRequest seed hsetKey lastCleanKey cleanInterval hosts unhealthy =>
      let target := select (s.tables hsetKey) random hosts
      let s := s.hIncrBy hsetKey target 1
      some (cleanup seed hsetKey lastCleanKey cleanInterval (hosts.healthy ++ unhealthy) s,
        ⟨target, s.count hsetKey target⟩)
  | .prefixCache hsetKey hosts args =>
      (script hosts random args ⟨s.strings, s.tables hsetKey⟩).map fun (target, redis) =>
        ({ s with
            strings := redis.strings
            tables := Function.update s.tables hsetKey redis.counts },
          ⟨target, (redis.counts target).getD 0⟩)

/-! ### Requests -/

/-- `GetUpstreamHosts`: an address, which is not empty, and the health status. -/
structure HostInfo where
  address : GoString
  healthStatus : GoString
  ne_nil : address ≠ []

/-- `healthyHostArray`. -/
def healthyHosts (infos : List HostInfo) : List GoString :=
  (infos.filter fun info => info.healthStatus = bytes "Healthy").map HostInfo.address

theorem nil_notMem_healthyHosts (infos : List HostInfo) : [] ∉ healthyHosts infos := by
  intro h
  obtain ⟨info, -, hinfo⟩ := List.mem_map.1 h
  exact info.ne_nil hinfo

/-- The healthy hosts and one of them, by a random number; `none` if no host is healthy. -/
def hostsOf (infos : List HostInfo) (random : ℕ) : Option Hosts :=
  if h : healthyHosts infos = [] then none
  else some {
    defaultTarget := (healthyHosts infos).get
      ⟨random % (healthyHosts infos).length, Nat.mod_lt _ (List.length_pos_iff.2 h)⟩
    healthy := healthyHosts infos
    default_mem := List.get_mem _ _
    ne_nil := nil_notMem_healthyHosts infos }

/-- A message of the prompt, with what it has of `role` and `content`. -/
structure Message where
  role : Option GoString
  content : Option GoString

/-- The function of `crypto/sha1`. -/
structure Sha1 where
  sum : GoString → List ℕ
  isSum : ∀ s, IsSum (sum s)

def computeSHA1 (sha1 : Sha1) (data : GoString) : GoString := bytesToHex (sha1.sum data)

/-- `params`: the hashes of the messages up to each one of the user, and up to the last one. -/
def promptHashes (sha1 : Sha1) : GoString → List Message → Option (List GoString)
  | _, [] => some []
  | rawStr, message :: messages =>
      message.role.bind fun role => message.content.bind fun content =>
        let rawStr := rawStr ++ (role ++ bytes ":" ++ content)
        if role = bytes "user" ∨ messages = [] then
          (promptHashes sha1 [] messages).map (computeSHA1 sha1 rawStr :: ·)
        else promptHashes sha1 rawStr messages

/-- The policies, with their configurations. -/
inductive Policy where
  | globalLeastRequest (maxRequestCount cleanInterval : ℤ)
  | prefixCache

/-- The keys of the request context that the policies use. -/
structure Context where
  error : Bool := false
  routeName : GoString := []
  clusterName : GoString := []
  hostSelected : GoString := []

def Context.key (ctx : Context) : GoString := redisKey ctx.routeName ctx.clusterName

/-- What `HandleHttpRequestBody` reads: the names and the hosts, or `none` for an error, a random
number, the time, the messages of the body, and whether the script can be sent. -/
structure Body where
  routeName : Option GoString
  clusterName : Option GoString
  hostInfos : Option (List HostInfo)
  random : ℕ
  now : ℤ
  messages : List Message
  sent : Bool

/-- The script of a policy for the hosts, or what becomes of the error flag without one. -/
def Policy.call (sha1 : Sha1) (policy : Policy) (routeName clusterName : GoString)
    (infos : List HostInfo) (body : Body) : Except Bool Call :=
  match policy, hostsOf infos body.random with
  | .globalLeastRequest _ _, none => .error true
  | .globalLeastRequest _ cleanInterval, some hosts =>
      .ok (.leastRequest body.now (redisKey routeName clusterName)
        (redisLastCleanKey routeName clusterName) cleanInterval hosts
        ((infos.map HostInfo.address).filter (· ∉ hosts.healthy)))
  | .prefixCache, none => .error false
  | .prefixCache, some hosts =>
      match promptHashes sha1 [] body.messages with
      | none => .error true
      | some [] => .error false
      | some params => .ok (.prefixCache (redisKey routeName clusterName) hosts params)

/-- `HandleHttpRequestBody` up to the call. -/
def handleHttpRequestBody (sha1 : Sha1) (policy : Policy) (body : Body) (ctx : Context) :
    Context × Option Call :=
  match body.routeName.filter (· ≠ []) with
  | none => ({ ctx with error := true }, none)
  | some routeName =>
      let ctx := { ctx with routeName }
      match body.clusterName.filter (· ≠ []) with
      | none => ({ ctx with error := true }, none)
      | some clusterName =>
          let ctx := { ctx with clusterName }
          match body.hostInfos with
          | none => ({ ctx with error := true }, none)
          | some infos =>
              match policy.call sha1 routeName clusterName infos body with
              | .error isErr => ({ ctx with error := ctx.error || isErr }, none)
              | .ok call =>
                  if body.sent then (ctx, some call) else ({ ctx with error := true }, none)

/-- `checkRateLimit`, without the command that gives the count back. -/
def Policy.exceeded (policy : Policy) (currentCount : ℤ) : Bool :=
  match policy with
  | .globalLeastRequest maxRequestCount _ => 0 < maxRequestCount ∧ maxRequestCount < currentCount
  | .prefixCache => false

/-- The callback for a request that is not rejected: a least request keeps the host only if it
could be overridden. -/
def Policy.override (policy : Policy) (host : GoString) (overridden : Bool) (ctx : Context) :
    Context :=
  match policy, overridden with
  | _, true => { ctx with hostSelected := host }
  | .globalLeastRequest _ _, false => { ctx with error := true }
  | .prefixCache, false => { ctx with error := true, hostSelected := host }

/-- Where the script of a request is: not sent, on its way, run with a reply on its way back, lost,
on its way though the callback has run, or none left. -/
inductive Phase where
  | fresh
  | sent (call : Call)
  | ran (reply : Reply)
  | lost
  | orphan (call : Call)
  | settled

/-- A request. The script that ran for it has selected a host of a table; it may have been rejected
by the rate limit, and its stream may be done. -/
structure Request where
  policy : Policy
  ctx : Context := {}
  phase : Phase := .fresh
  selected : Option (GoString × GoString) := none
  rejected : Bool := false
  done : Bool := false

/-- `HandleHttpStreamDone` takes one from a count. -/
def Context.counts (ctx : Context) : Bool := !ctx.error && ctx.hostSelected ≠ []

/-- What happens to a request: its body arrives, its script runs or is lost, the callback runs with
the reply or with an error, the stream ends. `overridden` says whether the host can be overridden,
and `counted` whether a command that takes one from a count arrives. -/
inductive Happening where
  | body (body : Body)
  | run (random : ℕ → Bool)
  | lose
  | answer (overridden counted : Bool)
  | fail
  | done (counted : Bool)

def Request.fresh (policy : Policy) : Request := { policy }

def handle (sha1 : Sha1) (s : Store) (r : Request) : Happening → Store × Request
  | .body body =>
      match r.phase, r.done with
      | .fresh, false =>
          let (ctx, call) := handleHttpRequestBody sha1 r.policy body r.ctx
          (s, { r with ctx, phase := call.elim .settled .sent })
      | _, _ => (s, r)
  | .run random =>
      match r.phase with
      | .sent call =>
          match call.run random s with
          | none => (s, { r with phase := .lost })
          | some (s, reply) =>
              (s, { r with phase := .ran reply, selected := some (call.hsetKey, reply.host) })
      | .orphan call =>
          match call.run random s with
          | none => (s, { r with phase := .settled })
          | some (s, reply) =>
              (s, { r with phase := .settled, selected := some (call.hsetKey, reply.host) })
      | _ => (s, r)
  | .lose =>
      match r.phase with
      | .sent _ => (s, { r with phase := .lost })
      | .orphan _ => (s, { r with phase := .settled })
      | _ => (s, r)
  | .answer overridden counted =>
      match r.phase with
      | .ran reply =>
          if r.policy.exceeded reply.newCount then
            (if counted then s.hIncrBy r.ctx.key reply.host (-1) else s,
              { r with phase := .settled, rejected := true, ctx := { r.ctx with error := true } })
          else (s, { r with
            phase := .settled, ctx := r.policy.override reply.host overridden r.ctx })
      | _ => (s, r)
  | .fail =>
      let ctx := { r.ctx with error := true }
      match r.phase with
      | .sent call => (s, { r with phase := .orphan call, ctx })
      | .ran _ | .lost => (s, { r with phase := .settled, ctx })
      | _ => (s, r)
  | .done counted =>
      if r.done then (s, r)
      else
        (if r.ctx.counts && counted then s.hIncrBy r.ctx.key r.ctx.hostSelected (-1) else s,
          { r with done := true })

/-! ### What is counted -/

/-- The script has selected a host of a table for the request, which is neither rejected nor
finished. -/
def Request.inFlight (table host : GoString) (r : Request) : Bool :=
  r.selected = some (table, host) && !r.rejected && !r.done

/-- The stream of the request is done, or the request was rejected. -/
def Request.finished (r : Request) : Bool := r.done || r.rejected

def weight (k : GoString × GoString) (r : Request) : ℕ := (r.inFlight k.1 k.2).toNat

def meter (k : GoString × GoString) (s : Store) : ℤ := s.count k.1 k.2

/-- The cleanup of a script deletes the count of a host: it is due, and the host is not current. -/
def Call.Deletes (s : Store) (host : GoString) : Call → Prop
  | .leastRequest seed _ lastCleanKey cleanInterval hosts unhealthy =>
      seed / 1000000 - (s.lastClean lastCleanKey).getD 0 ≥ cleanInterval ∧
        host ∉ hosts.healthy ++ unhealthy
  | .prefixCache _ _ _ => False

/-- The script of the request is on its way, or its reply is. -/
def Request.pending (r : Request) : Bool :=
  match r.phase with
  | .sent _ | .ran _ => true
  | _ => false

/-- What happens to a request goes well: no count of a host with a request in flight is deleted,
the host can be overridden, the callback has no error when the script has run or may still run, the
stream does not end before the callback, and no command is lost. -/
def GoesWell (w : Sessions Store Request) (r : Request) : Happening → Prop
  | .run _ => ∀ call, r.phase = .sent call → ∀ r' ∈ w.all, ∀ host,
      r'.inFlight call.hsetKey host = true → ¬ call.Deletes w.shared host
  | .answer overridden counted => ∀ reply, r.phase = .ran reply →
      if r.policy.exceeded reply.newCount then counted = true else overridden = true
  | .fail => r.pending = false
  | .done counted => r.pending = false ∧ (r.ctx.counts = true → counted = true)
  | _ => True

def WellRun (w : Sessions Store Request) : Sessions.Event Policy Happening → Prop
  | .opened _ => True
  | .act i e => ∀ r, w.all[i]? = some r → GoesWell w r e

/-! ### The scripts -/

@[simp] theorem count_hIncrBy (s : Store) (table host : GoString) (delta : ℤ) (t h : GoString) :
    (s.hIncrBy table host delta).count t h =
      s.count t h + if t = table ∧ h = host then delta else 0 := by
  by_cases ht : t = table
  · subst ht
    by_cases hh : h = host
    · subst hh
      simp [Store.hIncrBy, Store.count]
    · simp [Store.hIncrBy, Store.count, hh]
  · simp [Store.hIncrBy, Store.count, ht]

@[simp] theorem lastClean_hIncrBy (s : Store) (table host : GoString) (delta : ℤ) :
    (s.hIncrBy table host delta).lastClean = s.lastClean := rfl

theorem count_cleanup (seed : ℤ) (hsetKey lastCleanKey : GoString) (cleanInterval : ℤ)
    (current : List GoString) (s : Store) (t h : GoString) :
    (cleanup seed hsetKey lastCleanKey cleanInterval current s).count t h =
      if t = hsetKey ∧ seed / 1000000 - (s.lastClean lastCleanKey).getD 0 ≥ cleanInterval ∧
        h ∉ current then 0 else s.count t h := by
  unfold cleanup
  by_cases hdue : seed / 1000000 - (s.lastClean lastCleanKey).getD 0 ≥ cleanInterval
  · by_cases ht : t = hsetKey
    · subst ht
      by_cases hh : h ∈ current
      · simp [hdue, Store.count, hh]
      · simp [hdue, Store.count, hh]
    · simp [hdue, Store.count, ht]
  · simp [hdue]

theorem select_mem (table : GoString → Option ℤ) (random : ℕ → Bool) (hosts : Hosts) :
    select table random hosts ∈ hosts.healthy := by
  unfold select
  refine List.foldlRecOn (motive := fun pick : Pick => pick.currentTarget ∈ hosts.healthy) _ _
    hosts.default_mem fun pick hpick host hhost => ?_
  have hmem : host.1 ∈ hosts.healthy := List.fst_mem_of_mem_zipIdx hhost
  simp only [selectStep]
  split_ifs
  · exact hmem
  · exact hmem
  · exact hpick
  · exact hpick

/-- The arguments of a script are hashes. -/
def Call.Ok : Call → Prop
  | .leastRequest _ _ _ _ _ _ => True
  | .prefixCache _ _ args => ∀ p ∈ args, IsHash p

/-- A script adds one to the count of the host that it selects, and its cleanup may delete the
counts of others. -/
theorem Call.run_spec (random : ℕ → Bool) (s : Store) {call : Call} (hok : call.Ok) :
    ∃ s' reply, call.run random s = some (s', reply) ∧ reply.host ≠ [] ∧
      ¬ call.Deletes s reply.host ∧
      (∀ h, call.Deletes s h → s'.count call.hsetKey h = 0) ∧
      ∀ t h, ¬ (t = call.hsetKey ∧ call.Deletes s h) →
        s'.count t h = s.count t h + if t = call.hsetKey ∧ h = reply.host then 1 else 0 := by
  cases call with
  | leastRequest seed hsetKey lastCleanKey cleanInterval hosts unhealthy =>
      have hmem := select_mem (s.tables hsetKey) random hosts
      refine ⟨_, _, rfl, fun heq => hosts.ne_nil (heq ▸ hmem), ?_, fun h hdel => ?_,
        fun t h hkeep => ?_⟩
      · simp [Call.Deletes, hmem]
      · rw [count_cleanup, lastClean_hIncrBy]
        exact if_pos ⟨rfl, hdel⟩
      · rw [count_cleanup, lastClean_hIncrBy]
        exact (if_neg hkeep).trans (count_hIncrBy _ _ _ _ _ _)
  | prefixCache hsetKey hosts args =>
      obtain ⟨target, redis, hscript, hmem⟩ :=
        script_mem hosts random ⟨s.strings, s.tables hsetKey⟩ hok
      have hcounts := counts_of_script hscript
      refine ⟨_, _, by simp only [Call.run, hscript, Option.map_some]; rfl,
        fun heq => hosts.ne_nil (heq ▸ hmem), not_false, fun h => False.elim, fun t h _ => ?_⟩
      simp only [Store.count, hcounts, Call.hsetKey]
      by_cases ht : t = hsetKey
      · subst ht
        by_cases hh : h = target
        · subst hh
          simp
        · simp [hh]
      · simp [ht]

/-! ### One request -/

theorem isHash_of_mem_promptHashes {sha1 : Sha1} {rawStr : GoString} {messages : List Message}
    {params : List GoString} (h : promptHashes sha1 rawStr messages = some params) :
    ∀ p ∈ params, IsHash p := by
  induction messages generalizing rawStr params with
  | nil =>
      obtain rfl : params = [] := by simpa [promptHashes] using h.symm
      simp
  | cons message messages ih =>
      simp only [promptHashes, Option.bind_eq_some_iff] at h
      obtain ⟨role, -, content, -, h⟩ := h
      split at h
      · obtain ⟨params', hparams', rfl⟩ := Option.map_eq_some_iff.1 h
        intro p hp
        rcases List.mem_cons.1 hp with rfl | hp
        · exact ⟨_, sha1.isSum _, rfl⟩
        · exact ih hparams' p hp
      · exact ih h

theorem Policy.call_spec {sha1 : Sha1} {policy : Policy} {routeName clusterName : GoString}
    {infos : List HostInfo} {body : Body} {call : Call}
    (h : policy.call sha1 routeName clusterName infos body = .ok call) :
    call.Ok ∧ call.hsetKey = redisKey routeName clusterName := by
  unfold Policy.call at h
  split at h
  · cases h
  · cases h
    exact ⟨trivial, rfl⟩
  · cases h
  · split at h
    · cases h
    · cases h
    · rename_i hparams
      cases h
      exact ⟨isHash_of_mem_promptHashes hparams, rfl⟩

/-- The body of a request gives a script for the table of the context, and no host yet. -/
theorem handleHttpRequestBody_spec {sha1 : Sha1} {policy : Policy} {body : Body} {ctx : Context}
    {call : Option Call} (h : handleHttpRequestBody sha1 policy body {} = (ctx, call)) :
    ctx.hostSelected = [] ∧
      ∀ c ∈ call, ctx.error = false ∧ c.Ok ∧ c.hsetKey = ctx.key := by
  unfold handleHttpRequestBody at h
  split at h
  · cases h
    simp
  · dsimp only at h
    split at h
    · cases h
      simp
    · split at h
      · cases h
        simp
      · split at h
        · cases h
          simp
        · rename_i hcall
          split at h
          · cases h
            obtain ⟨hok, hkey⟩ := Policy.call_spec hcall
            exact ⟨rfl, fun c hc => by cases hc; exact ⟨rfl, hok, hkey⟩⟩
          · cases h
            simp

/-- A request between two events, if all goes well: where its script is, and what its context says
about the host that was selected. -/
def Request.Ok (r : Request) : Prop :=
  match r.phase with
  | .fresh => r.selected = none ∧ r.rejected = false ∧ r.ctx = {}
  | .sent call => r.selected = none ∧ r.rejected = false ∧ r.done = false ∧ r.ctx.error = false ∧
      call.Ok ∧ call.hsetKey = r.ctx.key ∧ r.ctx.hostSelected = []
  | .ran reply => r.selected = some (r.ctx.key, reply.host) ∧ r.rejected = false ∧
      r.done = false ∧ r.ctx.error = false ∧ reply.host ≠ []
  | .lost => r.selected = none ∧ r.ctx.hostSelected = []
  | .orphan _ => False
  | .settled =>
      r.ctx.counts = true ∧ r.selected = some (r.ctx.key, r.ctx.hostSelected) ∧ r.rejected = false ∨
        r.ctx.counts = false ∧ (r.selected = none ∨ r.rejected = true)

/-- What happens to a request keeps it well, and changes each count as the request. -/
def Keeps (s : Store) (r : Request) (p : Store × Request) : Prop :=
  p.2.Ok ∧ ∀ k, meter k p.1 + weight k r = meter k s + weight k p.2

theorem Keeps.refl {s : Store} {r : Request} (h : r.Ok) : Keeps s r (s, r) := ⟨h, fun _ => rfl⟩

/-- A request that is not in flight before and after. -/
theorem Keeps.of_selected {s : Store} {r r' : Request} (h : r'.Ok) (hr : r.selected = none)
    (hr' : r'.selected = none) : Keeps s r (s, r') :=
  ⟨h, fun k => by simp [weight, Request.inFlight, hr, hr']⟩

theorem keeps_body (sha1 : Sha1) (s : Store) {r : Request} (h : r.Ok) (body : Body) :
    Keeps s r (handle sha1 s r (.body body)) := by
  simp only [handle]
  split
  · rename_i hphase hdone
    simp only [Request.Ok, hphase] at h
    obtain ⟨hsel, hrej, hctx⟩ := h
    cases hbody : handleHttpRequestBody sha1 r.policy body r.ctx with
    | mk ctx call =>
        rw [hctx] at hbody
        obtain ⟨hhost, hcall⟩ := handleHttpRequestBody_spec hbody
        refine Keeps.of_selected ?_ hsel hsel
        cases call with
        | none => exact .inr ⟨by simp [Context.counts, hhost], .inl hsel⟩
        | some call =>
            obtain ⟨herr, hok, hkey⟩ := hcall call rfl
            exact ⟨hsel, hrej, hdone, herr, hok, hkey, hhost⟩
  · exact Keeps.refl h

theorem keeps_lose (sha1 : Sha1) (s : Store) {r : Request} (h : r.Ok) :
    Keeps s r (handle sha1 s r .lose) := by
  simp only [handle]
  split
  · rename_i call hphase
    simp only [Request.Ok, hphase] at h
    exact Keeps.of_selected ⟨h.1, h.2.2.2.2.2.2⟩ h.1 h.1
  · rename_i call hphase
    simp only [Request.Ok, hphase] at h
  · exact Keeps.refl h

theorem keeps_fail (sha1 : Sha1) (s : Store) {r : Request} (h : r.Ok) (hp : r.pending = false) :
    Keeps s r (handle sha1 s r .fail) := by
  simp only [handle]
  split
  · rename_i call hphase
    simp [Request.pending, hphase] at hp
  · rename_i reply hphase
    simp [Request.pending, hphase] at hp
  · rename_i hphase
    simp only [Request.Ok, hphase] at h
    exact Keeps.of_selected (.inr ⟨by simp [Context.counts], .inl h.1⟩) h.1 h.1
  · exact Keeps.refl h

theorem keeps_answer (sha1 : Sha1) (s : Store) {r : Request} (h : r.Ok) {overridden counted : Bool}
    (hw : ∀ reply, r.phase = .ran reply →
      if r.policy.exceeded reply.newCount then counted = true else overridden = true) :
    Keeps s r (handle sha1 s r (.answer overridden counted)) := by
  simp only [handle]
  split
  · rename_i reply hphase
    have hwell := hw reply hphase
    simp only [Request.Ok, hphase] at h
    obtain ⟨hsel, hrej, hdone, herr, hhost⟩ := h
    split
    · -- the rate limit takes back what the script has added
      rename_i hexceeded
      obtain rfl : counted = true := by simpa [hexceeded] using hwell
      refine ⟨.inr ⟨by simp [Context.counts], .inr rfl⟩, fun k => ?_⟩
      obtain ⟨table, host⟩ := k
      by_cases hk : table = r.ctx.key ∧ host = reply.host
      · obtain ⟨rfl, rfl⟩ := hk
        simp [meter, weight, Request.inFlight, hsel, hrej, hdone]
      · have hk' : ¬ (r.ctx.key = table ∧ reply.host = host) := fun h => hk ⟨h.1.symm, h.2.symm⟩
        simp [meter, weight, Request.inFlight, hsel, hk, hk']
    · rename_i hexceeded
      obtain rfl : overridden = true := by simpa [hexceeded] using hwell
      refine ⟨.inl ⟨by simp [Policy.override, Context.counts, herr, hhost], ?_, hrej⟩, fun k => ?_⟩
      · simpa [Policy.override, Context.key] using hsel
      · rfl
  · exact Keeps.refl h

theorem keeps_done (sha1 : Sha1) (s : Store) {r : Request} (h : r.Ok) {counted : Bool}
    (hp : r.pending = false) (hc : r.ctx.counts = true → counted = true) :
    Keeps s r (handle sha1 s r (.done counted)) := by
  simp only [handle]
  split
  · exact Keeps.refl h
  · rename_i hdone
    have hdone' : r.done = false := by simpa using hdone
    -- the context counts if and only if the request is in flight
    have hcases : r.ctx.counts = true ∧ r.selected = some (r.ctx.key, r.ctx.hostSelected) ∧
        r.rejected = false ∨ r.ctx.counts = false ∧ (r.selected = none ∨ r.rejected = true) := by
      cases hphase : r.phase with
      | fresh =>
          simp only [Request.Ok, hphase] at h
          exact .inr ⟨by simp [h.2.2, Context.counts], .inl h.1⟩
      | sent call => simp [Request.pending, hphase] at hp
      | ran reply => simp [Request.pending, hphase] at hp
      | lost =>
          simp only [Request.Ok, hphase] at h
          exact .inr ⟨by simp [h.2, Context.counts], .inl h.1⟩
      | orphan call => simp [Request.Ok, hphase] at h
      | settled => simpa only [Request.Ok, hphase] using h
    have hok : ({ r with done := true } : Request).Ok := by
      cases hphase : r.phase with
      | sent call => simp [Request.pending, hphase] at hp
      | ran reply => simp [Request.pending, hphase] at hp
      | orphan call => simp [Request.Ok, hphase] at h
      | fresh | lost | settled => simpa [Request.Ok, hphase] using h
    refine ⟨hok, fun k => ?_⟩
    obtain ⟨table, host⟩ := k
    rcases hcases with ⟨hcounts, hsel, hrej⟩ | ⟨hcounts, hnone⟩
    · obtain rfl := hc hcounts
      by_cases hk : table = r.ctx.key ∧ host = r.ctx.hostSelected
      · obtain ⟨rfl, rfl⟩ := hk
        simp [meter, weight, Request.inFlight, hsel, hrej, hdone', hcounts]
      · have hk' : ¬ (r.ctx.key = table ∧ r.ctx.hostSelected = host) :=
          fun h => hk ⟨h.1.symm, h.2.symm⟩
        simp [meter, weight, Request.inFlight, hsel, hk, hk', hcounts]
    · rcases hnone with hsel | hrej
      · simp [meter, weight, Request.inFlight, hsel, hcounts]
      · simp [meter, weight, Request.inFlight, hrej, hcounts]

theorem keeps_run (sha1 : Sha1) {w : Sessions Store Request}
    (hw : Sessions.Metered Request.Ok weight meter w) {r : Request} (h : r.Ok)
    {random : ℕ → Bool} (hwell : GoesWell w r (.run random)) :
    Keeps w.shared r (handle sha1 w.shared r (.run random)) := by
  simp only [handle]
  split
  · rename_i call hphase
    simp only [Request.Ok, hphase] at h
    obtain ⟨hsel, hrej, hdone, herr, hok, hkey, hhost⟩ := h
    obtain ⟨s', reply, hrun, hne, hkept, hdel, hcount⟩ := Call.run_spec random w.shared hok
    rw [hrun]
    refine ⟨⟨by simp [hkey], hrej, hdone, herr, hne⟩, fun k => ?_⟩
    obtain ⟨table, host⟩ := k
    by_cases hd : table = call.hsetKey ∧ call.Deletes w.shared host
    · -- no request of the host is in flight, so that its count was zero before
      obtain ⟨rfl, hd⟩ := hd
      have hnone : ∀ r' ∈ w.all, weight (call.hsetKey, host) r' = 0 := by
        intro r' hr'
        have hnot : r'.inFlight call.hsetKey host ≠ true := fun hin =>
          hwell call hphase r' hr' host hin hd
        simp [weight, Bool.eq_false_iff.2 hnot]
      have hzero : w.shared.count call.hsetKey host = 0 := by
        have heq := hw.meter_eq (call.hsetKey, host)
        rw [Sessions.total_eq_zero hnone] at heq
        exact heq
      have hother : reply.host ≠ host := fun heq => hkept (heq ▸ hd)
      simp [meter, hdel host hd, hzero, weight, Request.inFlight, hsel, hother]
    · have heq := hcount table host hd
      by_cases hk : table = call.hsetKey ∧ host = reply.host
      · obtain ⟨rfl, rfl⟩ := hk
        simp only [and_self, if_true] at heq
        simp [meter, heq, weight, Request.inFlight, hsel, hrej, hdone]
      · have hk' : ¬ (call.hsetKey = table ∧ reply.host = host) :=
          fun h => hk ⟨h.1.symm, h.2.symm⟩
        rw [if_neg hk, add_zero] at heq
        simp [meter, heq, weight, Request.inFlight, hsel, hk']
  · rename_i call hphase
    simp [Request.Ok, hphase] at h
  · exact Keeps.refl h

/-- Whatever happens to a request, if it goes well. -/
theorem keeps_handle (sha1 : Sha1) {w : Sessions Store Request}
    (hw : Sessions.Metered Request.Ok weight meter w) {r : Request} (h : r.Ok) {e : Happening}
    (hwell : GoesWell w r e) : Keeps w.shared r (handle sha1 w.shared r e) := by
  cases e with
  | body body => exact keeps_body sha1 w.shared h body
  | run random => exact keeps_run sha1 hw h hwell
  | lose => exact keeps_lose sha1 w.shared h
  | answer overridden counted => exact keeps_answer sha1 w.shared h hwell
  | fail => exact keeps_fail sha1 w.shared h hwell
  | done counted => exact keeps_done sha1 w.shared h hwell.1 hwell.2

/-! ### Runs -/

/-- From counts that are zero, a run in which all goes well keeps the meters. -/
theorem metered_run (sha1 : Sha1) {s : Store} (hs : ∀ table host, s.count table host = 0)
    {events : List (Sessions.Event Policy Happening)}
    (hwell : Sessions.Along Request.fresh (handle sha1) WellRun ⟨s, []⟩ events) :
    Sessions.Metered Request.Ok weight meter
      (Sessions.run Request.fresh (handle sha1) ⟨s, []⟩ events) := by
  have hfresh (policy : Policy) :
      (Request.fresh policy).Ok ∧ ∀ k, weight k (Request.fresh policy) = 0 :=
    ⟨⟨rfl, rfl, rfl⟩, fun k => by simp [weight, Request.inFlight, Request.fresh]⟩
  have hinit : Sessions.Metered Request.Ok weight meter ⟨s, []⟩ :=
    ⟨by simp, fun k => by simp [meter, hs, Sessions.total]⟩
  exact Sessions.run_of_step (fun w e hw hc => hw.step (C := WellRun) hfresh
    (fun w i r e hw hr hc => keeps_handle sha1 hw (hw.ok r (List.mem_of_getElem? hr)) (hc r hr)) hc)
    hinit hwell

/-- The counts are conserved: in every run in which all goes well, from counts that are zero, the
count of a host is the number of the requests in flight that were selected for it. It is not
negative, and zero once all requests are finished. -/
theorem count_eq_inFlight (sha1 : Sha1) (s : Store) (hs : ∀ table host, s.count table host = 0)
    (events : List (Sessions.Event Policy Happening))
    (hwell : Sessions.Along Request.fresh (handle sha1) WellRun ⟨s, []⟩ events)
    (table host : GoString) :
    let w := Sessions.run Request.fresh (handle sha1) ⟨s, []⟩ events
    w.shared.count table host = w.all.countP (Request.inFlight table host) ∧
      0 ≤ w.shared.count table host ∧
      ((∀ r ∈ w.all, r.finished = true) → w.shared.count table host = 0) := by
  intro w
  have hcount : w.shared.count table host = w.all.countP (Request.inFlight table host) := by
    have hmeter := (metered_run sha1 hs hwell).meter_eq (table, host)
    have htotal := Sessions.total_eq_countP (fun k : GoString × GoString => Request.inFlight k.1 k.2)
      (table, host) w
    rw [← htotal]
    exact hmeter
  refine ⟨hcount, by omega, fun hall => ?_⟩
  have hnone : w.all.countP (Request.inFlight table host) = 0 := by
    rw [List.countP_eq_zero]
    intro r hr hin
    have hfin := hall r hr
    simp only [Request.inFlight, Request.finished, Bool.and_eq_true, Bool.or_eq_true,
      Bool.not_eq_true'] at hin hfin
    rcases hfin with hdone | hrej
    · simp [hdone] at hin
    · simp [hrej] at hin
  rw [hcount, hnone]
  rfl

/-- A store without counts. -/
def emptyStore : Store := ⟨fun _ _ => none, fun _ => none, fun _ => none⟩

/-- Sums that no script below asks for. -/
def zeroSha1 : Sha1 := ⟨fun _ => List.replicate 20 0, fun _ => ⟨by simp, by simp⟩⟩

/-- A request of the route `r` and the cluster `c`, with the healthy host `h`. -/
def plainBody : Body where
  routeName := some [114]
  clusterName := some [99]
  hostInfos := some [⟨[104], bytes "Healthy", by simp⟩]
  random := 0
  now := 0
  messages := []
  sent := true

/-- A request from its body to its end; the host can be overridden or not. -/
def plainEvents (overridden : Bool) : List (Sessions.Event Policy Happening) :=
  [.opened (.globalLeastRequest 0 3600), .act 0 (.body plainBody), .act 0 (.run fun _ => false),
    .act 0 (.answer overridden true), .act 0 (.done true)]

theorem count_eq_inFlight_plain :
    (Sessions.run Request.fresh (handle zeroSha1) ⟨emptyStore, []⟩
      (plainEvents true)).shared.count (redisKey [114] [99]) [104] = 0 := by
  have hwell : Sessions.Along Request.fresh (handle zeroSha1) WellRun ⟨emptyStore, []⟩
      (plainEvents true) := by
    refine ⟨trivial, fun _ _ => trivial, ?_, ?_, ?_, trivial⟩
    · intro r hr call hcall r' hr' host hin
      have hnone : ∀ r' ∈ (Sessions.run Request.fresh (handle zeroSha1) ⟨emptyStore, []⟩
          ((plainEvents true).take 2)).all, r'.selected = none := by decide
      have hsel := hnone r' hr'
      simp [Request.inFlight, hsel] at hin
    · intro r hr reply hreply
      split <;> rfl
    · intro r hr
      have hsettled : ∀ r' ∈ (Sessions.run Request.fresh (handle zeroSha1) ⟨emptyStore, []⟩
          ((plainEvents true).take 4)).all, r'.pending = false := by decide
      exact ⟨hsettled r (List.mem_of_getElem? hr), fun _ => rfl⟩
  exact (count_eq_inFlight zeroSha1 emptyStore (fun _ _ => rfl) (plainEvents true) hwell _ _).2.2
    (by decide)

/-- If the host cannot be overridden, the count is not taken back. -/
theorem count_not_conserved :
    let w := Sessions.run Request.fresh (handle zeroSha1) ⟨emptyStore, []⟩ (plainEvents false)
    (∀ r ∈ w.all, r.finished = true) ∧
      w.all.countP (Request.inFlight (redisKey [114] [99]) [104]) = 0 ∧
      w.shared.count (redisKey [114] [99]) [104] = 1 := by
  decide

end Higress.LoadBalancer.LeastRequest
