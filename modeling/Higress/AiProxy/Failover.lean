import Mathlib.Data.Int.Notation
import Mathlib.Data.List.Nodup
import Higress.Lib.GoString
import Higress.Lib.SharedData

/-!
The failover of api tokens (`ai-proxy/provider/failover.go`). All VMs share two lists, of the
tokens that are available and of those that are not, the counts of failed requests and of
successful health checks, and the times at which tokens became unavailable. Every update is a
loop of attempts with compare and swap, so that a token goes from one list to the other in two
updates and others may run between them.

The lists and maps stand for their JSON texts. The lease that decides which VM runs the health
checks and the endpoint that they call are left out: a tick here is one of the VM that has the
lease, and no update of a token reads either.
-/

namespace Higress.AiProxy.Failover

open Lib Lib.SharedData

abbrev ApiToken := GoString

/-- The settings of `ProviderConfig` and its `failover` that the code below reads. -/
structure ProviderConfig where
  apiTokens : List ApiToken
  failureThreshold : ℤ
  successThreshold : ℤ
  cooldownDuration : ℤ
  healthCheckModel : GoString

inductive ListKey
  | apiTokens
  | unavailableApiTokens
  deriving DecidableEq

inductive MapKey
  | apiTokenRequestFailureCount
  | apiTokenRequestSuccessCount
  | apiTokenUnavailableSince
  deriving DecidableEq

inductive Key
  | list (k : ListKey)
  | map (k : MapKey)
  deriving DecidableEq

abbrev Value : Key → Type
  | .list _ => List ApiToken
  | .map _ => ApiToken → Option ℤ

/-! ### Updates of the shared data -/

def casMaxRetries : ℕ := 10

/-- `removeElement`: the loop goes back one place after each element that it removes. -/
def removeElement (slice : List ApiToken) (s : ApiToken) : List ApiToken :=
  slice.filter (· ≠ s)

/-- `getApiTokens`; a key that is not there is an empty list. -/
def getApiTokens (key : ListKey) : Prog Value (List ApiToken) := do
  let cell ← Prog.read (.list key)
  return (cell.map Prod.fst).getD []

inductive Operation
  | add
  | remove

def modifyApiToken (key : ListKey) (apiToken : ApiToken) (op : Operation) : Prog Value Outcome :=
  Prog.retry (.list key) (fun data =>
    let apiTokens : List ApiToken := data.getD []
    match op with
    | .add => if apiToken ∈ apiTokens then .stop else .put (apiTokens ++ [apiToken])
    | .remove =>
        if apiToken ∈ apiTokens then .put (removeElement apiTokens apiToken) else .stop)
    casMaxRetries

def addApiToken (key : ListKey) (apiToken : ApiToken) : Prog Value Outcome :=
  modifyApiToken key apiToken .add

def removeApiToken (key : ListKey) (apiToken : ApiToken) : Prog Value Outcome :=
  modifyApiToken key apiToken .remove

/-- `getApiTokenRequestCount` and `getApiTokenUnavailableSince`. -/
def getApiTokenMap (key : MapKey) : Prog Value (ApiToken → Option ℤ) := do
  let cell ← Prog.read (.map key)
  return (cell.map Prod.fst).getD fun _ => none

inductive CountOperation
  | addCount
  | resetCount

def modifyApiTokenRequestCount (key : MapKey) (apiToken : ApiToken) (op : CountOperation) :
    Prog Value Outcome :=
  Prog.retry (.map key) (fun data =>
    let count : ApiToken → Option ℤ := data.getD fun _ => none
    match op with
    | .resetCount => .put (Function.update count apiToken none)
    | .addCount => .put (Function.update count apiToken (some ((count apiToken).getD 0 + 1))))
    casMaxRetries

def addApiTokenRequestCount (key : MapKey) (apiToken : ApiToken) : Prog Value Outcome :=
  modifyApiTokenRequestCount key apiToken .addCount

def resetApiTokenRequestCount (key : MapKey) (apiToken : ApiToken) : Prog Value Outcome :=
  modifyApiTokenRequestCount key apiToken .resetCount

def setApiTokenUnavailableSince (apiToken : ApiToken) (timestamp : ℤ) : Prog Value Outcome :=
  Prog.retry (.map .apiTokenUnavailableSince) (fun data =>
    let timestamps : ApiToken → Option ℤ := data.getD fun _ => none
    .put (Function.update timestamps apiToken (some timestamp)))
    casMaxRetries

def removeApiTokenUnavailableSince (apiToken : ApiToken) : Prog Value Outcome :=
  Prog.retry (.map .apiTokenUnavailableSince) (fun data =>
    let timestamps : ApiToken → Option ℤ := data.getD fun _ => none
    if timestamps apiToken = none then .stop
    else .put (Function.update timestamps apiToken none))
    casMaxRetries

/-! ### The handlers -/

/-- What a handler did: how its updates ended, and the tokens that it sends a health check for. -/
structure Done where
  outcomes : List Outcome
  probes : List ApiToken

variable (c : ProviderConfig)

def handleAvailableApiToken (apiToken : ApiToken) : Prog Value Done := do
  let successApiTokenRequestCount ← getApiTokenMap .apiTokenRequestSuccessCount
  let successCount := (successApiTokenRequestCount apiToken).getD 0 + 1
  if successCount ≥ c.successThreshold then
    let removed ← removeApiToken .unavailableApiTokens apiToken
    let added ← addApiToken .apiTokens apiToken
    let reset ← resetApiTokenRequestCount .apiTokenRequestSuccessCount apiToken
    return ⟨[removed, added, reset], []⟩
  else
    let counted ← addApiTokenRequestCount .apiTokenRequestSuccessCount apiToken
    return ⟨[counted], []⟩

def handleUnavailableApiToken (apiToken : ApiToken) : Prog Value Done := do
  let failureApiTokenRequestCount ← getApiTokenMap .apiTokenRequestFailureCount
  let availableTokens ← getApiTokens .apiTokens
  if apiToken ∉ availableTokens then
    return ⟨[], []⟩
  else
    let failureCount := (failureApiTokenRequestCount apiToken).getD 0 + 1
    if failureCount ≥ c.failureThreshold then
      let removed ← removeApiToken .apiTokens apiToken
      let added ← addApiToken .unavailableApiTokens apiToken
      let reset ← resetApiTokenRequestCount .apiTokenRequestFailureCount apiToken
      if c.cooldownDuration > 0 then
        let now ← Prog.time
        let marked ← setApiTokenUnavailableSince apiToken now
        return ⟨[removed, added, reset, marked], []⟩
      else
        return ⟨[removed, added, reset], []⟩
    else
      let counted ← addApiTokenRequestCount .apiTokenRequestFailureCount apiToken
      return ⟨[counted], []⟩

/-- `ResetApiTokenRequestFailureCount`, after a request that succeeded. -/
def resetApiTokenRequestFailureCount (apiToken : ApiToken) : Prog Value Done := do
  let failureApiTokenRequestCount ← getApiTokenMap .apiTokenRequestFailureCount
  if failureApiTokenRequestCount apiToken = none then
    return ⟨[], []⟩
  else
    let reset ← resetApiTokenRequestCount .apiTokenRequestFailureCount apiToken
    return ⟨[reset], []⟩

/-- The cooldown of a token has elapsed. -/
def Cooled (timestamps : ApiToken → Option ℤ) (now : ℤ) (apiToken : ApiToken) : Prop :=
  ∃ since ∈ timestamps apiToken, now - since ≥ c.cooldownDuration

instance (timestamps : ApiToken → Option ℤ) (now : ℤ) (apiToken : ApiToken) :
    Decidable (Cooled c timestamps now apiToken) :=
  inferInstanceAs (Decidable (∃ since ∈ timestamps apiToken, _))

/-- The loop of the cooldown recovery, with `recoveredTokens`. -/
def recoverTokens (timestamps : ApiToken → Option ℤ) (now : ℤ) :
    List ApiToken → Prog Value (List Outcome × List ApiToken)
  | [] => return ([], [])
  | apiToken :: unavailableTokens =>
      if Cooled c timestamps now apiToken then do
        let removed ← removeApiToken .unavailableApiTokens apiToken
        let added ← addApiToken .apiTokens apiToken
        let unmarked ← removeApiTokenUnavailableSince apiToken
        let reset ← resetApiTokenRequestCount .apiTokenRequestFailureCount apiToken
        let rest ← recoverTokens timestamps now unavailableTokens
        return ([removed, added, unmarked, reset] ++ rest.1, apiToken :: rest.2)
      else
        recoverTokens timestamps now unavailableTokens

/-- The cooldown recovery of a tick. -/
def cooldownRecovery (unavailableTokens : List ApiToken) :
    Prog Value (List Outcome × List ApiToken) :=
  if c.cooldownDuration > 0 then do
    let timestamps ← getApiTokenMap .apiTokenUnavailableSince
    let now ← Prog.time
    recoverTokens c timestamps now unavailableTokens
  else
    return ([], [])

/-- The tick function of `SetApiTokensFailover`. The health checks are sent to the tokens that
are not recovered. -/
def healthCheckTick : Prog Value Done := do
  let unavailableTokens ← getApiTokens .unavailableApiTokens
  if unavailableTokens = [] then
    return ⟨[], []⟩
  else
    let recovered ← cooldownRecovery c unavailableTokens
    let unavailableTokens := recovered.2.foldl removeElement unavailableTokens
    return ⟨recovered.1, if c.healthCheckModel = [] then [] else unavailableTokens⟩

/-- `resetSharedData`: the version 0 overwrites. -/
def resetSharedData : Prog Value Unit := do
  let _ ← Prog.write (.list .apiTokens) [] 0
  let _ ← Prog.write (.list .unavailableApiTokens) [] 0
  let _ ← Prog.write (.map .apiTokenRequestSuccessCount) (fun _ => none) 0
  let _ ← Prog.write (.map .apiTokenRequestFailureCount) (fun _ => none) 0
  let _ ← Prog.write (.map .apiTokenUnavailableSince) (fun _ => none) 0

def initApiTokens : Prog Value Bool := do
  let cell ← Prog.read (.list .apiTokens)
  Prog.write (.list .apiTokens) c.apiTokens ((cell.map Prod.snd).getD 0)

/-- `SetApiTokensFailover`: the shared data after a configuration is loaded, whatever was there. -/
def setApiTokensFailover (s : Store Value) : Store Value :=
  ((do resetSharedData; initApiTokens c : Prog Value Bool).exec 0 s).2

/-! ### Any interleaving -/

/-- What the VMs run. -/
inductive Op
  | unavailable (apiToken : ApiToken)
  | available (apiToken : ApiToken)
  | succeeded (apiToken : ApiToken)
  | tick

def code : Op → Prog Value Done
  | .unavailable apiToken => handleUnavailableApiToken c apiToken
  | .available apiToken => handleAvailableApiToken c apiToken
  | .succeeded apiToken => resetApiTokenRequestFailureCount apiToken
  | .tick => healthCheckTick c

/-- Both lists are there and have no token twice. -/
def ListsOk (s : Store Value) : Prop :=
  ∀ key : ListKey, ∃ (l : List ApiToken) (cas : ℕ),
    s (.list key) = some (l, cas) ∧ cas ≠ 0 ∧ l.Nodup

/-- A token is in one of the lists. -/
def Listed (s : Store Value) (t : ApiToken) : Prop :=
  ∃ (key : ListKey) (l : List ApiToken) (cas : ℕ), s (.list key) = some (l, cas) ∧ t ∈ l

/-- The invariant for a token of the configuration: it is listed, or a handler that has taken it from a list has still
to add it to the other one. -/
def Conserved (t : ApiToken) (sh : Shared Value Op) (owed : List Bool) : Prop :=
  ListsOk sh.store ∧ (t ∈ c.apiTokens → Listed sh.store t ∨ true ∈ owed)

/-- A handler that has completed its updates owes nothing. -/
def Settled (_ : Op) (_ : List (Fact Value)) (_ : ℕ) (r : Done) (owes : Bool) : Prop :=
  .exhausted ∉ r.outcomes → owes = false

section Conserved

variable {c} {t : ApiToken} {op : Op}

theorem listsOk_put {s : Store Value} (h : ListsOk s) (key : ListKey) {l : List ApiToken}
    (hl : l.Nodup) : ListsOk (s.put (.list key) l) := by
  intro key'
  by_cases hkey : key' = key
  · subst hkey
    exact ⟨l, _, by rw [Store.put_self], by omega, hl⟩
  · obtain ⟨l', cas, hget, hcas, hnodup⟩ := h key'
    exact ⟨l', cas, by rw [Store.put_of_ne (by simpa using hkey), hget], hcas, hnodup⟩

theorem listed_put_of_mem {s : Store Value} (key : ListKey) {l : List ApiToken} (ht : t ∈ l) :
    Listed (s.put (.list key) l) t :=
  ⟨key, l, _, by rw [Store.put_self], ht⟩

/-- A token stays listed if an update of a list keeps it. -/
theorem listed_put {s : Store Value} (h : Listed s t) {key : ListKey} {v l : List ApiToken}
    {cas : ℕ} (hget : s (.list key) = some (v, cas)) (hkeep : t ∈ v → t ∈ l) :
    Listed (s.put (.list key) l) t := by
  obtain ⟨key', l', cas', hget', ht⟩ := h
  by_cases hkey : key' = key
  · subst hkey
    rw [hget] at hget'
    obtain ⟨rfl, -⟩ : v = l' ∧ cas = cas' := by simpa using hget'
    exact listed_put_of_mem key' (hkeep ht)
  · exact ⟨key', l', cas', by rw [Store.put_of_ne (by simpa using hkey), hget'], ht⟩

/-- No handler looks at what the maps hold when it moves a token. -/
theorem conserved_write_map (sh : Shared Value Op) (owed : List Bool) (key : MapKey)
    (v : ApiToken → Option ℤ) (h : Conserved c t sh owed) :
    Conserved c t (sh.write op (.map key) v) owed := by
  have hsame : ∀ k, (sh.store.put (.map key) v) (.list k) = sh.store (.list k) :=
    fun k => Store.put_of_ne (show Key.list k ≠ Key.map key by simp) v
  refine ⟨fun k => ?_, fun ht => (h.2 ht).imp_left ?_⟩
  · obtain ⟨l, cas, hget, hl⟩ := h.1 k
    exact ⟨l, cas, (hsame k).trans hget, hl⟩
  · rintro ⟨k, l, cas, hget, hl⟩
    exact ⟨k, l, cas, (hsame k).trans hget, hl⟩

/-- A map is written. -/
def IsMap : Key → Prop
  | .list _ => False
  | .map _ => True

theorem conserved_keeps {ρ : Type} {p : Prog Value ρ} (hp : p.WritesIn IsMap)
    (known : List (Fact Value)) (past : ℕ) (owes : Bool) :
    p.Keeps (Conserved c t) op (fun _ _ _ owes' => owes' = owes) known past owes := by
  apply hp.keeps
  intro sh owed k v hk h
  cases k with
  | list key => exact hk.elim
  | map key => exact conserved_write_map sh owed key v h

theorem conserved_cell (key : ListKey) (sh : Shared Value Op) (owed : List Bool)
    (h : Conserved c t sh owed) :
    ∃ (l : List ApiToken) (cas : ℕ), sh.store (.list key) = some (l, cas) ∧ cas ≠ 0 := by
  obtain ⟨l, cas, hget, hcas, -⟩ := h.1 key
  exact ⟨l, cas, hget, hcas⟩

/-- A list is written that keeps the token, or by a handler that then owes it. -/
theorem Conserved.write {sh : Shared Value Op} {gs hs : List Bool} {owes owes' : Bool}
    {key : ListKey} {v l : List ApiToken} {cas : ℕ} (h : Conserved c t sh (gs ++ owes :: hs))
    (hget : sh.store (.list key) = some (v, cas)) (hl : v.Nodup → l.Nodup)
    (hkeep : owes' = true ∨ (t ∈ v → t ∈ l) ∧ (owes' = owes ∨ t ∈ l)) :
    Conserved c t (sh.write op (.list key) l) (gs ++ owes' :: hs) := by
  obtain ⟨l', cas', hget', -, hnodup⟩ := h.1 key
  rw [hget] at hget'
  obtain ⟨rfl, -⟩ : v = l' ∧ cas = cas' := by simpa using hget'
  refine ⟨listsOk_put h.1 key (hl hnodup), ?_⟩
  intro hconfigured
  rcases hkeep with rfl | ⟨hkeep, rfl | ht⟩
  · exact .inr (by simp)
  · exact (h.2 hconfigured).imp_left fun hlisted => listed_put hlisted hget hkeep
  · exact .inl (listed_put_of_mem key ht)

/-- To take a token from a list is to owe it, if it is this one. -/
theorem keeps_removeApiToken (key : ListKey) (apiToken : ApiToken) (known : List (Fact Value))
    (past : ℕ) (owes : Bool) :
    (removeApiToken key apiToken).Keeps (Conserved c t) op
      (fun _ _ _ owes' => apiToken ≠ t → owes' = owes) known past owes := by
  apply Prog.Keeps.retry (fun _ owes' => apiToken ≠ t → owes' = owes) (conserved_cell key)
  · intro sh gs hs v cas h _ _
    exact ⟨owes, h, fun _ => rfl⟩
  · intro sh gs hs v cas w h hget hplan
    simp only [Option.getD_some] at hplan
    split at hplan
    · obtain rfl : removeElement v apiToken = w := by simpa using hplan
      have hnodup : v.Nodup → (removeElement v apiToken).Nodup := fun hv => hv.filter _
      by_cases ht : apiToken = t
      · exact ⟨true, h.write hget hnodup (.inl rfl), fun hne => absurd ht hne⟩
      · refine ⟨owes, h.write hget hnodup (.inr ⟨fun hmem => ?_, .inl rfl⟩), fun _ => rfl⟩
        exact List.mem_filter.mpr ⟨hmem, by simpa using Ne.symm ht⟩
    · cases hplan
  · exact fun _ => rfl

/-- To add a token to a list is to owe it no more. -/
theorem keeps_addApiToken (key : ListKey) (apiToken : ApiToken) (known : List (Fact Value))
    (past : ℕ) (owes : Bool) :
    (addApiToken key apiToken).Keeps (Conserved c t) op
      (fun _ _ r owes' => r ≠ .exhausted → owes' = false ∨ apiToken ≠ t ∧ owes' = owes)
      known past owes := by
  apply Prog.Keeps.retry
    (fun r owes' => r ≠ .exhausted → owes' = false ∨ apiToken ≠ t ∧ owes' = owes)
    (conserved_cell key)
  · intro sh gs hs v cas h hget hplan
    simp only [Option.getD_some] at hplan
    split at hplan
    · rename_i hmem
      by_cases ht : apiToken = t
      · subst ht
        exact ⟨false, ⟨h.1, fun _ => .inl ⟨key, v, cas, hget, hmem⟩⟩, fun _ => .inl rfl⟩
      · exact ⟨owes, h, fun _ => .inr ⟨ht, rfl⟩⟩
    · cases hplan
  · intro sh gs hs v cas w h hget hplan
    simp only [Option.getD_some] at hplan
    split at hplan
    · cases hplan
    · rename_i hmem
      obtain rfl : v ++ [apiToken] = w := by simpa using hplan
      have hnodup : v.Nodup → (v ++ [apiToken]).Nodup := fun hv =>
        hv.append (List.nodup_singleton _) (by simpa using hmem)
      by_cases ht : apiToken = t
      · refine ⟨false, h.write hget hnodup (.inr ⟨List.mem_append_left _, .inr ?_⟩),
          fun _ => .inl rfl⟩
        simp [ht]
      · exact ⟨owes, h.write hget hnodup (.inr ⟨List.mem_append_left _, .inl rfl⟩),
          fun _ => .inr ⟨ht, rfl⟩⟩
  · exact fun h => absurd rfl h

/-- A token goes from one list to the other, in two updates. -/
theorem keeps_move {ρ : Type} {post : List (Fact Value) → ℕ → ρ → Bool → Prop} (src dst : ListKey)
    (apiToken : ApiToken) {next : Outcome → Outcome → Prog Value ρ} (known : List (Fact Value))
    (past : ℕ) (owes : Bool)
    (hnext : ∀ known past removed added owes',
      (added ≠ .exhausted → owes' = false ∨ owes' = owes) →
        (next removed added).Keeps (Conserved c t) op post known past owes') :
    ((removeApiToken src apiToken).bind fun removed =>
      (addApiToken dst apiToken).bind fun added => next removed added).Keeps (Conserved c t) op post
        known past owes := by
  apply (keeps_removeApiToken src apiToken known past owes).seq
  intro known past removed owes₁ hremoved
  apply (keeps_addApiToken dst apiToken known past owes₁).seq
  intro known past added owes₂ hadded
  apply hnext
  intro hne
  rcases hadded hne with hfalse | ⟨ht, rfl⟩
  · exact .inl hfalse
  · exact .inr (hremoved ht)

theorem writesIn_getApiTokens (key : ListKey) : (getApiTokens key).WritesIn IsMap :=
  fun _ => trivial

theorem writesIn_getApiTokenMap (key : MapKey) : (getApiTokenMap key).WritesIn IsMap :=
  fun _ => trivial

theorem writesIn_time : (Prog.time : Prog Value ℕ).WritesIn IsMap :=
  fun _ => trivial

theorem writesIn_modifyApiTokenRequestCount (key : MapKey) (apiToken : ApiToken)
    (op : CountOperation) : (modifyApiTokenRequestCount key apiToken op).WritesIn IsMap :=
  Prog.writesIn_retry trivial _ _

theorem writesIn_setApiTokenUnavailableSince (apiToken : ApiToken) (timestamp : ℤ) :
    (setApiTokenUnavailableSince apiToken timestamp).WritesIn IsMap :=
  Prog.writesIn_retry trivial _ _

theorem writesIn_removeApiTokenUnavailableSince (apiToken : ApiToken) :
    (removeApiTokenUnavailableSince apiToken).WritesIn IsMap :=
  Prog.writesIn_retry trivial _ _

theorem keeps_handleAvailableApiToken (apiToken : ApiToken) :
    (handleAvailableApiToken c apiToken).Keeps (Conserved c t) op (Settled op) [] 0 false := by
  apply (conserved_keeps (writesIn_getApiTokenMap _) [] 0 false).seq
  rintro known past count _ rfl
  dsimp only
  split
  · apply keeps_move
    intro known past removed added owes howes
    apply (conserved_keeps (writesIn_modifyApiTokenRequestCount _ _ _) known past owes).seq
    rintro known past reset _ rfl hdone
    simpa using howes fun hadded => hdone (by simp [hadded])
  · apply (conserved_keeps (writesIn_modifyApiTokenRequestCount _ _ _) known past false).seq
    rintro known past counted _ rfl -
    rfl

theorem keeps_handleUnavailableApiToken (apiToken : ApiToken) :
    (handleUnavailableApiToken c apiToken).Keeps (Conserved c t) op (Settled op) [] 0 false := by
  apply (conserved_keeps (writesIn_getApiTokenMap _) [] 0 false).seq
  rintro known past count _ rfl
  apply (conserved_keeps (writesIn_getApiTokens _) known past false).seq
  rintro known past availableTokens _ rfl
  split
  · exact fun _ => rfl
  · dsimp only
    split
    · apply keeps_move
      intro known past removed added owes howes
      apply (conserved_keeps (writesIn_modifyApiTokenRequestCount _ _ _) known past owes).seq
      rintro known past reset _ rfl
      split
      · apply (conserved_keeps writesIn_time known past _).seq
        rintro known past now _ rfl
        apply (conserved_keeps (writesIn_setApiTokenUnavailableSince _ _) known past _).seq
        rintro known past marked _ rfl hdone
        simpa using howes fun hadded => hdone (by simp [hadded])
      · intro hdone
        simpa using howes fun hadded => hdone (by simp [hadded])
    · apply (conserved_keeps (writesIn_modifyApiTokenRequestCount _ _ _) known past false).seq
      rintro known past counted _ rfl -
      rfl

theorem keeps_resetApiTokenRequestFailureCount (apiToken : ApiToken) :
    (resetApiTokenRequestFailureCount apiToken).Keeps (Conserved c t) op (Settled op) [] 0
      false := by
  apply (conserved_keeps (writesIn_getApiTokenMap _) [] 0 false).seq
  rintro known past count _ rfl
  split
  · exact fun _ => rfl
  · apply (conserved_keeps (writesIn_modifyApiTokenRequestCount _ _ _) known past false).seq
    rintro known past reset _ rfl -
    rfl

theorem keeps_recoverTokens (timestamps : ApiToken → Option ℤ) (now : ℤ)
    (unavailableTokens : List ApiToken) (known : List (Fact Value)) (past : ℕ) (owes : Bool) :
    (recoverTokens c timestamps now unavailableTokens).Keeps (Conserved c t) op
      (fun _ _ r owes' => .exhausted ∉ r.1 → owes' = false ∨ owes' = owes) known past owes := by
  induction unavailableTokens generalizing known past owes with
  | nil => exact fun _ => .inr rfl
  | cons apiToken unavailableTokens ih =>
      rw [recoverTokens]
      split
      · apply keeps_move
        intro known past removed added owes₁ hmoved
        apply (conserved_keeps (writesIn_removeApiTokenUnavailableSince _) known past _).seq
        rintro known past unmarked _ rfl
        apply (conserved_keeps (writesIn_modifyApiTokenRequestCount _ _ _) known past _).seq
        rintro known past reset _ rfl
        apply (ih known past _).seq
        intro known past rest owes₂ hrest hdone
        simp only [List.mem_append, not_or] at hdone
        rcases hrest hdone.2 with hfalse | rfl
        · exact .inl hfalse
        · exact hmoved fun hadded => hdone.1 (by simp [hadded])
      · exact ih known past owes

theorem keeps_cooldownRecovery (unavailableTokens : List ApiToken) (known : List (Fact Value))
    (past : ℕ) (owes : Bool) :
    (cooldownRecovery c unavailableTokens).Keeps (Conserved c t) op
      (fun _ _ r owes' => .exhausted ∉ r.1 → owes' = false ∨ owes' = owes) known past owes := by
  rw [cooldownRecovery]
  split
  · apply (conserved_keeps (writesIn_getApiTokenMap _) known past owes).seq
    rintro known past timestamps _ rfl
    apply (conserved_keeps writesIn_time known past _).seq
    rintro known past now _ rfl
    exact keeps_recoverTokens timestamps now unavailableTokens known past _
  · exact fun _ => .inr rfl

theorem keeps_healthCheckTick :
    (healthCheckTick c).Keeps (Conserved c t) op (Settled op) [] 0 false := by
  apply (conserved_keeps (writesIn_getApiTokens _) [] 0 false).seq
  rintro known past unavailableTokens _ rfl
  split
  · exact fun _ => rfl
  · apply (keeps_cooldownRecovery unavailableTokens known past false).seq
    intro known past recovered owes howes hdone
    simpa using howes hdone

/-- Every handler keeps the invariant, and owes nothing at its end. -/
theorem keeps_code (op : Op) : (code c op).Keeps (Conserved c t) op (Settled op) [] 0 false := by
  cases op with
  | unavailable apiToken => exact keeps_handleUnavailableApiToken apiToken
  | available apiToken => exact keeps_handleAvailableApiToken apiToken
  | succeeded apiToken => exact keeps_resetApiTokenRequestFailureCount apiToken
  | tick => exact keeps_healthCheckTick

end Conserved

/-! ### Conservation -/

/-- What the lists are after a configuration is loaded. -/
theorem setApiTokensFailover_list (s : Store Value) (key : ListKey) :
    ∃ cas, cas ≠ 0 ∧ setApiTokensFailover c s (.list key) =
      some (match key with | .apiTokens => c.apiTokens | .unavailableApiTokens => [], cas) := by
  have hzero {s : Store Value} (k : Key) (v : Value k) :
      (Prog.write k v 0).exec 0 s = (true, s.put k v) :=
    Prog.exec_write_of_accepts (fun _ _ => .inl rfl) v
  have hinit {s : Store Value} :
      (initApiTokens c).exec 0 s = (true, s.put (.list .apiTokens) c.apiTokens) :=
    Prog.exec_write_of_accepts (s.accepts_self _) _
  rw [setApiTokensFailover, resetSharedData]
  simp only [Prog.bind_eq, Prog.pure_eq, Prog.exec_bind, hzero, hinit, Prog.exec]
  cases key with
  | apiTokens => exact ⟨_, Nat.succ_ne_zero _, Store.put_self _ _⟩
  | unavailableApiTokens =>
      rw [Store.put_of_ne (by simp), Store.put_of_ne (by simp), Store.put_of_ne (by simp),
        Store.put_of_ne (by simp), Store.put_self]
      exact ⟨_, Nat.succ_ne_zero _, rfl⟩

theorem conserved_start (htokens : c.apiTokens.Nodup) (s : Store Value) (clock : ℕ)
    (t : ApiToken) : Conserved c t ⟨clock, setApiTokensFailover c s, []⟩ [] := by
  refine ⟨fun key => ?_, fun ht => .inl ?_⟩
  · obtain ⟨cas, hcas, hget⟩ := setApiTokensFailover_list c s key
    refine ⟨_, cas, hget, hcas, ?_⟩
    cases key with
    | apiTokens => exact htokens
    | unavailableApiTokens => exact List.nodup_nil
  · obtain ⟨cas, -, hget⟩ := setApiTokensFailover_list c s .apiTokens
    exact ⟨.apiTokens, _, cas, hget, ht⟩

/-- The invariant holds in every state of the VMs. -/
theorem good_run (htokens : c.apiTokens.Nodup) (s : Store Value) (clock : ℕ) (t : ApiToken)
    (moves : List (Move Op)) :
    (World.run (code c) ⟨⟨clock, setApiTokensFailover c s, []⟩, []⟩ moves).Good
      (Conserved c t) Settled := by
  apply World.Good.run
  · intro op sh owed h
    refine ⟨false, ⟨h.1, fun ht => (h.2 ht).imp_right ?_⟩, keeps_code op⟩
    exact List.mem_append_left _
  · exact fun _ _ _ h => h
  · exact ⟨[], rfl, conserved_start c htokens s clock t, by simp⟩

/-- However the VMs interleave, once all their handlers are done every token of the configuration
is in one of the lists, and no list has a token twice. -/
theorem apiTokens_conserved (htokens : c.apiTokens.Nodup) (s : Store Value) (clock : ℕ)
    (moves : List (Move Op)) {w : World Value Done Op}
    (hw : w = World.run (code c) ⟨⟨clock, setApiTokensFailover c s, []⟩, []⟩ moves)
    (hdone : ∀ thread ∈ w.threads, ∃ r ∈ thread.2.result, .exhausted ∉ r.outcomes) :
    (∀ t ∈ c.apiTokens, Listed w.shared.store t) ∧
      ∀ (key : ListKey) (l : List ApiToken) (cas : ℕ),
        w.shared.store (.list key) = some (l, cas) → l.Nodup := by
  have hgood := fun t => hw ▸ good_run c htokens s clock t moves
  constructor
  · intro t ht
    obtain ⟨threads, hthreads, hinv, hall⟩ := hgood t
    refine (hinv.2 ht).resolve_right fun howed => ?_
    obtain ⟨⟨⟨op, p⟩, owes⟩, hmem, rfl⟩ := List.mem_map.mp howed
    obtain ⟨r, hresult, hr⟩ := hdone (op, p) (hthreads ▸ List.mem_map.mpr ⟨_, hmem, rfl⟩)
    obtain rfl : p = .ret r := Prog.eq_ret_of_mem_result hresult
    obtain ⟨_, _, _, _, hsettled⟩ := hall _ hmem
    exact Bool.noConfusion (hsettled hr)
  · intro key l cas hget
    obtain ⟨threads, -, hinv, -⟩ := hgood []
    obtain ⟨l', cas', hget', -, hnodup⟩ := hinv.1 key
    rw [hget] at hget'
    obtain ⟨rfl, -⟩ : l = l' ∧ cas = cas' := by simpa using hget'
    exact hnodup

theorem apiTokens_conserved_two_vms :
    let c : ProviderConfig := ⟨[[97], [98]], 1, 1, 0, [109]⟩
    let moves : List (Move Op) := [.start (.unavailable [97]), .start (.available [97])] ++
      (List.replicate 9 [.step 0, .step 1]).flatten
    let w := World.run (code c) ⟨⟨0, setApiTokensFailover c fun _ => none, []⟩, []⟩ moves
    Listed w.shared.store [97] := by
  intro c moves w
  have hdone : ∀ thread ∈ w.threads, ∃ r ∈ thread.2.result, .exhausted ∉ r.outcomes := by
    decide +kernel
  have h := apiTokens_conserved c (by decide) (fun _ => none) 0 moves (Eq.refl w) hdone
  exact h.1 [97] (by decide)

end Higress.AiProxy.Failover
