import Mathlib
import Higress.AiProxy.Failover

/-!
The retries of a failed request (`ai-proxy/provider/retry.go`). A retry is posted, and the callback
of its answer posts the next one: with every post the token that failed last is taken off the list
of tokens, and with every answer the number of retries is counted up. The run of a request is the
first post and the answers that follow, each with what the next post meets.

`SetApiTokenInUse` and `SetAvailableApiTokens` read the shared lists one after the other in one
callback; they are taken as one reading.
-/

namespace Higress.AiProxy.Retry

open Lib
open Failover (ApiToken)

/-- `retryOnFailure`; the timeout is left out. -/
structure RetryOnFailure where
  enabled : Bool
  maxRetries : ℤ

/-- `GetRandomToken`. -/
def getRandomToken (apiTokens : List ApiToken) (random : ℕ) : ApiToken :=
  match apiTokens with
  | [] => []
  | [token] => token
  | apiTokens => apiTokens.getD (random % apiTokens.length) []

/-- The token of a request and the list of those it may be retried with. -/
structure Tokens where
  apiTokenInUse : ApiToken
  apiTokens : List ApiToken
  mem : apiTokens ≠ [] → apiTokenInUse ∈ apiTokens

theorem getRandomToken_mem {apiTokens : List ApiToken} (h : apiTokens ≠ []) (random : ℕ) :
    getRandomToken apiTokens random ∈ apiTokens := by
  match apiTokens with
  | [] => exact absurd rfl h
  | [token] => exact List.mem_singleton_self token
  | t :: u :: ts =>
      have hlt : random % (t :: u :: ts).length < (t :: u :: ts).length :=
        Nat.mod_lt _ (by simp)
      have heq : getRandomToken (t :: u :: ts) random =
          (t :: u :: ts)[random % (t :: u :: ts).length] := by
        simp only [getRandomToken, List.getD_eq_getElem?_getD]
        rw [List.getElem?_eq_getElem hlt, Option.getD_some]
      rw [heq]
      exact List.getElem_mem hlt

/-! ### Posts and answers -/

variable {ρ : Type}

/-- What ends the wait of a request: the answer to a retry is sent, the response is resumed, or it
was never stopped. -/
inductive Action (ρ : Type)
  | sendHttpResponse (response : ρ)
  | resumeHttpResponse
  | actionContinue

/-- A request: its context, the token and the list that the callback of a post was given, the tokens
of all posts, and what was done to end it. -/
structure Request (ρ : Type) where
  retryCount : Option ℤ
  apiTokenInUse : ApiToken
  pending : Option (ApiToken × List ApiToken)
  posted : List ApiToken
  actions : List (Action ρ)

/-- What `sendRetryRequest` meets: a random number, and whether the request can be transformed and
posted. -/
structure Attempt where
  random : ℕ
  transforms : Bool
  posts : Bool

/-- The answer to a post. -/
structure Answer (ρ : Type) where
  statusCode : ℤ
  response : ρ

inductive SendError
  | noMoreApiTokens
  | transform
  | post

def removeApiTokenFromRetryList (apiTokens : List ApiToken) (removedApiToken : ApiToken) :
    List ApiToken :=
  apiTokens.filter fun s => s ≠ removedApiToken

def sendRetryRequest (r : Request ρ) (apiTokenInUse : ApiToken) (apiTokens : List ApiToken)
    (attempt : Attempt) : Request ρ × Option SendError :=
  let apiTokens := removeApiTokenFromRetryList apiTokens apiTokenInUse
  if apiTokens = [] then (r, some .noMoreApiTokens)
  else
    let apiTokenInUse := getRandomToken apiTokens attempt.random
    let r := { r with apiTokenInUse := apiTokenInUse }
    if !attempt.transforms then (r, some .transform)
    else if !attempt.posts then (r, some .post)
    else
      ({ r with
        pending := some (apiTokenInUse, apiTokens)
        posted := r.posted ++ [apiTokenInUse] }, none)

def Request.act (r : Request ρ) (action : Action ρ) : Request ρ :=
  { r with actions := r.actions ++ [action] }

def retryFailedRequest (r : Request ρ) (apiTokenInUse : ApiToken) (apiTokens : List ApiToken)
    (attempt : Attempt) : Request ρ × Option SendError :=
  sendRetryRequest { r with retryCount := some 1 } apiTokenInUse apiTokens attempt

/-- `retryCall`, the callback of a post. -/
def retryCall (cfg : RetryOnFailure) (r : Request ρ) (answer : Answer ρ) (apiTokenInUse : ApiToken)
    (apiTokens : List ApiToken) (attempt : Attempt) : Request ρ :=
  match r.retryCount with
  | none => r.act .resumeHttpResponse
  | some retryCount =>
      if answer.statusCode = 200 then r.act (.sendHttpResponse answer.response)
      else if retryCount + 1 ≤ cfg.maxRetries then
        match sendRetryRequest { r with retryCount := some (retryCount + 1) } apiTokenInUse apiTokens
          attempt with
        | (r, some _) => r.act .resumeHttpResponse
        | (r, none) => r
      else r.act .resumeHttpResponse

/-- `OnRequestFailed`, as far as it retries; `matched` says that the status is one to be retried. -/
def onRequestFailed (cfg : RetryOnFailure) (matched : Bool) (tokens : Tokens) (attempt : Attempt) :
    Request ρ :=
  let r : Request ρ := ⟨none, tokens.apiTokenInUse, none, [], []⟩
  if cfg.enabled && matched then
    match retryFailedRequest r tokens.apiTokenInUse tokens.apiTokens attempt with
    | (r, some _) => r.act .actionContinue
    | (r, none) => r
  else r.act .actionContinue

/-- The answer to the post that is awaited; there is none after that until the next post. -/
def answered (cfg : RetryOnFailure) (r : Request ρ) (event : Answer ρ × Attempt) : Request ρ :=
  match r.pending with
  | none => r
  | some (apiTokenInUse, apiTokens) =>
      retryCall cfg { r with pending := none } event.1 apiTokenInUse apiTokens event.2

/-- A failed request with the answers to its retries. -/
def run (cfg : RetryOnFailure) (matched : Bool) (tokens : Tokens) (first : Attempt)
    (events : List (Answer ρ × Attempt)) : Request ρ :=
  events.foldl (answered cfg) (onRequestFailed cfg matched tokens first)

/-! ### The invariant of a run -/

/-- The tokens that a request has not used. -/
def Tokens.unused (tokens : Tokens) (posted : List ApiToken) : List ApiToken :=
  tokens.apiTokens.filter fun s => s ∉ tokens.apiTokenInUse :: posted

/-- The tokens of the posts: tokens of the list, none twice, none that was in use at first, and
not more than are allowed. -/
structure Chosen (cfg : RetryOnFailure) (tokens : Tokens) (posted : List ApiToken) : Prop where
  nodup : posted.Nodup
  mem : ∀ t ∈ posted, t ∈ tokens.apiTokens ∧ t ≠ tokens.apiTokenInUse
  length_le : (posted.length : ℤ) ≤ max 1 cfg.maxRetries

/-- A post is awaited, and the answers to all posts before it have come. -/
structure Waiting (tokens : Tokens) (answers : ℕ) (r : Request ρ) : Prop where
  pending : ∃ before t, r.posted = before ++ [t] ∧ r.pending = some (t, tokens.unused before)
  retryCount : r.retryCount = some (r.posted.length : ℤ)
  length_eq : r.posted.length = answers + 1
  actions : r.actions = []

/-- The wait was ended, once. -/
structure Done (r : Request ρ) : Prop where
  pending : r.pending = none
  length_eq : r.actions.length = 1

/-- The invariant, after a number of answers. -/
structure Inv (cfg : RetryOnFailure) (tokens : Tokens) (answers : ℕ) (r : Request ρ) : Prop where
  chosen : Chosen cfg tokens r.posted
  phase : Waiting tokens answers r ∨ Done r

variable {cfg : RetryOnFailure} {tokens : Tokens} {r : Request ρ} {answers : ℕ}

/-- Taking the last token off what was unused before it. -/
theorem removeApiTokenFromRetryList_unused (before : List ApiToken) (t : ApiToken) :
    removeApiTokenFromRetryList (tokens.unused before) t = tokens.unused (before ++ [t]) := by
  rw [removeApiTokenFromRetryList, Tokens.unused, Tokens.unused, List.filter_filter]
  refine List.filter_congr fun s _ => ?_
  simp only [List.mem_cons, List.mem_append, List.not_mem_nil, or_false, not_or, ne_eq,
    Bool.decide_and, decide_not]
  cases decide (s = t) <;> simp

theorem Chosen.add (h : Chosen cfg tokens r.posted) {t : ApiToken} (ht : t ∈ tokens.unused r.posted)
    (hle : (r.posted.length : ℤ) + 1 ≤ max 1 cfg.maxRetries) :
    Chosen cfg tokens (r.posted ++ [t]) := by
  obtain ⟨hmem, hnot⟩ := List.mem_filter.mp ht
  simp only [List.mem_cons, not_or, decide_eq_true_eq] at hnot
  refine ⟨?_, ?_, ?_⟩
  · rw [List.nodup_append]
    refine ⟨h.nodup, List.nodup_singleton t, ?_⟩
    intro a ha b hb heq
    rw [List.mem_singleton.mp hb] at heq
    exact hnot.2 (heq ▸ ha)
  · intro s hs
    rcases List.mem_append.mp hs with hs | hs
    · exact h.mem s hs
    · rw [List.mem_singleton.mp hs]
      exact ⟨hmem, hnot.1⟩
  · simpa using hle

/-- A post that is tried: it fails and nothing but the token in the context is changed, or it is
awaited and its token was unused. -/
theorem sendRetryRequest_cases (r : Request ρ) (apiTokenInUse : ApiToken)
    (apiTokens : List ApiToken) (attempt : Attempt) :
    (∃ token err, sendRetryRequest r apiTokenInUse apiTokens attempt =
      ({ r with apiTokenInUse := token }, some err)) ∨
    ∃ t ∈ removeApiTokenFromRetryList apiTokens apiTokenInUse,
      sendRetryRequest r apiTokenInUse apiTokens attempt =
        ({ r with
          apiTokenInUse := t
          pending := some (t, removeApiTokenFromRetryList apiTokens apiTokenInUse)
          posted := r.posted ++ [t] }, none) := by
  simp only [sendRetryRequest]
  split_ifs with hnil htransform hpost
  · exact Or.inl ⟨r.apiTokenInUse, _, rfl⟩
  · exact Or.inl ⟨_, _, rfl⟩
  · exact Or.inl ⟨_, _, rfl⟩
  · exact Or.inr ⟨_, getRandomToken_mem hnil _, rfl⟩

/-- The next post of a request, whichever comes of it. -/
theorem Inv.send (hchosen : Chosen cfg tokens r.posted)
    (hle : (r.posted.length : ℤ) + 1 ≤ max 1 cfg.maxRetries)
    (hcount : r.retryCount = some ((r.posted.length : ℤ) + 1)) (hlength : r.posted.length = answers)
    (hpending : r.pending = none) (hactions : r.actions = []) {apiTokenInUse : ApiToken}
    {apiTokens : List ApiToken}
    (htokens : removeApiTokenFromRetryList apiTokens apiTokenInUse = tokens.unused r.posted)
    (attempt : Attempt) (action : Action ρ) :
    Inv cfg tokens answers
      (match sendRetryRequest r apiTokenInUse apiTokens attempt with
      | (r, some _) => r.act action
      | (r, none) => r) := by
  rcases sendRetryRequest_cases r apiTokenInUse apiTokens attempt with
    ⟨token, err, heq⟩ | ⟨t, ht, heq⟩
  · rw [heq]
    refine ⟨hchosen, Or.inr ⟨hpending, ?_⟩⟩
    change (r.actions ++ [action]).length = 1
    rw [hactions]
    rfl
  · rw [heq]
    rw [htokens] at ht ⊢
    refine ⟨hchosen.add ht hle, Or.inl ⟨⟨r.posted, t, rfl, rfl⟩, ?_, ?_, hactions⟩⟩
    · change r.retryCount = some ((r.posted ++ [t]).length : ℤ)
      rw [hcount, List.length_append]
      rfl
    · change (r.posted ++ [t]).length = answers + 1
      rw [List.length_append, hlength]
      rfl

/-- One answer. -/
theorem Inv.answered (h : Inv cfg tokens answers r) (event : Answer ρ × Attempt) :
    Inv cfg tokens (answers + 1) (answered cfg r event) := by
  rcases h.phase with hwait | hdone
  · obtain ⟨before, t, hposted, hpending⟩ := hwait.pending
    have hdone : ∀ action, Inv cfg tokens (answers + 1)
        (({ r with pending := none } : Request ρ).act action) := by
      intro action
      refine ⟨h.chosen, Or.inr ⟨rfl, ?_⟩⟩
      change (r.actions ++ [action]).length = 1
      rw [hwait.actions]
      rfl
    rw [Retry.answered, hpending]
    simp only [retryCall, hwait.retryCount]
    split_ifs with hok hmore
    · simpa only [hwait.retryCount] using hdone (.sendHttpResponse event.1.response)
    · refine Inv.send (r := { r with
        retryCount := some ((r.posted.length : ℤ) + 1)
        pending := none }) h.chosen (le_trans hmore (le_max_right _ _)) rfl hwait.length_eq rfl
        hwait.actions ?_ event.2 _
      change _ = tokens.unused r.posted
      rw [hposted]
      exact removeApiTokenFromRetryList_unused before t
    · simpa only [hwait.retryCount] using hdone .resumeHttpResponse
  · rw [Retry.answered, hdone.pending]
    exact ⟨h.chosen, Or.inr hdone⟩

/-- The tokens of the posts are fewer than the tokens of the list. -/
theorem Chosen.length_le_dedup {posted : List ApiToken} (h : Chosen cfg tokens posted) :
    posted.length ≤ tokens.apiTokens.dedup.length - 1 := by
  by_cases hnil : tokens.apiTokens = []
  · have hposted : posted = [] := by
      rw [List.eq_nil_iff_forall_not_mem]
      intro t ht
      simpa [hnil] using (h.mem t ht).1
    simp [hposted]
  · have hsub : ∀ t ∈ posted, t ∈ tokens.apiTokens.dedup.erase tokens.apiTokenInUse := by
      intro t ht
      obtain ⟨hmem, hne⟩ := h.mem t ht
      exact (List.mem_erase_of_ne hne).mpr (List.mem_dedup.mpr hmem)
    have hle := (List.subperm_of_subset h.nodup hsub).length_le
    rwa [List.length_erase_of_mem (List.mem_dedup.mpr (tokens.mem hnil))] at hle

end Higress.AiProxy.Retry
