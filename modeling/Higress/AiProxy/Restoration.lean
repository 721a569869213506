import Mathlib.Data.Option.Basic
import Mathlib.Logic.Function.Basic
import Higress.AiProxy.Failover

/-!
When the failover puts a token back (`ai-proxy/provider/failover.go`). A run is a sequence of
requests that fail or succeed, ticks, and results of the health checks that the ticks have sent,
with time passing in between; each handler runs alone. A token should come back only after its
cooldown, or after as many successful health checks as the threshold asks for, since it last
became unavailable.

The count of the successful health checks is reset where a health check restores a token, and not
where the cooldown does. What is left of it counts the next time that the token is unavailable.
-/

namespace Higress.AiProxy.Failover

open Lib Lib.SharedData

/-! ### Runs -/

structure State where
  clock : ℕ
  store : Store Value
  /-- The health checks that have no result yet. -/
  probes : List ApiToken

inductive Event
  | requestFailed (apiToken : ApiToken)
  | requestSucceeded (apiToken : ApiToken)
  | healthCheck (apiToken : ApiToken) (ok : Bool)
  | tick
  | wait (n : ℕ)
  deriving DecidableEq

variable (c : ProviderConfig)

/-- There is a result only of a health check that was sent. -/
def step (st : State) : Event → Option State
  | .requestFailed apiToken =>
      some { st with store := ((handleUnavailableApiToken c apiToken).exec st.clock st.store).2 }
  | .requestSucceeded apiToken =>
      some { st with store :=
        ((resetApiTokenRequestFailureCount apiToken).exec st.clock st.store).2 }
  | .healthCheck apiToken ok =>
      if apiToken ∈ st.probes then
        let store :=
          if ok then ((handleAvailableApiToken c apiToken).exec st.clock st.store).2 else st.store
        some ⟨st.clock, store, st.probes.erase apiToken⟩
      else none
  | .tick =>
      let next := (healthCheckTick c).exec st.clock st.store
      some ⟨st.clock, next.2, st.probes ++ next.1.probes⟩
  | .wait n => some { st with clock := st.clock + n }

def run (st : State) (events : List Event) : Option State := events.foldlM (step c) st

/-- The state after a configuration is loaded. -/
def start (clock : ℕ) (s : Store Value) : State := ⟨clock, setApiTokensFailover c s, []⟩

/-! ### What the handlers do alone -/

/-- The values of the shared data. -/
structure View where
  lists : ListKey → List ApiToken
  maps : MapKey → ApiToken → Option ℤ

def view (s : Store Value) : View where
  lists key := ((s (.list key)).map Prod.fst).getD []
  maps key := ((s (.map key)).map Prod.fst).getD fun _ => none

namespace View

def setList (v : View) (key : ListKey) (l : List ApiToken) : View :=
  { v with lists := Function.update v.lists key l }

def setMap (v : View) (key : MapKey) (m : ApiToken → Option ℤ) : View :=
  { v with maps := Function.update v.maps key m }

def addToken (v : View) (key : ListKey) (apiToken : ApiToken) : View :=
  if apiToken ∈ v.lists key then v else v.setList key (v.lists key ++ [apiToken])

def removeToken (v : View) (key : ListKey) (apiToken : ApiToken) : View :=
  v.setList key (removeElement (v.lists key) apiToken)

def setEntry (v : View) (key : MapKey) (apiToken : ApiToken) (n : Option ℤ) : View :=
  v.setMap key (Function.update (v.maps key) apiToken n)

end View

section View

variable {c} {clock : ℕ} {s : Store Value}

theorem view_put_list (key : ListKey) (l : List ApiToken) :
    view (s.put (.list key) l) = (view s).setList key l := by
  have hlists : (view (s.put (.list key) l)).lists = Function.update (view s).lists key l := by
    ext1 key'
    by_cases hkey : key' = key
    · subst hkey
      simp [view]
    · simp [view, hkey]
  rw [View.setList, ← hlists]
  rfl

theorem view_put_map (key : MapKey) (m : ApiToken → Option ℤ) :
    view (s.put (.map key) m) = (view s).setMap key m := by
  have hmaps : (view (s.put (.map key) m)).maps = Function.update (view s).maps key m := by
    ext1 key'
    by_cases hkey : key' = key
    · subst hkey
      simp [view]
    · simp [view, hkey]
  rw [View.setMap, ← hmaps]
  rfl

theorem view_removeApiToken (key : ListKey) (apiToken : ApiToken) :
    view ((removeApiToken key apiToken).exec clock s).2 = (view s).removeToken key apiToken := by
  rw [removeApiToken, modifyApiToken, casMaxRetries, Prog.exec_retry]
  by_cases hmem : apiToken ∈ ((s (.list key)).map Prod.fst).getD []
  · simp only [if_pos hmem, view_put_list]
    rfl
  · simp only [if_neg hmem]
    have hsame : removeElement ((view s).lists key) apiToken = (view s).lists key := by
      apply List.filter_eq_self.mpr
      rintro x hx
      simp only [ne_eq, decide_eq_true_eq]
      rintro rfl
      exact hmem hx
    rw [View.removeToken, hsame, View.setList, Function.update_eq_self]

theorem view_addApiToken (key : ListKey) (apiToken : ApiToken) :
    view ((addApiToken key apiToken).exec clock s).2 = (view s).addToken key apiToken := by
  rw [addApiToken, modifyApiToken, casMaxRetries, Prog.exec_retry]
  by_cases hmem : apiToken ∈ ((s (.list key)).map Prod.fst).getD []
  · simp only [if_pos hmem]
    exact (if_pos hmem).symm
  · simp only [if_neg hmem, view_put_list]
    exact (if_neg hmem).symm

theorem view_addApiTokenRequestCount (key : MapKey) (apiToken : ApiToken) :
    view ((addApiTokenRequestCount key apiToken).exec clock s).2 =
      (view s).setEntry key apiToken (some (((view s).maps key apiToken).getD 0 + 1)) := by
  rw [addApiTokenRequestCount, modifyApiTokenRequestCount, casMaxRetries, Prog.exec_retry]
  exact view_put_map _ _

theorem view_resetApiTokenRequestCount (key : MapKey) (apiToken : ApiToken) :
    view ((resetApiTokenRequestCount key apiToken).exec clock s).2 =
      (view s).setEntry key apiToken none := by
  rw [resetApiTokenRequestCount, modifyApiTokenRequestCount, casMaxRetries, Prog.exec_retry]
  exact view_put_map _ _

theorem view_setApiTokenUnavailableSince (apiToken : ApiToken) (timestamp : ℤ) :
    view ((setApiTokenUnavailableSince apiToken timestamp).exec clock s).2 =
      (view s).setEntry .apiTokenUnavailableSince apiToken (some timestamp) := by
  rw [setApiTokenUnavailableSince, casMaxRetries, Prog.exec_retry]
  exact view_put_map _ _

theorem view_removeApiTokenUnavailableSince (apiToken : ApiToken) :
    view ((removeApiTokenUnavailableSince apiToken).exec clock s).2 =
      (view s).setEntry .apiTokenUnavailableSince apiToken none := by
  rw [removeApiTokenUnavailableSince, casMaxRetries, Prog.exec_retry]
  by_cases hnone : (((s (.map .apiTokenUnavailableSince)).map Prod.fst).getD fun _ => none)
      apiToken = none
  · simp only [if_pos hnone]
    have hsame : Function.update ((view s).maps .apiTokenUnavailableSince) apiToken none =
        (view s).maps .apiTokenUnavailableSince :=
      Function.update_eq_iff.mpr ⟨hnone.symm, fun _ _ => rfl⟩
    rw [View.setEntry, hsame, View.setMap, Function.update_eq_self]
  · simp only [if_neg hnone]
    exact view_put_map _ _

/-- A token is restored: the part that health check and cooldown share. -/
def View.restore (v : View) (apiToken : ApiToken) : View :=
  (v.removeToken .unavailableApiTokens apiToken).addToken .apiTokens apiToken

theorem view_handleAvailableApiToken (apiToken : ApiToken) :
    view ((handleAvailableApiToken c apiToken).exec clock s).2 =
      (if ((view s).maps .apiTokenRequestSuccessCount apiToken).getD 0 + 1 ≥ c.successThreshold
      then ((view s).restore apiToken).setEntry .apiTokenRequestSuccessCount apiToken none
      else (view s).setEntry .apiTokenRequestSuccessCount apiToken
        (some (((view s).maps .apiTokenRequestSuccessCount apiToken).getD 0 + 1))) := by
  have hread : (getApiTokenMap .apiTokenRequestSuccessCount).exec clock s =
      ((view s).maps .apiTokenRequestSuccessCount, s) := rfl
  rw [handleAvailableApiToken, Prog.bind_eq, Prog.exec_bind, hread]
  dsimp only
  split
  · simp only [Prog.bind_eq, Prog.pure_eq, Prog.exec_bind, Prog.exec,
      view_resetApiTokenRequestCount, view_addApiToken, view_removeApiToken, View.restore]
  · simp only [Prog.bind_eq, Prog.pure_eq, Prog.exec_bind, Prog.exec,
      view_addApiTokenRequestCount]

theorem view_handleUnavailableApiToken (apiToken : ApiToken) :
    view ((handleUnavailableApiToken c apiToken).exec clock s).2 =
      (if apiToken ∉ (view s).lists .apiTokens then view s
      else if ((view s).maps .apiTokenRequestFailureCount apiToken).getD 0 + 1 ≥ c.failureThreshold
      then
        let failed := (((view s).removeToken .apiTokens apiToken).addToken .unavailableApiTokens
          apiToken).setEntry .apiTokenRequestFailureCount apiToken none
        if c.cooldownDuration > 0 then
          failed.setEntry .apiTokenUnavailableSince apiToken (some clock)
        else failed
      else (view s).setEntry .apiTokenRequestFailureCount apiToken
        (some (((view s).maps .apiTokenRequestFailureCount apiToken).getD 0 + 1))) := by
  have hcount : (getApiTokenMap .apiTokenRequestFailureCount).exec clock s =
      ((view s).maps .apiTokenRequestFailureCount, s) := rfl
  have hlist : (getApiTokens .apiTokens).exec clock s = ((view s).lists .apiTokens, s) := rfl
  rw [handleUnavailableApiToken, Prog.bind_eq, Prog.exec_bind, hcount, Prog.bind_eq,
    Prog.exec_bind, hlist]
  dsimp only
  split
  · rfl
  · split
    · simp only [Prog.bind_eq, Prog.pure_eq, Prog.exec_bind]
      split
      · simp only [Prog.exec_bind, Prog.exec, Prog.time,
          view_setApiTokenUnavailableSince, view_resetApiTokenRequestCount, view_addApiToken,
          view_removeApiToken]
      · simp only [Prog.exec, view_resetApiTokenRequestCount, view_addApiToken,
          view_removeApiToken]
    · simp only [Prog.bind_eq, Prog.pure_eq, Prog.exec_bind, Prog.exec,
        view_addApiTokenRequestCount]

theorem view_resetApiTokenRequestFailureCount (apiToken : ApiToken) :
    view ((resetApiTokenRequestFailureCount apiToken).exec clock s).2 =
      (if (view s).maps .apiTokenRequestFailureCount apiToken = none then view s
      else (view s).setEntry .apiTokenRequestFailureCount apiToken none) := by
  have hcount : (getApiTokenMap .apiTokenRequestFailureCount).exec clock s =
      ((view s).maps .apiTokenRequestFailureCount, s) := rfl
  rw [resetApiTokenRequestFailureCount, Prog.bind_eq, Prog.exec_bind, hcount]
  dsimp only
  split
  · rfl
  · simp only [Prog.bind_eq, Prog.pure_eq, Prog.exec_bind, Prog.exec,
      view_resetApiTokenRequestCount]

/-- A token is recovered after its cooldown. The count of the health checks stays. -/
def View.recover (v : View) (apiToken : ApiToken) : View :=
  ((v.restore apiToken).setEntry .apiTokenUnavailableSince apiToken none).setEntry
    .apiTokenRequestFailureCount apiToken none

theorem view_recoverTokens (timestamps : ApiToken → Option ℤ) (now : ℤ)
    (unavailableTokens : List ApiToken) :
    view ((recoverTokens c timestamps now unavailableTokens).exec clock s).2 =
      (unavailableTokens.filter fun t => Cooled c timestamps now t).foldl View.recover
        (view s) := by
  induction unavailableTokens generalizing s with
  | nil => rfl
  | cons apiToken unavailableTokens ih =>
      rw [recoverTokens]
      by_cases hcooled : Cooled c timestamps now apiToken
      · rw [if_pos hcooled, List.filter_cons_of_pos (by simpa using hcooled), List.foldl_cons,
          View.recover]
        simp only [Prog.bind_eq, Prog.pure_eq, Prog.exec_bind, Prog.exec, ih,
          view_resetApiTokenRequestCount, view_removeApiTokenUnavailableSince, view_addApiToken,
          view_removeApiToken, View.restore]
      · rw [if_neg hcooled, List.filter_cons_of_neg (by simpa using hcooled), ih]

/-- A tick recovers the tokens whose cooldown has elapsed. -/
theorem view_healthCheckTick :
    ∃ recovered : List ApiToken, view ((healthCheckTick c).exec clock s).2 =
      recovered.foldl View.recover (view s) ∧
        ∀ t ∈ recovered, 0 < c.cooldownDuration ∧
          Cooled c ((view s).maps .apiTokenUnavailableSince) clock t := by
  have hlist : (getApiTokens .unavailableApiTokens).exec clock s =
      ((view s).lists .unavailableApiTokens, s) := rfl
  rw [healthCheckTick, Prog.bind_eq, Prog.exec_bind, hlist]
  dsimp only
  split
  · exact ⟨[], rfl, by simp⟩
  · rw [Prog.bind_eq, Prog.exec_bind, cooldownRecovery]
    split
    · rename_i hcooldown
      refine ⟨((view s).lists .unavailableApiTokens).filter fun t =>
        Cooled c ((view s).maps .apiTokenUnavailableSince) clock t, ?_, ?_⟩
      · exact view_recoverTokens _ _ _
      · intro t ht
        exact ⟨hcooldown, by simpa using (List.mem_filter.mp ht).2⟩
    · exact ⟨[], rfl, by simp⟩

end View

/-! ### One token -/

section Token

variable {c} {t : ApiToken} {v : View}

@[simp] theorem lists_setEntry (key : MapKey) (apiToken : ApiToken) (n : Option ℤ) :
    (v.setEntry key apiToken n).lists = v.lists := rfl

@[simp] theorem maps_removeToken (key : ListKey) (apiToken : ApiToken) :
    (v.removeToken key apiToken).maps = v.maps := rfl

@[simp] theorem maps_addToken (key : ListKey) (apiToken : ApiToken) :
    (v.addToken key apiToken).maps = v.maps := by
  rw [View.addToken]
  split
  · rfl
  · rfl

@[simp] theorem maps_setEntry (key key' : MapKey) (apiToken : ApiToken) (n : Option ℤ) :
    (v.setEntry key apiToken n).maps key' t =
      if key' = key ∧ t = apiToken then n else v.maps key' t := by
  simp only [View.setEntry, View.setMap, Function.update_apply]
  by_cases hkey : key' = key
  · subst hkey
    simp [Function.update_apply]
  · simp [hkey]

@[simp] theorem mem_removeToken (key key' : ListKey) (apiToken : ApiToken) :
    t ∈ (v.removeToken key apiToken).lists key' ↔
      t ∈ v.lists key' ∧ (key' = key → t ≠ apiToken) := by
  by_cases hkey : key' = key
  · subst hkey
    simp [View.removeToken, View.setList, removeElement]
  · simp [View.removeToken, View.setList, hkey]

@[simp] theorem mem_addToken (key key' : ListKey) (apiToken : ApiToken) :
    t ∈ (v.addToken key apiToken).lists key' ↔
      t ∈ v.lists key' ∨ key' = key ∧ t = apiToken := by
  rw [View.addToken]
  split
  · rename_i hmem
    constructor
    · exact .inl
    · rintro (h | ⟨rfl, rfl⟩)
      · exact h
      · exact hmem
  · by_cases hkey : key' = key
    · subst hkey
      simp [View.setList]
    · simp [View.setList, hkey]

/-- To restore a token puts it on the list, and leaves the others where they are. -/
@[simp] theorem mem_restore (apiToken : ApiToken) :
    t ∈ (v.restore apiToken).lists .apiTokens ↔ t ∈ v.lists .apiTokens ∨ t = apiToken := by
  simp [View.restore]

@[simp] theorem maps_restore (apiToken : ApiToken) : (v.restore apiToken).maps = v.maps := by
  simp [View.restore]

/-- What the rule is about is the same for a token. -/
structure SameFor (t : ApiToken) (v v' : View) : Prop where
  available : t ∈ v'.lists .apiTokens ↔ t ∈ v.lists .apiTokens
  successes : v'.maps .apiTokenRequestSuccessCount t = v.maps .apiTokenRequestSuccessCount t
  since : v'.maps .apiTokenUnavailableSince t = v.maps .apiTokenUnavailableSince t

/-- The recovery of other tokens. -/
theorem sameFor_foldl_recover {recovered : List ApiToken} (h : t ∉ recovered) :
    SameFor t v (recovered.foldl View.recover v) := by
  induction recovered generalizing v with
  | nil => exact ⟨.rfl, rfl, rfl⟩
  | cons apiToken recovered ih =>
      obtain ⟨hne, hrest⟩ := List.ne_and_not_mem_of_not_mem_cons h
      have hsame := @ih (v.recover apiToken) hrest
      refine ⟨hsame.available.trans ?_, hsame.successes.trans ?_, hsame.since.trans ?_⟩
      · simp [View.recover, hne]
      · simp [View.recover]
      · simp [View.recover, hne]

theorem mem_foldl_recover {recovered : List ApiToken} :
    t ∈ (recovered.foldl View.recover v).lists .apiTokens ↔
      t ∈ v.lists .apiTokens ∨ t ∈ recovered := by
  induction recovered generalizing v with
  | nil => simp
  | cons apiToken recovered ih => simp [ih, View.recover, or_assoc]

/-- A failed request of another token, or one below the threshold. -/
theorem sameFor_handleUnavailableApiToken {clock : ℕ} {s : Store Value} {apiToken : ApiToken}
    (h : t = apiToken → t ∈ (view s).lists .apiTokens →
      ((view s).maps .apiTokenRequestFailureCount t).getD 0 + 1 < c.failureThreshold) :
    SameFor t (view s) (view ((handleUnavailableApiToken c apiToken).exec clock s).2) := by
  rw [view_handleUnavailableApiToken]
  split
  · exact ⟨.rfl, rfl, rfl⟩
  · rename_i hmem
    simp only [not_not] at hmem
    split
    · rename_i hthreshold
      have hne : t ≠ apiToken := by
        rintro rfl
        exact absurd (h rfl hmem) (by simpa using hthreshold)
      dsimp only
      split
      · constructor <;> simp [hne]
      · constructor <;> simp [hne]
    · constructor <;> simp

end Token

/-! ### The rule -/

def State.available (st : State) : List ApiToken := (view st.store).lists .apiTokens

/-- In a run a token is out of the available list all the time. -/
def StaysOut (t : ApiToken) : State → List Event → Prop
  | st, [] => t ∉ st.available
  | st, e :: events => t ∉ st.available ∧ ∀ st' ∈ step c st e, StaysOut t st' events

/-- The rule for a run: wherever a token leaves the available list and comes back, there are
enough successful health checks in between, or its cooldown has elapsed. -/
def RestorationRule (st : State) (events : List Event) : Prop :=
  ∀ (pre mid post : List Event) (left back : Event) (t : ApiToken),
    events = pre ++ left :: (mid ++ back :: post) →
    ∀ st₀ ∈ run c st pre, ∀ st₁ ∈ step c st₀ left, ∀ st₂ ∈ run c st₁ mid, ∀ st₃ ∈ step c st₂ back,
      t ∈ st₀.available → StaysOut c t st₁ mid → t ∈ st₃.available →
        c.successThreshold ≤ (mid ++ [back]).count (.healthCheck t true) ∨
          0 < c.cooldownDuration ∧ c.cooldownDuration ≤ (st₃.clock : ℤ) - st₁.clock

/-- No successful health checks of an earlier time are left when a failed request takes a token
out of the available list. -/
def NoLeftover (st : State) : Event → Prop
  | .requestFailed apiToken => apiToken ∈ st.available →
      c.failureThreshold ≤
        ((view st.store).maps .apiTokenRequestFailureCount apiToken).getD 0 + 1 →
      (view st.store).maps .apiTokenRequestSuccessCount apiToken = none
  | _ => True

/-- The same in all steps of a run. -/
def NoLeftovers : State → List Event → Prop
  | _, [] => True
  | st, e :: events => NoLeftover c st e ∧ ∀ st' ∈ step c st e, NoLeftovers st' events

instance decidableStaysOut (t : ApiToken) :
    (st : State) → (events : List Event) → Decidable (StaysOut c t st events)
  | st, [] => inferInstanceAs (Decidable (t ∉ st.available))
  | st, e :: events =>
      have : ∀ st', Decidable (StaysOut c t st' events) := fun st' =>
        decidableStaysOut t st' events
      inferInstanceAs (Decidable (t ∉ st.available ∧ ∀ st' ∈ step c st e, StaysOut c t st' events))

instance decidableNoLeftover (st : State) : (e : Event) → Decidable (NoLeftover c st e)
  | .requestFailed _ => inferInstanceAs (Decidable (_ → _ → _ = _))
  | .requestSucceeded _ => isTrue trivial
  | .healthCheck _ _ => isTrue trivial
  | .tick => isTrue trivial
  | .wait _ => isTrue trivial

instance decidableNoLeftovers :
    (st : State) → (events : List Event) → Decidable (NoLeftovers c st events)
  | _, [] => isTrue trivial
  | st, e :: events =>
      have : ∀ st', Decidable (NoLeftovers c st' events) := fun st' =>
        decidableNoLeftovers st' events
      inferInstanceAs (Decidable (NoLeftover c st e ∧ ∀ st' ∈ step c st e, NoLeftovers c st' events))

section Rule

variable {c} {t : ApiToken}

/-- What a step does to a token. -/
inductive TokenStep (c : ProviderConfig) (t : ApiToken) (st st' : State) : Event → Prop
  | same {e : Event} (hne : e ≠ .healthCheck t true)
      (hsame : SameFor t (view st.store) (view st'.store)) : TokenStep c t st st' e
  | failed (hclock : st'.clock = st.clock) (hmem : t ∈ st.available)
      (hthreshold : c.failureThreshold ≤
        ((view st.store).maps .apiTokenRequestFailureCount t).getD 0 + 1)
      (hout : t ∉ st'.available)
      (hsuccesses : (view st'.store).maps .apiTokenRequestSuccessCount t =
        (view st.store).maps .apiTokenRequestSuccessCount t)
      (hsince : 0 < c.cooldownDuration →
        (view st'.store).maps .apiTokenUnavailableSince t = some (st.clock : ℤ)) :
      TokenStep c t st st' (.requestFailed t)
  | counted
      (hthreshold : ((view st.store).maps .apiTokenRequestSuccessCount t).getD 0 + 1 <
        c.successThreshold)
      (hmem : t ∈ st'.available ↔ t ∈ st.available)
      (hsuccesses : (view st'.store).maps .apiTokenRequestSuccessCount t =
        some (((view st.store).maps .apiTokenRequestSuccessCount t).getD 0 + 1))
      (hsince : (view st'.store).maps .apiTokenUnavailableSince t =
        (view st.store).maps .apiTokenUnavailableSince t) :
      TokenStep c t st st' (.healthCheck t true)
  | healthy (hmem : t ∈ st'.available)
      (hthreshold : c.successThreshold ≤
        ((view st.store).maps .apiTokenRequestSuccessCount t).getD 0 + 1) :
      TokenStep c t st st' (.healthCheck t true)
  | cooled (hclock : st'.clock = st.clock) (hmem : t ∈ st'.available)
      (hcooldown : 0 < c.cooldownDuration)
      (hcooled : Cooled c ((view st.store).maps .apiTokenUnavailableSince) st.clock t) :
      TokenStep c t st st' .tick

theorem tokenStep_requestFailed (st : State) (apiToken : ApiToken) :
    TokenStep c t st { st with
      store := ((handleUnavailableApiToken c apiToken).exec st.clock st.store).2 }
      (.requestFailed apiToken) := by
  by_cases hfails : t = apiToken ∧ t ∈ st.available ∧ c.failureThreshold ≤
      ((view st.store).maps .apiTokenRequestFailureCount t).getD 0 + 1
  · obtain ⟨rfl, hmem, hthreshold⟩ := hfails
    have hview := @view_handleUnavailableApiToken c st.clock st.store t
    rw [State.available] at hmem
    rw [if_neg (not_not.mpr hmem), if_pos hthreshold] at hview
    refine TokenStep.failed rfl hmem hthreshold ?_ ?_ ?_
    · rw [State.available, hview]
      dsimp only
      split
      · simp
      · simp
    · rw [hview]
      dsimp only
      split
      · simp
      · simp
    · intro hcooldown
      rw [hview]
      simp [hcooldown]
  · apply TokenStep.same (by simp)
    apply sameFor_handleUnavailableApiToken
    intro ht hmem
    by_contra hthreshold
    exact hfails ⟨ht, hmem, Int.not_lt.mp hthreshold⟩

theorem tokenStep_healthCheck (st : State) (apiToken : ApiToken) (probes : List ApiToken) :
    TokenStep c t st
      ⟨st.clock, ((handleAvailableApiToken c apiToken).exec st.clock st.store).2, probes⟩
      (.healthCheck apiToken true) := by
  have hview := @view_handleAvailableApiToken c st.clock st.store apiToken
  by_cases ht : t = apiToken
  · subst ht
    split at hview
    · rename_i hthreshold
      refine TokenStep.healthy ?_ hthreshold
      rw [State.available, hview]
      simp
    · rename_i hthreshold
      refine TokenStep.counted (Int.not_le.mp hthreshold) ?_ ?_ ?_
      · rw [State.available, hview]
        rfl
      · rw [hview]
        simp
      · rw [hview]
        simp
  · apply TokenStep.same (by simpa using Ne.symm ht)
    rw [hview]
    split
    · constructor <;> simp [ht]
    · constructor <;> simp [ht]

/-- Every step is one of these. -/
theorem tokenStep_of_step {st st' : State} {e : Event} (hstep : st' ∈ step c st e)
    (t : ApiToken) : TokenStep c t st st' e := by
  cases e with
  | requestFailed apiToken =>
      obtain rfl := Option.some.inj hstep
      exact tokenStep_requestFailed st apiToken
  | requestSucceeded apiToken =>
      obtain rfl := Option.some.inj hstep
      apply TokenStep.same (by simp)
      rw [view_resetApiTokenRequestFailureCount]
      split
      · exact ⟨.rfl, rfl, rfl⟩
      · constructor <;> simp
  | healthCheck apiToken ok =>
      rw [step] at hstep
      split at hstep
      · obtain rfl := Option.some.inj hstep
        cases ok with
        | true => exact tokenStep_healthCheck st apiToken _
        | false => exact TokenStep.same (by simp) ⟨.rfl, rfl, rfl⟩
      · cases hstep
  | tick =>
      obtain rfl := Option.some.inj hstep
      obtain ⟨recovered, hview, hcooled⟩ :=
        @view_healthCheckTick c st.clock st.store
      by_cases ht : t ∈ recovered
      · refine TokenStep.cooled rfl ?_ (hcooled t ht).1 (hcooled t ht).2
        rw [State.available, hview]
        exact mem_foldl_recover.mpr (.inr ht)
      · apply TokenStep.same (by simp)
        rw [hview]
        exact sameFor_foldl_recover ht
  | wait n =>
      obtain rfl := Option.some.inj hstep
      exact TokenStep.same (by simp) ⟨.rfl, rfl, rfl⟩

theorem StaysOut.not_mem {st : State} {events : List Event} (h : StaysOut c t st events) :
    t ∉ st.available := by
  cases events with
  | nil => exact h
  | cons e events => exact h.1

/-- A token is out since a time, with some health checks that have succeeded. -/
structure Out (c : ProviderConfig) (t : ApiToken) (since n : ℕ) (v : View) : Prop where
  out : t ∉ v.lists .apiTokens
  successes : (v.maps .apiTokenRequestSuccessCount t).getD 0 = n
  since : 0 < c.cooldownDuration → v.maps .apiTokenUnavailableSince t = some (since : ℤ)

theorem Out.of_sameFor {since n : ℕ} {v v' : View} (h : Out c t since n v)
    (hsame : SameFor t v v') : Out c t since n v' :=
  ⟨fun hmem => h.out (hsame.available.mp hmem), by rw [hsame.successes, h.successes],
    fun hcooldown => by rw [hsame.since, h.since hcooldown]⟩

/-- A token that leaves the list is out since then. -/
theorem out_of_left {st st' : State} {e : Event} (hstep : st' ∈ step c st e)
    (hclean : NoLeftover c st e) (hbefore : t ∈ st.available) (hleft : t ∉ st'.available) :
    Out c t st'.clock 0 (view st'.store) := by
  cases tokenStep_of_step hstep t with
  | same hne hsame => exact absurd (hsame.available.mpr hbefore) hleft
  | failed hclock hmem hthreshold hout hsuccesses hsince =>
      refine ⟨hout, ?_, fun hcooldown => ?_⟩
      · rw [hsuccesses, hclean hmem hthreshold]
        rfl
      · rw [hsince hcooldown, hclock]
  | counted hthreshold hmem hsuccesses hsince => exact absurd (hmem.mpr hbefore) hleft
  | healthy hmem hthreshold => exact absurd hmem hleft
  | cooled hclock hmem hcooldown hcooled => exact absurd hmem hleft

/-- While a token stays out, its successful health checks are counted. -/
theorem Out.step {st st' : State} {e : Event} {since n : ℕ}
    (h : Out c t since n (view st.store)) (hstep : st' ∈ Failover.step c st e)
    (hout : t ∉ st'.available) :
    Out c t since (n + [e].count (.healthCheck t true)) (view st'.store) := by
  cases tokenStep_of_step hstep t with
  | same hne hsame =>
      rw [List.count_eq_zero_of_not_mem (by simpa using hne.symm)]
      exact h.of_sameFor hsame
  | failed hclock hmem hthreshold _ hsuccesses hsince => exact absurd hmem h.out
  | counted hthreshold hmem hsuccesses hsince =>
      refine ⟨hout, ?_, fun hcooldown => hsince.trans (h.since hcooldown)⟩
      simp [hsuccesses, h.successes]
  | healthy hmem hthreshold => exact absurd hmem hout
  | cooled hclock hmem hcooldown hcooled => exact absurd hmem hout

theorem Out.run {st st' : State} {events : List Event} {since n : ℕ}
    (h : Out c t since n (view st.store)) (hrun : st' ∈ Failover.run c st events)
    (hout : StaysOut c t st events) :
    Out c t since (n + events.count (.healthCheck t true)) (view st'.store) := by
  induction events generalizing st n with
  | nil =>
      obtain rfl := Option.some.inj hrun
      exact h
  | cons e events ih =>
      obtain ⟨st₁, hstep, hrest⟩ := Option.bind_eq_some_iff.mp hrun
      have hout₁ := hout.2 st₁ hstep
      have hnext := ih (h.step hstep (StaysOut.not_mem hout₁)) hrest hout₁
      rwa [← List.singleton_append, List.count_append, ← Nat.add_assoc]

/-- How a token that is out comes back. -/
theorem Out.back {st st' : State} {e : Event} {since n : ℕ}
    (h : Out c t since n (view st.store)) (hstep : st' ∈ Failover.step c st e)
    (hback : t ∈ st'.available) :
    c.successThreshold ≤ n + [e].count (.healthCheck t true) ∨
      0 < c.cooldownDuration ∧ c.cooldownDuration ≤ (st'.clock : ℤ) - since := by
  cases tokenStep_of_step hstep t with
  | same hne hsame => exact absurd (hsame.available.mp hback) h.out
  | failed hclock hmem hthreshold hout hsuccesses hsince => exact absurd hmem h.out
  | counted hthreshold hmem hsuccesses hsince => exact absurd (hmem.mp hback) h.out
  | healthy hmem hthreshold =>
      rw [h.successes] at hthreshold
      exact .inl (by simpa using hthreshold)
  | cooled hclock hmem hcooldown hcooled =>
      obtain ⟨since', hsince', helapsed⟩ := hcooled
      rw [h.since hcooldown] at hsince'
      obtain rfl := Option.some.inj hsince'
      exact .inr ⟨hcooldown, by rw [hclock]; exact helapsed⟩

theorem NoLeftovers.of_append {st st' : State} {pre post : List Event}
    (h : NoLeftovers c st (pre ++ post)) (hrun : st' ∈ Failover.run c st pre) :
    NoLeftovers c st' post := by
  induction pre generalizing st with
  | nil =>
      obtain rfl := Option.some.inj hrun
      exact h
  | cons e pre ih =>
      obtain ⟨st₁, hstep, hrest⟩ := Option.bind_eq_some_iff.mp hrun
      exact ih (h.2 st₁ hstep) hrest

end Rule

/-- A run in which no successful health checks are left over keeps the rule. -/
theorem restorationRule_of_noLeftovers (st : State) (events : List Event)
    (h : NoLeftovers c st events) : RestorationRule c st events := by
  rintro pre mid post left back t rfl st₀ hpre st₁ hleft st₂ hmid st₃ hback hbefore hout hmem
  have hclean := (h.of_append hpre).1
  have hout₁ := out_of_left hleft hclean hbefore hout.not_mem
  have hout₂ := hout₁.run hmid hout
  have hrule := hout₂.back hback hmem
  rwa [Nat.zero_add, ← Int.natCast_add, ← List.count_append] at hrule

/-- The failover with one token, which two health checks or ten milliseconds restore. -/
def oneToken : ProviderConfig := ⟨[[97]], 1, 2, 10, [109]⟩

theorem restorationRule_of_noLeftovers_oneToken :
    RestorationRule oneToken (start oneToken 0 fun _ => none)
      [.requestFailed [97], .tick, .healthCheck [97] true, .tick, .healthCheck [97] true,
        .requestFailed [97], .wait 10, .tick] :=
  restorationRule_of_noLeftovers oneToken _ _ (by decide)

/-- The token is restored by the cooldown after one successful health check; the next time one
more is enough. -/
theorem not_restorationRule :
    ¬ RestorationRule oneToken (start oneToken 0 fun _ => none)
      [.requestFailed [97], .tick, .healthCheck [97] true, .wait 10, .tick,
        .requestFailed [97], .tick, .healthCheck [97] true] := by
  intro h
  have hlast := h
    [.requestFailed [97], .tick, .healthCheck [97] true, .wait 10, .tick] [.tick] []
    (.requestFailed [97]) (.healthCheck [97] true) [97] rfl
  revert hlast
  set_option synthInstance.maxSize 1000 in
  decide

end Higress.AiProxy.Failover
