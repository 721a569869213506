import Mathlib.Data.List.Perm.Basic
import Higress.ApiWorkflow.Execution

/-!
The requests that one instance of the plugin serves. The context of each request holds the map of
counters of the configuration itself, so a request goes on counting where the others have left off:
the second request to a workflow finds the counters at zero.

A request is served as if it were the only one since the configuration was loaded, if no answer to
it reads a counter that another request has counted down (`Undisturbed`).
-/

namespace Higress.ApiWorkflow

open Lib

/-! ### Counting down -/

/-- Counters that have been counted down, once for each name of a list. -/
def Status.down (s : Status) (names : List GoString) : Status := names.foldl Status.dec s

theorem Status.dec_comm (s : Status) (a b : GoString) : (s.dec a).dec b = (s.dec b).dec a := by
  by_cases hab : a = b
  · rw [hab]
  · unfold Status.dec Status.count
    rw [Function.update_of_ne (Ne.symm hab), Function.update_of_ne hab,
      Function.update_comm hab]

theorem Status.down_append (s : Status) (names more : List GoString) :
    s.down (names ++ more) = (s.down names).down more :=
  List.foldl_append

theorem Status.down_perm {s : Status} {names names' : List GoString} (h : names.Perm names') :
    s.down names = s.down names' := by
  have : RightCommutative Status.dec := ⟨Status.dec_comm⟩
  exact h.foldl_eq s

/-- A counter depends on how often it was counted down only. -/
theorem Status.down_filter (s : Status) (names : List GoString) (x : GoString) :
    s.down names x = s.down (names.filter (· = x)) x := by
  have hsame {s s' : Status} (h : s x = s' x) (l : List GoString) : s.down l x = s'.down l x := by
    induction l generalizing s s' with
    | nil => exact h
    | cons name l ih =>
        refine ih ?_
        by_cases hx : x = name
        · simp [Status.dec, Status.count, ← hx, h]
        · simp [Status.dec, hx, h]
  induction names generalizing s with
  | nil => rfl
  | cons name names ih =>
      by_cases hx : name = x
      · rw [List.filter_cons_of_pos (by simpa using hx)]
        exact ih (s.dec name)
      · rw [List.filter_cons_of_neg (by simpa using hx), ← ih]
        exact hsame (by simp [Status.dec, Ne.symm hx]) names

section

variable {libs : Libs} {cfg : Config} {visit : Visit} {task : GoString}

theorem arrive_status (next : Edge) (s : Status) :
    (arrive next s).status = s.down (arrive next s).counted := by
  unfold arrive
  dsimp only
  split_ifs <;> rfl

theorem nextLoop_status (edges : List Edge) (s : Status) :
    (nextLoop libs cfg visit task edges s).status =
      s.down (nextLoop libs cfg visit task edges s).counted := by
  induction edges generalizing s with
  | nil => rfl
  | cons next edges ih =>
      have harrive := arrive_status next s
      rw [nextLoop]
      dsimp only
      split
      next => exact ih s
      next =>
        split
        next => exact harrive
        next =>
          split
          next => exact harrive
          next =>
            dsimp only
            rw [ih, Status.down_append, ← harrive]
            rfl
          next =>
            split
            next => exact harrive
            next =>
              dsimp only
              rw [ih, Status.down_append, ← harrive]

/-! ### The counters that a walk reads -/

/-- The walk over the edges from a task reads the counter of `name`: an edge arrives there, or a
counter is found below zero and the response shows all of them. -/
def Reads (libs : Libs) (cfg : Config) (visit : Visit) (task name : GoString) :
    List Edge → Status → Prop
  | [], _ => False
  | next :: edges, s =>
      if next.source ≠ task then Reads libs cfg visit task name edges s
      else
        (IsTask next.target ∧ name = next.target) ∨
          match (arrive next s).leave with
          | some actions => actions ≠ []
          | none =>
              match isPass libs next visit.bodies with
              | .error _ => False
              | .ok true =>
                  Reads libs cfg visit task name edges ((arrive next s).status.dec next.target)
              | .ok false =>
                  match recursive libs cfg visit next with
                  | .error _ => False
                  | .ok _ => Reads libs cfg visit task name edges (arrive next s).status

/-- What a walk does, the counters apart. -/
def Walk.effect (walk : Walk) : List Edge × List GoString × List Action :=
  (walk.considered, walk.counted, walk.actions)

theorem dec_congr {s s' : Status} {name x : GoString} (h : s x = s' x) :
    s.dec name x = s'.dec name x := by
  by_cases hx : x = name
  · simp [Status.dec, Status.count, ← hx, h]
  · simp [Status.dec, hx, h]

/-- An edge arrives alike where its counter is the same, and all counters if it is below zero. -/
theorem arrive_congr {next : Edge} {s s' : Status}
    (hread : IsTask next.target → s next.target = s' next.target)
    (hall : ∀ actions, (arrive next s).leave = some actions → actions ≠ [] → s = s') :
    (arrive next s).leave = (arrive next s').leave ∧
      (arrive next s).counted = (arrive next s').counted ∧
      ∀ x, s x = s' x → (arrive next s).status x = (arrive next s').status x := by
  by_cases htask : IsTask next.target
  case neg =>
    have harrive (s : Status) : arrive next s = ⟨s, [], none⟩ := by simp only [arrive, if_neg htask]
    rw [harrive, harrive]
    exact ⟨rfl, rfl, fun _ h => h⟩
  have hcount : (s.dec next.target).count next.target = (s'.dec next.target).count next.target := by
    rw [Status.count_dec_self, Status.count_dec_self, Status.count, Status.count, hread htask]
  have hdec : ∀ x, s x = s' x → s.dec next.target x = s'.dec next.target x :=
    fun _ h => dec_congr h
  simp only [arrive, if_pos htask, hcount] at hall ⊢
  split
  next => exact ⟨rfl, rfl, hdec⟩
  next hpos =>
    split
    next hneg =>
      rw [if_neg hpos, if_pos hneg] at hall
      have heq : s = s' := hall _ rfl (by simp)
      exact ⟨by rw [heq], rfl, hdec⟩
    next => exact ⟨rfl, rfl, hdec⟩

/-- Walks do the same where they read the same counters. -/
theorem nextLoop_congr {edges : List Edge} {s s' : Status}
    (h : ∀ x, Reads libs cfg visit task x edges s → s x = s' x) :
    (nextLoop libs cfg visit task edges s).effect =
      (nextLoop libs cfg visit task edges s').effect := by
  induction edges generalizing s s' with
  | nil => rfl
  | cons next edges ih =>
      simp only [Reads] at h
      rw [nextLoop, nextLoop]
      dsimp only
      split
      next hsource =>
        simp only [if_pos hsource] at h
        exact ih h
      next hsource =>
        simp only [if_neg hsource] at h
        obtain ⟨hleave, hcounted, hstatus⟩ := @arrive_congr next s s'
          (fun htask => h _ (.inl ⟨htask, rfl⟩))
          (fun actions hactions hne => funext fun x => h x (.inr (by simpa [hactions] using hne)))
        rw [← hleave]
        split
        next => simp [Walk.effect, hcounted]
        next hnone =>
          simp only [hnone] at h
          split
          next => simp [Walk.effect, hcounted]
          next hpass =>
            simp only [hpass] at h
            have := @ih ((arrive next s).status.dec next.target)
              ((arrive next s').status.dec next.target) fun x hx => dec_congr (hstatus x (h x (.inr hx)))
            simp only [Walk.effect, Prod.mk.injEq] at this ⊢
            simp [hcounted, this]
          next hpass =>
            simp only [hpass] at h
            split
            next => simp [Walk.effect, hcounted]
            next haction =>
              simp only [haction] at h
              have := ih fun x hx => hstatus x (h x (.inr hx))
              simp only [Walk.effect, Prod.mk.injEq] at this ⊢
              simp [hcounted, this]

end

/-! ### Requests -/

section Requests

variable (libs : Libs) (cfg : Config)

/-- The requests of an instance, after a number of events. -/
def serveAll (s : Status) (events : List (Sessions.Event Unit Happening)) : Sessions Status Request :=
  Sessions.run Request.fresh (handle libs cfg) ⟨s, []⟩ events

/-- The counter of `name` is read when an answer arrives. -/
def ReadsAnswer (s : Status) (r : Request) (name : GoString) : Happening → Prop
  | .body _ _ => False
  | .answer call statusCode headers body callError => ∃ edge depth request timeout,
      r.actions[call]? = some (.call edge depth request timeout) ∧ call ∉ r.answered ∧
        statusCode < 400 ∧
        Reads libs cfg ⟨nextHeaders headers, body, depth + 1,
          Function.update r.bodies edge.target (some body), callError⟩ edge.target name cfg.edges s

/-- The condition on what happens: no counter that is read was counted down by another request. -/
def Undisturbed (w : Sessions Status Request) : Sessions.Event Unit Happening → Prop
  | .opened _ => True
  | .act i e => ∀ r, w.all[i]? = some r → ∀ name, ReadsAnswer libs cfg w.shared r name e →
      ∀ j other, w.all[j]? = some other → j ≠ i → name ∉ other.counted

variable {libs cfg}

/-- What happens to a request counts down the counters that it adds to its list. -/
theorem handle_counted (s : Status) (r : Request) (e : Happening) :
    ∃ names, (handle libs cfg s r e).1 = s.down names ∧
      (handle libs cfg s r e).2.counted = r.counted ++ names := by
  have hnone : ∃ names, s = s.down names ∧ r.counted = r.counted ++ names :=
    ⟨[], rfl, (List.append_nil _).symm⟩
  cases e with
  | body body callError =>
      unfold handle
      dsimp only
      split <;> exact hnone
  | answer call statusCode headers body callError =>
      unfold handle
      dsimp only
      split
      next =>
        split
        next => exact hnone
        next =>
          unfold onAnswer
          dsimp only
          split
          next => exact hnone
          next =>
            split
            next => exact hnone
            next => exact ⟨_, nextLoop_status _ _, rfl⟩
      next => exact hnone

/-- A request goes on alike with counters that agree where they are read. -/
theorem handle_congr {s s' : Status} {r : Request} {e : Happening}
    (h : ∀ x, ReadsAnswer libs cfg s r x e → s x = s' x) :
    (handle libs cfg s r e).2 = (handle libs cfg s' r e).2 := by
  cases e with
  | body body callError =>
      unfold handle
      dsimp only
      split <;> rfl
  | answer call statusCode headers body callError =>
      unfold handle
      dsimp only
      split
      next edge depth request timeout hat =>
        split
        next => rfl
        next hnew =>
          unfold onAnswer
          dsimp only
          split
          next => rfl
          next hcode =>
            split
            next => rfl
            next =>
              have heffect := nextLoop_congr fun x hx =>
                h x ⟨edge, depth, request, timeout, hat, hnew, Nat.not_le.1 hcode, hx⟩
              simp only [Walk.effect, Prod.mk.injEq] at heffect
              simp only [heffect]
      next => rfl

/-- The counters are those of the configuration, counted down by all requests together. -/
def CountedDown (s : Status) (w : Sessions Status Request) : Prop :=
  w.shared = s.down (w.all.flatMap Request.counted)

theorem exists_split {α : Type*} {xs : List α} {i : ℕ} {x : α} (h : xs[i]? = some x) :
    ∃ l l', xs = l ++ x :: l' ∧ i = l.length := by
  obtain ⟨hlt, rfl⟩ := List.getElem?_eq_some_iff.1 h
  refine ⟨xs.take i, xs.drop (i + 1), by simp, ?_⟩
  rw [List.length_take]
  omega

theorem CountedDown.step {s : Status} {w : Sessions Status Request} (h : CountedDown s w)
    (e : Sessions.Event Unit Happening) :
    CountedDown s (Sessions.step Request.fresh (handle libs cfg) w e) := by
  cases e with
  | opened a => simpa [CountedDown, Sessions.step, Request.fresh] using h
  | act i e =>
      cases hr : w.all[i]? with
      | none => simpa [Sessions.step, hr] using h
      | some r =>
          obtain ⟨names, hstatus, hcounted⟩ := @handle_counted libs cfg w.shared r e
          obtain ⟨l, l', hall, rfl⟩ := exists_split hr
          have hdown : (handle libs cfg w.shared r e).1 =
              s.down (w.all.flatMap Request.counted ++ names) := by
            rw [hstatus, Status.down_append]
            exact congrArg (Status.down · names) h
          simp only [CountedDown, Sessions.step, hr, hdown]
          apply Status.down_perm
          simp only [hall, List.set_append_right _ _ (le_refl _), Nat.sub_self, List.set_cons_zero,
            List.flatMap_append, List.flatMap_cons, hcounted, List.append_assoc]
          exact (List.perm_append_comm.append_left _).append_left _

/-- A counter that no other request has counted down is what the request alone has left of it. -/
theorem CountedDown.eq_solo {s : Status} {w : Sessions Status Request} (h : CountedDown s w)
    {i : ℕ} {r : Request} (hr : w.all[i]? = some r) {x : GoString}
    (hother : ∀ j other, w.all[j]? = some other → j ≠ i → x ∉ other.counted) :
    w.shared x = s.down r.counted x := by
  obtain ⟨l, l', hall, rfl⟩ := exists_split hr
  have hbefore : ∀ other ∈ l, x ∉ other.counted := by
    intro other hmem
    obtain ⟨j, hj⟩ := List.getElem?_of_mem hmem
    have hlt : j < l.length := (List.getElem?_eq_some_iff.1 hj).1
    exact hother j other (by rw [hall, List.getElem?_append_left hlt, hj]) hlt.ne
  have hafter : ∀ other ∈ l', x ∉ other.counted := by
    intro other hmem
    obtain ⟨j, hj⟩ := List.getElem?_of_mem hmem
    refine hother (l.length + (j + 1)) other ?_ (by omega)
    rw [hall, List.getElem?_append_right (by omega), Nat.add_sub_cancel_left]
    exact hj
  have hnone {l : List Request} (hl : ∀ other ∈ l, x ∉ other.counted) :
      (l.flatMap Request.counted).filter (· = x) = [] := by
    rw [List.filter_eq_nil_iff]
    intro name hname
    obtain ⟨other, hmem, hin⟩ := List.mem_flatMap.1 hname
    have : name ≠ x := fun heq => hl other hmem (heq ▸ hin)
    simpa using this
  calc
    w.shared x = s.down ((w.all.flatMap Request.counted).filter (· = x)) x := by
      rw [h]
      exact Status.down_filter s _ x
    _ = s.down (r.counted.filter (· = x)) x := by
      rw [hall, List.flatMap_append, List.flatMap_cons, List.filter_append, List.filter_append,
        hnone hbefore, hnone hafter, List.nil_append, List.append_nil]
    _ = s.down r.counted x := (Status.down_filter s _ x).symm

/-- In every run in which no answer reads a counter that another request has counted down, each
request is served as if it were the only one. -/
theorem serveAll_alone {s : Status} {events : List (Sessions.Event Unit Happening)}
    (hc : Sessions.Along Request.fresh (handle libs cfg) (Undisturbed libs cfg) ⟨s, []⟩ events)
    (i : ℕ) :
    (serveAll libs cfg s events).all[i]? =
      (serveAll libs cfg s (Sessions.alone i 0 events)).all[0]? := by
  have hsolo (r : Request) (e : Happening) :
      s.down (handle libs cfg (s.down r.counted) r e).2.counted =
        (handle libs cfg (s.down r.counted) r e).1 := by
    obtain ⟨names, hstatus, hcounted⟩ := @handle_counted libs cfg (s.down r.counted) r e
    rw [hstatus, hcounted, Status.down_append]
  refine @Sessions.run_alone _ _ _ _ Request.fresh (handle libs cfg) (Undisturbed libs cfg)
    (CountedDown s) (fun r => s.down r.counted) s i (fun _ => rfl) hsolo (fun w e hw => hw.step e)
    (fun w j r e hw hr hundisturbed => ?_) ⟨s, []⟩ ⟨s, []⟩ rfl ⟨rfl, rfl, rfl⟩ events hc
  refine handle_congr fun x hx => hw.eq_solo hr fun k other hother hne => ?_
  exact hundisturbed r hr x hx k other hother hne

end Requests

/-! ### Samples -/

namespace Sample

def chain : Config := config ["A", "B"] [edge "start" "A", edge "A" "B"]

/-- The first request has its first answer before the second one arrives. -/
def twoRequests : List (Sessions.Event Unit Happening) :=
  [.opened (), .act 0 body, .act 0 (answer 0), .opened (), .act 1 body, .act 1 (answer 0)]

/-- The first request has its first answer while the second one waits for its own. -/
def overlapping : List (Sessions.Event Unit Happening) :=
  [.opened (), .act 0 body, .opened (), .act 1 body, .act 0 (answer 0)]

theorem undisturbed_of_nil {cfg : Config} {w : Sessions Status Request}
    (h : ∀ r ∈ w.all, r.counted = []) (e : Sessions.Event Unit Happening) :
    Undisturbed libs cfg w e := by
  cases e with
  | opened _ => exact True.intro
  | act i e =>
      intro r _ name _ j other hother _
      rw [h other (List.mem_of_getElem? hother)]
      exact List.not_mem_nil

theorem along_overlapping :
    Sessions.Along Request.fresh (handle libs chain) (Undisturbed libs chain) ⟨status chain, []⟩
      overlapping :=
  ⟨undisturbed_of_nil (by decide) _, undisturbed_of_nil (by decide) _,
    undisturbed_of_nil (by decide) _, undisturbed_of_nil (by decide) _,
    undisturbed_of_nil (by decide) _, True.intro⟩

end Sample

theorem serveAll_alone_overlapping :
    (serveAll Sample.libs Sample.chain (Sample.status Sample.chain)
        Sample.overlapping).all[0]?.map Request.called = some [bytes "A", bytes "B"] ∧
      (serveAll Sample.libs Sample.chain (Sample.status Sample.chain) Sample.overlapping).all[0]? =
        (serveAll Sample.libs Sample.chain (Sample.status Sample.chain)
          (Sessions.alone 0 0 Sample.overlapping)).all[0]? :=
  ⟨by decide, serveAll_alone Sample.along_overlapping 0⟩

/-- The second request to a workflow finds the counters where the first has left them: it fails,
where it would have called the next task. -/
theorem second_request_fails :
    ((serveAll Sample.libs Sample.chain (Sample.status Sample.chain)
        Sample.twoRequests).all[1]?.map Request.called = some [bytes "A"]) ∧
      ((serveAll Sample.libs Sample.chain (Sample.status Sample.chain)
        (Sessions.alone 1 0 Sample.twoRequests)).all[0]?.map Request.called =
          some [bytes "A", bytes "B"]) := by
  decide

end Higress.ApiWorkflow
