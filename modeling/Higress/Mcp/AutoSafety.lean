import Higress.Mcp.AutoExchange

/-!
Safety of the automatic exchange over all its runs: what an observer sees of
it, and the invariant between callbacks from which this follows. Inside a
callback only cancellation steps can intervene, and these neither respond nor
dispatch, so each callback is followed section by section.
-/

namespace Higress.Mcp.Auto

/-! ### What is observed -/

/-- The answers after which the business request may be sent. -/
def Handshake (t : List Action) : Prop :=
  .answered .modern ∈ t ∨
    [.answered .legacy, .answered .initialized, .answered .notified].Sublist t

structure Safe (t : List Action) : Prop where
  submits_once : t.count (.dispatched .business) ≤ 1
  submits_after : ∀ pre post, t = pre ++ .dispatched .business :: post → Handshake pre
  responds_once : t.count .responded ≤ 1
  silent_after_close : ∀ pre post, t = pre ++ .closed :: post → .responded ∉ post
  quiet_after_response : ∀ pre post, t = pre ++ .responded :: post →
    ∀ r, .dispatched r ∉ post

theorem snoc_eq_append_cons {α : Type*} {t pre post : List α} {a b : α}
    (h : t ++ [a] = pre ++ b :: post) :
    (post = [] ∧ t = pre ∧ a = b) ∨ ∃ post', post = post' ++ [a] ∧ t = pre ++ b :: post' := by
  rcases List.eq_nil_or_concat post with rfl | ⟨post', c, rfl⟩
  · obtain ⟨rfl, hab⟩ := List.append_inj' h rfl
    exact Or.inl ⟨rfl, rfl, by simpa using hab⟩
  · rw [List.concat_eq_append] at h ⊢
    rw [← List.cons_append, ← List.append_assoc] at h
    obtain ⟨rfl, hac⟩ := List.append_inj' h rfl
    obtain rfl : a = c := by simpa using hac
    exact Or.inr ⟨post', rfl, rfl⟩

/-- When an action may be added to what was observed. -/
theorem Safe.snoc {t : List Action} (ht : Safe t) {a : Action}
    (hbusiness : a = .dispatched .business → .dispatched .business ∉ t ∧ Handshake t)
    (hrespond : a = .responded → .responded ∉ t ∧ .closed ∉ t)
    (hdispatch : ∀ r, a = .dispatched r → .responded ∉ t) : Safe (t ++ [a]) where
  submits_once := by
    rw [List.count_append, List.count_singleton]
    split
    · rename_i h
      simp [List.count_eq_zero.mpr (hbusiness (by simpa using h)).1]
    · exact ht.submits_once
  submits_after := by
    intro pre post h
    rcases snoc_eq_append_cons h with ⟨-, rfl, hab⟩ | ⟨post', -, h⟩
    · exact (hbusiness hab).2
    · exact ht.submits_after pre post' h
  responds_once := by
    rw [List.count_append, List.count_singleton]
    split
    · rename_i h
      simp [List.count_eq_zero.mpr (hrespond (by simpa using h)).1]
    · exact ht.responds_once
  silent_after_close := by
    intro pre post h
    rcases snoc_eq_append_cons h with ⟨rfl, -, -⟩ | ⟨post', rfl, heq⟩
    · simp
    · rw [List.mem_append, List.mem_singleton, not_or]
      refine ⟨ht.silent_after_close pre post' heq, fun ha => (hrespond ha.symm).2 ?_⟩
      simp [heq]
  quiet_after_response := by
    intro pre post h r
    rcases snoc_eq_append_cons h with ⟨rfl, -, -⟩ | ⟨post', rfl, heq⟩
    · simp
    · rw [List.mem_append, List.mem_singleton, not_or]
      refine ⟨ht.quiet_after_response pre post' heq r, fun ha => hdispatch r ha.symm ?_⟩
      simp [heq]

/-! ### Cancellation steps -/

/-- What the steps of a cancellation can change. -/
structure Drift (s t : Exchange) : Prop where
  auto : t.auto = s.auto ∨
    s.auto.terminal = false ∧ t.auto = { s.auto with terminal := true, phase := .cancelled }
  proxy : t.proxy = s.proxy ∨ t.proxy = { s.proxy with cancelled := true }
  inContext : t.inContext = s.inContext
  responded : t.responded = s.responded
  routed : t.routed = s.routed
  continuation : t.continuation = s.continuation
  trace : t.trace = s.trace

theorem Drift.refl (s : Exchange) : Drift s s :=
  ⟨Or.inl rfl, Or.inl rfl, rfl, rfl, rfl, rfl, rfl⟩

theorem Drift.trans {s t u : Exchange} (h : Drift s t) (h' : Drift t u) : Drift s u where
  auto := by
    rcases h.auto with ha | ⟨hs, ha⟩
    · rw [← ha]
      exact h'.auto
    · rcases h'.auto with hb | ⟨ht, -⟩
      · exact Or.inr ⟨hs, hb.trans ha⟩
      · simp [ha] at ht
  proxy := by
    rcases h.proxy with ha | ha <;> rcases h'.proxy with hb | hb <;> simp [ha, hb]
  inContext := h'.inContext.trans h.inContext
  responded := h'.responded.trans h.responded
  routed := h'.routed.trans h.routed
  continuation := h'.continuation.trans h.continuation
  trace := h'.trace.trans h.trace

theorem drift_cancelAuto (s : Exchange) : Drift s s.cancelAuto := by
  rw [Exchange.cancelAuto]
  split
  · exact Drift.refl s
  · rename_i h
    exact ⟨Or.inr ⟨by simpa using h, rfl⟩, Or.inl rfl, rfl, rfl, rfl, rfl, rfl⟩

theorem drift_cancelProxy (s : Exchange) : Drift s s.cancelProxy := by
  rw [Exchange.cancelProxy]
  split
  · exact ⟨Or.inl rfl, Or.inr rfl, rfl, rfl, rfl, rfl, rfl⟩
  · exact Drift.refl s

theorem drift_cancelStep (s : Exchange) (c : Cancellation) : Drift s (s.cancelStep c) := by
  cases c with
  | mark => exact ⟨Or.inl rfl, Or.inl rfl, rfl, rfl, rfl, rfl, rfl⟩
  | auto =>
      rw [Exchange.cancelStep]
      split
      · exact drift_cancelAuto s
      · exact Drift.refl s
  | proxy =>
      rw [Exchange.cancelStep]
      split
      · exact drift_cancelProxy s
      · exact Drift.refl s

theorem drift_point (s : Exchange) : Drift s s.point := by
  rw [Exchange.point]
  split
  · exact Drift.refl s
  · rename_i steps rest _
    have hfold : ∀ (steps : List Cancellation) (t : Exchange), Drift s t →
        Drift s (steps.foldl Exchange.cancelStep t) := by
      intro steps
      induction steps with
      | nil => exact fun t ht => ht
      | cons c steps ih => exact fun t ht => ih _ (ht.trans (drift_cancelStep t c))
    exact hfold steps _ ⟨Or.inl rfl, Or.inl rfl, rfl, rfl, rfl, rfl, rfl⟩

theorem drift_requestCancel (s : Exchange) : Drift s s.requestCancel := by
  rw [Exchange.requestCancel]
  split
  · exact Drift.refl s
  · refine Drift.trans ?_ ((drift_cancelAuto _).trans (drift_cancelProxy _))
    exact ⟨Or.inl rfl, Or.inl rfl, rfl, rfl, rfl, rfl, rfl⟩

/-! ### The invariant -/

/-- How far a phase is; the terminal markers are furthest. -/
def Phase.rank : Phase → ℕ
  | .prepared => 0
  | .probing => 1
  | .probed => 2
  | .initializing => 3
  | .initialized => 4
  | .notifying => 5
  | .notified => 6
  | .ready => 7
  | .dispatching => 8
  | .responding => 9
  | .failed | .cancelled | .completed | .streamClosed => 10

/-- The answers received by the time a phase is reached. -/
def Needs : Phase → List Action → Prop
  | .initializing, t | .initialized, t => [.answered .legacy].Sublist t
  | .notifying, t | .notified, t => [.answered .legacy, .answered .initialized].Sublist t
  | .ready, t | .dispatching, t | .responding, t => Handshake t
  | _, _ => True

structure Inv (s : Exchange) : Prop where
  terminal : s.auto.terminal = true ↔ s.auto.phase.rank = 10
  /-- Before the business request is dispatched only the end of the exchange
  responds. -/
  quiet : .responded ∈ s.trace → 8 ≤ s.auto.phase.rank
  business : .dispatched .business ∈ s.trace → s.auto.businessDispatched = true
  dispatched : s.auto.businessDispatched = true → 8 ≤ s.auto.phase.rank
  needs : Needs s.auto.phase s.trace
  proxy : s.proxy.created = true → s.auto.businessDispatched = true
  created : s.inContext = true → s.proxy.created = true
  inContext : s.proxy.created = true → s.inContext = true ∨ s.proxy.closed = true
  finished : .responded ∈ s.trace → s.proxy.created = true →
    s.proxy.closed = true ∨ s.proxy.responding = true
  routed : s.routed = true → s.proxy.created = true
  responding : s.proxy.responding = true → s.proxy.created = true
  closed : s.auto.closed = true →
    s.auto.terminal = true ∧ (s.proxy.created = true → s.proxy.closed = true)
  closed_trace : .closed ∈ s.trace → s.auto.closed = true
  /-- A response to an exchange that has not ended, or that was cancelled, is
  accounted for. -/
  replied : .responded ∈ s.trace → s.auto.phase ≠ .failed → s.auto.phase ≠ .completed →
    s.auto.phase ≠ .streamClosed → s.auto.cancelReplied = true ∨ s.proxy.responding = true
  safe : Safe s.trace

theorem inv_init (continuation requestCancelled : Bool) :
    Inv (Exchange.init continuation requestCancelled) := by
  constructor <;> simp [Exchange.init, Phase.rank, Needs]
  constructor <;> simp

theorem needs_of_terminal {p : Phase} (hp : p.rank = 10) (t : List Action) : Needs p t := by
  cases p <;> first | exact trivial | exact absurd hp (by decide)

theorem Needs.snoc {p : Phase} {t : List Action} (h : Needs p t) (a : Action) :
    Needs p (t ++ [a]) := by
  have hsub : ∀ l : List Action, l.Sublist t → l.Sublist (t ++ [a]) :=
    fun l hl => hl.trans (List.sublist_append_left t [a])
  have hhand : Handshake t → Handshake (t ++ [a]) := by
    rintro (h | h)
    · exact Or.inl (List.mem_append_left _ h)
    · exact Or.inr (hsub _ h)
  cases p <;> first | exact trivial | exact hsub _ h | exact hhand h

section

variable {s t : Exchange}

/-- A response to an exchange that has not ended was a routed one. -/
theorem Inv.replied_of_live (hs : Inv s) (hlive : s.auto.terminal = false)
    (h : .responded ∈ s.trace) : s.auto.cancelReplied = true ∨ s.proxy.responding = true := by
  have hrank : s.auto.phase.rank ≠ 10 := by
    intro heq
    rw [hs.terminal.mpr heq] at hlive
    simp at hlive
  apply hs.replied h <;>
  · intro heq
    rw [heq] at hrank
    exact hrank rfl

theorem Inv.drift (hs : Inv s) (h : Drift s t) : Inv t := by
  have hp : t.proxy.created = s.proxy.created ∧ t.proxy.closed = s.proxy.closed ∧
      t.proxy.responding = s.proxy.responding := by
    rcases h.proxy with hp | hp <;> simp [hp]
  obtain ⟨hcreated, hclosed, hresp⟩ := hp
  have hinv : ∀ a : AutoExchange, a = s.auto ∨ s.auto.terminal = false ∧
      a = { s.auto with terminal := true, phase := .cancelled } →
      Inv { t with auto := a } := by
    rintro a (rfl | ⟨hterm, rfl⟩)
    · constructor <;> simp only [h.trace, h.inContext, h.routed, hcreated, hclosed, hresp]
      exacts [hs.terminal, hs.quiet, hs.business, hs.dispatched, hs.needs, hs.proxy, hs.created,
        hs.inContext, hs.finished, hs.routed, hs.responding, hs.closed, hs.closed_trace, hs.replied, hs.safe]
    · constructor <;> simp only [h.trace, h.inContext, h.routed, hcreated, hclosed, hresp]
      · simp [Phase.rank]
      · simp [Phase.rank]
      · exact hs.business
      · simp [Phase.rank]
      · trivial
      · exact hs.proxy
      · exact hs.created
      · exact hs.inContext
      · exact hs.finished
      · exact hs.routed
      · exact hs.responding
      · exact fun hc => ⟨trivial, (hs.closed hc).2⟩
      · exact hs.closed_trace
      · exact fun hr _ _ _ => hs.replied_of_live hterm hr
      · exact hs.safe
  exact hinv t.auto h.auto

/-! ### Critical sections -/

/-- What `take` can do: its own transition, after cancellation has stepped in. -/
theorem take_cases (s : Exchange) (expected next : Phase) :
    ∃ t, Drift s t ∧ (s.take expected next = (false, t) ∨
      t.auto.terminal = false ∧ t.auto.phase = expected ∧
      (next = .dispatching → t.auto.businessDispatched = false) ∧
      s.take expected next = (true, { t with auto := { t.auto with
        phase := next
        businessDispatched := t.auto.businessDispatched || next = .dispatching } })) := by
  refine ⟨s.point, drift_point s, ?_⟩
  rw [Exchange.take]
  dsimp only
  split
  · exact Or.inl rfl
  · rename_i h
    simp only [ne_eq, Bool.or_eq_true, decide_eq_true_eq, not_or, Bool.not_eq_true,
      Decidable.not_not] at h
    split
    · rename_i hnext
      split
      · exact Or.inl rfl
      · rename_i hb
        simp [hnext, h, hb]
    · rename_i hnext
      simp [hnext, h]

theorem selectProfile_cases (s : Exchange) (expected : Phase) (profile : Profile) :
    ∃ t, Drift s t ∧ (s.selectProfile expected profile = (false, t) ∨
      t.auto.terminal = false ∧ t.auto.phase = expected ∧
      s.selectProfile expected profile =
        (true, { t with auto := { t.auto with profile := some profile } })) := by
  refine ⟨s.point, drift_point s, ?_⟩
  rw [Exchange.selectProfile]
  dsimp only
  split
  · exact Or.inl rfl
  · rename_i h
    simp only [ne_eq, Bool.or_eq_true, decide_eq_true_eq, not_or, Bool.not_eq_true,
      Decidable.not_not] at h
    exact Or.inr ⟨h.1, h.2, rfl⟩

theorem terminate_cases (s : Exchange) (expected : Option Phase) (terminal : Phase) :
    ∃ t, Drift s t ∧
      (s.terminate expected terminal = (false, t) ∧ (expected = none → t.auto.terminal = true) ∨
      t.auto.terminal = false ∧ (∀ p, expected = some p → t.auto.phase = p) ∧
      s.terminate expected terminal =
        (true, { t with auto := { t.auto with terminal := true, phase := terminal } })) := by
  refine ⟨s.point, drift_point s, ?_⟩
  rw [Exchange.terminate]
  dsimp only
  split
  · rename_i h
    refine Or.inl ⟨rfl, ?_⟩
    rintro rfl
    simpa using h
  · rename_i h
    rw [Bool.or_eq_true, not_or, Bool.not_eq_true] at h
    refine Or.inr ⟨h.1, ?_, rfl⟩
    rintro p rfl
    have hp : p = s.point.auto.phase := by simpa using h.2
    exact hp.symm

/-- A transition of a live exchange keeps the invariant if it goes forward and
the answers it needs are there. -/
theorem Inv.advance (hs : Inv s) (hlive : s.auto.terminal = false) {next : Phase}
    (hrank : s.auto.phase.rank ≤ next.rank) (hnext : next.rank < 10) (hneeds : Needs next s.trace) :
    Inv { s with auto := { s.auto with
      phase := next
      businessDispatched := s.auto.businessDispatched || next = .dispatching } } := by
  have hlt : s.auto.phase.rank ≠ 10 := by
    intro heq
    rw [hs.terminal.mpr heq] at hlive
    simp at hlive
  constructor
  · simp only [hlive, Bool.false_eq_true, false_iff]
    omega
  · exact fun h => Nat.le_trans (hs.quiet h) hrank
  · intro h
    simp [hs.business h]
  · intro h
    rw [Bool.or_eq_true, decide_eq_true_eq] at h
    rcases h with h | rfl
    · exact Nat.le_trans (hs.dispatched h) hrank
    · exact Nat.le_refl _
  · exact hneeds
  · intro h
    simp [hs.proxy h]
  · exact hs.created
  · exact hs.inContext
  · exact hs.finished
  · exact hs.routed
  · exact hs.responding
  · exact hs.closed
  · exact hs.closed_trace
  · exact fun h _ _ _ => hs.replied_of_live hlive h
  · exact hs.safe

/-- The end of an exchange. -/
theorem Inv.terminated (hs : Inv s) {marker : Phase}
    (hmarker : marker = .failed ∨ marker = .completed ∨ marker = .streamClosed) :
    Inv { s with auto := { s.auto with terminal := true, phase := marker } } := by
  have hrank : marker.rank = 10 ∧ ∀ t, Needs marker t := by
    rcases hmarker with rfl | rfl | rfl <;> exact ⟨rfl, fun _ => trivial⟩
  constructor
  · simp [hrank.1]
  · simp [hrank.1]
  · exact hs.business
  · simp [hrank.1]
  · exact hrank.2 _
  · exact hs.proxy
  · exact hs.created
  · exact hs.inContext
  · exact hs.finished
  · exact hs.routed
  · exact hs.responding
  · exact fun hc => ⟨rfl, (hs.closed hc).2⟩
  · exact hs.closed_trace
  · intro _ h₁ h₂ h₃
    rcases hmarker with rfl | rfl | rfl
    · exact absurd rfl h₁
    · exact absurd rfl h₂
    · exact absurd rfl h₃
  · exact hs.safe

theorem Inv.answered (hs : Inv s) (a : Answer) : Inv (s.record (.answered a)) := by
  have hmem : ∀ b : Action, (∀ a, b ≠ .answered a) → b ∈ s.trace ++ [.answered a] → b ∈ s.trace := by
    intro b hb h
    simpa [hb a] using h
  constructor
  · exact hs.terminal
  · exact fun h => hs.quiet (hmem _ (by simp) h)
  · exact fun h => hs.business (hmem _ (by simp) h)
  · exact hs.dispatched
  · exact hs.needs.snoc _
  · exact hs.proxy
  · exact hs.created
  · exact hs.inContext
  · exact fun h => hs.finished (hmem _ (by simp) h)
  · exact hs.routed
  · exact hs.responding
  · exact hs.closed
  · exact fun h => hs.closed_trace (hmem _ (by simp) h)
  · exact fun h => hs.replied (hmem _ (by simp) h)
  · exact hs.safe.snoc (by simp) (by simp) (by simp)

/-- A request goes out before any response; the business request once, and
after its handshake. -/
theorem Inv.dispatch (hs : Inv s) (hquiet : .responded ∉ s.trace) {r : Request}
    (hr : r = .business → .dispatched .business ∉ s.trace ∧ Handshake s.trace ∧
      s.auto.businessDispatched = true) : Inv (s.record (.dispatched r)) := by
  constructor
  · exact hs.terminal
  · exact fun h => absurd h (by simpa [Exchange.record] using hquiet)
  · intro h
    rcases List.mem_append.mp h with h | h
    · exact hs.business h
    · exact (hr (by simpa [eq_comm] using h)).2.2
  · exact hs.dispatched
  · exact hs.needs.snoc _
  · exact hs.proxy
  · exact hs.created
  · exact hs.inContext
  · exact fun h => absurd h (by simpa [Exchange.record] using hquiet)
  · exact hs.routed
  · exact hs.responding
  · exact hs.closed
  · exact fun h => hs.closed_trace (by simpa [Exchange.record] using h)
  · exact fun h => absurd h (by simpa [Exchange.record] using hquiet)
  · refine hs.safe.snoc ?_ (by simp) fun _ _ => hquiet
    intro h
    exact ⟨(hr (by simpa using h)).1, (hr (by simpa using h)).2.1⟩

@[simp] theorem finish_auto (s : Exchange) : s.finishProxyRequest.auto = s.auto := by
  rw [Exchange.finishProxyRequest]
  split <;> rfl

@[simp] theorem finish_trace (s : Exchange) : s.finishProxyRequest.trace = s.trace := by
  rw [Exchange.finishProxyRequest]
  split <;> rfl

@[simp] theorem finish_routed (s : Exchange) : s.finishProxyRequest.routed = s.routed := by
  rw [Exchange.finishProxyRequest]
  split <;> rfl

@[simp] theorem finish_responded (s : Exchange) :
    s.finishProxyRequest.responded = s.responded := by
  rw [Exchange.finishProxyRequest]
  split <;> rfl

@[simp] theorem finish_created (s : Exchange) :
    s.finishProxyRequest.proxy.created = s.proxy.created := by
  rw [Exchange.finishProxyRequest]
  split <;> rfl

@[simp] theorem finish_responding (s : Exchange) :
    s.finishProxyRequest.proxy.responding = s.proxy.responding := by
  rw [Exchange.finishProxyRequest]
  split <;> rfl

@[simp] theorem finish_inContext (s : Exchange) : s.finishProxyRequest.inContext = false := by
  rw [Exchange.finishProxyRequest]
  split
  · rfl
  · rename_i h
    simpa using h

theorem Inv.finish (hs : Inv s) : Inv s.finishProxyRequest := by
  rw [Exchange.finishProxyRequest]
  split
  · constructor
    · exact hs.terminal
    · exact hs.quiet
    · exact hs.business
    · exact hs.dispatched
    · exact hs.needs
    · exact hs.proxy
    · simp
    · simp
    · simp
    · exact hs.routed
    · exact hs.responding
    · exact fun hc => ⟨(hs.closed hc).1, fun _ => rfl⟩
    · exact hs.closed_trace
    · exact hs.replied
    · exact hs.safe
  · exact hs

/-- The first response of an exchange whose stream is open, with the cleanup
that goes with it. -/
theorem Inv.respond (hs : Inv s) (hquiet : .responded ∉ s.trace) (hopen : s.auto.closed = false)
    (hrank : 8 ≤ s.auto.phase.rank)
    (hreplied : s.auto.phase ≠ .failed → s.auto.phase ≠ .completed →
      s.auto.cancelReplied = true ∨ s.proxy.responding = true) :
    Inv s.respond.finishProxyRequest := by
  have hclosed : .closed ∉ s.trace := by
    intro h
    simp [hs.closed_trace h] at hopen
  have hfin : s.proxy.created = true → s.respond.finishProxyRequest.proxy.closed = true := by
    intro hc
    rw [Exchange.finishProxyRequest]
    split
    · rfl
    · rename_i h
      exact (hs.inContext hc).resolve_left h
  have htrace : s.respond.finishProxyRequest.trace = s.trace ++ [.responded] := finish_trace _
  have hauto : s.respond.finishProxyRequest.auto = s.auto := finish_auto _
  constructor <;> simp only [finish_created, finish_responding, finish_routed, finish_inContext,
    htrace, hauto]
  · exact hs.terminal
  · exact fun _ => hrank
  · exact fun h => hs.business (by simpa using h)
  · exact hs.dispatched
  · exact hs.needs.snoc _
  · exact hs.proxy
  · simp
  · exact fun hc => Or.inr (hfin hc)
  · exact fun _ hc => Or.inl (hfin hc)
  · exact hs.routed
  · exact hs.responding
  · simp [hopen]
  · exact fun h => hs.closed_trace (by simpa using h)
  · exact fun _ h₁ h₂ _ => hreplied h₁ h₂
  · exact hs.safe.snoc (by simp) (fun _ => ⟨hquiet, hclosed⟩) (by simp)

/-- Fields that the invariant does not mention may change. -/
theorem Inv.congr (hs : Inv s) (hauto : t.auto = s.auto) (htrace : t.trace = s.trace)
    (hctx : t.inContext = s.inContext) (hcreated : t.proxy.created = s.proxy.created)
    (hclosed : t.proxy.closed = s.proxy.closed)
    (hresp : t.proxy.responding = s.proxy.responding)
    (hrouted : t.routed = true → t.proxy.created = true) : Inv t := by
  constructor <;> simp only [hauto, htrace, hctx, hcreated, hclosed, hresp] at hrouted ⊢
  exacts [hs.terminal, hs.quiet, hs.business, hs.dispatched, hs.needs, hs.proxy, hs.created,
    hs.inContext, hs.finished, hrouted, hs.responding, hs.closed, hs.closed_trace, hs.replied,
    hs.safe]

/-- The invariant inside a control callback: no routed response has been seen. -/
structure Busy (s : Exchange) : Prop extends Inv s where
  waiting : s.proxy.responding = false

theorem Busy.drift (hs : Busy s) (h : Drift s t) : Busy t := by
  refine ⟨hs.toInv.drift h, ?_⟩
  have := hs.waiting
  rcases h.proxy with hp | hp <;> simpa [hp] using this

/-- An exchange that has not reached its business request is quiet. -/
theorem Busy.quiet_of_rank (hs : Busy s) (hrank : s.auto.phase.rank < 8) : .responded ∉ s.trace := by
  intro h
  have := hs.quiet h
  omega

theorem Busy.fail (hs : Busy s) (hquiet : .responded ∉ s.trace) (phase : Phase) :
    Busy (s.fail phase) := by
  obtain ⟨t, hdrift, ⟨heq, -⟩ | ⟨hlive, -, heq⟩⟩ := terminate_cases s (some phase) .failed
  · rw [Exchange.fail, heq]
    exact hs.drift hdrift
  · have ht := hs.drift hdrift
    have hopen : t.auto.closed = false := by
      by_contra hc
      rw [(ht.closed (by simpa using hc)).1] at hlive
      simp at hlive
    rw [Exchange.fail, heq]
    refine ⟨(ht.toInv.terminated (Or.inl rfl)).respond ?_ hopen (Nat.le_of_ble_eq_true rfl) ?_, ?_⟩
    · rw [← hdrift.trace] at hquiet
      exact hquiet
    · intro h
      exact absurd rfl h
    · rw [finish_responding]
      exact ht.waiting

theorem Busy.dispatch (hs : Busy s) (h : Host) (hquiet : .responded ∉ s.trace) {r : Request}
    (hr : r ≠ .business) (phase : Phase) : Busy (s.dispatch h r phase) := by
  rw [Exchange.dispatch]
  split
  · exact hs.fail hquiet phase
  · exact ⟨hs.toInv.dispatch hquiet fun h => absurd h hr, hs.waiting⟩

/-- A successful `take` of a control callback: the exchange was live and quiet. -/
theorem Busy.take (hs : Busy s) {expected next : Phase} (hexp : expected.rank < 8)
    (hrank : expected.rank ≤ next.rank) (hnext : next.rank < 10)
    (hneeds : Needs expected s.trace → Needs next s.trace) :
    ∃ t, (s.take expected next = (false, t) ∧ Busy t) ∨
      (s.take expected next = (true, t) ∧ Busy t ∧ t.trace = s.trace ∧ .responded ∉ t.trace ∧
        t.auto.closed = false ∧ t.auto.phase = next ∧
        (next = .dispatching → .dispatched .business ∉ t.trace ∧ t.proxy.created = false ∧
          t.auto.businessDispatched = true)) := by
  obtain ⟨t, hdrift, heq | ⟨hlive, hphase, hbus, heq⟩⟩ := take_cases s expected next
  · exact ⟨t, Or.inl ⟨heq, hs.drift hdrift⟩⟩
  · have ht := hs.drift hdrift
    refine ⟨_, Or.inr ⟨heq, ⟨ht.toInv.advance hlive ?_ hnext ?_, ht.waiting⟩, hdrift.trace,
      ht.quiet_of_rank ?_, ?_, rfl, ?_⟩⟩
    · rw [hphase]
      exact hrank
    · have := ht.needs
      rw [hphase, hdrift.trace] at this
      rw [hdrift.trace]
      exact hneeds this
    · rw [hphase]
      exact hexp
    · by_contra hc
      rw [(ht.closed (by simpa using hc)).1] at hlive
      simp at hlive
    · rintro rfl
      have hb := hbus rfl
      refine ⟨fun h => ?_, ?_, by simp⟩
      · simp [ht.business h] at hb
      · by_contra hc
        simp [ht.proxy (by simpa using hc)] at hb

theorem Busy.probe (hs : Busy s) (h : Host) : Busy (s.probe h) := by
  obtain ⟨t, ⟨heq, ht⟩ | ⟨heq, ht, -, hquiet, -⟩⟩ := @Busy.take _ hs .prepared .probing
    (by decide) (by decide) (by decide) fun _ => trivial
  · rw [Exchange.probe, heq]
    exact ht
  · rw [Exchange.probe, heq]
    exact ht.dispatch h hquiet (by simp) _

theorem Busy.sendInitialize (hs : Busy s) (h : Host) (hneeds : Needs .initializing s.trace) :
    Busy (s.sendInitialize h) := by
  obtain ⟨t, ⟨heq, ht⟩ | ⟨heq, ht, -, hquiet, -⟩⟩ := @Busy.take _ hs .probed .initializing
    (by decide) (by decide) (by decide) fun _ => hneeds
  · rw [Exchange.sendInitialize, heq]
    exact ht
  · rw [Exchange.sendInitialize, heq]
    exact ht.dispatch h hquiet (by simp) _

theorem Busy.notify (hs : Busy s) (h : Host) (hneeds : Needs .notifying s.trace) :
    Busy (s.notify h) := by
  obtain ⟨t, ⟨heq, ht⟩ | ⟨heq, ht, -, hquiet, -⟩⟩ := @Busy.take _ hs .initialized .notifying
    (by decide) (by decide) (by decide) fun _ => hneeds
  · rw [Exchange.notify, heq]
    exact ht
  · rw [Exchange.notify, heq]
    exact ht.dispatch h hquiet (by simp) _

/-- Routing keeps the exchange quiet and its stream open. -/
theorem Busy.routeProxyBusiness (hs : Busy s) (h : Host) (hquiet : .responded ∉ s.trace)
    (hopen : s.auto.closed = false) (hnew : s.proxy.created = false)
    (hbus : s.auto.businessDispatched = true) :
    Busy (s.routeProxyBusiness h).2 ∧ (s.routeProxyBusiness h).2.trace = s.trace ∧
      (s.routeProxyBusiness h).2.auto.businessDispatched = true := by
  have hctx : s.inContext = false := by
    by_contra hc
    simp [hs.created (by simpa using hc)] at hnew
  -- the fresh proxy exchange
  have hreg : Busy s.registerProxyCancellation := by
    rw [Exchange.registerProxyCancellation, if_neg (by simp [hctx])]
    refine ⟨⟨hs.terminal, hs.quiet, hs.business, hs.dispatched, hs.needs, fun _ => hbus,
      fun _ => rfl, fun _ => Or.inl rfl, fun h => absurd h hquiet, fun _ => rfl, fun _ => rfl, ?_,
      hs.closed_trace, fun h => absurd h hquiet, hs.safe⟩, rfl⟩
    simp [hopen]
  let P (t : Exchange) : Prop :=
    Busy t ∧ t.trace = s.trace ∧ t.auto.businessDispatched = true ∧ t.proxy.created = true
  have hdrift : ∀ t, P t → P t.point := by
    rintro t ⟨hb, htr, hbd, hcr⟩
    have hd := drift_point t
    refine ⟨hb.drift hd, hd.trace.trans htr, ?_, ?_⟩
    · rcases hd.auto with ha | ⟨-, ha⟩ <;> rw [ha] <;> exact hbd
    · rcases hd.proxy with hp | hp <;> rw [hp] <;> exact hcr
  have hproxy : ∀ t, P t → ∀ (p : ProxyExchange) (b : Bool), p.created = t.proxy.created →
      p.closed = t.proxy.closed → p.responding = t.proxy.responding →
      P { t with proxy := p, routed := b } := by
    rintro t ⟨hb, htr, hbd, hcr⟩ p b hpc hpcl hpr
    refine ⟨⟨hb.toInv.congr rfl rfl rfl hpc hpcl hpr fun _ => hpc.trans hcr, ?_⟩, htr, hbd,
      hpc.trans hcr⟩
    exact hpr.trans hb.waiting
  have hstart : P s.registerProxyCancellation := by
    refine ⟨hreg, ?_⟩
    rw [Exchange.registerProxyCancellation, if_neg (by simp [hctx])]
    exact ⟨rfl, hbus, rfl⟩
  suffices hP : P (s.routeProxyBusiness h).2 from ⟨hP.1, hP.2.1, hP.2.2.1⟩
  have h₁ := hdrift _ hstart
  have h₂ := hproxy _ h₁ { s.registerProxyCancellation.point.proxy with preparing := true }
    s.registerProxyCancellation.point.routed rfl rfl rfl
  have h₃ := hdrift _ (hproxy _ h₂ { s.registerProxyCancellation.point.proxy with preparing := true }
    true rfl rfl rfl)
  rw [Exchange.routeProxyBusiness]
  dsimp only
  split
  · exact h₁
  · split
    · exact h₂
    · split
      · exact h₃
      · exact hproxy _ h₃ _ _ rfl rfl rfl

theorem Busy.dispatchBusiness (hs : Busy s) (h : Host) : Busy (s.dispatchBusiness h) := by
  obtain ⟨t, ⟨heq, ht⟩ | ⟨heq, ht, -, hquiet, hopen, hphase, hbus⟩⟩ :=
    @Busy.take _ hs .ready .dispatching (by decide) (by decide) (by decide) id
  · rw [Exchange.dispatchBusiness, heq]
    exact ht
  · obtain ⟨hfirst, hnew, hbd⟩ := hbus rfl
    have hhand : Handshake t.trace := by
      have := ht.needs
      rwa [hphase] at this
    rw [Exchange.dispatchBusiness, heq]
    dsimp only
    split
    · exact ht.fail hquiet _
    · obtain ⟨hroute, htrace, hbd'⟩ := ht.routeProxyBusiness h hquiet hopen hnew hbd
      rw [← htrace] at hquiet hfirst hhand
      generalize t.routeProxyBusiness h = u at hroute hquiet hfirst hhand hbd'
      obtain ⟨ok, u⟩ := u
      cases ok with
      | false => exact hroute.fail hquiet _
      | true => exact ⟨hroute.toInv.dispatch hquiet fun _ => ⟨hfirst, hhand, hbd'⟩, hroute.waiting⟩

theorem Busy.ready (hs : Busy s) (h : Host) {phase : Phase} (hphase : phase.rank < 7)
    (hhand : Handshake s.trace) : Busy (s.ready h phase) := by
  obtain ⟨t, ⟨heq, ht⟩ | ⟨heq, ht, -, hquiet, -⟩⟩ := @Busy.take _ hs phase .ready
    (by omega) (Nat.le_of_lt hphase) (by decide) fun _ => hhand
  · rw [Exchange.ready, heq]
    exact ht
  · rw [Exchange.ready, heq]
    dsimp only
    split
    · exact ht.fail hquiet _
    · exact ht.dispatchBusiness h

/-! ### Callbacks -/

/-- A control callback may be delivered: a routed response, if there was one,
completed the exchange, or the stream is closed. -/
def Deliverable (s : Exchange) : Prop :=
  s.proxy.responding = true → s.auto.phase = .completed ∨ s.auto.closed = true

instance (s : Exchange) : Decidable (Deliverable s) :=
  inferInstanceAs (Decidable (_ → _ ∨ _))

theorem Deliverable.drift (hs : Inv s) (hd : Deliverable s) (h : Drift s t) : Deliverable t := by
  intro hr
  have hr' : s.proxy.responding = true := by
    rcases h.proxy with hp | hp <;> simpa [hp] using hr
  rcases h.auto with ha | ⟨hlive, ha⟩
  · rw [ha]
    exact hd hr'
  · rcases hd hr' with hc | hc
    · have := hs.terminal.mpr (by rw [hc]; rfl)
      simp [this] at hlive
    · right
      rw [ha]
      exact hc

theorem Busy.deliverable (hs : Busy s) : Deliverable s := by
  intro h
  simp [hs.waiting] at h

/-- The reply to a cancelled exchange is its first response. -/
theorem Inv.replyCancelled (hs : Inv s) (hd : Deliverable s) : Inv s.replyCancelled := by
  have ht := hs.drift (drift_point s)
  have hdt := hd.drift hs (drift_point s)
  rw [Exchange.replyCancelled]
  dsimp only
  split
  · rename_i h
    simp only [Bool.and_eq_true, decide_eq_true_eq, Bool.not_eq_true'] at h
    obtain ⟨⟨⟨hterm, hphase⟩, hopen⟩, hnew⟩ := h
    have hquiet : .responded ∉ s.point.trace := by
      intro hr
      rcases ht.replied hr (by simp [hphase]) (by simp [hphase]) (by simp [hphase]) with h | h
      · simp [h] at hnew
      · rcases hdt h with hc | hc
        · simp [hc] at hphase
        · simp [hc] at hopen
    have hmark : Inv { s.point with auto := { s.point.auto with cancelReplied := true } } :=
      ⟨ht.terminal, ht.quiet, ht.business, ht.dispatched, ht.needs, ht.proxy, ht.created,
        ht.inContext, ht.finished, ht.routed, ht.responding, ht.closed, ht.closed_trace,
        fun _ _ _ _ => Or.inl rfl, ht.safe⟩
    refine hmark.respond hquiet hopen ?_ fun _ _ => Or.inl rfl
    rw [hphase]
    decide
  · exact ht

/-- The first section of a control callback: it goes on only in a live
exchange without a routed response. -/
theorem control_take (hs : Inv s) (hd : Deliverable s) {expected next : Phase}
    (hexp : expected.rank < 8) (hrank : expected.rank ≤ next.rank) (hnext : next.rank < 8)
    (hneeds : Needs expected s.trace → Needs next s.trace) :
    ∃ t, (s.take expected next = (false, t) ∧ Inv t ∧ Deliverable t) ∨
      (s.take expected next = (true, t) ∧ Busy t ∧ .responded ∉ t.trace ∧
        t.auto.phase = next) := by
  cases hr : s.proxy.responding with
  | false =>
      obtain ⟨t, ⟨heq, ht⟩ | ⟨heq, ht, -, hquiet, -, hphase, -⟩⟩ :=
        Busy.take ⟨hs, hr⟩ hexp hrank (by omega) hneeds
      · exact ⟨t, Or.inl ⟨heq, ht.toInv, ht.deliverable⟩⟩
      · exact ⟨t, Or.inr ⟨heq, ht, hquiet, hphase⟩⟩
  | true =>
      obtain ⟨t, hdrift, heq | ⟨hlive, hphase, -, -⟩⟩ := take_cases s expected next
      · exact ⟨t, Or.inl ⟨heq, hs.drift hdrift, hd.drift hs hdrift⟩⟩
      · have ht := hs.drift hdrift
        have hrt : t.proxy.responding = true := by
          rcases hdrift.proxy with hp | hp <;> simpa [hp] using hr
        rcases hd.drift hs hdrift hrt with hc | hc
        · have := ht.terminal.mpr (by rw [hc]; rfl)
          simp [this] at hlive
        · simp [(ht.closed hc).1] at hlive

theorem Busy.answered (hs : Busy s) (a : Answer) : Busy (s.record (.answered a)) :=
  ⟨hs.toInv.answered a, hs.waiting⟩

theorem Busy.selectProfile (hs : Busy s) (expected : Phase) (profile : Profile) :
    Busy (s.selectProfile expected profile).2 ∧
      (s.selectProfile expected profile).2.trace = s.trace := by
  obtain ⟨t, hdrift, heq | ⟨-, -, heq⟩⟩ := selectProfile_cases s expected profile
  · rw [heq]
    exact ⟨hs.drift hdrift, hdrift.trace⟩
  · rw [heq]
    have ht := hs.drift hdrift
    exact ⟨⟨⟨ht.terminal, ht.quiet, ht.business, ht.dispatched, ht.needs, ht.proxy, ht.created,
      ht.inContext, ht.finished, ht.routed, ht.responding, ht.closed, ht.closed_trace, ht.replied,
      ht.safe⟩, ht.waiting⟩, hdrift.trace⟩

theorem startAuto_inv (hs : Busy s) (h : Host) : Inv (s.startAuto h) := by
  have hreg : Busy (if s.requestCancelled then s.cancelAuto else s) := by
    split
    · exact hs.drift (drift_cancelAuto s)
    · exact hs
  have := hreg.probe h
  exact this.toInv.replyCancelled this.deliverable

theorem probeCallback_inv (hs : Inv s) (hd : Deliverable s) (h : Host)
    (decision : Option Profile) : Inv (s.probeCallback h decision) := by
  obtain ⟨t, ⟨heq, ht, hdt⟩ | ⟨heq, ht, hquiet, -⟩⟩ := @control_take _ hs hd .probing .probed
    (by decide) (by decide) (by decide) fun _ => trivial
  · rw [Exchange.probeCallback, heq]
    exact ht.replyCancelled hdt
  suffices hbody : Busy _ by
    rw [Exchange.probeCallback, heq]
    exact hbody.toInv.replyCancelled hbody.deliverable
  rcases decision with - | profile
  · exact ht.fail hquiet _
  cases profile with
  | modern =>
      obtain ⟨hb, htrace⟩ := (ht.answered .modern).selectProfile .probed .modern
      have hhand : Handshake ((t.record (.answered .modern)).selectProfile .probed .modern).2.trace := by
        rw [htrace]
        exact Or.inl (by simp [Exchange.record])
      dsimp only
      split
      · rename_i heq'
        rw [heq'] at hb
        exact hb
      · rename_i heq'
        rw [heq'] at hb hhand
        exact hb.ready h (by decide) hhand
  | legacy =>
      obtain ⟨hb, htrace⟩ := (ht.answered .legacy).selectProfile .probed .legacy
      have hneeds : Needs .initializing
          ((t.record (.answered .legacy)).selectProfile .probed .legacy).2.trace := by
        rw [htrace]
        exact List.sublist_append_right _ _
      dsimp only
      split
      · rename_i heq'
        rw [heq'] at hb
        exact hb
      · rename_i heq'
        rw [heq'] at hb hneeds
        exact hb.sendInitialize h hneeds

theorem initializeCallback_inv (hs : Inv s) (hd : Deliverable s) (h : Host) (valid : Bool) :
    Inv (s.initializeCallback h valid) := by
  obtain ⟨t, ⟨heq, ht, hdt⟩ | ⟨heq, ht, hquiet, hphase⟩⟩ :=
    @control_take _ hs hd .initializing .initialized (by decide) (by decide) (by decide) id
  · rw [Exchange.initializeCallback, heq]
    exact ht.replyCancelled hdt
  suffices hbody : Busy _ by
    rw [Exchange.initializeCallback, heq]
    exact hbody.toInv.replyCancelled hbody.deliverable
  cases valid with
  | false => exact ht.fail hquiet _
  | true =>
      obtain ⟨hb, htrace⟩ := (ht.answered .initialized).selectProfile .initialized .legacy
      have hneeds : Needs .notifying
          ((t.record (.answered .initialized)).selectProfile .initialized .legacy).2.trace := by
        have hlegacy := ht.needs
        rw [hphase] at hlegacy
        rw [htrace]
        exact hlegacy.append (List.Sublist.refl [Action.answered .initialized])
      simp only [Bool.not_true, Bool.false_eq_true, if_false]
      split
      · rename_i heq'
        rw [heq'] at hb
        exact hb
      · rename_i heq'
        rw [heq'] at hb hneeds
        exact hb.notify h hneeds

theorem notifyCallback_inv (hs : Inv s) (hd : Deliverable s) (h : Host) (valid : Bool) :
    Inv (s.notifyCallback h valid) := by
  obtain ⟨t, ⟨heq, ht, hdt⟩ | ⟨heq, ht, hquiet, hphase⟩⟩ :=
    @control_take _ hs hd .notifying .notified (by decide) (by decide) (by decide) id
  · rw [Exchange.notifyCallback, heq]
    exact ht.replyCancelled hdt
  suffices hbody : Busy _ by
    rw [Exchange.notifyCallback, heq]
    exact hbody.toInv.replyCancelled hbody.deliverable
  cases valid with
  | false => exact ht.fail hquiet _
  | true =>
      have hhand : Handshake (t.record (.answered .notified)).trace := by
        have hinit := ht.needs
        rw [hphase] at hinit
        exact Or.inr (hinit.append (List.Sublist.refl [Action.answered .notified]))
      exact (ht.answered .notified).ready h (by decide) hhand

/-- The invariant inside the routed callback until it responds. -/
structure Answering (s : Exchange) : Prop extends Inv s where
  silent : .responded ∉ s.trace
  isOpen : s.auto.closed = false
  submitted : s.proxy.created = true
  answering : s.proxy.responding = true

theorem Answering.drift (hs : Answering s) (h : Drift s t) : Answering t where
  toInv := hs.toInv.drift h
  silent := h.trace ▸ hs.silent
  isOpen := by
    have := hs.isOpen
    rcases h.auto with ha | ⟨-, ha⟩ <;> simpa [ha] using this
  submitted := by
    have := hs.submitted
    rcases h.proxy with hp | hp <;> simpa [hp] using this
  answering := by
    have := hs.answering
    rcases h.proxy with hp | hp <;> simpa [hp] using this

theorem Answering.respond (hs : Answering s) : Inv s.respond.finishProxyRequest :=
  hs.toInv.respond hs.silent hs.isOpen (hs.dispatched (hs.toInv.proxy hs.submitted))
    fun _ _ => Or.inr hs.answering

theorem Answering.businessResponse (hs : Answering s) :
    Inv s.businessResponse.finishProxyRequest ∧ s.businessResponse.responded = true := by
  obtain ⟨t, hdrift, heq | ⟨hlive, hphase, -, heq⟩⟩ := take_cases s .dispatching .responding
  · rw [Exchange.businessResponse, heq]
    exact ⟨(hs.drift hdrift).respond, rfl⟩
  have ht := hs.drift hdrift
  have hneeds : Needs .responding t.trace := by
    have := ht.needs
    rwa [hphase] at this
  have hadv := ht.toInv.advance hlive (by rw [hphase]; decide) (by decide) hneeds
  have htaken : Answering _ := ⟨hadv, ht.silent, ht.isOpen, ht.submitted, ht.answering⟩
  rw [Exchange.businessResponse, heq]
  dsimp only
  obtain ⟨u, hdrift', ⟨heq', -⟩ | ⟨-, -, heq'⟩⟩ := terminate_cases _ (some .responding) .completed
  · rw [heq']
    exact ⟨(htaken.drift hdrift').respond, rfl⟩
  · have hu := htaken.drift hdrift'
    have hdone : Answering { u with auto := { u.auto with terminal := true, phase := .completed } } :=
      ⟨hu.toInv.terminated (Or.inr (Or.inl rfl)), hu.silent, hu.isOpen, hu.submitted, hu.answering⟩
    rw [heq']
    refine ⟨hdone.respond.finish, ?_⟩
    dsimp only
    rw [finish_responded]
    rfl

/-- The routed callback responds for the first time, or not at all. -/
theorem businessCallback_inv (hs : Inv s) (hrouted : s.routed = true) :
    Inv s.businessCallback := by
  have ht := hs.drift (drift_point s)
  rw [← (drift_point s).routed] at hrouted
  have hcreated := ht.routed hrouted
  rw [Exchange.businessCallback]
  dsimp only
  split
  · exact ht
  rename_i h
  rw [Bool.or_eq_true, not_or] at h
  have hquiet : .responded ∉ s.point.trace := fun hr => (ht.finished hr hcreated).elim h.1 h.2
  have hopen : s.point.auto.closed = false := by
    by_contra hc
    exact h.1 ((ht.closed (by simpa using hc)).2 hcreated)
  have hans : ∀ b, Answering { s.point with
      proxy := { s.point.proxy with responding := true }, responded := b } := by
    intro b
    refine ⟨⟨ht.terminal, ht.quiet, ht.business, ht.dispatched, ht.needs, ht.proxy, ht.created,
      ht.inContext, fun _ _ => Or.inr rfl, ht.routed, fun _ => hcreated, ht.closed,
      ht.closed_trace, fun _ _ _ _ => Or.inr rfl, ht.safe⟩, hquiet, hopen, hcreated, rfl⟩
  refine Inv.drift ?_ (drift_requestCancel _)
  split
  · exact (hans _).respond
  · obtain ⟨hinv, hresp⟩ := (hans false).businessResponse
    rw [if_neg (by simp [hresp])]
    exact hinv

/-- The end of the stream ends the exchange and its proxy exchange together. -/
theorem Inv.close (hs : Inv s) {marker : Phase} (hrank : marker.rank = 10)
    (hneeds : ∀ t, Needs marker t)
    (hreplied : .responded ∈ s.trace → marker ≠ .failed → marker ≠ .completed →
      marker ≠ .streamClosed → s.auto.cancelReplied = true ∨ s.proxy.responding = true)
    {u : Exchange} (hauto : u.auto = { s.auto with
      closed := true, terminal := true, phase := marker })
    (htrace : u.trace = s.trace ++ [.closed]) (hctx : u.inContext = s.inContext)
    (hcreated : u.proxy.created = s.proxy.created) (hclosed : u.proxy.closed = s.proxy.closed)
    (hresp : u.proxy.responding = s.proxy.responding) (hrouted : u.routed = s.routed) :
    Inv u.finishProxyRequest := by
  have hfin : s.proxy.created = true → u.finishProxyRequest.proxy.closed = true := by
    intro hc
    rw [Exchange.finishProxyRequest]
    split
    · rfl
    · rename_i h
      rw [hctx] at h
      rw [hclosed]
      exact (hs.inContext hc).resolve_left h
  constructor <;> simp only [finish_created, finish_responding, finish_routed, finish_inContext,
    finish_trace, finish_auto, hauto, htrace, hcreated, hresp, hrouted]
  · simp [hrank]
  · simp [hrank]
  · exact fun h => hs.business (by simpa using h)
  · simp [hrank]
  · exact hneeds _
  · exact hs.proxy
  · simp
  · exact fun hc => Or.inr (hfin hc)
  · exact fun _ hc => Or.inl (hfin hc)
  · exact hs.routed
  · exact hs.responding
  · exact fun _ => ⟨trivial, hfin⟩
  · simp
  · exact fun h => hreplied (by simpa using h)
  · exact hs.safe.snoc (by simp) (by simp) (by simp)

theorem streamDone_inv (hs : Inv s) : Inv s.streamDone := by
  refine Inv.drift ?_ (drift_requestCancel _)
  have ht := hs.drift (drift_point s)
  rw [Exchange.closeStream]
  dsimp only
  generalize s.point = t at ht
  obtain ⟨u, hdrift, hu⟩ := terminate_cases
    (({ t with auto := { t.auto with closed := true } } : Exchange).record .closed) none
    .streamClosed
  have hproxy : u.proxy.created = t.proxy.created ∧ u.proxy.closed = t.proxy.closed ∧
      u.proxy.responding = t.proxy.responding := by
    rcases hdrift.proxy with hp | hp <;> rw [hp] <;> exact ⟨rfl, rfl, rfl⟩
  obtain ⟨hcreated, hclosed, hresp⟩ := hproxy
  have hlive : t.auto.terminal = false → .responded ∈ t.trace →
      t.auto.cancelReplied = true ∨ t.proxy.responding = true := ht.replied_of_live
  rcases hu with ⟨heq, hterm⟩ | ⟨-, -, heq⟩
  · rw [heq]
    rcases hdrift.auto with ha | ⟨hopen, ha⟩
    · -- the exchange had ended before
      have hdone : t.auto.terminal = true := by
        have := hterm rfl
        rwa [ha] at this
      have hrank := ht.terminal.mp hdone
      refine ht.close hrank (fun _ => ?_) ht.replied ?_ hdrift.trace hdrift.inContext hcreated
        hclosed hresp hdrift.routed
      · exact needs_of_terminal hrank _
      · rw [ha, ← hdone]
        rfl
    · exact @Inv.close _ ht .cancelled rfl (fun _ => trivial) (fun h _ _ _ => hlive hopen h) _ ha
        hdrift.trace hdrift.inContext hcreated hclosed hresp hdrift.routed
  · rw [heq]
    refine @Inv.close _ ht .streamClosed rfl (fun _ => trivial)
      (fun _ _ _ h => absurd rfl h) _ ?_ hdrift.trace hdrift.inContext hcreated hclosed hresp
      hdrift.routed
    rcases hdrift.auto with ha | ⟨-, ha⟩ <;> simp [ha, Exchange.record]

/-! ### Runs -/

/-- A control callback does not come late; the other events may come at any time. -/
def Event.timely (s : Exchange) : Event → Bool
  | .probeCallback _ _ | .initializeCallback _ _ | .notifyCallback _ _ => decide (Deliverable s)
  | .businessCallback _ | .streamDone _ | .cancel _ => true

/-- All events of a run are timely in the states before them. -/
def timely (s : Exchange) : List Event → Bool
  | [] => true
  | e :: events => e.timely s && (step s e).all fun t => timely t events

theorem step_inv {e : Event} (hs : Inv s) (htimely : e.timely s) (h : step s e = some t) :
    Inv t := by
  rw [step] at h
  split at h
  · rename_i hen
    obtain rfl := Option.some.inj h
    have hset : ∀ f, Inv { s with foreign := f } :=
      fun f => hs.congr rfl rfl rfl rfl rfl rfl hs.routed
    cases e with
    | probeCallback host decision =>
        refine probeCallback_inv (hset _) ?_ host decision
        exact of_decide_eq_true htimely
    | initializeCallback host valid =>
        refine initializeCallback_inv (hset _) ?_ host valid
        exact of_decide_eq_true htimely
    | notifyCallback host valid =>
        refine notifyCallback_inv (hset _) ?_ host valid
        exact of_decide_eq_true htimely
    | businessCallback host => exact businessCallback_inv (hset _) hen
    | streamDone host => exact streamDone_inv (hset _)
    | cancel c => exact (hset _).drift (drift_cancelStep _ c)
  · simp at h

theorem run_inv {events : List Event} (hs : Inv s) (htimely : timely s events)
    (h : events.foldlM step s = some t) : Inv t := by
  induction events generalizing s with
  | nil =>
      obtain rfl : s = t := by simpa using h
      exact hs
  | cons e events ih =>
      rw [timely, Bool.and_eq_true] at htimely
      rw [List.foldlM_cons] at h
      obtain ⟨u, hu, h⟩ := Option.bind_eq_some_iff.mp h
      rw [hu] at htimely
      exact ih (step_inv hs htimely.1 hu) htimely.2 h

theorem timely_of_append {pre post : List Event} (h : timely s (pre ++ post)) : timely s pre := by
  induction pre generalizing s with
  | nil => rfl
  | cons e pre ih =>
      rw [List.cons_append, timely, Bool.and_eq_true] at h
      rw [timely, Bool.and_eq_true]
      refine ⟨h.1, ?_⟩
      rcases hstep : step s e with - | u
      · rfl
      · rw [hstep] at h
        exact ih h.2

end

theorem start_inv (continuation requestCancelled : Bool) (h : Host) :
    Inv (start continuation requestCancelled h) := by
  have hinit := inv_init continuation requestCancelled
  refine startAuto_inv ⟨?_, rfl⟩ h
  exact hinit.congr rfl rfl rfl rfl rfl rfl hinit.routed

/-- Every state that a run reaches is safe, as long as no control callback is
delivered after a routed response to an exchange that it did not complete. -/
theorem autoExchange_safe (continuation requestCancelled : Bool) (h : Host) (events : List Event)
    (htimely : timely (start continuation requestCancelled h) events)
    (pre : List Event) (hpre : pre <+: events) (s : Exchange)
    (hrun : run continuation requestCancelled h pre = some s) : Safe s.trace := by
  obtain ⟨post, rfl⟩ := hpre
  exact (run_inv (start_inv _ _ h) (timely_of_append htimely) hrun).safe

/-- A host whose calls succeed, with no cancellation inside the callback. -/
def calmHost : Host := ⟨false, false, false, false, []⟩

/-- A legacy handshake with a probe callback that comes twice. -/
theorem autoExchange_safe_legacy :
    (run false false calmHost [.probeCallback calmHost (some .legacy),
      .initializeCallback calmHost true, .probeCallback calmHost (some .modern),
      .notifyCallback calmHost true, .businessCallback calmHost, .streamDone calmHost]).map
        Exchange.trace =
      some [.dispatched .probe, .answered .legacy, .dispatched .initializeRequest,
        .answered .initialized, .dispatched .notify, .answered .notified, .dispatched .business,
        .responded, .closed] ∧
    Safe [.dispatched .probe, .answered .legacy, .dispatched .initializeRequest,
        .answered .initialized, .dispatched .notify, .answered .notified, .dispatched .business,
        .responded, .closed] :=
  ⟨by decide, autoExchange_safe false false calmHost [.probeCallback calmHost (some .legacy),
      .initializeCallback calmHost true, .probeCallback calmHost (some .modern),
      .notifyCallback calmHost true, .businessCallback calmHost, .streamDone calmHost] (by decide)
      _ (List.prefix_refl _) _ rfl⟩

/-- The client cancels after the business request has been sent. The routed
callback answers the cancelled exchange, and the reply at the end of a second
probe callback answers it again. -/
theorem autoExchange_responds_twice :
    ¬ ∀ events s, run false false calmHost events = some s → Safe s.trace := by
  intro h
  have hsafe := h [.probeCallback calmHost (some .modern), .cancel .mark, .cancel .auto,
    .cancel .proxy, .businessCallback calmHost, .probeCallback calmHost (some .modern)] _ rfl
  exact absurd hsafe.responds_once (by decide)

end Higress.Mcp.Auto
