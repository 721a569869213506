import Mathlib.Data.List.Induction
import Higress.AiSecurityGuard.Streaming

/-!
Whether the moderation of a streamed response hands on the whole stream. As long as no call
fails that has taken chunks off the queue, the chunks that were queued are those that were
injected, those of the call under way and those in the queue, in this order; after the end
of the stream there is a call under way until the response is ended, and every answer takes
chunks off the queue. A call that fails loses its chunks, and one that could not be made
leaves no way to make another.
-/

namespace Higress.AiSecurityGuard

open Lib

section Delivery

variable {Response : Type} {env : Env Response} {cfg : Config}

/-! ### What the client gets -/

def Output.chunks : Output → List GoString
  | .inject chunks _ => chunks
  | .resume => []

/-- Whether the response is ended. -/
def Output.ends : Output → Bool
  | .inject _ endStream => endStream
  | .resume => true

/-- The chunks that have been injected. -/
def delivered (output : List Output) : List GoString := output.flatMap Output.chunks

/-- How often the response has been ended. -/
def endings (output : List Output) : ℕ := output.countP Output.ends

@[simp] theorem delivered_append (output : List Output) (o : Output) :
    delivered (output ++ [o]) = delivered output ++ o.chunks := by
  simp [delivered]

@[simp] theorem endings_append (output : List Output) (o : Output) :
    endings (output ++ [o]) = endings output + (if o.ends then 1 else 0) := by
  simp [endings, List.countP_append, List.countP_cons]

/-- The chunks of all data. -/
def queuedChunks (env : Env Response) (events : List Event) : List GoString :=
  events.flatMap fun
    | .data data _ _ => chunksOf env data
    | .answer _ _ _ => []

/-! ### Conditions -/

/-- The event is not an answer that blocks the response. -/
def Unblocked (env : Env Response) : Event → Prop
  | .data _ _ _ => True
  | .answer statusCode responseBody _ => ∀ body, outcomeOf env statusCode responseBody ≠ .denied body

/-- A call that fails took no chunks, and after the end of the stream there are none in the
queue either; a call that cannot be made is made after the end of the stream and for no
chunks. -/
def Harmless (env : Env Response) (cfg : Config) (s : State) : Event → Prop
  | .data data endOfStream dispatched =>
      dispatched = true ∨ s.duringCall = true ∨ ¬ Due cfg (push env data endOfStream s) ∨
        endOfStream = true ∧ s.queue ++ chunksOf env data = []
  | .answer statusCode responseBody dispatched =>
      if outcomeOf env statusCode responseBody = .failed then
        s.call = some [] ∧ (s.endOfStreamReceived = true → s.queue = [])
      else dispatched = true ∨ ¬ Due cfg s ∨ s.endOfStreamReceived = true ∧ s.queue = []

/-! ### One step -/

/-- Nothing is lost between the queue and a call. -/
theorem popLoop_append (queue : List GoString) (buffer : GoString) :
    (popLoop env cfg queue buffer).1 ++ (popLoop env cfg queue buffer).2.2 = queue := by
  induction queue generalizing buffer with
  | nil => rfl
  | cons front queue ih =>
      rw [popLoop]
      split
      · rfl
      · simpa using ih _

/-- A call takes something off a queue that is not empty. -/
theorem popLoop_ne_nil {queue : List GoString} (h : queue ≠ []) (buffer : GoString) :
    (popLoop env cfg queue buffer).1 ≠ [] := by
  cases queue with
  | nil => exact absurd rfl h
  | cons front queue =>
      rw [popLoop]
      split <;> simp

/-- The response goes on: there is a call under way if one is marked, and if the stream has
ended. -/
structure Open (s : State) : Prop where
  endings : endings s.output = 0
  duringCall : s.duringCall = s.call.isSome
  closed : s.closed = true → s.call.isSome = true

/-- The response has been ended, by the last that the client got. -/
structure Over (s : State) : Prop where
  endings : endings s.output = 1
  last : s.output.getLast?.map Output.ends = some true
  closed : s.closed = true
  call : s.call = none
  queue : s.queue = []

/-- What holds after some events. -/
structure Inv (env : Env Response) (events : List Event) (s : State) : Prop where
  riskDetected : s.riskDetected = false
  endOfStreamReceived : s.endOfStreamReceived = s.closed
  conserved : delivered s.output ++ s.call.getD [] ++ s.queue = queuedChunks env events
  phase : Open s ∨ Over s

/-- The state in which a call may be made: nothing is under way, and the response has not
been ended. -/
structure Ready (s : State) : Prop where
  riskDetected : s.riskDetected = false
  endOfStreamReceived : s.endOfStreamReceived = s.closed
  duringCall : s.duringCall = false
  call : s.call = none
  endings : endings s.output = 0

theorem Ready.singleCall {s : State} {events : List Event} {dispatched : Bool} (h : Ready s)
    (hconserved : delivered s.output ++ s.queue = queuedChunks env events)
    (hharmless : dispatched = true ∨ ¬ Due cfg s ∨ s.endOfStreamReceived = true ∧ s.queue = []) :
    Inv env events (singleCall env cfg dispatched s) := by
  obtain ⟨hrisk, heos, hduring, hcall, hendings⟩ := h
  rw [AiSecurityGuard.singleCall, if_neg (by simp [hduring])]
  by_cases hdue : Due cfg s
  · rw [if_pos hdue]
    have hpop : (popLoop env cfg s.queue []).1 ++ (popLoop env cfg s.queue []).2.2 = s.queue :=
      popLoop_append _ _
    cases dispatched with
    | true =>
        refine ⟨hrisk, heos, ?_, .inl ⟨hendings, rfl, fun _ => rfl⟩⟩
        simpa [List.append_assoc, hpop] using hconserved
    | false =>
        obtain ⟨hend, hempty⟩ : s.endOfStreamReceived = true ∧ s.queue = [] := by
          rcases hharmless with h | h | h
          · cases h
          · exact absurd hdue h
          · exact h
        refine ⟨?_, ?_, ?_, .inr ⟨?_, ?_, ?_, ?_, ?_⟩⟩
        · simpa [hend] using hrisk
        · simpa [hend] using heos
        · simpa [hend, hempty, popLoop, hcall, Output.chunks] using hconserved
        · simp [hend, hendings, Output.ends]
        · simp [hend, Output.ends]
        · simp [hend, ← heos]
        · simp [hend, hcall]
        · simp [hend, hempty, popLoop]
  · rw [if_neg hdue]
    refine ⟨hrisk, heos, ?_, .inl ⟨hendings, by rw [hduring, hcall]; rfl, fun hclosed => ?_⟩⟩
    · simpa [hcall] using hconserved
    · exact absurd (.inr (heos ▸ hclosed)) hdue

/-- A call makes the queue shorter. -/
theorem length_singleCall_lt {s : State} (dispatched : Bool) (hduring : s.duringCall = false)
    (hdue : Due cfg s) (hne : s.queue ≠ []) :
    (singleCall env cfg dispatched s).queue.length < s.queue.length := by
  have hqueue : (singleCall env cfg dispatched s).queue = (popLoop env cfg s.queue []).2.2 := by
    rw [singleCall, if_neg (by simp [hduring]), if_pos hdue]
    cases dispatched with
    | true => rfl
    | false =>
        simp only [Bool.false_eq_true, if_false]
        split <;> rfl
  have hpop : (popLoop env cfg s.queue []).1 ++ (popLoop env cfg s.queue []).2.2 = s.queue :=
    popLoop_append _ _
  have hlength := congrArg List.length hpop
  have hpos : 0 < (popLoop env cfg s.queue []).1.length :=
    List.length_pos_iff.mpr (popLoop_ne_nil hne [])
  rw [List.length_append] at hlength
  rw [hqueue]
  omega

@[simp] theorem singleCall_closed (dispatched : Bool) (s : State) :
    (singleCall env cfg dispatched s).closed = s.closed := by
  rw [singleCall]
  split
  · rfl
  · split
    · cases dispatched with
      | true => rfl
      | false =>
          simp only [Bool.false_eq_true, if_false]
          split <;> rfl
    · rfl

@[simp] theorem callback_closed (outcome : Outcome) (dispatched : Bool)
    (bufferQueue : List GoString) (s : State) :
    (callback env cfg outcome dispatched bufferQueue s).closed = s.closed := by
  cases outcome with
  | failed => rfl
  | denied body => rfl
  | passed =>
      simp only [callback]
      split
      · rfl
      · rw [singleCall_closed]

theorem queuedChunks_append (events : List Event) (e : Event) :
    queuedChunks env (events ++ [e]) = queuedChunks env events ++ queuedChunks env [e] := by
  simp [queuedChunks]

/-- The step of data. -/
theorem Inv.data {events : List Event} {s s' : State} {data : GoString}
    {endOfStream dispatched : Bool} (h : Inv env events s)
    (hstep : step env cfg s (.data data endOfStream dispatched) = some s')
    (hharmless : Harmless env cfg s (.data data endOfStream dispatched)) :
    Inv env (events ++ [.data data endOfStream dispatched]) s' := by
  obtain ⟨hrisk, heos, hconserved, hphase⟩ := h
  rw [step] at hstep
  split at hstep
  · cases hstep
  · rename_i hclosed
    obtain rfl := Option.some.inj hstep
    have hopen : Open s := hphase.resolve_right fun hover => hclosed hover.closed
    have hqueued : delivered s.output ++ s.call.getD [] ++ (s.queue ++ chunksOf env data) =
        queuedChunks env (events ++ [.data data endOfStream dispatched]) := by
      rw [queuedChunks_append, ← hconserved]
      simp [queuedChunks]
    rw [handleTextGenerationStreamingResponseBody, if_neg (by simp [hrisk])]
    by_cases hduring : s.duringCall = true
    · rw [if_pos (by simpa [push] using hduring)]
      have hcall : s.call.isSome = true := hopen.duringCall ▸ hduring
      exact ⟨hrisk, rfl, hqueued, .inl ⟨hopen.endings, hopen.duringCall, fun _ => hcall⟩⟩
    · rw [if_neg (by simpa [push] using hduring)]
      have hnone : s.call = none := by
        simpa [hopen.duringCall] using hduring
      have hready : Ready (push env data endOfStream s) :=
        ⟨hrisk, rfl, by simpa [push] using hduring, hnone, hopen.endings⟩
      apply hready.singleCall
      · simpa [hnone, push] using hqueued
      · rcases hharmless with h | h | h | h
        · exact .inl h
        · exact absurd h hduring
        · exact .inr (.inl h)
        · exact .inr (.inr h)

/-- The step of an answer. -/
theorem Inv.answer {events : List Event} {s s' : State} {statusCode : ℤ} {responseBody : GoString}
    {dispatched : Bool} (h : Inv env events s)
    (hstep : step env cfg s (.answer statusCode responseBody dispatched) = some s')
    (hunblocked : Unblocked env (.answer statusCode responseBody dispatched))
    (hharmless : Harmless env cfg s (.answer statusCode responseBody dispatched)) :
    Inv env (events ++ [.answer statusCode responseBody dispatched]) s' ∧
      (s.closed = true → endings s'.output = 1 ∨ s'.queue.length < s.queue.length) := by
  obtain ⟨hrisk, heos, hconserved, hphase⟩ := h
  rw [step] at hstep
  obtain ⟨bufferQueue, hcall, rfl⟩ := Option.map_eq_some_iff.mp hstep
  have hopen : Open s := hphase.resolve_right fun hover => by simp [hover.call] at hcall
  have hqueued : delivered s.output ++ bufferQueue ++ s.queue =
      queuedChunks env (events ++ [.answer statusCode responseBody dispatched]) := by
    rw [queuedChunks_append, ← hconserved]
    simp [queuedChunks, hcall]
  rw [Harmless] at hharmless
  cases houtcome : outcomeOf env statusCode responseBody with
  | denied body => exact absurd houtcome (hunblocked body)
  | failed =>
      rw [if_pos houtcome, hcall, Option.some.injEq] at hharmless
      obtain ⟨rfl, hempty⟩ := hharmless
      cases hclosed : s.closed with
      | false =>
          have hend : s.endOfStreamReceived = false := heos.trans hclosed
          refine ⟨⟨hrisk, heos, ?_, .inl ⟨?_, rfl, ?_⟩⟩, by simp⟩
          · simpa [callback, hend] using hqueued
          · simpa [callback, hend] using hopen.endings
          · simp [callback, hclosed]
      | true =>
          have hend : s.endOfStreamReceived = true := heos.trans hclosed
          have hover : endings (callback env cfg .failed dispatched [] s).output = 1 := by
            simp [callback, hend, hopen.endings, Output.ends]
          refine ⟨⟨hrisk, heos, ?_, .inr ⟨hover, ?_, ?_, rfl, hempty hend⟩⟩, fun _ => .inl hover⟩
          · simpa [callback, hend, Output.chunks] using hqueued
          · simp [callback, hend, Output.ends]
          · simpa [callback] using hclosed
  | passed =>
      rw [if_neg (by simp [houtcome])] at hharmless
      by_cases hlast : s.endOfStreamReceived = true ∧ s.queue = []
      · obtain ⟨hend, hempty⟩ := hlast
        have heq : callback env cfg .passed dispatched bufferQueue s =
            { s with call := none, output := s.output ++ [.inject bufferQueue true] } := by
          simp [callback, hend, hempty]
        rw [heq]
        have hover : endings (s.output ++ [Output.inject bufferQueue true]) = 1 := by
          simp [hopen.endings, Output.ends]
        refine ⟨⟨hrisk, heos, ?_, .inr ⟨hover, ?_, heos ▸ hend, rfl, hempty⟩⟩, fun _ => .inl hover⟩
        · simpa [Output.chunks, hempty] using hqueued
        · simp [Output.ends]
      · have heq : callback env cfg .passed dispatched bufferQueue s =
            singleCall env cfg dispatched
              { s with
                call := none, output := s.output ++ [.inject bufferQueue false]
                duringCall := false } := by
          have hnot : (s.endOfStreamReceived && s.queue.isEmpty) = false := by
            cases hend : s.endOfStreamReceived
            · rfl
            · simpa [hend] using hlast
          simp [callback, hnot]
        rw [heq]
        have hready : Ready
            { s with
              call := none, output := s.output ++ [.inject bufferQueue false]
              duringCall := false } :=
          ⟨hrisk, heos, rfl, rfl, by simp [hopen.endings, Output.ends]⟩
        refine ⟨hready.singleCall ?_ hharmless, fun hclosed => .inr ?_⟩
        · simpa [Output.chunks] using hqueued
        · have hend : s.endOfStreamReceived = true := heos.trans hclosed
          exact length_singleCall_lt dispatched rfl (.inr hend) fun hempty => hlast ⟨hend, hempty⟩

/-! ### Whole runs -/

/-- Every event of a run that ends in `s` is one that the claim allows, and harmless in the
state it comes in. -/
def HarmlessRun (env : Env Response) (cfg : Config) (events : List Event) : Prop :=
  ∀ before e after s, events = before ++ e :: after → run env cfg before = some s →
    Unblocked env e ∧ Harmless env cfg s e

theorem HarmlessRun.of_append {before after : List Event}
    (h : HarmlessRun env cfg (before ++ after)) : HarmlessRun env cfg before := by
  intro b e a s heq hrun
  exact h b e (a ++ after) s (by simp [heq]) hrun

theorem run_append_singleton {before : List Event} {e : Event} {s : State}
    (h : run env cfg (before ++ [e]) = some s) :
    ∃ s₀, run env cfg before = some s₀ ∧ step env cfg s₀ e = some s := by
  rw [run, List.foldlM_append] at h
  obtain ⟨s₀, hbefore, hlast⟩ := Option.bind_eq_some_iff.mp h
  exact ⟨s₀, hbefore, by simpa [List.foldlM_cons] using hlast⟩

theorem run_inv {events : List Event} {s : State} (hrun : run env cfg events = some s)
    (hharmless : HarmlessRun env cfg events) : Inv env events s := by
  induction events using List.reverseRecOn generalizing s with
  | nil =>
      obtain rfl : ({} : State) = s := by simpa [run] using hrun
      exact ⟨rfl, rfl, rfl, .inl ⟨rfl, rfl, by simp⟩⟩
  | append_singleton before e ih =>
      obtain ⟨s₀, hbefore, hstep⟩ := run_append_singleton hrun
      have hinv := ih hbefore hharmless.of_append
      obtain ⟨hunblocked, hsafe⟩ := hharmless before e [] s₀ rfl hbefore
      cases e with
      | data data endOfStream dispatched => exact hinv.data hstep hsafe
      | answer statusCode responseBody dispatched =>
          exact (hinv.answer hstep hunblocked hsafe).1

/-- After the end of the stream an answer ends the response or takes something off the
queue. -/
theorem length_after_closed {before after : List Event} {s₀ s : State}
    (hbefore : run env cfg before = some s₀) (hrun : run env cfg (before ++ after) = some s)
    (hharmless : HarmlessRun env cfg (before ++ after)) (hclosed : s₀.closed = true) :
    s.closed = true ∧ (endings s.output = 0 → after.length + s.queue.length ≤ s₀.queue.length) ∧
      after.length ≤ s₀.queue.length + 1 := by
  induction after using List.reverseRecOn generalizing s with
  | nil =>
      rw [List.append_nil, hbefore] at hrun
      obtain rfl := Option.some.inj hrun
      exact ⟨hclosed, fun _ => by simp, by simp⟩
  | append_singleton after e ih =>
      rw [← List.append_assoc] at hrun hharmless
      obtain ⟨s₁, hmiddle, hstep⟩ := run_append_singleton hrun
      obtain ⟨hclosed₁, hlength, -⟩ := ih hmiddle hharmless.of_append
      have hinv := run_inv hmiddle hharmless.of_append
      obtain ⟨hunblocked, hsafe⟩ := hharmless (before ++ after) e [] s₁ rfl hmiddle
      cases e with
      | data data endOfStream dispatched => simp [step, hclosed₁] at hstep
      | answer statusCode responseBody dispatched =>
          obtain ⟨hinv', hprogress⟩ := hinv.answer hstep hunblocked hsafe
          obtain ⟨bufferQueue, hcall, rfl⟩ := Option.map_eq_some_iff.mp hstep
          have hopen : Open s₁ := hinv.phase.resolve_right fun hover => by
            simp [hover.call] at hcall
          have hbound := hlength hopen.endings
          rw [List.length_append, List.length_singleton]
          refine ⟨by simpa using hclosed₁, fun hgoesOn => ?_, by omega⟩
          have hshorter := (hprogress hclosed₁).resolve_left (by omega)
          omega

/-- A run of harmless events keeps every chunk in its place and ends the response at most
once. When the stream has ended and no call is under way, all chunks have been injected and
the response has been ended; and it comes to that after as many answers as there are chunks
in the queue and one. -/
theorem delivers_of_harmless {events : List Event} {s : State}
    (hrun : run env cfg events = some s) (hharmless : HarmlessRun env cfg events) :
    delivered s.output ++ s.call.getD [] ++ s.queue = queuedChunks env events ∧
      endings s.output ≤ 1 ∧
      (s.closed = true → s.call = none →
        delivered s.output = queuedChunks env events ∧ endings s.output = 1 ∧
          s.output.getLast?.map Output.ends = some true) ∧
      ∀ before after s₀, events = before ++ after → run env cfg before = some s₀ →
        s₀.closed = true → after.length ≤ s₀.queue.length + 1 := by
  have hinv := run_inv hrun hharmless
  refine ⟨hinv.conserved, ?_, fun hclosed hcall => ?_, ?_⟩
  · rcases hinv.phase with hopen | hover
    · simp [hopen.endings]
    · simp [hover.endings]
  · have hover : Over s := hinv.phase.resolve_left fun hopen => by
      simpa [hcall] using hopen.closed hclosed
    have hconserved := hinv.conserved
    rw [hcall, hover.queue] at hconserved
    exact ⟨by simpa using hconserved, hover.endings, hover.last⟩
  · rintro before after s₀ rfl hbefore hclosed
    exact (length_after_closed hbefore hrun hharmless hclosed).2.2

end Delivery

namespace Sample

/-- The line of an event with some content. -/
def line : GoString := bytes "data: \x7b\"choices\":[\x7b\"delta\":\x7b\"content\":\"hello\"\x7d\x7d]\x7d"

def event : GoString := line ++ separator

/-- An answer of the moderation that finds nothing. -/
def passBody : GoString := bytes "\x7b\"Code\":200,\"Data\":\x7b\"RiskLevel\":\"none\"\x7d\x7d"

/-- The libraries on the texts above, and on parts of the event in which its text does not
end. -/
def env : Env Unit where
  unifySSEChunk := id
  get text path :=
    if (text = line ∨ text = event) ∧ path = bytes "choices.0.delta.content" then
      ⟨true, bytes "hello", none⟩
    else ⟨false, [], none⟩
  code body := if body = passBody then 200 else 0
  unmarshal body := if body = passBody then some () else none
  isRiskLevelAcceptable _ := true
  buildOpenAIDenyData _ := none

def cfg : Config := {}

/-- The event and the end of the stream, and then an answer with a status. -/
def events (statusCode : ℤ) : List Event :=
  [.data event true true, .answer statusCode passBody true]

theorem harmless_events : HarmlessRun env cfg (events 200) := by
  intro before e after s heq hrun
  rcases before with _ | ⟨e₀, _ | ⟨e₁, rest⟩⟩
  · obtain ⟨rfl, -⟩ := List.cons.inj heq
    exact ⟨trivial, .inl rfl⟩
  · simp only [events, List.cons_append, List.nil_append, List.cons.injEq] at heq
    obtain ⟨-, rfl, -⟩ := heq
    have houtcome : outcomeOf env 200 passBody = .passed := by decide
    refine ⟨fun body => by simp [houtcome], ?_⟩
    rw [Harmless, if_neg (by simp [houtcome])]
    exact .inl rfl
  · simp [events] at heq

end Sample

open Sample in
theorem delivers_events :
    (run env cfg (events 200)).map State.output = some [.inject [event] true] ∧
      ∀ s, run env cfg (events 200) = some s →
        delivered s.output ++ s.call.getD [] ++ s.queue = queuedChunks env (events 200) :=
  ⟨by decide +kernel, fun _ hs => (delivers_of_harmless hs harmless_events).1⟩

open Sample in
/-- A moderation that is out of order: the chunk of its call is lost. -/
theorem not_delivers_unavailable : (∀ e ∈ events 503, Unblocked env e) ∧
    queuedChunks env (events 503) = [event] ∧
    (run env cfg (events 503)).map (fun s => (s.closed, s.call, s.queue, s.output)) =
      some (true, none, [], [.resume]) ∧
    delivered [.resume] ≠ queuedChunks env (events 503) := by
  have houtcome : outcomeOf env 503 passBody = .failed := by decide
  refine ⟨?_, by decide +kernel, by decide +kernel, by decide +kernel⟩
  intro e he
  simp only [events, List.mem_cons, List.not_mem_nil, or_false] at he
  rcases he with rfl | rfl
  · trivial
  · exact fun body => by simp [houtcome]

end Higress.AiSecurityGuard
