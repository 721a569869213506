import Higress.Masking.Conservation

/-!
No text leaves the windows of a response that the callback has not accepted. The calls of
the callback are recorded. For every choice, and for every event in the queue, a stamp says
how many calls there had been when a text was last put into the window; an accepted call
that is recorded behind the stamp has seen all of the window.

A window is marked when a text is put into it and when one of its buffers is rejected. What
is in a window without the mark, and what has been taken out of one, is a part of a buffer
that was accepted after the stamp.
-/

namespace Higress.Masking

open Lib Wasm

variable {σ : Type*}

/-! ### Calls and stamps -/

/-- A call of the callback: the buffer before and after it. -/
structure Call where
  buffer : Text
  result : Text
  accepted : Bool

/-- The callback with a record of its calls. -/
def logged (inspect : σ → Text → Text × Bool × σ) (s : σ × List Call) (buffer : Text) :
    Text × Bool × (σ × List Call) :=
  ((inspect s.1 buffer).1, (inspect s.1 buffer).2.1, (inspect s.1 buffer).2.2,
    s.2 ++ [⟨buffer, (inspect s.1 buffer).1, (inspect s.1 buffer).2.1⟩])

/-- The number of calls when a text was last put into the window of a choice, and the same for
the windows that the events of the queue were taken from. -/
structure Stamps where
  window : ℤ → ℕ
  queued : List ℕ

namespace Stamps

/-- A text is put into a window. -/
def put (g : Stamps) (i : ℤ) (n : ℕ) : Stamps := { g with window := Function.update g.window i n }

/-- Events are put into the queue. -/
def queue (g : Stamps) (ns : List ℕ) : Stamps := { g with queued := g.queued ++ ns }

/-- The stamps of all windows. -/
def all (g : Stamps) (m : MsgWindow) : List ℕ := m.messageWindows.entries.map fun e => g.window e.1

end Stamps

section Stamp

variable (parse : Text → Option Value) (inspect : σ → Text → Text × Bool × σ)

/-- The stamps after one choice of an event. -/
def stampChoice (metadata : FrameMetadata) (m : MsgWindow) (s : σ × List Call) (g : Stamps)
    (choice : Value) : Stamps :=
  let g := if hasText choice then g.put (choiceIndex choice) s.2.length else g
  let m' := (m.splitChoice (logged inspect) metadata s choice).2.1
  g.queue (List.replicate (m'.queuedEvents.length - m.queuedEvents.length)
    (g.window (choiceIndex choice)))

def stampChoices (metadata : FrameMetadata) (m : MsgWindow) (s : σ × List Call) (g : Stamps) :
    List Value → Stamps
  | [] => g
  | choice :: choices =>
      let next := m.splitChoice (logged inspect) metadata s choice
      stampChoices metadata next.2.1 next.2.2 (stampChoice inspect metadata m s g choice) choices

/-- The stamps after an event; the rest of an event that is put into the queue has no text. -/
def stampEvent (m : MsgWindow) (s : σ × List Call) (g : Stamps) (event : Text) : Stamps :=
  if event = [] then g
  else
    let texts := match eventValue parse event with
      | none => g.queue (g.all m)
      | some res =>
          let m := { m with
            errorReceived := m.errorReceived || !(res.index (bytes "error")).isNull }
          match choicesOf res with
          | none => g.queue (g.all m)
          | some choices =>
              stampChoices inspect (FrameMetadata.fromValue res) (m.recordFinish choices) s g choices
    let m' := (m.updateEvent parse (logged inspect) s event).2.1
    texts.queue (List.replicate (m'.queuedEvents.length - texts.queued.length) 0)

def stampEvents (m : MsgWindow) (s : σ × List Call) (g : Stamps) : List Text → Stamps
  | [] => g
  | event :: events =>
      let next := m.updateEvent parse (logged inspect) s event
      stampEvents next.2.1 next.2.2 (stampEvent parse inspect m s g event) events

end Stamp

/-! ### Callbacks -/

/-- A callback of the body: what it brings, and whether the response ends. -/
structure Callback where
  body : Option Text
  endOfStream : Bool

/-- `push`, if there is a body. -/
def pushBody {τ : Type*} (parse : Text → Option Value) (inspect : τ → Text → Text × Bool × τ)
    (c b : ℕ) (m : MsgWindow) (s : τ) : Option Text → MsgWindow × τ
  | none => (m, s)
  | some body => m.push parse inspect s body true c b

/-- The frames of a callback (`on_http_response_body`). -/
def bodyCallback {τ : Type*} (parse : Text → Option Value) (inspect : τ → Text → Text × Bool × τ)
    (c b : ℕ) (m : MsgWindow) (s : τ) (cb : Callback) : List Frame × MsgWindow × τ :=
  let pushed := pushBody parse inspect c b m s cb.body
  if cb.endOfStream then pushed.1.finishFrames parse inspect pushed.2
  else ((pushed.1.popFrames c b).1, (pushed.1.popFrames c b).2, pushed.2)

/-- Where a response is: its windows, the calls so far and the stamps. -/
structure Progress (σ : Type*) where
  window : MsgWindow
  state : σ × List Call
  stamps : Stamps

section Callbacks

variable (parse : Text → Option Value) (inspect : σ → Text → Text × Bool × σ) (c b : ℕ)

/-- The response after `push`. -/
def Progress.push (p : Progress σ) (body : Option Text) : Progress σ where
  window := (pushBody parse (logged inspect) c b p.window p.state body).1
  state := (pushBody parse (logged inspect) c b p.window p.state body).2
  stamps := match body with
    | none => p.stamps
    | some body =>
        let drained := (p.window.streamParser.update body).drain
        stampEvents parse inspect
          { p.window with charWindowSize := c, byteWindowSize := b, streamParser := drained.2 }
          p.state p.stamps drained.1

/-- The response after `complete` and `queue_all_text`. -/
def Progress.complete (p : Progress σ) : Progress σ :=
  let stamps := match p.window.streamParser.flush with
    | (none, _) => p.stamps
    | (some event, streamParser) =>
        stampEvent parse inspect { p.window with streamParser } p.state p.stamps event
  let completed := p.window.complete parse (logged inspect) p.state
  let queued := completed.1.queueAllText (logged inspect) completed.2
  { window := queued.1, state := queued.2, stamps := stamps.queue (stamps.all completed.1) }

/-- The response after a callback. -/
def Progress.next (p : Progress σ) (cb : Callback) : Progress σ where
  window := (bodyCallback parse (logged inspect) c b p.window p.state cb).2.1
  state := (bodyCallback parse (logged inspect) c b p.window p.state cb).2.2
  stamps :=
    let p := p.push parse inspect c b cb.body
    { (if cb.endOfStream then (p.complete parse inspect).stamps else p.stamps) with queued := [] }

/-- The response after some callbacks. -/
def Progress.after (s : σ) (cbs : List Callback) : Progress σ :=
  cbs.foldl (Progress.next parse inspect c b) ⟨.default, (s, []), ⟨fun _ => 0, []⟩⟩

end Callbacks

/-! ### Accepted parts -/

/-- The text is a part of a buffer that was accepted after the stamp, and one of its
characters if the buffer is a text. -/
def Backed (calls : List Call) (n : ℕ) (text : Text) : Prop :=
  text = [] ∨ ∃ call ∈ calls.drop n, call.accepted = true ∧ text <:+: call.result ∧
    (Utf8.IsUtf8 call.result → Utf8.IsUtf8 text)

theorem Backed.mono {calls : List Call} {n : ℕ} {text : Text} (h : Backed calls n text)
    (more : List Call) : Backed (calls ++ more) n text := by
  refine h.imp_right fun ⟨call, hcall, hrest⟩ => ⟨call, ?_, hrest⟩
  rw [List.drop_append]
  exact List.mem_append_left _ hcall

/-- The parts that `pop` cuts a text into. -/
theorem Backed.pop {calls : List Call} {n : ℕ} {w : MessageWindow} (h : Backed calls n w.message)
    (c b : ℕ) : Backed calls n (w.pop c b).1 ∧ Backed calls n (w.pop c b).2.message := by
  have happend := w.pop_append c b
  rcases h with hempty | ⟨call, hcall, haccepted, hpart, hutf8⟩
  · rw [hempty, List.append_eq_nil_iff] at happend
    exact ⟨.inl happend.1, .inl happend.2⟩
  · have hfirst : (w.pop c b).1 <:+: w.message := happend ▸ List.infix_append_left
    have hsecond : (w.pop c b).2.message <:+: w.message := happend ▸ List.infix_append_right
    exact ⟨.inr ⟨call, hcall, haccepted, hfirst.trans hpart,
        fun hresult => (w.isUtf8_pop (hutf8 hresult) c b).1⟩,
      .inr ⟨call, hcall, haccepted, hsecond.trans hpart,
        fun hresult => (w.isUtf8_pop (hutf8 hresult) c b).2⟩⟩

namespace MessageWindowOpenAi

/-- The buffers of a window. -/
def buffers (w : MessageWindowOpenAi) : List Text :=
  w.retMessages.map Prod.snd ++ [w.messageWindow.message]

/-- A window without the mark has accepted buffers only. -/
structure Guarded (calls : List Call) (n : ℕ) (w : MessageWindowOpenAi) : Prop where
  stamp : n ≤ calls.length
  backed : w.needsCheck = false → ∀ text ∈ w.buffers, Backed calls n text

theorem Guarded.mono {calls : List Call} {n : ℕ} {w : MessageWindowOpenAi} (h : w.Guarded calls n)
    (more : List Call) : w.Guarded (calls ++ more) n :=
  ⟨by rw [List.length_append]; exact h.stamp.trans (Nat.le_add_right _ _),
    fun hcheck text htext => (h.backed hcheck text htext).mono more⟩

/-- The result of an accepted call is accepted. -/
theorem backed_of_accepted {calls more : List Call} {call : Call} {n : ℕ} (hn : n ≤ calls.length)
    (hcall : call ∈ more) (haccepted : call.accepted = true) :
    Backed (calls ++ more) n call.result := by
  refine .inr ⟨call, ?_, haccepted, List.infix_rfl, id⟩
  rw [List.drop_append_of_le_length hn]
  exact List.mem_append_right _ hcall

/-- A round over finished messages. -/
theorem inspectAll_spec (inspect : σ → Text → Text × Bool × σ) (s : σ × List Call)
    (msgs : List (MsgFlag × Text)) :
    ∃ more, (inspectAll (logged inspect) s msgs).2.2.2 = s.2 ++ more ∧
      ((∀ call ∈ more, call.accepted = true) →
        (inspectAll (logged inspect) s msgs).2.1 = true) ∧
      ((inspectAll (logged inspect) s msgs).2.1 = true →
        ∀ msg ∈ (inspectAll (logged inspect) s msgs).1,
          ∃ call ∈ more, call.accepted = true ∧ call.result = msg.2) := by
  induction msgs generalizing s with
  | nil => exact ⟨[], by simp [inspectAll], by simp [inspectAll], by simp [inspectAll]⟩
  | cons msg msgs ih =>
      obtain ⟨flag, text⟩ := msg
      obtain ⟨more, hmore, hall, hresults⟩ := ih (logged inspect s text).2.2
      cases haccepted : (inspect s.1 text).2.1 with
      | true =>
          refine ⟨⟨text, (inspect s.1 text).1, true⟩ :: more, ?_, ?_, ?_⟩
          · simp [inspectAll, logged, haccepted] at hmore ⊢
            exact hmore
          · intro haccept
            simp [inspectAll, logged, haccepted] at hall ⊢
            exact hall fun call hcall => haccept call (by simp [hcall])
          · simp only [inspectAll, logged, haccepted, if_true] at hresults ⊢
            intro haccept msg hmsg
            rcases List.mem_cons.mp hmsg with rfl | hmsg
            · exact ⟨_, List.mem_cons_self, rfl, rfl⟩
            · obtain ⟨call, hcall, hrest⟩ := hresults haccept msg hmsg
              exact ⟨call, List.mem_cons_of_mem _ hcall, hrest⟩
      | false =>
          refine ⟨[⟨text, (inspect s.1 text).1, false⟩], ?_, ?_, ?_⟩
          · simp [inspectAll, logged, haccepted]
          · simp
          · simp [inspectAll, logged, haccepted]

/-- A check keeps what a window is held to, and takes the mark off it if all is accepted. -/
theorem Guarded.check {w : MessageWindowOpenAi} {s : σ × List Call} {n : ℕ}
    (h : w.Guarded s.2 n) (inspect : σ → Text → Text × Bool × σ) :
    ∃ more, (w.check (logged inspect) s).2.2 = s.2 ++ more ∧
      (w.check (logged inspect) s).1.Guarded (s.2 ++ more) n ∧
      ((∀ call ∈ more, call.accepted = true) →
        (w.check (logged inspect) s).1.needsCheck = false) := by
  cases hcheck : w.needsCheck with
  | false =>
      have hsame : w.check (logged inspect) s = (w, s) := by simp [MessageWindowOpenAi.check, hcheck]
      exact ⟨[], by simp [hsame], by simpa [hsame] using h, fun _ => by simp [hsame, hcheck]⟩
  | true =>
      obtain ⟨more, hmore, hall, hresults⟩ := inspectAll_spec inspect s w.retMessages
      rcases hround : inspectAll (logged inspect) s w.retMessages with ⟨msgs, accepted, s'⟩
      rw [hround] at hmore hall hresults
      dsimp only at hmore hall hresults
      cases accepted with
      | false =>
          have heq : w.check (logged inspect) s =
              ({ w with retMessages := msgs, needsCheck := true }, s') := by
            simp [MessageWindowOpenAi.check, hcheck, hround]
          refine ⟨more, by rw [heq]; exact hmore, ?_, fun haccepted => ?_⟩
          · rw [heq]
            exact ⟨(h.mono more).stamp, fun hnone => by cases hnone⟩
          · cases hall haccepted
      | true =>
          have heq : w.check (logged inspect) s =
              ({ w with
                retMessages := msgs
                messageWindow := ⟨(inspect s'.1 w.messageWindow.message).1⟩
                needsCheck := !(inspect s'.1 w.messageWindow.message).2.1 },
                (logged inspect s' w.messageWindow.message).2.2) := by
            simp [MessageWindowOpenAi.check, hcheck, hround, logged]
          let call : Call := ⟨w.messageWindow.message, (inspect s'.1 w.messageWindow.message).1,
            (inspect s'.1 w.messageWindow.message).2.1⟩
          refine ⟨more ++ [call], ?_, ?_, fun haccepted => ?_⟩
          · rw [heq]
            simp [logged, hmore, call]
          · rw [heq]
            refine ⟨(h.mono _).stamp, fun hpassed text htext => ?_⟩
            have hlast : call.accepted = true := by simpa [call] using hpassed
            rcases List.mem_append.mp htext with hret | hmessage
            · obtain ⟨msg, hmsg, rfl⟩ := List.mem_map.mp hret
              obtain ⟨found, hfound, haccepted, hresult⟩ := hresults rfl msg hmsg
              exact hresult ▸ backed_of_accepted h.stamp (List.mem_append_left _ hfound) haccepted
            · obtain rfl := List.mem_singleton.mp hmessage
              have hin : call ∈ more ++ [call] := by simp
              exact backed_of_accepted h.stamp hin hlast
          · rw [heq]
            have hlast := haccepted call (by simp)
            simpa [call] using hlast

theorem Guarded.update {calls : List Call} (w : MessageWindowOpenAi) {data : Text} (hne : data ≠ [])
    (flag : MsgFlag) (index : ℤ) (metadata : FrameMetadata) (role : Option Value) :
    (w.update data flag index metadata role).Guarded calls calls.length := by
  refine ⟨le_rfl, fun hcheck => ?_⟩
  rw [update_eq hne] at hcheck
  split at hcheck <;> cases hcheck

theorem mem_cutMessages {w : MessageWindowOpenAi} {msg : Text} {p : MsgFlag × Text}
    (h : p ∈ w.cutMessages msg) : p ∈ w.retMessages ∨ p.2 = msg := by
  rcases List.mem_append.mp h with h | h
  · exact .inl h
  · rw [last] at h
    split at h
    · cases h
    · exact .inr (by rw [List.mem_singleton.mp h])

/-- What `pop` and `take_prefix` take out of a window, and what they leave. -/
theorem Guarded.pop {calls : List Call} {n : ℕ} {w : MessageWindowOpenAi} (h : w.Guarded calls n)
    (c b : ℕ) :
    (w.pop c b).2.Guarded calls n ∧ (w.needsCheck = false →
      ∀ p ∈ w.cutMessages (w.messageWindow.pop c b).1, Backed calls n p.2) := by
  have hbuffers : w.needsCheck = false →
      (∀ p ∈ w.retMessages, Backed calls n p.2) ∧ Backed calls n w.messageWindow.message := by
    intro hcheck
    have hall := h.backed hcheck
    exact ⟨fun p hp => hall _ (List.mem_append_left _ (List.mem_map_of_mem hp)),
      hall _ (by simp [buffers])⟩
  refine ⟨⟨h.stamp, fun hcheck text htext => ?_⟩, fun hcheck p hp => ?_⟩
  · rw [pop_eq] at hcheck htext
    obtain rfl : text = (w.messageWindow.pop c b).2.message := by simpa [buffers] using htext
    exact ((hbuffers hcheck).2.pop c b).2
  · rcases mem_cutMessages hp with hret | heq
    · exact (hbuffers hcheck).1 p hret
    · exact heq ▸ ((hbuffers hcheck).2.pop c b).1

theorem Guarded.takePrefix {calls : List Call} {n : ℕ} {w : MessageWindowOpenAi}
    (h : w.Guarded calls n) (c b : ℕ) :
    (w.takePrefix c b).2.Guarded calls n ∧ (w.needsCheck = false →
      ∀ p, (w.takePrefix c b).1 = some p → ∀ text ∈ p.buffers, Backed calls n text) := by
  obtain ⟨hrest, hcut⟩ := h.pop c b
  refine ⟨(w.takePrefix_eq c b).2 ▸ hrest, fun hcheck p hp text htext => ?_⟩
  obtain ⟨-, -, hmessage, hret⟩ := takePrefix_mem hp
  rw [buffers, hret, hmessage] at htext
  rcases List.mem_append.mp htext with hin | hin
  · obtain ⟨q, hq, rfl⟩ := List.mem_map.mp hin
    exact hcut hcheck q hq
  · exact .inl (List.mem_singleton.mp hin)

end MessageWindowOpenAi

/-! ### Texts of frames -/

/-- The texts of the choices of a value. -/
def valueTexts (v : Value) : List Text :=
  ((v.index (bytes "choices")).asArray.getD []).flatMap fun choice =>
    textFlags.map fun f => strOf choice f.1

/-- The texts of a frame. -/
def frameTexts (parse : Text → Option Value) : Frame → List Text
  | .event e => (eventValue parse e).toList.flatMap valueTexts
  | .control v => valueTexts v
  | .text v => valueTexts v
  | .done => []

theorem strOf_eq_nil_of_choiceText {choice : Value} (h : choiceText choice = []) :
    ∀ f ∈ textFlags, strOf choice f.1 = [] := by
  intro f hf
  have hnil := List.flatMap_eq_nil_iff.mp h f hf
  simpa [tag] using hnil

/-- Choices without text. -/
theorem valueTexts_eq_nil {v : Value}
    (h : ∀ choice ∈ (v.index (bytes "choices")).asArray.getD [], choiceText choice = []) :
    ∀ text ∈ valueTexts v, text = [] := by
  intro text htext
  obtain ⟨choice, hchoice, hin⟩ := List.mem_flatMap.mp htext
  obtain ⟨f, hf, rfl⟩ := List.mem_map.mp hin
  exact strOf_eq_nil_of_choiceText (h choice hchoice) f hf

/-- The text of a frame that a window writes is one of its messages. -/
theorem MessageWindowOpenAi.mem_valueTexts_genValues {w : MessageWindowOpenAi}
    {msgs : List (MsgFlag × Text)} {v : Value} (hv : v ∈ (w.genValues msgs).1) {text : Text}
    (htext : text ∈ valueTexts v) (hne : text ≠ []) :
    ∃ p ∈ msgs, text = Utf8.lossy p.2 := by
  induction msgs generalizing w with
  | nil => cases hv
  | cons msg msgs ih =>
      obtain ⟨flag, msg⟩ := msg
      simp only [genValues] at hv
      rcases List.mem_cons.mp hv with rfl | hv
      · refine ⟨(flag, msg), by simp, ?_⟩
        obtain ⟨hreasoning, hcontent⟩ := w.strOf_choiceValue_flags flag msg
        rw [genValue_fst, valueTexts, index_frame] at htext
        simp only [Value.asArray, Option.getD_some, List.flatMap_singleton, textFlags,
          List.map_cons, List.map_nil, List.mem_cons, List.not_mem_nil, or_false] at htext
        rcases htext with rfl | rfl
        · rw [hreasoning] at hne ⊢
          split at hne
          · rename_i hflag
            rw [if_pos hflag]
          · exact absurd rfl hne
        · rw [hcontent] at hne ⊢
          split at hne
          · rename_i hflag
            rw [if_pos hflag]
          · exact absurd rfl hne
      · obtain ⟨p, hp, heq⟩ := ih hv
        exact ⟨p, List.mem_cons_of_mem _ hp, heq⟩

/-! ### The response -/

/-- An event of the queue: a window with accepted buffers, or a frame without text. -/
def QueuedBacked (parse : Text → Option Value) (calls : List Call) (n : ℕ) : QueuedEvent → Prop
  | .text w => ∀ text ∈ w.buffers, Backed calls n text
  | .raw f => ∀ text ∈ frameTexts parse f, text = []

theorem QueuedBacked.mono {parse : Text → Option Value} {calls : List Call} {n : ℕ}
    {e : QueuedEvent} (h : QueuedBacked parse calls n e) (more : List Call) :
    QueuedBacked parse (calls ++ more) n e := by
  cases e with
  | text w => exact fun text htext => (h text htext).mono more
  | raw f => exact h

/-- All calls since the start of a callback have been accepted. -/
def AllAccepted (k : ℕ) (calls : List Call) : Prop := ∀ call ∈ calls.drop k, call.accepted = true

theorem AllAccepted.of_append {k : ℕ} {calls more : List Call} (hk : k ≤ calls.length)
    (h : AllAccepted k (calls ++ more)) :
    AllAccepted k calls ∧ ∀ call ∈ more, call.accepted = true := by
  rw [AllAccepted, List.drop_append_of_le_length hk] at h
  exact ⟨fun call hcall => h call (List.mem_append_left _ hcall),
    fun call hcall => h call (List.mem_append_right _ hcall)⟩

/-- What holds within a callback that began after `k` calls. -/
structure Sound (parse : Text → Option Value) (k : ℕ) (m : MsgWindow) (calls : List Call)
    (g : Stamps) : Prop where
  start : k ≤ calls.length
  windows : ∀ i w, m.messageWindows.get i = some w → w.Guarded calls (g.window i)
  length : g.queued.length = m.queuedEvents.length
  queued : AllAccepted k calls → ∀ q ∈ g.queued.zip m.queuedEvents, QueuedBacked parse calls q.1 q.2

section Sound

variable {parse : Text → Option Value} (inspect : σ → Text → Text × Bool × σ) {k : ℕ}
  {m m' : MsgWindow} {calls : List Call} {g : Stamps}

/-- Only the windows and the queue matter. -/
theorem Sound.congr (h : Sound parse k m calls g) (hwindows : m'.messageWindows = m.messageWindows)
    (hqueued : m'.queuedEvents = m.queuedEvents) : Sound parse k m' calls g :=
  ⟨h.start, hwindows ▸ h.windows, hqueued ▸ h.length, hqueued ▸ h.queued⟩

/-- After some calls, with other windows and more in the queue. -/
theorem Sound.queue (h : Sound parse k m calls g) {more : List Call} {ns : List ℕ}
    {events : List QueuedEvent} (hlength : ns.length = events.length)
    (hqueued : m'.queuedEvents = m.queuedEvents ++ events)
    (hwindows : ∀ i w, m'.messageWindows.get i = some w → w.Guarded (calls ++ more) (g.window i))
    (hevents : (∀ call ∈ more, call.accepted = true) →
      ∀ q ∈ ns.zip events, QueuedBacked parse (calls ++ more) q.1 q.2) :
    Sound parse k m' (calls ++ more) (g.queue ns) where
  start := by
    rw [List.length_append]
    exact h.start.trans (Nat.le_add_right _ _)
  windows := hwindows
  length := by simp [Stamps.queue, hqueued, h.length, hlength]
  queued := by
    intro hall q hq
    obtain ⟨hbefore, hmore⟩ := hall.of_append h.start
    rw [hqueued, Stamps.queue, List.zip_append h.length] at hq
    rcases List.mem_append.mp hq with hq | hq
    · exact (h.queued hbefore q hq).mono more
    · exact hevents hmore q hq

/-- After some calls, with other windows. -/
theorem Sound.recall (h : Sound parse k m calls g) {more : List Call}
    (hqueued : m'.queuedEvents = m.queuedEvents)
    (hwindows : ∀ i w, m'.messageWindows.get i = some w → w.Guarded (calls ++ more) (g.window i)) :
    Sound parse k m' (calls ++ more) g := by
  have hnext : Sound parse k m' (calls ++ more) (g.queue []) :=
    h.queue rfl (by rw [hqueued, List.append_nil]) hwindows (by simp)
  simpa [Stamps.queue] using hnext

/-- A text is put into a window, which is marked. -/
theorem Sound.put (h : Sound parse k m calls g) {i : ℤ} {w : MessageWindowOpenAi}
    (hw : w.Guarded calls calls.length)
    (hget : ∀ j, m'.messageWindows.get j = if j = i then some w else m.messageWindows.get j)
    (hqueued : m'.queuedEvents = m.queuedEvents) :
    Sound parse k m' calls (g.put i calls.length) where
  start := h.start
  windows j v hv := by
    rw [hget] at hv
    split at hv
    · rename_i hj
      obtain rfl := Option.some.inj hv
      simpa [Stamps.put, hj] using hw
    · rename_i hj
      simpa [Stamps.put, Function.update_of_ne hj] using h.windows j v hv
  length := hqueued ▸ h.length
  queued := hqueued ▸ h.queued

/-- Nothing, or events taken out of one window, is put into the queue. -/
theorem Sound.queueAt (h : Sound parse k m calls g) {more : List Call} {n : ℕ}
    {events : List QueuedEvent} (hqueued : m'.queuedEvents = m.queuedEvents ++ events)
    (hwindows : ∀ i w, m'.messageWindows.get i = some w → w.Guarded (calls ++ more) (g.window i))
    (hevents : (∀ call ∈ more, call.accepted = true) →
      ∀ e ∈ events, QueuedBacked parse (calls ++ more) n e) :
    Sound parse k m' (calls ++ more)
      (g.queue (List.replicate (m'.queuedEvents.length - m.queuedEvents.length) n)) := by
  have hlength : m'.queuedEvents.length - m.queuedEvents.length = events.length := by
    rw [hqueued, List.length_append]
    omega
  rw [hlength]
  refine h.queue List.length_replicate hqueued hwindows fun haccepted q hq => ?_
  obtain ⟨hn, he⟩ := List.of_mem_zip hq
  rw [List.eq_of_mem_replicate hn]
  exact hevents haccepted q.2 he

/-- A frame without text may be put into the queue. -/
theorem Sound.queueRaw (h : Sound parse k m calls g) (frames : List Frame)
    (hqueued : m'.queuedEvents = m.queuedEvents ++ frames.map .raw)
    (hwindows : m'.messageWindows = m.messageWindows)
    (hframes : ∀ f ∈ frames, ∀ text ∈ frameTexts parse f, text = []) :
    Sound parse k m' calls
      (g.queue (List.replicate (m'.queuedEvents.length - g.queued.length) 0)) := by
  have hnext : Sound parse k m' (calls ++ [])
      (g.queue (List.replicate (m'.queuedEvents.length - m.queuedEvents.length) 0)) := by
    refine h.queueAt hqueued ?_ fun _ e he => ?_
    · rw [hwindows, List.append_nil]
      exact h.windows
    · obtain ⟨f, hf, rfl⟩ := List.mem_map.mp he
      exact hframes f hf
  rwa [List.append_nil, ← h.length] at hnext

theorem sound_addText (h : Sound parse k m calls g) (metadata : FrameMetadata) (choice : Value)
    (role : Option Value) (f : Text × MsgFlag) :
    Sound parse k (MsgWindow.addText metadata choice (m, role) f).1 calls
      (if (deltaText choice f.1).isSome then g.put (choiceIndex choice) calls.length else g) := by
  rw [MsgWindow.addText]
  cases htext : deltaText choice f.1 with
  | none => simpa using h
  | some text =>
      have hne : text.1 ≠ [] := (strOf_of_deltaText htext).2
      simp only [Option.isSome_some, if_true]
      exact h.put (MessageWindowOpenAi.Guarded.update _ hne f.2 _ metadata role)
        (fun j => SortedMap.get_insert _ _ _ _) rfl

/-- The texts of a choice are put into its window. -/
theorem Sound.addTexts (h : Sound parse k m calls g) (metadata : FrameMetadata) {choice : Value}
    (htext : hasText choice = true) :
    Sound parse k (m.addTexts metadata choice) calls (g.put (choiceIndex choice) calls.length) := by
  have hfirst := sound_addText h metadata choice ((choice.index (bytes "delta")).get (bytes "role"))
    (bytes "reasoning_content", .reasoningContent)
  have hboth := sound_addText hfirst metadata choice
    (MsgWindow.addText metadata choice (m, (choice.index (bytes "delta")).get (bytes "role"))
      (bytes "reasoning_content", .reasoningContent)).2 (bytes "content", .content)
  have hput : (g.put (choiceIndex choice) calls.length).put (choiceIndex choice) calls.length =
      g.put (choiceIndex choice) calls.length := by
    simp [Stamps.put]
  have hone : (deltaText choice (bytes "content")).isSome = true ∨
      (deltaText choice (bytes "reasoning_content")).isSome = true := by
    simpa [hasText] using htext
  rw [MsgWindow.addTexts, textFlags, List.foldl_cons, List.foldl_cons, List.foldl_nil]
  rcases hone with hcontent | hreasoning
  · simp only [hcontent, if_true] at hboth
    split at hboth
    · rwa [hput] at hboth
    · exact hboth
  · simp only [hreasoning, if_true] at hboth
    split at hboth
    · rwa [hput] at hboth
    · exact hboth

theorem queuedEvents_addTexts (m : MsgWindow) (metadata : FrameMetadata) (choice : Value) :
    (m.addTexts metadata choice).queuedEvents = m.queuedEvents := by
  have hadd : ∀ (acc : MsgWindow × Option Value) (f : Text × MsgFlag),
      (MsgWindow.addText metadata choice acc f).1.queuedEvents = acc.1.queuedEvents := by
    intro acc f
    rw [MsgWindow.addText]
    split <;> rfl
  rw [MsgWindow.addTexts, textFlags, List.foldl_cons, List.foldl_cons, List.foldl_nil, hadd, hadd]

/-- A part of a window, or all of it, is put into the queue behind a check. -/
theorem Sound.queueText {s : σ × List Call} (h : Sound parse k m s.2 g) (i : ℤ) (terminal : Bool) :
    Sound parse k (m.queueText (logged inspect) s i terminal).1
      (m.queueText (logged inspect) s i terminal).2.2
      (g.queue (List.replicate ((m.queueText (logged inspect) s i terminal).1.queuedEvents.length -
        m.queuedEvents.length) (g.window i))) := by
  rw [MsgWindow.queueText]
  cases hw : m.messageWindows.get i with
  | none =>
      have hsame : g.queue [] = g := by simp [Stamps.queue]
      simpa [hsame] using h
  | some w =>
      obtain ⟨more, hmore, hguarded, hunmarked⟩ :=
        (h.windows i w hw).check inspect
      rcases hcheck : w.check (logged inspect) s with ⟨v, s'⟩
      rw [hcheck] at hmore hguarded hunmarked
      dsimp only at hmore hguarded hunmarked
      cases terminal with
      | true =>
          simp only [hcheck, if_true, hmore]
          refine h.queueAt rfl (fun j u hu => ?_) fun haccepted e he => ?_
          · rw [SortedMap.get_erase] at hu
            split at hu
            · cases hu
            · exact (h.windows j u hu).mono more
          · obtain rfl := List.mem_singleton.mp he
            exact hguarded.backed (hunmarked haccepted)
      | false =>
          obtain ⟨hrest, hbefore⟩ := hguarded.takePrefix m.charWindowSize m.byteWindowSize
          simp only [hcheck, Bool.false_eq_true, if_false, hmore]
          refine h.queueAt rfl (fun j u hu => ?_) fun haccepted e he => ?_
          · rw [SortedMap.get_insert] at hu
            split at hu
            · rename_i hj
              obtain rfl := Option.some.inj hu
              exact hj ▸ hrest
            · exact (h.windows j u hu).mono more
          · obtain ⟨p, hp, rfl⟩ := List.mem_map.mp he
            exact hbefore (hunmarked haccepted) p (Option.mem_toList.mp hp)

/-- One choice of an event. -/
theorem Sound.splitChoice {s : σ × List Call} (h : Sound parse k m s.2 g)
    (metadata : FrameMetadata) (choice : Value) :
    Sound parse k (m.splitChoice (logged inspect) metadata s choice).2.1
      (m.splitChoice (logged inspect) metadata s choice).2.2.2
      (stampChoice inspect metadata m s g choice) := by
  have hsame : ∀ (g : Stamps) (l n : ℕ), g.queue (List.replicate (l - l) n) = g := by
    intro g l n
    simp [Stamps.queue]
  rw [stampChoice, MsgWindow.splitChoice]
  by_cases htext : hasText choice = true
  · have hadd := h.addTexts metadata htext
    have hqueued := queuedEvents_addTexts m metadata choice
    simp only [htext, if_true]
    by_cases hcontrol : hasControl (controlOf choice) = true
    · simp only [hcontrol, if_true]
      by_cases hdata : hasProtocolData (controlOf choice) = true
      · simp only [hdata, if_true, ← hqueued]
        exact hadd.queueText inspect _ _
      · simp only [hdata, Bool.false_eq_true, if_false, hqueued, hsame]
        exact hadd
    · simp only [hcontrol, Bool.false_eq_true, if_false, hqueued, hsame]
      exact hadd
  · simp only [htext, Bool.false_eq_true, if_false, MsgWindow.queueFor]
    by_cases hdata : hasProtocolData choice = true
    · simp only [hdata, if_true]
      exact h.queueText inspect _ _
    · simp only [hdata, Bool.false_eq_true, if_false, hsame]
      exact h

theorem Sound.splitChoices {s : σ × List Call} (h : Sound parse k m s.2 g)
    (metadata : FrameMetadata) (choices : List Value) :
    Sound parse k (m.splitChoices (logged inspect) metadata s choices).2.1
      (m.splitChoices (logged inspect) metadata s choices).2.2.2
      (stampChoices inspect metadata m s g choices) := by
  induction choices generalizing m s g with
  | nil => exact h
  | cons choice choices ih => exact ih (h.splitChoice inspect metadata choice)

/-- What a choice leaves for the frame that follows does not depend on the windows. -/
theorem splitChoices_fst {τ : Type*} (inspect : τ → Text → Text × Bool × τ)
    (metadata : FrameMetadata) (m : MsgWindow) (s : τ) (choices : List Value) :
    (m.splitChoices inspect metadata s choices).1 = choices.filterMap controlPart := by
  induction choices generalizing m s with
  | nil => rfl
  | cons choice choices ih =>
      have hcontrol : (m.splitChoice inspect metadata s choice).1 = controlPart choice := by
        rw [MsgWindow.splitChoice, controlPart]
        split
        · dsimp only
          split <;> rfl
        · rfl
      simp only [MsgWindow.splitChoices, hcontrol, ih, List.filterMap_cons]
      cases controlPart choice <;> rfl

/-! ### All windows -/

/-- The check of all windows. -/
theorem visitEntries_check (inspect : σ → Text → Text × Bool × σ) {s : σ × List Call}
    {es : List (ℤ × MessageWindowOpenAi)} {n : ℤ → ℕ} (h : ∀ e ∈ es, e.2.Guarded s.2 (n e.1)) :
    ∃ more,
      (SortedMap.visitEntries (MessageWindowOpenAi.check (logged inspect)) s es).2.2 = s.2 ++ more ∧
      ∀ e ∈ (SortedMap.visitEntries (MessageWindowOpenAi.check (logged inspect)) s es).1,
        e.2.Guarded (s.2 ++ more) (n e.1) ∧
          ((∀ call ∈ more, call.accepted = true) → e.2.needsCheck = false) := by
  induction es generalizing s with
  | nil => exact ⟨[], by simp [SortedMap.visitEntries], by simp [SortedMap.visitEntries]⟩
  | cons e es ih =>
      obtain ⟨more, hmore, hguarded, hunmarked⟩ := (h e (by simp)).check inspect
      rcases hcheck : e.2.check (logged inspect) s with ⟨v, s'⟩
      rw [hcheck] at hmore hguarded hunmarked
      dsimp only at hmore hguarded hunmarked
      obtain ⟨rest, hrest, hall⟩ := ih (s := s') fun e' he' => by
        rw [hmore]
        exact (h e' (List.mem_cons_of_mem _ he')).mono more
      rw [hmore, List.append_assoc] at hrest hall
      refine ⟨more ++ rest, ?_, ?_⟩
      · simp only [SortedMap.visitEntries, hcheck]
        exact hrest
      · simp only [SortedMap.visitEntries, hcheck, List.mem_cons, forall_eq_or_imp]
        refine ⟨⟨?_, fun haccepted => hunmarked fun call hcall => haccepted call ?_⟩,
          fun e' he' => ⟨(hall e' he').1, fun haccepted => (hall e' he').2 fun call hcall =>
            haccepted call (List.mem_append_right _ hcall)⟩⟩
        · rw [← List.append_assoc]
          exact hguarded.mono rest
        · exact List.mem_append_left _ hcall

theorem Sound.entries (h : Sound parse k m calls g) :
    ∀ e ∈ m.messageWindows.entries, e.2.Guarded calls (g.window e.1) :=
  fun e he => h.windows e.1 e.2 (SortedMap.get_of_mem he)

theorem mem_entries_of_get {w : SortedMap ℤ MessageWindowOpenAi} {i : ℤ} {v : MessageWindowOpenAi}
    (h : w.get i = some v) : (i, v) ∈ w.entries := by
  obtain ⟨e, he, rfl⟩ := List.mem_map.mp ((w.mem_keys_iff i).mpr ⟨v, h⟩)
  obtain rfl := Option.some.inj ((SortedMap.get_of_mem he).symm.trans h)
  exact he

/-- All windows are put into the queue behind a check. -/
theorem Sound.queueAllText {s : σ × List Call} (h : Sound parse k m s.2 g) :
    Sound parse k (m.queueAllText (logged inspect) s).1 (m.queueAllText (logged inspect) s).2.2
      (g.queue (g.all m)) := by
  obtain ⟨more, hmore, hall⟩ := visitEntries_check inspect h.entries
  rw [MsgWindow.queueAllText]
  simp only [SortedMap.visit]
  rw [hmore]
  have hstamps : g.all m = (SortedMap.visitEntries (MessageWindowOpenAi.check (logged inspect)) s
      m.messageWindows.entries).1.map fun e => g.window e.1 := by
    have hkeys := SortedMap.keys_visitEntries (MessageWindowOpenAi.check (logged inspect)) s
      m.messageWindows.entries
    have hmap := congrArg (List.map g.window) hkeys
    rw [List.map_map, List.map_map] at hmap
    exact hmap.symm
  refine h.queue ?_ rfl (fun i w hw => ?_) fun haccepted q hq => ?_
  · rw [hstamps, List.length_map, List.length_map]
  · rw [SortedMap.get_empty] at hw
    cases hw
  · rw [hstamps, List.zip_map', List.mem_map] at hq
    obtain ⟨e, he, rfl⟩ := hq
    exact (hall e he).1.backed ((hall e he).2 haccepted)

/-- The check behind the events: with nothing rejected, no window is marked. -/
theorem Sound.checkAll {s : σ × List Call} (h : Sound parse k m s.2 g) :
    Sound parse k (m.checkAll (logged inspect) s).1 (m.checkAll (logged inspect) s).2.2 g ∧
      (AllAccepted k (m.checkAll (logged inspect) s).2.2 →
        ∀ i w, (m.checkAll (logged inspect) s).1.messageWindows.get i = some w →
          w.needsCheck = false) := by
  obtain ⟨more, hmore, hall⟩ := visitEntries_check inspect h.entries
  rw [MsgWindow.checkAll]
  simp only [SortedMap.visit]
  rw [hmore]
  refine ⟨?_, fun haccepted i w hw => ?_⟩
  · exact h.recall rfl fun i w hw => (hall (i, w) (mem_entries_of_get hw)).1
  · exact (hall (i, w) (mem_entries_of_get hw)).2 (haccepted.of_append h.start).2

/-! ### Events -/

/-- The choices of an event without text. -/
theorem valueTexts_of_choicesOf {res : Value}
    (h : ∀ choice ∈ (choicesOf res).getD [], hasText choice = false) :
    ∀ text ∈ valueTexts res, text = [] := by
  refine valueTexts_eq_nil fun choice hchoice => choiceText_of_not_hasText (h choice ?_)
  rw [choicesOf]
  cases harray : (res.index (bytes "choices")).asArray with
  | none => simp [harray] at hchoice
  | some choices =>
      rw [harray, Option.getD_some] at hchoice
      have hne : choices ≠ [] := List.ne_nil_of_mem hchoice
      simpa [Option.filter, hne] using hchoice

/-- What is left of an event with text has none. -/
theorem valueTexts_set {res : Value} {choices : List Value} (h : choicesOf res = some choices) :
    ∀ text ∈ valueTexts (res.set (bytes "choices") (.array (choices.filterMap controlPart))),
      text = [] := by
  have harray := (Option.filter_eq_some_iff.mp h).1
  cases res with
  | object fields =>
      refine valueTexts_eq_nil fun control hcontrol => ?_
      rw [Value.set, Value.index, Value.get, Value.lookup_insertField, if_pos rfl] at hcontrol
      obtain ⟨choice, -, hpart⟩ := List.mem_filterMap.mp hcontrol
      exact choiceText_of_controlPart hpart
  | _ => simp [Value.index, Value.get, Value.asArray] at harray

theorem Sound.updateEvent {s : σ × List Call} (h : Sound parse k m s.2 g) (event : Text) :
    Sound parse k (m.updateEvent parse (logged inspect) s event).2.1
      (m.updateEvent parse (logged inspect) s event).2.2.2
      (stampEvent parse inspect m s g event) := by
  rw [stampEvent]
  by_cases hempty : event = []
  · simp only [hempty, if_true, MsgWindow.updateEvent]
    exact h
  · simp only [hempty, if_false]
    rw [MsgWindow.updateEvent, if_neg hempty]
    cases hdone : isDone event with
    | true =>
        have hvalue : eventValue parse event = none := by simp [eventValue, hdone]
        simp only [hvalue, if_true]
        rcases hqueue : m.queueAllText (logged inspect) s with ⟨m₁, s₁⟩
        have hsound : Sound parse k m₁ s₁.2 (g.queue (g.all m)) := by
          simpa only [hqueue] using h.queueAllText inspect
        cases hsent : m₁.doneSent with
        | true => exact hsound.queueRaw [] (by simp) rfl (by simp)
        | false => exact hsound.queueRaw [.done] rfl rfl (by simp [frameTexts])
    | false =>
        have hvalue : eventValue parse event = (eventData event).bind parse := by
          simp [eventValue, hdone]
        simp only [Bool.false_eq_true, if_false, ← hvalue]
        cases hres : eventValue parse event with
        | none =>
            refine Sound.queueRaw (h.queueAllText inspect) [.event event] rfl rfl ?_
            simp [frameTexts, hres]
        | some res =>
            simp only
            cases hchoices : choicesOf res with
            | none =>
                have hsame : Sound parse k { m with
                    errorReceived := m.errorReceived || !(res.index (bytes "error")).isNull } s.2 g :=
                  h.congr rfl rfl
                refine Sound.queueRaw (hsame.queueAllText inspect) [.event event] rfl rfl ?_
                have hnone : ∀ text ∈ valueTexts res, text = [] :=
                  valueTexts_of_choicesOf (by simp [hchoices])
                simpa [frameTexts, hres] using hnone
            | some choices =>
                obtain ⟨reasons, hreasons⟩ := MsgWindow.recordFinish_eq { m with
                  errorReceived := m.errorReceived || !(res.index (bytes "error")).isNull } choices
                have hsame : Sound parse k { m with
                    errorReceived := m.errorReceived || !(res.index (bytes "error")).isNull
                    finishReasons := reasons } s.2 g := h.congr rfl rfl
                have hsplit := hsame.splitChoices inspect (FrameMetadata.fromValue res) choices
                simp only [hreasons]
                split
                · rename_i hall
                  rw [MsgWindow.queueForAll_eq (FrameMetadata.fromValue res) _ _ hall]
                  refine Sound.queueRaw hsplit [.event event] rfl rfl ?_
                  have hnone : ∀ text ∈ valueTexts res, text = [] :=
                    valueTexts_of_choicesOf (by simpa [hchoices] using hall)
                  simpa [frameTexts, hres] using hnone
                · simp only [splitChoices_fst]
                  split
                  · exact hsplit.queueRaw [.control _] rfl rfl
                      (by simpa [frameTexts] using valueTexts_set hchoices)
                  · exact hsplit.queueRaw [] (by simp) rfl (by simp)

theorem Sound.updateEvents {s : σ × List Call} (h : Sound parse k m s.2 g) (events : List Text) :
    Sound parse k (m.updateEvents parse (logged inspect) s events).1
      (m.updateEvents parse (logged inspect) s events).2.2
      (stampEvents parse inspect m s g events) := by
  induction events generalizing m s g with
  | nil => exact h
  | cons event events ih => exact ih (h.updateEvent inspect event)

end Sound

/-! ### The record changes nothing -/

section Plain

variable (parse : Text → Option Value) (inspect : σ → Text → Text × Bool × σ) (s : σ × List Call)
  (m : MsgWindow)

/-- A result without the record of the calls. -/
def plain {α : Type*} (r : α × (σ × List Call)) : α × σ := (r.1, r.2.1)

end Plain

/-! ### Callbacks keep the windows guarded -/

/-- What holds between two callbacks: the queue is empty, and with nothing rejected so far no
window is marked. -/
structure Rested (p : Progress σ) : Prop where
  queuedEvents : p.window.queuedEvents = []
  queued : p.stamps.queued = []
  windows : ∀ i w, p.window.messageWindows.get i = some w →
    w.Guarded p.state.2 (p.stamps.window i)
  unmarked : AllAccepted 0 p.state.2 → ∀ i w, p.window.messageWindows.get i = some w →
    w.needsCheck = false

section Callbacks

variable {parse : Text → Option Value} {inspect : σ → Text → Text × Bool × σ} {c b : ℕ}
  {p : Progress σ}

theorem Rested.sound (h : Rested p) : Sound parse p.state.2.length p.window p.state.2 p.stamps where
  start := le_rfl
  windows := h.windows
  length := by simp [h.queuedEvents, h.queued]
  queued := by simp [h.queued]

/-- After `push`. With a body all windows have been checked. -/
theorem Rested.push (h : Rested p) (body : Option Text) :
    Sound parse p.state.2.length (p.push parse inspect c b body).window
        (p.push parse inspect c b body).state.2 (p.push parse inspect c b body).stamps ∧
      (AllAccepted p.state.2.length (p.push parse inspect c b body).state.2 →
        body.isSome = true ∨ AllAccepted 0 (p.push parse inspect c b body).state.2 →
        ∀ i w, (p.push parse inspect c b body).window.messageWindows.get i = some w →
          w.needsCheck = false) := by
  cases body with
  | none => exact ⟨h.sound, fun _ hbefore => h.unmarked (hbefore.resolve_left (by simp))⟩
  | some body =>
      have hstart : Sound parse p.state.2.length { p.window with
          charWindowSize := c
          byteWindowSize := b
          streamParser := (p.window.streamParser.update body).drain.2 } p.state.2 p.stamps :=
        h.sound.congr rfl rfl
      obtain ⟨hsound, hunmarked⟩ :=
        (hstart.updateEvents inspect (p.window.streamParser.update body).drain.1).checkAll inspect
      exact ⟨hsound, fun haccepted _ => hunmarked haccepted⟩

/-- After `complete` and `queue_all_text`. -/
theorem Sound.complete {k : ℕ} (h : Sound parse k p.window p.state.2 p.stamps)
    (inspect : σ → Text → Text × Bool × σ) :
    Sound parse k (p.complete parse inspect).window (p.complete parse inspect).state.2
      (p.complete parse inspect).stamps := by
  have hcompleted : Sound parse k (p.window.complete parse (logged inspect) p.state).1
      (p.window.complete parse (logged inspect) p.state).2.2
      (match p.window.streamParser.flush with
        | (none, _) => p.stamps
        | (some event, streamParser) =>
            stampEvent parse inspect { p.window with streamParser } p.state p.stamps event) := by
    rw [MsgWindow.complete]
    rcases p.window.streamParser.flush with ⟨_ | event, streamParser⟩
    · exact h.congr rfl rfl
    · have hsame : Sound parse k { p.window with streamParser } p.state.2 p.stamps :=
        h.congr rfl rfl
      exact ((hsame.updateEvent inspect event).checkAll inspect).1
  exact hcompleted.queueAllText inspect

theorem AllAccepted.of_zero {k : ℕ} {calls : List Call} (h : AllAccepted 0 calls) :
    AllAccepted k calls := fun call hcall => h call (List.mem_of_mem_drop hcall)

/-- The end of a response: what is in the queue, and perhaps the mark for the end. -/
theorem finishFrames_spec {τ : Type*} (parse : Text → Option Value)
    (inspect : τ → Text → Text × Bool × τ) (m : MsgWindow) (s : τ) {queued : MsgWindow × τ}
    (h : (m.complete parse inspect s).1.queueAllText inspect (m.complete parse inspect s).2 =
      queued) :
    (∃ tail, (m.finishFrames parse inspect s).1 =
        queued.1.queuedEvents.flatMap MsgWindow.framesOf ++ tail ∧ ∀ f ∈ tail, f = .done) ∧
      (m.finishFrames parse inspect s).2.1.messageWindows = .empty ∧
      (m.finishFrames parse inspect s).2.1.queuedEvents = [] ∧
      (m.finishFrames parse inspect s).2.2 = queued.2 := by
  have hempty : queued.1.messageWindows = .empty := by
    rw [← h]
    rfl
  simp only [MsgWindow.finishFrames, h, MsgWindow.drainQueued]
  split
  · exact ⟨⟨[.done], rfl, by simp⟩, hempty, rfl, rfl⟩
  · exact ⟨⟨[], by simp, by simp⟩, hempty, rfl, rfl⟩

theorem Rested.next (h : Rested p) (parse : Text → Option Value)
    (inspect : σ → Text → Text × Bool × σ) (c b : ℕ) (cb : Callback) :
    Rested (p.next parse inspect c b cb) := by
  obtain ⟨hsound, hunmarked⟩ := @Rested.push σ parse inspect c b p h cb.body
  cases hend : cb.endOfStream with
  | true =>
      obtain ⟨-, hwindows, hqueued, -⟩ := finishFrames_spec parse (logged inspect)
        (p.push parse inspect c b cb.body).window (p.push parse inspect c b cb.body).state rfl
      have hempty : (p.next parse inspect c b cb).window.messageWindows = .empty := by
        simp only [Progress.next, bodyCallback, hend, if_true]
        exact hwindows
      refine ⟨?_, rfl, ?_, ?_⟩
      · simp only [Progress.next, bodyCallback, hend, if_true]
        exact hqueued
      · simp [hempty]
      · simp [hempty]
  | false =>
      have hget : ∀ i, (p.next parse inspect c b cb).window.messageWindows.get i =
          ((p.push parse inspect c b cb.body).window.messageWindows.get i).map
            fun w => (w.pop c b).2 := by
        intro i
        simp only [Progress.next, bodyCallback, hend, Bool.false_eq_true, if_false]
        exact MsgWindow.get_popFrames _ c b i
      have hstate : (p.next parse inspect c b cb).state = (p.push parse inspect c b cb.body).state := by
        simp only [Progress.next, bodyCallback, hend, Bool.false_eq_true, if_false]
        rfl
      refine ⟨?_, rfl, fun i w hw => ?_, fun haccepted i w hw => ?_⟩
      · simp only [Progress.next, bodyCallback, hend, Bool.false_eq_true, if_false]
        rfl
      · rw [hget, Option.map_eq_some_iff] at hw
        obtain ⟨v, hv, rfl⟩ := hw
        have hstamps : (p.next parse inspect c b cb).stamps.window =
            (p.push parse inspect c b cb.body).stamps.window := by
          simp [Progress.next, hend]
        rw [hstate, hstamps]
        exact ((hsound.windows i v hv).pop c b).1
      · rw [hget, Option.map_eq_some_iff] at hw
        obtain ⟨v, hv, rfl⟩ := hw
        rw [hstate] at haccepted
        rw [MessageWindowOpenAi.pop_eq]
        exact hunmarked haccepted.of_zero (.inr haccepted) i v hv

/-- The text is what is read of a part of a buffer that was accepted after the stamp; if the
buffer is UTF-8, it is that part. -/
def Accepted (calls : List Call) (n : ℕ) (text : Text) : Prop :=
  ∃ call ∈ calls.drop n, call.accepted = true ∧ ∃ part, part <:+: call.result ∧
    text = Utf8.lossy part ∧ (Utf8.IsUtf8 call.result → text = part)

theorem Backed.accepted {calls : List Call} {n : ℕ} {part : Text} (h : Backed calls n part)
    (hne : Utf8.lossy part ≠ []) : Accepted calls n (Utf8.lossy part) := by
  rcases h with rfl | ⟨call, hcall, haccepted, hpart, hutf8⟩
  · exact absurd (Utf8.lossy_of_isUtf8 Utf8.isUtf8_nil) hne
  · exact ⟨call, hcall, haccepted, part, hpart, rfl,
      fun hresult => Utf8.lossy_of_isUtf8 (hutf8 hresult)⟩

/-- The texts of frames that a window writes. -/
theorem accepted_genValues {calls : List Call} {n : ℕ} {w : MessageWindowOpenAi}
    {msgs : List (MsgFlag × Text)} (h : ∀ msg ∈ msgs, Backed calls n msg.2) {v : Value}
    (hv : v ∈ (w.genValues msgs).1) {text : Text} (htext : text ∈ valueTexts v) (hne : text ≠ []) :
    Accepted calls n text := by
  obtain ⟨msg, hmsg, rfl⟩ := MessageWindowOpenAi.mem_valueTexts_genValues hv htext hne
  exact (h msg hmsg).accepted hne

/-- The texts of the queue. -/
theorem QueuedBacked.accepted {calls : List Call} {n : ℕ} {e : QueuedEvent}
    (h : QueuedBacked parse calls n e) {f : Frame} (hf : f ∈ MsgWindow.framesOf e) {text : Text}
    (htext : text ∈ frameTexts parse f) (hne : text ≠ []) : Accepted calls n text := by
  cases e with
  | raw f' =>
      obtain rfl := List.mem_singleton.mp hf
      exact absurd (h text htext) hne
  | text w =>
      obtain ⟨v, hv, rfl⟩ := List.mem_map.mp hf
      rw [MessageWindowOpenAi.finish_eq] at hv
      refine accepted_genValues (fun msg hmsg => h msg.2 ?_) hv htext hne
      rcases MessageWindowOpenAi.mem_cutMessages hmsg with hret | heq
      · exact List.mem_append_left _ (List.mem_map_of_mem hret)
      · exact List.mem_append_right _ (List.mem_singleton.mpr heq)

end Callbacks

end Higress.Masking
