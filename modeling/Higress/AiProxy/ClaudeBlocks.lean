import Mathlib
import Higress.AiProxy.ClaudeStream

/-!
The block discipline of the Claude events that a stream of OpenAI chunks is converted to.
Claude's protocol opens one content block at a time. The converter keeps to it as long as
the stream does not go back to reasoning or content once it has left them and has one
tool call only.
-/

namespace Higress.AiProxy

open Lib

/-! ### The protocol -/

namespace StreamEvent

def isMessageStart : StreamEvent → Bool
  | messageStart _ => true
  | _ => false

def startIndex : StreamEvent → Option ℤ
  | contentBlockStart index _ => some index
  | _ => none

def stopIndex : StreamEvent → Option ℤ
  | contentBlockStop index => some index
  | _ => none

end StreamEvent

/-- The blocks that are open after an event. -/
def openAfter (opened : List ℤ) : StreamEvent → List ℤ
  | .contentBlockStart index _ => opened ++ [index]
  | .contentBlockStop index => opened.erase index
  | _ => opened

/-- The blocks that have been started and not stopped, in the order of their starts. -/
def openBlocks (events : List StreamEvent) : List ℤ := events.foldl openAfter []

/-- The stream of events of one message. -/
structure WellFormed (events : List StreamEvent) : Prop where
  message_start : ∃ message rest, events = .messageStart message :: rest ∧
    ∀ e ∈ rest, e.isMessageStart = false
  increasing : (events.filterMap StreamEvent.startIndex).Pairwise (· < ·)
  one_open : ∀ before, before <+: events → (openBlocks before).length ≤ 1
  addressed : ∀ before index delta, before ++ [.contentBlockDelta index delta] <+: events →
    openBlocks before = [index]
  stopped_open : ∀ before index, before ++ [.contentBlockStop index] <+: events →
    index ∈ openBlocks before
  stopped_once : ∀ index ∈ events.filterMap StreamEvent.startIndex,
    (events.filterMap StreamEvent.stopIndex).count index = 1
  message_stop : ∀ before after, events = before ++ .messageStop :: after → after = []

/-- Where the protocol is: the open block, a bound of the next index, and whether the
message has been stopped. -/
structure Progress where
  opened : Option ℤ := none
  next : ℤ := 0
  ended : Bool := false

namespace Progress

/-- The events that the protocol allows after the first. -/
def step (m : Progress) : StreamEvent → Option Progress
  | .messageStart _ => none
  | .contentBlockStart index _ =>
      if m.ended = false ∧ m.opened = none ∧ m.next ≤ index then
        some { m with opened := some index, next := index + 1 }
      else none
  | .contentBlockDelta index _ => if m.ended = false ∧ m.opened = some index then some m else none
  | .contentBlockStop index =>
      if m.ended = false ∧ m.opened = some index then some { m with opened := none } else none
  | .messageDelta _ _ => if m.ended = false then some m else none
  | .messageStop =>
      if m.ended = false ∧ m.opened = none then some { m with ended := true } else none

/-- The progress of events from the start of the message on. -/
def of : List StreamEvent → Option Progress
  | .messageStart _ :: rest => rest.foldlM step {}
  | _ => none

theorem of_append {events : List StreamEvent} (hne : events ≠ []) (more : List StreamEvent) :
    of (events ++ more) = (of events).bind fun m => more.foldlM step m := by
  cases events with
  | nil => exact absurd rfl hne
  | cons first rest =>
      cases first with
      | messageStart message => exact List.foldlM_append
      | _ => rfl

theorem of_more {events : List StreamEvent} {m : Progress} (h : of events = some m)
    (more : List StreamEvent) : of (events ++ more) = more.foldlM step m := by
  have hne : events ≠ [] := by
    rintro rfl
    cases h
  rw [of_append hne, h, Option.bind_some]

theorem of_snoc {events : List StreamEvent} {m : Progress} (h : of events = some m)
    (e : StreamEvent) : of (events ++ [e]) = m.step e := by
  rw [of_more h]
  simp

/-- Every part from the first event on is allowed. -/
theorem of_before {events before : List StreamEvent} {m : Progress} (h : of events = some m)
    (hbefore : before <+: events) (hne : before ≠ []) : ∃ m', of before = some m' := by
  obtain ⟨more, rfl⟩ := hbefore
  rw [of_append hne] at h
  obtain ⟨m', hm', -⟩ := Option.bind_eq_some_iff.mp h
  exact ⟨m', hm'⟩

/-- The last step of a part. -/
theorem of_before_snoc {events before : List StreamEvent} {m : Progress} {e : StreamEvent}
    (h : of events = some m) (hbefore : before ++ [e] <+: events) (hne : before ≠ []) :
    ∃ m' m'', of before = some m' ∧ m'.step e = some m'' := by
  obtain ⟨m', hm'⟩ := of_before h ((List.prefix_append _ _).trans hbefore) hne
  obtain ⟨m'', hm''⟩ := of_before h hbefore (by simp)
  exact ⟨m', m'', hm', (of_snoc hm' e).symm.trans hm''⟩

theorem step_stop {m m' : Progress} {index : ℤ} (h : m.step (.contentBlockStop index) = some m') :
    m.opened = some index := by
  rw [step] at h
  split at h
  · rename_i hallowed
    exact hallowed.2
  · cases h

theorem step_delta {m m' : Progress} {index : ℤ} {delta : ContentDelta}
    (h : m.step (.contentBlockDelta index delta) = some m') : m.opened = some index := by
  rw [step] at h
  split at h
  · rename_i hallowed
    exact hallowed.2
  · cases h

/-- After the stop of the message nothing is allowed. -/
theorem step_ended {m : Progress} (h : m.ended = true) (e : StreamEvent) : m.step e = none := by
  cases e <;> simp [step, h]

end Progress

theorem openBlocks_snoc (events : List StreamEvent) (e : StreamEvent) :
    openBlocks (events ++ [e]) = openAfter (openBlocks events) e := by
  rw [openBlocks, List.foldl_append]
  rfl

/-- What the progress tells of the events so far. -/
structure Allowed (events : List StreamEvent) (m : Progress) : Prop where
  opened : openBlocks events = m.opened.toList
  increasing : (events.filterMap StreamEvent.startIndex).Pairwise (· < ·)
  bound : ∀ index ∈ events.filterMap StreamEvent.startIndex, index < m.next
  balance : (events.filterMap StreamEvent.startIndex).Perm
    (events.filterMap StreamEvent.stopIndex ++ m.opened.toList)

namespace Allowed

variable {events : List StreamEvent} {m m' : Progress}

/-- One more event. -/
theorem snoc (h : Allowed events m) {e : StreamEvent} (hstep : m.step e = some m') :
    Allowed (events ++ [e]) m' := by
  obtain ⟨hopened, hincreasing, hbound, hbalance⟩ := h
  cases e with
  | contentBlockStart index block =>
      rw [Progress.step] at hstep
      split at hstep
      · rename_i hallowed
        obtain ⟨-, hnone, hnext⟩ := hallowed
        obtain rfl := Option.some.inj hstep
        rw [hnone] at hopened hbalance
        constructor
        · rw [openBlocks_snoc, hopened]
          rfl
        · rw [List.filterMap_append, List.pairwise_append]
          refine ⟨hincreasing, List.pairwise_singleton _ _, ?_⟩
          intro i hi j hj
          obtain rfl : j = index := by simpa [List.filterMap_cons, StreamEvent.startIndex] using hj
          exact (hbound i hi).trans_le hnext
        · intro i hi
          rw [List.filterMap_append, List.mem_append] at hi
          rcases hi with hi | hi
          · exact ((hbound i hi).trans_le hnext).trans (lt_add_one index)
          · obtain rfl : i = index := by simpa [List.filterMap_cons, StreamEvent.startIndex] using hi
            exact lt_add_one i
        · rw [Option.toList_none, List.append_nil] at hbalance
          rw [List.filterMap_append, List.filterMap_append]
          simpa [List.filterMap_cons, StreamEvent.startIndex, StreamEvent.stopIndex] using hbalance.append_right [index]
      · cases hstep
  | contentBlockStop index =>
      have hsome := Progress.step_stop hstep
      rw [Progress.step] at hstep
      split at hstep
      · obtain rfl := Option.some.inj hstep
        rw [hsome] at hopened hbalance
        refine ⟨?_, ?_, ?_, ?_⟩
        · rw [openBlocks_snoc, hopened]
          simp [openAfter]
        · simpa [List.filterMap_cons, StreamEvent.startIndex] using hincreasing
        · simpa [List.filterMap_cons, StreamEvent.startIndex] using hbound
        · simpa [List.filterMap_cons, StreamEvent.startIndex, StreamEvent.stopIndex] using hbalance
      · cases hstep
  | messageStart message => cases hstep
  | _ =>
      -- neither a start nor a stop
      rw [Progress.step] at hstep
      split at hstep
      · obtain rfl := Option.some.inj hstep
        refine ⟨?_, ?_, ?_, ?_⟩
        · rw [openBlocks_snoc, hopened]
          rfl
        · simpa [List.filterMap_cons, StreamEvent.startIndex] using hincreasing
        · simpa [List.filterMap_cons, StreamEvent.startIndex] using hbound
        · simpa [List.filterMap_cons, StreamEvent.startIndex, StreamEvent.stopIndex] using hbalance
      · cases hstep

theorem of_progress (h : Progress.of events = some m) : Allowed events m := by
  induction events using List.reverseRecOn generalizing m with
  | nil => cases h
  | append_singleton events e ih =>
      by_cases hne : events = []
      · subst hne
        cases e with
        | messageStart message =>
            obtain rfl : {} = m := Option.some.inj h
            exact ⟨rfl, .nil, by simp [StreamEvent.startIndex],
              by simp [List.filterMap_cons, StreamEvent.startIndex, StreamEvent.stopIndex]⟩
        | _ => cases h
      · obtain ⟨m', hm'⟩ := Progress.of_before h (List.prefix_append _ _) hne
        rw [Progress.of_snoc hm'] at h
        exact (ih hm').snoc h

end Allowed

/-- A complete stream that the protocol allows is well formed. -/
theorem wellFormed_of_progress {events : List StreamEvent} {m : Progress}
    (h : Progress.of events = some m) (hclosed : m.opened = none) : WellFormed events := by
  have hallowed := Allowed.of_progress h
  have hfirst : ∃ message rest, events = .messageStart message :: rest := by
    cases events with
    | nil => cases h
    | cons first rest =>
        cases first with
        | messageStart message => exact ⟨message, rest, rfl⟩
        | _ => cases h
  obtain ⟨message, rest, rfl⟩ := hfirst
  have hinner : ∀ before e, before ++ [e] <+: .messageStart message :: rest → before ≠ [] →
      ∃ m' m'', Progress.of before = some m' ∧ m'.step e = some m'' := fun before e hbefore hne =>
    Progress.of_before_snoc h hbefore hne
  have hbefore_ne : ∀ before (e : StreamEvent), before ++ [e] <+: .messageStart message :: rest →
      e.isMessageStart = false → before ≠ [] := by
    rintro before e hbefore hnot rfl
    obtain ⟨t, ht⟩ := hbefore
    obtain ⟨rfl, -⟩ : e = .messageStart message ∧ t = rest := by simpa using ht
    cases hnot
  constructor
  · refine ⟨message, rest, rfl, ?_⟩
    intro e he
    by_contra hstart
    obtain ⟨left, right, rfl⟩ := List.append_of_mem he
    obtain ⟨m', m'', -, hstep⟩ := hinner (.messageStart message :: left) e
      ⟨right, by simp⟩ (by simp)
    cases e with
    | messageStart _ => cases hstep
    | _ => exact hstart rfl
  · exact hallowed.increasing
  · intro before hbefore
    by_cases hne : before = []
    · simp [hne, openBlocks]
    · obtain ⟨m', hm'⟩ := Progress.of_before h hbefore hne
      rw [(Allowed.of_progress hm').opened]
      exact Option.length_toList_le
  · intro before index delta hbefore
    obtain ⟨m', m'', hm', hstep⟩ := hinner before _ hbefore (hbefore_ne before _ hbefore rfl)
    rw [(Allowed.of_progress hm').opened, Progress.step_delta hstep]
    rfl
  · intro before index hbefore
    obtain ⟨m', m'', hm', hstep⟩ := hinner before _ hbefore (hbefore_ne before _ hbefore rfl)
    rw [(Allowed.of_progress hm').opened, Progress.step_stop hstep]
    exact List.mem_singleton_self index
  · intro index hindex
    have hbalance := hallowed.balance
    rw [hclosed, Option.toList_none, List.append_nil] at hbalance
    rw [← hbalance.count_eq]
    exact List.count_eq_one_of_mem (hallowed.increasing.imp fun hlt => hlt.ne) hindex
  · intro before after heq
    cases after with
    | nil => rfl
    | cons e after =>
        have hstop := hbefore_ne before .messageStop ⟨e :: after, by rw [heq]; simp⟩ rfl
        obtain ⟨m', m'', hm', hstep⟩ := hinner before .messageStop ⟨e :: after, by rw [heq]; simp⟩ hstop
        obtain ⟨m₁, m₂, hm₁, hstep'⟩ := hinner (before ++ [.messageStop]) e
          ⟨after, by rw [heq]; simp⟩ (by simp)
        rw [Progress.of_snoc hm', hstep] at hm₁
        obtain rfl := Option.some.inj hm₁
        have hended : m''.ended = true := by
          rw [Progress.step] at hstep
          split at hstep
          · obtain rfl := Option.some.inj hstep
            rfl
          · cases hstep
        rw [Progress.step_ended hended] at hstep'
        cases hstep'

/-! ### The pieces of a stream -/

/-- What a delta brings that needs a block of its own. -/
inductive Piece
  | reasoning
  | content
  | tool (index : ℤ)
  deriving DecidableEq

/-- The second piece may come behind the first. -/
def Piece.InOrder : Piece → Piece → Prop
  | .reasoning, _ => True
  | .content, q => q ≠ .reasoning
  | .tool index, q => q = .tool index

instance : DecidableRel Piece.InOrder
  | .reasoning, _ => isTrue trivial
  | .content, q => inferInstanceAs (Decidable (q ≠ .reasoning))
  | .tool index, q => inferInstanceAs (Decidable (q = .tool index))

/-- The block that the converter is in: none, thinking or text, or the block of a tool
call, where other tool calls may wait for their start. -/
inductive Phase
  | block (k : Option BlockKind)
  | tool (index : ℤ) (waiting : Bool)

namespace Phase

/-- The phase after a piece, if its block does not overlap another one. -/
def next : Phase → Piece → Option Phase
  | block k, .reasoning => if k = some .text then none else some (block (some .thinking))
  | block _, .content => some (block (some .text))
  | block _, .tool index => some (tool index false)
  | tool index waiting, .tool other => some (tool index (waiting || other != index))
  | tool _ _, _ => none

def waits : Phase → Bool
  | block _ => false
  | tool _ waiting => waiting

/-- The phase after pieces. -/
def after (pieces : List Piece) (phase : Option Phase) : Option Phase :=
  pieces.foldl (fun phase p => phase.bind (·.next p)) phase

/-- The piece may come in the phase without a block that overlaps or waits. -/
def Allows : Phase → Piece → Prop
  | block k, p => k = some .text → p ≠ .reasoning
  | tool index _, p => p = .tool index

theorem after_none (pieces : List Piece) : after pieces none = none := by
  induction pieces with
  | nil => rfl
  | cons p pieces ih => exact ih

/-- What waits goes on to wait. -/
theorem waits_after {pieces : List Piece} {phase phase' : Phase} (hwaits : phase.waits = true)
    (h : after pieces (some phase) = some phase') : phase'.waits = true := by
  induction pieces generalizing phase with
  | nil =>
      obtain rfl := Option.some.inj h
      exact hwaits
  | cons p pieces ih =>
      cases phase with
      | block k => cases hwaits
      | tool index waiting =>
          obtain rfl : waiting = true := hwaits
          cases p with
          | tool other =>
              have h' : after pieces (some (tool index (true || other != index))) = some phase' := h
              rw [Bool.true_or] at h'
              exact ih rfl h'
          | reasoning =>
              have h' : after pieces none = some phase' := h
              rw [after_none] at h'
              cases h'
          | content =>
              have h' : after pieces none = some phase' := h
              rw [after_none] at h'
              cases h'

/-- The pieces that neither overlap nor wait are those in order. -/
theorem after_iff (pieces : List Piece) (phase : Phase) (hwaits : phase.waits = false) :
    (∃ phase', after pieces (some phase) = some phase' ∧ phase'.waits = false) ↔
      (∀ p ∈ pieces, phase.Allows p) ∧ pieces.Pairwise Piece.InOrder := by
  induction pieces generalizing phase with
  | nil => simpa [after] using hwaits
  | cons p pieces ih =>
      have hcons : after (p :: pieces) (some phase) = after pieces (phase.next p) := rfl
      have hnone : ¬∃ phase', after pieces none = some phase' ∧ phase'.waits = false := by
        simp [after_none]
      rw [hcons, List.forall_mem_cons, List.pairwise_cons]
      cases phase with
      | block k =>
          cases p with
          | reasoning =>
              by_cases hk : k = some .text
              · simp only [next, hk, if_true]
                exact iff_of_false hnone fun h => h.1.1 rfl rfl
              · simp only [next, hk, if_false]
                rw [ih _ rfl]
                simp [Allows, Piece.InOrder, hk]
          | content =>
              simp only [next]
              rw [ih _ rfl]
              simp only [Allows, Piece.InOrder]
              exact ⟨fun h => ⟨⟨by simp, fun q hq _ => h.1 q hq trivial⟩,
                  fun q hq => h.1 q hq trivial, h.2⟩,
                fun h => ⟨fun q hq _ => h.2.1 q hq, h.2.2⟩⟩
          | tool index =>
              simp only [next]
              rw [ih _ rfl]
              simp only [Allows, Piece.InOrder]
              refine ⟨fun h => ⟨⟨by simp, fun q hq _ => ?_⟩, h⟩, fun h => h.2⟩
              rw [h.1 q hq]
              simp
      | tool index waiting =>
          obtain rfl : waiting = false := hwaits
          cases p with
          | tool other =>
              by_cases hother : other = index
              · simp only [next, hother, bne_self_eq_false, Bool.or_false]
                rw [ih _ rfl]
                simp only [Allows, Piece.InOrder]
                exact ⟨fun h => ⟨⟨trivial, h.1⟩, h⟩, fun h => h.2⟩
              · simp only [next, Bool.false_or, bne_iff_ne.mpr hother]
                refine iff_of_false ?_ fun h => hother (Piece.tool.inj h.1.1)
                rintro ⟨phase', hphase', hnot⟩
                rw [waits_after rfl hphase'] at hnot
                cases hnot
          | reasoning => exact iff_of_false hnone fun h => Piece.noConfusion h.1.1
          | content => exact iff_of_false hnone fun h => Piece.noConfusion h.1.1

end Phase

/-! ### What the parts of the conversion do -/

namespace Converter

variable {k : BlockKind} {c : Converter}

theorem openBlock_of_open (h : (c.block k).isOpen = true) (native : Option ℤ) :
    openBlock k native c = (c, []) := by
  simp [openBlock, Emit.onlyIf, h, Emit.skip]

theorem openBlock_of_closed (h : (c.block k).isOpen = false) :
    openBlock k none c = ({ c with
      nextContentIndex := c.nextContentIndex + 1
      block := Function.update c.block k
        { index := c.nextContentIndex, started := true, stopped := false } },
      [.contentBlockStart c.nextContentIndex (BlockKind.content k)]) := by
  simp [openBlock, Emit.onlyIf, h, Emit.andThen, Emit.update, Emit.emit, allocate]

theorem closeBlock_of_open (h : (c.block k).isOpen = true) :
    closeBlock k c = ({ c with
      block := Function.update c.block k { c.block k with stopped := true } },
      [.contentBlockStop (c.block k).index]) := by
  simp [closeBlock, Emit.onlyIf, h, Emit.andThen, Emit.update, Emit.emit]

theorem closeBlock_of_closed (h : (c.block k).isOpen = false) : closeBlock k c = (c, []) := by
  simp [closeBlock, Emit.onlyIf, h, Emit.skip]

theorem startMessage_of_sent (h : c.messageStartSent = true) (r : ChatCompletionResponse) :
    startMessage r c = (c, []) := by
  simp [startMessage, Emit.onlyIf, h, Emit.skip]

@[simp] theorem closeBlock_tools (k : BlockKind) (c : Converter) :
    (closeBlock k c).1.toolCallStates = c.toolCallStates := by
  cases h : (c.block k).isOpen with
  | false => rw [closeBlock_of_closed h]
  | true => rw [closeBlock_of_open h]

theorem withTool_of_get {index : ℤ} {t : ToolCallInfo} (h : c.toolCallStates.get index = some t)
    (f : ToolCallInfo → Part) : withTool index f c = f t c := by
  simp [withTool, h]

theorem withTool_of_none {index : ℤ} (h : c.toolCallStates.get index = none)
    (f : ToolCallInfo → Part) : withTool index f c = (c, []) := by
  simp [withTool, h]

/-! ### Tracking the phase -/

/-- Two blocks have been open at a time. -/
def Overlap (past : List StreamEvent) : Prop :=
  ∃ before, before <+: past ∧ 2 ≤ (openBlocks before).length

theorem Overlap.append {past : List StreamEvent} (h : Overlap past) (more : List StreamEvent) :
    Overlap (past ++ more) := by
  obtain ⟨before, hbefore, htwo⟩ := h
  exact ⟨before, hbefore.trans (List.prefix_append _ _), htwo⟩

/-- Before the finish: the events so far are allowed, and the given block is open. -/
structure At (opened : Option ℤ) (past : List StreamEvent) (c : Converter) : Prop where
  sent : c.messageStartSent = true
  going : c.messageStopSent = false
  pending : c.pendingStopReason = none
  progress : ∃ m, Progress.of past = some m ∧ m.ended = false ∧ m.next ≤ c.nextContentIndex ∧
    m.opened = opened

/-- The thinking or text block is open, or none, with something that holds of the tool
calls. -/
structure AtBlock (F : SortedMap ℤ ToolCallInfo → Option ℤ → Prop) (k : Option BlockKind)
    (past : List StreamEvent) (c : Converter) : Prop where
  opened : At (k.map fun k => (c.block k).index) past c
  blocks : ∀ k', (c.block k').isOpen = decide (k = some k')
  tools : F c.toolCallStates c.activeToolIndex

def NoTools (tools : SortedMap ℤ ToolCallInfo) (active : Option ℤ) : Prop :=
  (∀ index, tools.get index = none) ∧ active = none

/-- The tool call has an open block, and the others have not been started. -/
structure Active (index : ℤ) (waiting : Bool) (t : ToolCallInfo)
    (tools : SortedMap ℤ ToolCallInfo) (active : Option ℤ) : Prop where
  active : active = some index
  known : tools.get index = some t
  isOpen : t.isOpen = true
  others : ∀ other t, other ≠ index → tools.get other = some t →
    t.contentBlockStarted = false ∧ t.hasClaudeIndex = false
  waits : waiting = true ↔ ∃ other t, other ≠ index ∧ tools.get other = some t

/-- The block of a tool call is open. -/
structure AtTool (index : ℤ) (waiting : Bool) (past : List StreamEvent) (c : Converter) : Prop where
  blocks : ∀ k, (c.block k).isOpen = false
  tools : ∃ t, At (some t.claudeContentIndex) past c ∧
    Active index waiting t c.toolCallStates c.activeToolIndex

/-- The converter is in the phase. -/
def Tracks : Phase → List StreamEvent → Converter → Prop
  | .block k => AtBlock NoTools k
  | .tool index waiting => AtTool index waiting

/-- The converter is in the phase, or without one two blocks have overlapped. -/
def TracksOr : Option Phase → List StreamEvent → Converter → Prop
  | none, past, _ => Overlap past
  | some phase, past, c => Tracks phase past c

open Emit

theorem leads_overlap (x : Part) : Leads (TracksOr none) x (TracksOr none) :=
  fun _ _ hpast => hpast.append _

/-- A part, from what it does in a phase. -/
theorem leads_tracksOr {x : Part} {next : Phase → Option Phase}
    (h : ∀ phase, Leads (Tracks phase) x (TracksOr (next phase))) (phase : Option Phase) :
    Leads (TracksOr phase) x (TracksOr (phase.bind next)) := by
  cases phase with
  | none => exact leads_overlap x
  | some phase => exact h phase

variable {F : SortedMap ℤ ToolCallInfo → Option ℤ → Prop} {opened : Option ℤ}
  {past : List StreamEvent}

theorem At.emit (h : At opened past c) {e : StreamEvent}
    (hstep : ∀ m : Progress, m.ended = false → m.opened = opened → m.step e = some m) :
    At opened (past ++ [e]) c := by
  obtain ⟨hsent, hgoing, hpending, m, hm, hended, hnext, hopened⟩ := h
  refine ⟨hsent, hgoing, hpending, m, ?_, hended, hnext, hopened⟩
  rw [Progress.of_snoc hm, hstep m hended hopened]

/-- A delta for the open block. -/
theorem At.delta {index : ℤ} (h : At (some index) past c) (delta : ContentDelta) :
    At (some index) (past ++ [.contentBlockDelta index delta]) c :=
  h.emit fun m hended hopened => by simp [Progress.step, hended, hopened]

/-- A start where no block is open. -/
theorem At.start (h : At none past c) (block : ContentBlock) {c' : Converter}
    (hsent : c'.messageStartSent = c.messageStartSent)
    (hgoing : c'.messageStopSent = c.messageStopSent)
    (hpending : c'.pendingStopReason = c.pendingStopReason)
    (hnext : c'.nextContentIndex = c.nextContentIndex + 1) :
    At (some c.nextContentIndex) (past ++ [.contentBlockStart c.nextContentIndex block]) c' := by
  obtain ⟨hsent', hgoing', hpending', m, hm, hended, hle, hopened⟩ := h
  refine ⟨hsent.trans hsent', hgoing.trans hgoing', hpending.trans hpending',
    ⟨some c.nextContentIndex, c.nextContentIndex + 1, false⟩, ?_, rfl, hnext.ge, rfl⟩
  rw [Progress.of_snoc hm]
  simp [Progress.step, hended, hopened, hle]

/-- The stop of the open block. -/
theorem At.stop {index : ℤ} (h : At (some index) past c) {c' : Converter}
    (hsent : c'.messageStartSent = c.messageStartSent)
    (hgoing : c'.messageStopSent = c.messageStopSent)
    (hpending : c'.pendingStopReason = c.pendingStopReason)
    (hnext : c'.nextContentIndex = c.nextContentIndex) :
    At none (past ++ [.contentBlockStop index]) c' := by
  obtain ⟨hsent', hgoing', hpending', m, hm, hended, hle, hopened⟩ := h
  refine ⟨hsent.trans hsent', hgoing.trans hgoing', hpending.trans hpending',
    { m with opened := none }, ?_, hended, hnext.symm ▸ hle, rfl⟩
  rw [Progress.of_snoc hm]
  simp [Progress.step, hended, hopened]

/-- A start while a block is open. -/
theorem At.overlap {index : ℤ} (h : At (some index) past c) (next : ℤ) (block : ContentBlock)
    (more : List StreamEvent) : Overlap (past ++ .contentBlockStart next block :: more) := by
  obtain ⟨-, -, -, m, hm, -, -, hopened⟩ := h
  refine ⟨past ++ [.contentBlockStart next block], ⟨more, by simp⟩, ?_⟩
  rw [openBlocks_snoc, (Allowed.of_progress hm).opened, hopened]
  rfl

/-! ### The thinking and text blocks -/

theorem leads_openBlock : Leads (AtBlock F none) (openBlock k none) (AtBlock F (some k)) := by
  rintro past c ⟨hopened, hblocks, htools⟩
  have hclosed : (c.block k).isOpen = false := hblocks k
  rw [openBlock_of_closed hclosed]
  refine ⟨?_, ?_, htools⟩
  · simp only [Option.map_some, Function.update_self]
    exact hopened.start (BlockKind.content k) rfl rfl rfl rfl
  · intro k'
    by_cases hk : k' = k
    · simp [hk, Block.isOpen]
    · simpa [Function.update, hk, Ne.symm hk] using hblocks k'

theorem leads_openBlock_of_open :
    Leads (AtBlock F (some k)) (openBlock k none) (AtBlock F (some k)) := by
  intro past c h
  have hopen : (c.block k).isOpen = true := by simp [h.blocks k]
  rw [openBlock_of_open hopen, List.append_nil]
  exact h

theorem leads_sendDelta (delta : ContentDelta) :
    Leads (AtBlock F (some k)) (sendDelta k delta) (AtBlock F (some k)) :=
  fun _ _ h => ⟨h.opened.delta delta, h.blocks, h.tools⟩

theorem leads_closeBlock : Leads (AtBlock F (some k)) (closeBlock k) (AtBlock F none) := by
  rintro past c ⟨hopened, hblocks, htools⟩
  have hopen : (c.block k).isOpen = true := by simp [hblocks k]
  rw [closeBlock_of_open hopen]
  refine ⟨hopened.stop rfl rfl rfl rfl, ?_, htools⟩
  intro k'
  by_cases hk : k' = k
  · simp [hk, Block.isOpen]
  · simpa [Function.update, hk, Ne.symm hk] using hblocks k'

theorem leads_closeBlock_of_ne {k' : Option BlockKind} (hne : k' ≠ some k) :
    Leads (AtBlock F k') (closeBlock k) (AtBlock F k') := by
  intro past c h
  have hclosed : (c.block k).isOpen = false := by simp [h.blocks k, hne]
  rw [closeBlock_of_closed hclosed, List.append_nil]
  exact h

/-- Both blocks are closed. -/
theorem leads_closeBlocks (k : Option BlockKind) :
    Leads (AtBlock F k) ((closeBlock .thinking).andThen (closeBlock .text)) (AtBlock F none) := by
  cases k with
  | none => exact (leads_closeBlock_of_ne (by simp)).andThen (leads_closeBlock_of_ne (by simp))
  | some k =>
      cases k with
      | thinking => exact leads_closeBlock.andThen (leads_closeBlock_of_ne (by simp))
      | text => exact (leads_closeBlock_of_ne (by simp)).andThen leads_closeBlock

/-- A thinking or text block is started while the block of a tool call is open. -/
theorem leads_openBlock_atTool {index : ℤ} {waiting : Bool} :
    Leads (AtTool index waiting) (openBlock k none) (TracksOr none) := by
  rintro past c ⟨hblocks, t, hopened, -⟩
  rw [openBlock_of_closed (hblocks k)]
  exact hopened.overlap _ _ _

theorem leads_closeBlock_atTool {index : ℤ} {waiting : Bool} :
    Leads (AtTool index waiting) (closeBlock k) (AtTool index waiting) := by
  intro past c h
  rw [closeBlock_of_closed (h.blocks k), List.append_nil]
  exact h

theorem leads_sendReasoning {text : GoString} (htext : text ≠ []) (phase : Phase) :
    Leads (Tracks phase) (sendReasoning none text) (TracksOr (phase.next .reasoning)) := by
  rw [sendReasoning, if_neg htext]
  have hdelta : Leads (AtBlock NoTools (some .thinking))
      (inOrder [sendDelta .thinking (.thinking text)]) (AtBlock NoTools (some .thinking)) :=
    .inOrder_cons (leads_sendDelta _) (.inOrder_nil fun _ _ h => h)
  cases phase with
  | tool index waiting => exact .inOrder_cons leads_openBlock_atTool (leads_overlap _)
  | block k =>
      cases k with
      | none => exact .inOrder_cons leads_openBlock hdelta
      | some k =>
          cases k with
          | thinking => exact .inOrder_cons leads_openBlock_of_open hdelta
          | text =>
              refine .inOrder_cons ?_ (leads_overlap _)
              rintro past c ⟨hopened, hblocks, -⟩
              rw [openBlock_of_closed (hblocks .thinking)]
              exact hopened.overlap _ _ _

theorem leads_sendContent {text : GoString} (htext : text ≠ []) (phase : Phase) :
    Leads (Tracks phase) (sendContent none text) (TracksOr (phase.next .content)) := by
  rw [sendContent, if_neg htext]
  have hdelta : Leads (AtBlock NoTools (some .text))
      (inOrder [sendDelta .text (.text text)]) (AtBlock NoTools (some .text)) :=
    .inOrder_cons (leads_sendDelta _) (.inOrder_nil fun _ _ h => h)
  cases phase with
  | tool index waiting =>
      exact .inOrder_cons leads_closeBlock_atTool
        (.inOrder_cons leads_openBlock_atTool (leads_overlap _))
  | block k =>
      cases k with
      | none =>
          exact .inOrder_cons (leads_closeBlock_of_ne (by simp)) (.inOrder_cons leads_openBlock hdelta)
      | some k =>
          cases k with
          | thinking => exact .inOrder_cons leads_closeBlock (.inOrder_cons leads_openBlock hdelta)
          | text =>
              exact .inOrder_cons (leads_closeBlock_of_ne (by simp))
                (.inOrder_cons leads_openBlock_of_open hdelta)

/-! ### The tool calls -/

/-- One tool call, which has not been started. -/
structure Announced (index : ℤ) (tools : SortedMap ℤ ToolCallInfo) (active : Option ℤ) : Prop where
  active : active = some index
  known : ∃ t, tools.get index = some t ∧ t.hasClaudeIndex = false ∧ t.contentBlockStopped = false ∧
    t.cachedArguments = []
  alone : ∀ other, other ≠ index → tools.get other = none

theorem leads_startToolBlock (index : ℤ) :
    Leads (AtBlock (Announced index) none) (withTool index (startToolBlock index))
      (AtTool index false) := by
  rintro past c ⟨hopened, hblocks, hactive, ⟨t, hknown, hnew, hgoing, hargs⟩, halone⟩
  rw [withTool_of_get hknown]
  simp only [startToolBlock, hnew, hargs, allocate, if_true, Bool.false_eq_true, if_false]
  refine ⟨fun k => hblocks k, { t with
    claudeContentIndex := c.nextContentIndex
    hasClaudeIndex := true
    contentBlockStarted := true }, hopened.start _ rfl rfl rfl rfl, hactive, ?_, ?_, ?_, ?_⟩
  · simp [setTool, hargs]
  · simp [ToolCallInfo.isOpen, hgoing]
  · intro other t' hother hget
    rw [setTool, SortedMap.get_insert, if_neg hother, halone other hother] at hget
    cases hget
  · simp only [Bool.false_eq_true, false_iff, not_exists, not_and]
    intro other t' hother
    rw [setTool, SortedMap.get_insert, if_neg hother, halone other hother]
    simp

/-- The blocks are closed before the tool call is looked up again. -/
theorem withTool_startToolCall {index : ℤ} {t : ToolCallInfo}
    (h : c.toolCallStates.get index = some t) :
    withTool index (startToolCall index) c =
      ((closeBlock .thinking).andThen (closeBlock .text)).andThen
        (withTool index (startToolBlock index)) c := by
  have hclosed : ((closeBlock .thinking).andThen (closeBlock .text) c).1.toolCallStates.get index =
      some t := by simp [andThen, h]
  rw [withTool_of_get h, andThen, withTool_of_get hclosed]
  simp [startToolCall, inOrder, andThen, Emit.skip]

theorem AtBlock.retool {F' : SortedMap ℤ ToolCallInfo → Option ℤ → Prop} {k : Option BlockKind}
    (h : AtBlock F k past c) {tools : SortedMap ℤ ToolCallInfo} {active : Option ℤ}
    (hF : F' tools active) :
    AtBlock F' k past { c with toolCallStates := tools, activeToolIndex := active } :=
  ⟨⟨h.opened.sent, h.opened.going, h.opened.pending, h.opened.progress⟩, h.blocks, hF⟩

/-- The first tool call that comes with an id and a name. -/
theorem leads_announceTool_atBlock (call : ToolCall) (k : Option BlockKind) :
    Leads (AtBlock NoTools k) (announceTool none call) (AtTool call.index false) := by
  have hknown : Leads (AtBlock (Announced call.index) k)
      (withTool call.index (startToolCall call.index)) (AtTool call.index false) := by
    intro past c h
    obtain ⟨t, hget, -⟩ := h.tools.known
    rw [withTool_startToolCall hget]
    exact ((leads_closeBlocks k).andThen (leads_startToolBlock call.index)) past c h
  rintro past c ⟨hopened, hblocks, htools, hactive⟩
  have hannounced := @AtBlock.retool c NoTools past (Announced call.index) k
    ⟨hopened, hblocks, htools, hactive⟩
    (c.toolCallStates.insert call.index { id := call.id, name := call.function.name })
    (some call.index)
    ⟨rfl, ⟨_, by simp; rfl, rfl, rfl, rfl⟩, fun other hother => by simp [hother, htools]⟩
  have hstep := hknown past _ hannounced
  simpa [announceTool, inOrder, andThen, Emit.onlyIf, Emit.update, Emit.skip, htools, hactive, setTool]
    using hstep

theorem AtTool.retool {index : ℤ} {waiting : Bool} {t : ToolCallInfo}
    {tools : SortedMap ℤ ToolCallInfo} (hblocks : ∀ k, (c.block k).isOpen = false)
    (hopened : At (some t.claudeContentIndex) past c)
    (hactive : Active index waiting t tools c.activeToolIndex) :
    AtTool index waiting past { c with toolCallStates := tools } :=
  ⟨hblocks, t, ⟨hopened.sent, hopened.going, hopened.pending, hopened.progress⟩, hactive⟩

/-- A further tool call that comes with an id and a name. -/
theorem leads_announceTool_atTool (call : ToolCall) (index : ℤ) (waiting : Bool) :
    Leads (AtTool index waiting) (announceTool none call)
      (AtTool index (waiting || call.index != index)) := by
  rintro past c ⟨hblocks, t, hopened, hactive, hknown, hopen, hothers, hwaits⟩
  cases hget : c.toolCallStates.get call.index with
  | some t' =>
      have hsame : announceTool none call c = (c, []) := by
        simp [announceTool, inOrder, andThen, Emit.onlyIf, Emit.skip, hget, hactive]
      rw [hsame, List.append_nil]
      refine ⟨hblocks, t, hopened, hactive, hknown, hopen, hothers, ?_⟩
      rw [Bool.or_eq_true, bne_iff_ne, hwaits]
      exact ⟨fun h => h.elim id fun hne => ⟨call.index, t', hne, hget⟩, .inl⟩
  | none =>
      have hne : call.index ≠ index := by
        rintro heq
        rw [heq, hknown] at hget
        cases hget
      have hset : announceTool none call c =
          (setTool call.index { id := call.id, name := call.function.name } c, []) := by
        simp [announceTool, inOrder, andThen, Emit.onlyIf, Emit.update, Emit.skip, hget, hactive, setTool]
      rw [hset, List.append_nil, bne_iff_ne.mpr hne, Bool.or_true]
      refine AtTool.retool hblocks hopened ⟨hactive, ?_, hopen, ?_, ?_⟩
      · rw [SortedMap.get_insert, if_neg hne.symm, hknown]
      · intro other t' hother hget'
        rw [SortedMap.get_insert] at hget'
        split at hget'
        · obtain rfl := Option.some.inj hget'
          exact ⟨rfl, rfl⟩
        · exact hothers other t' hother hget'
      · exact ⟨fun _ => ⟨call.index, _, hne, by simp; rfl⟩, fun _ => rfl⟩

/-- More arguments for a tool call that is known. -/
theorem Active.addArguments {index i : ℤ} {waiting : Bool} {t t' : ToolCallInfo}
    {tools : SortedMap ℤ ToolCallInfo} {active : Option ℤ} (h : Active index waiting t tools active)
    (hget : tools.get i = some t') (args : GoString) :
    Active index waiting (if i = index then { t' with cachedArguments := args } else t)
      (tools.insert i { t' with cachedArguments := args }) active := by
  obtain ⟨hactive, hknown, hopen, hothers, hwaits⟩ := h
  refine ⟨hactive, ?_, ?_, ?_, ?_⟩
  · rw [SortedMap.get_insert]
    by_cases hi : i = index
    · simp [hi]
    · rw [if_neg (Ne.symm hi), if_neg hi, hknown]
  · by_cases hi : i = index
    · rw [hi, hknown] at hget
      obtain rfl := Option.some.inj hget
      rw [if_pos hi]
      exact hopen
    · rw [if_neg hi]
      exact hopen
  · intro other t'' hother hget'
    rw [SortedMap.get_insert] at hget'
    split at hget'
    · rename_i hi
      obtain rfl := Option.some.inj hget'
      exact hothers i t' (hi ▸ hother) hget
    · exact hothers other t'' hother hget'
  · rw [hwaits]
    constructor
    · rintro ⟨other, t'', hother, hget'⟩
      by_cases hi : other = i
      · exact ⟨other, _, hother, by rw [SortedMap.get_insert, if_pos hi]⟩
      · exact ⟨other, t'', hother, by rw [SortedMap.get_insert, if_neg hi, hget']⟩
    · rintro ⟨other, t'', hother, hget'⟩
      rw [SortedMap.get_insert] at hget'
      split at hget'
      · rename_i hi
        exact ⟨i, t', hi ▸ hother, hget⟩
      · exact ⟨other, t'', hother, hget'⟩

theorem leads_addArguments (call : ToolCall) (phase : Phase) :
    Leads (Tracks phase) (addArguments call) (Tracks phase) := by
  cases phase with
  | block k =>
      intro past c h
      rw [addArguments, withTool_of_none (h.tools.1 call.index), List.append_nil]
      exact h
  | tool index waiting =>
      rintro past c ⟨hblocks, t, hopened, htools⟩
      cases hget : c.toolCallStates.get call.index with
      | none =>
          rw [addArguments, withTool_of_none hget, List.append_nil]
          exact ⟨hblocks, t, hopened, htools⟩
      | some t' =>
          have htools' := htools.addArguments hget (t'.cachedArguments ++ call.function.arguments)
          by_cases hi : call.index = index
          · -- the active tool call
            have hsame : t' = t := by
              rw [hi, htools.known] at hget
              exact (Option.some.inj hget).symm
            have hstarted : t'.contentBlockStarted = true := by
              have := htools.isOpen
              simp_all [ToolCallInfo.isOpen]
            have hresult : addArguments call c =
                (setTool call.index { t' with
                  cachedArguments := t'.cachedArguments ++ call.function.arguments } c,
                [.contentBlockDelta t.claudeContentIndex (.inputJson call.function.arguments)]) := by
              rw [addArguments, withTool_of_get hget, ← hsame]
              simp [andThen, Emit.update, Emit.onlyIf, Emit.emit, setTool, htools.active, hi, hstarted]
            rw [if_pos hi] at htools'
            rw [hresult]
            refine AtTool.retool hblocks ?_ htools'
            rw [hsame]
            exact hopened.delta _
          · have hresult : addArguments call c =
                (setTool call.index { t' with
                  cachedArguments := t'.cachedArguments ++ call.function.arguments } c, []) := by
              rw [addArguments, withTool_of_get hget]
              simp [andThen, Emit.update, Emit.onlyIf, Emit.skip, setTool, htools.active, Ne.symm hi]
            rw [if_neg hi] at htools'
            rw [hresult, List.append_nil]
            exact AtTool.retool hblocks hopened htools'

theorem leads_announceTool (call : ToolCall) (phase : Phase) :
    Leads (Tracks phase) (announceTool none call) (TracksOr (phase.next (.tool call.index))) := by
  cases phase with
  | block k => exact leads_announceTool_atBlock call k
  | tool index waiting => exact leads_announceTool_atTool call index waiting

/-! ### Chunks -/

/-- A tool call brings a piece if it comes with an id and a name. -/
def toolPiece (call : ToolCall) : List Piece :=
  if call.id ≠ [] ∧ call.function.name ≠ [] then [.tool call.index] else []

/-- The pieces that a chunk brings, in the order of their handling. -/
def pieces (r : ChatCompletionResponse) : List Piece :=
  (if reasoningText (deltaOf r) = [] then [] else [.reasoning]) ++
    match (deltaOf r).content with
    | some .other => []
    | some (.string text) =>
        (if text = [] then [] else [.content]) ++ (deltaOf r).toolCalls.flatMap toolPiece
    | none => (deltaOf r).toolCalls.flatMap toolPiece

/-- The chunk has none of the fields that only come from Claude. -/
structure NoNative (r : ChatCompletionResponse) : Prop where
  signature : (deltaOf r).reasoningSignature = []
  redacted : (deltaOf r).reasoningRedactedContent = []
  index : (deltaOf r).claudeContentBlockIndex = none
  stop : (deltaOf r).claudeContentBlockStop = none

theorem after_append (ps qs : List Piece) (phase : Option Phase) :
    Phase.after (ps ++ qs) phase = Phase.after qs (Phase.after ps phase) := by
  rw [Phase.after, List.foldl_append]
  rfl

theorem leads_handleToolCall (call : ToolCall) (phase : Option Phase) :
    Leads (TracksOr phase) (handleToolCall none call)
      (TracksOr (Phase.after (toolPiece call) phase)) := by
  rw [handleToolCall]
  refine .andThen (Q := TracksOr (Phase.after (toolPiece call) phase)) ?_ ?_
  · rw [toolPiece]
    split
    · exact leads_tracksOr (leads_announceTool call) phase
    · exact .skip fun _ _ h => h
  · split
    · cases Phase.after (toolPiece call) phase with
      | none => exact leads_overlap _
      | some phase => exact leads_addArguments call phase
    · exact .skip fun _ _ h => h

theorem Tracks.at_some {phase : Phase} (h : Tracks phase past c) : ∃ opened, At opened past c := by
  cases phase with
  | block k => exact ⟨_, h.opened⟩
  | tool index waiting =>
      obtain ⟨t, ht, -⟩ := h.tools
      exact ⟨_, ht⟩

theorem leads_startMessage (r : ChatCompletionResponse) (phase : Option Phase) :
    Leads (TracksOr phase) (startMessage r) (TracksOr phase) := by
  cases phase with
  | none => exact leads_overlap _
  | some phase =>
      intro past c h
      obtain ⟨opened, hopened⟩ := Tracks.at_some h
      rw [startMessage_of_sent hopened.sent, List.append_nil]
      exact h

theorem leads_handleToolCalls {r : ChatCompletionResponse} (hnative : NoNative r)
    (phase : Option Phase) :
    Leads (TracksOr phase) (handleToolCalls r (deltaOf r))
      (TracksOr (Phase.after ((deltaOf r).toolCalls.flatMap toolPiece) phase)) := by
  rw [handleToolCalls, hnative.index]
  split
  · rename_i hnil
    rw [hnil]
    exact .skip fun _ _ h => h
  · refine (leads_startMessage r phase).andThen ?_
    have hfold : ∀ (calls : List ToolCall) phase,
        calls.foldl (fun phase call => Phase.after (toolPiece call) phase) phase =
          Phase.after (calls.flatMap toolPiece) phase := by
      intro calls
      induction calls with
      | nil => intro phase; rfl
      | cons call calls ih =>
          intro phase
          rw [List.foldl_cons, ih, List.flatMap_cons, after_append]
    rw [← hfold]
    exact .each (P := TracksOr) (fun call _ phase => leads_handleToolCall call phase) phase

/-- A usage before the finish. -/
theorem leads_handleUsage (u : Usage) (phase : Option Phase) :
    Leads (TracksOr phase) (handleUsage u) (TracksOr phase) := by
  cases phase with
  | none => exact leads_overlap _
  | some phase =>
      intro past c h
      obtain ⟨opened, hopened⟩ := Tracks.at_some h
      have hallowed : ∀ opened, At opened past c → ∀ u, At opened (past ++ [.messageDelta none u]) c :=
        fun _ hat u => hat.emit fun m hended _ => by simp [Progress.step, hended]
      have hresult : ∃ u', handleUsage u c = (c, [.messageDelta none u']) := by
        obtain ⟨-, -, hpending, -⟩ := hopened
        cases c
        simp only at hpending
        simp [handleUsage, hpending]
      obtain ⟨u', hresult⟩ := hresult
      rw [hresult]
      cases phase with
      | block k => exact ⟨hallowed _ h.opened _, h.blocks, h.tools⟩
      | tool index waiting =>
          obtain ⟨hblocks, t, ht, hactive⟩ := h
          exact ⟨hblocks, t, hallowed _ ht _, hactive⟩

/-- A chunk, from what follows its content. -/
theorem leads_afterNative {R : Option Phase → List StreamEvent → Converter → Prop}
    {r : ChatCompletionResponse} (hnative : NoNative r)
    (hafter : ∀ phase, Leads (TracksOr phase) (afterContent r)
      (R (Phase.after ((deltaOf r).toolCalls.flatMap toolPiece) phase)))
    (hother : (deltaOf r).content = some .other →
      ∀ phase past c, TracksOr phase past c → R phase past c) (phase : Option Phase) :
    Leads (TracksOr phase) (afterNative r) (R (Phase.after (pieces r) phase)) := by
  rw [afterNative, hnative.index, hnative.signature, pieces, after_append]
  refine .inOrder_cons
    (Q := TracksOr (Phase.after (if reasoningText (deltaOf r) = [] then [] else [.reasoning]) phase))
    ?_ (.inOrder_cons (.skip fun _ _ h => h) ?_)
  · split
    · rename_i hnil
      rw [hnil]
      exact .skip fun _ _ h => h
    · rename_i hne
      exact leads_tracksOr (leads_sendReasoning hne) phase
  · generalize Phase.after (if reasoningText (deltaOf r) = [] then [] else [.reasoning]) phase = phase
    refine .inOrder_cons ?_ (.inOrder_nil fun _ _ h => h)
    cases hcontent : (deltaOf r).content with
    | none => exact hafter phase
    | some content =>
        cases content with
        | other => exact .skip (hother hcontent phase)
        | string text =>
            simp only [after_append]
            refine .andThen ?_ (hafter _)
            split
            · rename_i hnil
              rw [hnil]
              exact .skip fun _ _ h => h
            · rename_i hne
              exact leads_tracksOr (leads_sendContent hne) phase

/-- A chunk before the finish. -/
theorem leads_afterNative_tracksOr {r : ChatCompletionResponse} (hnative : NoNative r)
    (hfinish : finishOf r = none) (phase : Option Phase) :
    Leads (TracksOr phase) (afterNative r) (TracksOr (Phase.after (pieces r) phase)) := by
  refine leads_afterNative hnative ?_ (fun _ _ _ _ h => h) phase
  intro phase
  rw [afterContent, hfinish]
  refine .inOrder_cons (leads_handleToolCalls hnative phase) (.inOrder_cons (.skip fun _ _ h => h)
    (.inOrder_cons ?_ (.inOrder_nil fun _ _ h => h)))
  cases r.usage with
  | none => exact .skip fun _ _ h => h
  | some u => exact leads_handleUsage u _

/-! ### The finish -/

/-- From the finish on: no block is open. -/
structure Closed (past : List StreamEvent) (c : Converter) : Prop where
  sent : c.messageStartSent = true
  progress : ∃ m, Progress.of past = some m ∧ m.ended = c.messageStopSent ∧ m.opened = none
  pending : c.messageStopSent = true → c.pendingStopReason = none
  blocks : ∀ k, (c.block k).isOpen = false
  tools : ∀ index t, c.toolCallStates.get index = some t → t.isOpen = false

/-- From the finish on and before the message is stopped. -/
def ClosedGoing (past : List StreamEvent) (c : Converter) : Prop :=
  Closed past c ∧ c.messageStopSent = false

/-- After the finish, two blocks have overlapped or something holds of the converter. -/
def Finished (P : List StreamEvent → Converter → Prop) :
    Option Phase → List StreamEvent → Converter → Prop
  | none, past, _ => Overlap past
  | some phase, past, c => if phase.waits then Overlap past else P past c

theorem mem_sortedIndices {index : ℤ} :
    index ∈ c.sortedIndices ↔ ∃ t, c.toolCallStates.get index = some t :=
  c.toolCallStates.mem_keys_iff index

theorem leads_finish_atBlock (reason : GoString) (k : Option BlockKind) :
    Leads (AtBlock NoTools k) (finish reason) ClosedGoing := by
  intro past c h
  obtain ⟨⟨hsent, hgoing, hpending, m, hm, hended, -, hopened⟩, hblocks, htools, -⟩ :=
    leads_closeBlocks k past c h
  have hnil : ((closeBlock .thinking).andThen (closeBlock .text) c).1.sortedIndices = [] := by
    refine List.eq_nil_iff_forall_not_mem.mpr fun index hindex => ?_
    obtain ⟨t, ht⟩ := mem_sortedIndices.mp hindex
    rw [htools index] at ht
    cases ht
  have hfinish : finish reason c =
      ({ ((closeBlock .thinking).andThen (closeBlock .text) c).1 with
        activeToolIndex := none
        pendingStopReason := some (openAIFinishReasonToClaude reason) },
      ((closeBlock .thinking).andThen (closeBlock .text) c).2) := by
    simp only [andThen] at hnil
    simp [finish, inOrder, andThen, startAllRemaining, stopAllTools, hnil, each_nil, Emit.skip,
      Emit.update]
  rw [hfinish]
  refine ⟨⟨hsent, ⟨m, hm, hended.trans hgoing.symm, hopened⟩, ?_, hblocks, ?_⟩, hgoing⟩
  · intro hstop
    rw [hgoing] at hstop
    cases hstop
  · intro index t ht
    rw [htools index] at ht
    cases ht

/-- Where no thinking or text block is open, the finish begins with the tool calls. -/
theorem finish_of_closed (hblocks : ∀ k, (c.block k).isOpen = false) (reason : GoString) :
    finish reason c = inOrder
      [startAllRemaining, stopAllTools, .update fun c => { c with
        activeToolIndex := none
        pendingStopReason := some (openAIFinishReasonToClaude reason) }] c := by
  rw [finish, inOrder, inOrder, andThen, closeBlock_of_closed (hblocks .thinking), andThen,
    closeBlock_of_closed (hblocks .text)]
  simp

theorem leads_finish_atTool (reason : GoString) (index : ℤ) :
    Leads (AtTool index false) (finish reason) ClosedGoing := by
  rintro past c ⟨hblocks, t, hopened, hactive, hknown, hopen, hothers, hwaits⟩
  have halone : ∀ other t, c.toolCallStates.get other = some t → other = index := by
    intro other t' hget
    by_contra hother
    exact absurd (hwaits.mpr ⟨other, t', hother, hget⟩) (by simp)
  have hkeys : c.sortedIndices = [index] := by
    have hnodup : c.sortedIndices.Nodup := c.toolCallStates.nodup_keys
    have hall : ∀ other ∈ c.sortedIndices, other = index := by
      intro other hmem
      obtain ⟨t', ht'⟩ := mem_sortedIndices.mp hmem
      exact halone other t' ht'
    have hmem : index ∈ c.sortedIndices := mem_sortedIndices.mpr ⟨t, hknown⟩
    exact List.perm_singleton.mp ((List.perm_ext_iff_of_nodup hnodup (List.nodup_singleton index)).mpr
      fun other => ⟨fun h => List.mem_singleton.mpr (hall other h),
        fun h => List.mem_singleton.mp h ▸ hmem⟩)
  have hstarted : t.contentBlockStarted = true := by
    rw [ToolCallInfo.isOpen, Bool.and_eq_true] at hopen
    exact hopen.1
  have hfinish : finish reason c =
      ({ setTool index { t with contentBlockStopped := true } c with
        activeToolIndex := none
        pendingStopReason := some (openAIFinishReasonToClaude reason) },
      [.contentBlockStop t.claudeContentIndex]) := by
    rw [finish_of_closed hblocks]
    simp [inOrder, andThen, startAllRemaining, stopAllTools, hkeys, each_cons, each_nil, startRemaining, stopTool, withTool, hknown,
      hstarted, hopen, Emit.skip, Emit.update, Emit.emit]
  obtain ⟨hsent, hgoing, hpending, m, hm, hended, -, hopened⟩ := hopened
  rw [hfinish]
  refine ⟨⟨hsent, ⟨{ m with opened := none }, ?_, hended.trans hgoing.symm, rfl⟩, ?_, hblocks, ?_⟩,
    hgoing⟩
  · rw [Progress.of_snoc hm]
    simp [Progress.step, hended, hopened]
  · intro hstop
    rw [setTool, hgoing] at hstop
    cases hstop
  · intro other t' hget
    rw [setTool, SortedMap.get_insert] at hget
    split at hget
    · obtain rfl := Option.some.inj hget
      simp [ToolCallInfo.isOpen]
    · rename_i hother
      exact absurd (halone other t' hget) hother

/-- At the finish, the tool calls that wait are started while a block is open. -/
theorem overlap_startRemaining {index : ℤ} {t : ToolCallInfo}
    (hblocks : ∀ k, (c.block k).isOpen = false) (hopened : At (some t.claudeContentIndex) past c)
    (hactive : Active index true t c.toolCallStates c.activeToolIndex) {indices : List ℤ}
    (hwaiting : ∃ other ∈ indices, other ≠ index ∧ ∃ t', c.toolCallStates.get other = some t') :
    Overlap (past ++ (Emit.each startRemaining indices c).2) := by
  induction indices with
  | nil => simp at hwaiting
  | cons first indices ih =>
      rw [each_cons, andThen]
      cases hget : c.toolCallStates.get first with
      | none =>
          have hsame : startRemaining first c = (c, []) := by rw [startRemaining, withTool_of_none hget]
          rw [hsame, List.nil_append]
          refine ih ?_
          obtain ⟨other, hmem, hother, t', ht'⟩ := hwaiting
          rcases List.mem_cons.mp hmem with rfl | hmem
          · rw [ht'] at hget
            cases hget
          · exact ⟨other, hmem, hother, t', ht'⟩
      | some t₁ =>
          by_cases hfirst : first = index
          · have hstarted : t₁.contentBlockStarted = true := by
              have hsame : t₁ = t := by
                rw [hfirst, hactive.known] at hget
                exact (Option.some.inj hget).symm
              have hopen := hactive.isOpen
              rw [← hsame, ToolCallInfo.isOpen, Bool.and_eq_true] at hopen
              exact hopen.1
            have hsame : startRemaining first c = (c, []) := by
              rw [startRemaining, withTool_of_get hget, if_pos hstarted]
              rfl
            rw [hsame, List.nil_append]
            refine ih ?_
            obtain ⟨other, hmem, hother, ht'⟩ := hwaiting
            rcases List.mem_cons.mp hmem with rfl | hmem
            · exact absurd hfirst hother
            · exact ⟨other, hmem, hother, ht'⟩
          · obtain ⟨hnot, -⟩ := hactive.others first t₁ hfirst hget
            have hstart : ∃ next block more, (startRemaining first c).2 =
                .contentBlockStart next block :: more := by
              rw [startRemaining, withTool_of_get hget, if_neg (by simp [hnot]), andThen, startToolCall,
                inOrder, inOrder, andThen, closeBlock_of_closed (hblocks .thinking), andThen,
                closeBlock_of_closed (hblocks .text)]
              exact ⟨_, _, _, rfl⟩
            obtain ⟨next, block, more, hstart⟩ := hstart
            rw [hstart, List.cons_append]
            exact hopened.overlap _ _ _

theorem leads_finish (reason : GoString) (phase : Option Phase) :
    Leads (TracksOr phase) (finish reason) (Finished ClosedGoing phase) := by
  cases phase with
  | none => exact leads_overlap _
  | some phase =>
      cases phase with
      | block k => exact leads_finish_atBlock reason k
      | tool index waiting =>
          cases waiting with
          | false => exact leads_finish_atTool reason index
          | true =>
              rintro past c ⟨hblocks, t, hopened, hactive⟩
              obtain ⟨other, t', hother, hget⟩ := hactive.waits.mp rfl
              have hstart := overlap_startRemaining hblocks hopened hactive
                ⟨other, mem_sortedIndices.mpr ⟨t', hget⟩, hother, t', hget⟩
              show Overlap (past ++ (finish reason c).2)
              rw [finish_of_closed hblocks, inOrder, andThen, startAllRemaining, ← List.append_assoc]
              exact hstart.append _

/-- A part behind the finish, from what it does where no blocks have overlapped. -/
theorem leads_finished {P Q : List StreamEvent → Converter → Prop} {x : Part} (h : Leads P x Q)
    (phase : Option Phase) : Leads (Finished P phase) x (Finished Q phase) := by
  cases phase with
  | none => exact leads_overlap x
  | some phase =>
      intro past c hpast
      rw [Finished] at hpast ⊢
      split at hpast
      · rename_i hwaits
        rw [if_pos hwaits]
        exact hpast.append _
      · rename_i hwaits
        rw [if_neg hwaits]
        exact h past c hpast

/-- A usage from the finish on. -/
theorem leads_handleUsage_closed (u : Usage) : Leads ClosedGoing (handleUsage u) Closed := by
  rintro past c ⟨⟨hsent, ⟨m, hm, hended, hopened⟩, hpending, hblocks, htools⟩, hgoing⟩
  rw [hgoing] at hended
  cases hreason : c.pendingStopReason with
  | none =>
      simp only [handleUsage, hreason, Option.isSome_none, Bool.false_and, Bool.false_eq_true, if_false]
      refine ⟨hsent, ⟨m, ?_, hended.trans hgoing.symm, hopened⟩, fun _ => rfl, hblocks, htools⟩
      rw [Progress.of_snoc hm]
      simp [Progress.step, hended]
  | some reason =>
      simp only [handleUsage, hreason, hgoing, Option.isSome_some, Bool.not_false, Bool.and_self, if_true]
      refine ⟨hsent, ⟨{ m with ended := true }, ?_, rfl, hopened⟩, fun _ => rfl, hblocks, htools⟩
      rw [Progress.of_more hm]
      simp [Progress.step, hended, hopened]

theorem leads_usage_closed (r : ChatCompletionResponse) :
    Leads ClosedGoing (inOrder [match r.usage with
      | none => .skip
      | some u => handleUsage u]) Closed := by
  refine .inOrder_cons ?_ (.inOrder_nil fun _ _ h => h)
  cases r.usage with
  | none => exact .skip fun _ _ h => h.1
  | some u => exact leads_handleUsage_closed u

/-- The chunk with the finish reason. -/
theorem leads_afterNative_finished {r : ChatCompletionResponse} (hnative : NoNative r)
    (hfinish : finishOf r ≠ none) (hcontent : (deltaOf r).content ≠ some .other)
    (phase : Option Phase) :
    Leads (TracksOr phase) (afterNative r) (Finished Closed (Phase.after (pieces r) phase)) := by
  refine leads_afterNative hnative ?_ (fun hother => absurd hother hcontent) phase
  intro phase
  obtain ⟨reason, hreason⟩ := Option.ne_none_iff_exists'.mp hfinish
  rw [afterContent, hreason]
  exact .inOrder_cons (leads_handleToolCalls hnative phase) (.inOrder_cons (leads_finish reason _)
    (leads_finished (leads_usage_closed r) _))

/-- A chunk without deltas. -/
structure NoDelta (r : ChatCompletionResponse) : Prop where
  reasoning : reasoningText (deltaOf r) = []
  content : ∀ text, (deltaOf r).content = some (.string text) → text = []
  toolCalls : (deltaOf r).toolCalls = []
  finish : finishOf r = none

theorem build_eq {r : ChatCompletionResponse} (hnative : NoNative r) :
    buildClaudeStreamResponse r = (roleStart r).andThen (afterNative r) := by
  simp [buildClaudeStreamResponse, hnative.stop, hnative.redacted]

/-- A chunk behind the finish. -/
theorem leads_build_closed {r : ChatCompletionResponse} (hnative : NoNative r) (hdelta : NoDelta r) :
    Leads ClosedGoing (buildClaudeStreamResponse r) Closed := by
  have hrole : Leads ClosedGoing (roleStart r) ClosedGoing := by
    intro past c h
    rw [roleStart]
    split
    · simpa [Emit.skip] using h
    · rw [startMessage_of_sent h.1.sent, List.append_nil]
      exact h
  have hafter : Leads ClosedGoing (afterContent r) Closed := by
    rw [afterContent, handleToolCalls, if_pos hdelta.toolCalls, hdelta.finish]
    exact .inOrder_cons (.skip fun _ _ h => h) (.inOrder_cons (.skip fun _ _ h => h)
      (leads_usage_closed r))
  rw [build_eq hnative]
  refine hrole.andThen ?_
  rw [afterNative, hdelta.reasoning, hnative.signature]
  refine .inOrder_cons (.skip fun _ _ h => h) (.inOrder_cons (.skip fun _ _ h => h)
    (.inOrder_cons ?_ (.inOrder_nil fun _ _ h => h)))
  cases hcontent : (deltaOf r).content with
  | none => exact hafter
  | some content =>
      cases content with
      | other => exact .skip fun _ _ h => h.1
      | string text =>
          rw [hdelta.content text hcontent]
          exact .andThen (.skip fun _ _ h => h) hafter

/-! ### Streams -/

theorem leads_handleDone (order : KeyOrder) :
    Leads Closed (handleDone order) (fun past _ => WellFormed past) := by
  rintro past c ⟨hsent, ⟨m, hm, hended, hopened⟩, hpending, hblocks, htools⟩
  have hremaining : stopAllRemaining order c = (c, []) := by
    rw [stopAllRemaining]
    generalize order.visit c.sortedIndices = indices
    induction indices with
    | nil => rfl
    | cons index indices ih =>
        have hsame : stopRemaining index c = (c, []) := by
          cases hget : c.toolCallStates.get index with
          | none => rw [stopRemaining, withTool_of_none hget]
          | some t =>
              rw [stopRemaining, withTool_of_get hget, if_neg (by simp [htools index t hget])]
              rfl
        rw [each_cons, andThen, hsame]
        simp [ih]
  have hevents : (handleDone order c).2 =
      (if c.pendingStopReason.isSome then [.messageDelta c.pendingStopReason none] else []) ++
        if c.messageStopSent then [] else [.messageStop] := by
    rw [handleDone, inOrder, inOrder, inOrder, andThen, closeBlock_of_closed (hblocks .thinking), andThen,
      closeBlock_of_closed (hblocks .text), andThen, hremaining]
    cases hreason : c.pendingStopReason <;> cases hstop : c.messageStopSent <;>
      simp [inOrder, andThen, Emit.onlyIf, Emit.update, Emit.emit, Emit.skip, hreason, hstop, hsent]
  rw [hevents]
  cases hstop : c.messageStopSent with
  | true =>
      rw [hpending hstop]
      simpa using wellFormed_of_progress hm hopened
  | false =>
      rw [hstop] at hended
      have hprogress : ∀ reason, Progress.of (past ++ ([.messageDelta reason none] ++ [.messageStop])) =
          some { m with ended := true } := by
        intro reason
        rw [Progress.of_more hm]
        simp [Progress.step, hended, hopened]
      cases hreason : c.pendingStopReason with
      | none =>
          refine wellFormed_of_progress (m := { m with ended := true }) ?_ hopened
          rw [Progress.of_more hm]
          simp [Progress.step, hended, hopened]
      | some reason => exact wellFormed_of_progress (hprogress (some reason)) hopened

/-- No event has been sent. -/
def Fresh (past : List StreamEvent) (c : Converter) : Prop := past = [] ∧ c = {}

theorem leads_roleStart {r : ChatCompletionResponse} (hrole : (deltaOf r).role ≠ []) :
    Leads Fresh (roleStart r) (TracksOr (some (.block none))) := by
  rintro past c ⟨rfl, rfl⟩
  rw [roleStart, if_neg hrole]
  refine ⟨⟨rfl, rfl, rfl, {}, rfl, rfl, le_rfl, rfl⟩, fun _ => rfl, fun _ => rfl, rfl⟩

theorem leads_roleStart_tracksOr (r : ChatCompletionResponse) (phase : Option Phase) :
    Leads (TracksOr phase) (roleStart r) (TracksOr phase) := by
  rw [roleStart]
  split
  · exact .skip fun _ _ h => h
  · exact leads_startMessage r phase

/-- A stream of OpenAI: chunks with deltas, the first with a role; a chunk with the finish
reason, which may bring deltas too; and chunks without deltas, such as the one with the
usage. -/
structure OpenAIStream (deltas : List ChatCompletionResponse) (last : ChatCompletionResponse)
    (trailing : List ChatCompletionResponse) : Prop where
  native : ∀ r ∈ deltas ++ last :: trailing, NoNative r
  role : ∀ r ∈ (deltas ++ [last]).head?, (deltaOf r).role ≠ []
  going : ∀ r ∈ deltas, finishOf r = none
  finish : finishOf last ≠ none
  content : (deltaOf last).content ≠ some .other
  trailing : ∀ r ∈ trailing, NoDelta r

section

variable (unmarshal : GoString → Option ChatCompletionResponse) (order : KeyOrder)

/-- The data is the text of the chunk. -/
def Decodes (data : GoString) (r : ChatCompletionResponse) : Prop :=
  data ≠ bytes "[DONE]" ∧ unmarshal data = some r

instance (data : GoString) (r : ChatCompletionResponse) : Decidable (Decodes unmarshal data r) :=
  inferInstanceAs (Decidable (_ ∧ _))

variable {unmarshal}

theorem handleData_done : handleData unmarshal order (bytes "[DONE]") = handleDone order :=
  if_pos rfl

theorem handleData_of_decodes {data : GoString} {r : ChatCompletionResponse}
    (h : Decodes unmarshal data r) :
    handleData unmarshal order data =
      Emit.onlyIf (fun c => !c.messageStopSent) (buildClaudeStreamResponse r) := by
  rw [handleData, if_neg h.1, h.2]

/-- The data of a chunk, where the message has not been stopped. -/
theorem leads_handleData {P Q : List StreamEvent → Converter → Prop} {data : GoString}
    {r : ChatCompletionResponse} (h : Decodes unmarshal data r)
    (hgoing : ∀ past c, P past c → c.messageStopSent = false)
    (hQ : Leads P (buildClaudeStreamResponse r) Q) : Leads P (handleData unmarshal order data) Q := by
  rw [handleData_of_decodes order h]
  refine .onlyIf (fun past c hpast => hQ past c hpast.1) ?_
  intro past c hpast hstop
  rw [hgoing past c hpast] at hstop
  cases hstop

theorem Tracks.going {phase : Phase} (h : Tracks phase past c) : c.messageStopSent = false := by
  obtain ⟨opened, hopened⟩ := Tracks.at_some h
  exact hopened.going

/-- The chunks before the finish. -/
theorem leads_deltas {datas : List GoString} {deltas : List ChatCompletionResponse}
    (h : List.Forall₂ (Decodes unmarshal) datas deltas) (hnative : ∀ r ∈ deltas, NoNative r)
    (hgoing : ∀ r ∈ deltas, finishOf r = none) (phase : Option Phase) :
    Leads (TracksOr phase) (Emit.each (handleData unmarshal order) datas)
      (TracksOr (Phase.after (deltas.flatMap pieces) phase)) := by
  induction h generalizing phase with
  | nil => exact .skip fun _ _ h => h
  | @cons data r datas deltas hdata _ ih =>
      rw [each_cons, List.flatMap_cons, after_append]
      refine .andThen ?_ (ih (fun r hr => hnative r (List.mem_cons_of_mem _ hr))
        (fun r hr => hgoing r (List.mem_cons_of_mem _ hr)) _)
      cases phase with
      | none =>
          rw [Phase.after_none]
          exact leads_overlap _
      | some phase =>
          refine leads_handleData order hdata (fun past c h => Tracks.going h) ?_
          rw [build_eq (hnative r List.mem_cons_self)]
          exact (leads_roleStart_tracksOr r (some phase)).andThen
            (leads_afterNative_tracksOr (hnative r List.mem_cons_self) (hgoing r List.mem_cons_self) _)

/-- The chunk with the finish reason. -/
theorem leads_last {data : GoString} {last : ChatCompletionResponse}
    (h : Decodes unmarshal data last) (hnative : NoNative last) (hfinish : finishOf last ≠ none)
    (hcontent : (deltaOf last).content ≠ some .other) (phase : Option Phase) :
    Leads (TracksOr phase) (handleData unmarshal order data)
      (Finished Closed (Phase.after (pieces last) phase)) := by
  cases phase with
  | none =>
      rw [Phase.after_none]
      exact leads_overlap _
  | some phase =>
      refine leads_handleData order h (fun past c h => Tracks.going h) ?_
      rw [build_eq hnative]
      exact (leads_roleStart_tracksOr last (some phase)).andThen
        (leads_afterNative_finished hnative hfinish hcontent _)

/-- The chunks behind the finish. -/
theorem leads_trailing {datas : List GoString} {trailing : List ChatCompletionResponse}
    (h : List.Forall₂ (Decodes unmarshal) datas trailing) (hnative : ∀ r ∈ trailing, NoNative r)
    (hdelta : ∀ r ∈ trailing, NoDelta r) :
    Leads Closed (Emit.each (handleData unmarshal order) datas) Closed := by
  induction h with
  | nil => exact .skip fun _ _ h => h
  | @cons data r datas trailing hdata _ ih =>
      refine .andThen ?_ (ih (fun r hr => hnative r (List.mem_cons_of_mem _ hr))
        (fun r hr => hdelta r (List.mem_cons_of_mem _ hr)))
      rw [handleData_of_decodes order hdata]
      refine .onlyIf ?_ fun past c h _ => h
      rintro past c ⟨hclosed, hgoing⟩
      exact leads_build_closed (hnative r List.mem_cons_self) (hdelta r List.mem_cons_self) past c
        ⟨hclosed, by simpa using hgoing⟩

/-- The chunks up to the finish. -/
theorem leads_upToLast {datas : List GoString} {data : GoString}
    {deltas : List ChatCompletionResponse} {last : ChatCompletionResponse}
    (hdatas : List.Forall₂ (Decodes unmarshal) datas deltas) (hdata : Decodes unmarshal data last)
    {trailing : List ChatCompletionResponse} (hstream : OpenAIStream deltas last trailing) :
    Leads Fresh ((Emit.each (handleData unmarshal order) datas).andThen
        (handleData unmarshal order data))
      (Finished Closed (Phase.after ((deltas ++ [last]).flatMap pieces) (some (.block none)))) := by
  have hgoing : ∀ past c, Fresh past c → c.messageStopSent = false := by
    rintro past c ⟨-, rfl⟩
    rfl
  have hlast : NoNative last := hstream.native last (by simp)
  rw [List.flatMap_append, after_append, List.flatMap_singleton]
  cases hdatas with
  | nil =>
      refine .andThen (.skip fun _ _ h => h) (leads_handleData order hdata hgoing ?_)
      rw [build_eq hlast]
      exact (leads_roleStart (hstream.role last (by simp))).andThen
        (leads_afterNative_finished hlast hstream.finish hstream.content _)
  | @cons first r datas deltas hfirst hrest =>
      have hr : NoNative r := hstream.native r (by simp)
      rw [each_cons, andThen_assoc, List.flatMap_cons, after_append]
      refine .andThen (leads_handleData order hfirst hgoing ?_) (.andThen
        (leads_deltas order hrest (fun r' hr' => hstream.native r' (by simp [hr']))
          (fun r' hr' => hstream.going r' (by simp [hr'])) _)
        (leads_last order hdata hlast hstream.finish hstream.content _))
      rw [build_eq hr]
      exact (leads_roleStart (hstream.role r (by simp))).andThen
        (leads_afterNative_tracksOr hr (hstream.going r (by simp)) _)

end

theorem not_wellFormed_of_overlap (h : Overlap past) : ¬WellFormed past := by
  obtain ⟨before, hbefore, htwo⟩ := h
  intro hwell
  have := hwell.one_open before hbefore
  omega

/-- The block discipline of a converted stream, in callbacks that end between events. The
events are well formed if and only if the pieces of the stream are in order: no reasoning
behind content, no reasoning or content behind a tool call, and one tool call only. -/
theorem convertStream_wellFormed_iff (unmarshal : GoString → Option ChatCompletionResponse)
    (unify : GoString → GoString) (hunify : ∀ s, 13 ∉ s → unify s = s) (order : KeyOrder)
    (callbacks : List (List GoString))
    (hlines : ∀ datas ∈ callbacks, ∀ data ∈ datas, ∀ b ∈ data, b ≠ 10 ∧ b ≠ 13)
    (datas : List GoString) (hcallbacks : callbacks.flatten = datas ++ [bytes "[DONE]"])
    (deltas : List ChatCompletionResponse) (last : ChatCompletionResponse)
    (trailing : List ChatCompletionResponse)
    (hdatas : List.Forall₂ (Decodes unmarshal) datas (deltas ++ last :: trailing))
    (hstream : OpenAIStream deltas last trailing) :
    ∃ events, convertStream unmarshal unify order ({}, {})
        (callbacks.map fun datas => (datas.map dataEvent).flatten) = some events ∧
      (WellFormed events ↔ ((deltas ++ [last]).flatMap pieces).Pairwise Piece.InOrder) := by
  have hbetween : Between {} := ⟨rfl, .framing rfl rfl (Nat.zero_le _) rfl⟩
  refine ⟨_, convertStream_between unmarshal order hunify callbacks hlines hbetween {}, ?_⟩
  -- the data up to the finish and behind it
  obtain ⟨data, behind, hdata, hbehind, hdrop⟩ :=
    List.forall₂_cons_right_iff.mp (List.forall₂_drop_append _ _ _ hdatas)
  obtain ⟨before, hbefore, rfl⟩ : ∃ before, List.Forall₂ (Decodes unmarshal) before deltas ∧
      datas = before ++ data :: behind :=
    ⟨_, List.forall₂_take_append _ _ _ hdatas, by rw [← hdrop, List.take_append_drop]⟩
  have hrun : Emit.each (handleData unmarshal order) callbacks.flatten =
      (((Emit.each (handleData unmarshal order) before).andThen
        (handleData unmarshal order data)).andThen
          (Emit.each (handleData unmarshal order) behind)).andThen (handleDone order) := by
    rw [hcallbacks, each_append, each_append, each_cons, each_cons, each_nil, andThen_skip,
      ← andThen_assoc, handleData_done]
  have hpast := ((leads_upToLast order hbefore hdata hstream).andThen (leads_finished
    (leads_trailing order hbehind (fun r hr => hstream.native r (by simp [hr])) hstream.trailing) _))
    [] {} ⟨rfl, rfl⟩
  rw [hrun]
  generalize ((Emit.each (handleData unmarshal order) before).andThen
    (handleData unmarshal order data)).andThen
      (Emit.each (handleData unmarshal order) behind) = run at hpast ⊢
  rw [List.nil_append] at hpast
  have hiff := Phase.after_iff ((deltas ++ [last]).flatMap pieces) (.block none) rfl
  simp only [Phase.Allows, reduceCtorEq, false_imp_iff, implies_true, true_and] at hiff
  rw [← hiff]
  have hevents : (run.andThen (handleDone order) {}).2 = (run {}).2 ++ (handleDone order (run {}).1).2 :=
    rfl
  rw [hevents]
  cases hafter : Phase.after ((deltas ++ [last]).flatMap pieces) (some (.block none)) with
  | none =>
      rw [hafter] at hpast
      exact iff_of_false (not_wellFormed_of_overlap (hpast.append _)) (by simp)
  | some phase =>
      rw [hafter, Finished] at hpast
      cases hwaits : phase.waits with
      | true =>
          rw [if_pos hwaits] at hpast
          exact iff_of_false (not_wellFormed_of_overlap (hpast.append _)) (by simp [hwaits])
      | false =>
          rw [if_neg (by simp [hwaits])] at hpast
          exact iff_of_true (leads_handleDone order _ _ hpast) ⟨phase, rfl, hwaits⟩

/-- Data without line endings. -/
theorem lines_of_notMem {callbacks : List (List GoString)}
    (h : ∀ datas ∈ callbacks, ∀ data ∈ datas, 10 ∉ data ∧ 13 ∉ data) :
    ∀ datas ∈ callbacks, ∀ data ∈ datas, ∀ b ∈ data, b ≠ 10 ∧ b ≠ 13 := by
  intro datas hdatas data hdata b hb
  obtain ⟨hlf, hcr⟩ := h datas hdatas data hdata
  exact ⟨ne_of_mem_of_not_mem hb hlf, ne_of_mem_of_not_mem hb hcr⟩

/-- A delta, as a chunk. -/
def deltaChunk (d : ChatMessage) : ChatCompletionResponse := { choices := [{ delta := some d }] }

/-- Texts of chunks, with what they are decoded to. -/
def sampleChunks : List (GoString × ChatCompletionResponse) :=
  [(bytes "\x7b\"choices\":[\x7b\"delta\":\x7b\"role\":\"assistant\"\x7d\x7d]\x7d",
    deltaChunk { role := bytes "assistant" }),
  (bytes "\x7b\"choices\":[\x7b\"delta\":\x7b\"content\":\"x\"\x7d\x7d]\x7d",
    deltaChunk { content := some (.string (bytes "x")) }),
  (bytes ("\x7b\"choices\":[\x7b\"delta\":\x7b\"tool_calls\":[\x7b\"index\":0,\"id\":\"a\"," ++
      "\"function\":\x7b\"name\":\"f\"\x7d\x7d]\x7d\x7d]\x7d"),
    deltaChunk
      { toolCalls := [{ index := 0, id := bytes "a", function := { name := bytes "f" } }] }),
  (bytes ("\x7b\"choices\":[\x7b\"delta\":\x7b\"tool_calls\":[\x7b\"index\":1,\"id\":\"b\"," ++
      "\"function\":\x7b\"name\":\"g\"\x7d\x7d]\x7d\x7d]\x7d"),
    deltaChunk
      { toolCalls := [{ index := 1, id := bytes "b", function := { name := bytes "g" } }] }),
  (bytes "\x7b\"choices\":[\x7b\"finish_reason\":\"stop\"\x7d]\x7d",
    { choices := [{ finishReason := some (bytes "stop") }] }),
  (bytes "\x7b\"choices\":[],\"usage\":\x7b\"completion_tokens\":1\x7d\x7d",
    { usage := some { completionTokens := 1 } })]

/-- The data and the chunk of a sample. -/
def sampleData (i : ℕ) : GoString := (sampleChunks.getD i ([], {})).1

def sampleChunk (i : ℕ) : ChatCompletionResponse := (sampleChunks.getD i ([], {})).2

def sampleOrder : KeyOrder := ⟨id, fun keys => .refl keys⟩

theorem sample_native (i : ℕ) (hi : i < 6) : NoNative (sampleChunk i) := by
  interval_cases i <;> exact ⟨rfl, rfl, rfl, rfl⟩

theorem sample_trailing : ∀ r ∈ [sampleChunk 5], NoDelta r := by
  intro r hr
  obtain rfl := List.mem_singleton.mp hr
  refine ⟨rfl, ?_, rfl, rfl⟩
  rintro text htext
  exact (Content.string.inj (Option.some.inj htext)).symm

/-- A stream of one text in two callbacks. -/
theorem convertStream_sample_wellFormed :
    ∃ events, convertStream (fun data => sampleChunks.lookup data) id sampleOrder ({}, {})
        ([[sampleData 0, sampleData 1], [sampleData 4, sampleData 5, bytes "[DONE]"]].map
          fun datas => (datas.map dataEvent).flatten) = some events ∧ WellFormed events := by
  obtain ⟨events, hevents, hiff⟩ := convertStream_wellFormed_iff
    (fun data => sampleChunks.lookup data) id (fun _ _ => rfl) sampleOrder
    [[sampleData 0, sampleData 1], [sampleData 4, sampleData 5, bytes "[DONE]"]]
    (lines_of_notMem (by decide))
    [sampleData 0, sampleData 1, sampleData 4, sampleData 5] rfl
    [sampleChunk 0, sampleChunk 1] (sampleChunk 4) [sampleChunk 5]
    (.cons (by decide) (.cons (by decide) (.cons (by decide)
      (.cons (by decide) .nil))))
    { native := by
        intro r hr
        simp only [List.cons_append, List.nil_append, List.mem_cons, List.not_mem_nil, or_false] at hr
        rcases hr with rfl | rfl | rfl | rfl <;> exact sample_native _ (by decide)
      role := by decide
      going := by decide
      finish := by decide
      content := by decide
      trailing := sample_trailing }
  exact ⟨events, hevents, hiff.mpr (by decide)⟩

/-- A stream with two tool calls: at the finish the second is started before the first is
stopped. -/
theorem not_wellFormed_two_tools :
    OpenAIStream [sampleChunk 0, sampleChunk 2, sampleChunk 3] (sampleChunk 4) [sampleChunk 5] ∧
    ∃ events, convertStream (fun data => sampleChunks.lookup data) id sampleOrder ({}, {})
        ([[sampleData 0, sampleData 2, sampleData 3], [sampleData 4, sampleData 5, bytes "[DONE]"]].map
          fun datas => (datas.map dataEvent).flatten) = some events ∧
      openBlocks (events.take 3) = [0, 1] ∧ ¬WellFormed events := by
  constructor
  · exact
      { native := by
          intro r hr
          simp only [List.cons_append, List.nil_append, List.mem_cons, List.not_mem_nil, or_false] at hr
          rcases hr with rfl | rfl | rfl | rfl | rfl <;> exact sample_native _ (by decide)
        role := by decide
        going := by decide
        finish := by decide
        content := by decide
        trailing := sample_trailing }
  · refine ⟨[.messageStart ⟨[], [], {}⟩, .contentBlockStart 0 (.toolUse (bytes "a") (bytes "f")),
      .contentBlockStart 1 (.toolUse (bytes "b") (bytes "g")), .contentBlockStop 0,
      .contentBlockStop 1, .messageDelta (some (bytes "end_turn")) (some { outputTokens := 1 }),
      .messageStop], ?_, by decide +kernel, ?_⟩
    · have hbetween : Between {} := ⟨rfl, .framing rfl rfl (Nat.zero_le _) rfl⟩
      refine (convertStream_between (fun data => sampleChunks.lookup data) sampleOrder
        (fun _ _ => rfl)
        [[sampleData 0, sampleData 2, sampleData 3], [sampleData 4, sampleData 5, bytes "[DONE]"]]
        (lines_of_notMem (by decide +kernel)) hbetween {}).trans (congrArg some ?_)
      decide +kernel
    intro hwell
    have hone := hwell.one_open _ (List.take_prefix 3 _)
    revert hone
    decide

end Converter

end Higress.AiProxy
