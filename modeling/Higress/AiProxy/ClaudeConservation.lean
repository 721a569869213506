import Mathlib
import Higress.AiProxy.ClaudeBlocks

/-!
The Claude events that a stream of OpenAI chunks is converted to carry the text, the
reasoning and the arguments of the tool calls of the stream, nothing lost and nothing
twice. The arguments of a tool call that waits are kept until its block is started.
-/

namespace Higress.AiProxy

open Lib

/-! ### What events carry -/

def StreamEvent.text : StreamEvent → GoString
  | contentBlockDelta _ (.text text) => text
  | _ => []

def StreamEvent.thinking : StreamEvent → GoString
  | contentBlockDelta _ (.thinking thinking) => thinking
  | _ => []

/-- The fragment of the input of a block. -/
def StreamEvent.json (index : ℤ) : StreamEvent → GoString
  | contentBlockDelta i (.inputJson fragment) => if i = index then fragment else []
  | _ => []

/-- The texts of all `text_delta`. -/
def textOf (events : List StreamEvent) : GoString := events.flatMap StreamEvent.text

/-- The texts of all `thinking_delta`. -/
def thinkingOf (events : List StreamEvent) : GoString := events.flatMap StreamEvent.thinking

/-- The fragments of all `input_json_delta` of a block. -/
def jsonAt (index : ℤ) (events : List StreamEvent) : GoString :=
  events.flatMap (StreamEvent.json index)

/-- The indexes of the blocks that were started. -/
def starts (events : List StreamEvent) : List ℤ := events.filterMap StreamEvent.startIndex

/-- The event neither starts a block nor is a delta. -/
def StreamEvent.isQuiet : StreamEvent → Bool
  | contentBlockStart _ _ => false
  | contentBlockDelta _ _ => false
  | _ => true

section Append

variable (index : ℤ) (past more : List StreamEvent)

@[simp] theorem textOf_append : textOf (past ++ more) = textOf past ++ textOf more :=
  List.flatMap_append

@[simp] theorem thinkingOf_append : thinkingOf (past ++ more) = thinkingOf past ++ thinkingOf more :=
  List.flatMap_append

@[simp] theorem jsonAt_append : jsonAt index (past ++ more) = jsonAt index past ++ jsonAt index more :=
  List.flatMap_append

@[simp] theorem starts_append : starts (past ++ more) = starts past ++ starts more :=
  List.filterMap_append

end Append

section Quiet

variable {events : List StreamEvent} (h : ∀ e ∈ events, e.isQuiet = true)

include h

theorem textOf_quiet : textOf events = [] := by
  refine List.flatMap_eq_nil_iff.mpr fun e he => ?_
  have := h e he
  cases e <;> first | rfl | cases this

theorem thinkingOf_quiet : thinkingOf events = [] := by
  refine List.flatMap_eq_nil_iff.mpr fun e he => ?_
  have := h e he
  cases e <;> first | rfl | cases this

theorem jsonAt_quiet (index : ℤ) : jsonAt index events = [] := by
  refine List.flatMap_eq_nil_iff.mpr fun e he => ?_
  have := h e he
  cases e <;> first | rfl | cases this

theorem starts_quiet : starts events = [] := by
  refine List.filterMap_eq_nil_iff.mpr fun e he => ?_
  have := h e he
  cases e <;> first | rfl | cases this

end Quiet

/-! ### What chunks carry -/

namespace Converter

/-- The content of the delta of a chunk. -/
def contentText (r : ChatCompletionResponse) : GoString :=
  match (deltaOf r).content with
  | some (.string text) => text
  | _ => []

/-- The arguments of the tool call with an index. -/
def argumentsOf (index : ℤ) (calls : List ToolCall) : GoString :=
  calls.flatMap fun call => if call.index = index then call.function.arguments else []

/-- What the converter has kept of a tool call. -/
structure ToolKept (calls : List ToolCall) (arguments : GoString) (past : List StreamEvent)
    (index : ℤ) (t : ToolCallInfo) : Prop where
  cached : t.cachedArguments = arguments
  named : ∃ call, calls.find? (·.index == index) = some call ∧ t.id = call.id ∧
    t.name = call.function.name
  sent : t.contentBlockStarted = true → jsonAt t.claudeContentIndex past = arguments ∧
    .contentBlockStart t.claudeContentIndex (.toolUse t.id t.name) ∈ past
  fresh : t.contentBlockStarted = false → t.hasClaudeIndex = false

/-- The events so far carry the text and the reasoning so far, and the arguments of the
tool calls that have been started; those of the others are cached. -/
structure Kept (text thinking : GoString) (calls : List ToolCall) (arguments : ℤ → GoString)
    (past : List StreamEvent) (c : Converter) : Prop where
  text : textOf past = text
  thinking : thinkingOf past = thinking
  nodup : (starts past).Nodup
  bound : ∀ i ∈ starts past, i < c.nextContentIndex
  unknown : ∀ index, c.toolCallStates.get index = none →
    index ∉ calls.map ToolCall.index ∧ arguments index = []
  known : ∀ index t, c.toolCallStates.get index = some t →
    ToolKept calls (arguments index) past index t
  distinct : ∀ i j t t', c.toolCallStates.get i = some t → c.toolCallStates.get j = some t' →
    t.contentBlockStarted = true → t'.contentBlockStarted = true →
    t.claudeContentIndex = t'.claudeContentIndex → i = j
  json : ∀ i, jsonAt i past ≠ [] → ∃ index t, c.toolCallStates.get index = some t ∧
    t.contentBlockStarted = true ∧ t.claudeContentIndex = i

variable {text thinking : GoString} {calls : List ToolCall} {arguments : ℤ → GoString}
  {past more : List StreamEvent} {c c' : Converter}

namespace Kept

/-- The block of a started tool call has been started. -/
theorem mem_starts (h : Kept text thinking calls arguments past c) {index : ℤ} {t : ToolCallInfo}
    (ht : c.toolCallStates.get index = some t) (hstarted : t.contentBlockStarted = true) :
    t.claudeContentIndex ∈ starts past :=
  List.mem_filterMap.mpr ⟨_, ((h.known index t ht).sent hstarted).2, rfl⟩

/-- The next index has no fragments yet. -/
theorem jsonAt_next (h : Kept text thinking calls arguments past c) :
    jsonAt c.nextContentIndex past = [] := by
  by_contra hne
  obtain ⟨index, t, ht, hstarted, hindex⟩ := h.json _ hne
  have := h.bound _ (h.mem_starts ht hstarted)
  omega

/-- Events that carry no input, with what they carry. -/
theorem append (h : Kept text thinking calls arguments past c)
    (htools : c'.toolCallStates = c.toolCallStates)
    (hjson : ∀ i, jsonAt i more = []) (hnodup : (starts past ++ starts more).Nodup)
    (hbound : ∀ i ∈ starts past ++ starts more, i < c'.nextContentIndex) :
    Kept (text ++ textOf more) (thinking ++ thinkingOf more) calls arguments (past ++ more) c' := by
  obtain ⟨htext, hthinking, -, -, hunknown, hknown, hdistinct, hpast⟩ := h
  refine ⟨by rw [textOf_append, htext], by rw [thinkingOf_append, hthinking], ?_, ?_, ?_, ?_, ?_, ?_⟩
  · rwa [starts_append]
  · rwa [starts_append]
  · rwa [htools]
  · intro index t ht
    rw [htools] at ht
    obtain ⟨hcached, hnamed, hsent, hfresh⟩ := hknown index t ht
    refine ⟨hcached, hnamed, fun hstarted => ?_, hfresh⟩
    obtain ⟨hargs, hstart⟩ := hsent hstarted
    rw [jsonAt_append, hjson, List.append_nil]
    exact ⟨hargs, List.mem_append_left _ hstart⟩
  · rwa [htools]
  · intro i hi
    rw [jsonAt_append, hjson, List.append_nil] at hi
    rw [htools]
    exact hpast i hi

/-- A delta without input. -/
theorem delta (h : Kept text thinking calls arguments past c) {e : StreamEvent}
    (hjson : ∀ i, e.json i = []) (hstart : e.startIndex = none) :
    Kept (text ++ e.text) (thinking ++ e.thinking) calls arguments (past ++ [e]) c := by
  have hstarts : starts [e] = [] := by simp [starts, hstart]
  have happend : Kept (text ++ textOf [e]) (thinking ++ thinkingOf [e]) calls arguments
      (past ++ [e]) c := h.append rfl (fun i => by simp [jsonAt, hjson])
    (by rw [hstarts, List.append_nil]; exact h.nodup)
    (by rw [hstarts, List.append_nil]; exact h.bound)
  simpa [textOf, thinkingOf] using happend

/-- The start of a block at the next index. -/
theorem start (h : Kept text thinking calls arguments past c) (block : ContentBlock)
    (htools : c'.toolCallStates = c.toolCallStates)
    (hnext : c'.nextContentIndex = c.nextContentIndex + 1) :
    Kept text thinking calls arguments
      (past ++ [.contentBlockStart c.nextContentIndex block]) c' := by
  have hstarts : starts [.contentBlockStart c.nextContentIndex block] = [c.nextContentIndex] := rfl
  have hnew : c.nextContentIndex ∉ starts past := fun hmem => lt_irrefl _ (h.bound _ hmem)
  have happend : Kept (text ++ textOf [.contentBlockStart c.nextContentIndex block])
      (thinking ++ thinkingOf [.contentBlockStart c.nextContentIndex block]) calls arguments
      (past ++ [.contentBlockStart c.nextContentIndex block]) c' := by
    refine h.append htools (fun _ => rfl) ?_ ?_
    · rw [hstarts, ← List.concat_eq_append]
      exact h.nodup.concat hnew
    · intro i hi
      rw [hnext]
      rw [hstarts] at hi
      rcases List.mem_append.mp hi with hi | hi
      · exact (h.bound i hi).trans (lt_add_one _)
      · rw [List.mem_singleton.mp hi]
        exact lt_add_one _
  simpa [textOf, thinkingOf, StreamEvent.text, StreamEvent.thinking] using happend

/-- Events that are neither starts nor deltas. -/
theorem quiet (h : Kept text thinking calls arguments past c)
    (htools : c'.toolCallStates = c.toolCallStates) (hnext : c'.nextContentIndex = c.nextContentIndex)
    (hquiet : ∀ e ∈ more, e.isQuiet = true) :
    Kept text thinking calls arguments (past ++ more) c' := by
  have hmore := h.append htools (jsonAt_quiet hquiet) (by simpa [starts_quiet hquiet] using h.nodup)
    (by simpa [starts_quiet hquiet, hnext] using h.bound)
  rwa [textOf_quiet hquiet, thinkingOf_quiet hquiet, List.append_nil, List.append_nil] at hmore

end Kept

/-- Before the finish: the tool call that has been started is the active one. -/
structure Before (text thinking : GoString) (calls : List ToolCall) (arguments : ℤ → GoString)
    (past : List StreamEvent) (c : Converter) : Prop where
  kept : Kept text thinking calls arguments past c
  going : c.messageStopSent = false
  pending : c.pendingStopReason = none
  active : ∀ index t, c.toolCallStates.get index = some t → t.contentBlockStarted = true →
    c.activeToolIndex = some index
  idle : c.activeToolIndex = none → ∀ index, c.toolCallStates.get index = none

/-! ### Text and reasoning -/

open Emit

/-- Closing blocks changes the blocks only. -/
theorem closeBlock_state (k : BlockKind) (c : Converter) :
    ∃ block, (closeBlock k c).1 = { c with block := block } := by
  cases h : (c.block k).isOpen with
  | false => exact ⟨c.block, by rw [closeBlock_of_closed h]⟩
  | true => exact ⟨_, by rw [closeBlock_of_open h]⟩

theorem closeBlocks_state (c : Converter) :
    ∃ block, ((closeBlock .thinking).andThen (closeBlock .text) c).1 = { c with block := block } := by
  obtain ⟨block, hthinking⟩ := closeBlock_state .thinking c
  obtain ⟨block', htext⟩ := closeBlock_state .text (closeBlock .thinking c).1
  exact ⟨block', by rw [andThen, htext, hthinking]⟩

theorem closeBlock_quiet (k : BlockKind) (c : Converter) :
    ∀ e ∈ (closeBlock k c).2, e.isQuiet = true := by
  cases h : (c.block k).isOpen with
  | false => simp [closeBlock_of_closed h]
  | true => simp [closeBlock_of_open h, StreamEvent.isQuiet]

theorem leads_closeBlock_kept (k : BlockKind) :
    Leads (Kept text thinking calls arguments) (closeBlock k) (Kept text thinking calls arguments) :=
  fun _ c h => by
    obtain ⟨block, hstate⟩ := closeBlock_state k c
    exact h.quiet (by rw [hstate]) (by rw [hstate]) (closeBlock_quiet k c)

theorem leads_closeBlocks_kept :
    Leads (Kept text thinking calls arguments) ((closeBlock .thinking).andThen (closeBlock .text))
      (Kept text thinking calls arguments) :=
  (leads_closeBlock_kept .thinking).andThen (leads_closeBlock_kept .text)

theorem leads_closeBlock_before (k : BlockKind) :
    Leads (Before text thinking calls arguments) (closeBlock k)
      (Before text thinking calls arguments) := by
  intro past c h
  have hkept := leads_closeBlock_kept k past c h.kept
  obtain ⟨block, hstate⟩ := closeBlock_state k c
  rw [hstate] at hkept ⊢
  exact ⟨hkept, h.going, h.pending, h.active, h.idle⟩

theorem leads_startMessage_before (r : ChatCompletionResponse) :
    Leads (Before text thinking calls arguments) (startMessage r)
      (Before text thinking calls arguments) := by
  intro past c h
  rw [startMessage, Emit.onlyIf]
  split
  · exact ⟨h.kept.quiet rfl rfl (by simp [Emit.andThen, Emit.update, Emit.emit, StreamEvent.isQuiet]),
      h.going, h.pending, h.active, h.idle⟩
  · simpa [Emit.skip] using h

theorem leads_openBlock_before (k : BlockKind) :
    Leads (Before text thinking calls arguments) (openBlock k none)
      (Before text thinking calls arguments) := by
  intro past c h
  cases hopen : (c.block k).isOpen with
  | true =>
      rw [openBlock_of_open hopen, List.append_nil]
      exact h
  | false =>
      rw [openBlock_of_closed hopen]
      exact ⟨h.kept.start (BlockKind.content k) rfl rfl, h.going, h.pending, h.active, h.idle⟩

theorem leads_sendText_before (s : GoString) :
    Leads (Before text thinking calls arguments) (sendDelta .text (.text s))
      (Before (text ++ s) thinking calls arguments) := by
  intro past c h
  have hdelta := h.kept.delta (e := .contentBlockDelta (c.block .text).index (.text s))
    (fun _ => rfl) rfl
  have hthinking : thinking ++ [] = thinking := List.append_nil thinking
  exact ⟨hthinking ▸ hdelta, h.going, h.pending, h.active, h.idle⟩

theorem leads_sendThinking_before (s : GoString) :
    Leads (Before text thinking calls arguments) (sendDelta .thinking (.thinking s))
      (Before text (thinking ++ s) calls arguments) := by
  intro past c h
  have hdelta := h.kept.delta (e := .contentBlockDelta (c.block .thinking).index (.thinking s))
    (fun _ => rfl) rfl
  have htext : text ++ [] = text := List.append_nil text
  exact ⟨htext ▸ hdelta, h.going, h.pending, h.active, h.idle⟩

theorem leads_sendReasoning_before (s : GoString) :
    Leads (Before text thinking calls arguments) (sendReasoning none s)
      (Before text (thinking ++ s) calls arguments) := by
  rw [sendReasoning]
  split
  · rename_i hnil
    rw [hnil, List.append_nil]
    exact .skip fun _ _ h => h
  · exact .inOrder_cons (leads_openBlock_before .thinking)
      (.inOrder_cons (leads_sendThinking_before s) (.inOrder_nil fun _ _ h => h))

theorem leads_sendContent_before (s : GoString) :
    Leads (Before text thinking calls arguments) (sendContent none s)
      (Before (text ++ s) thinking calls arguments) := by
  rw [sendContent]
  split
  · rename_i hnil
    rw [hnil, List.append_nil]
    exact .skip fun _ _ h => h
  · exact .inOrder_cons (leads_closeBlock_before .thinking)
      (.inOrder_cons (leads_openBlock_before .text)
        (.inOrder_cons (leads_sendText_before s) (.inOrder_nil fun _ _ h => h)))

/-! ### Tool calls -/

/-- The tool call has an id and a name. -/
def Announces (call : ToolCall) : Prop := call.id ≠ [] ∧ call.function.name ≠ []

section StartToolBlock

variable {index : ℤ} {t : ToolCallInfo} (hnew : t.hasClaudeIndex = false)

include hnew

theorem startToolBlock_events : (startToolBlock index t c).2 =
    .contentBlockStart c.nextContentIndex (.toolUse t.id t.name) ::
      if t.cachedArguments = [] then []
      else [.contentBlockDelta c.nextContentIndex (.inputJson t.cachedArguments)] := by
  simp [startToolBlock, allocate, hnew]

theorem startToolBlock_state : (startToolBlock index t c).1 =
    { setTool index { t with
        claudeContentIndex := c.nextContentIndex
        hasClaudeIndex := true
        contentBlockStarted := true } c with
      nextContentIndex := c.nextContentIndex + 1 } := by
  simp [startToolBlock, allocate, hnew]

theorem jsonAt_startToolBlock (i : ℤ) : jsonAt i (startToolBlock index t c).2 =
    if c.nextContentIndex = i then t.cachedArguments else [] := by
  rw [startToolBlock_events hnew]
  split
  · rename_i hnil
    simp [hnil, jsonAt, StreamEvent.json]
  · simp [jsonAt, StreamEvent.json]

theorem starts_startToolBlock : starts (startToolBlock index t c).2 = [c.nextContentIndex] := by
  rw [startToolBlock_events hnew]
  split <;> rfl

theorem textOf_startToolBlock : textOf (startToolBlock index t c).2 = [] := by
  rw [startToolBlock_events hnew]
  split <;> rfl

theorem thinkingOf_startToolBlock : thinkingOf (startToolBlock index t c).2 = [] := by
  rw [startToolBlock_events hnew]
  split <;> rfl

end StartToolBlock

/-- The start of the block of a tool call that waits, with the arguments so far. -/
theorem Kept.startTool (h : Kept text thinking calls arguments past c) {index : ℤ} {t : ToolCallInfo}
    (ht : c.toolCallStates.get index = some t) (hnot : t.contentBlockStarted = false) :
    Kept text thinking calls arguments (past ++ (startToolBlock index t c).2)
      (startToolBlock index t c).1 := by
  obtain ⟨hcached, hnamed, -, hfresh⟩ := h.known index t ht
  have hfresh := hfresh hnot
  have hnew : c.nextContentIndex ∉ starts past := fun hmem => lt_irrefl _ (h.bound _ hmem)
  have hget : ∀ i, (startToolBlock index t c).1.toolCallStates.get i =
      if i = index then some { t with
        claudeContentIndex := c.nextContentIndex
        hasClaudeIndex := true
        contentBlockStarted := true } else c.toolCallStates.get i := by
    intro i
    rw [startToolBlock_state hfresh, setTool, SortedMap.get_insert]
  refine ⟨?_, ?_, ?_, ?_, ?_, ?_, ?_, ?_⟩
  · rw [textOf_append, textOf_startToolBlock hfresh, List.append_nil, h.text]
  · rw [thinkingOf_append, thinkingOf_startToolBlock hfresh, List.append_nil, h.thinking]
  · rw [starts_append, starts_startToolBlock hfresh, ← List.concat_eq_append]
    exact h.nodup.concat hnew
  · intro i hi
    rw [starts_append, starts_startToolBlock hfresh] at hi
    rw [startToolBlock_state hfresh]
    rcases List.mem_append.mp hi with hi | hi
    · exact (h.bound i hi).trans (lt_add_one _)
    · rw [List.mem_singleton.mp hi]
      exact lt_add_one _
  · intro i hi
    rw [hget] at hi
    split at hi
    · cases hi
    · exact h.unknown i hi
  · intro i t' ht'
    rw [hget] at ht'
    split at ht'
    · rename_i hi
      obtain rfl := Option.some.inj ht'
      rw [hi]
      refine ⟨hcached, hnamed, fun _ => ⟨?_, ?_⟩, fun hfalse => by cases hfalse⟩
      · rw [jsonAt_append, jsonAt_startToolBlock hfresh, if_pos rfl, h.jsonAt_next, List.nil_append,
          hcached]
      · rw [startToolBlock_events hfresh]
        exact List.mem_append_right _ List.mem_cons_self
    · obtain ⟨hcached', hnamed', hsent', hfresh'⟩ := h.known i t' ht'
      refine ⟨hcached', hnamed', fun hstarted => ?_, hfresh'⟩
      have hne : c.nextContentIndex ≠ t'.claudeContentIndex := fun heq =>
        hnew (heq ▸ h.mem_starts ht' hstarted)
      rw [jsonAt_append, jsonAt_startToolBlock hfresh, if_neg hne, List.append_nil]
      exact ⟨(hsent' hstarted).1, List.mem_append_left _ (hsent' hstarted).2⟩
  · intro i j t₁ t₂ h₁ h₂ hs₁ hs₂ heq
    rw [hget] at h₁ h₂
    split at h₁ <;> split at h₂
    · rename_i hi hj
      rw [hi, hj]
    · obtain rfl := Option.some.inj h₁
      have hindex : c.nextContentIndex = t₂.claudeContentIndex := heq
      exact absurd (hindex ▸ h.mem_starts h₂ hs₂) hnew
    · obtain rfl := Option.some.inj h₂
      have hindex : t₁.claudeContentIndex = c.nextContentIndex := heq
      exact absurd (hindex ▸ h.mem_starts h₁ hs₁) hnew
    · exact h.distinct i j t₁ t₂ h₁ h₂ hs₁ hs₂ heq
  · intro i hi
    by_cases hnext : c.nextContentIndex = i
    · exact ⟨index, _, by rw [hget, if_pos rfl], rfl, hnext⟩
    · rw [jsonAt_append, jsonAt_startToolBlock hfresh, if_neg hnext, List.append_nil] at hi
      obtain ⟨j, t', ht', hstarted, hindex⟩ := h.json i hi
      have hj : j ≠ index := by
        rintro rfl
        rw [ht] at ht'
        obtain rfl := Option.some.inj ht'
        rw [hnot] at hstarted
        cases hstarted
      exact ⟨j, t', by rw [hget, if_neg hj, ht'], hstarted, hindex⟩

theorem startToolCall_eq (index : ℤ) (t : ToolCallInfo) :
    startToolCall index t =
      ((closeBlock .thinking).andThen (closeBlock .text)).andThen (startToolBlock index t) := by
  rw [startToolCall, inOrder, inOrder, inOrder, inOrder, andThen_skip, andThen_assoc]

theorem leads_startToolCall_kept {index : ℤ} {t : ToolCallInfo}
    (hnot : t.contentBlockStarted = false) :
    Leads (fun past c => Kept text thinking calls arguments past c ∧
        c.toolCallStates.get index = some t)
      (startToolCall index t) (Kept text thinking calls arguments) := by
  rw [startToolCall_eq]
  refine .andThen (Q := fun past c => Kept text thinking calls arguments past c ∧
    c.toolCallStates.get index = some t) ?_ fun past c h => h.1.startTool h.2 hnot
  rintro past c ⟨hkept, ht⟩
  obtain ⟨block, hstate⟩ := closeBlocks_state c
  exact ⟨leads_closeBlocks_kept past c hkept, by rw [hstate]; exact ht⟩

theorem startToolCall_state {index : ℤ} {t : ToolCallInfo} (hnew : t.hasClaudeIndex = false)
    (c : Converter) : ∃ block, (startToolCall index t c).1 =
      { setTool index { t with
          claudeContentIndex := c.nextContentIndex
          hasClaudeIndex := true
          contentBlockStarted := true } c with
        nextContentIndex := c.nextContentIndex + 1
        block := block } := by
  obtain ⟨block, hstate⟩ := closeBlocks_state c
  refine ⟨block, ?_⟩
  rw [startToolCall_eq, andThen, hstate, startToolBlock_state hnew]
  rfl

theorem ToolKept.snoc {args : GoString} {index : ℤ} {t : ToolCallInfo}
    (h : ToolKept calls args past index t) (call : ToolCall) :
    ToolKept (calls ++ [call]) args past index t := by
  obtain ⟨hcached, ⟨first, hfirst, hnamed⟩, hsent, hfresh⟩ := h
  exact ⟨hcached, ⟨first, by simp [List.find?_append, hfirst], hnamed⟩, hsent, hfresh⟩

/-- A further delta of a tool call that is known. -/
theorem Kept.again (h : Kept text thinking calls arguments past c) {call : ToolCall}
    (hknown : c.toolCallStates.get call.index ≠ none) :
    Kept text thinking (calls ++ [call]) arguments past c := by
  refine ⟨h.text, h.thinking, h.nodup, h.bound, ?_, fun index t ht => (h.known index t ht).snoc call,
    h.distinct, h.json⟩
  intro index hnone
  refine ⟨?_, (h.unknown index hnone).2⟩
  rw [List.map_append, List.mem_append, not_or]
  refine ⟨(h.unknown index hnone).1, ?_⟩
  rw [List.map_singleton, List.mem_singleton]
  rintro rfl
  exact hknown hnone

/-- The first delta of a tool call. -/
theorem Kept.learn (h : Kept text thinking calls arguments past c) {call : ToolCall}
    (hnone : c.toolCallStates.get call.index = none) :
    Kept text thinking (calls ++ [call]) arguments past
      (setTool call.index { id := call.id, name := call.function.name } c) := by
  obtain ⟨hnew, hargs⟩ := h.unknown call.index hnone
  have hget : ∀ i, (setTool call.index { id := call.id, name := call.function.name }
      c).toolCallStates.get i =
        if i = call.index then some { id := call.id, name := call.function.name }
        else c.toolCallStates.get i := fun i => SortedMap.get_insert _ _ _ _
  have hold : ∀ i t, (setTool call.index { id := call.id, name := call.function.name }
      c).toolCallStates.get i = some t → t.contentBlockStarted = true →
        c.toolCallStates.get i = some t := by
    intro i t ht hstarted
    rw [hget] at ht
    split at ht
    · obtain rfl := Option.some.inj ht
      cases hstarted
    · exact ht
  refine ⟨h.text, h.thinking, h.nodup, h.bound, ?_, ?_, ?_, ?_⟩
  · intro index hindex
    rw [hget] at hindex
    split at hindex
    · cases hindex
    · rename_i hne
      refine ⟨?_, (h.unknown index hindex).2⟩
      rw [List.map_append, List.mem_append, not_or, List.map_singleton, List.mem_singleton]
      exact ⟨(h.unknown index hindex).1, hne⟩
  · intro index t ht
    rw [hget] at ht
    split at ht
    · rename_i heq
      obtain rfl := Option.some.inj ht
      refine ⟨by rw [heq, hargs], ⟨call, ?_, rfl, rfl⟩, (fun hfalse => by cases hfalse), fun _ => rfl⟩
      have hfind : calls.find? (·.index == call.index) = none := by
        rw [List.find?_eq_none]
        intro other hother hsame
        exact hnew (List.mem_map.mpr ⟨other, hother, by simpa using hsame⟩)
      simp [List.find?_append, heq, hfind]
    · exact (h.known index t ht).snoc call
  · intro i j t t' ht ht' hs hs'
    exact h.distinct i j t t' (hold i t ht hs) (hold j t' ht' hs') hs hs'
  · intro i hi
    obtain ⟨index, t, ht, hstarted, hindex⟩ := h.json i hi
    have hne : index ≠ call.index := by
      rintro rfl
      rw [hnone] at ht
      cases ht
    exact ⟨index, t, by rw [hget, if_neg hne, ht], hstarted, hindex⟩

theorem leads_announceTool_before (call : ToolCall) :
    Leads (Before text thinking calls arguments) (announceTool none call)
      (Before text thinking (calls ++ [call]) arguments) := by
  rintro past c ⟨hkept, hgoing, hpending, hactive, hidle⟩
  cases hindex : c.activeToolIndex with
  | some index =>
      cases hget : c.toolCallStates.get call.index with
      | some t =>
          have hsame : announceTool none call c = (c, []) := by
            simp [announceTool, inOrder, andThen, Emit.onlyIf, Emit.skip, hget, hindex]
          rw [hsame, List.append_nil]
          exact ⟨hkept.again (by simp [hget]), hgoing, hpending, hactive, hidle⟩
      | none =>
          have hset : announceTool none call c =
              (setTool call.index { id := call.id, name := call.function.name } c, []) := by
            simp [announceTool, inOrder, andThen, Emit.onlyIf, Emit.update, Emit.skip, hget, hindex,
              setTool]
          rw [hset, List.append_nil]
          refine ⟨hkept.learn hget, hgoing, hpending, ?_, ?_⟩
          · intro i t ht hstarted
            rw [setTool, SortedMap.get_insert] at ht
            split at ht
            · obtain rfl := Option.some.inj ht
              cases hstarted
            · exact hactive i t ht hstarted
          · intro hnone
            rw [setTool, hindex] at hnone
            cases hnone
  | none =>
      -- the tool call becomes the active one and is started
      have hnone := hidle hindex
      let t : ToolCallInfo := { id := call.id, name := call.function.name }
      let c₁ : Converter := { setTool call.index t c with activeToolIndex := some call.index }
      have hget : c₁.toolCallStates.get call.index = some t := by simp [c₁, setTool]
      have hannounce : announceTool none call c = startToolCall call.index t c₁ := by
        rw [← withTool_of_get hget (startToolCall call.index)]
        simp [announceTool, inOrder, andThen, Emit.onlyIf, Emit.update, Emit.skip, hnone, hindex, setTool,
          c₁, t]
      have hlearn := hkept.learn (hnone call.index)
      have hkept₁ : Kept text thinking (calls ++ [call]) arguments past c₁ :=
        ⟨hlearn.text, hlearn.thinking, hlearn.nodup, hlearn.bound, hlearn.unknown, hlearn.known,
          hlearn.distinct, hlearn.json⟩
      have hkept₂ := leads_startToolCall_kept rfl past c₁ ⟨hkept₁, hget⟩
      obtain ⟨block, hstate⟩ := @startToolCall_state call.index t rfl c₁
      rw [hannounce]
      refine ⟨hkept₂, ?_, ?_, ?_, ?_⟩
      · rw [hstate]
        exact hgoing
      · rw [hstate]
        exact hpending
      · intro i t' ht' hstarted
        rw [hstate] at ht' ⊢
        by_cases hi : i = call.index
        · rw [hi]
          rfl
        · simp only [setTool, SortedMap.get_insert, if_neg hi, c₁, hnone] at ht'
          cases ht'
      · rw [hstate]
        intro hfalse
        cases hfalse

/-- The arguments with those of one more delta. -/
def withArguments (arguments : ℤ → GoString) (call : ToolCall) (index : ℤ) : GoString :=
  arguments index ++ if call.index = index then call.function.arguments else []

/-- More arguments of a tool call. They are sent at once if its block has been started. -/
theorem Kept.addArguments (h : Kept text thinking calls arguments past c) {call : ToolCall}
    {t : ToolCallInfo} (ht : c.toolCallStates.get call.index = some t)
    (hmore : more = if t.contentBlockStarted then
      [.contentBlockDelta t.claudeContentIndex (.inputJson call.function.arguments)] else []) :
    Kept text thinking calls (withArguments arguments call) (past ++ more)
      (setTool call.index { t with
        cachedArguments := t.cachedArguments ++ call.function.arguments } c) := by
  have hget : ∀ i, (setTool call.index { t with
      cachedArguments := t.cachedArguments ++ call.function.arguments } c).toolCallStates.get i =
        if i = call.index then some { t with
          cachedArguments := t.cachedArguments ++ call.function.arguments }
        else c.toolCallStates.get i := fun i => SortedMap.get_insert _ _ _ _
  -- the fields that the arguments do not touch
  have hold : ∀ i t', (setTool call.index { t with
      cachedArguments := t.cachedArguments ++ call.function.arguments } c).toolCallStates.get i =
        some t' → ∃ t₀, c.toolCallStates.get i = some t₀ ∧
          t'.contentBlockStarted = t₀.contentBlockStarted ∧
          t'.claudeContentIndex = t₀.claudeContentIndex := by
    intro i t' ht'
    rw [hget] at ht'
    split at ht'
    · rename_i hi
      obtain rfl := Option.some.inj ht'
      exact ⟨t, hi ▸ ht, rfl, rfl⟩
    · exact ⟨t', ht', rfl, rfl⟩
  have hjson : ∀ i, jsonAt i more = if t.contentBlockStarted ∧ t.claudeContentIndex = i then
      call.function.arguments else [] := by
    intro i
    rw [hmore]
    cases t.contentBlockStarted <;> simp [jsonAt, StreamEvent.json]
  have hstarts : starts more = [] := by
    rw [hmore]
    split <;> rfl
  have htext : textOf more = [] := by
    rw [hmore]
    split <;> rfl
  have hthinking : thinkingOf more = [] := by
    rw [hmore]
    split <;> rfl
  refine ⟨?_, ?_, ?_, ?_, ?_, ?_, ?_, ?_⟩
  · rw [textOf_append, htext, List.append_nil, h.text]
  · rw [thinkingOf_append, hthinking, List.append_nil, h.thinking]
  · rw [starts_append, hstarts, List.append_nil]
    exact h.nodup
  · rw [starts_append, hstarts, List.append_nil]
    exact h.bound
  · intro i hi
    rw [hget] at hi
    split at hi
    · cases hi
    · rename_i hne
      refine ⟨(h.unknown i hi).1, ?_⟩
      rw [withArguments, if_neg (Ne.symm hne), (h.unknown i hi).2]
      rfl
  · intro i t' ht'
    rw [hget] at ht'
    split at ht'
    · rename_i hi
      obtain rfl := Option.some.inj ht'
      obtain ⟨hcached, hnamed, hsent, hfresh⟩ := h.known call.index t ht
      rw [hi, withArguments, if_pos rfl]
      refine ⟨by rw [hcached], hnamed, fun hstarted => ?_, hfresh⟩
      obtain ⟨hargs, hstart⟩ := hsent hstarted
      rw [jsonAt_append, hjson, if_pos ⟨hstarted, rfl⟩, hargs]
      exact ⟨rfl, List.mem_append_left _ hstart⟩
    · rename_i hi
      obtain ⟨hcached, hnamed, hsent, hfresh⟩ := h.known i t' ht'
      rw [withArguments, if_neg (Ne.symm hi), List.append_nil]
      refine ⟨hcached, hnamed, fun hstarted => ?_, hfresh⟩
      obtain ⟨hargs, hstart⟩ := hsent hstarted
      have hne : ¬(t.contentBlockStarted = true ∧ t.claudeContentIndex = t'.claudeContentIndex) :=
        fun hsame => hi (h.distinct _ _ t t' ht ht' hsame.1 hstarted hsame.2).symm
      rw [jsonAt_append, hjson, if_neg hne, List.append_nil]
      exact ⟨hargs, List.mem_append_left _ hstart⟩
  · intro i j t₁ t₂ h₁ h₂ hs₁ hs₂ heq
    obtain ⟨u₁, hu₁, hstarted₁, hindex₁⟩ := hold i t₁ h₁
    obtain ⟨u₂, hu₂, hstarted₂, hindex₂⟩ := hold j t₂ h₂
    exact h.distinct i j u₁ u₂ hu₁ hu₂ (hstarted₁ ▸ hs₁) (hstarted₂ ▸ hs₂)
      (hindex₁.symm.trans (heq.trans hindex₂))
  · intro i hi
    have hsome : ∃ index t', c.toolCallStates.get index = some t' ∧
        t'.contentBlockStarted = true ∧ t'.claudeContentIndex = i := by
      by_cases hpast : jsonAt i past = []
      · rw [jsonAt_append, hpast, List.nil_append, hjson] at hi
        split at hi
        · rename_i hcond
          exact ⟨call.index, t, ht, hcond.1, hcond.2⟩
        · exact absurd rfl hi
      · exact h.json i hpast
    obtain ⟨index, t', ht', hstarted, hindex⟩ := hsome
    by_cases hi : index = call.index
    · rw [hi, ht] at ht'
      obtain rfl := Option.some.inj ht'
      exact ⟨call.index, { t with cachedArguments := t.cachedArguments ++ call.function.arguments },
        by rw [hget, if_pos rfl], hstarted, hindex⟩
    · exact ⟨index, t', by rw [hget, if_neg hi, ht'], hstarted, hindex⟩

theorem leads_addArguments_before {call : ToolCall} :
    Leads (fun past c => Before text thinking calls arguments past c ∧
        c.toolCallStates.get call.index ≠ none)
      (addArguments call) (Before text thinking calls (withArguments arguments call)) := by
  rintro past c ⟨⟨hkept, hgoing, hpending, hactive, hidle⟩, hknown⟩
  obtain ⟨t, ht⟩ := Option.ne_none_iff_exists'.mp hknown
  have hcond : (c.activeToolIndex == some call.index && t.contentBlockStarted) =
      t.contentBlockStarted := by
    cases hstarted : t.contentBlockStarted with
    | false => simp
    | true => simp [hactive _ t ht hstarted]
  have hresult : addArguments call c =
      (setTool call.index { t with
        cachedArguments := t.cachedArguments ++ call.function.arguments } c,
      if t.contentBlockStarted then
        [.contentBlockDelta t.claudeContentIndex (.inputJson call.function.arguments)] else []) := by
    rw [addArguments, withTool_of_get ht]
    simp only [andThen, Emit.update, Emit.onlyIf, setTool, hcond, Emit.emit, Emit.skip]
    split <;> rfl
  rw [hresult]
  refine ⟨hkept.addArguments ht rfl, hgoing, hpending, ?_, ?_⟩
  · intro i t' ht' hstarted
    rw [setTool, SortedMap.get_insert] at ht'
    split at ht'
    · rename_i hi
      obtain rfl := Option.some.inj ht'
      rw [hi]
      exact hactive _ t ht hstarted
    · exact hactive i t' ht' hstarted
  · intro hnone
    have := hidle hnone call.index
    rw [ht] at this
    cases this

/-- The first delta of every tool call has an id and a name. -/
def FirstAnnounces (calls : List ToolCall) : Prop :=
  ∀ before call after, calls = before ++ call :: after →
    call.index ∉ before.map ToolCall.index → Announces call

theorem leads_handleToolCall_before {call : ToolCall}
    (hfirst : call.index ∉ calls.map ToolCall.index → Announces call) :
    Leads (Before text thinking calls arguments) (handleToolCall none call)
      (Before text thinking (calls ++ [call]) (withArguments arguments call)) := by
  have hannounce : Leads (Before text thinking calls arguments)
      (if call.id ≠ [] ∧ call.function.name ≠ [] then announceTool none call else .skip)
      (Before text thinking (calls ++ [call]) arguments) := by
    split
    · exact leads_announceTool_before call
    · rename_i hnot
      refine .skip fun past c h => ⟨h.kept.again fun hnone => ?_, h.going, h.pending, h.active, h.idle⟩
      exact hnot (hfirst (h.kept.unknown _ hnone).1)
  have hknown : ∀ past c, Before text thinking (calls ++ [call]) arguments past c →
      c.toolCallStates.get call.index ≠ none := fun past c h hnone =>
    (h.kept.unknown _ hnone).1 (by simp)
  refine hannounce.andThen ?_
  split
  · exact fun past c h => leads_addArguments_before past c ⟨h, hknown past c h⟩
  · rename_i hnil
    have hsame : withArguments arguments call = arguments := by
      funext index
      simp [withArguments, not_not.mp hnil]
    rw [hsame]
    exact .skip fun _ _ h => h

/-- The arguments of the calls so far. -/
theorem withArguments_argumentsOf (calls : List ToolCall) (call : ToolCall) :
    withArguments (argumentsOf · calls) call = (argumentsOf · (calls ++ [call])) := by
  funext index
  simp [withArguments, argumentsOf]

theorem leads_toolCalls_before {more : List ToolCall} (hfirst : FirstAnnounces (calls ++ more)) :
    Leads (Before text thinking calls (argumentsOf · calls)) (Emit.each (handleToolCall none) more)
      (Before text thinking (calls ++ more) (argumentsOf · (calls ++ more))) := by
  induction more generalizing calls with
  | nil =>
      rw [List.append_nil]
      exact .skip fun _ _ h => h
  | cons call more ih =>
      have hcall := @leads_handleToolCall_before text thinking calls (argumentsOf · calls) call
        (hfirst calls call more rfl)
      rw [withArguments_argumentsOf] at hcall
      have hassoc : calls ++ call :: more = calls ++ [call] ++ more := by simp
      rw [hassoc] at hfirst ⊢
      exact hcall.andThen (ih hfirst)

/-! ### Chunks and the finish -/

/-- The content of the chunk is a string or not set. -/
def TextContent (r : ChatCompletionResponse) : Prop := (deltaOf r).content ≠ some .other

theorem leads_handleToolCalls_before {r : ChatCompletionResponse} (hnative : NoNative r)
    (hfirst : FirstAnnounces (calls ++ (deltaOf r).toolCalls)) :
    Leads (Before text thinking calls (argumentsOf · calls)) (handleToolCalls r (deltaOf r))
      (Before text thinking (calls ++ (deltaOf r).toolCalls)
        (argumentsOf · (calls ++ (deltaOf r).toolCalls))) := by
  rw [handleToolCalls, hnative.index]
  split
  · rename_i hnil
    rw [hnil, List.append_nil]
    exact .skip fun _ _ h => h
  · exact (leads_startMessage_before r).andThen (leads_toolCalls_before hfirst)

theorem leads_handleUsage_before (u : Usage) :
    Leads (Before text thinking calls arguments) (handleUsage u)
      (Before text thinking calls arguments) := by
  intro past c h
  simp only [handleUsage, h.pending, Option.isSome_none, Bool.false_and, Bool.false_eq_true, if_false]
  exact ⟨h.kept.quiet rfl rfl (by simp [StreamEvent.isQuiet]), h.going, rfl, h.active, h.idle⟩

/-- A chunk up to its tool calls, and what follows them. -/
theorem leads_build_before {Q : List StreamEvent → Converter → Prop} {r : ChatCompletionResponse}
    (hnative : NoNative r) (hcontent : TextContent r)
    (hfirst : FirstAnnounces (calls ++ (deltaOf r).toolCalls))
    (hQ : Leads (Before (text ++ contentText r) (thinking ++ reasoningText (deltaOf r))
        (calls ++ (deltaOf r).toolCalls) (argumentsOf · (calls ++ (deltaOf r).toolCalls)))
      (inOrder
        [match finishOf r with
          | none => .skip
          | some reason => finish reason,
        match r.usage with
          | none => .skip
          | some u => handleUsage u]) Q) :
    Leads (Before text thinking calls (argumentsOf · calls)) (buildClaudeStreamResponse r) Q := by
  have hrole : Leads (Before text thinking calls (argumentsOf · calls)) (roleStart r)
      (Before text thinking calls (argumentsOf · calls)) := by
    rw [roleStart]
    split
    · exact .skip fun _ _ h => h
    · exact leads_startMessage_before r
  rw [build_eq hnative]
  refine hrole.andThen ?_
  rw [afterNative, hnative.index, hnative.signature]
  refine .inOrder_cons (leads_sendReasoning_before _) (.inOrder_cons (.skip fun _ _ h => h)
    (.inOrder_cons ?_ (.inOrder_nil fun _ _ h => h)))
  have hafter : ∀ text, Leads (Before text (thinking ++ reasoningText (deltaOf r)) calls
      (argumentsOf · calls)) (handleToolCalls r (deltaOf r)) _ := fun text =>
    leads_handleToolCalls_before hnative hfirst
  cases hcase : (deltaOf r).content with
  | none =>
      rw [contentText, hcase, List.append_nil] at hQ
      exact .inOrder_cons (hafter text) hQ
  | some content =>
      cases content with
      | other => exact absurd hcase hcontent
      | string s =>
          rw [contentText, hcase] at hQ
          exact .andThen (leads_sendContent_before s) (.inOrder_cons (hafter (text ++ s)) hQ)

/-- The events carry the text, the reasoning and the tool calls: each tool call has a block
of its own, which is started once, with its id and name, and gets its arguments. -/
structure Carried (text thinking : GoString) (calls : List ToolCall) (events : List StreamEvent) :
    Prop where
  text : textOf events = text
  thinking : thinkingOf events = thinking
  nodup : (starts events).Nodup
  tools : ∃ block : ℤ → ℤ,
    (∀ i ∈ calls.map ToolCall.index, ∀ j ∈ calls.map ToolCall.index, block i = block j → i = j) ∧
    (∀ i ∈ calls.map ToolCall.index, jsonAt (block i) events = argumentsOf i calls ∧
      ∃ call, calls.find? (·.index == i) = some call ∧
        .contentBlockStart (block i) (.toolUse call.id call.function.name) ∈ events) ∧
    ∀ i, jsonAt i events ≠ [] → ∃ j ∈ calls.map ToolCall.index, block j = i

theorem Carried.quiet (h : Carried text thinking calls past)
    (hquiet : ∀ e ∈ more, e.isQuiet = true) : Carried text thinking calls (past ++ more) := by
  obtain ⟨htext, hthinking, hnodup, block, hinj, hjson, hall⟩ := h
  refine ⟨?_, ?_, ?_, block, hinj, ?_, ?_⟩
  · rw [textOf_append, textOf_quiet hquiet, List.append_nil, htext]
  · rw [thinkingOf_append, thinkingOf_quiet hquiet, List.append_nil, hthinking]
  · rw [starts_append, starts_quiet hquiet, List.append_nil]
    exact hnodup
  · intro i hi
    obtain ⟨hargs, call, hcall, hstart⟩ := hjson i hi
    rw [jsonAt_append, jsonAt_quiet hquiet, List.append_nil]
    exact ⟨hargs, call, hcall, List.mem_append_left _ hstart⟩
  · intro i hi
    rw [jsonAt_append, jsonAt_quiet hquiet, List.append_nil] at hi
    exact hall i hi

/-- All tool calls have been started. -/
theorem Kept.carried (h : Kept text thinking calls (argumentsOf · calls) past c)
    (hall : ∀ index t, c.toolCallStates.get index = some t → t.contentBlockStarted = true) :
    Carried text thinking calls past := by
  have hknown : ∀ i ∈ calls.map ToolCall.index, ∃ t, c.toolCallStates.get i = some t := by
    intro i hi
    cases ht : c.toolCallStates.get i with
    | none => exact absurd hi (h.unknown i ht).1
    | some t => exact ⟨t, rfl⟩
  refine ⟨h.text, h.thinking, h.nodup,
    fun i => ((c.toolCallStates.get i).map (·.claudeContentIndex)).getD 0, ?_, ?_, ?_⟩
  · intro i hi j hj heq
    obtain ⟨t, ht⟩ := hknown i hi
    obtain ⟨t', ht'⟩ := hknown j hj
    refine h.distinct i j t t' ht ht' (hall i t ht) (hall j t' ht') ?_
    simpa [ht, ht'] using heq
  · intro i hi
    obtain ⟨t, ht⟩ := hknown i hi
    obtain ⟨-, ⟨call, hcall, hid, hname⟩, hsent, -⟩ := h.known i t ht
    obtain ⟨hargs, hstart⟩ := hsent (hall i t ht)
    rw [hid, hname] at hstart
    refine ⟨by simpa [ht] using hargs, call, hcall, by simpa [ht] using hstart⟩
  · intro i hi
    obtain ⟨index, t, ht, -, hindex⟩ := h.json i hi
    refine ⟨index, ?_, by simp [ht, hindex]⟩
    obtain ⟨call, hcall, -⟩ := (h.known index t ht).named
    refine List.mem_map.mpr ⟨call, List.mem_of_find?_eq_some hcall, ?_⟩
    simpa using List.find?_some hcall

/-- During the finish: the tool calls in `done` have been started. -/
structure Starting (keys : List ℤ) (text thinking : GoString) (calls : List ToolCall)
    (arguments : ℤ → GoString) (done : List ℤ) (past : List StreamEvent) (c : Converter) : Prop where
  kept : Kept text thinking calls arguments past c
  keys : ∀ index t, c.toolCallStates.get index = some t → index ∈ keys
  started : ∀ index ∈ done, ∀ t, c.toolCallStates.get index = some t → t.contentBlockStarted = true

theorem leads_startRemaining {keys done : List ℤ} (index : ℤ) :
    Leads (Starting keys text thinking calls arguments done) (startRemaining index)
      (Starting keys text thinking calls arguments (done ++ [index])) := by
  rintro past c ⟨hkept, hkeys, hstarted⟩
  cases ht : c.toolCallStates.get index with
  | none =>
      rw [startRemaining, withTool_of_none ht, List.append_nil]
      refine ⟨hkept, hkeys, ?_⟩
      intro i hi t ht'
      rcases List.mem_append.mp hi with hi | hi
      · exact hstarted i hi t ht'
      · rw [List.mem_singleton.mp hi, ht] at ht'
        cases ht'
  | some t =>
      cases hcase : t.contentBlockStarted with
      | true =>
          have hsame : startRemaining index c = (c, []) := by
            rw [startRemaining, withTool_of_get ht, if_pos hcase]
            rfl
          rw [hsame, List.append_nil]
          refine ⟨hkept, hkeys, ?_⟩
          intro i hi t' ht'
          rcases List.mem_append.mp hi with hi | hi
          · exact hstarted i hi t' ht'
          · rw [List.mem_singleton.mp hi, ht] at ht'
            exact Option.some.inj ht' ▸ hcase
      | false =>
          have hstart := leads_startToolCall_kept hcase past c ⟨hkept, ht⟩
          obtain ⟨block, hstate⟩ := startToolCall_state ((hkept.known index t ht).fresh hcase) c
          have hresult : startRemaining index c =
              ({ (startToolCall index t c).1 with activeToolIndex := none },
                (startToolCall index t c).2) := by
            rw [startRemaining, withTool_of_get ht, if_neg (by simp [hcase])]
            simp [andThen, Emit.update]
          have hget : ∀ i t', (startRemaining index c).1.toolCallStates.get i = some t' →
              (i = index ∧ t'.contentBlockStarted = true) ∨ c.toolCallStates.get i = some t' := by
            intro i t' ht'
            rw [hresult, hstate] at ht'
            simp only [setTool, SortedMap.get_insert] at ht'
            split at ht'
            · rename_i hi
              obtain rfl := Option.some.inj ht'
              exact .inl ⟨hi, rfl⟩
            · exact .inr ht'
          refine ⟨?_, ?_, ?_⟩
          · rw [hresult]
            exact ⟨hstart.text, hstart.thinking, hstart.nodup, hstart.bound, hstart.unknown,
              hstart.known, hstart.distinct, hstart.json⟩
          · intro i t' ht'
            rcases hget i t' ht' with ⟨rfl, -⟩ | hold
            · exact hkeys _ t ht
            · exact hkeys i t' hold
          · intro i hi t' ht'
            rcases hget i t' ht' with ⟨-, hs⟩ | hold
            · exact hs
            · rcases List.mem_append.mp hi with hi | hi
              · exact hstarted i hi t' hold
              · -- the tool call that was just started is not the old one
                rw [List.mem_singleton.mp hi] at ht'
                rw [hresult, hstate] at ht'
                simp only [setTool, SortedMap.get_insert, if_true] at ht'
                obtain rfl := Option.some.inj ht'
                rfl

theorem emits_stopTool (index : ℤ) : Emits (·.isQuiet = true) (stopTool index) := by
  intro c
  cases ht : c.toolCallStates.get index with
  | none => simp [stopTool, withTool_of_none ht]
  | some t =>
      rw [stopTool, withTool_of_get ht]
      split
      · exact Emits.andThen (.update _) (.emit (by simp [StreamEvent.isQuiet])) c
      · exact Emits.skip c

/-- From the finish on: all tool calls have been started. -/
structure Settled (text thinking : GoString) (calls : List ToolCall) (past : List StreamEvent)
    (c : Converter) : Prop where
  carried : Carried text thinking calls past
  started : ∀ index t, c.toolCallStates.get index = some t → t.contentBlockStarted = true

/-- A part that emits neither starts nor deltas and keeps the tool calls. -/
theorem leads_settled {x : Part} (hx : Emits (·.isQuiet = true) x)
    (htools : ∀ c, (x c).1.toolCallStates = c.toolCallStates) :
    Leads (Settled text thinking calls) x (Settled text thinking calls) :=
  fun _ c h => ⟨h.carried.quiet (hx c), by rw [htools]; exact h.started⟩

theorem leads_stopTool_settled (index : ℤ) :
    Leads (Settled text thinking calls) (stopTool index) (Settled text thinking calls) := by
  intro past c h
  refine ⟨h.carried.quiet (emits_stopTool index c), ?_⟩
  cases ht : c.toolCallStates.get index with
  | none =>
      rw [stopTool, withTool_of_none ht]
      exact h.started
  | some t =>
      rw [stopTool, withTool_of_get ht]
      split
      · intro i t' ht'
        simp only [andThen, Emit.update, Emit.emit, setTool, SortedMap.get_insert] at ht'
        split at ht'
        · obtain rfl := Option.some.inj ht'
          exact h.started index t ht
        · exact h.started i t' ht'
      · exact h.started

/-- The end of the finish. -/
theorem leads_afterStart (reason : GoString) :
    Leads (Settled text thinking calls)
      (inOrder [stopAllTools, .update fun c => { c with
        activeToolIndex := none
        pendingStopReason := some (openAIFinishReasonToClaude reason) }])
      (Settled text thinking calls) := by
  refine .inOrder_cons (Q := Settled text thinking calls) ?_ (.inOrder_cons
    (leads_settled (.update _) fun _ => rfl) (.inOrder_nil fun _ _ h => h))
  intro past c h
  exact Leads.each (P := fun _ => Settled text thinking calls) (g := fun (_ : Unit) _ => ())
    (fun index _ _ => leads_stopTool_settled index) () past c h

theorem leads_finish_before (reason : GoString) :
    Leads (Before text thinking calls (argumentsOf · calls)) (finish reason)
      (Settled text thinking calls) := by
  have hstart : Leads (Kept text thinking calls (argumentsOf · calls)) startAllRemaining
      (Settled text thinking calls) := by
    intro past c h
    have hstarting : Starting c.sortedIndices text thinking calls (argumentsOf · calls) [] past c :=
      ⟨h, fun index t ht => mem_sortedIndices.mpr ⟨t, ht⟩, by simp⟩
    have hdone := Leads.each (P := Starting c.sortedIndices text thinking calls (argumentsOf · calls))
      (g := fun done index => done ++ [index]) (l := c.sortedIndices)
      (fun index _ _ => leads_startRemaining index) [] past c hstarting
    have hfold : ∀ (l done : List ℤ), l.foldl (fun done index => done ++ [index]) done = done ++ l := by
      intro l
      induction l with
      | nil => simp
      | cons a l ih => simp [ih]
    rw [hfold, List.nil_append] at hdone
    refine ⟨hdone.kept.carried ?_, ?_⟩
    · exact fun index t ht => hdone.started index (hdone.keys index t ht) t ht
    · exact fun index t ht => hdone.started index (hdone.keys index t ht) t ht
  exact .inOrder_cons (fun past c h => leads_closeBlock_kept .thinking past c h.kept)
    (.inOrder_cons (leads_closeBlock_kept .text) (.inOrder_cons hstart (leads_afterStart reason)))

theorem leads_finish_settled (reason : GoString) :
    Leads (Settled text thinking calls) (finish reason) (Settled text thinking calls) := by
  have hclose : ∀ k, Leads (Settled text thinking calls) (closeBlock k)
      (Settled text thinking calls) := fun k => leads_settled (closeBlock_quiet k) (closeBlock_tools k)
  have hstart : Leads (Settled text thinking calls) startAllRemaining (Settled text thinking calls) := by
    intro past c h
    have hsame : ∀ l, Emit.each startRemaining l c = (c, []) := by
      intro l
      induction l with
      | nil => rfl
      | cons index l ih =>
          have hindex : startRemaining index c = (c, []) := by
            cases ht : c.toolCallStates.get index with
            | none => rw [startRemaining, withTool_of_none ht]
            | some t =>
                rw [startRemaining, withTool_of_get ht, if_pos (h.started index t ht)]
                rfl
          rw [each_cons, andThen, hindex]
          simp [ih]
    rw [startAllRemaining, hsame, List.append_nil]
    exact h
  exact .inOrder_cons (hclose .thinking) (.inOrder_cons (hclose .text)
    (.inOrder_cons hstart (leads_afterStart reason)))

theorem emits_handleUsage (u : Usage) : Emits (·.isQuiet = true) (handleUsage u) := by
  intro c
  rw [handleUsage]
  dsimp only
  split <;> simp [StreamEvent.isQuiet]

theorem leads_usage_settled (r : ChatCompletionResponse) :
    Leads (Settled text thinking calls) (inOrder [match r.usage with
      | none => .skip
      | some u => handleUsage u]) (Settled text thinking calls) := by
  refine .inOrder_cons ?_ (.inOrder_nil fun _ _ h => h)
  cases r.usage with
  | none => exact .skip fun _ _ h => h
  | some u =>
      refine leads_settled (emits_handleUsage u) fun c => ?_
      simp only [handleUsage]
      split <;> rfl

/-! ### Streams -/

/-- A chunk that brings no delta; it may repeat the finish reason. -/
structure Bare (r : ChatCompletionResponse) : Prop where
  reasoning : reasoningText (deltaOf r) = []
  content : ∀ text, (deltaOf r).content = some (.string text) → text = []
  toolCalls : (deltaOf r).toolCalls = []

theorem leads_build_settled {r : ChatCompletionResponse} (hnative : NoNative r) (hbare : Bare r) :
    Leads (Settled text thinking calls) (buildClaudeStreamResponse r)
      (Settled text thinking calls) := by
  have hrole : Leads (Settled text thinking calls) (roleStart r) (Settled text thinking calls) := by
    rw [roleStart]
    split
    · exact .skip fun _ _ h => h
    · refine leads_settled (.onlyIf (.andThen (.update _) (.emit (by simp [StreamEvent.isQuiet])))) ?_
      intro c
      rw [startMessage, Emit.onlyIf]
      split <;> rfl
  have hafter : Leads (Settled text thinking calls) (afterContent r) (Settled text thinking calls) := by
    rw [afterContent, handleToolCalls, if_pos hbare.toolCalls]
    refine .inOrder_cons (.skip fun _ _ h => h) (.inOrder_cons (Q := Settled text thinking calls) ?_
      (leads_usage_settled r))
    cases finishOf r with
    | none => exact .skip fun _ _ h => h
    | some reason => exact leads_finish_settled reason
  rw [build_eq hnative]
  refine hrole.andThen ?_
  rw [afterNative, hbare.reasoning, hnative.signature]
  refine .inOrder_cons (.skip fun _ _ h => h) (.inOrder_cons (.skip fun _ _ h => h)
    (.inOrder_cons ?_ (.inOrder_nil fun _ _ h => h)))
  cases hcontent : (deltaOf r).content with
  | none => exact hafter
  | some content =>
      cases content with
      | other => exact .skip fun _ _ h => h
      | string s =>
          rw [hbare.content s hcontent]
          exact .andThen (.skip fun _ _ h => h) hafter

theorem emits_handleDone (order : KeyOrder) : Emits (·.isQuiet = true) (handleDone order) := by
  refine Emits.inOrder ?_
  intro x hx
  simp only [List.mem_cons, List.not_mem_nil, or_false] at hx
  rcases hx with rfl | rfl | rfl | rfl | rfl | rfl
  · exact closeBlock_quiet .thinking
  · exact closeBlock_quiet .text
  · intro c
    refine Emits.each (fun index c => ?_) _ c
    cases ht : c.toolCallStates.get index with
    | none => simp [stopRemaining, withTool_of_none ht]
    | some t =>
        rw [stopRemaining, withTool_of_get ht]
        split
        · simp [Emit.emit, StreamEvent.isQuiet]
        · simp [Emit.skip]
  · exact .onlyIf (.andThen (.emit (by simp [StreamEvent.isQuiet])) (.update _))
  · exact .onlyIf (.andThen (.update _) (.emit (by simp [StreamEvent.isQuiet])))
  · exact .update _

/-- A stream whose content is text, whose tool calls start with their id and name, and
whose finish reason follows all deltas. The chunk with the finish reason may bring deltas
too. -/
structure TextStream (deltas : List ChatCompletionResponse) (last : ChatCompletionResponse)
    (trailing : List ChatCompletionResponse) : Prop where
  native : ∀ r ∈ deltas ++ last :: trailing, NoNative r
  content : ∀ r ∈ deltas ++ [last], TextContent r
  first : FirstAnnounces ((deltas ++ [last]).flatMap fun r => (deltaOf r).toolCalls)
  going : ∀ r ∈ deltas, finishOf r = none
  finish : finishOf last ≠ none
  trailing : ∀ r ∈ trailing, Bare r

theorem FirstAnnounces.of_append {more : List ToolCall} (h : FirstAnnounces (calls ++ more)) :
    FirstAnnounces calls := by
  intro before call after heq
  exact h before call (after ++ more) (by rw [heq]; simp)

section

variable {unmarshal : GoString → Option ChatCompletionResponse} (order : KeyOrder)

/-- The chunks before the finish. -/
theorem leads_deltas_before {datas : List GoString} {deltas : List ChatCompletionResponse}
    (h : List.Forall₂ (Decodes unmarshal) datas deltas) (hnative : ∀ r ∈ deltas, NoNative r)
    (hcontent : ∀ r ∈ deltas, TextContent r) (hgoing : ∀ r ∈ deltas, finishOf r = none)
    (hfirst : FirstAnnounces (calls ++ deltas.flatMap fun r => (deltaOf r).toolCalls)) :
    Leads (Before text thinking calls (argumentsOf · calls))
      (Emit.each (handleData unmarshal order) datas)
      (Before (text ++ deltas.flatMap contentText)
        (thinking ++ deltas.flatMap fun r => reasoningText (deltaOf r))
        (calls ++ deltas.flatMap fun r => (deltaOf r).toolCalls)
        (argumentsOf · (calls ++ deltas.flatMap fun r => (deltaOf r).toolCalls))) := by
  induction h generalizing text thinking calls with
  | nil =>
      simp only [List.flatMap_nil, List.append_nil]
      exact .skip fun _ _ h => h
  | @cons data r datas deltas hdata _ ih =>
      simp only [List.flatMap_cons, ← List.append_assoc] at hfirst ⊢
      refine .andThen ?_ (ih (fun r hr => hnative r (List.mem_cons_of_mem _ hr))
        (fun r hr => hcontent r (List.mem_cons_of_mem _ hr))
        (fun r hr => hgoing r (List.mem_cons_of_mem _ hr)) hfirst)
      refine leads_handleData order hdata (fun past c h => h.going) (leads_build_before
        (hnative r List.mem_cons_self) (hcontent r List.mem_cons_self) hfirst.of_append ?_)
      rw [hgoing r List.mem_cons_self]
      refine .inOrder_cons (.skip fun _ _ h => h) (.inOrder_cons ?_ (.inOrder_nil fun _ _ h => h))
      cases r.usage with
      | none => exact .skip fun _ _ h => h
      | some u => exact leads_handleUsage_before u

/-- The chunk with the finish reason. -/
theorem leads_last_before {data : GoString} {last : ChatCompletionResponse}
    (h : Decodes unmarshal data last) (hnative : NoNative last) (hcontent : TextContent last)
    (hfinish : finishOf last ≠ none) (hfirst : FirstAnnounces (calls ++ (deltaOf last).toolCalls)) :
    Leads (Before text thinking calls (argumentsOf · calls)) (handleData unmarshal order data)
      (Settled (text ++ contentText last) (thinking ++ reasoningText (deltaOf last))
        (calls ++ (deltaOf last).toolCalls)) := by
  refine leads_handleData order h (fun past c h => h.going)
    (leads_build_before hnative hcontent hfirst ?_)
  obtain ⟨reason, hreason⟩ := Option.ne_none_iff_exists'.mp hfinish
  rw [hreason]
  exact .inOrder_cons (leads_finish_before reason) (leads_usage_settled last)

/-- The chunks behind the finish. -/
theorem leads_trailing_settled {datas : List GoString} {trailing : List ChatCompletionResponse}
    (h : List.Forall₂ (Decodes unmarshal) datas trailing) (hnative : ∀ r ∈ trailing, NoNative r)
    (hbare : ∀ r ∈ trailing, Bare r) :
    Leads (Settled text thinking calls) (Emit.each (handleData unmarshal order) datas)
      (Settled text thinking calls) := by
  induction h with
  | nil => exact .skip fun _ _ h => h
  | @cons data r datas trailing hdata _ ih =>
      refine .andThen ?_ (ih (fun r hr => hnative r (List.mem_cons_of_mem _ hr))
        (fun r hr => hbare r (List.mem_cons_of_mem _ hr)))
      rw [handleData_of_decodes order hdata]
      refine .onlyIf ?_ fun past c h _ => h
      exact fun past c h =>
        leads_build_settled (hnative r List.mem_cons_self) (hbare r List.mem_cons_self) past c h.1

end

/-- A converter that has seen nothing. -/
theorem before_fresh : Before [] [] [] (argumentsOf · []) [] {} where
  kept :=
    { text := rfl
      thinking := rfl
      nodup := .nil
      bound := by simp [starts]
      unknown := fun _ _ => ⟨by simp, rfl⟩
      known := by simp
      distinct := by simp
      json := fun _ h => absurd rfl h }
  going := rfl
  pending := rfl
  active := by simp
  idle := by simp

/-- Conservation. The events of a converted stream carry its content, its reasoning and the
arguments of its tool calls, in callbacks that end between events, with or without an end
marker. -/
theorem convertStream_carried (unmarshal : GoString → Option ChatCompletionResponse)
    (unify : GoString → GoString) (hunify : ∀ s, 13 ∉ s → unify s = s) (order : KeyOrder)
    (callbacks : List (List GoString))
    (hlines : ∀ datas ∈ callbacks, ∀ data ∈ datas, ∀ b ∈ data, b ≠ 10 ∧ b ≠ 13)
    (datas tail : List GoString) (hcallbacks : callbacks.flatten = datas ++ tail)
    (htail : tail = [] ∨ tail = [bytes "[DONE]"])
    (deltas : List ChatCompletionResponse) (last : ChatCompletionResponse)
    (trailing : List ChatCompletionResponse)
    (hdatas : List.Forall₂ (Decodes unmarshal) datas (deltas ++ last :: trailing))
    (hstream : TextStream deltas last trailing) :
    ∃ events, convertStream unmarshal unify order ({}, {})
        (callbacks.map fun datas => (datas.map dataEvent).flatten) = some events ∧
      Carried ((deltas ++ [last]).flatMap contentText)
        ((deltas ++ [last]).flatMap fun r => reasoningText (deltaOf r))
        ((deltas ++ [last]).flatMap fun r => (deltaOf r).toolCalls) events := by
  have hbetween : Between {} := ⟨rfl, .framing rfl rfl (Nat.zero_le _) rfl⟩
  refine ⟨_, convertStream_between unmarshal order hunify callbacks hlines hbetween {}, ?_⟩
  obtain ⟨data, behind, hdata, hbehind, hdrop⟩ :=
    List.forall₂_cons_right_iff.mp (List.forall₂_drop_append _ _ _ hdatas)
  obtain ⟨before, hbefore, rfl⟩ : ∃ before, List.Forall₂ (Decodes unmarshal) before deltas ∧
      datas = before ++ data :: behind :=
    ⟨_, List.forall₂_take_append _ _ _ hdatas, by rw [← hdrop, List.take_append_drop]⟩
  have hfirst := hstream.first
  rw [List.flatMap_append, List.flatMap_singleton] at hfirst
  have hdeltas := @leads_deltas_before [] [] [] unmarshal order before deltas hbefore
    (fun r hr => hstream.native r (by simp [hr])) (fun r hr => hstream.content r (by simp [hr]))
    hstream.going hfirst.of_append
  have hlast := hdeltas.andThen (leads_last_before order hdata (hstream.native last (by simp))
    (hstream.content last (by simp)) hstream.finish hfirst)
  have hrest := hlast.andThen (leads_trailing_settled order hbehind
    (fun r hr => hstream.native r (by simp [hr])) hstream.trailing)
  have hend : Emits (·.isQuiet = true) (Emit.each (handleData unmarshal order) tail) := by
    rcases htail with rfl | rfl
    · exact .skip
    · rw [each_cons, each_nil, andThen_skip, handleData_done]
      exact emits_handleDone order
  have hcarried := (hrest [] {} before_fresh).carried
  rw [hcallbacks, each_append, each_append, each_cons, ← andThen_assoc]
  generalize ((Emit.each (handleData unmarshal order) before).andThen
    (handleData unmarshal order data)).andThen
      (Emit.each (handleData unmarshal order) behind) = run at hcarried ⊢
  have hall := hcarried.quiet (hend (run {}).1)
  simpa [List.flatMap_append, andThen] using hall

/-- Texts of chunks with two tool calls that take turns, with what they are decoded to. -/
def toolChunks : List (GoString × ChatCompletionResponse) :=
  [(bytes ("\x7b\"choices\":[\x7b\"delta\":\x7b\"tool_calls\":[\x7b\"index\":0,\"id\":\"a\"," ++
      "\"function\":\x7b\"name\":\"f\"\x7d\x7d,\x7b\"index\":1,\"id\":\"b\"," ++
      "\"function\":\x7b\"name\":\"g\",\"arguments\":\"2\"\x7d\x7d]\x7d\x7d]\x7d"),
    deltaChunk
      { toolCalls :=
        [{ index := 0, id := bytes "a", function := { name := bytes "f" } },
        { index := 1, id := bytes "b", function := { name := bytes "g", arguments := bytes "2" } }] }),
  (bytes ("\x7b\"choices\":[\x7b\"delta\":\x7b\"tool_calls\":[\x7b\"index\":0," ++
      "\"function\":\x7b\"arguments\":\"1\"\x7d\x7d]\x7d\x7d]\x7d"),
    deltaChunk { toolCalls := [{ index := 0, function := { arguments := bytes "1" } }] }),
  (bytes "\x7b\"choices\":[\x7b\"finish_reason\":\"tool_calls\"\x7d]\x7d",
    { choices := [{ finishReason := some (bytes "tool_calls") }] })]

def toolData (i : ℕ) : GoString := (toolChunks.getD i ([], {})).1

def toolChunk (i : ℕ) : ChatCompletionResponse := (toolChunks.getD i ([], {})).2

theorem convertStream_tools_carried :
    ∃ events, convertStream (fun data => toolChunks.lookup data) id sampleOrder ({}, {})
        ([[toolData 0], [toolData 1, toolData 2, bytes "[DONE]"]].map
          fun datas => (datas.map dataEvent).flatten) = some events ∧
      Carried [] [] ((deltaOf (toolChunk 0)).toolCalls ++ (deltaOf (toolChunk 1)).toolCalls) events := by
  have hcalls : ([toolChunk 0, toolChunk 1] ++ [toolChunk 2]).flatMap
      (fun r => (deltaOf r).toolCalls) =
        [{ index := 0, id := bytes "a", function := { name := bytes "f" } },
        { index := 1, id := bytes "b", function := { name := bytes "g", arguments := bytes "2" } },
        { index := 0, function := { arguments := bytes "1" } }] := by decide
  exact convertStream_carried (fun data => toolChunks.lookup data) id (fun _ _ => rfl) sampleOrder
    [[toolData 0], [toolData 1, toolData 2, bytes "[DONE]"]]
    (lines_of_notMem (by decide))
    [toolData 0, toolData 1, toolData 2] [bytes "[DONE]"] rfl (.inr rfl)
    [toolChunk 0, toolChunk 1] (toolChunk 2) []
    (.cons (by decide) (.cons (by decide) (.cons (by decide) .nil)))
    { native := by
        intro r hr
        simp only [List.cons_append, List.nil_append, List.mem_cons, List.not_mem_nil, or_false] at hr
        rcases hr with rfl | rfl | rfl <;> exact ⟨rfl, rfl, rfl, rfl⟩
      content := by
        intro r hr
        simp only [List.cons_append, List.nil_append, List.mem_cons, List.not_mem_nil, or_false] at hr
        rcases hr with rfl | rfl | rfl <;> exact fun h => by cases h
      first := by
        rw [hcalls]
        intro before call after heq hnew
        rcases before with _ | ⟨first, _ | ⟨second, _ | ⟨third, before⟩⟩⟩ <;>
          simp only [List.nil_append, List.cons_append, List.cons.injEq] at heq
        · rw [← heq.1]
          exact ⟨by decide, by decide⟩
        · rw [← heq.2.1]
          exact ⟨by decide, by decide⟩
        · simp [← heq.1, ← heq.2.2.1] at hnew
        · simp at heq
      going := by decide
      finish := by decide
      trailing := by simp }

/-- Chunks whose content is not carried: one with a stop that only Claude sends, and one with
two choices, of which the converter takes the first. -/
def lostChunks : List (GoString × ChatCompletionResponse) :=
  [(bytes ("\x7b\"choices\":[\x7b\"delta\":\x7b\"content\":\"x\"," ++
      "\"claude_content_block_stop\":0\x7d\x7d]\x7d"),
    deltaChunk { content := some (.string (bytes "x")), claudeContentBlockStop := some 0 }),
  (bytes ("\x7b\"choices\":[\x7b\"delta\":\x7b\"content\":\"x\"\x7d\x7d," ++
      "\x7b\"delta\":\x7b\"content\":\"y\"\x7d\x7d]\x7d"),
    { choices := [{ delta := some { content := some (.string (bytes "x")) } },
      { delta := some { content := some (.string (bytes "y")) } }] }),
  (bytes "\x7b\"choices\":[\x7b\"finish_reason\":\"stop\"\x7d]\x7d",
    { choices := [{ finishReason := some (bytes "stop") }] })]

/-- The text that is sent for a chunk and a finish reason. -/
def lostText (i : ℕ) : Option GoString :=
  (convertStream (fun data => lostChunks.lookup data) id sampleOrder ({}, {})
    [([(lostChunks.getD i ([], {})).1, (lostChunks.getD 2 ([], {})).1, bytes "[DONE]"].map
      dataEvent).flatten]).map textOf

theorem content_not_carried : lostText 0 = some [] ∧ lostText 1 = some (bytes "x") := by
  decide +kernel

end Converter

end Higress.AiProxy
