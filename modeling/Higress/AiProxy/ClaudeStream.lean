import Mathlib
import Higress.Lib.Emit
import Higress.Lib.SortedMap
import Higress.AiProxy.SseFraming

/-!
The conversion of a streamed OpenAI response into a stream of Claude events
(`ai-proxy/provider/claude_to_openai.go`). OpenAI sends chunks with deltas of reasoning,
of content and of tool calls in any order; Claude sends content blocks, each with a start,
deltas and a stop.

The events are kept as values. The source collects pointers to the indexes of the
converter and renders them after the chunk; no index changes between the two.
-/

namespace Higress.AiProxy

open Lib

/-! ### Chunks of OpenAI -/

/-- `functionCall`. -/
structure FunctionCall where
  name : GoString := []
  arguments : GoString := []
  deriving DecidableEq

/-- `toolCall`. -/
structure ToolCall where
  index : ℤ
  id : GoString := []
  function : FunctionCall := {}
  deriving DecidableEq

/-- A `Content` that is not nil: a string, or another value of JSON. -/
inductive Content
  | string (s : GoString)
  | other
  deriving DecidableEq

/-- `chatMessage`, as a delta. -/
structure ChatMessage where
  role : GoString := []
  content : Option Content := none
  reasoningContent : GoString := []
  reasoning : GoString := []
  reasoningSignature : GoString := []
  reasoningRedactedContent : GoString := []
  claudeContentBlockIndex : Option ℤ := none
  claudeContentBlockStop : Option ℤ := none
  toolCalls : List ToolCall := []
  deriving DecidableEq

/-- `chatCompletionChoice`. -/
structure ChatCompletionChoice where
  delta : Option ChatMessage := none
  finishReason : Option GoString := none
  deriving DecidableEq

/-- `usage`; of `promptTokensDetails` the cached tokens. -/
structure Usage where
  promptTokens : ℤ := 0
  completionTokens : ℤ := 0
  totalTokens : ℤ := 0
  cachedTokens : Option ℤ := none
  deriving DecidableEq

/-- `chatCompletionResponse`. -/
structure ChatCompletionResponse where
  id : GoString := []
  model : GoString := []
  choices : List ChatCompletionChoice := []
  usage : Option Usage := none
  deriving DecidableEq

/-! ### Events of Claude -/

/-- `claudeTextGenUsage`. -/
structure ClaudeUsage where
  inputTokens : ℤ := 0
  outputTokens : ℤ := 0
  cacheReadInputTokens : ℤ := 0
  deriving DecidableEq

/-- The message of `message_start`. -/
structure ClaudeMessage where
  id : GoString
  model : GoString
  usage : ClaudeUsage
  deriving DecidableEq

/-- The block of `content_block_start`. -/
inductive ContentBlock
  | thinking
  | text
  | redactedThinking (data : GoString)
  | toolUse (id name : GoString)
  deriving DecidableEq

/-- The delta of `content_block_delta`. -/
inductive ContentDelta
  | thinking (thinking : GoString)
  | signature (signature : GoString)
  | text (text : GoString)
  | inputJson (partialJson : GoString)
  deriving DecidableEq

/-- `claudeTextGenStreamResponse`, by its type. -/
inductive StreamEvent
  | messageStart (message : ClaudeMessage)
  | contentBlockStart (index : ℤ) (block : ContentBlock)
  | contentBlockDelta (index : ℤ) (delta : ContentDelta)
  | contentBlockStop (index : ℤ)
  | messageDelta (stopReason : Option GoString) (usage : Option ClaudeUsage)
  | messageStop
  deriving DecidableEq

/-! ### The converter -/

/-- `toolCallInfo`. -/
structure ToolCallInfo where
  id : GoString
  name : GoString
  claudeContentIndex : ℤ := 0
  hasClaudeIndex : Bool := false
  contentBlockStarted : Bool := false
  contentBlockStopped : Bool := false
  cachedArguments : GoString := []

/-- The blocks of which the converter has one at a time. -/
inductive BlockKind
  | thinking
  | text
  deriving DecidableEq

/-- `thinkingBlockIndex`, `thinkingBlockStarted` and `thinkingBlockStopped`, and the same
of the text block. -/
structure Block where
  index : ℤ := 0
  started : Bool := false
  stopped : Bool := false

/-- The block has been started and not yet stopped. -/
def Block.isOpen (b : Block) : Bool := b.started && !b.stopped

def ToolCallInfo.isOpen (t : ToolCallInfo) : Bool := t.contentBlockStarted && !t.contentBlockStopped

/-- `ClaudeToOpenAIConverter`. -/
structure Converter where
  messageStartSent : Bool := false
  messageStopSent : Bool := false
  pendingStopReason : Option GoString := none
  nextContentIndex : ℤ := 0
  block : BlockKind → Block := fun _ => {}
  redactedBlockIndexes : Finset ℤ := ∅
  toolCallStates : SortedMap ℤ ToolCallInfo := .empty
  activeToolIndex : Option ℤ := none

/-- A part of the conversion of a chunk. -/
abbrev Part := Emit Converter StreamEvent

/-- `computeClaudeInputTokens`. -/
def computeClaudeInputTokens (u : Usage) : ℤ :=
  match u.cachedTokens with
  | none => u.promptTokens
  | some cached =>
      if 0 < cached ∧ 0 < u.totalTokens ∧ u.totalTokens = u.promptTokens + u.completionTokens then
        u.promptTokens - cached
      else u.promptTokens

/-- `openAIFinishReasonToClaude`. -/
def openAIFinishReasonToClaude (reason : GoString) : GoString :=
  if reason = bytes "stop" then bytes "end_turn"
  else if reason = bytes "length" then bytes "max_tokens"
  else if reason = bytes "tool_calls" then bytes "tool_use"
  else reason

/-- `strings.EqualFold` with a literal of lower case letters that have no other forms. -/
def equalFold (s lower : GoString) : Bool :=
  s.map (fun b => if 65 ≤ b ∧ b ≤ 90 then b + 32 else b) == lower

/-- `normalizeFinishReason`. -/
def normalizeFinishReason (finishReason : Option GoString) : Option GoString :=
  finishReason.bind fun reason =>
    let normalized := Strings.trimSpace reason
    if normalized = [] ∨ equalFold normalized (bytes "null") then none else some normalized

namespace Converter

/-- The events and the flag of `message_start`. -/
def startMessage (r : ChatCompletionResponse) : Part :=
  .onlyIf (fun c => !c.messageStartSent) <| .andThen
    (.update fun c => { c with messageStartSent := true })
    (.emit fun _ => [.messageStart
      { id := r.id
        model := r.model
        usage := match r.usage with
          | none => {}
          | some u => { inputTokens := computeClaudeInputTokens u } }])

/-- The stop of an open thinking or text block. -/
def closeBlock (k : BlockKind) : Part :=
  .onlyIf (fun c => (c.block k).isOpen) <| .andThen
    (.update fun c => { c with
      block := Function.update c.block k { c.block k with stopped := true } })
    (.emit fun c => [.contentBlockStop (c.block k).index])

def BlockKind.content : BlockKind → ContentBlock
  | .thinking => .thinking
  | .text => .text

/-- The next index, or the one the chunk gives. -/
def allocate (native : Option ℤ) (c : Converter) : ℤ × ℤ :=
  match native with
  | none => (c.nextContentIndex, c.nextContentIndex + 1)
  | some index => (index, if c.nextContentIndex ≤ index then index + 1 else c.nextContentIndex)

/-- The start of a thinking or text block, unless it is open. -/
def openBlock (k : BlockKind) (native : Option ℤ) : Part :=
  .onlyIf (fun c => !(c.block k).isOpen) <| .andThen
    (.update fun c => { c with
      nextContentIndex := (allocate native c).2
      block := Function.update c.block k
        { index := (allocate native c).1, started := true, stopped := false } })
    (.emit fun c => [.contentBlockStart (c.block k).index (BlockKind.content k)])

/-- A delta of the thinking or text block. -/
def sendDelta (k : BlockKind) (delta : ContentDelta) : Part :=
  .emit fun c => [.contentBlockDelta (c.block k).index delta]

/-- The branch for `ClaudeContentBlockStop`, with the events so far of the chunk. -/
def nativeStop (stopIndex : ℤ) (responses : List StreamEvent) : Part := fun c =>
  let matched (k : BlockKind) : Bool := (c.block k).isOpen && (c.block k).index == stopIndex
  let tools := c.toolCallStates.visit (fun found t =>
    if t.hasClaudeIndex && !t.contentBlockStopped && t.claudeContentIndex == stopIndex then
      ({ t with contentBlockStopped := true }, true)
    else (t, found)) false
  let shouldStop := matched .thinking || matched .text || tools.2 ||
    stopIndex ∈ c.redactedBlockIndexes
  ({ c with
      block := fun k => if matched k then { c.block k with stopped := true } else c.block k
      toolCallStates := tools.1
      redactedBlockIndexes := c.redactedBlockIndexes.erase stopIndex },
    if shouldStop then responses ++ [.contentBlockStop stopIndex] else [])

/-- The start of a block with redacted thinking. -/
def startRedacted (native : Option ℤ) (data : GoString) : Part := fun c =>
  let next := allocate native c
  ({ c with
      nextContentIndex := next.2
      redactedBlockIndexes := insert next.1 c.redactedBlockIndexes },
    [.contentBlockStart next.1 (.redactedThinking data)])

/-- The branch for `ReasoningRedactedContent`. -/
def redacted (native : Option ℤ) (data : GoString) : Part :=
  .inOrder [closeBlock .thinking, closeBlock .text, startRedacted native data]

/-- The reasoning of a delta, from either of its two fields. -/
def reasoningText (d : ChatMessage) : GoString :=
  if d.reasoning ≠ [] then d.reasoning else d.reasoningContent

def sendReasoning (native : Option ℤ) (text : GoString) : Part :=
  if text = [] then .skip
  else .inOrder [openBlock .thinking native, sendDelta .thinking (.thinking text)]

def sendSignature (native : Option ℤ) (signature : GoString) : Part :=
  if signature = [] then .skip
  else .inOrder [openBlock .thinking native, sendDelta .thinking (.signature signature)]

def sendContent (native : Option ℤ) (text : GoString) : Part :=
  if text = [] then .skip
  else .inOrder
    [closeBlock .thinking, openBlock .text native, sendDelta .text (.text text)]

/-- The state of the tool call with an OpenAI index. -/
def setTool (index : ℤ) (t : ToolCallInfo) (c : Converter) : Converter :=
  { c with toolCallStates := c.toolCallStates.insert index t }

/-- The start of the block of a tool call, from where no other block is closed. -/
def startToolBlock (index : ℤ) (t : ToolCallInfo) : Part := fun c =>
  let next := allocate (if t.hasClaudeIndex then some t.claudeContentIndex else none) c
  ({ setTool index { t with
        claudeContentIndex := next.1
        hasClaudeIndex := true
        contentBlockStarted := true } c with
      nextContentIndex := next.2 },
    .contentBlockStart next.1 (.toolUse t.id t.name) ::
      if t.cachedArguments = [] then []
      else [.contentBlockDelta next.1 (.inputJson t.cachedArguments)])

/-- `startToolCall`. -/
def startToolCall (index : ℤ) (t : ToolCallInfo) : Part :=
  .inOrder [closeBlock .thinking, closeBlock .text, startToolBlock index t]

/-- A computation on the state of a tool call that the converter knows. -/
def withTool (index : ℤ) (f : ToolCallInfo → Part) : Part := fun c =>
  match c.toolCallStates.get index with
  | none => (c, [])
  | some t => f t c

/-- A tool call with an id and a name. -/
def announceTool (native : Option ℤ) (call : ToolCall) : Part :=
  .inOrder
    [.onlyIf (fun c => (c.toolCallStates.get call.index).isNone) (.update (setTool call.index
      { id := call.id
        name := call.function.name
        claudeContentIndex := native.getD 0
        hasClaudeIndex := native.isSome })),
    .onlyIf (fun c => c.activeToolIndex.isNone) (.andThen
      (.update fun c => { c with activeToolIndex := some call.index })
      (withTool call.index (startToolCall call.index)))]

/-- The arguments of a tool call. -/
def addArguments (call : ToolCall) : Part :=
  withTool call.index fun t =>
    .andThen
      (.update (setTool call.index
        { t with cachedArguments := t.cachedArguments ++ call.function.arguments }))
      (.onlyIf (fun c => c.activeToolIndex == some call.index && t.contentBlockStarted)
        (.emit fun _ => [.contentBlockDelta t.claudeContentIndex
          (.inputJson call.function.arguments)]))

/-- One round of the loop over the tool calls of a delta. -/
def handleToolCall (native : Option ℤ) (call : ToolCall) : Part :=
  .andThen
    (if call.id ≠ [] ∧ call.function.name ≠ [] then announceTool native call else .skip)
    (if call.function.arguments ≠ [] then addArguments call else .skip)

def handleToolCalls (r : ChatCompletionResponse) (d : ChatMessage) : Part :=
  if d.toolCalls = [] then .skip
  else .andThen (startMessage r) (.each (handleToolCall d.claudeContentBlockIndex) d.toolCalls)

/-- `sortedIndices`: the keys of the map, which has them in order here. -/
def sortedIndices (c : Converter) : List ℤ := c.toolCallStates.entries.map Prod.fst

/-- At the finish, the start of a tool call that has not been started. -/
def startRemaining (index : ℤ) : Part :=
  withTool index fun t =>
    if t.contentBlockStarted then .skip
    else .andThen (startToolCall index t) (.update fun c => { c with activeToolIndex := none })

/-- At the finish, the stop of a tool call. -/
def stopTool (index : ℤ) : Part :=
  withTool index fun t =>
    if t.isOpen then
      .andThen (.update (setTool index { t with contentBlockStopped := true }))
        (.emit fun _ => [.contentBlockStop t.claudeContentIndex])
    else .skip

def startAllRemaining : Part := fun c => Emit.each startRemaining c.sortedIndices c

def stopAllTools : Part := fun c => Emit.each stopTool c.sortedIndices c

/-- The handling of a finish reason. -/
def finish (reason : GoString) : Part :=
  .inOrder
    [closeBlock .thinking, closeBlock .text, startAllRemaining, stopAllTools,
    .update fun c => { c with
      activeToolIndex := none
      pendingStopReason := some (openAIFinishReasonToClaude reason) }]

/-- The handling of a usage. -/
def handleUsage (u : Usage) : Part := fun c =>
  let delta := .messageDelta c.pendingStopReason (some
    { inputTokens := computeClaudeInputTokens u
      outputTokens := u.completionTokens
      cacheReadInputTokens := u.cachedTokens.getD 0 })
  if c.pendingStopReason.isSome && !c.messageStopSent then
    ({ c with pendingStopReason := none, messageStopSent := true }, [delta, .messageStop])
  else ({ c with pendingStopReason := none }, [delta])

/-- The first choice, or the one that stands for none. -/
def firstChoice (r : ChatCompletionResponse) : ChatCompletionChoice :=
  match r.choices with
  | [] => { delta := some { content := some (.string []) } }
  | choice :: _ => choice

/-- The delta of a chunk. The source tests for a nil delta before it reads a field; as it
only asks whether a field is set, the empty delta stands for it. -/
def deltaOf (r : ChatCompletionResponse) : ChatMessage := (firstChoice r).delta.getD {}

def finishOf (r : ChatCompletionResponse) : Option GoString :=
  normalizeFinishReason (firstChoice r).finishReason

/-- The part behind the handling of the content. -/
def afterContent (r : ChatCompletionResponse) : Part :=
  .inOrder
    [handleToolCalls r (deltaOf r),
    match finishOf r with
      | none => .skip
      | some reason => finish reason,
    match r.usage with
      | none => .skip
      | some u => handleUsage u]

/-- The part from the reasoning on. -/
def afterNative (r : ChatCompletionResponse) : Part :=
  let d := deltaOf r
  .inOrder
    [sendReasoning d.claudeContentBlockIndex (reasoningText d),
    sendSignature d.claudeContentBlockIndex d.reasoningSignature,
    match d.content with
      -- content that is not a string ends the function here
      | some .other => .skip
      | some (.string text) =>
          .andThen (sendContent d.claudeContentBlockIndex text) (afterContent r)
      | none => afterContent r]

def roleStart (r : ChatCompletionResponse) : Part :=
  if (deltaOf r).role = [] then .skip else startMessage r

/-- `buildClaudeStreamResponse`. -/
def buildClaudeStreamResponse (r : ChatCompletionResponse) : Part :=
  match (deltaOf r).claudeContentBlockStop with
  | some stopIndex => fun c => nativeStop stopIndex (roleStart r c).2 (roleStart r c).1
  | none =>
      .andThen (roleStart r)
        (if (deltaOf r).reasoningRedactedContent ≠ [] then
          redacted (deltaOf r).claudeContentBlockIndex (deltaOf r).reasoningRedactedContent
        else afterNative r)

/-! ### The stream -/

/-- The order in which a loop visits the keys of a map. -/
structure KeyOrder where
  visit : List ℤ → List ℤ
  perm : ∀ keys, (visit keys).Perm keys

/-- The stop of a tool call at the end of the stream. -/
def stopRemaining (index : ℤ) : Part :=
  withTool index fun t =>
    if t.isOpen then .emit fun _ => [.contentBlockStop t.claudeContentIndex] else .skip

def stopAllRemaining (order : KeyOrder) : Part := fun c =>
  Emit.each stopRemaining (order.visit c.sortedIndices) c

/-- The converter after a stream. -/
def reset (c : Converter) : Converter :=
  { block := fun _ => { index := -1 }, redactedBlockIndexes := c.redactedBlockIndexes }

/-- The handling of `[DONE]`. -/
def handleDone (order : KeyOrder) : Part :=
  .inOrder
    [closeBlock .thinking, closeBlock .text, stopAllRemaining order,
    .onlyIf (fun c => c.pendingStopReason.isSome) (.andThen
      (.emit fun c => [.messageDelta c.pendingStopReason none])
      (.update fun c => { c with pendingStopReason := none })),
    .onlyIf (fun c => c.messageStartSent && !c.messageStopSent) (.andThen
      (.update fun c => { c with messageStopSent := true })
      (.emit fun _ => [.messageStop])),
    .update reset]

section Stream

-- `json.Unmarshal` into a chunk, and `wrapper.UnifySSEChunk`
variable (unmarshal : GoString → Option ChatCompletionResponse) (unify : GoString → GoString)
  (order : KeyOrder)

/-- The data of a line. -/
def handleData (data : GoString) : Part :=
  if data = bytes "[DONE]" then handleDone order
  else .onlyIf (fun c => !c.messageStopSent) <|
    match unmarshal data with
    | none => .skip
    | some r => buildClaudeStreamResponse r

def handleLine (line : GoString) : Part :=
  if Strings.startsWith line (bytes "data: ") then
    handleData unmarshal order (line.drop (bytes "data: ").length)
  else .skip

def handleEvent (event : GoString) : Part :=
  .each (handleLine unmarshal order) (event.splitOn 10)

/-- `frameSSEEvents`. -/
def frameSSEEvents (f : SseFramer) (chunk : GoString) (isLastChunk : Bool) :
    Option (List GoString × SseFramer) :=
  (f.frameCallback chunk).map fun framed =>
    let flushed := framed.2.flush
    let raw :=
      if isLastChunk then
        (if flushed.1 = [] then framed.1 else framed.1 ++ [flushed.1], flushed.2)
      else framed
    (raw.1.map fun event => (unify event).rdropWhile (· == 10), raw.2)

/-- `ConvertOpenAIStreamResponseToClaude`. -/
def convertOpenAIStreamResponseToClaude (s : SseFramer × Converter) (chunk : GoString)
    (isLastChunk : Bool) : Option ((SseFramer × Converter) × List StreamEvent) :=
  (frameSSEEvents unify s.1 chunk isLastChunk).map fun framed =>
    let converted := Emit.each (handleEvent unmarshal order) framed.1 s.2
    ((framed.2, converted.1), converted.2)

/-- The callbacks of a response; the last one is marked. -/
def convertStream : SseFramer × Converter → List GoString → Option (List StreamEvent)
  | _, [] => some []
  | s, chunk :: chunks =>
      (convertOpenAIStreamResponseToClaude unmarshal unify order s chunk chunks.isEmpty).bind
        fun converted => (convertStream converted.1 chunks).map (converted.2 ++ ·)

/-! ### Callbacks that end between events -/

variable {unify}

/-- The event with the given data. -/
def dataEvent (data : GoString) : GoString := bytes "data: " ++ data ++ [10, 10]

/-- The framer between two events. -/
def Between (f : SseFramer) : Prop := f.resyncing = false ∧ SseFramer.Keeps [] f

theorem frameSSEEvents_between (hunify : ∀ s, 13 ∉ s → unify s = s) {f : SseFramer} (hf : Between f)
    {datas : List GoString} (hdatas : ∀ data ∈ datas, ∀ b ∈ data, b ≠ 10 ∧ b ≠ 13)
    (isLastChunk : Bool) :
    ∃ f', frameSSEEvents unify f (datas.map dataEvent).flatten isLastChunk =
      some (datas.map (bytes "data: " ++ ·), f') ∧ Between f' := by
  have hlines : ∀ line ∈ datas.map (bytes "data: " ++ ·), ∀ b ∈ line, b ≠ 10 ∧ b ≠ 13 := by
    intro line hline b hb
    obtain ⟨data, hdata, rfl⟩ := List.mem_map.mp hline
    have hfield : ∀ b ∈ bytes "data: ", b ≠ 10 ∧ b ≠ 13 := by decide +kernel
    rcases List.mem_append.mp hb with hb | hb
    · exact hfield b hb
    · exact hdatas data hdata b hb
  have hevents : datas.map dataEvent = (datas.map (bytes "data: " ++ ·)).map (· ++ [10, 10]) := by
    simp [dataEvent, Function.comp_def]
  have hsplit := @EventSplit.splitEvents_lines false _ hlines
  rw [← hevents] at hsplit
  have hraw : (datas.map dataEvent).map (fun event => (unify event).rdropWhile (· == 10)) =
      datas.map (bytes "data: " ++ ·) := by
    rw [hevents, List.map_map]
    conv_rhs => rw [← List.map_id (datas.map _)]
    apply List.map_congr_left
    intro line hline
    have hlf : 10 ∉ line := fun hmem => (hlines line hline 10 hmem).1 rfl
    have hcr : 13 ∉ line ++ [10, 10] := by
      simp only [List.mem_append, not_or]
      exact ⟨fun hmem => (hlines line hline 13 hmem).2 rfl, by decide⟩
    have hline : line ++ [10, 10] = line ++ [10] ++ [10] := by simp
    rw [Function.comp, hunify _ hcr, hline, List.rdropWhile_concat_pos _ _ _ (by decide),
      List.rdropWhile_concat_pos _ _ _ (by decide), List.rdropWhile_eq_self_iff.mpr, id]
    intro hne
    have hlast := List.getLast_mem hne
    simp only [beq_iff_eq]
    rintro hten
    exact hlf (hten ▸ hlast)
  obtain ⟨hresyncing, hkeeps⟩ := hf
  obtain ⟨f', hcallback, hkeeps', -⟩ := SseFramer.keeps_frameCallback
    (EventSplit.eventEnd_nil false) hkeeps (datas.map dataEvent).flatten
  rw [hresyncing, List.nil_append, hsplit] at hcallback
  rw [List.nil_append, hsplit] at hkeeps'
  cases hkeeps' with
  | resyncing h htail hlen hcarry => simp at hlen
  | framing h htail hcap hcarry =>
      rw [frameSSEEvents, hcallback]
      cases isLastChunk with
      | false => exact ⟨f', by simp [hraw], h, .framing h htail hcap hcarry⟩
      | true =>
          refine ⟨f'.flush.2, ?_, rfl, .framing rfl rfl hcap rfl⟩
          simp [SseFramer.flush, htail, hraw]

theorem handleEvent_data {data : GoString} (h : 10 ∉ data) :
    handleEvent unmarshal order (bytes "data: " ++ data) = handleData unmarshal order data := by
  have hlf : 10 ∉ bytes "data: " ++ data := by
    simp only [List.mem_append, not_or]
    exact ⟨by decide, h⟩
  rw [handleEvent, List.splitOn_eq_singleton hlf, Emit.each_cons, Emit.each_nil, Emit.andThen_skip,
    handleLine, if_pos, List.drop_left]
  exact List.isPrefixOf_iff_prefix.mpr (List.prefix_append _ _)

/-- Callbacks that end between events. The events do not depend on where they end. -/
theorem convertStream_between (hunify : ∀ s, 13 ∉ s → unify s = s)
    (callbacks : List (List GoString))
    (hdatas : ∀ datas ∈ callbacks, ∀ data ∈ datas, ∀ b ∈ data, b ≠ 10 ∧ b ≠ 13)
    {f : SseFramer} (hf : Between f) (c : Converter) :
    convertStream unmarshal unify order (f, c)
        (callbacks.map fun datas => (datas.map dataEvent).flatten) =
      some (Emit.each (handleData unmarshal order) callbacks.flatten c).2 := by
  induction callbacks generalizing f c with
  | nil => rfl
  | cons datas callbacks ih =>
      have hfirst := hdatas datas List.mem_cons_self
      obtain ⟨f', hframe, hf'⟩ := frameSSEEvents_between hunify hf hfirst
        (callbacks.map fun datas => (datas.map dataEvent).flatten).isEmpty
      have hevents : Emit.each (handleEvent unmarshal order) (datas.map (bytes "data: " ++ ·)) =
          Emit.each (handleData unmarshal order) datas := by
        rw [Emit.each, Emit.each, List.map_map]
        congr 1
        apply List.map_congr_left
        intro data hdata
        exact handleEvent_data unmarshal order fun hlf => (hfirst data hdata 10 hlf).1 rfl
      rw [List.map_cons, convertStream, convertOpenAIStreamResponseToClaude, hframe, Option.map_some,
        Option.bind_some, hevents,
        ih (fun datas hmem => hdatas datas (List.mem_cons_of_mem _ hmem)) hf', Option.map_some,
        List.flatten_cons, Emit.each_append]
      rfl

end Stream

end Converter

end Higress.AiProxy
