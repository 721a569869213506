import Mathlib
import Higress.Lib.GoString

/-!
The streamed responses of Qwen (`buildChatCompletionStreamingResponse` in
`ai-proxy/provider/qwen.go`). A message that is not incremental holds all that was said so far. The
last one that was pushed is kept in the context of the request, and what it held is stripped off the
next one, field by field and tool call by tool call.

A content comes from JSON: it is null, a string or a list, and never a list of the type that the
branch for multimodal models asks for. How Go prints it is a parameter, as the time, the model and
the fixed fields of a response are left out.
-/

namespace Higress.AiProxy.QwenStream

open Lib

/-- A content: null, a string, or a list, whose items may have a text. -/
inductive Content
  | null
  | str (s : GoString)
  | list (items : List (Option GoString))
  deriving DecidableEq

/-- `StringContent`. -/
def Content.stringContent : Content → GoString
  | .null => []
  | .str s => s
  | .list items => items.flatMap fun item => item.getD []

structure FunctionCall where
  id : GoString
  name : GoString
  arguments : GoString
  deriving DecidableEq

def FunctionCall.isEmpty (f : FunctionCall) : Bool := f.name = [] && f.arguments = []

structure ToolCall where
  index : ℤ
  id : GoString
  type : GoString
  function : FunctionCall
  deriving DecidableEq

/-- `qwenMessage`; its name is not read. -/
structure QwenMessage where
  role : GoString
  content : Content
  reasoningContent : GoString
  toolCalls : List ToolCall
  deriving DecidableEq

structure QwenChoice where
  finishReason : GoString
  message : QwenMessage

structure QwenUsage where
  inputTokens : ℤ
  outputTokens : ℤ
  totalTokens : ℤ

structure QwenResponse where
  requestId : GoString
  choices : List QwenChoice
  usage : QwenUsage

/-- `chatMessage`, the fields of a delta. -/
structure ChatMessage where
  role : GoString
  content : Content
  reasoningContent : GoString
  toolCalls : List ToolCall
  deriving DecidableEq

def ChatMessage.empty : ChatMessage := ⟨[], .null, [], []⟩

def ChatMessage.isEmpty (m : ChatMessage) : Bool :=
  if m.reasoningContent ≠ [] then false
  else
    match m.content with
    | .str s => if s ≠ [] then false else m.toolCalls.all fun tc => tc.function.isEmpty
    | .list items => if items ≠ [] then false else m.toolCalls.all fun tc => tc.function.isEmpty
    | .null => m.toolCalls.all fun tc => tc.function.isEmpty

/-- `chatCompletionResponse` with its one choice. -/
structure ChatCompletionResponse where
  id : GoString
  delta : ChatMessage
  finishReason : Option GoString
  usage : Option QwenUsage

inductive ReasoningBehavior
  | passThrough
  | ignore
  | concat
  deriving DecidableEq

/-- The values of the request context. -/
structure Context where
  pushedMessage : Option QwenMessage
  contentPushed : Bool
  reasoningContentPushed : Bool

def stripPrefix (s p : GoString) : GoString :=
  if p.length ≠ 0 ∧ s.length ≥ p.length ∧ s.take p.length = p then s.drop p.length else s

/-- `handleStreamingReasoningContent`; `sprint` is how a content is printed. -/
def handleStreamingReasoningContent (sprint : Content → GoString) (mode : ReasoningBehavior)
    (ctx : Context) (m : ChatMessage) : Context × ChatMessage :=
  match mode with
  | .passThrough => (ctx, m)
  | .ignore => (ctx, { m with reasoningContent := [] })
  | .concat =>
      if ctx.contentPushed then (ctx, m)
      else
        let first := m.reasoningContent ≠ [] ∧ ctx.reasoningContentPushed = false
        let reasoning :=
          if first then bytes "<think>" ++ m.reasoningContent else m.reasoningContent
        let reasoningContentPushed := ctx.reasoningContentPushed || first
        let hasContent := m.content ≠ .str []
        let reasoning :=
          if hasContent ∧ reasoningContentPushed then reasoning ++ bytes "</think>" else reasoning
        ({ ctx with
          contentPushed := hasContent
          reasoningContentPushed := reasoningContentPushed },
          { m with
            content := .str (reasoning ++ bytes "\n" ++ sprint m.content)
            reasoningContent := [] })

/-- The tool calls with what was pushed of them stripped off. -/
def stripToolCalls : List ToolCall → List ToolCall → List ToolCall
  | tc :: tcs, pushed :: rest =>
      { tc with
        function :=
          { id := stripPrefix tc.function.id pushed.function.id
            name := stripPrefix tc.function.name pushed.function.name
            arguments := stripPrefix tc.function.arguments pushed.function.arguments } } ::
        stripToolCalls tcs rest
  | tcs, _ => tcs

/-- A choice that ends the message; Qwen writes a null as a string. -/
def QwenChoice.finished (choice : QwenChoice) : Bool :=
  choice.finishReason ≠ [] && choice.finishReason ≠ bytes "null"

/-- A message that is not pushed: a tool call has no arguments yet. -/
def QwenChoice.heldBack (choice : QwenChoice) : Bool :=
  choice.message.toolCalls.any fun tc => tc.function.arguments = [] && !choice.finished

/-- The branch for messages that are not incremental and not held back: the new context with the
deltas of content and tool calls. -/
def stripPushed (sprint : Content → GoString) (mode : ReasoningBehavior) (ctx : Context)
    (message : QwenMessage) : Context × ChatMessage × List ToolCall :=
  let delta : ChatMessage := ⟨message.role, message.content, message.reasoningContent, []⟩
  match ctx.pushedMessage with
  | none => ({ ctx with pushedMessage := some message }, delta, message.toolCalls)
  | some pushed =>
      let content :=
        match message.content with
        | .str s => if s = [] then .str s else .str (stripPrefix s pushed.content.stringContent)
        | content => content
      let reasoning :=
        if message.reasoningContent = [] then []
        else stripPrefix message.reasoningContent pushed.reasoningContent
      let kept : QwenMessage :=
        { message with
          content := if message.content = .str [] then pushed.content else message.content
          reasoningContent :=
            if message.reasoningContent = [] then pushed.reasoningContent
            else message.reasoningContent }
      let (ctx, delta) := handleStreamingReasoningContent sprint mode ctx
        { delta with
          content := content
          reasoningContent := reasoning }
      ({ ctx with pushedMessage := some kept }, delta,
        stripToolCalls message.toolCalls pushed.toolCalls)

/-- The responses of the deltas of content and tool calls, and those of the end. -/
def responsesOf (response : QwenResponse) (choice : QwenChoice) (deltaContent : ChatMessage)
    (deltaToolCalls : List ToolCall) : List ChatCompletionResponse :=
  let toolCalls : ChatMessage := ⟨choice.message.role, .null, [], deltaToolCalls⟩
  (if deltaContent.isEmpty then [] else [⟨response.requestId, deltaContent, none, none⟩]) ++
    (if toolCalls.isEmpty then [] else [⟨response.requestId, toolCalls, none, none⟩]) ++
    if choice.finished then
      [⟨response.requestId, .empty, some choice.finishReason, none⟩,
        ⟨response.requestId, .empty, none, some response.usage⟩]
    else []

def buildChatCompletionStreamingResponse (sprint : Content → GoString) (mode : ReasoningBehavior)
    (ctx : Context) (response : QwenResponse) (incrementalStreaming : Bool) :
    Context × List ChatCompletionResponse :=
  match response.choices with
  | [] => (ctx, [])
  | choice :: _ =>
      let message := choice.message
      if incrementalStreaming then
        let (ctx, delta) := handleStreamingReasoningContent sprint mode ctx
          ⟨message.role, message.content, message.reasoningContent, []⟩
        (ctx, responsesOf response choice delta message.toolCalls)
      else if choice.heldBack then (ctx, [])
      else
        let (ctx, delta, toolCalls) := stripPushed sprint mode ctx message
        (ctx, responsesOf response choice delta toolCalls)

/-- A stream of responses, not incremental, with what is made of each. -/
def stream (sprint : Content → GoString) (mode : ReasoningBehavior) :
    Context → List QwenResponse → List ChatCompletionResponse
  | _, [] => []
  | ctx, response :: responses =>
      let (ctx, out) := buildChatCompletionStreamingResponse sprint mode ctx response false
      out ++ stream sprint mode ctx responses

/-! ### Fields that grow -/

/-- The texts of a message: its content, its reasoning, and the name and the arguments of a tool
call. -/
inductive Field
  | content
  | reasoningContent
  | name (i : ℕ)
  | arguments (i : ℕ)

/-- A text of a message or a delta; there is none of a tool call that is not there. -/
def Field.read (field : Field) (content : Content) (reasoningContent : GoString)
    (toolCalls : List ToolCall) : GoString :=
  match field with
  | .content => content.stringContent
  | .reasoningContent => reasoningContent
  | .name i => (toolCalls[i]?.map fun tc => tc.function.name).getD []
  | .arguments i => (toolCalls[i]?.map fun tc => tc.function.arguments).getD []

def QwenMessage.text (m : QwenMessage) (field : Field) : GoString :=
  field.read m.content m.reasoningContent m.toolCalls

def ChatMessage.text (m : ChatMessage) (field : Field) : GoString :=
  field.read m.content m.reasoningContent m.toolCalls

/-- Every text of the message of the first choice is the start of that of the second. -/
def Extends (c c' : QwenChoice) : Prop :=
  ∀ field, c.message.text field <+: c'.message.text field

instance : Trans Extends Extends Extends :=
  ⟨fun h h' field => (h field).trans (h' field)⟩

/-- The content of a message is no list. -/
def QwenMessage.IsText (m : QwenMessage) : Prop := ∀ items, m.content ≠ .list items

/-- The deltas of a text, joined. -/
def joined (field : Field) (out : List ChatCompletionResponse) : GoString :=
  out.flatMap fun r => r.delta.text field

/-- The choices that are read. -/
def choicesOf (responses : List QwenResponse) : List QwenChoice :=
  responses.filterMap fun response => response.choices.head?

theorem append_stripPrefix {s p : GoString} (h : p <+: s) : p ++ stripPrefix s p = s := by
  obtain ⟨t, rfl⟩ := h
  rw [stripPrefix]
  split_ifs with hstrip
  · rw [List.drop_left]
  · have hnil : p = [] := by
      by_contra hne
      refine hstrip ⟨?_, ?_, List.take_left⟩
      · exact fun hlen => hne (List.length_eq_zero_iff.mp hlen)
      · rw [List.length_append]
        omega
    rw [hnil]
    rfl

theorem stripPrefix_nil (s : GoString) : stripPrefix s [] = s := by
  simp [stripPrefix]

/-- What is stripped off tool calls, one text of them at a time. -/
theorem stripToolCalls_getElem? (tcs pushed : List ToolCall) (i : ℕ) :
    (((stripToolCalls tcs pushed)[i]?.map fun tc => tc.function.name).getD [] =
        stripPrefix ((tcs[i]?.map fun tc => tc.function.name).getD [])
          ((pushed[i]?.map fun tc => tc.function.name).getD [])) ∧
      ((stripToolCalls tcs pushed)[i]?.map fun tc => tc.function.arguments).getD [] =
        stripPrefix ((tcs[i]?.map fun tc => tc.function.arguments).getD [])
          ((pushed[i]?.map fun tc => tc.function.arguments).getD []) := by
  induction tcs generalizing pushed i with
  | nil => simp [stripToolCalls, stripPrefix]
  | cons tc tcs ih =>
      cases pushed with
      | nil => simp [stripToolCalls, stripPrefix_nil]
      | cons p pushed =>
          cases i with
          | zero => exact ⟨rfl, rfl⟩
          | succ i => exact ih pushed i

/-- A delta that is not sent has no text. -/
theorem text_of_isEmpty {m : ChatMessage} (h : m.isEmpty = true) (field : Field) :
    m.text field = [] := by
  rw [ChatMessage.isEmpty] at h
  split_ifs at h with hreasoning
  have hreasoning : m.reasoningContent = [] := by simpa using hreasoning
  have hparts : m.content.stringContent = [] ∧
      m.toolCalls.all (fun tc => tc.function.isEmpty) = true := by
    cases hc : m.content with
    | null =>
        rw [hc] at h
        exact ⟨rfl, h⟩
    | str s =>
        rw [hc] at h
        dsimp only at h
        split_ifs at h with hs
        exact ⟨by simpa [Content.stringContent] using hs, h⟩
    | list items =>
        rw [hc] at h
        dsimp only at h
        split_ifs at h with hs
        have hs : items = [] := by simpa using hs
        exact ⟨by rw [hs]; rfl, h⟩
  have htool : ∀ (i : ℕ) (tc : ToolCall), m.toolCalls[i]? = some tc →
      tc.function.name = [] ∧ tc.function.arguments = [] := by
    intro i tc htc
    have := List.all_eq_true.mp hparts.2 tc (List.mem_of_getElem? htc)
    simpa [FunctionCall.isEmpty] using this
  cases field with
  | content => exact hparts.1
  | reasoningContent => exact hreasoning
  | name i =>
      change (m.toolCalls[i]?.map fun tc => tc.function.name).getD [] = []
      cases hi : m.toolCalls[i]? with
      | none => rfl
      | some tc => exact (htool i tc hi).1
  | arguments i =>
      change (m.toolCalls[i]?.map fun tc => tc.function.arguments).getD [] = []
      cases hi : m.toolCalls[i]? with
      | none => rfl
      | some tc => exact (htool i tc hi).2

/-- The deltas of one message carry the texts of its two parts. -/
theorem joined_responsesOf (response : QwenResponse) (choice : QwenChoice) (role : GoString)
    (content : Content) (reasoning : GoString) (toolCalls : List ToolCall) (field : Field) :
    joined field (responsesOf response choice ⟨role, content, reasoning, []⟩ toolCalls) =
      field.read content reasoning toolCalls := by
  have hpart : ∀ m : ChatMessage,
      joined field (if m.isEmpty then [] else [⟨response.requestId, m, none, none⟩]) =
        m.text field := by
    intro m
    split_ifs with hempty
    · exact (text_of_isEmpty hempty field).symm
    · simp [joined]
  have hend : joined field (if choice.finished then
      [⟨response.requestId, .empty, some choice.finishReason, none⟩,
        ⟨response.requestId, .empty, none, some response.usage⟩] else []) = [] := by
    have hnone : ChatMessage.empty.text field = [] := by cases field <;> rfl
    split_ifs <;> simp [joined, hnone]
  have happend : ∀ a b, joined field (a ++ b) = joined field a ++ joined field b := fun a b =>
    List.flatMap_append
  rw [responsesOf, happend, happend, hpart, hpart, hend, List.append_nil]
  cases field <;> simp [ChatMessage.text, Field.read, Content.stringContent]

/-! ### One message -/

/-- The texts that were pushed, none at first. -/
def Context.text (ctx : Context) (field : Field) : GoString :=
  match ctx.pushedMessage with
  | none => []
  | some pushed => pushed.text field

/-- A message that extends what was pushed: its deltas are what is new, and it is what was pushed
then. -/
theorem stripPushed_text (sprint : Content → GoString) {ctx : Context} {m : QwenMessage}
    (htext : m.IsText) (hextends : ∀ field, ctx.text field <+: m.text field) :
    ∃ ctx' content reasoning toolCalls,
      stripPushed sprint .passThrough ctx m = (ctx', ⟨m.role, content, reasoning, []⟩, toolCalls) ∧
      ∀ field, ctx.text field ++ field.read content reasoning toolCalls = m.text field ∧
        ctx'.text field = m.text field := by
  rw [stripPushed]
  cases hpushed : ctx.pushedMessage with
  | none =>
      refine ⟨_, _, _, _, rfl, ?_⟩
      intro field
      rw [Context.text, hpushed]
      exact ⟨rfl, rfl⟩
  | some pushed =>
      refine ⟨_, _, _, _, rfl, ?_⟩
      have hctx : ∀ field, ctx.text field = pushed.text field := by
        intro field
        rw [Context.text, hpushed]
      intro field
      have hpre := hextends field
      rw [hctx field] at hpre ⊢
      cases field with
      | content =>
          change pushed.content.stringContent <+: m.content.stringContent at hpre
          cases hc : m.content with
          | list items => exact absurd hc (htext items)
          | null =>
              rw [hc] at hpre
              have hnil : pushed.content.stringContent = [] := List.prefix_nil.mp hpre
              refine ⟨?_, ?_⟩
              · change pushed.content.stringContent ++ [] = m.content.stringContent
                rw [hnil, hc]
                rfl
              · change Content.stringContent
                  (if Content.null = .str [] then pushed.content else .null) =
                  m.content.stringContent
                rw [if_neg (by simp), hc]
          | str s =>
              rw [hc] at hpre
              change pushed.content.stringContent <+: s at hpre
              by_cases hs : s = []
              · subst hs
                have hnil : pushed.content.stringContent = [] := List.prefix_nil.mp hpre
                refine ⟨?_, ?_⟩
                · change pushed.content.stringContent ++ [] = m.content.stringContent
                  rw [hnil, hc]
                  rfl
                · change pushed.content.stringContent = m.content.stringContent
                  rw [hnil, hc]
                  rfl
              · refine ⟨?_, ?_⟩
                · change pushed.content.stringContent ++ Content.stringContent
                    (if s = [] then .str s
                      else .str (stripPrefix s pushed.content.stringContent)) =
                    m.content.stringContent
                  rw [if_neg hs, hc]
                  exact append_stripPrefix hpre
                · change Content.stringContent
                    (if Content.str s = .str [] then pushed.content else .str s) =
                    m.content.stringContent
                  rw [if_neg (by simpa using hs), hc]
      | reasoningContent =>
          change pushed.reasoningContent <+: m.reasoningContent at hpre
          by_cases hr : m.reasoningContent = []
          · rw [hr] at hpre
            have hnil : pushed.reasoningContent = [] := List.prefix_nil.mp hpre
            simp [Context.text, QwenMessage.text, Field.read, hr, hnil]
          · have happend := append_stripPrefix hpre
            simp [Context.text, QwenMessage.text, Field.read, hr, happend]
      | name i =>
          refine ⟨?_, rfl⟩
          change _ ++ ((stripToolCalls m.toolCalls pushed.toolCalls)[i]?.map
            fun tc => tc.function.name).getD [] = _
          rw [(stripToolCalls_getElem? m.toolCalls pushed.toolCalls i).1]
          exact append_stripPrefix hpre
      | arguments i =>
          refine ⟨?_, rfl⟩
          change _ ++ ((stripToolCalls m.toolCalls pushed.toolCalls)[i]?.map
            fun tc => tc.function.arguments).getD [] = _
          rw [(stripToolCalls_getElem? m.toolCalls pushed.toolCalls i).2]
          exact append_stripPrefix hpre

/-- The messages that are pushed. -/
def pushedChoices (responses : List QwenResponse) : List QwenChoice :=
  (choicesOf responses).filter fun choice => !choice.heldBack

/-- A whole stream, from any context on. -/
theorem joined_stream (sprint : Content → GoString) {ctx : Context} {responses : List QwenResponse}
    (htext : ∀ choice ∈ choicesOf responses, choice.message.IsText)
    (hpairs : (choicesOf responses).Pairwise Extends)
    (hextends : ∀ choice ∈ choicesOf responses, ∀ field,
      ctx.text field <+: choice.message.text field) (field : Field) :
    ctx.text field ++ joined field (stream sprint .passThrough ctx responses) =
      ((pushedChoices responses).getLast?.map fun c => c.message.text field).getD
        (ctx.text field) := by
  induction responses generalizing ctx with
  | nil => simp [stream, joined, pushedChoices, choicesOf]
  | cons response responses ih =>
      rw [stream]
      cases hchoices : response.choices with
      | nil =>
          have hof : choicesOf (response :: responses) = choicesOf responses := by
            simp [choicesOf, hchoices]
          rw [hof] at htext hpairs hextends
          have hpushed : pushedChoices (response :: responses) = pushedChoices responses := by
            rw [pushedChoices, hof]
            rfl
          have hbuild : buildChatCompletionStreamingResponse sprint .passThrough ctx response false =
              (ctx, []) := by
            rw [buildChatCompletionStreamingResponse, hchoices]
          rw [hbuild, hpushed]
          exact ih htext hpairs hextends
      | cons choice others =>
          have hof : choicesOf (response :: responses) = choice :: choicesOf responses := by
            simp [choicesOf, hchoices]
          rw [hof] at htext hpairs hextends
          obtain ⟨hhead, hpairs⟩ := List.pairwise_cons.mp hpairs
          have hrest := fun c hc => htext c (List.mem_cons_of_mem _ hc)
          by_cases hheld : choice.heldBack = true
          · have hpushed : pushedChoices (response :: responses) = pushedChoices responses := by
              rw [pushedChoices, hof, List.filter_cons_of_neg (by simp [hheld])]
              rfl
            have hbuild : buildChatCompletionStreamingResponse sprint .passThrough ctx response
                false = (ctx, []) := by
              rw [buildChatCompletionStreamingResponse, hchoices]
              simp [hheld]
            rw [hbuild, hpushed]
            exact ih hrest hpairs fun c hc => hextends c (List.mem_cons_of_mem _ hc)
          · obtain ⟨ctx', content, reasoning, toolCalls, hstrip, hnew⟩ :=
              stripPushed_text sprint (htext choice List.mem_cons_self)
                (hextends choice List.mem_cons_self)
            have hbuild : buildChatCompletionStreamingResponse sprint .passThrough ctx response
                false = (ctx', responsesOf response choice
                  ⟨choice.message.role, content, reasoning, []⟩ toolCalls) := by
              rw [buildChatCompletionStreamingResponse, hchoices]
              simp [hheld, hstrip]
            have hpushed : pushedChoices (response :: responses) =
                choice :: pushedChoices responses := by
              rw [pushedChoices, hof, List.filter_cons_of_pos (by simpa using hheld)]
              rfl
            have hafter : ∀ c ∈ choicesOf responses, ∀ field,
                ctx'.text field <+: c.message.text field := by
              intro c hc f
              rw [(hnew f).2]
              exact hhead c hc f
            have hih := ih hrest hpairs hafter
            rw [hbuild, hpushed]
            dsimp only
            have happend : ∀ a b, joined field (a ++ b) = joined field a ++ joined field b :=
              fun a b => List.flatMap_append
            rw [happend, joined_responsesOf, ← List.append_assoc, (hnew field).1,
              ← (hnew field).2, hih, (hnew field).2, List.getLast?_cons]
            cases (pushedChoices responses).getLast? <;> rfl

/-- The deltas of a stream whose messages extend one another: those of each text, joined, are the
text of the last message that was not held back. -/
theorem deltas_telescope (sprint : Content → GoString) (responses : List QwenResponse)
    (htext : ∀ choice ∈ choicesOf responses, choice.message.IsText)
    (hextends : (choicesOf responses).IsChain Extends)
    (field : Field) :
    joined field (stream sprint .passThrough ⟨none, false, false⟩ responses) =
      ((pushedChoices responses).getLast?.map fun c => c.message.text field).getD [] := by
  exact @joined_stream sprint ⟨none, false, false⟩ responses htext
    (List.isChain_iff_pairwise.mp hextends) (fun _ _ _ => List.nil_prefix) field

/-- A message that holds a tool call with a name and arguments, at its end or not. -/
def toolResponse (name arguments finishReason : String) : QwenResponse where
  requestId := bytes "r"
  choices := [⟨bytes finishReason, ⟨bytes "assistant", .str [], [],
    [⟨0, bytes "call", bytes "function", ⟨[], bytes name, bytes arguments⟩⟩]⟩⟩]
  usage := ⟨1, 1, 2⟩

/-- A stream that ends with a message that is held back: the name of its tool call is not sent. -/
theorem held_back_name :
    joined (.name 0) (stream (fun _ => []) .passThrough ⟨none, false, false⟩
      [toolResponse "f" "" "null"]) = [] ∧
    (choicesOf [toolResponse "f" "" "null"]).map (fun c => c.message.text (.name 0)) =
      [bytes "f"] :=
  ⟨by decide, by decide⟩

theorem deltas_telescope_two :
    joined (.arguments 0) (stream (fun _ => []) .passThrough ⟨none, false, false⟩
      [toolResponse "f" "ab" "null", toolResponse "f" "abc" "stop"]) = bytes "abc" := by
  refine (deltas_telescope (fun _ => []) [toolResponse "f" "ab" "null", toolResponse "f" "abc" "stop"]
    ?_ ?_ (.arguments 0)).trans (by decide)
  · intro choice hchoice items
    have hcontent : ∀ c ∈ choicesOf [toolResponse "f" "ab" "null", toolResponse "f" "abc" "stop"],
        c.message.content = .str [] := by decide
    rw [hcontent choice hchoice]
    simp
  · refine List.isChain_pair.mpr ?_
    intro field
    cases field with
    | content => exact List.nil_prefix
    | reasoningContent => exact List.nil_prefix
    | name i => cases i with
      | zero => exact List.prefix_refl _
      | succ i => exact List.nil_prefix
    | arguments i => cases i with
      | zero => exact ⟨bytes "c", by decide⟩
      | succ i => exact List.nil_prefix

end Higress.AiProxy.QwenStream
