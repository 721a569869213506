import Mathlib
import Higress.Lib.Blocks
import Higress.Lib.Json
import Higress.Lib.Trim

/-!
The answer that is put into the cache (`ai-cache/main.go`, `util.go`, `core.go`). A streamed answer
is gathered from the events of the response, which arrives in pieces: what is not complete yet is
kept in the context of the request, and so is the text read so far. The text that is written does
not depend on where the response is cut.

What is not to be cached does depend on it. That a response has tool calls is noted in the context
and looked at when the next piece arrives, so it is too late for those that come with the last one.
-/

namespace Higress.AiCache.Streaming

open Lib

/-! ### The handlers -/

/-- Code that is not part of the plugin: the text at a path of a JSON text if there is a value
(`gjson`), and the SHA-256 digest of a text in hexadecimal. -/
structure Packages where
  get : GoString → GoString → Option GoString
  digest : GoString → GoString

structure PluginConfig where
  cacheValueFrom : GoString := bytes "choices.0.message.content"
  cacheStreamValueFrom : GoString := bytes "choices.0.delta.content"
  cacheToolCallsFrom : GoString := bytes "choices.0.delta.content.tool_calls"
  /-- The key prefix of the cache provider, if there is one. -/
  cacheProvider : Option GoString

/-- The value under `CACHE_CONTENT_CONTEXT_KEY`, a string or bytes. -/
inductive Content
  | text (s : GoString)
  | raw (s : GoString)

/-- The context of a request. -/
structure Context where
  consumer : GoString
  cacheKey : Option GoString
  stream : Bool
  cacheContent : Option Content := none
  partialMessage : Option GoString := none
  toolCalls : Option GoString := none
  errorPartialMessage : Bool := false

/-- A `Set` of the cache provider. -/
structure Write where
  key : GoString
  value : GoString

section Handlers

variable (packages : Packages) (config : PluginConfig)

def handleNonStreamChunk (ctx : Context) (chunk : GoString) : Context :=
  match ctx.cacheContent with
  | some (.raw tempContent) => { ctx with cacheContent := some (.raw (tempContent ++ chunk)) }
  | _ => { ctx with cacheContent := some (.raw chunk) }

def unifySSEChunk (data : GoString) : GoString :=
  replaceAll (replaceAll data (bytes "\r\n") (bytes "\n")) (bytes "\r") (bytes "\n")

/-- The loop of `processSSEMessage`: the content and whether `[DONE]` was met, unless a message
is invalid. -/
def processMessages : List GoString → Context → GoString → Context × Option (GoString × Bool)
  | [], ctx, content => (ctx, some (content, false))
  | chunk :: rest, ctx, content =>
      let message := ((split chunk (bytes "\n")).find? (Strings.startsWith · (bytes "data:"))).getD []
      if message.length < 6 then (ctx, none)
      else
        let bodyJson := message.drop 5
        if Strings.trimSpace bodyJson = bytes "[DONE]" then (ctx, some (content, true))
        else
          let toolCalls := packages.get bodyJson config.cacheToolCallsFrom
          processMessages rest { ctx with toolCalls := toolCalls.or ctx.toolCalls }
            (content ++ (packages.get bodyJson config.cacheStreamValueFrom).getD [])

/-- `processSSEMessage`: the context, and the content gathered so far. -/
def processSSEMessage (ctx : Context) (sseMessage : GoString) : Context × Option GoString :=
  match processMessages packages config (split sseMessage (bytes "\n\n")) ctx [] with
  | (ctx, none) => (ctx, none)
  | (ctx, some (content, done)) =>
      if content = [] ∧ done = false then (ctx, some [])
      else
        let ctx :=
          if content ≠ [] then
            match ctx.cacheContent with
            | none => { ctx with cacheContent := some (.text content) }
            | some (.text s) => { ctx with cacheContent := some (.text (s ++ content)) }
            | some (.raw _) => ctx
          else ctx
        match ctx.cacheContent with
        | some (.text s) => (ctx, some s)
        | _ => (ctx, some [])

/-- The loop of `handleStreamChunk`, which ends with the first invalid message. -/
def handleMessages : List GoString → Context → Context × Bool
  | [], ctx => (ctx, true)
  | msg :: rest, ctx =>
      match processSSEMessage packages config ctx msg with
      | (ctx, none) => (ctx, false)
      | (ctx, some _) => handleMessages rest ctx

/-- `handleStreamChunk`: the context, and whether there was no error. -/
def handleStreamChunk (ctx : Context) (chunk : GoString) : Context × Bool :=
  let partialMessage := ctx.partialMessage.getD [] ++ chunk
  let messages := split partialMessage (bytes "\n\n")
  match handleMessages packages config messages.dropLast ctx with
  | (ctx, false) => (ctx, false)
  | (ctx, true) =>
      if !(bytes "\n\n").isSuffixOf partialMessage then
        ({ ctx with partialMessage := some (messages.getLastD []) }, true)
      else ({ ctx with partialMessage := none }, true)

def processNonStreamLastChunk (ctx : Context) (chunk : GoString) : Option GoString :=
  let body := match ctx.cacheContent with
    | some (.raw tc) => tc ++ chunk
    | _ => chunk
  let value := (packages.get body config.cacheValueFrom).getD []
  if Strings.trimSpace value = [] then none else some value

/-- The text under `CACHE_CONTENT_CONTEXT_KEY`. -/
def Context.content (ctx : Context) : GoString :=
  match ctx.cacheContent with
  | some (.text s) => s
  | _ => []

def processStreamLastChunk (ctx : Context) (chunk : GoString) : Context × Option GoString :=
  if 0 < chunk.length then
    let lastMessage := ctx.partialMessage.getD [] ++ chunk
    if !(bytes "\n\n").isSuffixOf lastMessage then (ctx, none)
    else
      match processSSEMessage packages config ctx (lastMessage.take (lastMessage.length - 2)) with
      | (ctx, none) => (ctx, none)
      | (ctx, some value) => (ctx, some (if value = [] then ctx.content else value))
  else (ctx, some ctx.content)

def buildCacheKey (keyPrefix consumer rawQuestionKey : GoString) : GoString :=
  keyPrefix ++ bytes "v2:" ++ packages.digest (consumer ++ 0 :: rawQuestionKey)

def cacheResponse (ctx : Context) (key value : GoString) : Option Write :=
  if ctx.consumer = [] then none
  else if Strings.trimSpace value = [] then none
  else config.cacheProvider.map fun keyPrefix =>
    ⟨buildCacheKey packages keyPrefix ctx.consumer key, value⟩

/-- `onHttpResponseBody`, which passes the chunk on as it is. -/
def onHttpResponseBody (ctx : Context) (chunk : GoString) (isLastChunk : Bool) :
    Context × Option Write :=
  if ctx.toolCalls.isSome || ctx.errorPartialMessage then (ctx, none)
  else
    match ctx.cacheKey with
    | none => (ctx, none)
    | some key =>
        if !isLastChunk then
          if !ctx.stream then (handleNonStreamChunk ctx chunk, none)
          else
            match handleStreamChunk packages config ctx (unifySSEChunk chunk) with
            | (ctx, true) => (ctx, none)
            | (ctx, false) => ({ ctx with errorPartialMessage := true }, none)
        else
          let (ctx, value) :=
            if !ctx.stream then (ctx, processNonStreamLastChunk packages config ctx chunk)
            else processStreamLastChunk packages config ctx (unifySSEChunk chunk)
          (ctx, value.bind (cacheResponse packages config ctx key))

/-- The callbacks of a response, with what has been written. -/
def respond (s : Context × List Write) (callback : GoString × Bool) : Context × List Write :=
  let (ctx, write) := onHttpResponseBody packages config s.1 callback.1 callback.2
  (ctx, s.2 ++ write.toList)

end Handlers

/-! ### Responses -/

/-- The lines of an event, one of which has data. -/
structure Event where
  before : List GoString
  payload : GoString
  after : List GoString
  other : ∀ line ∈ before ++ after, line ≠ [] ∧ Strings.startsWith line (bytes "data:") = false
  plain : ∀ line ∈ payload :: (before ++ after), ∀ b ∈ line, b ≠ 10 ∧ b ≠ 13

namespace Event

def lines (e : Event) : List GoString := e.before ++ (bytes "data:" ++ e.payload) :: e.after

/-- The text of an event up to the empty line behind it. -/
def block (e : Event) : GoString := Strings.join e.lines [10]

def IsValue (e : Event) : Prop := (Json.parse e.payload).isSome = true

def IsDone (e : Event) : Prop := Strings.trimSpace e.payload = bytes "[DONE]"

instance (e : Event) : Decidable e.IsDone := inferInstanceAs (Decidable (_ = _))

end Event

/-- A streamed response: the data of every event is JSON, or `[DONE]` in the last one. -/
structure Response where
  events : List Event
  value : ∀ e ∈ events.dropLast, e.IsValue
  last : ∀ e ∈ events, e.IsValue ∨ e.IsDone

namespace Response

def blocks (r : Response) : List GoString := r.events.map Event.block

def text (r : Response) : GoString := sealBlocks [10, 10] r.blocks

/-- The events that are complete within the first `n` bytes. -/
def completed (r : Response) (n : ℕ) : List Event := r.events.take (Lib.completed [10, 10] n r.blocks)

end Response

/-- The context of a request whose answer is not in the cache, when a streamed response begins. -/
structure Miss where
  consumer : GoString
  cacheKey : GoString
  known : consumer ≠ []

def Miss.context (miss : Miss) : Context := ⟨miss.consumer, some miss.cacheKey, true, none, none, none, false⟩

section Answers

variable (packages : Packages) (config : PluginConfig)

/-- The text at the stream path. -/
def Event.text (e : Event) : GoString :=
  if e.IsDone then [] else (packages.get e.payload config.cacheStreamValueFrom).getD []

/-- The value at the tool-call path. -/
def Event.toolCalls (e : Event) : Option GoString :=
  if e.IsDone then none else packages.get e.payload config.cacheToolCallsFrom

def HasToolCalls (events : List Event) : Prop :=
  ∃ e ∈ events, (e.toolCalls packages config).isSome = true

def answer (events : List Event) : GoString := events.flatMap (Event.text packages config)

/-- What is written while a response arrives in pieces. -/
def written (miss : Miss) (chunks : List GoString) (last : GoString) : List Write :=
  ((chunks.map (·, false) ++ [(last, true)]).foldl (respond packages config)
    (miss.context, [])).2

/-- Nothing is written if there are tool calls or the answer is blank, and otherwise the answer. -/
def Complete (keyPrefix : GoString) (miss : Miss) (r : Response) (writes : List Write) : Prop :=
  (HasToolCalls packages config r.events → writes = []) ∧
    (¬ HasToolCalls packages config r.events →
      let value := answer packages config r.events
      writes = if Strings.trimSpace value = [] then []
        else [⟨buildCacheKey packages keyPrefix miss.consumer miss.cacheKey, value⟩])

end Answers

/-! ### Events -/

/-- Bytes that a JSON value begins with. -/
def beginsValue (b : UInt8) : Bool :=
  [34, 91, 123, 110, 116, 102, 45].contains b || Json.isDigit b

theorem parseValue_eq_none {s t : GoString} {b : UInt8} (hs : Json.skipSpace s = b :: t)
    (hb : beginsValue b = false) (n : ℕ) : Json.parseValue n s = none := by
  simp only [beginsValue, List.contains_eq_mem, Bool.or_eq_false_iff, decide_eq_false_iff_not,
    List.mem_cons, List.not_mem_nil, or_false, not_or] at hb
  obtain ⟨⟨h34, h91, h123, h110, h116, h102, h45⟩, hdigit⟩ := hb
  have hword {c : UInt8} (hc : b ≠ c) {w : GoString} (hw : w.head? = some c) :
      ¬ w.isPrefixOf (b :: t) = true := by
    obtain ⟨w, rfl⟩ := List.head?_eq_some_iff.mp hw
    simp [List.isPrefixOf, hc.symm]
  have hnumber : Json.lexNumber (b :: t) = none := by
    have h48 : b ≠ 48 := by
      rintro rfl
      exact absurd hdigit (by decide)
    simp [Json.lexNumber, Json.lexMinus, h45, Json.lexInt, h48, Json.lexDigits, hdigit]
  cases n with
  | zero => rfl
  | succ n =>
      rw [Json.parseValue, hs]
      simp only [if_neg h34, if_neg h91, if_neg h123]
      rw [if_neg (hword h110 (by decide)), if_neg (hword h116 (by decide)),
        if_neg (hword h102 (by decide)), hnumber]
      rfl

theorem beginsValue_of_invisible {b : UInt8} (h : ¬ Strings.Visible b) : beginsValue b = false := by
  cases hb : beginsValue b with
  | false => rfl
  | true =>
      exfalso
      apply h
      simp only [beginsValue, Json.isDigit, Bool.or_eq_true, List.contains_eq_mem, decide_eq_true_eq,
        Bool.and_eq_true] at hb
      rcases hb with hb | ⟨hlow, hhigh⟩
      · exact @Strings.forall_mem_of_all Strings.Visible _ [34, 91, 123, 110, 116, 102, 45] (by decide) b hb
      · exact ⟨le_trans (by decide) hlow, le_trans hhigh (by decide)⟩

/-- JSON is not `[DONE]`, whatever space is around it. -/
theorem parse_eq_none_of_done {payload : GoString}
    (h : Strings.trimSpace payload = bytes "[DONE]") : Json.parse payload = none := by
  obtain ⟨u, v, hpayload, hinvisible⟩ := Strings.exists_trimSpace payload
  have hdone : bytes "[DONE]" = 91 :: 68 :: bytes "ONE]" := by decide
  rw [h, hdone] at hpayload
  have hvalue (n : ℕ) : Json.parseValue n payload = none := by
    cases hskip : u.dropWhile Json.isSpace with
    | cons b w =>
        -- some byte before `[DONE]` is no space of JSON
        have hb : b ∈ u := List.dropWhile_subset _ (by rw [hskip]; simp)
        have hs : Json.skipSpace payload = b :: (w ++ 91 :: 68 :: (bytes "ONE]" ++ v)) := by
          rw [hpayload, Json.skipSpace, List.dropWhile_append, hskip]
          rfl
        exact parseValue_eq_none hs (beginsValue_of_invisible (hinvisible b hb)) n
    | nil =>
        have hs : Json.skipSpace payload = 91 :: 68 :: (bytes "ONE]" ++ v) := by
          rw [hpayload, Json.skipSpace, List.dropWhile_append, hskip]
          rfl
        have helems (n : ℕ) (t : GoString) : Json.parseElems n (68 :: t) = none := by
          cases n with
          | zero => rfl
          | succ n =>
              rw [Json.parseElems, parseValue_eq_none (Json.skipSpace_cons (by decide)) (by decide)]
        cases n with
        | zero => rfl
        | succ n =>
            rw [Json.parseValue, hs]
            simp [Json.skipSpace_cons (show Json.isSpace 68 = false by decide), helems]
  rw [Json.parse, hvalue]

namespace Event

theorem IsValue.not_done {e : Event} (h : e.IsValue) : ¬ e.IsDone := by
  intro hdone
  rw [IsValue, parse_eq_none_of_done hdone] at h
  cases h

theorem payload_ne_nil {e : Event} (h : e.IsValue ∨ e.IsDone) : e.payload ≠ [] := by
  intro hnil
  rcases h with h | h
  · rw [IsValue, hnil] at h
    exact absurd h (by decide)
  · rw [IsDone, hnil] at h
    exact absurd h (by decide)

theorem lines_ne_nil (e : Event) : e.lines ≠ [] := by simp [lines]

theorem mem_lines {e : Event} {line : GoString} (h : line ∈ e.lines) :
    line ≠ [] ∧ ∀ b ∈ line, b ≠ 10 ∧ b ≠ 13 := by
  have hother {line : GoString} (hline : line ∈ e.before ++ e.after) :
      line ≠ [] ∧ ∀ b ∈ line, b ≠ 10 ∧ b ≠ 13 :=
    ⟨(e.other line hline).1, e.plain line (List.mem_cons_of_mem _ hline)⟩
  rw [lines, List.mem_append, List.mem_cons] at h
  rcases h with h | rfl | h
  · exact hother (List.mem_append_left _ h)
  · refine ⟨by simp [show bytes "data:" = [100, 97, 116, 97, 58] by decide], fun b hb => ?_⟩
    rcases List.mem_append.mp hb with hb | hb
    · exact @Strings.forall_mem_of_all (fun c => c ≠ 10 ∧ c ≠ 13) _ (bytes "data:") (by decide) b hb
    · exact e.plain e.payload List.mem_cons_self b hb
  · exact hother (List.mem_append_right _ h)

theorem isBlock_block (e : Event) : IsBlock [10, 10] e.block :=
  isBlock_lines e.lines_ne_nil fun line hline =>
    ⟨(mem_lines hline).1, fun h => ((mem_lines hline).2 10 h).1 rfl⟩

/-- The line that is read of an event is the one with its data. -/
theorem find_data (e : Event) :
    (split e.block (bytes "\n")).find? (Strings.startsWith · (bytes "data:")) =
      some (bytes "data:" ++ e.payload) := by
  have hsplit : split e.block [10] = e.lines :=
    split_join (fun line hline => isBlock_line fun h => ((mem_lines hline).2 10 h).1 rfl) (by simp)
      e.lines_ne_nil
  have hbefore : e.before.find? (Strings.startsWith · (bytes "data:")) = none := by
    rw [List.find?_eq_none]
    intro line hline
    simp [(e.other line (List.mem_append_left _ hline)).2]
  have hdata : Strings.startsWith (bytes "data:" ++ e.payload) (bytes "data:") = true :=
    List.isPrefixOf_iff_prefix.mpr (List.prefix_append _ _)
  rw [show bytes "\n" = [10] by decide, hsplit, lines, List.find?_append, hbefore,
    List.find?_cons, hdata]
  rfl

theorem block_head (e : Event) : e.block ≠ [] ∧ e.block.head? ≠ some 10 := by
  cases hlines : e.lines with
  | nil => exact absurd hlines e.lines_ne_nil
  | cons line rest =>
      obtain ⟨hne, hplain⟩ := @mem_lines e line (by simp [hlines])
      obtain ⟨b, t, rfl⟩ := List.exists_cons_of_ne_nil hne
      have hb := (hplain b (by simp)).1
      cases rest <;> simp [block, hlines, Strings.join, List.intercalate_cons_cons, hb]

end Event

/-! ### Messages -/

section Messages

variable (packages : Packages) (config : PluginConfig)

/-- The last tool calls of the events, or those from before. -/
def noted (toolCalls : Option GoString) (events : List Event) : Option GoString :=
  events.foldl (fun acc e => (e.toolCalls packages config).or acc) toolCalls

/-- The text gathered so far as it is kept in the context. -/
def kept (t : GoString) : Option Content := if t = [] then none else some (.text t)

@[simp] theorem answer_nil : answer packages config [] = [] := rfl

@[simp] theorem answer_cons (e : Event) (events : List Event) :
    answer packages config (e :: events) =
      e.text packages config ++ answer packages config events := rfl

theorem answer_append (events events' : List Event) :
    answer packages config (events ++ events') =
      answer packages config events ++ answer packages config events' := List.flatMap_append

theorem isSome_noted (toolCalls : Option GoString) (events : List Event) :
    (noted packages config toolCalls events).isSome = true ↔
      toolCalls.isSome = true ∨ HasToolCalls packages config events := by
  induction events generalizing toolCalls with
  | nil => simp [noted, HasToolCalls]
  | cons e events ih =>
      have hrest := ih ((e.toolCalls packages config).or toolCalls)
      rw [noted] at hrest ⊢
      rw [List.foldl_cons, hrest]
      simp only [HasToolCalls, Option.isSome_or, Bool.or_eq_true, List.exists_mem_cons_iff]
      exact (or_congr_left or_comm).trans or_assoc

theorem processMessages_events {events : List Event} (hvalid : ∀ e ∈ events, e.payload ≠ [])
    (hdone : ∀ e ∈ events.dropLast, ¬ e.IsDone) (ctx : Context) (content : GoString) :
    ∃ done, processMessages packages config (events.map Event.block) ctx content =
      ({ ctx with toolCalls := noted packages config ctx.toolCalls events },
        some (content ++ answer packages config events, done)) := by
  induction events generalizing ctx content with
  | nil => exact ⟨false, by simp [processMessages, noted]⟩
  | cons e events ih =>
      have hlen : ¬ (bytes "data:" ++ e.payload).length < 6 := by
        have := List.length_pos_iff.mpr (hvalid e (by simp))
        simp [show (bytes "data:").length = 5 by decide]
        omega
      have hdrop : (bytes "data:" ++ e.payload).drop 5 = e.payload :=
        List.drop_left' (by decide)
      by_cases he : e.IsDone
      · -- `[DONE]` is met in the last event only
        obtain rfl : events = [] := by
          cases events with
          | nil => rfl
          | cons e' events => exact absurd he (hdone e (by simp))
        have hpayload : Strings.trimSpace e.payload = bytes "[DONE]" := he
        refine ⟨true, ?_⟩
        rw [List.map_cons, processMessages, e.find_data]
        dsimp only [Option.getD_some]
        rw [if_neg hlen, hdrop, if_pos hpayload]
        simp [noted, Event.toolCalls, Event.text, he]
      · have hdone' : ∀ e' ∈ events.dropLast, ¬ e'.IsDone := fun e' he' =>
          hdone e' (List.mem_of_mem_tail (by
            cases events with
            | nil => simp at he'
            | cons e'' events => simpa using he'))
        obtain ⟨done, hrest⟩ := ih (fun e' he' => hvalid e' (by simp [he'])) hdone'
          { ctx with toolCalls := (e.toolCalls packages config).or ctx.toolCalls }
          (content ++ e.text packages config)
        have hpayload : ¬ Strings.trimSpace e.payload = bytes "[DONE]" := he
        refine ⟨done, ?_⟩
        rw [List.map_cons, processMessages, e.find_data]
        dsimp only [Option.getD_some]
        rw [if_neg hlen, hdrop, if_neg hpayload]
        rw [Event.toolCalls, Event.text, if_neg he, if_neg he] at hrest
        rw [hrest]
        simp [noted, Event.toolCalls, Event.text, he]

/-- A text of events adds what it has to the context. -/
theorem processSSEMessage_events {events : List Event} (hne : events ≠ [])
    (hvalid : ∀ e ∈ events, e.payload ≠ []) (hdone : ∀ e ∈ events.dropLast, ¬ e.IsDone)
    {ctx : Context} {t : GoString} (hctx : ctx.cacheContent = kept t) :
    ∃ value, processSSEMessage packages config ctx (Strings.join (events.map Event.block) [10, 10]) =
        ({ ctx with
            toolCalls := noted packages config ctx.toolCalls events
            cacheContent := kept (t ++ answer packages config events) }, some value) ∧
      (value = [] ∨ value = t ++ answer packages config events) := by
  have hsplit : split (Strings.join (events.map Event.block) [10, 10]) [10, 10] =
      events.map Event.block := by
    apply split_join
    · intro b hb
      obtain ⟨e, -, rfl⟩ := List.mem_map.mp hb
      exact e.isBlock_block
    · simp
    · simpa using hne
  obtain ⟨done, hmessages⟩ := processMessages_events packages config hvalid hdone ctx []
  rw [processSSEMessage, show bytes "\n\n" = [10, 10] by decide, hsplit, hmessages]
  dsimp only [List.nil_append]
  by_cases hempty : answer packages config events = []
  · cases done with
    | false =>
        refine ⟨[], ?_, .inl rfl⟩
        rw [hempty, if_pos ⟨rfl, rfl⟩, List.append_nil, hctx]
    | true =>
        rw [hempty, if_neg (by simp), List.append_nil, if_neg (by simp), hctx]
        by_cases ht : t = []
        · exact ⟨[], by simp [kept, ht], .inl rfl⟩
        · exact ⟨t, by simp [kept, ht], .inr rfl⟩
  · have hkept : kept (t ++ answer packages config events) =
        some (.text (t ++ answer packages config events)) := if_neg (by simp [hempty])
    refine ⟨t ++ answer packages config events, ?_, .inr rfl⟩
    rw [if_neg (fun h => hempty h.1), if_pos hempty, hctx, hkept]
    by_cases ht : t = []
    · simp [kept, ht]
    · simp [kept, ht]

theorem handleMessages_events {events : List Event} (hvalid : ∀ e ∈ events, e.payload ≠ [])
    {ctx : Context} {t : GoString} (hctx : ctx.cacheContent = kept t) :
    handleMessages packages config (events.map Event.block) ctx =
      ({ ctx with
          toolCalls := noted packages config ctx.toolCalls events
          cacheContent := kept (t ++ answer packages config events) }, true) := by
  induction events generalizing ctx t with
  | nil => simp [handleMessages, noted, ← hctx]
  | cons e events ih =>
      obtain ⟨value, hfirst, -⟩ := @processSSEMessage_events packages config [e] (by simp)
        (fun e' he' => hvalid e' (by simp_all)) (by simp) ctx t hctx
      have hjoin : Strings.join ([e].map Event.block) [10, 10] = e.block := by simp [Strings.join]
      rw [hjoin] at hfirst
      rw [List.map_cons, handleMessages, hfirst]
      dsimp only
      rw [ih (fun e' he' => hvalid e' (by simp [he'])) rfl]
      simp [noted]

/-- A piece of the response that completes some events and begins the next one. -/
theorem handleStreamChunk_events {events : List Event} (hvalid : ∀ e ∈ events, e.payload ≠ [])
    {rest : List Event} {p : GoString} (hp : Opens [10, 10] p (rest.map Event.block))
    {ctx : Context} {t chunk : GoString} (hctx : ctx.cacheContent = kept t)
    (hchunk : ctx.partialMessage.getD [] ++ chunk =
      sealBlocks [10, 10] (events.map Event.block) ++ p) :
    ∃ part : Option GoString, part.getD [] = p ∧ handleStreamChunk packages config ctx chunk =
      ({ ctx with
          toolCalls := noted packages config ctx.toolCalls events
          cacheContent := kept (t ++ answer packages config events)
          partialMessage := part }, true) := by
  have hblocks (es : List Event) : ∀ b ∈ es.map Event.block,
      IsBlock [10, 10] b ∧ b ≠ [] ∧ b.head? ≠ some 10 := by
    intro b hb
    obtain ⟨e, -, rfl⟩ := List.mem_map.mp hb
    exact ⟨e.isBlock_block, e.block_head⟩
  have hsplit : split (sealBlocks [10, 10] (events.map Event.block) ++ p) [10, 10] =
      events.map Event.block ++ [p] :=
    split_sealBlocks (fun b hb => (hblocks events b hb).1) (by simp)
      (hp.index_eq_none (fun b hb => (hblocks rest b hb).1) (by simp))
  rw [handleStreamChunk, hchunk, show bytes "\n\n" = [10, 10] by decide, hsplit,
    List.dropLast_concat, handleMessages_events packages config hvalid hctx]
  dsimp only
  split
  · exact ⟨some p, rfl, by simp⟩
  · rename_i hsuffix
    refine ⟨none, ?_, rfl⟩
    by_contra hne
    have hsuffix' : [10, 10] <:+ sealBlocks [10, 10] (events.map Event.block) ++ p := by
      simpa using hsuffix
    exact hp.not_suffix (hblocks rest) (fun hnil => hne hnil.symm) _ hsuffix'

/-- The piece that completes the last events. -/
theorem processStreamLastChunk_events {events : List Event} (hvalid : ∀ e ∈ events, e.payload ≠ [])
    (hdone : ∀ e ∈ events.dropLast, ¬ e.IsDone) {ctx : Context} {t chunk : GoString}
    (hctx : ctx.cacheContent = kept t) (hp : Opens [10, 10] (ctx.partialMessage.getD [])
      (events.map Event.block))
    (hchunk : ctx.partialMessage.getD [] ++ chunk =
      sealBlocks [10, 10] (events.map Event.block)) :
    ∃ ctx' : Context, ctx'.consumer = ctx.consumer ∧
      processStreamLastChunk packages config ctx chunk =
        (ctx', some (t ++ answer packages config events)) := by
  have hcontent {ctx : Context} {t : GoString} (h : ctx.cacheContent = kept t) : ctx.content = t := by
    rw [Context.content, h, kept]
    split_ifs with ht
    · exact ht.symm
    · rfl
  rw [processStreamLastChunk]
  cases events with
  | nil =>
      obtain rfl : chunk = [] := (List.append_eq_nil_iff.mp hchunk).2
      exact ⟨ctx, rfl, by simp [hcontent hctx]⟩
  | cons e events =>
      have hpos : 0 < chunk.length := by
        by_contra hzero
        obtain rfl : chunk = [] := List.length_eq_zero_iff.mp (by omega)
        have hlen := congrArg List.length hchunk
        have hshort := hp.2
        simp at hlen hshort
        omega
      have hjoin : sealBlocks [10, 10] ((e :: events).map Event.block) =
          Strings.join ((e :: events).map Event.block) [10, 10] ++ [10, 10] :=
        sealBlocks_eq_join _ _
      have hsuffix : ([10, 10] : GoString).isSuffixOf
          (Strings.join ((e :: events).map Event.block) [10, 10] ++ [10, 10]) = true := by simp
      obtain ⟨value, hmessage, hvalue⟩ :=
        processSSEMessage_events packages config (by simp) hvalid hdone hctx
      rw [if_pos hpos, hchunk, hjoin, show bytes "\n\n" = [10, 10] by decide]
      dsimp only
      rw [hsuffix, Bool.not_true, if_neg (by simp), List.length_append,
        show ([10, 10] : GoString).length = 2 from rfl, Nat.add_sub_cancel, List.take_left, hmessage]
      refine ⟨{ ctx with
        toolCalls := noted packages config ctx.toolCalls (e :: events)
        cacheContent := kept (t ++ answer packages config (e :: events)) }, rfl, ?_⟩
      dsimp only
      rw [hcontent rfl]
      rcases hvalue with rfl | rfl
      · simp
      · split_ifs with hnil
        · rfl
        · rfl

end Messages

/-! ### Runs -/

namespace Response

variable (r : Response)

theorem payload_ne_nil {e : Event} (he : e ∈ r.events) : e.payload ≠ [] :=
  Event.payload_ne_nil (r.last e he)

theorem plain {b : UInt8} (hb : b ∈ r.text) : b ≠ 13 := by
  rw [text, sealBlocks, List.mem_flatMap] at hb
  obtain ⟨block, hblock, hb⟩ := hb
  obtain ⟨e, -, rfl⟩ := List.mem_map.mp hblock
  rcases List.mem_append.mp hb with hb | hb
  · rcases mem_intercalate hb with hb | ⟨line, hline, hb⟩
    · obtain rfl : b = 10 := by simpa using hb
      decide
    · exact ((Event.mem_lines hline).2 b hb).2
  · obtain rfl : b = 10 := by simpa using hb
    decide

theorem unify_eq {chunk : GoString} (h : chunk ⊆ r.text) : unifySSEChunk chunk = chunk := by
  have hcr : 13 ∉ chunk := fun hin => r.plain (h hin) rfl
  rw [unifySSEChunk, replaceAll_of_notMem (c := 13) (by decide) hcr,
    replaceAll_of_notMem (c := 13) (by decide) hcr]

/-- The events that a piece completes. -/
theorem completed_append {t chunk : GoString} (h : t ++ chunk <+: r.text) {p : GoString}
    (ht : t = sealBlocks [10, 10] ((r.completed t.length).map Event.block) ++ p) :
    ∃ more rest p', r.completed (t ++ chunk).length = r.completed t.length ++ more ∧
      r.events = r.completed t.length ++ more ++ rest ∧
      p ++ chunk = sealBlocks [10, 10] (more.map Event.block) ++ p' ∧
      Opens [10, 10] p' (rest.map Event.block) := by
  obtain ⟨p', hsplit, hopens⟩ := exists_opens h
  generalize hk : Lib.completed [10, 10] t.length r.blocks = k at *
  have hkle : k ≤ r.blocks.length := hk ▸ completed_le _ _
  have hdone : r.completed t.length = r.events.take k := by rw [completed, hk]
  rw [hdone, List.map_take] at ht
  have hlen : (t ++ chunk).length =
      (sealBlocks [10, 10] (r.blocks.take k)).length + (p ++ chunk).length := by
    have := congrArg List.length ht
    rw [List.length_append] at this ⊢
    rw [List.length_append, this, blocks]
    omega
  generalize hk' : Lib.completed [10, 10] (p ++ chunk).length (r.blocks.drop k) = k'
  have hsum : Lib.completed [10, 10] (t ++ chunk).length r.blocks = k + k' := by
    rw [hlen, completed_add hkle, hk']
  rw [hsum] at hsplit hopens
  refine ⟨(r.events.drop k).take k', r.events.drop (k + k'), p', ?_, ?_, ?_, ?_⟩
  · rw [completed, hsum, hdone, List.take_add]
  · rw [hdone, ← List.take_add, List.take_append_drop]
  · have hblocks : sealBlocks [10, 10] (r.blocks.take (k + k')) =
        sealBlocks [10, 10] (r.blocks.take k) ++
          sealBlocks [10, 10] (((r.events.drop k).take k').map Event.block) := by
      rw [List.take_add, sealBlocks_append, blocks, List.map_take, List.map_drop]
    rw [hblocks] at hsplit
    have hsame : sealBlocks [10, 10] (r.blocks.take k) ++ (p ++ chunk) =
        sealBlocks [10, 10] (r.blocks.take k) ++
          (sealBlocks [10, 10] (((r.events.drop k).take k').map Event.block) ++ p') := by
      rw [← List.append_assoc, ← List.append_assoc, ← hsplit]
      exact congrArg (· ++ chunk) ht.symm
    exact List.append_cancel_left hsame
  · rw [List.map_drop]
    exact hopens

end Response

section Runs

variable {packages : Packages} {config : PluginConfig} {miss : Miss} {r : Response}

/-- After a part of the response, either tool calls have been noted or the context has the text so
far and the beginning of the next event. -/
def Gathered (packages : Packages) (config : PluginConfig) (miss : Miss) (r : Response)
    (t : GoString) (ctx : Context) : Prop :=
  (HasToolCalls packages config (r.completed t.length) ∧ ctx.toolCalls.isSome = true) ∨
    ¬ HasToolCalls packages config (r.completed t.length) ∧ ∃ part : Option GoString,
      t = sealBlocks [10, 10] ((r.completed t.length).map Event.block) ++ part.getD [] ∧
      ctx = { miss.context with
        cacheContent := kept (answer packages config (r.completed t.length))
        partialMessage := part }

theorem HasToolCalls.append_iff {events events' : List Event} :
    HasToolCalls packages config (events ++ events') ↔
      HasToolCalls packages config events ∨ HasToolCalls packages config events' := by
  simp only [HasToolCalls, List.mem_append, or_and_right, exists_or]

theorem Gathered.step {t chunk : GoString} {ctx : Context}
    (h : Gathered packages config miss r t ctx) (hcut : t ++ chunk <+: r.text) :
    Gathered packages config miss r (t ++ chunk)
        (onHttpResponseBody packages config ctx chunk false).1 ∧
      (onHttpResponseBody packages config ctx chunk false).2 = none := by
  rcases h with ⟨htools, hnoted⟩ | ⟨htools, part, ht, rfl⟩
  · rw [onHttpResponseBody, hnoted, Bool.true_or, if_pos rfl]
    refine ⟨.inl ⟨?_, hnoted⟩, rfl⟩
    obtain ⟨p, hp, -⟩ := exists_opens ((List.prefix_append t chunk).trans hcut)
    obtain ⟨more, -, -, hmore, -⟩ := r.completed_append hcut (p := p) (by
      rw [Response.completed, List.map_take]
      exact hp)
    rw [hmore, HasToolCalls.append_iff]
    exact .inl htools
  · obtain ⟨more, rest, p', hmore, hevents, hchunk, hopens⟩ := r.completed_append hcut ht
    have hvalid : ∀ e ∈ more, e.payload ≠ [] := fun e he =>
      r.payload_ne_nil (by simp [hevents, he])
    have hunify : unifySSEChunk chunk = chunk :=
      r.unify_eq fun b hb => hcut.subset (List.mem_append_right _ hb)
    obtain ⟨part', hpart', hstep⟩ := @handleStreamChunk_events packages config more hvalid rest p'
      hopens { miss.context with
        cacheContent := kept (answer packages config (r.completed t.length))
        partialMessage := part } _ chunk rfl hchunk
    rw [onHttpResponseBody]
    simp only [Miss.context, Option.isSome_none, Bool.or_self, Bool.false_eq_true, if_false,
      Bool.not_false, if_true, Bool.not_true] at hstep ⊢
    rw [hunify, hstep]
    refine ⟨?_, rfl⟩
    by_cases hnew : HasToolCalls packages config more
    · exact .inl ⟨by rw [hmore, HasToolCalls.append_iff]; exact .inr hnew,
        (isSome_noted packages config none more).mpr (.inr hnew)⟩
    · have hnone : noted packages config none more = none := by
        rw [← Option.not_isSome_iff_eq_none, isSome_noted]
        simpa using hnew
      refine .inr ⟨?_, part', ?_, ?_⟩
      · rw [hmore, HasToolCalls.append_iff]
        exact not_or.mpr ⟨htools, hnew⟩
      · rw [hmore, List.map_append, sealBlocks_append, hpart', List.append_assoc, ← hchunk,
          ← List.append_assoc, ← ht]
      · rw [hnone, hmore, answer_append]
        rfl

theorem Gathered.run {chunks : List GoString} {t : GoString} {ctx : Context}
    (h : Gathered packages config miss r t ctx) (hcut : t ++ chunks.flatten <+: r.text) :
    ∃ ctx', Gathered packages config miss r (t ++ chunks.flatten) ctx' ∧
      (chunks.map (·, false)).foldl (respond packages config) (ctx, []) = (ctx', []) := by
  induction chunks generalizing t ctx with
  | nil => exact ⟨ctx, by simpa using h, rfl⟩
  | cons chunk chunks ih =>
      rw [List.flatten_cons, ← List.append_assoc] at hcut ⊢
      obtain ⟨hstep, hnone⟩ := h.step ((List.prefix_append _ _).trans hcut)
      obtain ⟨ctx', hctx', hrun⟩ := ih hstep hcut
      have hrespond : respond packages config (ctx, []) (chunk, false) =
          ((onHttpResponseBody packages config ctx chunk false).1, []) := by
        rw [respond]
        dsimp only
        rw [hnone]
        rfl
      refine ⟨ctx', hctx', ?_⟩
      rw [List.map_cons, List.foldl_cons, hrespond]
      exact hrun

theorem gathered_start : Gathered packages config miss r [] miss.context := by
  have hnone : r.completed 0 = [] := by
    rw [Response.completed]
    cases hblocks : r.blocks with
    | nil => rfl
    | cons b blocks => simp [Lib.completed]
  refine .inr ⟨?_, none, ?_, ?_⟩
  · simp [hnone, HasToolCalls]
  · simp [hnone]
  · simp [hnone, kept, Miss.context]

/-- The last piece: the answer is written if no tool calls have been noted before. -/
theorem Gathered.last {t last : GoString} {ctx : Context}
    (h : Gathered packages config miss r t ctx) (hcut : t ++ last = r.text) :
    (HasToolCalls packages config (r.completed t.length) →
      (onHttpResponseBody packages config ctx last true).2 = none) ∧
    (¬ HasToolCalls packages config (r.completed t.length) →
      (onHttpResponseBody packages config ctx last true).2 =
        cacheResponse packages config miss.context miss.cacheKey
          (answer packages config r.events)) := by
  rcases h with ⟨htools, hnoted⟩ | ⟨htools, part, ht, rfl⟩
  · rw [onHttpResponseBody, hnoted, Bool.true_or, if_pos rfl]
    exact ⟨fun _ => rfl, fun hnone => absurd htools hnone⟩
  · obtain ⟨more, rest, p', hmore, hevents, hchunk, hopens⟩ :=
      @Response.completed_append r t [] (by simp [← hcut]) _ ht
    obtain rfl : more = [] := by simpa using hmore
    obtain rfl : p' = part.getD [] := by simpa using hchunk.symm
    rw [List.append_nil] at hevents
    have hlast : part.getD [] ++ last = sealBlocks [10, 10] (rest.map Event.block) := by
      have htext : r.text = sealBlocks [10, 10] ((r.completed t.length).map Event.block) ++
          sealBlocks [10, 10] (rest.map Event.block) := by
        rw [← sealBlocks_append, ← List.map_append, ← hevents]
        rfl
      rw [← hcut, ht, List.append_assoc, ← ht] at htext
      exact List.append_cancel_left htext
    have hdone : ∀ e ∈ rest.dropLast, ¬ e.IsDone := by
      intro e he
      refine (r.value e ?_).not_done
      have hne : rest ≠ [] := by
        rintro rfl
        simp at he
      rw [hevents, List.dropLast_append_of_ne_nil hne]
      exact List.mem_append_right _ he
    have hunify : unifySSEChunk last = last :=
      r.unify_eq fun b hb => hcut ▸ List.mem_append_right t hb
    obtain ⟨ctx', hconsumer, hstep⟩ := @processStreamLastChunk_events packages config rest
      (fun e he => r.payload_ne_nil (by simp [hevents, he])) hdone
      { miss.context with
        cacheContent := kept (answer packages config (r.completed t.length))
        partialMessage := part } _ last rfl hopens hlast
    refine ⟨fun hsome => absurd hsome htools, fun _ => ?_⟩
    rw [onHttpResponseBody]
    simp only [Miss.context, Option.isSome_none, Bool.or_self, Bool.false_eq_true, if_false,
      Bool.not_false, if_true, Bool.not_true] at hstep hconsumer ⊢
    rw [hunify, hstep, ← answer_append, ← hevents]
    simp only [Option.bind_some, cacheResponse, hconsumer]

/-- What is written, for every cut. -/
theorem written_eq {keyPrefix : GoString} (hprovider : config.cacheProvider = some keyPrefix)
    {chunks : List GoString} {last : GoString} (hcut : chunks.flatten ++ last = r.text) :
    (HasToolCalls packages config (r.completed chunks.flatten.length) →
      written packages config miss chunks last = []) ∧
    (¬ HasToolCalls packages config (r.completed chunks.flatten.length) →
      written packages config miss chunks last =
        if Strings.trimSpace (answer packages config r.events) = [] then []
        else [⟨buildCacheKey packages keyPrefix miss.consumer miss.cacheKey,
          answer packages config r.events⟩]) := by
  obtain ⟨ctx, hctx, hrun⟩ := @Gathered.run packages config miss r chunks [] miss.context
    gathered_start (by simp [← hcut])
  obtain ⟨hsome, hnone⟩ := hctx.last hcut
  have hwritten : written packages config miss chunks last =
      (onHttpResponseBody packages config ctx last true).2.toList := by
    rw [written, List.foldl_append, hrun]
    rfl
  refine ⟨fun htools => ?_, fun htools => ?_⟩
  · rw [hwritten, hsome htools]
    rfl
  · have hknown : ¬ miss.context.consumer = [] := miss.known
    rw [hwritten, hnone htools, cacheResponse, if_neg hknown, hprovider]
    split_ifs with hblank
    · rfl
    · rfl

end Runs

/-- Whatever the cut, exactly the answer is written, unless tool calls come with the last piece
only and there is an answer beside them. -/
theorem complete_iff {packages : Packages} {config : PluginConfig} {keyPrefix : GoString}
    (hprovider : config.cacheProvider = some keyPrefix) (miss : Miss) (r : Response)
    {chunks : List GoString} {last : GoString} (hcut : chunks.flatten ++ last = r.text) :
    Complete packages config keyPrefix miss r (written packages config miss chunks last) ↔
      (HasToolCalls packages config r.events →
        HasToolCalls packages config (r.completed chunks.flatten.length) ∨
          Strings.trimSpace (answer packages config r.events) = []) := by
  obtain ⟨hsome, hnone⟩ := @written_eq packages config miss r keyPrefix hprovider chunks last hcut
  constructor
  · rintro ⟨hempty, -⟩ htools
    by_contra hnot
    obtain ⟨hlate, hblank⟩ := not_or.mp hnot
    have hwritten := hnone hlate
    rw [hempty htools, if_neg hblank] at hwritten
    cases hwritten
  · intro h
    refine ⟨fun htools => ?_, fun htools => ?_⟩
    · rcases h htools with hsoon | hblank
      · exact hsome hsoon
      · by_cases hsoon : HasToolCalls packages config (r.completed chunks.flatten.length)
        · exact hsome hsoon
        · rw [hnone hsoon, if_pos hblank]
    · apply hnone
      rintro ⟨e, he, htool⟩
      exact htools ⟨e, List.mem_of_mem_take he, htool⟩

namespace Example

/-- `gjson` on the payloads of the events below. -/
def packages : Packages where
  get payload path :=
    if path = bytes "c" ∧ payload ∈ [bytes "\x7b\"c\":1\x7d", bytes "\x7b\"c\":1,\"t\":2\x7d"] then
      some (bytes "1")
    else if path = bytes "t" ∧ payload = bytes "\x7b\"c\":1,\"t\":2\x7d" then some (bytes "2")
    else none
  digest s := s

def config : PluginConfig := ⟨bytes "m", bytes "c", bytes "t", some []⟩

def event (payload : GoString) (h : ∀ b ∈ payload, b ≠ 10 ∧ b ≠ 13) : Event :=
  ⟨[], payload, [], by simp, by simpa using h⟩

/-- An event with text, and the end. -/
def plainEvents : Response where
  events := [event (bytes "\x7b\"c\":1\x7d") (Strings.forall_mem_of_all (by decide)),
    event (bytes "[DONE]") (Strings.forall_mem_of_all (by decide))]
  value := by
    intro e he
    obtain rfl : e = event (bytes "\x7b\"c\":1\x7d") (Strings.forall_mem_of_all (by decide)) := by simpa using he
    rw [Event.IsValue]
    decide
  last := by
    intro e he
    rcases List.mem_pair.mp he with rfl | rfl
    · refine .inl ?_
      rw [Event.IsValue]
      decide
    · exact .inr (by decide)

/-- An event with text and tool calls. -/
def toolEvent : Response where
  events := [event (bytes "\x7b\"c\":1,\"t\":2\x7d") (Strings.forall_mem_of_all (by decide))]
  value := by simp
  last := by
    intro e he
    obtain rfl := List.mem_singleton.mp he
    refine .inl ?_
    rw [Event.IsValue]
    decide

def miss : Miss := ⟨bytes "alice", bytes "question", by decide⟩

end Example

open Example in
/-- A cut within the first event. -/
theorem complete_iff_cut :
    Complete packages config [] miss plainEvents
      (written packages config miss [plainEvents.text.take 8] (plainEvents.text.drop 8)) := by
  refine (complete_iff rfl miss plainEvents (by simp)).mpr ?_
  rintro ⟨e, he, htool⟩
  exfalso
  rcases List.mem_pair.mp he with rfl | rfl
  · exact absurd htool (by decide)
  · exact absurd htool (by decide)

open Example in
/-- The answer is cached although it comes with tool calls. -/
theorem tool_calls_cached :
    HasToolCalls packages config toolEvent.events ∧
      ¬ Complete packages config [] miss toolEvent
        (written packages config miss [] toolEvent.text) := by
  have htools : HasToolCalls packages config toolEvent.events :=
    ⟨_, List.mem_singleton_self _, by decide⟩
  refine ⟨htools, fun h => ?_⟩
  have hnone : ¬ HasToolCalls packages config (toolEvent.completed 0) := by
    rintro ⟨e, he, -⟩
    exact absurd he (by simp [Response.completed, Response.blocks, Lib.completed, toolEvent])
  have hwritten := (@written_eq packages config miss toolEvent [] rfl [] toolEvent.text rfl).2 hnone
  rw [h.1 htools, if_neg (by decide)] at hwritten
  cases hwritten

end Higress.AiCache.Streaming
