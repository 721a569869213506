import Mathlib
import Higress.AiHistory.ChatHistory
import Higress.Lib.Blocks

/-!
The answer that is saved of a streamed response (`onHttpStreamResponseBody` of `ai-history/main.go`).
The response arrives in pieces; the events that are complete add their texts to the context, and the
beginning of the next one is kept. With the last piece the text is not taken from the context but from
what `processSSEMessage` returns, which is the text so far only if one of the events in that piece has
an answer, and nothing otherwise.
-/

namespace Higress.AiHistory

open Lib

/-! ### Streams -/

/-- The lines of an event, one of which has data. -/
structure AnswerEvent where
  before : List GoString
  payload : GoString
  after : List GoString
  payload_ne_nil : payload ≠ []
  other : ∀ line ∈ before ++ after, line ≠ [] ∧ Strings.startsWith line (bytes "data:") = false
  plain : ∀ line ∈ payload :: (before ++ after), 10 ∉ line

namespace AnswerEvent

def lines (e : AnswerEvent) : List GoString := e.before ++ (bytes "data:" ++ e.payload) :: e.after

/-- The text of an event up to the empty line behind it. -/
def block (e : AnswerEvent) : GoString := Strings.join e.lines [10]

/-- The answer text that `processSSEMessage` takes from an event. -/
def text (codec : Codec) (e : AnswerEvent) : Option GoString := (codec.delta e.payload).map trimQuote

def Answers (codec : Codec) (e : AnswerEvent) : Prop := (codec.delta e.payload).isSome = true

instance (codec : Codec) (e : AnswerEvent) : Decidable (e.Answers codec) :=
  inferInstanceAs (Decidable (_ = _))

theorem line_spec {e : AnswerEvent} {line : GoString} (h : line ∈ e.lines) : line ≠ [] ∧ 10 ∉ line := by
  rw [lines, List.mem_append, List.mem_cons] at h
  rcases h with h | rfl | h
  · exact ⟨(e.other line (by simp [h])).1, e.plain line (by simp [h])⟩
  · refine ⟨List.append_ne_nil_of_right_ne_nil _ e.payload_ne_nil, ?_⟩
    rw [List.mem_append, not_or]
    exact ⟨by decide, e.plain e.payload (by simp)⟩
  · exact ⟨(e.other line (by simp [h])).1, e.plain line (by simp [h])⟩

theorem lines_ne_nil (e : AnswerEvent) : e.lines ≠ [] := by simp [lines]

theorem isBlock (e : AnswerEvent) : IsBlock [10, 10] e.block :=
  isBlock_lines e.lines_ne_nil fun _ h => line_spec h

/-- The data line is found. -/
theorem find_lines (e : AnswerEvent) :
    (split e.block (bytes "\n")).find? (Strings.startsWith · (bytes "data:")) =
      some (bytes "data:" ++ e.payload) := by
  have hsplit : split e.block (bytes "\n") = e.lines :=
    split_join (fun line h => isBlock_line (line_spec h).2) (by decide) e.lines_ne_nil
  have hbefore : e.before.find? (Strings.startsWith · (bytes "data:")) = none := by
    rw [List.find?_eq_none]
    intro line hline
    simpa using (e.other line (by simp [hline])).2
  have hdata : Strings.startsWith (bytes "data:" ++ e.payload) (bytes "data:") = true :=
    List.isPrefixOf_iff_prefix.mpr (List.prefix_append _ _)
  rw [hsplit, lines, List.find?_append, hbefore, Option.none_or, List.find?_cons, hdata]

end AnswerEvent

/-- A streamed answer without tool calls. -/
structure AnswerStream (codec : Codec) where
  events : List AnswerEvent
  answered : ∃ e ∈ events, e.Answers codec
  toolFree : ∀ e ∈ events, codec.toolCalls e.payload = false

namespace AnswerStream

variable {codec : Codec} (stream : AnswerStream codec)

def blocks : List GoString := stream.events.map AnswerEvent.block

def text : GoString := sealBlocks [10, 10] stream.blocks

/-- The events that are complete within the first `n` bytes. -/
def completed (n : ℕ) : List AnswerEvent :=
  stream.events.take (Lib.completed [10, 10] n stream.blocks)

/-- The events that are not complete within the first `n` bytes. -/
def remaining (n : ℕ) : List AnswerEvent :=
  stream.events.drop (Lib.completed [10, 10] n stream.blocks)

theorem completed_append_remaining (n : ℕ) :
    stream.completed n ++ stream.remaining n = stream.events := List.take_append_drop _ _

end AnswerStream

/-- The answer texts of events, one after the other. -/
def answerText (codec : Codec) (events : List AnswerEvent) : GoString :=
  (events.filterMap (AnswerEvent.text codec)).flatten

/-! ### The context while the events are read -/

/-- The text so far. -/
def Context.text (ctx : Context) : GoString :=
  match ctx.answer with
  | some (.text s) => s
  | _ => []

/-- The context after some events. -/
def advance (codec : Codec) (ctx : Context) (events : List AnswerEvent) : Context :=
  if ∃ e ∈ events, e.Answers codec then
    { ctx with answer := some (.text (ctx.text ++ answerText codec events)) }
  else ctx

section Events

variable {codec : Codec} {ctx : Context} {events events' : List AnswerEvent}

theorem answerText_eq_nil (h : ¬ ∃ e ∈ events, e.Answers codec) : answerText codec events = [] := by
  have hnone : events.filterMap (AnswerEvent.text codec) = [] := by
    rw [List.filterMap_eq_nil_iff]
    intro e he
    have hdelta : ¬ e.Answers codec := fun ha => h ⟨e, he, ha⟩
    rw [AnswerEvent.Answers, Option.isSome_iff_ne_none, not_not] at hdelta
    rw [AnswerEvent.text, hdelta]
    rfl
  rw [answerText, hnone]
  rfl

theorem answerText_append : answerText codec (events ++ events') =
    answerText codec events ++ answerText codec events' := by
  rw [answerText, List.filterMap_append, List.flatten_append]
  rfl

theorem text_advance : (advance codec ctx events).text = ctx.text ++ answerText codec events := by
  rw [advance]
  split
  · rfl
  · rename_i h
    rw [answerText_eq_nil h, List.append_nil]

theorem advance_append :
    advance codec (advance codec ctx events) events' = advance codec ctx (events ++ events') := by
  have hboth : (∃ e ∈ events ++ events', e.Answers codec) ↔
      (∃ e ∈ events, e.Answers codec) ∨ ∃ e ∈ events', e.Answers codec := by
    simp only [List.mem_append, or_and_right, exists_or]
  by_cases h' : ∃ e ∈ events', e.Answers codec
  · rw [advance, if_pos h', text_advance, advance.eq_def codec ctx (events ++ events'),
      if_pos (hboth.mpr (.inr h')), answerText_append, List.append_assoc, advance]
    split <;> rfl
  · rw [advance, if_neg h', advance, advance, answerText_append, answerText_eq_nil h',
      List.append_nil]
    exact if_congr (by rw [hboth, or_iff_left h']) rfl rfl

/-- The rest of a context. -/
theorem advance_fields : (advance codec ctx events).stream = ctx.stream ∧
    (advance codec ctx events).partialMessage = ctx.partialMessage ∧
    (advance codec ctx events).toolCalls = ctx.toolCalls ∧
    (advance codec ctx events).question = ctx.question := by
  rw [advance]
  split <;> exact ⟨rfl, rfl, rfl, rfl⟩

theorem advance_partialMessage (part : Option GoString) :
    advance codec { ctx with partialMessage := part } events =
      { advance codec ctx events with partialMessage := part } := by
  by_cases h : ∃ e ∈ events, e.Answers codec
  · rw [advance, if_pos h, advance, if_pos h]
    rfl
  · rw [advance, if_neg h, advance, if_neg h]

/-- What the loop over some events returns: the text so far, if one of them has an answer. -/
theorem processMessages_blocks (htools : ∀ e ∈ events, codec.toolCalls e.payload = false)
    (content : GoString) : processMessages codec (events.map AnswerEvent.block) ctx content =
      (advance codec ctx events,
        if ∃ e ∈ events, e.Answers codec then ctx.text ++ answerText codec events else content) := by
  induction events generalizing ctx content with
  | nil => simp [processMessages, advance]
  | cons e events ih =>
      have hrest := fun ctx content => @ih ctx (fun e' he' => htools e' (by simp [he'])) content
      have hlength : ¬ (bytes "data:" ++ e.payload).length < 6 := by
        have hpos := List.length_pos_iff.mpr e.payload_ne_nil
        have hdata : (bytes "data:").length = 5 := by decide
        rw [List.length_append, hdata]
        omega
      have hpayload : (bytes "data:" ++ e.payload).drop 5 = e.payload := rfl
      have hsplit : advance codec ctx (e :: events) = advance codec (advance codec ctx [e]) events := by
        rw [advance_append, List.singleton_append]
      have htext : answerText codec (e :: events) = answerText codec [e] ++ answerText codec events := by
        rw [← answerText_append, List.singleton_append]
      rw [List.map_cons, processMessages, e.find_lines, Option.getD_some, if_neg hlength, hpayload,
        hsplit, htext, ← List.append_assoc, ← text_advance]
      cases hdelta : codec.delta e.payload with
      | none =>
          have hno : ¬ e.Answers codec := by simp [AnswerEvent.Answers, hdelta]
          have hsame : advance codec ctx [e] = ctx := if_neg (by simpa using hno)
          have htool : { ctx with toolCalls := ctx.toolCalls || codec.toolCalls e.payload } = ctx := by
            rw [htools e (by simp), Bool.or_false]
          dsimp only
          rw [htool, hrest, hsame]
          simp [hno]
      | some raw =>
          have hyes : e.Answers codec := by simp [AnswerEvent.Answers, hdelta]
          have hone : answerText codec [e] = trimQuote raw := by
            simp [answerText, AnswerEvent.text, hdelta]
          have hnext : { ctx with answer := some (.text (ctx.text ++ trimQuote raw)) } =
              advance codec ctx [e] := by
            rw [advance, if_pos ⟨e, by simp, hyes⟩, hone]
          have hany : ∃ e' ∈ e :: events, e'.Answers codec := ⟨e, by simp, hyes⟩
          have hcontent : ∀ content, content = ctx.text ++ trimQuote raw →
              processMessages codec (events.map AnswerEvent.block)
                { ctx with answer := some (.text content) } content =
              (advance codec (advance codec ctx [e]) events,
                (advance codec ctx [e]).text ++ answerText codec events) := by
            rintro content rfl
            rw [hnext, hrest]
            split
            · rfl
            · rename_i hnone
              rw [answerText_eq_nil hnone, List.append_nil, text_advance, hone]
          rw [if_pos hany]
          refine hcontent _ ?_
          rw [Context.text]
          cases ctx.answer with
          | none => rfl
          | some answer => cases answer <;> rfl

end Events

/-! ### The callbacks -/

theorem breaks_eq : bytes "\n\n" = [10, 10] := by decide

/-- A context in which a streamed answer is awaited. -/
structure Awaiting (ctx : Context) (question : GoString) : Prop where
  stream : ctx.stream = true
  question : ctx.question = some question
  answer : ctx.answer = none
  partialMessage : ctx.partialMessage = none
  toolCalls : ctx.toolCalls = false

/-- The callbacks of the pieces before the last one. -/
def receive (codec : Codec) (config : PluginConfig) (request : Request) (ctx : Context)
    (chunks : List GoString) : Context :=
  chunks.foldl (fun ctx chunk => (onHttpStreamResponseBody codec config request ctx chunk false).1) ctx

section Pieces

variable {codec : Codec} {ctx : Context} {events rest : List AnswerEvent}

theorem processSSEMessage_block {e : AnswerEvent} (htool : codec.toolCalls e.payload = false) :
    (processSSEMessage codec ctx e.block).1 = advance codec ctx [e] := by
  have hsplit : split e.block (bytes "\n\n") = [e].map AnswerEvent.block := by
    rw [breaks_eq]
    exact split_of_index_none (e.isBlock.index_eq_none (List.prefix_append _ _) (by simp))
  rw [processSSEMessage, hsplit, processMessages_blocks (by simpa using htool)]

/-- The complete messages of a piece, one after the other. -/
theorem foldl_processSSEMessage (htools : ∀ e ∈ events, codec.toolCalls e.payload = false) :
    (events.map AnswerEvent.block).foldl (fun ctx msg => (processSSEMessage codec ctx msg).1) ctx =
      advance codec ctx events := by
  induction events generalizing ctx with
  | nil => simp [advance]
  | cons e events ih =>
      rw [List.map_cons, List.foldl_cons, processSSEMessage_block (htools e (by simp)),
        ih fun e' he' => htools e' (by simp [he']), advance_append, List.singleton_append]

theorem AnswerEvent.block_head (e : AnswerEvent) : e.block ≠ [] ∧ e.block.head? ≠ some 10 := by
  obtain ⟨line, lines, hlines⟩ := List.exists_cons_of_ne_nil e.lines_ne_nil
  obtain ⟨hne, hbreak⟩ := @AnswerEvent.line_spec e line (by simp [hlines])
  obtain ⟨b, line, rfl⟩ := List.exists_cons_of_ne_nil hne
  have hb : b ≠ 10 := fun heq => hbreak (by simp [heq])
  have hblock : ∃ t, e.block = b :: t := by
    rw [AnswerEvent.block, hlines, Strings.join]
    cases lines with
    | nil => exact ⟨line, by simp⟩
    | cons line' lines => exact ⟨_, by rw [List.intercalate_cons_cons]; rfl⟩
  obtain ⟨t, ht⟩ := hblock
  simp [ht, hb]

/-- A piece that is not the last one adds the events that it completes, and keeps the beginning of the
next one. -/
theorem gather_eq (hstream : ctx.stream = true)
    (htools : ∀ e ∈ events, codec.toolCalls e.payload = false) {chunk p : GoString}
    (hmessage : ctx.partialMessage.getD [] ++ chunk =
      sealBlocks [10, 10] (events.map AnswerEvent.block) ++ p)
    (hopens : Opens [10, 10] p (rest.map AnswerEvent.block)) :
    ∃ part : Option GoString, part.getD [] = p ∧
      gather codec ctx chunk = { advance codec ctx events with partialMessage := part } := by
  have hrest : ∀ b ∈ rest.map AnswerEvent.block, IsBlock [10, 10] b := by
    intro b hb
    obtain ⟨e, -, rfl⟩ := List.mem_map.mp hb
    exact e.isBlock
  have hsplit : split (sealBlocks [10, 10] (events.map AnswerEvent.block) ++ p) [10, 10] =
      events.map AnswerEvent.block ++ [p] := by
    refine split_sealBlocks (fun b hb => ?_) (by simp) (hopens.index_eq_none hrest (by simp))
    obtain ⟨e, -, rfl⟩ := List.mem_map.mp hb
    exact e.isBlock
  simp only [gather, hstream, hmessage, breaks_eq, hsplit, List.dropLast_concat,
    foldl_processSSEMessage htools, Bool.not_true, Bool.false_eq_true, if_false]
  split
  · exact ⟨some p, rfl, by simp⟩
  · rename_i hsuffix
    have hp : p = [] := by
      by_contra hp
      refine hopens.not_suffix (fun b hb => ?_) hp _ (List.isSuffixOf_iff_suffix.mp (by simpa using hsuffix))
      obtain ⟨e, -, rfl⟩ := List.mem_map.mp hb
      exact ⟨e.isBlock, e.block_head⟩
    exact ⟨none, hp.symm, rfl⟩

end Pieces

section Runs

variable {codec : Codec} {config : PluginConfig} {request : Request} {stream : AnswerStream codec}
  {start ctx : Context} {question : GoString}

/-- After a part of the stream, the context has the text of the complete events and the beginning of
the next one. -/
def Received (stream : AnswerStream codec) (start : Context) (t : GoString) (ctx : Context) : Prop :=
  ∃ part : Option GoString,
    t = sealBlocks [10, 10] ((stream.completed t.length).map AnswerEvent.block) ++ part.getD [] ∧
    ctx = { advance codec start (stream.completed t.length) with partialMessage := part }

theorem AnswerStream.blocks_take (stream : AnswerStream codec) (n : ℕ) :
    stream.blocks.take (Lib.completed [10, 10] n stream.blocks) =
      (stream.completed n).map AnswerEvent.block := by
  rw [AnswerStream.completed, AnswerStream.blocks, List.map_take]

theorem AnswerStream.blocks_drop (stream : AnswerStream codec) (n : ℕ) :
    stream.blocks.drop (Lib.completed [10, 10] n stream.blocks) =
      (stream.remaining n).map AnswerEvent.block := by
  rw [AnswerStream.remaining, AnswerStream.blocks, List.map_drop]

theorem received_start (hstart : Awaiting start question) : Received stream start [] start := by
  have hnone : stream.completed ([] : GoString).length = [] := by
    have hzero : Lib.completed [10, 10] 0 stream.blocks = 0 := by
      cases stream.blocks <;> simp [Lib.completed]
    rw [AnswerStream.completed, List.length_nil, hzero, List.take_zero]
  refine ⟨none, by rw [hnone]; rfl, ?_⟩
  rw [hnone, ← hstart.partialMessage]
  simp [advance]

/-- What a callback finds in the context. -/
theorem Received.fields (hstart : Awaiting start question) {t : GoString}
    (h : Received stream start t ctx) : ctx.stream = true ∧ ctx.question = some question ∧
      ctx.toolCalls = false ∧ ctx.text = answerText codec (stream.completed t.length) := by
  obtain ⟨part, -, rfl⟩ := h
  obtain ⟨hstream, -, htools, hquestion⟩ :=
    @advance_fields codec start (stream.completed t.length)
  refine ⟨hstream.trans hstart.stream, hquestion.trans hstart.question,
    htools.trans hstart.toolCalls, ?_⟩
  have hempty : start.text = [] := by rw [Context.text, hstart.answer]
  have htext := @text_advance codec start (stream.completed t.length)
  rw [hempty, List.nil_append] at htext
  exact htext

theorem Received.step (hstart : Awaiting start question) (hpath : isQueryHistory request.path = false)
    {t chunk : GoString} (h : Received stream start t ctx) (hcut : t ++ chunk <+: stream.text) :
    Received stream start (t ++ chunk)
      (onHttpStreamResponseBody codec config request ctx chunk false).1 := by
  obtain ⟨hstream, hquestion, htools, -⟩ := h.fields hstart
  obtain ⟨part, ht, hctx⟩ := h
  have hpart : ctx.partialMessage = part := by rw [hctx]
  obtain ⟨more, p, hsum, hmessage, hopens⟩ :=
    Lib.completed_append hcut (by rw [stream.blocks_take]; exact ht)
  have hmore : stream.completed (t ++ chunk).length =
      stream.completed t.length ++ (stream.remaining t.length).take more := by
    rw [AnswerStream.completed, hsum, List.take_add]
    rfl
  have hfree : ∀ e ∈ (stream.remaining t.length).take more, codec.toolCalls e.payload = false :=
    fun e he => stream.toolFree e (List.mem_of_mem_drop (List.mem_of_mem_take he))
  rw [stream.blocks_drop, ← List.map_take] at hmessage
  rw [← List.drop_drop, stream.blocks_drop, ← List.map_drop] at hopens
  obtain ⟨part', hpart', hgather⟩ := gather_eq hstream hfree (hpart ▸ hmessage) hopens
  have hcall : (onHttpStreamResponseBody codec config request ctx chunk false).1 =
      gather codec ctx chunk := by
    simp [onHttpStreamResponseBody, htools, hquestion, hpath]
  rw [hcall, hgather]
  refine ⟨part', ?_, ?_⟩
  · rw [hmore, List.map_append, sealBlocks_append, hpart', List.append_assoc, ← hmessage,
      ← List.append_assoc, ← ht]
  · have hrest : advance codec ctx ((stream.remaining t.length).take more) =
        { advance codec (advance codec start (stream.completed t.length))
            ((stream.remaining t.length).take more) with partialMessage := part } := by
      rw [hctx, advance_partialMessage]
    rw [hrest, advance_append, ← hmore]

theorem received_receive (hstart : Awaiting start question)
    (hpath : isQueryHistory request.path = false) {chunks : List GoString}
    (hcut : chunks.flatten <+: stream.text) :
    Received stream start chunks.flatten (receive codec config request start chunks) := by
  induction chunks using List.reverseRecOn with
  | nil => exact received_start hstart
  | append_singleton chunks chunk ih =>
      have hflatten : (chunks ++ [chunk]).flatten = chunks.flatten ++ chunk := by simp
      rw [hflatten] at hcut ⊢
      rw [receive, List.foldl_append]
      exact (ih ((List.prefix_append _ _).trans hcut)).step hstart hpath hcut

/-- What is left of the stream is the events that are not complete yet, without the beginning that
has arrived. -/
theorem Received.remaining {t last : GoString} (h : Received stream start t ctx)
    (hcut : t ++ last = stream.text) : ctx.partialMessage.getD [] ++ last =
      sealBlocks [10, 10] ((stream.remaining t.length).map AnswerEvent.block) := by
  obtain ⟨part, ht, rfl⟩ := h
  have htext : stream.text =
      sealBlocks [10, 10] ((stream.completed t.length).map AnswerEvent.block) ++
        sealBlocks [10, 10] ((stream.remaining t.length).map AnswerEvent.block) := by
    rw [← sealBlocks_append, ← List.map_append, stream.completed_append_remaining]
    rfl
  have hall : sealBlocks [10, 10] ((stream.completed t.length).map AnswerEvent.block) ++
      (part.getD [] ++ last) =
      sealBlocks [10, 10] ((stream.completed t.length).map AnswerEvent.block) ++
        sealBlocks [10, 10] ((stream.remaining t.length).map AnswerEvent.block) := by
    rw [← List.append_assoc, ← ht, hcut, htext]
  exact List.append_cancel_left hall

/-- A piece that ends the stream and has something in it. -/
theorem Received.last (hstart : Awaiting start question) {t last : GoString}
    (h : Received stream start t ctx) (hcut : t ++ last = stream.text) (hlast : last ≠ []) :
    lastAnswer codec ctx last = (advance codec ctx (stream.remaining t.length),
      some (if ∃ e ∈ stream.remaining t.length, e.Answers codec then answerText codec stream.events
        else [])) := by
  obtain ⟨hstream, -, -, htext⟩ := h.fields hstart
  have hmessage := h.remaining hcut
  have hfree : ∀ e ∈ stream.remaining t.length, codec.toolCalls e.payload = false :=
    fun e he => stream.toolFree e (List.mem_of_mem_drop he)
  have hblocks : ∀ b ∈ (stream.remaining t.length).map AnswerEvent.block, IsBlock [10, 10] b := by
    intro b hb
    obtain ⟨e, -, rfl⟩ := List.mem_map.mp hb
    exact e.isBlock
  have hne : (stream.remaining t.length).map AnswerEvent.block ≠ [] := by
    intro hnil
    rw [hnil, sealBlocks_nil] at hmessage
    exact hlast (List.append_eq_nil_iff.mp hmessage).2
  have htotal : answerText codec stream.events =
      ctx.text ++ answerText codec (stream.remaining t.length) := by
    rw [htext, ← answerText_append, stream.completed_append_remaining]
  obtain ⟨b, blocks, hcons⟩ := List.exists_cons_of_ne_nil hne
  have hseal : sealBlocks [10, 10] ((stream.remaining t.length).map AnswerEvent.block) =
      Strings.join ((stream.remaining t.length).map AnswerEvent.block) [10, 10] ++ [10, 10] := by
    rw [hcons, sealBlocks_eq_join]
  have hsuffix : (bytes "\n\n").isSuffixOf (sealBlocks [10, 10]
      ((stream.remaining t.length).map AnswerEvent.block)) = true := by
    rw [hseal, breaks_eq]
    exact List.isSuffixOf_iff_suffix.mpr (List.suffix_append _ _)
  have htake : (sealBlocks [10, 10] ((stream.remaining t.length).map AnswerEvent.block)).take
      ((sealBlocks [10, 10] ((stream.remaining t.length).map AnswerEvent.block)).length - 2) =
      Strings.join ((stream.remaining t.length).map AnswerEvent.block) [10, 10] := by
    rw [hseal, List.length_append, List.length_cons, List.length_singleton, Nat.add_sub_cancel]
    exact List.take_left
  have hsplit : split (Strings.join ((stream.remaining t.length).map AnswerEvent.block) [10, 10])
      (bytes "\n\n") = (stream.remaining t.length).map AnswerEvent.block := by
    rw [breaks_eq, split_join hblocks (by simp) hne]
  simp only [lastAnswer, hstream, hmessage, hsuffix, htake, processSSEMessage, hsplit,
    processMessages_blocks hfree, htotal, hlast, Bool.not_true, Bool.false_eq_true, if_false,
    ne_eq, not_false_eq_true, if_true]

/-- A piece that ends the stream and has nothing in it. -/
theorem Received.last_nil (hstart : Awaiting start question) {t : GoString}
    (h : Received stream start t ctx) (hcut : t = stream.text) :
    lastAnswer codec ctx [] = (ctx, some (answerText codec stream.events)) := by
  obtain ⟨hstream, -, -, -⟩ := h.fields hstart
  have hcount : Lib.completed [10, 10] t.length stream.blocks = stream.blocks.length := by
    have hsum := @completed_add [10, 10] stream.blocks stream.blocks.length le_rfl 0
    rw [List.take_length, List.drop_length, Nat.add_zero] at hsum
    rw [hcut]
    exact hsum
  have hall : stream.completed t.length = stream.events := by
    rw [AnswerStream.completed, hcount, AnswerStream.blocks, List.length_map, List.take_length]
  have hempty : start.text = [] := by rw [Context.text, hstart.answer]
  have hanswer : ctx.answer = some (.text (answerText codec stream.events)) := by
    obtain ⟨part, -, rfl⟩ := h
    change (advance codec start (stream.completed t.length)).answer = _
    rw [hall, advance, if_pos stream.answered, hempty, List.nil_append]
  simp [lastAnswer, hstream, hanswer]

/-- The text that is saved of a stream, for every way of cutting it, is the texts of its events
exactly if the last piece is empty or one of its events has an answer (or all the answers are empty).
The callback is the last one of an exchange with a question. -/
theorem saved_answer_iff (hstart : Awaiting start question)
    (hpath : isQueryHistory request.path = false) (stream : AnswerStream codec)
    (chunks : List GoString) (last : GoString) (hcut : chunks.flatten ++ last = stream.text) :
    ∃ ctx value, onHttpStreamResponseBody codec config request
        (receive codec config request start chunks) last true =
          (ctx, saveChatHistory codec config ctx question value) ∧
      (value = answerText codec stream.events ↔
        last = [] ∨ (∃ e ∈ stream.remaining chunks.flatten.length, e.Answers codec) ∨
          answerText codec stream.events = []) := by
  have hreceived : Received stream start chunks.flatten (receive codec config request start chunks) :=
    received_receive hstart hpath ⟨last, hcut⟩
  obtain ⟨-, hquestion, htools, -⟩ := hreceived.fields hstart
  have hcall : ∀ ctx value,
      lastAnswer codec (receive codec config request start chunks) last = (ctx, some value) →
      onHttpStreamResponseBody codec config request (receive codec config request start chunks) last
        true = (ctx, saveChatHistory codec config ctx question value) := by
    intro ctx value hlast
    simp [onHttpStreamResponseBody, htools, hquestion, hpath, hlast]
  by_cases hnil : last = []
  · subst hnil
    rw [List.append_nil] at hcut
    exact ⟨_, _, hcall _ _ (hreceived.last_nil hstart hcut), by simp⟩
  · refine ⟨_, _, hcall _ _ (hreceived.last hstart hcut hnil), ?_⟩
    split
    · rename_i hanswers
      exact iff_of_true rfl (.inr (.inl hanswers))
    · rename_i hanswers
      simp only [hnil, hanswers, false_or]
      exact eq_comm

end Runs

/-! ### An answer with its end marker -/

namespace Sample

def delta : GoString := bytes " \x7b\"choices\":[\x7b\"delta\":\x7b\"content\":\"ok\"\x7d\x7d]\x7d"

def deltaCodec : Codec where
  stream _ := true
  question _ := []
  messages _ := []
  answer _ := []
  delta payload := if payload = delta then some (bytes "\"ok\"") else none
  toolCalls _ := false
  marshal := marshal
  unmarshal _ := none
  replaceMessages _ _ := none
  query _ _ := none

theorem event_other : ∀ line ∈ ([] : List GoString) ++ [],
    line ≠ [] ∧ Strings.startsWith line (bytes "data:") = false := by
  simp

def event (payload : GoString) (hne : payload ≠ []) (hline : 10 ∉ payload) : AnswerEvent :=
  ⟨[], payload, [], hne, event_other, by simpa using hline⟩

def answer : AnswerEvent := event delta (by decide) (by decide)

def done : AnswerEvent := event (bytes " [DONE]") (by decide) (by decide)

def stream : AnswerStream deltaCodec where
  events := [answer, done]
  answered := ⟨answer, by simp, by decide⟩
  toolFree _ _ := rfl

def request : Request := ⟨bytes "/v1/chat/completions", fun _ => []⟩

def awaiting : Context := { stream := true, question := some (bytes "hi") }

end Sample

theorem saved_answer_single : ∃ ctx value,
    onHttpStreamResponseBody Sample.deltaCodec Sample.config Sample.request
        (receive Sample.deltaCodec Sample.config Sample.request Sample.awaiting []) Sample.stream.text
        true = (ctx, saveChatHistory Sample.deltaCodec Sample.config ctx (bytes "hi") value) ∧
      value = bytes "ok" := by
  obtain ⟨ctx, value, hsaved, hvalue⟩ := @saved_answer_iff Sample.deltaCodec Sample.config
    Sample.request Sample.awaiting (bytes "hi") ⟨rfl, rfl, rfl, rfl, rfl⟩ (by decide) Sample.stream []
    Sample.stream.text rfl
  have hanswers : ∃ e ∈ Sample.stream.remaining 0, e.Answers Sample.deltaCodec :=
    ⟨Sample.answer, List.mem_cons_self, by decide⟩
  exact ⟨ctx, value, hsaved, hvalue.mpr (.inr (.inl hanswers))⟩

/-- The answer is lost if the end marker comes in a piece of its own. -/
theorem saved_answer_lost :
    [Sample.answer.block ++ [10, 10]].flatten ++ (Sample.done.block ++ [10, 10]) = Sample.stream.text ∧
      answerText Sample.deltaCodec Sample.stream.events = bytes "ok" ∧
      (onHttpStreamResponseBody Sample.deltaCodec Sample.config Sample.request
        (receive Sample.deltaCodec Sample.config Sample.request Sample.awaiting
          [Sample.answer.block ++ [10, 10]]) (Sample.done.block ++ [10, 10]) true).2 =
        some [⟨bytes "user", bytes "hi"⟩, ⟨bytes "assistant", []⟩] := by
  refine ⟨?_, ?_, ?_⟩ <;> decide

end Higress.AiHistory
