import Higress.AiSecurityGuard.Delivery
import Higress.Lib.Trim

/-!
What the moderation of a streamed response gets to see. Every chunk of the queue is
submitted with the text that is found in it. The chunks are the events of the stream if no
event is cut: a boundary between two callbacks lies between events, or in the line breaks
that end one. The text of a cut event is looked for in its parts.
-/

namespace Higress.AiSecurityGuard

open Lib Strings

/-! ### Streams -/

/-- The line of an event, from `data:` to the end of its payload. -/
structure DataLine (line : GoString) : Prop where
  start : Strings.startsWith line (bytes "data:") = true
  last : ∃ b, line.getLast? = some b ∧ Visible b
  plain : 10 ∉ line ∧ 13 ∉ line

/-- The events as they are sent. -/
def render (lines : List GoString) : GoString := lines.flatMap (· ++ separator)

/-- Complete events, and what follows the last of them: nothing, or the beginning of an event,
perhaps with the first line break. -/
structure IsStream (lines : List GoString) (rest : GoString) : Prop where
  dataLines : ∀ line ∈ lines, DataLine line
  visible : rest = [] ∨ ∃ b t, rest = b :: t ∧ Visible b
  plain : 10 ∉ trimSpace rest ∧ 13 ∉ rest
  unfinished : separator.isSuffixOf rest = false

/-- No boundary lies within a line. -/
def Uncut (lines : List GoString) (rest : GoString) (pieces : List GoString) : Prop :=
  ∀ before after, pieces = before ++ after →
    before.flatten = render lines ++ rest ∨
      ∃ done todo k, lines = done ++ todo ∧ k ≤ 2 ∧
        before.flatten ++ List.replicate k 10 = render done

/-! ### The chunks of whole events -/

section Split

theorem splitFrom_line {l : GoString} (h : 10 ∉ l) (part s : GoString) :
    splitFrom separator 0 part (l ++ (separator ++ s)) = (part ++ l) :: splitFrom separator 0 [] s := by
  induction l generalizing part with
  | nil => simp [splitFrom, separator, List.isPrefixOf]
  | cons b l ih =>
      have hb : (10 : UInt8) ≠ b := fun heq => h (by simp [heq])
      have hstart : separator.isPrefixOf (b :: (l ++ (separator ++ s))) = false := by
        simp [separator, List.isPrefixOf, hb]
      rw [List.cons_append, splitFrom, if_neg (by simp [hstart]),
        ih (fun hin => h (List.mem_cons_of_mem b hin))]
      simp

theorem splitFrom_last {l : GoString} (h : 10 ∉ l) (part : GoString) :
    splitFrom separator 0 part l = [part ++ l] := by
  induction l generalizing part with
  | nil => simp [splitFrom]
  | cons b l ih =>
      have hb : (10 : UInt8) ≠ b := fun heq => h (by simp [heq])
      have hstart : separator.isPrefixOf (b :: l) = false := by
        simp [separator, List.isPrefixOf, hb]
      rw [splitFrom, if_neg (by simp [hstart]), ih (fun hin => h (List.mem_cons_of_mem b hin))]
      simp

/-- Lines with separators between them are split into these. -/
theorem split_render {lines : List GoString} (h : ∀ line ∈ lines, 10 ∉ line) {last : GoString}
    (hlast : 10 ∉ last) : split (render lines ++ last) separator = lines ++ [last] := by
  induction lines with
  | nil => simpa [render, split] using splitFrom_last hlast []
  | cons line lines ih =>
      have hcons : render (line :: lines) ++ last = line ++ (separator ++ (render lines ++ last)) := by
        simp [render]
      rw [hcons, split, splitFrom_line (h line (by simp)), List.nil_append, ← split,
        ih fun l hl => h l (by simp [hl])]
      rfl

end Split

theorem DataLine.exists_cons {line : GoString} (h : DataLine line) :
    ∃ t, line = 100 :: t := by
  obtain ⟨t, rfl⟩ := List.isPrefixOf_iff_prefix.mp h.start
  exact ⟨_, rfl⟩

theorem DataLine.ne_nil {line : GoString} (h : DataLine line) : line ≠ [] := by
  obtain ⟨t, rfl⟩ := h.exists_cons
  simp

theorem render_append (ls ls' : List GoString) : render (ls ++ ls') = render ls ++ render ls' := by
  simp [render]

/-- Lines begin with a visible byte. -/
theorem exists_cons_render {init : List GoString} {last : GoString}
    (h : ∀ line ∈ init ++ [last], DataLine line) : ∃ t, render init ++ last = 100 :: t := by
  cases init with
  | nil => exact (h last (by simp)).exists_cons
  | cons line init =>
      obtain ⟨t, rfl⟩ := (h line (by simp)).exists_cons
      exact ⟨_, rfl⟩

theorem visible_d : Visible 100 := by decide

/-- Lines with line breaks around them. -/
theorem trimSpace_lines {init : List GoString} {last : GoString}
    (h : ∀ line ∈ init ++ [last], DataLine line) (k m : ℕ) :
    trimSpace (List.replicate k 10 ++ (render init ++ last ++ List.replicate m 10)) =
      render init ++ last := by
  obtain ⟨t, ht⟩ := exists_cons_render h
  obtain ⟨b, hlast, hb⟩ := (h last (by simp)).last
  have hend : (render init ++ last).getLast? = some b := by
    rw [List.getLast?_append, hlast]
    rfl
  rw [ht, List.cons_append, trimSpace_lineBreaks visible_d, ← List.cons_append, ← ht]
  exact trimSpace_of_visible visible_d hb (by simp [ht]) hend m

section Chunks

variable {Response : Type} {env : Env Response} {cfg : Config}

/-- The text of the events of a stream. -/
def textOf (env : Env Response) (cfg : Config) (lines : List GoString) : GoString :=
  lines.flatMap fun line => extract env cfg (line ++ separator)

/-- What is relied on: only carriage returns are unified, and `gjson` does not look behind the
payload of an event. -/
structure Reads (env : Env Response) : Prop where
  unifySSEChunk : ∀ data, 13 ∉ data → env.unifySSEChunk data = data
  get : ∀ line path, DataLine line → env.get (line ++ separator) path = env.get line path

/-- The separator does not matter to the text of an event. -/
theorem extract_separator (henv : Reads env) {line : GoString} (h : DataLine line) :
    extract env cfg (line ++ separator) = extract env cfg line := by
  obtain ⟨t, ht⟩ := h.exists_cons
  obtain ⟨b, hlast, hb⟩ := h.last
  have htrim (m : ℕ) : trimSpace (line ++ List.replicate m 10) = line :=
    trimSpace_of_visible visible_d hb (by simp [ht]) hlast m
  have hsame : trimSpace (line ++ separator) = trimSpace line := by
    have hnone := htrim 0
    rw [List.replicate_zero, List.append_nil] at hnone
    rw [hnone]
    exact htrim 2
  simp only [extract, henv.get _ _ h, autoExtractStreamingResponseContent, hsame]

theorem flatMap_restoreSeparators (henv : Reads env) {lines : List GoString}
    (h : ∀ line ∈ lines, DataLine line) (trailing : Bool) :
    (restoreSeparators trailing lines).flatMap (extract env cfg) = textOf env cfg lines := by
  induction lines with
  | nil => rfl
  | cons line lines ih =>
      cases lines with
      | nil =>
          cases trailing with
          | true => simp [restoreSeparators, textOf]
          | false => simp [restoreSeparators, textOf, extract_separator henv (h line (by simp))]
      | cons line' lines =>
          rw [restoreSeparators, List.flatMap_cons, ih fun l hl => h l (by simp [hl])]
          · simp [textOf]
          · simp

theorem notMem_render {b : UInt8} (hb : b ≠ 10) {lines : List GoString}
    (h : ∀ line ∈ lines, b ∉ line) : b ∉ render lines := by
  simpa [render, separator, hb] using h

/-- The chunks are the lines that are left without the space around them. -/
theorem flatMap_chunksOf_of_trim (henv : Reads env) {lines : List GoString} {data : GoString}
    (h : ∀ line ∈ lines, DataLine line) (hplain : 13 ∉ data)
    (hsplit : (split (trimSpace data) separator).filter (· ≠ []) = lines) :
    (chunksOf env data).flatMap (extract env cfg) = textOf env cfg lines := by
  rw [chunksOf, henv.unifySSEChunk data hplain, hsplit]
  exact flatMap_restoreSeparators henv h _

theorem filter_lines {lines : List GoString} (h : ∀ line ∈ lines, DataLine line) :
    lines.filter (· ≠ []) = lines := by
  rw [List.filter_eq_self]
  intro line hline
  simpa using (h line hline).ne_nil

theorem restoreSeparators_append (lines : List GoString) (last : GoString) :
    restoreSeparators false (lines ++ [last]) = lines.map (· ++ separator) ++ [last] := by
  induction lines with
  | nil => rfl
  | cons line lines ih =>
      rw [List.cons_append, restoreSeparators, ih]
      · rfl
      · simp

/-- An unfinished event does not end with a separator, whatever stands before it. -/
theorem isSuffixOf_unfinished {b : UInt8} (hb : Visible b) {t : GoString}
    (h : separator.isSuffixOf (b :: t) = false) (s : GoString) :
    separator.isSuffixOf (s ++ b :: t) = false := by
  rw [Bool.eq_false_iff] at h ⊢
  intro hsuffix
  obtain ⟨u, hu⟩ := List.isSuffixOf_iff_suffix.mp hsuffix
  rcases List.append_eq_append_iff.mp hu with ⟨v, -, hv⟩ | ⟨v, -, hv⟩
  · -- the separator reaches into what stands before, so the event begins with a line break
    have hin : b ∈ separator := hv ▸ by simp
    have heq : b = 10 := by simpa [separator] using hin
    exact absurd hb (by rw [heq]; decide)
  · exact h (List.isSuffixOf_iff_suffix.mpr ⟨v, hv.symm⟩)

/-- The text of a callback that has whole events. -/
theorem flatMap_chunksOf (henv : Reads env) {lines : List GoString}
    (h : ∀ line ∈ lines, DataLine line) {piece : GoString} {k m : ℕ} (hm : m ≤ 2)
    (hpiece : piece ++ List.replicate m 10 = List.replicate k 10 ++ render lines) :
    (chunksOf env piece).flatMap (extract env cfg) = textOf env cfg lines := by
  have hplain : 13 ∉ piece := by
    intro hin
    have hmem : 13 ∈ List.replicate k 10 ++ render lines := hpiece ▸ List.mem_append_left _ hin
    rcases List.mem_append.mp hmem with hbreak | hrender
    · exact absurd (List.eq_of_mem_replicate hbreak) (by decide)
    · exact notMem_render (by decide) (fun line hline => (h line hline).plain.2) hrender
  apply flatMap_chunksOf_of_trim henv h hplain
  cases lines using List.reverseRecOn with
  | nil =>
      have hbreaks : piece = List.replicate piece.length 10 := by
        rw [List.eq_replicate_iff]
        refine ⟨rfl, fun b hb => List.eq_of_mem_replicate (n := k) ?_⟩
        have hmem : b ∈ List.replicate k 10 ++ render [] := hpiece ▸ List.mem_append_left _ hb
        simpa [render] using hmem
      rw [hbreaks, trimSpace_replicate]
      rfl
  | append_singleton init last =>
      have hbreaks : separator = List.replicate (2 - m) 10 ++ List.replicate m 10 := by
        rw [List.replicate_append_replicate, Nat.sub_add_cancel hm]
        rfl
      have hcut : piece =
          List.replicate k 10 ++ (render init ++ last ++ List.replicate (2 - m) 10) := by
        have hlast : render [last] = last ++ separator := by simp [render]
        rw [render_append, hlast, hbreaks] at hpiece
        apply List.append_cancel_right
        rw [hpiece]
        simp
      have hall : ∀ line ∈ init ++ [last], 10 ∉ line := fun line hline => (h line hline).plain.1
      rw [hcut, trimSpace_lines h, split_render (fun l hl => hall l (by simp [hl]))
        (hall last (by simp)), filter_lines h]

/-- The text of a callback that has the end of the stream. -/
theorem flatMap_chunksOf_rest (henv : Reads env) {lines : List GoString} {rest : GoString}
    (h : IsStream lines rest) (hrest : rest ≠ []) (htext : extract env cfg (trimSpace rest) = [])
    (k : ℕ) :
    (chunksOf env (List.replicate k 10 ++ (render lines ++ rest))).flatMap (extract env cfg) =
      textOf env cfg lines := by
  obtain ⟨b, t, rfl, hb⟩ := h.visible.resolve_left hrest
  have htrim : trimSpace (List.replicate k 10 ++ (render lines ++ b :: t)) =
      render lines ++ trimSpace (b :: t) := by
    cases lines with
    | nil => exact trimSpace_lineBreaks hb k t
    | cons line lines =>
        obtain ⟨u, hu⟩ : ∃ u, render (line :: lines) = 100 :: u := by
          obtain ⟨u, rfl⟩ := (h.dataLines line (by simp)).exists_cons
          exact ⟨_, rfl⟩
        rw [hu, List.cons_append, trimSpace_lineBreaks visible_d, ← List.cons_append,
          trimSpace_append visible_d hb]
  have hplain : 13 ∉ List.replicate k 10 ++ (render lines ++ b :: t) := by
    rw [List.mem_append, List.mem_append, not_or, not_or]
    refine ⟨fun hin => absurd (List.eq_of_mem_replicate hin) (by decide), ?_, h.plain.2⟩
    exact notMem_render (by decide) fun line hline => (h.dataLines line hline).plain.2
  have hsplit : (split (trimSpace (List.replicate k 10 ++ (render lines ++ b :: t))) separator).filter
      (· ≠ []) = lines ++ [trimSpace (b :: t)].filter (· ≠ []) := by
    rw [htrim, split_render (fun line hline => (h.dataLines line hline).plain.1) h.plain.1,
      List.filter_append, filter_lines h.dataLines]
  by_cases hempty : trimSpace (b :: t) = []
  · apply flatMap_chunksOf_of_trim henv h.dataLines hplain
    rw [hsplit, hempty]
    simp
  · have hnone : separator.isSuffixOf (List.replicate k 10 ++ (render lines ++ b :: t)) = false := by
      rw [← List.append_assoc]
      exact isSuffixOf_unfinished hb h.unfinished _
    rw [chunksOf, henv.unifySSEChunk _ hplain, hsplit, hnone,
      List.filter_cons_of_pos (by simpa using hempty), List.filter_nil, restoreSeparators_append]
    simp [List.flatMap_append, List.flatMap_map, textOf, htext]

/-! ### The chunks of a stream -/

theorem textOf_append (ls ls' : List GoString) :
    textOf env cfg (ls ++ ls') = textOf env cfg ls ++ textOf env cfg ls' := by
  simp [textOf]

theorem length_render_cons (line : GoString) (lines : List GoString) :
    2 < (render (line :: lines)).length ∨ line = [] := by
  cases line with
  | nil => exact .inr rfl
  | cons b line =>
      left
      simp only [render, List.flatMap_cons, separator, List.length_append, List.length_cons,
        List.length_nil]
      omega

/-- Between two boundaries that lie after whole events there are whole events. -/
theorem exists_between {done todo done' todo' : List GoString} (hne : ∀ line ∈ done, line ≠ [])
    (heq : done ++ todo = done' ++ todo') {before piece : GoString} {k k' : ℕ} (hk : k ≤ 2)
    (hbefore : before ++ List.replicate k 10 = render done)
    (hafter : before ++ piece ++ List.replicate k' 10 = render done') :
    ∃ mid, done' = done ++ mid ∧ todo = mid ++ todo' ∧
      piece ++ List.replicate k' 10 = List.replicate k 10 ++ render mid := by
  rcases List.append_eq_append_iff.mp heq with ⟨mid, rfl, rfl⟩ | ⟨mid, rfl, rfl⟩
  · refine ⟨mid, rfl, rfl, ?_⟩
    rw [render_append, ← hbefore, List.append_assoc, List.append_assoc] at hafter
    exact List.append_cancel_left hafter
  · rw [render_append, ← hafter, List.append_assoc, List.append_assoc] at hbefore
    have hbreaks := List.append_cancel_left hbefore
    cases mid with
    | nil => exact ⟨[], by simp, by simp, by simpa [render] using hbreaks.symm⟩
    | cons line mid =>
        have hlength := congrArg List.length hbreaks
        have hlong := (length_render_cons line mid).resolve_right (hne line (by simp))
        simp only [List.length_append, List.length_replicate] at hlength
        omega

theorem IsStream.drop {done todo : List GoString} {rest : GoString}
    (h : IsStream (done ++ todo) rest) : IsStream todo rest :=
  ⟨fun line hline => h.dataLines line (by simp [hline]), h.visible, h.plain, h.unfinished⟩

/-- The last callbacks of a stream, from a boundary on. -/
theorem flatMap_after (henv : Reads env) {rest : GoString} {before after : List GoString}
    {done todo : List GoString} {k : ℕ} (h : IsStream (done ++ todo) rest)
    (htext : rest = [] ∨ extract env cfg (trimSpace rest) = [])
    (hcut : Uncut (done ++ todo) rest (before ++ after))
    (hall : (before ++ after).flatten = render (done ++ todo) ++ rest) (hk : k ≤ 2)
    (hbefore : before.flatten ++ List.replicate k 10 = render done) :
    (after.flatMap (chunksOf env)).flatMap (extract env cfg) = textOf env cfg todo := by
  induction after generalizing before done todo k with
  | nil =>
      rw [List.append_nil, render_append, ← hbefore, List.append_assoc, List.append_assoc] at hall
      have hlength := congrArg List.length hall
      cases todo with
      | nil => rfl
      | cons line todo =>
          have hne := (h.dataLines line (by simp)).ne_nil
          have hlong := (length_render_cons line todo).resolve_right hne
          simp only [List.length_append] at hlength
          omega
  | cons piece after ih =>
      rw [List.flatMap_cons, List.flatMap_append]
      rcases hcut (before ++ [piece]) after (by simp) with hwhole | ⟨done', todo', k', heq, hk', hbound⟩
      · -- the rest of the stream is in this callback
        have hpiece : piece = List.replicate k 10 ++ (render todo ++ rest) := by
          rw [List.flatten_append, render_append, ← hbefore, List.append_assoc, List.append_assoc]
            at hwhole
          simpa using List.append_cancel_left hwhole
        have hempty : after.flatten = [] := by
          rw [← hwhole] at hall
          simpa using hall
        have hnothing : (after.flatMap (chunksOf env)).flatMap (extract env cfg) = [] := by
          rw [List.flatMap_eq_nil_iff]
          intro chunk hchunk
          obtain ⟨q, hq, hin⟩ := List.mem_flatMap.mp hchunk
          have hnil : q = [] := List.flatten_eq_nil_iff.mp hempty q hq
          have hnone : (chunksOf env q).flatMap (extract env cfg) = textOf env cfg [] :=
            flatMap_chunksOf (k := 0) (m := 0) henv (by simp) (by simp) (by simp [hnil, render])
          exact List.flatMap_eq_nil_iff.mp hnone chunk hin
        rw [hnothing, List.append_nil]
        by_cases hrest : rest = []
        · exact flatMap_chunksOf (m := 0) henv h.drop.dataLines (by simp) (by simpa [hrest] using hpiece)
        · rw [hpiece]
          exact flatMap_chunksOf_rest henv h.drop hrest (htext.resolve_left hrest) k
      · have hne : ∀ line ∈ done, line ≠ [] := fun line hline =>
          (h.dataLines line (by simp [hline])).ne_nil
        have hafter : before.flatten ++ piece ++ List.replicate k' 10 = render done' := by
          simpa using hbound
        obtain ⟨mid, rfl, rfl, hpiece⟩ := exists_between hne heq hk hbefore hafter
        have hmid : ∀ line ∈ mid, DataLine line := fun line hline =>
          h.dataLines line (by simp [hline])
        have hstream : IsStream (done ++ mid ++ todo') rest := by simpa using h
        have hcut' : Uncut (done ++ mid ++ todo') rest (before ++ [piece] ++ after) := by
          simpa using hcut
        have hall' : (before ++ [piece] ++ after).flatten = render (done ++ mid ++ todo') ++ rest := by
          simpa using hall
        rw [flatMap_chunksOf henv hmid hk' hpiece, textOf_append, ih hstream hcut' hall' hk' hbound]

/-- Uncut events give their texts. -/
theorem flatMap_pieces (henv : Reads env) {lines pieces : List GoString} {rest : GoString}
    (h : IsStream lines rest) (htext : rest = [] ∨ extract env cfg (trimSpace rest) = [])
    (hcut : Uncut lines rest pieces) (hall : pieces.flatten = render lines ++ rest) :
    (pieces.flatMap (chunksOf env)).flatMap (extract env cfg) = textOf env cfg lines := by
  have hstream : IsStream ([] ++ lines) rest := h
  have hcut' : Uncut ([] ++ lines) rest ([] ++ pieces) := hcut
  have hstart : ([] : List GoString).flatten ++ List.replicate 0 10 = render [] := by simp [render]
  exact flatMap_after henv hstream htext hcut' hall (by simp) hstart

/-! ### What is submitted -/

/-- The pieces in which the body comes. -/
def piecesOf (events : List Event) : List GoString :=
  events.filterMap fun
    | .data data _ _ => some data
    | .answer _ _ _ => none

/-- Every call is taken and passes. -/
def AllPass (env : Env Response) (events : List Event) : Prop :=
  ∀ e ∈ events, match e with
    | .data _ _ dispatched => dispatched = true
    | .answer statusCode responseBody dispatched =>
        outcomeOf env statusCode responseBody = .passed ∧ dispatched = true

/-- The submitted texts, but for the placeholder of calls without text. -/
def submittedText (s : State) : GoString :=
  ((s.submitted.filter (·.buffer ≠ [])).map Submission.content).flatten

theorem queuedChunks_eq (events : List Event) :
    queuedChunks env events = (piecesOf events).flatMap (chunksOf env) := by
  induction events with
  | nil => rfl
  | cons e events ih =>
      have hcons : queuedChunks env (e :: events) =
          queuedChunks env [e] ++ queuedChunks env events := by simp [queuedChunks]
      rw [hcons, ih]
      cases e with
      | data data endOfStream dispatched => simp [queuedChunks, piecesOf]
      | answer statusCode responseBody dispatched => simp [queuedChunks, piecesOf]

theorem AllPass.harmlessRun {events : List Event} (h : AllPass env events) :
    HarmlessRun env cfg events := by
  rintro before e after s rfl -
  have he := h e (by simp)
  cases e with
  | data data endOfStream dispatched => exact ⟨trivial, .inl he⟩
  | answer statusCode responseBody dispatched =>
      obtain ⟨hpassed, htaken⟩ := he
      refine ⟨fun body => by simp [hpassed], ?_⟩
      rw [Harmless, if_neg (by simp [hpassed])]
      exact .inl htaken

theorem submittedText_eq (s : State) :
    submittedText s = (s.submitted.map Submission.buffer).flatten := by
  rw [submittedText]
  induction s.submitted with
  | nil => rfl
  | cons submission submitted ih =>
      by_cases hempty : submission.buffer = []
      · rw [List.filter_cons_of_neg (by simpa using hempty), ih]
        simp [hempty]
      · rw [List.filter_cons_of_pos (by simpa using hempty), List.map_cons, List.flatten_cons, ih]
        simp [Submission.content, hempty]

/-- A call submits the text of the chunks that it takes. -/
theorem popLoop_buffer (queue : List GoString) (buffer : GoString) :
    (popLoop env cfg queue buffer).2.1 =
      buffer ++ (popLoop env cfg queue buffer).1.flatMap (extract env cfg) := by
  induction queue generalizing buffer with
  | nil => simp [popLoop]
  | cons front queue ih =>
      rw [popLoop]
      split
      · simp
      · simpa [List.append_assoc] using ih (buffer ++ extract env cfg front)

/-- The submitted text and that of the queue. -/
def knownText (env : Env Response) (cfg : Config) (s : State) : GoString :=
  submittedText s ++ s.queue.flatMap (extract env cfg)

theorem knownText_singleCall (s : State) :
    knownText env cfg (singleCall env cfg true s) = knownText env cfg s := by
  rw [singleCall]
  split
  · rfl
  · split
    · have hpop : (popLoop env cfg s.queue []).1 ++ (popLoop env cfg s.queue []).2.2 = s.queue :=
        popLoop_append _ _
      have hbuffer : (popLoop env cfg s.queue []).2.1 =
          (popLoop env cfg s.queue []).1.flatMap (extract env cfg) := popLoop_buffer _ _
      rw [knownText, knownText, submittedText_eq, submittedText_eq]
      conv_rhs => rw [← hpop]
      simp [hbuffer]
    · rfl

theorem knownText_step {events : List Event} {e : Event} {s s' : State} (hinv : Inv env events s)
    (hpass : AllPass env [e]) (hstep : step env cfg s e = some s') :
    knownText env cfg s' =
      knownText env cfg s ++ (queuedChunks env [e]).flatMap (extract env cfg) := by
  have he := hpass e (by simp)
  cases e with
  | data data endOfStream dispatched =>
      obtain rfl : dispatched = true := he
      rw [step] at hstep
      split at hstep
      · cases hstep
      · obtain rfl := Option.some.inj hstep
        have hpush : knownText env cfg (push env data endOfStream s) = knownText env cfg s ++
            (queuedChunks env [.data data endOfStream true]).flatMap (extract env cfg) := by
          simp [knownText, push, submittedText, queuedChunks]
        rw [handleTextGenerationStreamingResponseBody, if_neg (by simp [hinv.riskDetected])]
        dsimp only
        split
        · exact hpush
        · rw [knownText_singleCall, hpush]
  | answer statusCode responseBody dispatched =>
      obtain ⟨hpassed, rfl⟩ := he
      obtain ⟨bufferQueue, hcall, rfl⟩ := Option.map_eq_some_iff.mp hstep
      have hnone : queuedChunks env [.answer statusCode responseBody true] = [] := rfl
      rw [hnone, List.flatMap_nil, List.append_nil, hpassed, callback]
      dsimp only
      split
      · rfl
      · rw [knownText_singleCall]
        rfl

theorem knownText_run {events : List Event} {s : State} (hrun : run env cfg events = some s)
    (hpass : AllPass env events) :
    knownText env cfg s = (queuedChunks env events).flatMap (extract env cfg) := by
  induction events using List.reverseRecOn generalizing s with
  | nil =>
      obtain rfl : ({} : State) = s := by simpa [run] using hrun
      rfl
  | append_singleton before e ih =>
      obtain ⟨s₀, hbefore, hstep⟩ := run_append_singleton hrun
      have hpass₀ : AllPass env before := fun e' he' => hpass e' (by simp [he'])
      have hlast : AllPass env [e] := fun e' he' => hpass e' (by simp [List.mem_singleton.mp he'])
      have hinv := run_inv hbefore hpass₀.harmlessRun
      rw [knownText_step hinv hlast hstep, ih hbefore hpass₀, queuedChunks_append,
        List.flatMap_append]

/-- If no event is cut and there is no text behind the last complete one, then in every run
in which all calls pass, at its end, the texts that have been submitted are those of the
events. -/
theorem submits_of_uncut (henv : Reads env) {lines : List GoString} {rest : GoString}
    (hstream : IsStream lines rest) {events : List Event} {s : State}
    (hbody : (piecesOf events).flatten = render lines ++ rest)
    (hrun : run env cfg events = some s) (hpass : AllPass env events) (hclosed : s.closed = true)
    (hcall : s.call = none) (hcut : Uncut lines rest (piecesOf events))
    (htext : rest = [] ∨ extract env cfg (trimSpace rest) = []) :
    submittedText s = textOf env cfg lines := by
  have hinv := run_inv hrun hpass.harmlessRun
  have hover : Over s := hinv.phase.resolve_left fun hopen => by
    simpa [hcall] using hopen.closed hclosed
  have hknown := knownText_run hrun hpass
  rw [knownText, hover.queue, List.flatMap_nil, List.append_nil, queuedChunks_eq] at hknown
  rw [hknown, flatMap_pieces henv hstream htext hcut hbody]

end Chunks

namespace Sample

theorem reads : Reads env := by
  have hbreak : 10 ∈ separator := by decide
  have hline : 10 ∉ line := by decide
  refine ⟨fun data _ => rfl, fun l path hl => ?_⟩
  have hlong : l ++ separator ≠ line := fun heq => hline (heq ▸ List.mem_append_right _ hbreak)
  have hshort : l ≠ line ++ separator :=
    fun heq => hl.plain.1 (heq ▸ List.mem_append_right _ hbreak)
  simp [env, event, hlong, hshort]

theorem isStream_line : IsStream [line] [] := by
  refine ⟨?_, .inl rfl, by decide, by decide⟩
  intro l hl
  obtain rfl := List.mem_singleton.mp hl
  exact ⟨by decide, ⟨125, by decide, by decide⟩, by decide⟩

/-- The event in two callbacks, the first of which has `n` bytes of it. -/
def cutEvents (n : ℕ) : List Event :=
  [.data ((line ++ separator).take n) false true, .data ((line ++ separator).drop n) true true,
    .answer 200 passBody true]

theorem allPass_cutEvents (n : ℕ) : AllPass env (cutEvents n) := by
  intro e he
  simp only [cutEvents, List.mem_cons, List.not_mem_nil, or_false] at he
  rcases he with rfl | rfl | rfl
  · rfl
  · rfl
  · exact ⟨by decide, rfl⟩

theorem flatten_cutEvents (n : ℕ) : (piecesOf (cutEvents n)).flatten = render [line] ++ [] := by
  simp [piecesOf, cutEvents, render]

end Sample

open Sample in
/-- The event is cut between its line breaks. -/
theorem submits_uncut_line : ∃ s, run env cfg (cutEvents (line.length + 1)) = some s ∧
    submittedText s = textOf env cfg [line] ∧ textOf env cfg [line] = bytes "hello" := by
  obtain ⟨s, hs, hclosed, hcall⟩ : ∃ s, run env cfg (cutEvents (line.length + 1)) = some s ∧
      s.closed = true ∧ s.call = none := by
    have hend : (run env cfg (cutEvents (line.length + 1))).map (fun s => (s.closed, s.call)) =
        some (true, none) := by decide +kernel
    obtain ⟨s, hs, hpair⟩ := Option.map_eq_some_iff.mp hend
    exact ⟨s, hs, (Prod.mk.inj hpair).1, (Prod.mk.inj hpair).2⟩
  refine ⟨s, hs, ?_, by decide⟩
  apply submits_of_uncut reads isStream_line (flatten_cutEvents _) hs (allPass_cutEvents _) hclosed
    hcall _ (.inl rfl)
  have hpieces : piecesOf (cutEvents (line.length + 1)) = [line ++ [10], [10]] := by decide
  rw [hpieces]
  intro before after heq
  rcases before with _ | ⟨first, _ | ⟨second, more⟩⟩
  · exact .inr ⟨[], [line], 0, rfl, by simp, rfl⟩
  · obtain ⟨rfl, -⟩ := List.cons.inj heq
    exact .inr ⟨[line], [], 1, rfl, by simp, by simp [render, separator]⟩
  · simp only [List.cons_append, List.cons.injEq] at heq
    obtain ⟨rfl, rfl, hmore⟩ := heq
    obtain rfl : more = [] := (List.append_eq_nil_iff.mp hmore.symm).1
    exact .inl (by simp [render, separator])

open Sample in
/-- The event is cut within its text: nothing of it is submitted, and all of it is injected. -/
theorem not_submits_cut_text : Reads env ∧ IsStream [line] [] ∧ AllPass env (cutEvents 40) ∧
    (piecesOf (cutEvents 40)).flatten = render [line] ∧
    (run env cfg (cutEvents 40)).map
        (fun s => (s.closed, s.call, submittedText s, (delivered s.output).flatten)) =
      some (true, none, [], line ++ separator) ∧
    textOf env cfg [line] = bytes "hello" :=
  ⟨reads, isStream_line, allPass_cutEvents 40, by simpa using flatten_cutEvents 40,
    by decide +kernel, by decide +kernel⟩

end Higress.AiSecurityGuard
