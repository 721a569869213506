import Mathlib
import Higress.Lib.Quote
import Higress.Lib.Text

/-!
The response to a cache hit (`ai-cache/core.go` and the templates of `ai-cache/config/config.go`).
The cached answer is quoted as Go does it, the quotes around it are trimmed, and what is left is put
into a template that is a JSON text, or an event with one.

The text is not always JSON. Go escapes some characters as JSON does not, and the trimming takes
away more than the quotes around the answer if the answer itself ends with a quote.
-/

namespace Higress.AiCache

open Lib Json Utf8

/-! ### The templates -/

/-- The default of `ResponseTemplate`. -/
def defaultResponseTemplate : GoString :=
  bytes ("\x7b\"id\":\"from-cache\",\"choices\":[\x7b\"index\":0,\"" ++ "message" ++
    "\":\x7b\"role\":\"assistant\",\"content\":\"" ++ "%s" ++
    ("\"\x7d,\"finish_reason\":\"stop\"\x7d],\"model\":\"from-cache\"," ++
      "\"object\":\"chat.completion\",\"usage\":\x7b\"prompt_tokens\":0,\"completion_tokens\":0," ++
      "\"total_tokens\":0\x7d\x7d"))

/-- The default of `StreamResponseTemplate`. -/
def defaultStreamResponseTemplate : GoString :=
  bytes ("data:" ++ ("\x7b\"id\":\"from-cache\",\"choices\":[\x7b\"index\":0,\"" ++ "delta" ++
    "\":\x7b\"role\":\"assistant\",\"content\":\"") ++ "%s" ++
    ("\"\x7d,\"finish_reason\":\"stop\"\x7d],\"model\":\"from-cache\"," ++
      "\"object\":\"chat.completion\",\"usage\":\x7b\"prompt_tokens\":0,\"completion_tokens\":0," ++
      "\"total_tokens\":0\x7d\x7d") ++ "\n\ndata:[DONE]\n\n")

structure PluginConfig where
  responseTemplate : GoString := defaultResponseTemplate
  streamResponseTemplate : GoString := defaultStreamResponseTemplate

/-- `fmt.Sprintf` for a template whose only verb is one `%s`. -/
def sprintf (arg : GoString) : GoString → GoString
  | [] => []
  | [b] => [b]
  | b :: c :: s => if b = 37 ∧ c = 115 then arg ++ s else b :: sprintf arg (c :: s)

/-! ### The response -/

/-- What of the context of a request is used: the key, and what is written to the log. -/
structure HitContext where
  cacheKey : Option GoString
  cacheStatus : Option GoString

structure Response where
  statusCode : ℕ
  detail : GoString
  contentType : GoString
  body : GoString

/-- `processCacheHit`; without a response the request is resumed. -/
def processCacheHit (table : PrintTable) (config : PluginConfig) (ctx : HitContext)
    (response : GoString) (stream : Bool) : HitContext × Option Response :=
  if Strings.trimSpace response = [] then (ctx, none)
  else
    let escapedResponse := trimByte 34 (quote table response)
    (⟨none, some (bytes "hit")⟩,
      if stream then
        some ⟨200, bytes "ai-cache.hit", bytes "text/event-stream; charset=utf-8",
          sprintf escapedResponse config.streamResponseTemplate⟩
      else
        some ⟨200, bytes "ai-cache.hit", bytes "application/json; charset=utf-8",
          sprintf escapedResponse config.responseTemplate⟩)

/-! ### What a client reads -/

def member (name : GoString) : Json → Option Json
  | .obj members => (members.find? fun m => m.1 = name).map Prod.snd
  | _ => none

def element (i : ℕ) : Json → Option Json
  | .arr elems => elems[i]?
  | _ => none

/-- The text at `choices[0].<field>.content`. -/
def contentAt (field : GoString) (t : Json) : Option GoString :=
  ((((member (bytes "choices") t).bind (element 0)).bind (member field)).bind
    (member (bytes "content"))).bind fun
    | .str s => some s
    | _ => none

/-- The response that is not streamed is JSON with the answer in it. -/
def Answers (table : PrintTable) (ctx : HitContext) (v : GoString) : Prop :=
  ∃ response t, (processCacheHit table {} ctx v false).2 = some response ∧
    unmarshal response.body = some t ∧ contentAt (bytes "message") t = some v

/-- The streamed response is one event with the answer and the last event. -/
def AnswersStream (table : PrintTable) (ctx : HitContext) (v : GoString) : Prop :=
  ∃ response text t, (processCacheHit table {} ctx v true).2 = some response ∧
    response.body = bytes "data:" ++ text ++ bytes "\n\ndata:[DONE]\n\n" ∧
    (∀ b ∈ text, b ≠ 10 ∧ b ≠ 13) ∧
    unmarshal text = some t ∧ contentAt (bytes "delta") t = some v

/-- The answer does not end with a quote, and has only characters that Go and JSON escape alike. -/
def Quotable (table : PrintTable) (v : GoString) : Prop :=
  v.getLast? ≠ some 34 ∧ ∀ cs, chars v = some cs → ∀ c ∈ cs, Shared table c

/-! ### The text between the quotes -/

/-- The JSON text before and behind the answer. -/
def headText (field : String) : GoString :=
  bytes ("\x7b\"id\":\"from-cache\",\"choices\":[\x7b\"index\":0,\"" ++ field ++
    "\":\x7b\"role\":\"assistant\",\"content\":\"")

def tailText : GoString :=
  bytes ("\"\x7d,\"finish_reason\":\"stop\"\x7d],\"model\":\"from-cache\"," ++
    "\"object\":\"chat.completion\",\"usage\":\x7b\"prompt_tokens\":0,\"completion_tokens\":0," ++
    "\"total_tokens\":0\x7d\x7d")

theorem sprintf_append {before : GoString} (h : 37 ∉ before) (arg s : GoString) :
    sprintf arg (before ++ 37 :: 115 :: s) = before ++ (arg ++ s) := by
  induction before with
  | nil => simp [sprintf]
  | cons b before ih =>
      have hb : b ≠ 37 := fun heq => h (heq ▸ List.mem_cons_self)
      have hrest := ih fun hin => h (List.mem_cons_of_mem _ hin)
      obtain ⟨c, t, ht⟩ := List.exists_cons_of_ne_nil
        (show before ++ 37 :: 115 :: s ≠ [] by simp)
      rw [List.cons_append, ht, sprintf, if_neg fun hc => hb hc.1, ← ht, hrest]
      rfl

theorem sprintf_default (w : GoString) :
    sprintf w defaultResponseTemplate = headText "message" ++ (w ++ tailText) := by
  have h : defaultResponseTemplate = headText "message" ++ 37 :: 115 :: tailText := by
    simp only [defaultResponseTemplate, headText, tailText, bytes_append, List.append_assoc]
    rfl
  rw [h, sprintf_append (by decide)]

theorem sprintf_stream (w : GoString) : sprintf w defaultStreamResponseTemplate =
    bytes "data:" ++ (headText "delta" ++ (w ++ tailText)) ++ bytes "\n\ndata:[DONE]\n\n" := by
  have h : defaultStreamResponseTemplate = (bytes "data:" ++ headText "delta") ++
      37 :: 115 :: (tailText ++ bytes "\n\ndata:[DONE]\n\n") := by
    simp only [defaultStreamResponseTemplate, headText, tailText, bytes_append, List.append_assoc]
    rfl
  rw [h, sprintf_append (by decide)]
  simp only [List.append_assoc]

/-- The value whose text the template is, with the answer as it stands between the quotes. -/
def answerTree (field : String) (raw : GoString) : Json :=
  .obj [
    (bytes "id", .str (bytes "from-cache")),
    (bytes "choices", .arr [.obj [
      (bytes "index", .num (bytes "0")),
      (bytes field, .obj [
        (bytes "role", .str (bytes "assistant")),
        (bytes "content", .str raw)]),
      (bytes "finish_reason", .str (bytes "stop"))]]),
    (bytes "model", .str (bytes "from-cache")),
    (bytes "object", .str (bytes "chat.completion")),
    (bytes "usage", .obj [
      (bytes "prompt_tokens", .num (bytes "0")),
      (bytes "completion_tokens", .num (bytes "0")),
      (bytes "total_tokens", .num (bytes "0"))])]

set_option maxRecDepth 4000 in
theorem writeRaw_answerTree (field : String) (raw : GoString) :
    writeRaw (answerTree field raw) = headText field ++ (raw ++ tailText) := by
  simp only [writeRaw, answerTree, write, writeElems, writeMembers, id, headText, tailText,
    bytes_append, List.append_assoc]
  rfl

/-- A name or a text of the template reads as itself. -/
def Literal (raw : GoString) : Prop := (∀ b ∈ raw, isPlain b = true) ∧ unquote raw = some raw

instance (raw : GoString) : Decidable (Literal raw) :=
  decidable_of_iff (raw.all isPlain = true ∧ unquote raw = some raw)
    (by rw [Literal, List.all_eq_true])

theorem Literal.lexable {raw : GoString} (h : Literal raw) : Lexable raw :=
  (spells_of_plain h.1).lexString

theorem literal_names : ∀ name ∈ [bytes "id", bytes "choices", bytes "index", bytes "role",
    bytes "content", bytes "finish_reason", bytes "model", bytes "object", bytes "usage",
    bytes "prompt_tokens", bytes "completion_tokens", bytes "total_tokens"], Literal name := by
  decide

theorem literal_texts : ∀ text ∈ [bytes "from-cache", bytes "assistant", bytes "stop",
    bytes "chat.completion"], Literal text := by
  decide

section

variable {field : String} (hfield : Literal (bytes field)) {raw : GoString} (hraw : Lexable raw)

include hfield hraw

theorem parse_answerText :
    parse (headText field ++ (raw ++ tailText)) = some (answerTree field raw) := by
  rw [← writeRaw_answerTree]
  refine parse_writeRaw (fun name hname => ?_) (fun text htext => ?_) fun lit hlit => ?_
  · simp only [answerTree, keys, keysElems, keysMembers, List.append_nil, List.nil_append,
      List.cons_append, List.mem_cons, List.not_mem_nil, or_false] at hname
    by_cases heq : name = bytes field
    · rw [heq]
      exact hfield.lexable
    · refine (literal_names name ?_).lexable
      simp only [List.mem_cons, List.not_mem_nil, or_false]
      tauto
  · simp only [answerTree, leaves, leavesElems, leavesMembers, List.append_nil, List.nil_append,
      List.cons_append, List.mem_cons, List.not_mem_nil, or_false] at htext
    by_cases heq : text = raw
    · rw [heq]
      exact hraw
    · refine (literal_texts text ?_).lexable
      simp only [List.mem_cons, List.not_mem_nil, or_false]
      tauto
  · simp only [answerTree, numbers, numbersElems, numbersMembers, List.append_nil, List.nil_append,
      List.cons_append, List.mem_cons, List.not_mem_nil, or_false, or_self] at hlit
    rw [hlit]
    decide

theorem unmarshal_answerText :
    unmarshal (headText field ++ (raw ++ tailText)) = (unquote raw).map (answerTree field) := by
  rw [unmarshal, parse_answerText hfield hraw, Option.bind_some]
  have hnames := fun name h => (literal_names name h).2
  have htexts := fun text h => (literal_texts text h).2
  simp only [List.forall_mem_cons, List.not_mem_nil, false_imp_iff, implies_true, and_true]
    at hnames htexts
  simp only [answerTree, decode, decodeElems, decodeMembers, hfield.2, hnames, htexts]
  cases unquote raw <;> rfl

end

theorem contentAt_message (v : GoString) :
    contentAt (bytes "message") (answerTree "message" v) = some v := rfl

theorem contentAt_delta (v : GoString) :
    contentAt (bytes "delta") (answerTree "delta" v) = some v := rfl

/-! ### The quotes around the answer -/

theorem trimByte_eq {q : UInt8} {x : GoString} (hhead : ∃ b t, x = b :: t ∧ b ≠ q)
    (hlast : ∃ t b, x = t ++ [b] ∧ b ≠ q) (k : ℕ) :
    trimByte q (q :: (x ++ List.replicate k q)) = x := by
  obtain ⟨b, t, rfl, hb⟩ := hhead
  have hfront : (q :: (b :: t ++ List.replicate k q)).dropWhile (· == q) =
      b :: t ++ List.replicate k q := by
    simp [hb]
  obtain ⟨t', b', hlast, hb'⟩ := hlast
  have hback : (List.replicate k q ++ (b' :: t'.reverse)).dropWhile (· == q) = b' :: t'.reverse := by
    rw [List.dropWhile_append_of_pos (by simp), List.dropWhile_cons_of_neg (by simpa using hb')]
  rw [trimByte, hfront, hlast, List.reverse_append, List.reverse_replicate, List.reverse_append,
    List.reverse_singleton, List.singleton_append, hback]
  simp

section

variable {table : PrintTable} {cs : List GoString} (h : ∀ c ∈ cs, IsChar c)

include h

/-- What is put into the template for an answer that does not end with a quote. -/
theorem trimByte_quote {c : GoString} (hc : IsChar c) (hne : c ≠ [34]) :
    trimByte 34 (quote table (cs ++ [c]).flatten) = (cs ++ [c]).flatMap (escapedRune table) := by
  have hall : ∀ d ∈ cs ++ [c], IsChar d := by
    intro d hd
    rcases List.mem_append.1 hd with hd | hd
    · exact h d hd
    · exact List.mem_singleton.1 hd ▸ hc
  rw [quote, quoteFrom_flatten table hall]
  refine trimByte_eq (quoted_head hall (by simp)) ?_ 1
  obtain ⟨t, b, heq, hb⟩ := (@escapedRune_bytes table c hc).2.2 hne
  exact ⟨cs.flatMap (escapedRune table) ++ t, b, by simp [heq], hb⟩

/-- For an answer that ends with a quote, the quote is trimmed too and its backslash stays. -/
theorem trimByte_quote_of_quote : trimByte 34 (quote table (cs ++ [[34]]).flatten) =
    cs.flatMap (escapedRune table) ++ [92] := by
  have hquote : IsChar [34] := ⟨by simp, by decide⟩
  have hall : ∀ d ∈ cs ++ [[34]], IsChar d := by
    intro d hd
    rcases List.mem_append.1 hd with hd | hd
    · exact h d hd
    · exact List.mem_singleton.1 hd ▸ hquote
  have hescaped : escapedRune table [34] = [92, 34] := rfl
  have hhead : ∃ b t, cs.flatMap (escapedRune table) ++ [92] = b :: t ∧ b ≠ 34 := by
    by_cases hnil : cs = []
    · exact ⟨92, [], by simp [hnil], by decide⟩
    · obtain ⟨b, t, heq, hb⟩ := @quoted_head table cs h hnil
      exact ⟨b, t ++ [92], by simp [heq], hb⟩
  have := trimByte_eq hhead ⟨_, 92, rfl, by decide⟩ 2
  rw [quote, quoteFrom_flatten table hall]
  simpa [hescaped] using this

end

/-! ### Texts that cannot be read -/

theorem parseValue_object_none {b : UInt8} {s : GoString} (hspace : isSpace b = false)
    (hb : b ≠ 125) (h : ∀ n, parseMembers n (b :: s) = none) (n : ℕ) :
    parseValue n (123 :: b :: s) = none := by
  cases n with
  | zero => rfl
  | succ n =>
      simp [parseValue, skipSpace_cons (show isSpace 123 = false by decide), skipSpace_cons hspace,
        hb, h]

theorem parseValue_array_none {b : UInt8} {s : GoString} (hspace : isSpace b = false)
    (hb : b ≠ 93) (h : ∀ n, parseValue n (b :: s) = none) (n : ℕ) :
    parseValue n (91 :: b :: s) = none := by
  have helems (n : ℕ) : parseElems n (b :: s) = none := by
    cases n with
    | zero => rfl
    | succ n => simp [parseElems, h]
  cases n with
  | zero => rfl
  | succ n =>
      simp [parseValue, skipSpace_cons (show isSpace 91 = false by decide), skipSpace_cons hspace,
        hb, helems]

theorem parseMembers_value_none {name s : GoString} (hname : Lexable name)
    (h : ∀ n, parseValue n s = none) (n : ℕ) :
    parseMembers n (34 :: (name ++ 34 :: 58 :: s)) = none := by
  cases n with
  | zero => rfl
  | succ n =>
      simp [parseMembers, skipSpace_cons (show isSpace 34 = false by decide), hname _,
        skipSpace_cons (show isSpace 58 = false by decide), h]

/-- The rest behind a member and a comma cannot be read. -/
theorem parseMembers_rest_none {name text s : GoString} {v : Json} (hname : Lexable name)
    (hvalue : ∀ n, parseValue (n + 1) (text ++ 44 :: s) = some (v, 44 :: s))
    (h : ∀ n, parseMembers n s = none) (n : ℕ) :
    parseMembers n (34 :: (name ++ 34 :: 58 :: (text ++ 44 :: s))) = none := by
  match n with
  | 0 => rfl
  | 1 => simp [parseMembers, skipSpace_cons (show isSpace 34 = false by decide), hname _,
      skipSpace_cons (show isSpace 58 = false by decide), parseValue]
  | n + 2 =>
      rw [parseMembers]
      simp [skipSpace_cons (show isSpace 34 = false by decide), hname _,
        skipSpace_cons (show isSpace 58 = false by decide), hvalue,
        skipSpace_cons (show isSpace 44 = false by decide), h]

/-- Behind a text there is something else than a comma or the end of the object. -/
theorem parseMembers_text_none {name s text rest : GoString} {b : UInt8} (hname : Lexable name)
    (htext : lexString false s = some (text, b :: rest)) (hspace : isSpace b = false)
    (hend : b ≠ 125) (hcomma : b ≠ 44) (n : ℕ) :
    parseMembers n (34 :: (name ++ 34 :: 58 :: 34 :: s)) = none := by
  match n with
  | 0 => rfl
  | 1 => simp [parseMembers, skipSpace_cons (show isSpace 34 = false by decide), hname _,
      skipSpace_cons (show isSpace 58 = false by decide), parseValue]
  | n + 2 =>
      simp [parseMembers, skipSpace_cons (show isSpace 34 = false by decide), hname _,
        skipSpace_cons (show isSpace 58 = false by decide), parseValue, htext,
        skipSpace_cons hspace, hend, hcomma]

theorem parseValue_text {text : GoString} (htext : Lexable text) (s : GoString) (n : ℕ) :
    parseValue (n + 1) ((34 :: (text ++ [34])) ++ s) = some (.str text, s) := by
  simp [parseValue, skipSpace_cons (show isSpace 34 = false by decide), htext _]

theorem parseValue_zero (s : GoString) (n : ℕ) :
    parseValue (n + 1) ([48] ++ 44 :: s) = some (.num [48], 44 :: s) :=
  parseValue_writeRaw (n + 1) (.num [48]) (44 :: s) (by simp [keys]) (by simp [leaves])
    (by simp only [numbers]; decide) (by simp [writeRaw, write]) (stops_of_head (.inl rfl))

/-- The text of the template cannot be read if something else than a comma or a brace follows the
answer. -/
theorem parse_headText_none {field : String} (hfield : Literal (bytes field))
    {s text rest : GoString} {b : UInt8} (htext : lexString false s = some (text, b :: rest))
    (hspace : isSpace b = false) (hend : b ≠ 125) (hcomma : b ≠ 44) :
    parse (headText field ++ s) = none := by
  have hnames := fun name h => (literal_names name h).lexable
  have htexts := fun text h => (literal_texts text h).lexable
  simp only [List.forall_mem_cons, List.not_mem_nil, false_imp_iff, implies_true, and_true]
    at hnames htexts
  obtain ⟨hid, hchoices, hindex, hrole, hcontent, -⟩ := hnames
  obtain ⟨hfrom, hassistant, -⟩ := htexts
  have hmessage := parseValue_object_none (by decide) (by decide)
    (parseMembers_rest_none hrole (parseValue_text hassistant _)
      (parseMembers_text_none hcontent htext hspace hend hcomma))
  have hchoice := parseValue_object_none (by decide) (by decide)
    (parseMembers_rest_none hindex (parseValue_zero _)
      (parseMembers_value_none hfield.lexable hmessage))
  have hall := parseValue_object_none (by decide) (by decide)
    (parseMembers_rest_none hid (parseValue_text hfrom _)
      (parseMembers_value_none hchoices (parseValue_array_none (by decide) (by decide) hchoice)))
  have hhead : headText field ++ s =
      123 :: 34 :: (bytes "id" ++ 34 :: 58 :: ((34 :: (bytes "from-cache" ++ [34])) ++
        44 :: 34 :: (bytes "choices" ++ 34 :: 58 :: 91 :: 123 :: 34 :: (bytes "index" ++
          34 :: 58 :: ([48] ++ 44 :: 34 :: (bytes field ++ 34 :: 58 :: 123 :: 34 :: (bytes "role" ++
            34 :: 58 :: ((34 :: (bytes "assistant" ++ [34])) ++
              44 :: 34 :: (bytes "content" ++ 34 :: 58 :: 34 :: s))))))))) := by
    simp only [headText, bytes_append, List.append_assoc]
    rfl
  rw [parse, hhead, hall]

/-! ### The round trip -/

section

variable {table : PrintTable} {ctx : HitContext} {v : GoString}

theorem processCacheHit_of_ne (hblank : Strings.trimSpace v ≠ []) :
    (processCacheHit table {} ctx v false).2 = some ⟨200, bytes "ai-cache.hit",
        bytes "application/json; charset=utf-8",
        headText "message" ++ (trimByte 34 (quote table v) ++ tailText)⟩ ∧
      (processCacheHit table {} ctx v true).2 = some ⟨200, bytes "ai-cache.hit",
        bytes "text/event-stream; charset=utf-8",
        bytes "data:" ++ (headText "delta" ++ (trimByte 34 (quote table v) ++ tailText)) ++
          bytes "\n\ndata:[DONE]\n\n"⟩ := by
  simp only [processCacheHit, if_neg hblank, sprintf_default, sprintf_stream]
  exact ⟨rfl, rfl⟩

/-- The last character of a text that is not blank, and those before it. -/
theorem exists_last (hutf8 : IsUtf8 v) (hblank : Strings.trimSpace v ≠ []) :
    ∃ cs c, chars v = some (cs ++ [c]) ∧ v = (cs ++ [c]).flatten ∧ (∀ d ∈ cs, IsChar d) ∧
      IsChar c := by
  obtain ⟨cs, hcs⟩ := hutf8
  obtain ⟨hflat, hchars⟩ := chars_eq_some_iff.1 hcs
  rcases List.eq_nil_or_concat cs with rfl | ⟨ds, c, rfl⟩
  · exact absurd (by rw [← hflat]; rfl) hblank
  · rw [List.concat_eq_append] at hcs hflat hchars
    exact ⟨ds, c, hcs, hflat.symm, fun d hd => hchars d (List.mem_append_left _ hd),
      hchars c (List.mem_append_right _ List.mem_cons_self)⟩

/-- A character ends with a quote only if it is the quote. -/
theorem getLast?_char {c : GoString} (hc : IsChar c) (hlast : c.getLast? = some 34) : c = [34] := by
  have hbyte {b : UInt8} (h : some b = some 34) : b.toNat = 34 := by
    rw [Option.some.inj h]
    rfl
  rcases isChar_cases hc with ⟨b, rfl, -⟩ | ⟨b, d, rfl, h⟩ | ⟨b, d, e, rfl, h⟩ |
    ⟨b, d, e, f, rfl, h⟩
  · simpa using hlast
  · have : d.toNat = 34 := hbyte hlast
    omega
  · have : e.toNat = 34 := hbyte hlast
    omega
  · have : f.toNat = 34 := hbyte hlast
    omega

theorem getLast?_flatten_concat (cs : List GoString) {c : GoString} (hc : IsChar c) :
    (cs ++ [c]).flatten.getLast? = c.getLast? := by
  rw [List.flatten_append, List.flatten_singleton, List.getLast?_append]
  cases hlast : c.getLast? with
  | none => exact absurd (List.getLast?_eq_none_iff.1 hlast) hc.1
  | some b => rfl

/-- The answer is read back if it can be quoted. -/
theorem answers_of_quotable (hutf8 : IsUtf8 v) (hblank : Strings.trimSpace v ≠ [])
    (hquotable : Quotable table v) : Answers table ctx v ∧ AnswersStream table ctx v := by
  obtain ⟨cs, c, hcs, hv, hchars, hc⟩ := exists_last hutf8 hblank
  have hall : ∀ d ∈ cs ++ [c], IsChar d := (chars_eq_some_iff.1 hcs).2
  have hne : c ≠ [34] := by
    rintro rfl
    exact hquotable.1 (by rw [hv, getLast?_flatten_concat cs hc]; rfl)
  have hspells := spells_quoted hall (hquotable.2 _ hcs)
  have hvalid : coerceUTF8 v = v := by
    rw [hv]
    exact coerceUTF8_flatten hall
  have hunquote : unquote ((cs ++ [c]).flatMap (escapedRune table)) = some v := by
    rw [hspells.unquote, ← hv, hvalid]
  obtain ⟨hplain, hstream⟩ := @processCacheHit_of_ne table ctx v hblank
  have htrim : trimByte 34 (quote table v) = (cs ++ [c]).flatMap (escapedRune table) := by
    rw [hv]
    exact trimByte_quote hchars hc hne
  rw [htrim] at hplain hstream
  constructor
  · refine ⟨_, answerTree "message" v, hplain, ?_, contentAt_message v⟩
    rw [unmarshal_answerText (by decide) hspells.lexString, hunquote]
    rfl
  · refine ⟨_, _, answerTree "delta" v, hstream, rfl, fun b hb => ?_, ?_, contentAt_delta v⟩
    · have hhead : ∀ b ∈ headText "delta", 32 ≤ b := by
        simp only [headText, bytes_append, List.forall_mem_append]
        exact ⟨⟨Strings.forall_mem_of_all (by decide), Strings.forall_mem_of_all (by decide)⟩,
          Strings.forall_mem_of_all (by decide)⟩
      have htail : ∀ b ∈ tailText, 32 ≤ b := by
        simp only [tailText, bytes_append, List.forall_mem_append]
        exact ⟨⟨Strings.forall_mem_of_all (by decide), Strings.forall_mem_of_all (by decide)⟩,
          Strings.forall_mem_of_all (by decide)⟩
      have hle : 32 ≤ b := by
        rcases List.mem_append.1 hb with hb | hb
        · exact hhead b hb
        rcases List.mem_append.1 hb with hb | hb
        · exact le_of_mem_quoted hall b hb
        · exact htail b hb
      constructor <;> rintro rfl <;> revert hle <;> decide
    · rw [unmarshal_answerText (by decide) hspells.lexString, hunquote]
      rfl

/-- The response is no JSON text if the answer ends with a quote: the last quote is trimmed with the
ones around the answer, and its backslash escapes the quote of the template. -/
theorem not_answers_of_quote (hutf8 : IsUtf8 v) (hblank : Strings.trimSpace v ≠ [])
    (hquote : v.getLast? = some 34) : ¬ Answers table ctx v := by
  obtain ⟨cs, c, -, hv, hchars, hc⟩ := exists_last hutf8 hblank
  obtain rfl : c = [34] := getLast?_char hc (by rw [← hquote, hv, getLast?_flatten_concat cs hc])
  have hall : ∀ d ∈ cs ++ [[34]], IsChar d := by
    intro d hd
    rcases List.mem_append.1 hd with hd | hd
    · exact hchars d hd
    · exact List.mem_singleton.1 hd ▸ hc
  have htrim : trimByte 34 (quote table v) = cs.flatMap (escapedRune table) ++ [92] := by
    rw [hv]
    exact trimByte_quote_of_quote hchars
  -- between the quotes, the answer reaches to the quote of the next name
  obtain ⟨rest, hrest⟩ : ∃ rest, lexString false tailText.tail = some ([125, 44], 102 :: rest) :=
    ⟨_, rfl⟩
  have hlex := @lexString_quoted table _ hall tailText.tail
  rw [hrest, Option.map_some] at hlex
  have htext : (cs ++ [[34]]).flatMap (escapedRune table) ++ tailText.tail =
      cs.flatMap (escapedRune table) ++ [92] ++ tailText := by
    rw [List.flatMap_append, List.append_assoc, List.append_assoc]
    rfl
  rw [htext] at hlex
  rintro ⟨response, t, hresponse, hunmarshal, -⟩
  rw [(@processCacheHit_of_ne table ctx v hblank).1, Option.some.injEq] at hresponse
  subst hresponse
  rw [htrim, unmarshal, parse_headText_none (by decide) hlex (by decide) (by decide) (by decide)]
    at hunmarshal
  cases hunmarshal

/-- The response is no JSON text if only Go escapes a character of the answer. -/
theorem not_answers_of_not_shared (hblank : Strings.trimSpace v ≠ []) {cs : List GoString}
    (hcs : chars v = some cs) (hlast : v.getLast? ≠ some 34) (hnot : ¬ ∀ c ∈ cs, Shared table c) :
    ¬ Answers table ctx v := by
  obtain ⟨ds, c, hds, hv, hchars, hc⟩ := exists_last ⟨cs, hcs⟩ hblank
  obtain rfl : cs = ds ++ [c] := Option.some.inj (hcs.symm.trans hds)
  have hall : ∀ d ∈ ds ++ [c], IsChar d := (chars_eq_some_iff.1 hcs).2
  have hne : c ≠ [34] := by
    rintro rfl
    exact hlast (by rw [hv, getLast?_flatten_concat ds hc]; rfl)
  have htrim : trimByte 34 (quote table v) = (ds ++ [c]).flatMap (escapedRune table) := by
    rw [hv]
    exact trimByte_quote hchars hc hne
  have hlexable : Lexable ((ds ++ [c]).flatMap (escapedRune table)) := by
    intro rest
    rw [lexString_quoted hall]
    simp [lexString]
  rintro ⟨response, t, hresponse, hunmarshal, -⟩
  rw [(@processCacheHit_of_ne table ctx v hblank).1, Option.some.injEq] at hresponse
  subst hresponse
  rw [htrim, unmarshal_answerText (by decide) hlexable, unquote_quoted_eq_none hall hnot]
    at hunmarshal
  cases hunmarshal

/-- A cached answer that is not blank is read back from both responses if and only if it does not
end with a quote and all its characters can be printed or have an escape that JSON has too. -/
theorem answers_iff (hutf8 : IsUtf8 v) (hblank : Strings.trimSpace v ≠ []) :
    Answers table ctx v ∧ AnswersStream table ctx v ↔ Quotable table v := by
  refine ⟨fun h => ⟨fun hlast => not_answers_of_quote hutf8 hblank hlast h.1, fun cs hcs => ?_⟩,
    answers_of_quotable hutf8 hblank⟩
  have hlast : v.getLast? ≠ some 34 := fun hlast => not_answers_of_quote hutf8 hblank hlast h.1
  by_contra hnot
  exact not_answers_of_not_shared hblank hcs hlast hnot h.1

end

/-! ### Samples -/

/-- A table that takes what is behind ASCII for characters that can be printed. -/
def sampleTable : PrintTable := ⟨fun r => decide (32 ≤ r ∧ r ≠ 127), fun r hr => by
  rw [decide_eq_decide]
  omega⟩

theorem answers_iff_lines :
    let v := bytes "two\nlines: \"a\" \\"
    Answers sampleTable ⟨some (bytes "key"), none⟩ v ∧
        AnswersStream sampleTable ⟨some (bytes "key"), none⟩ v ↔ Quotable sampleTable v :=
  answers_iff (isUtf8_of_ascii (Strings.forall_mem_of_all (by decide))) (by decide)

/-- An answer that ends with a quote. -/
theorem quoted_answer_lost :
    let v := bytes "say \"hi\""
    IsUtf8 v ∧ Strings.trimSpace v ≠ [] ∧ ¬ Answers sampleTable ⟨some (bytes "key"), none⟩ v :=
  ⟨isUtf8_of_ascii (Strings.forall_mem_of_all (by decide)), by decide,
    not_answers_of_quote (isUtf8_of_ascii (Strings.forall_mem_of_all (by decide))) (by decide) (by decide)⟩

end Higress.AiCache
