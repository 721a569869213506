import Higress.Lib.HttpFilter
import Higress.WasmCpp.Common

/-!
The request blocking plugin (`extensions/request_block/plugin.cc`): a request is answered
if its URL, its header fields or its body have something that is listed.

The lists are put into lower case when they are read, if case does not matter, and the
request when it is checked. For regular expressions this is not the same as ignoring case.
The lists of exact URLs and of regular expressions are looked at only if the list of parts
of URLs is not empty. Header rules are looked for in the fields as they are passed to the
plugin, one text with the lengths of all names and values, and body rules in a body that a
callback has ended.
-/

namespace Higress.WasmCpp.RequestBlock

open Lib HttpFilter

/-- `RequestBlockConfigRule`; a regular expression is kept as its text. -/
structure RequestBlockConfigRule where
  blockedCode : ℤ := 403
  blockedMessage : GoString := []
  caseSensitive : Bool := true
  blockUrls : List GoString := []
  blockExactUrls : List GoString := []
  blockRegexpUrls : List GoString := []
  blockHeaders : List GoString := []
  blockBodys : List GoString := []
deriving DecidableEq

/-- The library for regular expressions: which of them it takes, and whether one matches a
whole text. -/
structure Re2 where
  accepts : GoString → Bool
  fullMatch : GoString → GoString → Bool

/-- A text in the case in which it is compared. -/
def fold (caseSensitive : Bool) (s : GoString) : GoString := if caseSensitive then s else lower s

/-! ### The configuration -/

section Parse

variable (re2 : Re2) (valueAsInt64 : Json → Option ℤ)

/-- The rules under a field, as they are kept. -/
def parseRules (configuration : Json) (caseSensitive : Bool) (field : String) :
    Option (List GoString) :=
  arrayIterate configuration (bytes field) fun item => (valueAsString item).map (fold caseSensitive)

/-- A regular expression is compiled in the case in which it is compared. -/
def parseRegexps (configuration : Json) (caseSensitive : Bool) : Option (List GoString) :=
  arrayIterate configuration (bytes "block_regexp_urls") fun item =>
    (valueAsString item).bind fun regex =>
      if re2.accepts (fold caseSensitive regex) then some (fold caseSensitive regex) else none

def parsePluginConfig (configuration : Json) : Option RequestBlockConfigRule := do
  let blockedCode ← fieldOr configuration "blocked_code" valueAsInt64 403
  let blockedMessage ← fieldOr configuration "blocked_message" valueAsString []
  let caseSensitive ← fieldOr configuration "case_sensitive" valueAsBool true
  let blockUrls ← parseRules configuration caseSensitive "block_urls"
  let blockExactUrls ← parseRules configuration caseSensitive "block_exact_urls"
  let blockRegexpUrls ← parseRegexps re2 configuration caseSensitive
  let blockHeaders ← parseRules configuration caseSensitive "block_headers"
  let blockBodys ← parseRules configuration caseSensitive "block_bodys"
  let blockBodies ← parseRules configuration caseSensitive "block_bodies"
  if blockBodys = [] ∧ blockBodies = [] ∧ blockHeaders = [] ∧ blockUrls = [] ∧
    blockExactUrls = [] ∧ blockRegexpUrls = [] then none
  else some ⟨blockedCode, blockedMessage, caseSensitive, blockUrls, blockExactUrls, blockRegexpUrls,
    blockHeaders, blockBodys ++ blockBodies⟩

end Parse

/-! ### The callbacks -/

/-- A number of 32 bits, with its low byte first. -/
def littleEndian32 (n : ℕ) : GoString :=
  [n.toUInt8, (n / 2 ^ 8).toUInt8, (n / 2 ^ 16).toUInt8, (n / 2 ^ 24).toUInt8]

/-- What `getRequestHeaderPairs` views: the number of fields, the lengths of all names and
values, and then these, each with a zero byte at its end. -/
def headerPairs (headers : Headers) : GoString :=
  littleEndian32 headers.length ++
    (headers.flatMap fun h => littleEndian32 h.1.length ++ littleEndian32 h.2.length) ++
    headers.flatMap fun h => h.1 ++ [0] ++ h.2 ++ [0]

/-- `PluginContext`. -/
structure Ctx where
  bodyTotalSize : ℕ := 0
  checkBody : Bool := false

def maxBodySize : ℕ := 32 * 1024 * 1024

section Callbacks

variable (re2 : Re2) (rule : RequestBlockConfigRule)

/-- A URL is listed. -/
def urlBlocked (requestUrl : GoString) : Bool :=
  let url := fold rule.caseSensitive requestUrl
  rule.blockExactUrls.any (fun blockUrl => url == blockUrl) ||
    rule.blockRegexpUrls.any (fun blockUrl => re2.fullMatch blockUrl url) ||
    rule.blockUrls.any fun blockUrl => Strings.contains url blockUrl

/-- A header is listed. -/
def headersBlocked (requestHeaders : Headers) : Bool :=
  let headers := fold rule.caseSensitive (headerPairs requestHeaders)
  rule.blockHeaders.any fun blockHeader => Strings.contains headers blockHeader

/-- Part of the body is listed. -/
def bodyBlocked (requestBody : GoString) : Bool :=
  let body := fold rule.caseSensitive requestBody
  rule.blockBodys.any fun blockBody => Strings.contains body blockBody

def blockedResponse : LocalResponse :=
  ⟨rule.blockedCode.toNat, [], rule.blockedMessage, []⟩

def checkHeader (s : Stream Ctx) : Bool × Stream Ctx :=
  if !rule.blockUrls.isEmpty && urlBlocked re2 rule (s.headers.get (bytes ":path")) then
    (false, s.sendLocalResponse (blockedResponse rule))
  else if !rule.blockHeaders.isEmpty && headersBlocked rule s.headers then
    (false, s.sendLocalResponse (blockedResponse rule))
  else if !rule.blockBodys.isEmpty then
    (true, { s with ctx := { s.ctx with checkBody := true } })
  else (true, s)

def checkBody (requestBody : GoString) (s : Stream Ctx) : Bool × Stream Ctx :=
  if bodyBlocked rule requestBody then (false, s.sendLocalResponse (blockedResponse rule))
  else (true, s)

variable (config : Option RequestBlockConfigRule)

def onRequestHeaders (s : Stream Ctx) : HeadersStatus × Stream Ctx :=
  match config with
  | none => (.goOn, s)
  | some rule =>
      let done := checkHeader re2 rule s
      (if done.1 then .goOn else .stopIteration, done.2)

def onRequestBody (bodySize : ℕ) (buffer : GoString) (endStream : Bool) (s : Stream Ctx) :
    DataStatus × Stream Ctx :=
  match config with
  | none => (.goOn, s)
  | some rule =>
      if !s.ctx.checkBody then (.goOn, s)
      else
        let s := { s with ctx := { s.ctx with bodyTotalSize := s.ctx.bodyTotalSize + bodySize } }
        if maxBodySize < s.ctx.bodyTotalSize then (.goOn, s)
        else if !endStream then (.stopIterationAndBuffer, s)
        else
          let done := checkBody rule (buffer.take s.ctx.bodyTotalSize) s
          (if done.1 then .goOn else .stopIterationNoBuffer, done.2)

/-- The plugin, with the configuration that `getMatchConfig` has found for the request. -/
def plugin : HttpFilter.Filter Ctx := ⟨onRequestHeaders re2 config, onRequestBody config⟩

end Callbacks

/-! ### What is to be blocked -/

section Hits

variable (caseSensitive : Bool)

def ExactHit (rules : List GoString) (url : GoString) : Prop :=
  ∃ rule ∈ rules, fold caseSensitive url = fold caseSensitive rule

/-- The text of a regular expression that ignores case begins with a flag. -/
def RegexpHit (re2 : Re2) (rules : List GoString) (url : GoString) : Prop :=
  ∃ rule ∈ rules,
    re2.fullMatch (if caseSensitive then rule else bytes "(?i)" ++ rule) url = true

def ContainsHit (rules : List GoString) (text : GoString) : Prop :=
  ∃ rule ∈ rules, Strings.contains (fold caseSensitive text) (fold caseSensitive rule) = true

/-- A name or a value contains a rule. -/
def HeaderHit (rules : List GoString) (headers : Headers) : Prop :=
  ∃ h ∈ headers, ContainsHit caseSensitive rules h.1 ∨ ContainsHit caseSensitive rules h.2

/-- What the plugin matches instead of a regular expression that ignores case. -/
def FoldedHit (re2 : Re2) (rules : List GoString) (url : GoString) : Prop :=
  ∃ rule ∈ rules, re2.fullMatch (fold caseSensitive rule) (fold caseSensitive url) = true

end Hits

/-- The rules that are configured under a field. -/
def rulesOf (configuration : Json) (field : String) : List GoString :=
  (arrayIterate configuration (bytes field) valueAsString).getD []

def bodyRules (configuration : Json) : List GoString :=
  rulesOf configuration "block_bodys" ++ rulesOf configuration "block_bodies"

def isCaseSensitive (configuration : Json) : Bool :=
  ((find configuration (bytes "case_sensitive")).bind valueAsBool).getD true

section Spec

variable (re2 : Re2) (configuration : Json) (r : Request)

def urlOf : GoString := r.headers.get (bytes ":path")

def Exact : Prop :=
  ExactHit (isCaseSensitive configuration) (rulesOf configuration "block_exact_urls") (urlOf r)

def Regexp : Prop :=
  RegexpHit (isCaseSensitive configuration) re2 (rulesOf configuration "block_regexp_urls") (urlOf r)

def Part : Prop :=
  ContainsHit (isCaseSensitive configuration) (rulesOf configuration "block_urls") (urlOf r)

def InHeaders : Prop :=
  HeaderHit (isCaseSensitive configuration) (rulesOf configuration "block_headers") r.headers

def InBody : Prop := ContainsHit (isCaseSensitive configuration) (bodyRules configuration) r.body

/-- The request is blocked exactly if something of it is listed. -/
def Decides (outcome : Outcome Ctx) : Prop :=
  (∃ response ctx, outcome = .answered response ctx) ↔
    Exact configuration r ∨ Regexp re2 configuration r ∨ Part configuration r ∨
      InHeaders configuration r ∨ InBody configuration r

/-- The regular expressions in lower case match the URL in lower case. -/
def Folded : Prop :=
  FoldedHit (isCaseSensitive configuration) re2 (rulesOf configuration "block_regexp_urls") (urlOf r)

/-- A header rule is found in the text of all fields. -/
def InPairs : Prop :=
  ContainsHit (isCaseSensitive configuration) (rulesOf configuration "block_headers")
    (headerPairs r.headers)

/-- A callback ends the body. -/
def Ended : Prop := r.chunks ≠ [] ∧ r.trailers = false

/-- There are rules for parts of URLs. -/
def HasParts : Prop := rulesOf configuration "block_urls" ≠ []

end Spec

/-! ### What the plugin blocks -/

/-- The rules of an accepted configuration, in the case in which they are compared. -/
structure Reads (configuration : Json) (rule : RequestBlockConfigRule) : Prop where
  caseSensitive : rule.caseSensitive = isCaseSensitive configuration
  exact : rule.blockExactUrls =
    (rulesOf configuration "block_exact_urls").map (fold (isCaseSensitive configuration))
  regexp : rule.blockRegexpUrls =
    (rulesOf configuration "block_regexp_urls").map (fold (isCaseSensitive configuration))
  urls : rule.blockUrls =
    (rulesOf configuration "block_urls").map (fold (isCaseSensitive configuration))
  headers : rule.blockHeaders =
    (rulesOf configuration "block_headers").map (fold (isCaseSensitive configuration))
  bodys : rule.blockBodys = (bodyRules configuration).map (fold (isCaseSensitive configuration))

section Parse

variable {re2 : Re2} {configuration : Json} {caseSensitive : Bool}

theorem parseRules_eq {field : String} {rules : List GoString}
    (h : parseRules configuration caseSensitive field = some rules) :
    rules = (rulesOf configuration field).map (fold caseSensitive) := by
  obtain ⟨raw, hraw, rfl⟩ := arrayIterate_of_map (v := valueAsString) (g := fold caseSensitive)
    (fun item b hb => by simpa [eq_comm] using hb) h
  rw [rulesOf, hraw, Option.getD_some]

theorem parseRegexps_eq {rules : List GoString}
    (h : parseRegexps re2 configuration caseSensitive = some rules) :
    rules = (rulesOf configuration "block_regexp_urls").map (fold caseSensitive) := by
  have hvisitor (item : Json) (b : GoString)
      (hb : ((valueAsString item).bind fun regex =>
        if re2.accepts (fold caseSensitive regex) then some (fold caseSensitive regex) else none) =
          some b) : ∃ a, valueAsString item = some a ∧ b = fold caseSensitive a := by
    obtain ⟨regex, hregex, hb⟩ := Option.bind_eq_some_iff.mp hb
    split at hb
    · exact ⟨regex, hregex, (Option.some.inj hb).symm⟩
    · cases hb
  obtain ⟨raw, hraw, rfl⟩ := arrayIterate_of_map hvisitor h
  rw [rulesOf, hraw, Option.getD_some]

theorem reads_of_parse {valueAsInt64 : Json → Option ℤ} {rule : RequestBlockConfigRule}
    (h : parsePluginConfig re2 valueAsInt64 configuration = some rule) :
    Reads configuration rule := by
  simp only [parsePluginConfig, Option.bind_eq_bind, Option.bind_eq_some_iff] at h
  obtain ⟨_, -, _, -, caseSensitive, hcase, urls, hurls, exact, hexact, regexps, hregexps, headers,
    hheaders, bodys, hbodys, bodies, hbodies, h⟩ := h
  split at h
  · cases h
  · cases h
    have hsensitive : caseSensitive = isCaseSensitive configuration := by
      rw [fieldOr] at hcase
      rw [isCaseSensitive]
      cases hfind : find configuration (bytes "case_sensitive") with
      | none => simpa [hfind, eq_comm] using hcase
      | some value =>
          rw [hfind] at hcase
          simp [hcase]
    subst hsensitive
    exact ⟨rfl, parseRules_eq hexact, parseRegexps_eq hregexps, parseRules_eq hurls,
      parseRules_eq hheaders, by
        simp only [bodyRules, List.map_append]
        rw [← parseRules_eq hbodys, ← parseRules_eq hbodies]⟩

end Parse

section Hits

variable {re2 : Re2} {configuration : Json} {rule : RequestBlockConfigRule}
  (hreads : Reads configuration rule)
include hreads

theorem urlBlocked_iff (r : Request) : urlBlocked re2 rule (urlOf r) = true ↔
    Exact configuration r ∨ Folded re2 configuration r ∨ Part configuration r := by
  simp [urlBlocked, hreads.caseSensitive, hreads.exact, hreads.regexp, hreads.urls, Exact, ExactHit,
    Folded, FoldedHit, Part, ContainsHit, or_assoc]

theorem headersBlocked_iff (r : Request) :
    headersBlocked rule r.headers = true ↔ InPairs configuration r := by
  simp [headersBlocked, hreads.caseSensitive, hreads.headers, InPairs, ContainsHit]

theorem bodyBlocked_iff (r : Request) : bodyBlocked rule r.body = true ↔ InBody configuration r := by
  simp [bodyBlocked, hreads.caseSensitive, hreads.bodys, InBody, ContainsHit]

theorem hasParts_iff : rule.blockUrls ≠ [] ↔ HasParts configuration := by
  simp [hreads.urls, HasParts]

end Hits

/-! ### Runs -/

section Runs

variable (re2 : Re2) (rule : RequestBlockConfigRule) {r : Request}

theorem run_of_listed
    (h : (rule.blockUrls ≠ [] ∧ urlBlocked re2 rule (urlOf r) = true) ∨
      headersBlocked rule r.headers = true) :
    ∃ response ctx, (plugin re2 (some rule)).run r {} = .answered response ctx := by
  apply Filter.run_of_answer
  show (checkHeader re2 rule ⟨r.headers, none, {}⟩).2.answer.isSome = true
  rw [checkHeader]
  split
  · rfl
  · rename_i hurl
    have hheaders : headersBlocked rule r.headers = true := by
      refine h.resolve_left fun hlisted => hurl ?_
      simpa [urlOf] using hlisted
    have hsome : rule.blockHeaders ≠ [] := by
      intro hnil
      simp [headersBlocked, hnil] at hheaders
    rw [if_pos (by simpa [hsome] using hheaders)]
    rfl

/-- The state in which the body of an unlisted request is looked at. -/
def waiting (r : Request) (n : ℕ) : Stream Ctx :=
  ⟨r.headers, none, { bodyTotalSize := n, checkBody := !rule.blockBodys.isEmpty }⟩

theorem onRequestHeaders_unlisted
    (h : ¬ ((rule.blockUrls ≠ [] ∧ urlBlocked re2 rule (urlOf r) = true) ∨
      headersBlocked rule r.headers = true)) :
    onRequestHeaders re2 (some rule) ⟨r.headers, none, {}⟩ = (.goOn, waiting rule r 0) := by
  rw [not_or] at h
  have hurl : ¬ ((!rule.blockUrls.isEmpty && urlBlocked re2 rule (r.headers.get (bytes ":path"))) =
      true) := by simpa [urlOf] using h.1
  have hheaders : ¬ ((!rule.blockHeaders.isEmpty && headersBlocked rule r.headers) = true) := by
    simpa using fun _ => by simpa using h.2
  simp only [onRequestHeaders, checkHeader, if_neg hurl, if_neg hheaders, waiting]
  cases rule.blockBodys.isEmpty <;> rfl

/-- One callback for a body that is held back. -/
theorem onRequestBody_held (hbodys : rule.blockBodys ≠ []) (buffer chunk : GoString)
    (endStream : Bool) (hsmall : (buffer ++ chunk).length ≤ maxBodySize) :
    onRequestBody (some rule) chunk.length (buffer ++ chunk) endStream
        (waiting rule r buffer.length) =
      if endStream then
        (if bodyBlocked rule (buffer ++ chunk) then .stopIterationNoBuffer else .goOn,
          (checkBody rule (buffer ++ chunk) (waiting rule r (buffer ++ chunk).length)).2)
      else (.stopIterationAndBuffer, waiting rule r (buffer ++ chunk).length) := by
  have hcheck : rule.blockBodys.isEmpty = false := by simpa using hbodys
  have hle : ¬ maxBodySize < buffer.length + chunk.length := by
    rw [List.length_append] at hsmall
    omega
  have htotal : buffer.length + chunk.length = (buffer ++ chunk).length := by simp
  simp only [onRequestBody, waiting, hcheck, Bool.not_false, Bool.not_true, Bool.false_eq_true,
    if_false, hle]
  rw [htotal, List.take_length]
  cases endStream with
  | false => rfl
  | true => cases hblocked : bodyBlocked rule (buffer ++ chunk) <;> simp [checkBody, hblocked]

theorem run_unlisted
    (h : ¬ ((rule.blockUrls ≠ [] ∧ urlBlocked re2 rule (urlOf r) = true) ∨
      headersBlocked rule r.headers = true)) (hsize : r.body.length ≤ maxBodySize) :
    (∃ response ctx, (plugin re2 (some rule)).run r {} = .answered response ctx) ↔
      bodyBlocked rule r.body = true ∧ Ended r := by
  have hfirst : (plugin re2 (some rule)).onRequestHeaders ⟨r.headers, none, {}⟩ =
      (.goOn, waiting rule r 0) := onRequestHeaders_unlisted re2 rule h
  rw [Filter.run_of_goOn hfirst rfl]
  by_cases hbodys : rule.blockBodys = []
  · have hpass (size : ℕ) (buffer : GoString) (endStream : Bool) :
        (plugin re2 (some rule)).onRequestBody size buffer endStream (waiting rule r 0) =
          (.goOn, waiting rule r 0) := by
      simp [plugin, onRequestBody, waiting, hbodys]
    rw [Filter.runBody_of_pass hpass rfl]
    simp [waiting, bodyBlocked, hbodys]
  · by_cases hchunks : r.chunks = []
    · simp [hchunks, Filter.runBody, waiting, Ended]
    · obtain ⟨init, last, hlast⟩ := (List.eq_nil_or_concat' r.chunks).resolve_left hchunks
      have hbody : r.body = init.flatten ++ last := by simp [Request.body, hlast]
      have hhold (chunk buffer : GoString) (s : Stream Ctx) (hs : s = waiting rule r buffer.length)
          (hle : (buffer ++ chunk).length ≤ maxBodySize) :
          ((plugin re2 (some rule)).onRequestBody chunk.length (buffer ++ chunk) false s).1 =
              .stopIterationAndBuffer ∧
            ((plugin re2 (some rule)).onRequestBody chunk.length (buffer ++ chunk) false s).2.answer =
              none ∧
            ((plugin re2 (some rule)).onRequestBody chunk.length (buffer ++ chunk) false s).2 =
              waiting rule r (buffer ++ chunk).length := by
        have hone := onRequestBody_held rule (r := r) hbodys buffer chunk false hle
        subst hs
        show (onRequestBody _ _ _ _ _).1 = _ ∧ (onRequestBody _ _ _ _ _).2.answer = _ ∧
          (onRequestBody _ _ _ _ _).2 = _
        rw [hone]
        exact ⟨rfl, rfl, rfl⟩
      obtain ⟨s', rfl, hrun⟩ := Filter.runBody_of_hold (· ≤ maxBodySize) (fun n k h => by omega)
        hhold r.trailers init last [] (s := waiting rule r 0) rfl
        (by rw [hbody, List.length_append] at hsize; rw [List.nil_append]; omega)
      rw [List.nil_append] at hrun
      have hend := onRequestBody_held rule (r := r) hbodys init.flatten last (!r.trailers)
        (by rw [← hbody]; exact hsize)
      rw [hlast, hrun, show (plugin re2 (some rule)).onRequestBody = onRequestBody (some rule) from rfl,
        hend, ← hbody]
      cases htrailers : r.trailers with
      | true => simp [Ended, htrailers, waiting]
      | false =>
          cases hblocked : bodyBlocked rule r.body with
          | true =>
              simp [checkBody, hblocked, Stream.sendLocalResponse, Ended, hchunks, htrailers]
          | false => simp [checkBody, hblocked, waiting]

end Runs

/-! ### The decision -/

theorem ContainsHit.of_infix {caseSensitive : Bool} {rules : List GoString} {s t : GoString}
    (h : ContainsHit caseSensitive rules s) (hst : s <:+: t) : ContainsHit caseSensitive rules t := by
  obtain ⟨rule, hrule, hin⟩ := h
  refine ⟨rule, hrule, ?_⟩
  rw [contains_iff_isInfix] at hin ⊢
  have hfold : fold caseSensitive s <:+: fold caseSensitive t := by
    cases caseSensitive with
    | false => exact hst.map lowerByte
    | true => exact hst
  exact hin.trans hfold

/-- What a name or a value contains is in the text of all fields. -/
theorem InHeaders.inPairs {configuration : Json} {r : Request} (h : InHeaders configuration r) :
    InPairs configuration r := by
  obtain ⟨field, hfield, hhit⟩ := h
  have htext : field.1 ++ [0] ++ field.2 ++ [0] <:+: headerPairs r.headers := by
    have hpart : field.1 ++ [0] ++ field.2 ++ [0] <:+:
        r.headers.flatMap fun h => h.1 ++ [0] ++ h.2 ++ [0] :=
      List.infix_of_mem_flatten (List.mem_map.mpr ⟨field, hfield, rfl⟩)
    exact hpart.trans (List.suffix_append _ _).isInfix
  rcases hhit with hname | hvalue
  · have hin : field.1 <:+: field.1 ++ [0] ++ field.2 ++ [0] := ⟨[], [0] ++ field.2 ++ [0], by simp⟩
    exact hname.of_infix (hin.trans htext)
  · have hin : field.2 <:+: field.1 ++ [0] ++ field.2 ++ [0] := ⟨field.1 ++ [0], [0], rfl⟩
    exact hvalue.of_infix (hin.trans htext)

theorem Part.hasParts {configuration : Json} {r : Request} (h : Part configuration r) :
    HasParts configuration := by
  obtain ⟨rule, hrule, -⟩ := h
  exact List.ne_nil_of_mem hrule

theorem blocked_iff {re2 : Re2} {configuration : Json} {rule : RequestBlockConfigRule}
    (hreads : Reads configuration rule) {r : Request} (hsize : r.body.length ≤ maxBodySize) :
    (∃ response ctx, (plugin re2 (some rule)).run r {} = .answered response ctx) ↔
      (HasParts configuration ∧
          (Exact configuration r ∨ Folded re2 configuration r ∨ Part configuration r)) ∨
        InPairs configuration r ∨ (InBody configuration r ∧ Ended r) := by
  rw [← hasParts_iff hreads, ← urlBlocked_iff hreads, ← headersBlocked_iff hreads,
    ← bodyBlocked_iff hreads, ← or_assoc]
  by_cases hlisted : (rule.blockUrls ≠ [] ∧ urlBlocked re2 rule (urlOf r) = true) ∨
      headersBlocked rule r.headers = true
  · exact ⟨fun _ => .inl hlisted, fun _ => run_of_listed re2 rule hlisted⟩
  · rw [run_unlisted re2 rule hlisted hsize, or_iff_right hlisted]

/-- The request is blocked by a rule that the plugin takes as it is meant. -/
def Undisputed (configuration : Json) (r : Request) : Prop :=
  Part configuration r ∨ (HasParts configuration ∧ Exact configuration r) ∨
    InHeaders configuration r ∨ (InBody configuration r ∧ Ended r)

/-- A request is blocked as it should be exactly if it is blocked by a rule that the plugin
takes as it is meant; or else if the finds of regular expressions in lower case, where they
are looked at, and of header rules in the text of all fields happen to make up for the
exact rules, the regular expressions and the body rules that should decide. -/
theorem decides_block_iff (re2 : Re2) {valueAsInt64 : Json → Option ℤ} {configuration : Json}
    {rule : RequestBlockConfigRule}
    (hparse : parsePluginConfig re2 valueAsInt64 configuration = some rule) {r : Request}
    (hsize : r.body.length ≤ maxBodySize) :
    Decides re2 configuration r ((plugin re2 (some rule)).run r {}) ↔
      Undisputed configuration r ∨
        ((HasParts configuration ∧ Folded re2 configuration r) ∨ InPairs configuration r ↔
          Exact configuration r ∨ Regexp re2 configuration r ∨ InBody configuration r) := by
  rw [Decides, blocked_iff (reads_of_parse hparse) hsize]
  by_cases hsure : Undisputed configuration r
  · refine ⟨fun _ => .inl hsure, fun _ => ⟨fun _ => ?_, fun _ => ?_⟩⟩
    · rcases hsure with hpart | ⟨-, hexact⟩ | hheaders | ⟨hbody, -⟩
      · exact .inr (.inr (.inl hpart))
      · exact .inl hexact
      · exact .inr (.inr (.inr (.inl hheaders)))
      · exact .inr (.inr (.inr (.inr hbody)))
    · rcases hsure with hpart | ⟨hparts, hexact⟩ | hheaders | hended
      · exact .inl ⟨hpart.hasParts, .inr (.inr hpart)⟩
      · exact .inl ⟨hparts, .inl hexact⟩
      · exact .inr (.inl hheaders.inPairs)
      · exact .inr (.inr hended)
  · rw [or_iff_right hsure]
    simp only [Undisputed, not_or] at hsure
    obtain ⟨hpart, hexact, hheaders, hended⟩ := hsure
    have hcode : (HasParts configuration ∧
          (Exact configuration r ∨ Folded re2 configuration r ∨ Part configuration r)) ∨
        InPairs configuration r ∨ (InBody configuration r ∧ Ended r) ↔
          (HasParts configuration ∧ Folded re2 configuration r) ∨ InPairs configuration r := by
      rw [or_iff_left hended, or_iff_left hpart, and_or_left, or_iff_right hexact]
    have hspec : Exact configuration r ∨ Regexp re2 configuration r ∨ Part configuration r ∨
        InHeaders configuration r ∨ InBody configuration r ↔
          Exact configuration r ∨ Regexp re2 configuration r ∨ InBody configuration r := by
      rw [or_iff_right hheaders, or_iff_right hpart]
    rw [hcode, hspec]

/-! ### Exact URLs without parts of URLs -/

namespace Sample

/-- Two regular expressions, of one or more bytes that are digits and that are not. -/
def re2 : Re2 where
  accepts _ := true
  fullMatch regex text :=
    text ≠ [] && if regex = bytes "\\d+" then text.all Json.isDigit
      else regex = bytes "(?i)\\D+" && text.all fun b => !Json.isDigit b

def exactOnly : Json := .obj [(bytes "block_exact_urls", .arr [.str (bytes "/admin")])]

def withParts : Json :=
  .obj [(bytes "block_urls", .arr [.str (bytes "swagger")]),
    (bytes "block_exact_urls", .arr [.str (bytes "/admin")])]

def nonDigits : Json :=
  .obj [(bytes "case_sensitive", .bool false), (bytes "block_urls", .arr [.str (bytes "swagger")]),
    (bytes "block_regexp_urls", .arr [.str (bytes "\\D+")])]

def request : Request := { headers := [(bytes ":path", bytes "/admin")] }

/-- The configuration is accepted, and the request goes on under it. -/
def goesOn (configuration : Json) : Bool :=
  match parsePluginConfig re2 (fun _ => none) configuration with
  | none => false
  | some rule =>
      match (plugin re2 (some rule)).run request {} with
      | .forwarded _ _ => true
      | _ => false

theorem not_decides {configuration : Json} (h : goesOn configuration = true)
    (hlisted : Exact configuration request ∨ Regexp re2 configuration request) :
    ∃ rule, parsePluginConfig re2 (fun _ => none) configuration = some rule ∧
      ¬ Decides re2 configuration request ((plugin re2 (some rule)).run request {}) := by
  rw [goesOn] at h
  split at h
  · cases h
  · rename_i rule hrule
    refine ⟨rule, hrule, fun hdecides => ?_⟩
    obtain ⟨response, ctx, hrun⟩ := hdecides.mpr (hlisted.imp_right .inl)
    rw [hrun] at h
    cases h

end Sample

open Sample in
theorem decides_withParts : ∃ rule, parsePluginConfig re2 (fun _ => none) withParts = some rule ∧
    Decides re2 withParts request ((plugin re2 (some rule)).run request {}) := by
  obtain ⟨rule, hrule⟩ : ∃ rule, parsePluginConfig re2 (fun _ => none) withParts = some rule :=
    Option.isSome_iff_exists.mp (by decide)
  have hexact : Exact withParts request := ⟨bytes "/admin", by decide, by decide⟩
  have hparts : HasParts withParts := by
    unfold HasParts
    decide
  exact ⟨rule, hrule, (decides_block_iff re2 hrule (by decide)).mpr
    (.inl (.inr (.inl ⟨hparts, hexact⟩)))⟩

open Sample in
/-- An exact URL is not blocked where no part of a URL is listed, and a regular expression
in lower case may mean something else. -/
theorem not_decides_exactOnly :
    (∃ rule, parsePluginConfig re2 (fun _ => none) exactOnly = some rule ∧
      ¬ Decides re2 exactOnly request ((plugin re2 (some rule)).run request {})) ∧
    ∃ rule, parsePluginConfig re2 (fun _ => none) nonDigits = some rule ∧
      ¬ Decides re2 nonDigits request ((plugin re2 (some rule)).run request {}) := by
  refine ⟨not_decides (by decide) (.inl ?_), not_decides (by decide) (.inr ?_)⟩
  · exact ⟨bytes "/admin", by decide, by decide⟩
  · exact ⟨bytes "\\D+", by decide, by decide⟩

end Higress.WasmCpp.RequestBlock
