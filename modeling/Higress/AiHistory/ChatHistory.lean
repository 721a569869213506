import Mathlib
import Higress.Lib.Atoi
import Higress.Lib.Run
import Higress.Lib.Text

/-!
The chat history plugin (`ai-history/main.go`). The question and the answer of an
exchange are kept in Redis under the identity of the caller, which is the value of a
request header, and put in front of the messages of later requests of that caller.

The callbacks of many requests run interleaved and share nothing but Redis. The
identity is looked up when the headers come, in one callback, and used for the key in two
others; on the way its spaces are dropped, and a request that has none is treated by the
later callbacks as a caller with the empty identity.
-/

namespace Higress.AiHistory

open Lib

structure ChatHistory where
  role : GoString
  content : GoString
deriving DecidableEq

/-- What the plugin has others read and write for it: JSON, through `gjson` and
`encoding/json`, and the query of a URL. Nothing is assumed of it. -/
structure Codec where
  /-- `stream`, as a boolean -/
  stream : GoString → Bool
  /-- `messages.@reverse.0.content`, as a string -/
  question : GoString → GoString
  /-- `messages`, as a string -/
  messages : GoString → GoString
  /-- the raw `choices.0.message.content`, empty if there is none -/
  answer : GoString → GoString
  /-- the raw `choices.0.delta.content` of a data line, if it is there -/
  delta : GoString → Option GoString
  /-- whether a data line has `choices.0.delta.content.tool_calls` -/
  toolCalls : GoString → Bool
  marshal : List ChatHistory → GoString
  unmarshal : GoString → Option (List ChatHistory)
  /-- the body with other messages, if it is a JSON object -/
  replaceMessages : GoString → List ChatHistory → Option GoString
  /-- a parameter of the query of a path, empty if it is not there; nothing if the path is no URI -/
  query : GoString → GoString → Option GoString

/-- The part of `PluginConfig` that the callbacks use. -/
structure PluginConfig where
  cacheKeyPrefix : GoString
  identityHeader : GoString
  fillHistoryCnt : Int64
  cacheTTL : ℤ

/-- A request: its path and what its headers are, a missing one as the empty string. -/
structure Request where
  path : GoString
  header : GoString → GoString

/-- The answer so far is a string while events are read and bytes otherwise. -/
inductive Answer
  | text (s : GoString)
  | bytes (s : GoString)

/-- A `GET` that has been sent, with what its callback has captured. -/
structure Pending where
  key : GoString
  body : GoString

/-- The context of one request. -/
structure Context where
  readBody : Bool := true
  identityKey : Option GoString := none
  stream : Bool := false
  question : Option GoString := none
  chatHistories : Option GoString := none
  answer : Option Answer := none
  partialMessage : Option GoString := none
  toolCalls : Bool := false
  pending : Option Pending := none

inductive Action
  | goOn
  | pause
  | headerStop

/-- What a callback does to its request. -/
inductive Output
  | action (a : Action)
  | resume
  | replaceBody (chat : List ChatHistory) (body : GoString)
  | respond (chat : List ChatHistory) (body : GoString)
  | chunk (bytes : GoString)
  | panic

section Handlers

variable (codec : Codec) (config : PluginConfig)

/-! ### The request -/

def onHttpRequestHeaders (request : Request) : Context × Action :=
  if !Strings.contains (request.header (bytes "content-type")) (bytes "application/json") then
    ({ readBody := false }, .goOn)
  else
    let identityKey := request.header config.identityHeader
    if identityKey = [] then ({}, .goOn)
    else ({ identityKey := some (identityKey.filter (· != 32)) }, .headerStop)

def trimQuote (source : GoString) : GoString := trimByte 34 source

/-- The key under which a context keeps its history. -/
def Context.key (config : PluginConfig) (ctx : Context) : GoString :=
  config.cacheKeyPrefix ++ ctx.identityKey.getD []

/-- `onHttpRequestBody`; `sent` says whether the `GET` could be sent. -/
def onHttpRequestBody (ctx : Context) (body : GoString) (sent : Bool) : Context × Action :=
  let ctx := { ctx with stream := ctx.stream || codec.stream body }
  let question := trimQuote (codec.question body)
  if question = [] then (ctx, .goOn)
  else
    let ctx := { ctx with question := some question }
    if sent then ({ ctx with pending := some ⟨ctx.key config, body⟩ }, .pause) else (ctx, .goOn)

/-- `l[n:]`, which panics when `n` is out of range. -/
def sliceFrom {α : Type} (l : List α) (n : ℤ) : Option (List α) :=
  if 0 ≤ n ∧ n ≤ l.length then some (l.drop n.toNat) else none

/-- The last `cnt` messages, or all of them if there are not as many. -/
def lastMessages (chat : List ChatHistory) (cnt : Int64) : Option (List ChatHistory) :=
  sliceFrom chat (chat.length - min cnt.toInt chat.length)

def fillHistory (chat currMessage : List ChatHistory) (fillHistoryCnt : Int64) :
    Option (List ChatHistory) :=
  if 1 < currMessage.countP (·.role == bytes "user") then some currMessage
  else (lastMessages chat fillHistoryCnt).map (· ++ currMessage)

def isQueryHistory (path : GoString) : Bool := Strings.contains path (bytes "ai-history/query")

def getIntQueryParameter (name path : GoString) (defaultValue : Int64) : Int64 :=
  match codec.query name path with
  | none => defaultValue
  | some queryStr =>
      if queryStr = [] then defaultValue
      else
        match atoi queryStr with
        | (num, true) => .ofInt num
        | (_, false) => defaultValue

/-- The number of turns that a query of the history asks for. -/
def queriedTurns (path : GoString) (chat : List ChatHistory) : Int64 :=
  getIntQueryParameter codec (bytes "cnt") path (.ofNat (chat.length / 2))

/-- The number of turns that are put in front of a request. -/
def filledTurns (path : GoString) : Int64 :=
  getIntQueryParameter codec (bytes "fill_history_cnt") path config.fillHistoryCnt

/-- The answer to a query of the history. -/
def queryHistory (path : GoString) (chat : List ChatHistory) : List Output :=
  match lastMessages chat (queriedTurns codec path chat * 2) with
  | none => [.panic]
  | some chat => [.respond chat (codec.marshal chat)]

/-- What the callback of the `GET` does with a history that it could read. -/
def useHistory (request : Request) (body : GoString) (chat : List ChatHistory) : List Output :=
  if isQueryHistory request.path then queryHistory codec request.path chat
  else
    let cnt := filledTurns codec config request.path * 2
    match codec.unmarshal (codec.messages body) with
    | none => [.resume]
    | some currMessage =>
        match fillHistory chat currMessage cnt with
        | none => [.panic]
        | some finalChat =>
            match codec.replaceMessages body finalChat with
            | none => [.resume]
            | some parameter => [.replaceBody finalChat parameter, .resume]

/-- An answer of Redis to a `GET`. -/
inductive Reply
  | error
  | value (v : Option GoString)

/-- The callback of the `GET` in `onHttpRequestBody`. -/
def onReply (request : Request) (ctx : Context) (body : GoString) : Reply → Context × List Output
  | .error => (ctx, [.resume])
  | .value none => (ctx, [.resume])
  | .value (some chatHistories) =>
      let ctx := { ctx with chatHistories := some chatHistories }
      match codec.unmarshal chatHistories with
      | none => (ctx, [.resume])
      | some chat => (ctx, useHistory codec config request body chat)

/-! ### The response -/

/-- The loop of `processSSEMessage` over the messages of a text. -/
def processMessages : List GoString → Context → GoString → Context × GoString
  | [], ctx, content => (ctx, content)
  | chunk :: rest, ctx, content =>
      let message := ((split chunk (bytes "\n")).find? (Strings.startsWith · (bytes "data:"))).getD []
      if message.length < 6 then (ctx, content)
      else
        match codec.delta (message.drop 5) with
        | some raw =>
            let content := match ctx.answer with
              | some (.text prevContent) => prevContent ++ trimQuote raw
              | _ => trimQuote raw
            processMessages rest { ctx with answer := some (.text content) } content
        | none =>
            processMessages rest
              { ctx with toolCalls := ctx.toolCalls || codec.toolCalls (message.drop 5) } content

def processSSEMessage (ctx : Context) (sseMessage : GoString) : Context × GoString :=
  processMessages codec (split sseMessage (bytes "\n\n")) ctx []

def onHttpResponseHeaders (ctx : Context) (contentType : GoString) : Context :=
  { ctx with stream := ctx.stream || Strings.contains contentType (bytes "text/event-stream") }

/-- What a chunk that is not the last one adds to the context. -/
def gather (ctx : Context) (chunk : GoString) : Context :=
  if !ctx.stream then
    match ctx.answer with
    | some (.bytes tempContent) => { ctx with answer := some (.bytes (tempContent ++ chunk)) }
    | _ => { ctx with answer := some (.bytes chunk) }
  else
    let partialMessage := ctx.partialMessage.getD [] ++ chunk
    let messages := split partialMessage (bytes "\n\n")
    let ctx := messages.dropLast.foldl (fun ctx msg => (processSSEMessage codec ctx msg).1) ctx
    if !(bytes "\n\n").isSuffixOf partialMessage then
      { ctx with partialMessage := some (messages.getLastD []) }
    else { ctx with partialMessage := none }

/-- The answer that is complete with the last chunk, if it is to be saved. -/
def lastAnswer (ctx : Context) (chunk : GoString) : Context × Option GoString :=
  if !ctx.stream then
    match ctx.answer with
    | some (.text _) => (ctx, none)
    | answer =>
        let body := match answer with
          | some (.bytes tempContent) => tempContent ++ chunk
          | _ => chunk
        let value := trimQuote (codec.answer body)
        (ctx, if value = [] then none else some value)
  else if chunk ≠ [] then
    let lastMessage := ctx.partialMessage.getD [] ++ chunk
    if !(bytes "\n\n").isSuffixOf lastMessage then (ctx, none)
    else
      let done := processSSEMessage codec ctx (lastMessage.take (lastMessage.length - 2))
      (done.1, some done.2)
  else
    match ctx.answer with
    | some (.text value) => (ctx, some value)
    | _ => (ctx, none)

/-- `saveChatHistory`: the value that is set, if the history so far could be read. -/
def saveChatHistory (ctx : Context) (question value : GoString) : Option (List ChatHistory) :=
  let chatHistories := ctx.chatHistories.getD []
  let saved := if chatHistories ≠ [] then codec.unmarshal chatHistories else some []
  saved.bind fun chat =>
    let chat := chat ++ [⟨bytes "user", question⟩, ⟨bytes "assistant", value⟩]
    if (config.fillHistoryCnt * 2).toInt < chat.length then
      sliceFrom chat (chat.length - (config.fillHistoryCnt * 2).toInt)
    else some chat

/-- `onHttpStreamResponseBody`: the context, and the history to be set. -/
def onHttpStreamResponseBody (request : Request) (ctx : Context) (chunk : GoString)
    (isLastChunk : Bool) : Context × Option (List ChatHistory) :=
  if ctx.toolCalls then (ctx, none)
  else
    match ctx.question with
    | none => (ctx, none)
    | some question =>
        if isQueryHistory request.path then (ctx, none)
        else if !isLastChunk then (gather codec ctx chunk, none)
        else
          let done := lastAnswer codec ctx chunk
          (done.1, done.2.bind (saveChatHistory codec config done.1 question))

end Handlers

/-! ### Many requests and one Redis -/

/-- A callback of a request. -/
inductive Callback
  | headers
  | body (body : GoString) (sent : Bool)
  | reply (failed : Bool)
  | responseHeaders (contentType : GoString)
  | chunk (chunk : GoString) (isLastChunk : Bool)

/-- What a callback makes of its context, what it does to its request, the keys of Redis
for which it sends a command, and what it sets there. -/
structure Effect where
  ctx : Option Context
  outputs : List Output := []
  touched : List GoString := []
  write : Option (GoString × GoString) := none

inductive Event
  | call (i : ℕ) (callback : Callback)
  /-- a key goes away, because its time to live is over -/
  | expire (key : GoString)

structure World where
  redis : GoString → Option GoString
  ctx : ℕ → Option Context
  outputs : ℕ → List Output
  touched : List (ℕ × GoString)

section Runs

variable (codec : Codec) (config : PluginConfig)

def callback (request : Request) (redis : GoString → Option GoString) (ctx : Option Context) :
    Callback → Effect
  | .headers =>
      match ctx with
      | some _ => { ctx := ctx }
      | none =>
          let done := onHttpRequestHeaders config request
          { ctx := some done.1, outputs := [.action done.2] }
  | .body body sent =>
      match ctx with
      | none => { ctx := none }
      | some ctx =>
          -- the wrapper skips the callback after `DontReadRequestBody`
          if !ctx.readBody then { ctx := some ctx }
          else
            let done := onHttpRequestBody codec config ctx body sent
            { ctx := some done.1
              outputs := [.action done.2]
              touched := match done.2 with
                | .pause => [ctx.key config]
                | _ => [] }
  | .reply failed =>
      match ctx with
      | none => { ctx := none }
      | some ctx =>
          match ctx.pending with
          | none => { ctx := some ctx }
          | some pending =>
              let reply := if failed then Reply.error else .value (redis pending.key)
              let done := onReply codec config request { ctx with pending := none } pending.body reply
              { ctx := some done.1, outputs := done.2 }
  | .responseHeaders contentType =>
      { ctx := ctx.map (onHttpResponseHeaders · contentType), outputs := [.action .goOn] }
  | .chunk chunk isLastChunk =>
      match ctx with
      | none => { ctx := none }
      | some ctx =>
          let done := onHttpStreamResponseBody codec config request ctx chunk isLastChunk
          { ctx := some done.1
            outputs := [.chunk chunk]
            touched := if done.2.isSome then [done.1.key config] else []
            write := done.2.map fun chat => (done.1.key config, codec.marshal chat) }

variable (requests : ℕ → Request)

def World.step (w : World) : Event → World
  | .expire key => { w with redis := Function.update w.redis key none }
  | .call i c =>
      let effect := callback codec config (requests i) w.redis (w.ctx i) c
      { redis := match effect.write with
          | none => w.redis
          | some (key, value) => Function.update w.redis key (some value)
        ctx := Function.update w.ctx i effect.ctx
        outputs := Function.update w.outputs i (w.outputs i ++ effect.outputs)
        touched := w.touched ++ effect.touched.map fun key => (i, key) }

def World.empty : World := ⟨fun _ => none, fun _ => none, fun _ => [], []⟩

def run (events : List Event) : World := events.foldl (World.step codec config requests) .empty

/-! ### Isolation -/

/-- The value of the identity header, empty if there is none. -/
def identity (i : ℕ) : GoString := (requests i).header config.identityHeader

/-- The event belongs to a request with the given identity, or to no request. -/
def Event.concerns (value : GoString) : Event → Bool
  | .call i _ => identity config requests i == value
  | .expire _ => true

/-- What is done to a request is decided by the exchanges with its own identity: it is the
same when all others are taken away. A request without an identity sends no command to
Redis. -/
structure Isolated (events : List Event) : Prop where
  alone : ∀ i, (run codec config requests events).outputs i =
    (run codec config requests
      (events.filter (Event.concerns config requests (identity config requests i)))).outputs i
  unnamed : ∀ c ∈ (run codec config requests events).touched, identity config requests c.1 ≠ []

def isJson (request : Request) : Bool :=
  Strings.contains (request.header (bytes "content-type")) (bytes "application/json")

/-- An identity as it is spelled in a key. -/
def withoutSpaces (s : GoString) : GoString := s.filter (· != 32)

/-- Every JSON request that asks a question has an identity, and no two identities differ
in spaces only. -/
structure Separated (events : List Event) : Prop where
  named : ∀ i body sent, .call i (.body body sent) ∈ events → isJson (requests i) →
    trimQuote (codec.question body) ≠ [] → identity config requests i ≠ []
  apart : ∀ i c j d, .call i c ∈ events → .call j d ∈ events → isJson (requests i) →
    isJson (requests j) →
    withoutSpaces (identity config requests i) = withoutSpaces (identity config requests j) →
    identity config requests i = identity config requests j

/-! ### What the callbacks note of their request -/

/-- The response callbacks leave alone what the request callbacks have noted. -/
structure Context.Keeps (ctx ctx' : Context) : Prop where
  readBody : ctx'.readBody = ctx.readBody
  identityKey : ctx'.identityKey = ctx.identityKey
  question : ctx'.question = ctx.question
  pending : ctx'.pending = ctx.pending

namespace Context.Keeps

theorem refl (ctx : Context) : ctx.Keeps ctx := ⟨rfl, rfl, rfl, rfl⟩

theorem trans {ctx₁ ctx₂ ctx₃ : Context} (h : ctx₁.Keeps ctx₂) (h' : ctx₂.Keeps ctx₃) :
    ctx₁.Keeps ctx₃ :=
  ⟨h'.readBody.trans h.readBody, h'.identityKey.trans h.identityKey,
    h'.question.trans h.question, h'.pending.trans h.pending⟩

theorem processMessages (messages : List GoString) (ctx : Context) (content : GoString) :
    ctx.Keeps (processMessages codec messages ctx content).1 := by
  induction messages generalizing ctx content with
  | nil => exact refl ctx
  | cons chunk rest ih =>
      rw [AiHistory.processMessages]
      split
      · exact refl ctx
      · split
        · refine trans ?_ (ih _ _)
          exact ⟨rfl, rfl, rfl, rfl⟩
        · refine trans ?_ (ih _ _)
          exact ⟨rfl, rfl, rfl, rfl⟩

theorem foldl_processSSEMessage (messages : List GoString) (ctx : Context) :
    ctx.Keeps (messages.foldl (fun ctx msg => (processSSEMessage codec ctx msg).1) ctx) := by
  induction messages generalizing ctx with
  | nil => exact refl ctx
  | cons msg messages ih =>
      exact trans (processMessages codec _ ctx []) (ih (processSSEMessage codec ctx msg).1)

theorem gather (ctx : Context) (chunk : GoString) : ctx.Keeps (gather codec ctx chunk) := by
  rw [AiHistory.gather]
  split
  · split <;> exact ⟨rfl, rfl, rfl, rfl⟩
  · dsimp only
    split <;> exact trans (foldl_processSSEMessage codec _ ctx) ⟨rfl, rfl, rfl, rfl⟩

theorem lastAnswer (ctx : Context) (chunk : GoString) :
    ctx.Keeps (lastAnswer codec ctx chunk).1 := by
  rw [AiHistory.lastAnswer]
  split
  · split <;> exact refl ctx
  · split
    · dsimp only
      split
      · exact refl ctx
      · exact processMessages codec _ ctx []
    · split <;> exact refl ctx

theorem onHttpStreamResponseBody (request : Request) (ctx : Context) (chunk : GoString)
    (isLastChunk : Bool) :
    ctx.Keeps (onHttpStreamResponseBody codec config request ctx chunk isLastChunk).1 := by
  rw [AiHistory.onHttpStreamResponseBody]
  split
  · exact refl ctx
  · split
    · exact refl ctx
    · split
      · exact refl ctx
      · split
        · exact gather codec ctx chunk
        · exact lastAnswer codec ctx chunk

theorem onReply (request : Request) (ctx : Context) (body : GoString) (reply : Reply) :
    ctx.Keeps (onReply codec config request ctx body reply).1 := by
  cases reply with
  | error => exact refl ctx
  | value v =>
      cases v with
      | none => exact refl ctx
      | some chatHistories =>
          rw [AiHistory.onReply]
          split <;> exact ⟨rfl, rfl, rfl, rfl⟩

end Context.Keeps

/-- What a context says of its request. Without an identity there is no question. -/
structure Noted (request : Request) (ctx : Context) : Prop where
  readBody : ctx.readBody = isJson request
  identityKey : isJson request = true → request.header config.identityHeader ≠ [] →
    ctx.identityKey = some (withoutSpaces (request.header config.identityHeader))
  question : ctx.question ≠ none →
    isJson request = true ∧ request.header config.identityHeader ≠ []
  pending : ∀ p ∈ ctx.pending, p.key = ctx.key config ∧ ctx.question ≠ none

/-- The key under which the history of a request is kept. -/
def historyKey (request : Request) : GoString :=
  config.cacheKeyPrefix ++ withoutSpaces (request.header config.identityHeader)

variable {config} in
theorem Noted.key_eq {request : Request} {ctx : Context} (h : Noted config request ctx)
    (hq : ctx.question ≠ none) : ctx.key config = historyKey config request := by
  obtain ⟨hjson, hid⟩ := h.question hq
  rw [Context.key, h.identityKey hjson hid, historyKey, Option.getD_some]

variable {config} in
theorem Noted.keeps {request : Request} {ctx ctx' : Context} (h : Noted config request ctx)
    (hk : ctx.Keeps ctx') : Noted config request ctx' where
  readBody := hk.readBody.trans h.readBody
  identityKey := fun hjson hid => hk.identityKey.trans (h.identityKey hjson hid)
  question := fun hq => h.question (hk.question ▸ hq)
  pending := fun p hp => by
    rw [Context.key, hk.identityKey, hk.question]
    exact h.pending p (hk.pending ▸ hp)

theorem noted_onHttpRequestHeaders (request : Request) :
    Noted config request (onHttpRequestHeaders config request).1 := by
  rw [onHttpRequestHeaders]
  by_cases hjson : isJson request = true
  · rw [isJson] at hjson
    rw [if_neg (by simp [hjson])]
    dsimp only
    split
    · rename_i hid
      exact ⟨hjson.symm, fun _ h => absurd hid h, fun h => absurd rfl h, by simp⟩
    · exact ⟨hjson.symm, fun _ _ => rfl, fun h => absurd rfl h, by simp⟩
  · rw [isJson] at hjson
    rw [if_pos (by simpa using hjson)]
    exact ⟨by simpa [isJson] using hjson, fun h => absurd h hjson, fun h => absurd rfl h, by simp⟩

/-! ### What a callback does -/

/-- The question of a body comes from a request with an identity. -/
def Named (request : Request) : Callback → Prop
  | .body body _ => isJson request = true → trimQuote (codec.question body) ≠ [] →
      request.header config.identityHeader ≠ []
  | _ => True

variable {codec config} in
theorem Noted.onHttpRequestBody {request : Request} {ctx : Context} (h : Noted config request ctx)
    (hread : ctx.readBody = true) {body : GoString} {sent : Bool}
    (hnamed : Named codec config request (.body body sent)) :
    Noted config request (onHttpRequestBody codec config ctx body sent).1 := by
  have hjson : isJson request = true := h.readBody ▸ hread
  rw [AiHistory.onHttpRequestBody]
  dsimp only
  split
  · exact h.keeps ⟨rfl, rfl, rfl, rfl⟩
  · rename_i hq
    have hid := hnamed hjson hq
    split
    · refine ⟨h.readBody, h.identityKey, fun _ => ⟨hjson, hid⟩, fun p hp => ?_⟩
      obtain rfl : _ = p := by simpa using hp
      exact ⟨rfl, by simp⟩
    · exact ⟨h.readBody, h.identityKey, fun _ => ⟨hjson, hid⟩,
        fun p hp => ⟨(h.pending p hp).1, by simp⟩⟩

variable {codec config} in
/-- A callback notes of its request what is so. -/
theorem Noted.callback {request : Request} {ctx : Option Context}
    (h : ∀ c ∈ ctx, Noted config request c) {c : Callback} (hnamed : Named codec config request c)
    (redis : GoString → Option GoString) :
    ∀ c' ∈ (AiHistory.callback codec config request redis ctx c).ctx, Noted config request c' := by
  cases ctx with
  | none =>
      cases c with
      | headers =>
          intro c' hc'
          obtain rfl : _ = c' := by simpa [AiHistory.callback] using hc'
          exact noted_onHttpRequestHeaders config request
      | _ => simp [AiHistory.callback]
  | some ctx =>
      have hctx := h ctx rfl
      cases c with
      | headers => simpa [AiHistory.callback] using hctx
      | body body sent =>
          rw [AiHistory.callback]
          split
          · simpa using hctx
          · rename_i hread
            simpa using hctx.onHttpRequestBody (by simpa using hread) hnamed
      | reply failed =>
          rw [AiHistory.callback]
          split
          · simpa using hctx
          · have hdone : Noted config request { ctx with pending := none } :=
              ⟨hctx.readBody, hctx.identityKey, hctx.question, by simp⟩
            simpa using hdone.keeps (Context.Keeps.onReply codec config request _ _ _)
      | responseHeaders contentType =>
          have hkeeps : ctx.Keeps (onHttpResponseHeaders ctx contentType) := ⟨rfl, rfl, rfl, rfl⟩
          simpa [AiHistory.callback] using hctx.keeps hkeeps
      | chunk chunk isLastChunk =>
          simpa [AiHistory.callback] using
            hctx.keeps (Context.Keeps.onHttpStreamResponseBody codec config request ctx _ _)

theorem question_of_save {request : Request} {ctx : Context} {chunk : GoString} {isLastChunk : Bool}
    (h : (onHttpStreamResponseBody codec config request ctx chunk isLastChunk).2 ≠ none) :
    ctx.question ≠ none := by
  intro hq
  rw [onHttpStreamResponseBody, hq] at h
  split at h <;> exact h rfl

variable {codec config} in
/-- The keys a callback touches are those of its own history. -/
theorem Noted.touched {request : Request} {ctx : Option Context}
    (h : ∀ c ∈ ctx, Noted config request c) {c : Callback} (hnamed : Named codec config request c)
    (redis : GoString → Option GoString) {key : GoString}
    (hkey : key ∈ (AiHistory.callback codec config request redis ctx c).touched) :
    isJson request = true ∧ request.header config.identityHeader ≠ [] := by
  cases ctx with
  | none => cases c <;> simp [AiHistory.callback] at hkey
  | some ctx =>
      have hctx := h ctx rfl
      cases c with
      | headers => simp [AiHistory.callback] at hkey
      | body body sent =>
          rw [AiHistory.callback] at hkey
          split at hkey
          · simp at hkey
          · rename_i hread
            have hjson : isJson request = true := by
              rw [← hctx.readBody]
              simpa using hread
            by_cases hq : trimQuote (codec.question body) = []
            · simp [AiHistory.onHttpRequestBody, hq] at hkey
            · exact ⟨hjson, hnamed hjson hq⟩
      | reply failed =>
          rw [AiHistory.callback] at hkey
          split at hkey <;> simp at hkey
      | responseHeaders contentType => simp [AiHistory.callback] at hkey
      | chunk chunk isLastChunk =>
          have hsave : (onHttpStreamResponseBody codec config request ctx chunk isLastChunk).2 ≠
              none := by
            intro hnone
            simp [AiHistory.callback, hnone] at hkey
          exact hctx.question (question_of_save codec config hsave)

variable {codec config} in
theorem Noted.write {request : Request} {ctx : Option Context}
    (h : ∀ c ∈ ctx, Noted config request c) {c : Callback} (redis : GoString → Option GoString)
    {key value : GoString}
    (hw : (key, value) ∈ (AiHistory.callback codec config request redis ctx c).write) :
    isJson request = true ∧ key = historyKey config request := by
  cases ctx with
  | none => cases c <;> simp [AiHistory.callback] at hw
  | some ctx =>
      have hctx := h ctx rfl
      cases c with
      | headers => simp [AiHistory.callback] at hw
      | body body sent =>
          rw [AiHistory.callback] at hw
          split at hw <;> simp at hw
      | reply failed =>
          rw [AiHistory.callback] at hw
          split at hw <;> simp at hw
      | responseHeaders contentType => simp [AiHistory.callback] at hw
      | chunk chunk isLastChunk =>
          have hkeeps := Context.Keeps.onHttpStreamResponseBody codec config request ctx chunk isLastChunk
          simp only [AiHistory.callback, Option.mem_def, Option.map_eq_some_iff] at hw
          obtain ⟨chat, hchat, hpair⟩ := hw
          have hq := question_of_save codec config (by rw [hchat]; simp)
          refine ⟨(hctx.question hq).1, ?_⟩
          obtain ⟨rfl, -⟩ := Prod.mk.inj hpair
          rw [← hctx.key_eq hq, Context.key, Context.key, hkeeps.identityKey]

variable {codec config} in
/-- A callback sees of Redis only the history of its own identity. -/
theorem Noted.callback_congr {request : Request} {ctx : Option Context}
    (h : ∀ c ∈ ctx, Noted config request c) {redis redis' : GoString → Option GoString}
    (hredis : isJson request = true →
      redis (historyKey config request) = redis' (historyKey config request)) (c : Callback) :
    AiHistory.callback codec config request redis ctx c =
      AiHistory.callback codec config request redis' ctx c := by
  cases ctx with
  | none => cases c <;> rfl
  | some ctx =>
      have hctx := h ctx rfl
      cases c with
      | reply failed =>
          rw [AiHistory.callback, AiHistory.callback]
          cases hp : ctx.pending with
          | none => rfl
          | some pending =>
              obtain ⟨hkey, hq⟩ := hctx.pending pending hp
              have hsame : redis pending.key = redis' pending.key := by
                rw [hkey, hctx.key_eq hq]
                exact hredis (hctx.question hq).1
              dsimp only
              rw [hsame]
      | _ => rfl

/-! ### Runs -/

variable {codec config requests}

theorem Separated.named_of_mem {events : List Event} (h : Separated codec config requests events)
    {i : ℕ} {c : Callback} (hmem : .call i c ∈ events) : Named codec config (requests i) c := by
  cases c with
  | body body sent => exact h.named i body sent hmem
  | _ => trivial

/-- The contexts of a world say what is so, and only requests with an identity have
touched Redis. -/
structure World.Good (config : PluginConfig) (requests : ℕ → Request) (w : World) : Prop where
  noted : ∀ i, ∀ ctx ∈ w.ctx i, Noted config (requests i) ctx
  touched : ∀ c ∈ w.touched, identity config requests c.1 ≠ []

theorem World.good_empty : World.empty.Good config requests :=
  ⟨by simp [World.empty], by simp [World.empty]⟩

theorem World.Good.step {w : World} (hw : w.Good config requests) {e : Event}
    (hnamed : ∀ i c, e = .call i c → Named codec config (requests i) c) :
    (w.step codec config requests e).Good config requests := by
  cases e with
  | expire key => exact ⟨hw.noted, hw.touched⟩
  | call i c =>
      refine ⟨fun j => ?_, ?_⟩
      · by_cases hj : j = i
        · subst hj
          simpa [World.step] using Noted.callback (hw.noted j) (hnamed j c rfl) w.redis
        · simpa [World.step, Function.update_of_ne hj] using hw.noted j
      · intro d hd
        rcases List.mem_append.mp hd with hold | hnew
        · exact hw.touched d hold
        · obtain ⟨key, hkey, rfl⟩ := List.mem_map.mp hnew
          exact (Noted.touched (hw.noted i) (hnamed i c rfl) w.redis hkey).2

theorem World.good_run {events : List Event} (h : ∀ i c, .call i c ∈ events →
      Named codec config (requests i) c) :
    (run codec config requests events).Good config requests := by
  induction events using List.reverseRecOn with
  | nil => exact World.good_empty
  | append_singleton events e ih =>
      rw [run, List.foldl_append]
      refine (ih fun i c hmem => h i c (by simp [hmem])).step ?_
      rintro i c rfl
      exact h i c (by simp)

/-- Two worlds that look alike to the requests with the identity `value`. -/
structure Alike (config : PluginConfig) (requests : ℕ → Request) (events : List Event)
    (value : GoString) (w v : World) : Prop where
  good : w.Good config requests
  ctx : ∀ i, identity config requests i = value → w.ctx i = v.ctx i
  outputs : ∀ i, identity config requests i = value → w.outputs i = v.outputs i
  redis : ∀ i c, .call i c ∈ events → isJson (requests i) = true →
    identity config requests i = value →
    w.redis (historyKey config (requests i)) = v.redis (historyKey config (requests i))

theorem historyKey_inj {i j : ℕ}
    (h : historyKey config (requests i) = historyKey config (requests j)) :
    withoutSpaces (identity config requests i) = withoutSpaces (identity config requests j) :=
  List.append_cancel_left h

/-- The callbacks of other identities do not touch what the requests of one see. -/
theorem Alike.skip {events : List Event} (h : Separated codec config requests events)
    {value : GoString} {w v : World} (hwv : Alike config requests events value w v) {e : Event}
    (he : e ∈ events) (hother : e.concerns config requests value = false) :
    Alike config requests events value (w.step codec config requests e) v := by
  cases e with
  | expire key => simp [Event.concerns] at hother
  | call i c =>
      have hi : identity config requests i ≠ value := by simpa [Event.concerns] using hother
      have hne {j : ℕ} (hj : identity config requests j = value) : j ≠ i := by
        rintro rfl
        exact hi hj
      refine ⟨hwv.good.step (by rintro j d ⟨rfl, rfl⟩; exact h.named_of_mem he), ?_, ?_, ?_⟩
      · intro j hj
        simpa [World.step, Function.update_of_ne (hne hj)] using hwv.ctx j hj
      · intro j hj
        simpa [World.step, Function.update_of_ne (hne hj)] using hwv.outputs j hj
      · intro j d hmem hjson hj
        rw [← hwv.redis j d hmem hjson hj]
        simp only [World.step]
        cases hwrite : (callback codec config (requests i) w.redis (w.ctx i) c).write with
        | none => rfl
        | some stored =>
            obtain ⟨hijson, hkey⟩ := Noted.write (hwv.good.noted i) w.redis hwrite
            apply Function.update_of_ne
            intro hsame
            have hspaces := historyKey_inj (hsame.trans hkey)
            exact hi ((h.apart i c j d he hmem hijson hjson hspaces.symm).trans hj)

/-- The callbacks of one identity act alike in worlds that look alike to it. -/
theorem Alike.step {events : List Event} (h : Separated codec config requests events)
    {value : GoString} {w v : World} (hwv : Alike config requests events value w v) {e : Event}
    (he : e ∈ events) (hown : e.concerns config requests value = true) :
    Alike config requests events value (w.step codec config requests e)
      (v.step codec config requests e) := by
  cases e with
  | expire key =>
      refine ⟨⟨hwv.good.noted, hwv.good.touched⟩, hwv.ctx, hwv.outputs, ?_⟩
      intro i c hmem hjson hi
      have hsame := hwv.redis i c hmem hjson hi
      by_cases hkey : historyKey config (requests i) = key
      · simp [World.step, hkey]
      · simpa [World.step, Function.update_of_ne hkey] using hsame
  | call i c =>
      have hi : identity config requests i = value := by simpa [Event.concerns] using hown
      have heffect : callback codec config (requests i) w.redis (w.ctx i) c =
          callback codec config (requests i) v.redis (v.ctx i) c := by
        rw [← hwv.ctx i hi]
        exact Noted.callback_congr (hwv.good.noted i) (fun hjson => hwv.redis i c he hjson hi) c
      refine ⟨hwv.good.step (by rintro j d ⟨rfl, rfl⟩; exact h.named_of_mem he), ?_, ?_, ?_⟩
      · intro j hj
        by_cases hji : j = i
        · simp [World.step, hji, heffect]
        · simpa [World.step, Function.update_of_ne hji] using hwv.ctx j hj
      · intro j hj
        by_cases hji : j = i
        · simp [World.step, hji, heffect, hwv.outputs i hi]
        · simpa [World.step, Function.update_of_ne hji] using hwv.outputs j hj
      · intro j d hmem hjson hj
        have hsame := hwv.redis j d hmem hjson hj
        simp only [World.step, heffect]
        cases (callback codec config (requests i) v.redis (v.ctx i) c).write with
        | none => exact hsame
        | some stored =>
            by_cases hkey : historyKey config (requests j) = stored.1
            · simp [hkey]
            · simpa [Function.update_of_ne hkey] using hsame

/-- In every run whose questions come from requests with an identity, and whose identities
stay apart without their spaces, the histories are isolated. -/
theorem isolated_of_separated (events : List Event) (h : Separated codec config requests events) :
    Isolated codec config requests events where
  alone i := by
    have hstart : Alike config requests events (identity config requests i) .empty .empty :=
      ⟨World.good_empty, fun _ _ => rfl, fun _ _ => rfl, fun _ _ _ _ _ => rfl⟩
    have hrun := Run.foldl_filter_of_unwinding (fun e he hother w v hwv => hwv.skip h he hother)
      (fun e he hown w v hwv => hwv.step h he hown) hstart
    exact hrun.outputs i rfl
  unnamed c hc := (World.good_run fun i c hmem => h.named_of_mem hmem).touched c hc

end Runs

/-! ### Two exchanges -/

namespace Sample

def body : GoString :=
  bytes "\x7b\"messages\":[\x7b\"role\":\"user\",\"content\":\"hi\"\x7d]\x7d"

def messages : GoString := bytes "[\x7b\"role\":\"user\",\"content\":\"hi\"\x7d]"

def response : GoString :=
  bytes "\x7b\"choices\":[\x7b\"message\":\x7b\"content\":\"ok\"\x7d\x7d]\x7d"

def asked : ChatHistory := ⟨bytes "user", bytes "hi"⟩

def answered : ChatHistory := ⟨bytes "assistant", bytes "ok"⟩

def write (m : ChatHistory) : GoString :=
  bytes "\x7b\"role\":\"" ++ m.role ++ bytes "\",\"content\":\"" ++ m.content ++ bytes "\"\x7d"

def marshal (chat : List ChatHistory) : GoString :=
  bytes "[" ++ (bytes ",").intercalate (chat.map write) ++ bytes "]"

/-- The readers and writers on the texts of the two exchanges. -/
def codec : Codec where
  stream _ := false
  question b := if b = body then bytes "hi" else []
  messages b := if b = body then messages else []
  answer b := if b = response then bytes "\"ok\"" else []
  delta _ := none
  toolCalls _ := false
  marshal := marshal
  unmarshal s :=
    if s = messages then some [asked]
    else if s = marshal [asked, answered] then some [asked, answered]
    else none
  replaceMessages b chat :=
    if b = body then some (bytes "\x7b\"messages\":" ++ marshal chat ++ bytes "\x7d") else none
  query _ _ := none

def config : PluginConfig := ⟨bytes "higress-ai-history:", bytes "Authorization", 3, 0⟩

/-- JSON requests with the given values of the identity header. -/
def requests (values : ℕ → GoString) (i : ℕ) : Request :=
  ⟨bytes "/v1/chat/completions", fun name =>
    if name = bytes "content-type" then bytes "application/json"
    else if name = bytes "Authorization" then values i
    else []⟩

/-- A question, its history, and the answer. -/
def exchange (i : ℕ) : List Event :=
  [.call i .headers, .call i (.body body true), .call i (.reply false),
    .call i (.chunk response true)]

def callers (i : ℕ) : GoString := if i = 0 then bytes "Bearer ab" else bytes "Bearer cd"

/-- The same letters, with a space in another place. -/
def lookalikes (i : ℕ) : GoString := if i = 0 then bytes "Bearer ab" else bytes "Bearer a b"

theorem identity_requests (values : ℕ → GoString) (i : ℕ) :
    identity config (requests values) i = values i := by
  have hother : bytes "Authorization" ≠ bytes "content-type" := by decide
  simp [identity, requests, config, hother]

end Sample

theorem isolated_two_callers :
    Separated Sample.codec Sample.config (Sample.requests Sample.callers)
        (Sample.exchange 0 ++ Sample.exchange 1) ∧
      Isolated Sample.codec Sample.config (Sample.requests Sample.callers)
        (Sample.exchange 0 ++ Sample.exchange 1) := by
  have hsep : Separated Sample.codec Sample.config (Sample.requests Sample.callers)
      (Sample.exchange 0 ++ Sample.exchange 1) := by
    constructor
    · intro i body sent _ _ _
      rw [Sample.identity_requests, Sample.callers]
      split <;> decide
    · intro i c j d _ _ _ _ hspaces
      simp only [Sample.identity_requests, Sample.callers] at hspaces ⊢
      have hne : withoutSpaces (bytes "Bearer ab") ≠ withoutSpaces (bytes "Bearer cd") := by decide
      split at hspaces <;> split at hspaces <;> simp_all
  exact ⟨hsep, isolated_of_separated _ hsep⟩

/-- Callers whose identities differ in a space share their history, and a caller without
an identity reads and writes one. -/
theorem not_isolated :
    ¬ Isolated Sample.codec Sample.config (Sample.requests Sample.lookalikes)
        (Sample.exchange 0 ++ Sample.exchange 1) ∧
      ¬ Isolated Sample.codec Sample.config (Sample.requests fun _ => []) (Sample.exchange 0) := by
  constructor
  · intro h
    have hlength := congrArg List.length (h.alone 1)
    revert hlength
    decide
  · intro h
    have htouched : (0, bytes "higress-ai-history:") ∈
        (run Sample.codec Sample.config (Sample.requests fun _ => []) (Sample.exchange 0)).touched := by
      decide
    exact h.unnamed _ htouched (Sample.identity_requests _ 0)

end Higress.AiHistory
