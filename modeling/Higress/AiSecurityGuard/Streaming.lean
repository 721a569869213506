import Higress.Lib.Json
import Higress.Lib.Run
import Higress.Lib.Text

/-!
The moderation of streamed responses by the plugin `ai-security-guard`
(`HandleTextGenerationStreamingResponseBody`). The body is held back. Each callback of the
body cuts its bytes into chunks and queues them. A moderation call takes chunks off the
queue and submits their text; they live in a variable of the closure that made the call,
and are injected when the answer comes. There is one call at a time.
-/

namespace Higress.AiSecurityGuard

open Lib

/-- What is used of a result of `gjson`. -/
structure GjsonResult where
  exists? : Bool
  string : GoString
  /-- the elements, if it is an array -/
  array : Option (List GoString) := none

/-- What the plugin uses of its libraries: `gjson` by text and path, and the moderation's
answer as far as it is looked at. -/
structure Env (Response : Type) where
  unifySSEChunk : GoString → GoString
  get : GoString → GoString → GjsonResult
  code : GoString → ℤ
  unmarshal : GoString → Option Response
  isRiskLevelAcceptable : Response → Bool
  buildOpenAIDenyData : Response → Option GoString

structure Config where
  bufferLimit : ℤ := 1000
  responseStreamContentJsonPath : GoString := bytes "choices.0.delta.content"
  responseStreamContentFallbackJsonPaths : List GoString :=
    [bytes "choices.0.delta.content", bytes "delta.text"]

/-! ### The text of a chunk -/

section Text

variable {Response : Type} (env : Env Response) (cfg : Config)

/-- The paths without space around them, the empty ones, the primary one and repetitions. -/
def buildEffectiveFallbackPaths (primaryPath : GoString) (fallbackPaths : List GoString) :
    List GoString :=
  (fallbackPaths.map Strings.trimSpace).foldl (fun deduped path =>
    if path = [] ∨ path = Strings.trimSpace primaryPath ∨ path ∈ deduped then deduped
    else deduped ++ [path]) []

def extractTextFromResult (result : GjsonResult) : GoString :=
  match result.array with
  | some items => items.flatten
  | none => result.string

def extractTextByPaths (parsed : GoString) : List GoString → GoString
  | [] => []
  | path :: paths =>
      let path := Strings.trimSpace path
      let result := env.get parsed path
      if path ≠ [] ∧ result.exists? = true ∧ extractTextFromResult result ≠ [] then
        extractTextFromResult result
      else extractTextByPaths parsed paths

def isJSONPayload (payload : GoString) : Bool :=
  payload.head? == some 123 || payload.head? == some 91

/-- The data of the lines of an event up to a `[DONE]`, none if there is one. -/
def dataLines : List GoString → Option (List GoString)
  | [] => some []
  | line :: lines =>
      let line := Strings.trimSpace line
      if !Strings.startsWith line (bytes "data:") then dataLines lines
      else
        let data := Strings.trimSpace (line.drop 5)
        if data = [] then dataLines lines
        else if data = bytes "[DONE]" then none
        else (dataLines lines).map (data :: ·)

def extractSSEDataPayload (chunk : GoString) : GoString :=
  match dataLines (chunk.splitOn 10) with
  | none => []
  | some lines => Strings.trimSpace (Strings.join lines (bytes "\n"))

def autoExtractStreamingResponseContent (chunk : GoString) (fallbackPaths : List GoString) :
    GoString :=
  if fallbackPaths = [] then []
  else
    let payload := Strings.trimSpace chunk
    let payload := if isJSONPayload payload then payload else extractSSEDataPayload payload
    if payload = [] ∨ Json.unmarshal payload = none then []
    else extractTextByPaths env payload fallbackPaths

/-- The text that is submitted for a chunk. -/
def extract (front : GoString) : GoString :=
  let msg := (env.get front cfg.responseStreamContentJsonPath).string
  if msg = [] then
    autoExtractStreamingResponseContent env front
      (buildEffectiveFallbackPaths cfg.responseStreamContentJsonPath
        cfg.responseStreamContentFallbackJsonPaths)
  else msg

end Text

/-! ### The chunks of a callback -/

def separator : GoString := [10, 10]

/-- The separators between the chunks, and the one after the last if it was there. -/
def restoreSeparators (hasTrailingSeparator : Bool) : List GoString → List GoString
  | [] => []
  | [chunk] => [if hasTrailingSeparator then chunk ++ separator else chunk]
  | chunk :: chunks => (chunk ++ separator) :: restoreSeparators hasTrailingSeparator chunks

def chunksOf {Response : Type} (env : Env Response) (data : GoString) : List GoString :=
  let unifiedChunk := env.unifySSEChunk data
  restoreSeparators (separator.isSuffixOf unifiedChunk)
    ((split (Strings.trimSpace unifiedChunk) separator).filter (· ≠ []))

/-! ### Calls and answers -/

/-- What the client gets: injected chunks, as one piece of data that may end the response,
or what is left of the response itself, whose body is empty. -/
inductive Output
  | inject (chunks : List GoString) (endStream : Bool)
  | resume
  deriving DecidableEq

def emptyContent : GoString := bytes "[empty content]"

/-- A moderation call, with the text of its chunks. -/
structure Submission where
  buffer : GoString
  deriving DecidableEq

/-- What is submitted. -/
def Submission.content (submission : Submission) : GoString :=
  if submission.buffer = [] then emptyContent else submission.buffer

/-- The context of a request. `call` has the chunks of the closure whose call is under way.
`closed` is the host's: the end of the stream has been handed on. -/
structure State where
  queue : List GoString := []
  endOfStreamReceived : Bool := false
  duringCall : Bool := false
  riskDetected : Bool := false
  call : Option (List GoString) := none
  submitted : List Submission := []
  output : List Output := []
  closed : Bool := false
  deriving DecidableEq

/-- `len([]rune(s))`; a byte that belongs to no character counts as one. -/
def runeCount (s : GoString) : ℕ :=
  match s with
  | [] => 0
  | b :: t => runeCount (t.drop (Json.runeLen (b :: t) - 1)) + 1
termination_by s.length
decreasing_by
  simp only [List.length_drop, List.length_cons]
  omega

section Step

variable {Response : Type} (env : Env Response) (cfg : Config)

/-- The loop of `singleCall`: the chunks taken off the queue, the text with theirs, and the
rest of the queue. -/
def popLoop : List GoString → GoString → List GoString × GoString × List GoString
  | [], buffer => ([], buffer, [])
  | front :: queue, buffer =>
      let buffer := buffer ++ extract env cfg front
      if (runeCount buffer : ℤ) ≥ cfg.bufferLimit then ([front], buffer, queue)
      else
        let rest := popLoop queue buffer
        (front :: rest.1, rest.2)

/-- Whether there is enough to be submitted. -/
def Due (s : State) : Prop := (s.queue.length : ℤ) ≥ cfg.bufferLimit ∨ s.endOfStreamReceived = true

instance (s : State) : Decidable (Due cfg s) := inferInstanceAs (Decidable (_ ∨ _))

/-- `dispatched` says whether the host takes the call. -/
def singleCall (dispatched : Bool) (s : State) : State :=
  if s.duringCall then s
  else if Due cfg s then
    let popped := popLoop env cfg s.queue []
    let s := { s with queue := popped.2.2, duringCall := true }
    if dispatched then { s with call := some popped.1, submitted := s.submitted ++ [⟨popped.2.1⟩] }
    else if s.endOfStreamReceived then { s with output := s.output ++ [.resume] }
    else s
  else s

/-- The verdict of an answer. -/
inductive Outcome
  | failed
  | denied (body : GoString)
  | passed
  deriving DecidableEq

def outcomeOf (statusCode : ℤ) (responseBody : GoString) : Outcome :=
  if statusCode ≠ 200 ∨ env.code responseBody ≠ 200 then .failed
  else match env.unmarshal responseBody with
    | none => .failed
    | some response =>
        if env.isRiskLevelAcceptable response then .passed
        else match env.buildOpenAIDenyData response with
          -- an answer that cannot be built is passed over
          | none => .passed
          | some jsonData => .denied jsonData

/-- The callback of a call that took `bufferQueue` off the queue. -/
def callback (outcome : Outcome) (dispatched : Bool) (bufferQueue : List GoString) (s : State) :
    State :=
  let s := { s with call := none }
  match outcome with
  | .failed =>
      { s with
        output := if s.endOfStreamReceived then s.output ++ [.resume] else s.output
        duringCall := false }
  | .denied jsonData =>
      { s with
        output := s.output ++ [.inject [jsonData] true], riskDetected := true, duringCall := false }
  | .passed =>
      let endStream := s.endOfStreamReceived && s.queue.isEmpty
      let s := { s with output := s.output ++ [.inject bufferQueue endStream] }
      if endStream then s else singleCall env cfg dispatched { s with duringCall := false }

/-- What is done to the context before a call. -/
def push (data : GoString) (endOfStream : Bool) (s : State) : State :=
  { s with
    queue := s.queue ++ chunksOf env data, endOfStreamReceived := endOfStream
    closed := endOfStream }

def handleTextGenerationStreamingResponseBody (data : GoString) (endOfStream dispatched : Bool)
    (s : State) : State :=
  if s.riskDetected then
    { s with
      output := if endOfStream then s.output ++ [.resume] else s.output, closed := endOfStream }
  else
    let s := push env data endOfStream s
    if s.duringCall then s else singleCall env cfg dispatched s

/-- What the host does: it hands on data of the response, which ends once, or the answer of
the call that is under way. -/
inductive Event
  | data (data : GoString) (endOfStream dispatched : Bool)
  | answer (statusCode : ℤ) (responseBody : GoString) (dispatched : Bool)
  deriving DecidableEq

def step (s : State) : Event → Option State
  | .data data endOfStream dispatched =>
      if s.closed then none
      else some (handleTextGenerationStreamingResponseBody env cfg data endOfStream dispatched s)
  | .answer statusCode responseBody dispatched =>
      s.call.map fun bufferQueue =>
        callback env cfg (outcomeOf env statusCode responseBody) dispatched bufferQueue s

def run (events : List Event) : Option State := events.foldlM (step env cfg) {}

end Step

end Higress.AiSecurityGuard
