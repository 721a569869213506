import Higress.Lib.SortedMap
import Higress.Lib.Utf8
import Higress.Wasm.EventStream
import Higress.Masking.Restore

/-!
The windows of the data masking plugin (`ai-data-masking/src/msg_window.rs` and
`msg_win_openai.rs`). The texts of a streamed response are taken out of its
events and kept in one window for each choice, so that a mask can be found that
comes in parts. What else the events carry waits in a queue, together with the
texts that must come out before it.

The reader of `serde_json` is a parameter, and so is the callback that inspects
the buffered texts. The output is a list of frames; `Frame.render` writes them.
-/

namespace Higress.Masking

open Lib Wasm

/-! ### Values -/

/-- A string of Rust. -/
abbrev Str := { s : Text // Utf8.IsUtf8 s }

/-- `serde_json::Number`. -/
inductive Number
  | int (n : ℤ)
  | float (bits : UInt64)

/-- `serde_json::Value`. -/
inductive Value
  | null
  | bool (b : Bool)
  | number (n : Number)
  | string (s : Str)
  | array (vs : List Value)
  | object (fields : List (Text × Value))

namespace Value

/-- `get` with a name. -/
def get : Value → Text → Option Value
  | object fields, name => fields.lookup name
  | _, _ => none

/-- `value[name]`. -/
def index (v : Value) (name : Text) : Value := (v.get name).getD null

def isNull : Value → Bool
  | null => true
  | _ => false

def asStr : Value → Option Str
  | string s => some s
  | _ => none

def asArray : Value → Option (List Value)
  | array vs => some vs
  | _ => none

def asObject : Value → Option (List (Text × Value))
  | object fields => some fields
  | _ => none

def asI64 : Value → Option ℤ
  | number (.int n) => if -9223372036854775808 ≤ n ∧ n ≤ 9223372036854775807 then some n else none
  | _ => none

/-- `Map::insert`. -/
def insertField (name : Text) (v : Value) : List (Text × Value) → List (Text × Value)
  | [] => [(name, v)]
  | field :: fields =>
      if field.1 = name then (name, v) :: fields else field :: insertField name v fields

/-- `Map::remove`. -/
def removeField (name : Text) (fields : List (Text × Value)) : List (Text × Value) :=
  fields.filter fun field => field.1 ≠ name

/-- `value[name] = v` on an object. -/
def set (v : Value) (name : Text) (new : Value) : Value :=
  match v with
  | object fields => object (insertField name new fields)
  | v => v

end Value

/-! ### One text -/

/-- `MessageWindow`. -/
structure MessageWindow where
  message : Text

namespace MessageWindow

/-- `MessageWindow::update`. -/
def update (w : MessageWindow) (data : Text) : MessageWindow := ⟨w.message ++ data⟩

/-- `MessageWindow::pop`. -/
def pop (w : MessageWindow) (charWindowSize byteWindowSize : ℕ) : Text × MessageWindow :=
  match Utf8.chars w.message with
  | some chars =>
      if chars.length ≤ charWindowSize then ([], w)
      else ((chars.take (chars.length - charWindowSize)).flatten,
        ⟨(chars.drop (chars.length - charWindowSize)).flatten⟩)
  | none =>
      if w.message.length ≤ byteWindowSize then ([], w)
      else (w.message.take (w.message.length - byteWindowSize),
        ⟨w.message.drop (w.message.length - byteWindowSize)⟩)

/-- `MessageWindow::finish`. -/
def finish (w : MessageWindow) : Text × MessageWindow := (w.message, ⟨[]⟩)

end MessageWindow

/-! ### The texts of a choice -/

inductive MsgFlag
  | none
  | content
  | reasoningContent
  deriving DecidableEq

/-- `FrameMetadata`. -/
structure FrameMetadata where
  id : Option Value
  object : Option Value
  created : Option Value
  model : Option Value
  systemFingerprint : Option Value

namespace FrameMetadata

/-- `FrameMetadata::from_value`. -/
def fromValue (v : Value) : FrameMetadata where
  id := v.get (bytes "id")
  object := v.get (bytes "object")
  created := v.get (bytes "created")
  model := v.get (bytes "model")
  systemFingerprint := v.get (bytes "system_fingerprint")

/-- The members of a frame that `FrameMetadata` holds. -/
def fields (m : FrameMetadata) : List (Text × Value) :=
  [(bytes "id", m.id), (bytes "object", m.object), (bytes "created", m.created),
    (bytes "model", m.model), (bytes "system_fingerprint", m.systemFingerprint)].filterMap
      fun field => field.2.map fun v => (field.1, v)

/-- `FrameMetadata::frame`. -/
def frame (m : FrameMetadata) (choice : Value) : Value :=
  .object (m.fields ++ [(bytes "choices", .array [choice])])

end FrameMetadata

/-- `MessageWindowOpenAi`. -/
structure MessageWindowOpenAi where
  messageWindow : MessageWindow
  retMessages : List (MsgFlag × Text)
  flag : MsgFlag
  index : ℤ
  metadata : FrameMetadata
  role : Option Value
  needsCheck : Bool

section Inspect

variable {σ : Type*} (inspect : σ → Text → Text × Bool × σ)

/-- `all(inspect)` over the finished messages: the first one that is rejected
ends the round. -/
def inspectAll : σ → List (MsgFlag × Text) → List (MsgFlag × Text) × Bool × σ
  | s, [] => ([], true, s)
  | s, (flag, msg) :: msgs =>
      let (msg, accepted, s) := inspect s msg
      if accepted then
        let (msgs, accepted, s) := inspectAll s msgs
        ((flag, msg) :: msgs, accepted, s)
      else ((flag, msg) :: msgs, false, s)

end Inspect

namespace MessageWindowOpenAi

/-- `MessageWindowOpenAi::default`. -/
def default : MessageWindowOpenAi where
  messageWindow := ⟨[]⟩
  retMessages := []
  flag := .none
  index := 0
  metadata := ⟨none, none, none, none, none⟩
  role := none
  needsCheck := false

/-- `MessageWindowOpenAi::update`. -/
def update (w : MessageWindowOpenAi) (data : Text) (flag : MsgFlag) (index : ℤ)
    (metadata : FrameMetadata) (role : Option Value) : MessageWindowOpenAi :=
  if data = [] then w
  else
    let w := { w with
      index, metadata
      role := role.or w.role
      flag := if w.flag = MsgFlag.none then flag else w.flag }
    let w :=
      if w.flag = flag then w
      else
        let (msg, messageWindow) := w.messageWindow.finish
        { w with flag, messageWindow, retMessages := w.retMessages ++ [(w.flag, msg)] }
    { w with messageWindow := w.messageWindow.update data, needsCheck := true }

section Inspect

variable {σ : Type*} (inspect : σ → Text → Text × Bool × σ)

/-- `MessageWindowOpenAi::check`. -/
def check (s : σ) (w : MessageWindowOpenAi) : MessageWindowOpenAi × σ :=
  if w.needsCheck then
    let (retMessages, accepted, s) := inspectAll inspect s w.retMessages
    if accepted then
      let (msg, accepted, s) := inspect s w.messageWindow.message
      ({ w with retMessages, messageWindow := ⟨msg⟩, needsCheck := !accepted }, s)
    else ({ w with retMessages, needsCheck := true }, s)
  else (w, s)

end Inspect

/-- The members of a delta that carry a text. -/
def textFields (flag : MsgFlag) (text : Str) : List (Text × Value) :=
  match flag with
  | .content => [(bytes "content", .string text)]
  | .reasoningContent =>
      [(bytes "reasoning_content", .string text),
        (bytes "content", .string ⟨[], Utf8.isUtf8_nil⟩)]
  | .none => []

/-- `gen_value`, with the role that it takes. -/
def genValue (w : MessageWindowOpenAi) (flag : MsgFlag) (msg : Text) :
    Value × MessageWindowOpenAi :=
  let role := w.role.toList.map fun role => (bytes "role", role)
  let text := ⟨Utf8.lossy msg, Utf8.isUtf8_lossy msg⟩
  (w.metadata.frame (.object [(bytes "index", .number (.int w.index)),
      (bytes "delta", .object (role ++ textFields flag text)), (bytes "finish_reason", .null)]),
    { w with role := none })

/-- The loop of `messages_to_value`. -/
def genValues (w : MessageWindowOpenAi) :
    List (MsgFlag × Text) → List Value × MessageWindowOpenAi
  | [] => ([], w)
  | (flag, msg) :: msgs =>
      let (v, w) := w.genValue flag msg
      let (vs, w) := genValues w msgs
      (v :: vs, w)

/-- `messages_to_value`. -/
def messagesToValue (w : MessageWindowOpenAi) : List Value × MessageWindowOpenAi :=
  genValues { w with retMessages := [] } w.retMessages

/-- The text that `pop` and `finish` write last. -/
def genLast (w : MessageWindowOpenAi) (flag : MsgFlag) (msg : Text) :
    List Value × MessageWindowOpenAi :=
  if msg = [] then ([], w)
  else
    let (v, w) := w.genValue flag msg
    ([v], w)

/-- `MessageWindowOpenAi::pop`. -/
def pop (w : MessageWindowOpenAi) (charWindowSize byteWindowSize : ℕ) :
    List Value × MessageWindowOpenAi :=
  let (ret, w) := w.messagesToValue
  let (msg, messageWindow) := w.messageWindow.pop charWindowSize byteWindowSize
  let (last, w) := { w with messageWindow }.genLast w.flag msg
  (ret ++ last, w)

/-- `take_prefix`: the part of the text that leaves the window, and the rest. -/
def takePrefix (w : MessageWindowOpenAi) (charWindowSize byteWindowSize : ℕ) :
    Option MessageWindowOpenAi × MessageWindowOpenAi :=
  let (message, messageWindow) := w.messageWindow.pop charWindowSize byteWindowSize
  let retMessages := w.retMessages ++ if message = [] then [] else [(w.flag, message)]
  let w := { w with messageWindow, retMessages := [] }
  if retMessages = [] then (none, w)
  else
    (some { default with retMessages, index := w.index, metadata := w.metadata, role := w.role },
      { w with role := none })

/-- `MessageWindowOpenAi::finish`; the window is not used again. -/
def finish (w : MessageWindowOpenAi) : List Value :=
  let (ret, w) := w.messagesToValue
  ret ++ (w.genLast w.flag w.messageWindow.message).1

end MessageWindowOpenAi

/-! ### The response -/

/-- A frame of the output. -/
inductive Frame
  /-- An event of the input. -/
  | event (e : Text)
  /-- The rest of an event whose texts went into the windows. -/
  | control (v : Value)
  /-- A text out of a window. -/
  | text (v : Value)
  | done

inductive QueuedEvent
  | text (w : MessageWindowOpenAi)
  | raw (f : Frame)

/-- `MsgWindow`. -/
structure MsgWindow where
  streamParser : EventStream
  baseMessageWindow : MessageWindow
  messageWindows : SortedMap ℤ MessageWindowOpenAi
  finishReasons : SortedMap ℤ (Option Value)
  queuedEvents : List QueuedEvent
  doneSent : Bool
  errorReceived : Bool
  charWindowSize : ℕ
  byteWindowSize : ℕ

/-- The number of a choice. -/
def choiceIndex (choice : Value) : ℤ := (choice.index (bytes "index")).asI64.getD 0

/-- A text of the delta of a choice, if it is not empty. -/
def deltaText (choice : Value) (field : Text) : Option Str :=
  ((choice.index (bytes "delta")).index field).asStr.filter fun s => s.1 ≠ []

/-- The closure `has_text`. -/
def hasText (choice : Value) : Bool :=
  [bytes "content", bytes "reasoning_content"].any fun field => (deltaText choice field).isSome

/-- `has_protocol_data`. -/
def hasProtocolData (choice : Value) : Bool :=
  !(choice.index (bytes "finish_reason")).isNull ||
    match (choice.index (bytes "delta")).asObject with
    | none => false
    | some delta => delta.any fun field =>
        !([bytes "content", bytes "reasoning_content"].contains field.1) && !field.2.isNull

/-- The data of an event line (`strip_prefix`). -/
def eventData (event : Text) : Option Text :=
  if (bytes "data:").isPrefixOf event then some (event.drop 5) else none

/-- `u8::is_ascii_whitespace`. -/
def isAsciiWhitespace (b : UInt8) : Bool := b == 32 || b == 9 || b == 10 || b == 12 || b == 13

/-- The test for the end of a stream. -/
def isDone (event : Text) : Bool :=
  match eventData event with
  | none => false
  | some data => data.filter (fun b => !isAsciiWhitespace b) = bytes "[DONE]"

/-- The choices of a value, if there are any. -/
def choicesOf (res : Value) : Option (List Value) :=
  (res.index (bytes "choices")).asArray.filter fun choices => choices ≠ []

/-- A text field and its flag, in the order of `update_event`. -/
def textFlags : List (Text × MsgFlag) :=
  [(bytes "reasoning_content", .reasoningContent), (bytes "content", .content)]

/-- The removal of one text field from a delta. -/
def removeText (delta : List (Text × Value)) (field : Text) : List (Text × Value) :=
  match delta.lookup field with
  | some (.string _) | some .null => Value.removeField field delta
  | _ => delta

/-- The removal of one member of a choice if it is null. -/
def removeNull (choice : List (Text × Value)) (field : Text) : List (Text × Value) :=
  match choice.lookup field with
  | some .null => Value.removeField field choice
  | _ => choice

/-- What is left of a choice whose texts went into its window. -/
def controlOf (choice : Value) : Value :=
  match choice with
  | .object fields =>
      let fields := match fields.lookup (bytes "delta") with
        | some (.object delta) =>
            Value.insertField (bytes "delta") (.object (Value.removeField (bytes "role")
              (textFlags.foldl (fun delta f => removeText delta f.1) delta))) fields
        | _ => fields
      .object ([bytes "logprobs", bytes "token_ids"].foldl removeNull fields)
  | v => v

/-- `has_control`. -/
def hasControl (control : Value) : Bool :=
  (match (control.index (bytes "delta")).asObject with
    | none => false
    | some delta => delta ≠ []) ||
  !(control.index (bytes "finish_reason")).isNull ||
  match control.asObject with
  | none => false
  | some fields => fields.any fun field =>
      !([bytes "index", bytes "delta", bytes "finish_reason"].contains field.1)

/-- `has_extra_fields`. -/
def hasExtraFields (res : Value) : Bool :=
  match res.asObject with
  | none => false
  | some fields => fields.any fun field =>
      !([bytes "id", bytes "object", bytes "created", bytes "model", bytes "system_fingerprint",
        bytes "usage", bytes "choices"].contains field.1)

namespace MsgWindow

/-- `MsgWindow::default`. -/
def default : MsgWindow where
  streamParser := EventStream.default
  baseMessageWindow := ⟨[]⟩
  messageWindows := .empty
  finishReasons := .empty
  queuedEvents := []
  doneSent := false
  errorReceived := false
  charWindowSize := 0
  byteWindowSize := 0

/-- `queue_raw`. -/
def queueRaw (m : MsgWindow) (f : Frame) : MsgWindow :=
  { m with queuedEvents := m.queuedEvents ++ [.raw f] }

/-- The loop of `update_event` over the finish reasons. -/
def recordFinish (m : MsgWindow) (choices : List Value) : MsgWindow :=
  choices.foldl (fun m choice =>
    let old := (m.finishReasons.get (choiceIndex choice)).getD none
    let new := (choice.get (bytes "finish_reason")).filter fun reason => !reason.isNull
    { m with finishReasons := m.finishReasons.insert (choiceIndex choice) (new.or old) }) m

/-- One text of a delta put into the window of its choice, with the role. -/
def addText (metadata : FrameMetadata) (choice : Value) (acc : MsgWindow × Option Value)
    (f : Text × MsgFlag) : MsgWindow × Option Value :=
  match deltaText choice f.1 with
  | none => acc
  | some text =>
      let w := (acc.1.messageWindows.get (choiceIndex choice)).getD .default
      ({ acc.1 with
          messageWindows := acc.1.messageWindows.insert (choiceIndex choice)
            (w.update text.1 f.2 (choiceIndex choice) metadata acc.2) }, none)

/-- The texts of a delta put into the window; the role goes with the first one. -/
def addTexts (m : MsgWindow) (metadata : FrameMetadata) (choice : Value) : MsgWindow :=
  (textFlags.foldl (addText metadata choice)
    (m, (choice.index (bytes "delta")).get (bytes "role"))).1

section Inspect

variable {σ : Type*} (parse : Text → Option Value) (inspect : σ → Text → Text × Bool × σ)

/-- `queue_text`. -/
def queueText (m : MsgWindow) (s : σ) (index : ℤ) (terminal : Bool) : MsgWindow × σ :=
  match m.messageWindows.get index with
  | none => (m, s)
  | some w =>
      let (w, s) := w.check inspect s
      if terminal then
        ({ m with
            messageWindows := m.messageWindows.erase index
            queuedEvents := m.queuedEvents ++ [.text w] }, s)
      else
        let (before, w) := w.takePrefix m.charWindowSize m.byteWindowSize
        ({ m with
            messageWindows := m.messageWindows.insert index w
            queuedEvents := m.queuedEvents ++ before.toList.map .text }, s)

/-- `queue_all_text`. -/
def queueAllText (m : MsgWindow) (s : σ) : MsgWindow × σ :=
  let (windows, s) := m.messageWindows.visit (MessageWindowOpenAi.check inspect) s
  ({ m with
      messageWindows := .empty
      queuedEvents := m.queuedEvents ++ windows.entries.map fun e => .text e.2 }, s)

/-- The texts of a choice queued, if it carries something that is not text. -/
def queueFor (m : MsgWindow) (s : σ) (choice : Value) : MsgWindow × σ :=
  if hasProtocolData choice then
    m.queueText inspect s (choiceIndex choice) (!(choice.index (bytes "finish_reason")).isNull)
  else (m, s)

/-- The loop of `update_event` over the choices of an event without text. -/
def queueForAll : MsgWindow → σ → List Value → MsgWindow × σ
  | m, s, [] => (m, s)
  | m, s, choice :: choices =>
      let (m, s) := m.queueFor inspect s choice
      queueForAll m s choices

/-- The body of the loop of `update_event` over the choices of an event with
text; the value is what the choice adds to the controls. -/
def splitChoice (metadata : FrameMetadata) (m : MsgWindow) (s : σ) (choice : Value) :
    Option Value × MsgWindow × σ :=
  if hasText choice then
    let m := m.addTexts metadata choice
    let control := controlOf choice
    if hasControl control then
      let index := choiceIndex choice
      let (m, s) :=
        if hasProtocolData control then
          m.queueText inspect s index (!(control.index (bytes "finish_reason")).isNull)
        else (m, s)
      (some control, m, s)
    else (none, m, s)
  else
    let (m, s) := m.queueFor inspect s choice
    (some choice, m, s)

/-- The loop of `update_event` over the choices of an event with text. -/
def splitChoices (metadata : FrameMetadata) :
    MsgWindow → σ → List Value → List Value × MsgWindow × σ
  | m, s, [] => ([], m, s)
  | m, s, choice :: choices =>
      let (control, m, s) := splitChoice inspect metadata m s choice
      let (controls, m, s) := splitChoices metadata m s choices
      (control.toList ++ controls, m, s)

/-- `update_event`. -/
def updateEvent (m : MsgWindow) (s : σ) (event : Text) : Bool × MsgWindow × σ :=
  if event = [] then (false, m, s)
  else if isDone event then
    let (m, s) := m.queueAllText inspect s
    (false, if m.doneSent then m else { m.queueRaw .done with doneSent := true }, s)
  else
    match (eventData event).bind parse with
    | none =>
        let (m, s) := m.queueAllText inspect s
        (false, m.queueRaw (.event event), s)
    | some res =>
        let m := { m with
          errorReceived := m.errorReceived || !(res.index (bytes "error")).isNull }
        match choicesOf res with
        | none =>
            let (m, s) := m.queueAllText inspect s
            (false, m.queueRaw (.event event), s)
        | some choices =>
            let m := m.recordFinish choices
            if choices.all fun choice => !hasText choice then
              let (m, s) := queueForAll inspect m s choices
              (false, m.queueRaw (.event event), s)
            else
              let (controls, m, s) :=
                splitChoices inspect (FrameMetadata.fromValue res) m s choices
              let m :=
                if controls ≠ [] ∨ !(res.index (bytes "usage")).isNull ∨ hasExtraFields res then
                  m.queueRaw (.control (res.set (bytes "choices") (.array controls)))
                else m
              (true, m, s)

/-- The events of a callback, one after another. -/
def updateEvents : MsgWindow → σ → List Text → MsgWindow × σ
  | m, s, [] => (m, s)
  | m, s, event :: events =>
      let (_, m, s) := m.updateEvent parse inspect s event
      updateEvents m s events

/-- The windows checked once more, in the order of their choices. -/
def checkAll (m : MsgWindow) (s : σ) : MsgWindow × σ :=
  let (messageWindows, s) := m.messageWindows.visit (MessageWindowOpenAi.check inspect) s
  ({ m with messageWindows }, s)

/-- `push`. -/
def push (m : MsgWindow) (s : σ) (data : Text) (isOpenai : Bool)
    (charWindowSize byteWindowSize : ℕ) : MsgWindow × σ :=
  let m := { m with charWindowSize, byteWindowSize }
  if isOpenai then
    let (events, streamParser) := (m.streamParser.update data).drain
    let (m, s) := updateEvents parse inspect { m with streamParser } s events
    m.checkAll inspect s
  else
    let (msg, _, s) := inspect s (m.baseMessageWindow.update data).message
    ({ m with baseMessageWindow := ⟨msg⟩ }, s)

/-- `complete`. -/
def complete (m : MsgWindow) (s : σ) : MsgWindow × σ :=
  let (event, streamParser) := m.streamParser.flush
  let m := { m with streamParser }
  match event with
  | none => (m, s)
  | some event =>
      let (_, m, s) := m.updateEvent parse inspect s event
      m.checkAll inspect s

end Inspect

/-- The frames of a queued event. -/
def framesOf : QueuedEvent → List Frame
  | .text w => w.finish.map .text
  | .raw f => [f]

/-- `drain_queued`. -/
def drainQueued (m : MsgWindow) : List Frame × MsgWindow :=
  (m.queuedEvents.flatMap framesOf, { m with queuedEvents := [] })

/-- `pop` on a stream of events. -/
def popFrames (m : MsgWindow) (charWindowSize byteWindowSize : ℕ) : List Frame × MsgWindow :=
  let (ret, m) := m.drainQueued
  let (messageWindows, ret) := m.messageWindows.visit (fun ret w =>
    let (vs, w) := w.pop charWindowSize byteWindowSize
    (w, ret ++ vs.map Frame.text)) ret
  (ret, { m with messageWindows })

section Inspect

variable {σ : Type*} (parse : Text → Option Value) (inspect : σ → Text → Text × Bool × σ)

/-- `finish` on a stream of events. -/
def finishFrames (m : MsgWindow) (s : σ) : List Frame × MsgWindow × σ :=
  let (m, s) := m.complete parse inspect s
  let (m, s) := m.queueAllText inspect s
  let (output, m) := m.drainQueued
  let allFinished :=
    !m.finishReasons.entries.isEmpty && m.finishReasons.entries.all fun e => e.2.isSome
  if !m.doneSent && allFinished && !m.errorReceived then
    (output ++ [.done], { m with doneSent := true }, s)
  else (output, m, s)

end Inspect

end MsgWindow

end Higress.Masking
