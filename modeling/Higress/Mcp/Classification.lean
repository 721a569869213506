import Higress.Lib.JsonText

/-!
`classification.go`: the lexer that decides from the raw body whether a
request speaks the modern or the legacy dialect of MCP. It is not recursive.
It keeps one byte for each open container, and that byte packs the kind of
the container, the state of the grammar in it, its path and the path of the
value that comes next.
-/

namespace Higress.Mcp.Classification

open Higress.Lib

inductive ClassificationPath
  | other
  | root
  | params
  | metadata
  deriving DecidableEq

inductive ClassificationContainer
  | object
  | array
  deriving DecidableEq

inductive ClassificationState
  | initial
  | next
  | colon
  | commaOrEnd
  deriving DecidableEq

inductive ClassificationKey
  | other
  | params
  | metadata
  | modern
  deriving DecidableEq

inductive BodyClassification
  | invalid
  | legacy
  | modern
  deriving DecidableEq

/-! ### Frames -/

def ClassificationPath.toByte : ClassificationPath → UInt8
  | .other => 0
  | .root => 1
  | .params => 2
  | .metadata => 3

def ClassificationPath.ofByte (b : UInt8) : ClassificationPath :=
  if b = 0 then .other else if b = 1 then .root else if b = 2 then .params else .metadata

def ClassificationContainer.toByte : ClassificationContainer → UInt8
  | .object => 0
  | .array => 1

def ClassificationContainer.ofByte (b : UInt8) : ClassificationContainer :=
  if b = 0 then .object else .array

def ClassificationState.toByte : ClassificationState → UInt8
  | .initial => 0
  | .next => 1
  | .colon => 2
  | .commaOrEnd => 3

/-- The field has three bits, so some of its values name no state. -/
def ClassificationState.ofByte (b : UInt8) : Option ClassificationState :=
  if b = 0 then some .initial
  else if b = 1 then some .next
  else if b = 2 then some .colon
  else if b = 3 then some .commaOrEnd
  else none

def classificationContainerMask : UInt8 := 0x01

def classificationStateMask : UInt8 := 0x0e

def classificationPathMask : UInt8 := 0x30

def classificationPendingMask : UInt8 := 0xc0

def makeClassificationFrame (container : ClassificationContainer) (state : ClassificationState)
    (path pending : ClassificationPath) : UInt8 :=
  container.toByte ||| (state.toByte <<< 1) ||| (path.toByte <<< 4) ||| (pending.toByte <<< 6)

def classificationFrameContainer (frame : UInt8) : ClassificationContainer :=
  .ofByte (frame &&& classificationContainerMask)

def classificationFrameState (frame : UInt8) : Option ClassificationState :=
  ClassificationState.ofByte ((frame &&& classificationStateMask) >>> 1)

def classificationFramePath (frame : UInt8) : ClassificationPath :=
  .ofByte ((frame &&& classificationPathMask) >>> 4)

def classificationFramePending (frame : UInt8) : ClassificationPath :=
  .ofByte ((frame &&& classificationPendingMask) >>> 6)

def setClassificationFrameState (frame : UInt8) (state : ClassificationState) : UInt8 :=
  (frame &&& ~~~classificationStateMask) ||| (state.toByte <<< 1)

def setClassificationFramePending (frame : UInt8) (pending : ClassificationPath) : UInt8 :=
  (frame &&& ~~~classificationPendingMask) ||| (pending.toByte <<< 6)

section

variable (container : ClassificationContainer) (state state' : ClassificationState)
  (path pending pending' : ClassificationPath)

@[simp] theorem frameContainer_make :
    classificationFrameContainer (makeClassificationFrame container state path pending) =
      container := by
  cases container <;> cases state <;> cases path <;> cases pending <;> rfl

@[simp] theorem frameState_make :
    classificationFrameState (makeClassificationFrame container state path pending) =
      some state := by
  cases container <;> cases state <;> cases path <;> cases pending <;> rfl

@[simp] theorem framePath_make :
    classificationFramePath (makeClassificationFrame container state path pending) = path := by
  cases container <;> cases state <;> cases path <;> cases pending <;> rfl

@[simp] theorem framePending_make :
    classificationFramePending (makeClassificationFrame container state path pending) =
      pending := by
  cases container <;> cases state <;> cases path <;> cases pending <;> rfl

@[simp] theorem setFrameState_make :
    setClassificationFrameState (makeClassificationFrame container state path pending) state' =
      makeClassificationFrame container state' path pending := by
  cases container <;> cases state <;> cases path <;> cases pending <;> cases state' <;> rfl

@[simp] theorem setFramePending_make :
    setClassificationFramePending (makeClassificationFrame container state path pending)
      pending' = makeClassificationFrame container state path pending' := by
  cases container <;> cases state <;> cases path <;> cases pending <;> cases pending' <;> rfl

end

/-! ### Tokens

The position in the body is kept as the rest of the body from there on. -/

def skipClassificationWhitespace (s : GoString) : GoString := s.dropWhile Json.isSpace

def metaProtocolVersion : GoString := bytes "io.modelcontextprotocol/protocolVersion"

def metaClientCapabilities : GoString := bytes "io.modelcontextprotocol/clientCapabilities"

def metaClientInfo : GoString := bytes "io.modelcontextprotocol/clientInfo"

/-- A name that a key is compared with while it is scanned. `alive` is the
target's bit in `matchMask`. -/
structure Target where
  text : GoString
  key : ClassificationKey
  alive : Bool

/-- The names that count in an object at a path. -/
def classificationTargets : ClassificationPath → List Target
  | .other => []
  | .root => [⟨bytes "params", .params, true⟩]
  | .params => [⟨bytes "_meta", .metadata, true⟩]
  | .metadata =>
      [⟨metaProtocolVersion, .modern, true⟩, ⟨metaClientCapabilities, .modern, true⟩,
        ⟨metaClientInfo, .modern, true⟩]

/-- The comparison of one decoded character, `none` if it is not ASCII. -/
def Target.compare (decodedLength : ℕ) (decoded : Option UInt8) (t : Target) : Target :=
  match decoded with
  | none => { t with alive := false }
  | some c => { t with alive := t.alive && t.text[decodedLength]? == some c }

/-- The key at its closing quote. -/
def targetKey (targets : List Target) (decodedLength : ℕ) : ClassificationKey :=
  match targets.find? fun t => t.alive && decodedLength == t.text.length with
  | some t => t.key
  | none => .other

def scanClassificationHex (s : GoString) : Option ℕ := Json.hex4 s

/-- The loop of `scanClassificationString`, from behind the opening quote. -/
def scanString : List Target → ℕ → GoString → Option (GoString × ClassificationKey)
  | _, _, [] => none
  | targets, n, value :: s =>
      if value = 34 then some (s, targetKey targets n)
      else if value = 92 then
        match s with
        | [] => none
        | escape :: s =>
            if escape = 117 then
              match s with
              | a :: b :: c :: d :: s =>
                  match scanClassificationHex [a, b, c, d] with
                  | none => none
                  | some codePoint =>
                      let decoded :=
                        if codePoint ≤ 0x7f then some (UInt8.ofNat codePoint) else none
                      scanString (targets.map (Target.compare n decoded)) (n + 1) s
              | _ => none
            else
              match Json.simpleEscape escape with
              | none => none
              | some x => scanString (targets.map (Target.compare n (some x))) (n + 1) s
      else if value < 0x20 then none
      else
        let decoded := if value < 0x80 then some value else none
        scanString (targets.map (Target.compare n decoded)) (n + 1) s

def scanClassificationString (s : GoString) (path : ClassificationPath) :
    Option (GoString × ClassificationKey) :=
  scanString (classificationTargets path) 0 s

def consumeClassificationLiteral (s literal : GoString) : Option GoString :=
  if literal.isPrefixOf s then some (s.drop literal.length) else none

/-- A run of digits that may not be empty. -/
def consumeDigits (s : GoString) : Option GoString :=
  if (s.takeWhile Json.isDigit).length = 0 then none else some (s.dropWhile Json.isDigit)

def consumeMinus : GoString → GoString
  | [] => []
  | b :: s => if b = 45 then s else b :: s

def consumeInt : GoString → Option GoString
  | [] => none
  | b :: s =>
      if b = 48 then some s
      else if b < 49 ∨ b > 57 then none
      else some ((b :: s).dropWhile Json.isDigit)

def consumeFraction : GoString → Option GoString
  | [] => some []
  | b :: s => if b = 46 then consumeDigits s else some (b :: s)

def consumeSign : GoString → GoString
  | [] => []
  | b :: s => if b = 43 ∨ b = 45 then s else b :: s

def consumeExponent : GoString → Option GoString
  | [] => some []
  | b :: s => if b = 101 ∨ b = 69 then consumeDigits (consumeSign s) else some (b :: s)

def consumeClassificationNumber (s : GoString) : Option GoString := do
  consumeExponent (← consumeFraction (← consumeInt (consumeMinus s)))

/-- A scalar is passed; a container is opened by pushing its frame. -/
def consumeClassificationValue (s : GoString) (path : ClassificationPath) (stack : List UInt8) :
    Option (GoString × List UInt8) :=
  match skipClassificationWhitespace s with
  | [] => none
  | b :: s =>
      if b = 123 then some (s, makeClassificationFrame .object .initial path .other :: stack)
      else if b = 91 then some (s, makeClassificationFrame .array .initial .other .other :: stack)
      else if b = 34 then (scanClassificationString s .other).map fun r => (r.1, stack)
      else if b = 116 then
        (consumeClassificationLiteral (b :: s) (bytes "true")).map fun r => (r, stack)
      else if b = 102 then
        (consumeClassificationLiteral (b :: s) (bytes "false")).map fun r => (r, stack)
      else if b = 110 then
        (consumeClassificationLiteral (b :: s) (bytes "null")).map fun r => (r, stack)
      else (consumeClassificationNumber (b :: s)).map fun r => (r, stack)

/-! ### The loop -/

/-- What one iteration of the loop comes to. -/
inductive Outcome
  | done (c : BodyClassification)
  | goto (rest : GoString) (stack : List UInt8)

/-- The end of a branch that consumes a value. -/
def gotoValue (s : GoString) (path : ClassificationPath) (stack : List UInt8) : Outcome :=
  match consumeClassificationValue s path stack with
  | none => .done .invalid
  | some (rest, stack) => .goto rest stack

def arrayStep (b : UInt8) (s : GoString) (frame : UInt8) (below : List UInt8) : Outcome :=
  match classificationFrameState frame with
  | some .initial =>
      if b = 93 then .goto s below
      else gotoValue (b :: s) .other (setClassificationFrameState frame .commaOrEnd :: below)
  | some .next =>
      if b = 93 then .done .invalid
      else gotoValue (b :: s) .other (setClassificationFrameState frame .commaOrEnd :: below)
  | some .commaOrEnd =>
      if b = 44 then .goto s (setClassificationFrameState frame .next :: below)
      else if b = 93 then .goto s below
      else .done .invalid
  | _ => .done .invalid

def pendingPath : ClassificationKey → ClassificationPath
  | .params => .params
  | .metadata => .metadata
  | _ => .other

/-- A key of an object. -/
def keyStep (b : UInt8) (s : GoString) (frame : UInt8) (below : List UInt8) : Outcome :=
  if b ≠ 34 then .done .invalid
  else match scanClassificationString s (classificationFramePath frame) with
    | none => .done .invalid
    | some (rest, key) =>
        if key = .modern then .done .modern
        else
          let frame := setClassificationFramePending frame (pendingPath key)
          .goto rest (setClassificationFrameState frame .colon :: below)

def objectStep (b : UInt8) (s : GoString) (frame : UInt8) (below : List UInt8) : Outcome :=
  match classificationFrameState frame with
  | some .initial => if b = 125 then .goto s below else keyStep b s frame below
  | some .next => if b = 125 then .done .invalid else keyStep b s frame below
  | some .colon =>
      if b ≠ 58 then .done .invalid
      else gotoValue s (classificationFramePending frame)
        (setClassificationFrameState frame .commaOrEnd :: below)
  | some .commaOrEnd =>
      if b = 44 then .goto s (setClassificationFrameState frame .next :: below)
      else if b = 125 then .goto s below
      else .done .invalid
  | none => .done .invalid

/-- One iteration; with no container open, the check of what follows the value. -/
def step (rest : GoString) : List UInt8 → Outcome
  | [] => .done (if skipClassificationWhitespace rest = [] then .legacy else .invalid)
  | frame :: below =>
      match skipClassificationWhitespace rest with
      | [] => .done .invalid
      | b :: s =>
          if classificationFrameContainer frame = .array then arrayStep b s frame below
          else objectStep b s frame below

/-- The loop; every iteration consumes a byte. -/
def loop : ℕ → GoString → List UInt8 → BodyClassification
  | 0, _, _ => .invalid
  | n + 1, rest, stack =>
      match step rest stack with
      | .done c => c
      | .goto rest stack => loop n rest stack

/-- 100MB. -/
def legacyMaxBodyBytes : ℕ := 100 * 1024 * 1024

def classifyRequestBody (body : GoString) : BodyClassification :=
  let body := body.take legacyMaxBodyBytes
  match skipClassificationWhitespace body with
  | [] => .invalid
  | b :: s =>
      match consumeClassificationValue (b :: s) .root [] with
      | none => .invalid
      | some (rest, stack) => loop (body.length + 1) rest stack

end Higress.Mcp.Classification
