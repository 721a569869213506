import Higress.Picker.Writer

/-!
Inspecting a request (`prefixcache/locality.go`): the model it names, and the
chains of hashed blocks that stand for the text in front of its completion. Chat
requests have one chain, over their tools and messages; the prompts of a completion
request have one chain each.
-/

namespace Higress.Picker

open Lib

/-! ### Fields and items -/

/-- `jsonField`. -/
structure JsonField where
  key : GoString
  rawKey : GoString
  value : GoString
  deriving DecidableEq

/-- `decodeSmallString`; `null` leaves the empty string. -/
def decodeSmallString (raw : GoString) : Except LocalityError GoString :=
  match Json.unmarshal (Strings.trimSpace raw) with
  | some (.str s) => .ok s
  | some .null => .ok []
  | _ => .error .unmarshal

/-- A member of an object up to the end of its value, which `scan` finds. -/
def scanMemberWith (scan : GoString → Except LocalityError (GoString × GoString)) (s : GoString) :
    Except LocalityError (JsonField × GoString) := do
  let (rawKey, rest) ← scanJSONString s
  let key ← decodeSmallString rawKey
  match skipWhitespace rest with
  | [] => .error (.text "missing JSON object colon")
  | b :: rest =>
      if b = 58 then do
        let (value, rest) ← scan (skipWhitespace rest)
        return (⟨key, rawKey, value⟩, rest)
      else .error (.text "missing JSON object colon")

def scanMember (s : GoString) : Except LocalityError (JsonField × GoString) :=
  scanMemberWith scanJSONValue s

theorem scanMemberWith_eq_ok {scan : GoString → Except LocalityError (GoString × GoString)}
    {s rest : GoString} {field : JsonField} (h : scanMemberWith scan s = .ok (field, rest)) :
    ∃ gap value, scanJSONString s = .ok (field.rawKey, gap) ∧
      decodeSmallString field.rawKey = .ok field.key ∧
      skipWhitespace gap = 58 :: value ∧ scan (skipWhitespace value) = .ok (field.value, rest) := by
  rw [scanMemberWith] at h
  cases hname : scanJSONString s with
  | error e => simp [hname, bind, Except.bind] at h
  | ok name =>
      cases hkey : decodeSmallString name.1 with
      | error e => simp [hname, hkey, bind, Except.bind] at h
      | ok key =>
          simp only [hname, hkey, bind, Except.bind] at h
          split at h
          · simp at h
          · split at h
            · rename_i b value hgap hb
              subst hb
              cases hvalue : scan (skipWhitespace value) with
              | error e => simp [hvalue] at h
              | ok spanned =>
                  simp only [hvalue, pure, Except.pure, Except.ok.injEq, Prod.mk.injEq] at h
                  obtain ⟨rfl, rfl⟩ := h
                  exact ⟨name.2, value, rfl, hkey, hgap, hvalue⟩
            · simp at h

theorem scanMemberWith_shortens {scan : GoString → Except LocalityError (GoString × GoString)}
    (hscan : ∀ {s span rest}, scan s = .ok (span, rest) → s = span ++ rest ∧ span ≠ [])
    {s rest : GoString} {field : JsonField} (h : scanMemberWith scan s = .ok (field, rest)) :
    rest.length < s.length := by
  obtain ⟨gap, value, hname, -, hgap, hvalue⟩ := scanMemberWith_eq_ok h
  have hs := (scanJSONString_append hname).1
  have hvalue := (hscan hvalue).1
  have hle := length_skipWhitespace_le gap
  have hle' := length_skipWhitespace_le value
  rw [hgap, List.length_cons] at hle
  rw [hvalue, List.length_append] at hle'
  rw [hs, List.length_append]
  omega

theorem scanMember_shortens {s rest : GoString} {field : JsonField}
    (h : scanMember s = .ok (field, rest)) : rest.length < s.length :=
  scanMemberWith_shortens (fun h => scanJSONValue_append h) h

/-- The text behind the comma that follows a value, `none` if the closing byte does. -/
def afterValue (close : UInt8) (message : String) (s : GoString) :
    Except LocalityError (Option GoString) :=
  match skipWhitespace s with
  | [] => .error (.text message)
  | b :: s => if b = 44 then .ok (some s) else if b = close then .ok none else .error (.text message)

theorem afterValue_shortens {close : UInt8} {message : String} {s rest : GoString}
    (h : afterValue close message s = .ok (some rest)) : rest.length < s.length := by
  have hle := length_skipWhitespace_le s
  rw [afterValue] at h
  split at h
  · simp at h
  · rename_i b t hskip
    rw [hskip, List.length_cons] at hle
    split at h
    · simp only [Except.ok.injEq, Option.some.injEq] at h
      rw [← h]
      omega
    · split at h <;> simp at h

/-- The loop of `parseObjectFieldsLimited`, with the number of fields it may still
take. -/
def parseFieldsFrom (maxFields : Option ℕ) (s : GoString) : Except LocalityError (List JsonField) :=
  match _hskip : skipWhitespace s with
  | [] => .error (.text "unterminated JSON object")
  | b :: t =>
      if b = 125 then .ok []
      else if maxFields = some 0 then .error .canonicalComplexity
      else match _hmember : scanMember (b :: t) with
        | .error e => .error e
        | .ok (field, rest) =>
            match _hafter : afterValue 125 "invalid JSON object separator" rest with
            | .error e => .error e
            | .ok none => .ok [field]
            | .ok (some rest) => (parseFieldsFrom (maxFields.map (· - 1)) rest).map (field :: ·)
termination_by s.length
decreasing_by
  have hle := length_skipWhitespace_le s
  have hlt := scanMember_shortens _hmember
  have hlt' := afterValue_shortens _hafter
  rw [_hskip] at hle
  omega

/-- `parseObjectFieldsLimited`; a negative limit is none. -/
def parseObjectFieldsLimited (raw : GoString) (maxFields : Option ℕ) :
    Except LocalityError (List JsonField) :=
  match Strings.trimSpace raw with
  | b :: c :: t =>
      if b = 123 then parseFieldsFrom maxFields (c :: t)
      else .error (.text "expected JSON object")
  | _ => .error (.text "expected JSON object")

/-- `parseObjectFields`. -/
def parseObjectFields (raw : GoString) : Except LocalityError (List JsonField) :=
  parseObjectFieldsLimited raw none

/-- The loop of `findObjectField`. -/
def findFieldFrom (name : GoString) (s : GoString) : Except LocalityError (Option GoString) :=
  match _hskip : skipWhitespace s with
  | [] => .error (.text "unterminated JSON object")
  | b :: t =>
      if b = 125 then .ok none
      else match _hmember : scanMember (b :: t) with
        | .error e => .error e
        | .ok (field, rest) =>
            if field.key = name then .ok (some field.value)
            else match _hafter : afterValue 125 "invalid JSON object separator" rest with
              | .error e => .error e
              | .ok none => .ok none
              | .ok (some rest) => findFieldFrom name rest
termination_by s.length
decreasing_by
  have hle := length_skipWhitespace_le s
  have hlt := scanMember_shortens _hmember
  have hlt' := afterValue_shortens _hafter
  rw [_hskip] at hle
  omega

/-- `findObjectField`. -/
def findObjectField (raw : GoString) (name : GoString) : Except LocalityError (Option GoString) :=
  match Strings.trimSpace raw with
  | b :: c :: t =>
      if b = 123 then findFieldFrom name (c :: t) else .error (.text "expected JSON object")
  | _ => .error (.text "expected JSON object")

section

variable {σ : Type}

/-- The loop of `forEachArrayValueWhile`. -/
def forEachFrom (shouldContinue : σ → Bool) (visit : GoString → Act LocalityError σ Unit)
    (s : GoString) : Act LocalityError σ Unit :=
  match _hskip : skipWhitespace s with
  | [] => Act.fail (.text "unterminated JSON array")
  | b :: t =>
      if b = 93 then pure ()
      else do
        let goOn ← Act.look shouldContinue
        Act.onlyIf (!goOn) (Act.fail .semanticCap)
        match _hitem : scanJSONValue (b :: t) with
        | .error e => Act.fail e
        | .ok (item, rest) =>
            visit item
            match _hafter : afterValue 93 "invalid JSON array separator" rest with
            | .error e => Act.fail e
            | .ok none => pure ()
            | .ok (some rest) => forEachFrom shouldContinue visit rest
termination_by s.length
decreasing_by
  have hle := length_skipWhitespace_le s
  have hlt := (scanJSONValue_append _hitem).1
  have hlt' := afterValue_shortens _hafter
  rw [_hskip, hlt, List.length_append] at hle
  omega

theorem forEachFrom_eq (shouldContinue : σ → Bool) (visit : GoString → Act LocalityError σ Unit)
    (s : GoString) : forEachFrom shouldContinue visit s = (
      match skipWhitespace s with
      | [] => Act.fail (.text "unterminated JSON array")
      | b :: t =>
          if b = 93 then pure ()
          else do
            let goOn ← Act.look shouldContinue
            Act.onlyIf (!goOn) (Act.fail .semanticCap)
            match scanJSONValue (b :: t) with
            | .error e => Act.fail e
            | .ok (item, rest) =>
                visit item
                match afterValue 93 "invalid JSON array separator" rest with
                | .error e => Act.fail e
                | .ok none => pure ()
                | .ok (some rest) => forEachFrom shouldContinue visit rest) := by
  rw [forEachFrom.eq_def]
  split
  · rename_i hskip
    rw [hskip]
  · rename_i b t hskip
    simp only [hskip]
    split
    · rfl
    · congr 1
      funext goOn
      congr 1
      funext _
      split
      · rename_i hitem
        rw [hitem]
      · rename_i hitem
        rw [hitem]
        simp only []
        congr 1
        funext _
        split
        · rename_i hafter
          rw [hafter]
        · rename_i hafter
          rw [hafter]
        · rename_i hafter
          rw [hafter]

/-- `forEachArrayValueWhile`. -/
def forEachArrayValueWhile (raw : GoString) (shouldContinue : σ → Bool)
    (visit : GoString → Act LocalityError σ Unit) : Act LocalityError σ Unit :=
  match Strings.trimSpace raw with
  | b :: c :: t =>
      if b = 91 then forEachFrom shouldContinue visit (c :: t)
      else Act.fail (.text "expected JSON array")
  | _ => Act.fail (.text "expected JSON array")

/-- `forEachArrayValue`. -/
def forEachArrayValue (raw : GoString) (visit : GoString → Act LocalityError σ Unit) :
    Act LocalityError σ Unit :=
  forEachArrayValueWhile raw (fun _ => true) visit

end

/-- What a loop over an array does with its items. -/
def visitAll {σ α : Type} (shouldContinue : σ → Bool) (visit : α → Act LocalityError σ Unit) :
    List α → Act LocalityError σ Unit
  | [] => pure ()
  | item :: items => do
      let goOn ← Act.look shouldContinue
      Act.onlyIf (!goOn) (Act.fail .semanticCap)
      visit item
      visitAll shouldContinue visit items

/-- The items of an array, as the loops over it find them. -/
def arrayItems (raw : GoString) : Except LocalityError (List GoString) :=
  match forEachArrayValue raw (fun item => Act.update (· ++ [item])) [] with
  | (.ok (), items) => .ok items
  | (.error e, _) => .error e

/-- `arrayHasValues`. -/
def arrayHasValues (raw : GoString) : Except LocalityError Bool :=
  match Strings.trimSpace raw with
  | b :: c :: t =>
      if b = 91 then
        match skipWhitespace (c :: t) with
        | [] => .error (.text "unterminated JSON array")
        | d :: _ => .ok (d != 93)
      else .error (.text "expected JSON array")
  | _ => .error (.text "expected JSON array")

/-- `fieldValue`. -/
def fieldValue (fields : List JsonField) (name : GoString) : Option GoString :=
  (fields.find? (·.key = name)).map JsonField.value

/-- `fieldsWithout`. -/
def fieldsWithout (fields : List JsonField) (name : GoString) : List JsonField :=
  fields.filter (·.key ≠ name)

/-! ### Canonical values -/

/-- `sort.Slice` by key, which need not keep the order of equal keys. -/
structure FieldSort where
  sort : List JsonField → List JsonField
  perm : ∀ fields, (sort fields).Perm fields
  sorted : ∀ fields, (sort fields).Pairwise fun x y => ¬y.key < x.key

/-- A sort that keeps the order of equal keys. -/
def mergeFields : FieldSort where
  sort fields := fields.mergeSort fun x y => !decide (y.key < x.key)
  perm fields := List.mergeSort_perm fields _
  sorted fields := by
    refine (List.pairwise_mergeSort ?_ ?_ fields).imp ?_
    · intro x y z hxy hyz
      simp only [Bool.not_eq_true', decide_eq_false_iff_not, List.not_lt] at *
      exact List.le_trans hxy hyz
    · intro x y
      simp only [Bool.or_eq_true, Bool.not_eq_true', decide_eq_false_iff_not, List.not_lt] at *
      exact List.le_total _ _
    · intro x y h
      simpa using h

section

variable (order : FieldSort) {σ : Type} (w : Writer σ)

/-- The loop of `writeCanonicalObjectAtDepth`; the flag tells the first field. -/
def writeFields (writeValue : GoString → Act LocalityError σ Unit) :
    Bool → List JsonField → Act LocalityError σ Unit
  | _, [] => pure ()
  | first, field :: fields => do
      w.checkCap
      Act.onlyIf (!first) (w.write [44])
      writeCanonicalJSONString w field.rawKey
      w.write [58]
      writeValue field.value
      writeFields writeValue false fields

/-- `writeCanonicalObjectAtDepth`, with what writes a value one level deeper. -/
def writeCanonicalObjectWith (writeValue : GoString → Act LocalityError σ Unit)
    (fields : List JsonField) : Act LocalityError σ Unit := do
  w.checkCap
  w.write [123]
  writeFields w writeValue true (order.sort fields)
  w.write [125]

/-- The visitor of an array in `writeCanonicalJSONAtDepth`; the variable is `first`. -/
def writeElement (writeValue : GoString → Act LocalityError σ Unit) (value : GoString) :
    Act LocalityError (σ × Bool) Unit := do
  let first ← Act.look Prod.snd
  Act.onlyIf (!first) (Act.outer (w.write [44]))
  Act.update fun s => (s.1, false)
  Act.outer (writeValue value)

/-- `writeCanonicalJSONAtDepth`, with the number of levels that are left: none at a
depth greater than `maxJSONDepth`. -/
def writeCanonicalAt : ℕ → GoString → Act LocalityError σ Unit
  | left, raw => do
      w.checkCap
      w.checkNodes 1
      match Strings.trimSpace raw, left with
      | [], _ => Act.fail (.text "empty JSON value")
      | b :: t, 0 =>
          if b = 123 ∨ b = 91 then Act.fail .jsonDepthLimit
          else if b = 34 then writeCanonicalJSONString w (b :: t)
          else w.write (b :: t)
      | b :: t, left + 1 =>
          if b = 123 then
            let remaining ← Act.look w.canonicalNodesRemaining
            let fields ← Act.lift (parseObjectFieldsLimited (b :: t) remaining)
            w.checkNodes fields.length
            writeCanonicalObjectWith order w (writeCanonicalAt left) fields
          else if b = 91 then
            w.write [91]
            Act.withVar true (forEachArrayValueWhile (b :: t)
              (fun s => !w.semanticCapReached s.1) (writeElement w (writeCanonicalAt left)))
            w.write [93]
          else if b = 34 then writeCanonicalJSONString w (b :: t)
          else w.write (b :: t)

/-- `writeCanonicalJSON`. -/
def writeCanonicalJSON (raw : GoString) : Act LocalityError σ Unit :=
  writeCanonicalAt order w maxJSONDepth raw

/-- `writeCanonicalObject`. -/
def writeCanonicalObject (fields : List JsonField) : Act LocalityError σ Unit :=
  writeCanonicalObjectWith order w (writeCanonicalAt order w (maxJSONDepth - 1)) fields

end

/-! ### Tools -/

def maxTools : ℕ := 64

def maxToolIdentityBytes : ℕ := 8192

/-- `normalizeOptionalString`; a missing string is empty. -/
def normalizeOptionalString (raw : GoString) : GoString :=
  let raw := Strings.trimSpace raw
  if raw = bytes "null" then [] else raw

/-- `toolIdentityFields`. -/
def toolIdentityFields (rawTool : GoString) : Except LocalityError (GoString × GoString) := do
  let typeRaw ← findObjectField rawTool (bytes "type")
  let functionRaw ← findObjectField rawTool (bytes "function")
  return (normalizeOptionalString (typeRaw.getD []), Strings.trimSpace (functionRaw.getD []))

/-- `functionNameField`. -/
def functionNameField (rawFunction : GoString) : Except LocalityError GoString :=
  if rawFunction = [] ∨ rawFunction = bytes "null" then .ok []
  else (findObjectField rawFunction (bytes "name")).map fun nameRaw =>
    normalizeOptionalString (nameRaw.getD [])

/-- `optionalDecodedStringLength`. -/
def optionalDecodedStringLength (raw : GoString) (limit : ℕ) : Except LocalityError ℕ :=
  if raw = [] then .ok 0
  else if isJSONString raw then
    match writeDecodedJSONString identityLengthWriter raw ⟨limit, 0⟩ with
    | (.ok (), counter) => .ok counter.written
    | (.error e, _) => .error e
  else .error (.text "tool identity field must be a string")

section

variable {σ : Type} (w : Writer σ)

/-- The numbers of tools and of bytes that `writeToolIdentities` has written. -/
structure ToolCount where
  tools : ℕ
  identityBytes : ℕ

/-- The visitor of `writeToolIdentities`. -/
def writeToolIdentity (rawTool : GoString) : Act LocalityError (σ × ToolCount) Unit := do
  let count ← Act.look Prod.snd
  Act.onlyIf (maxTools ≤ count.tools ∨ maxToolIdentityBytes - count.identityBytes < 9)
    (Act.fail .toolIdentityCap)
  let (typeRaw, functionRaw) ← Act.lift (toolIdentityFields rawTool)
  let nameRaw ← Act.lift (functionNameField functionRaw)
  let remaining := maxToolIdentityBytes - count.identityBytes - 9
  let typeLength ← Act.lift (optionalDecodedStringLength typeRaw remaining)
  let nameLength ← Act.lift (optionalDecodedStringLength nameRaw (remaining - typeLength))
  let encodedLength := 9 + typeLength + nameLength
  Act.onlyIf (encodedLength > maxToolIdentityBytes - count.identityBytes)
    (Act.fail .toolIdentityCap)
  let flags : UInt8 := (if typeRaw = [] then 0 else 1) + (if nameRaw = [] then 0 else 2)
  Act.outer (w.write (flags :: (putUint32 (UInt32.ofNat typeLength) ++
    putUint32 (UInt32.ofNat nameLength))))
  Act.onlyIf (typeRaw ≠ []) (Act.outer (writeDecodedJSONString w typeRaw))
  Act.onlyIf (nameRaw ≠ []) (Act.outer (writeDecodedJSONString w nameRaw))
  Act.update fun s => (s.1, ⟨s.2.tools + 1, s.2.identityBytes + encodedLength⟩)

/-- `writeToolIdentities`. -/
def writeToolIdentities (rawTools : GoString) : Act LocalityError σ Unit := fun s =>
  let result := Act.withVar ⟨0, 0⟩ (forEachArrayValueWhile rawTools
    (fun s => !w.semanticCapReached s.1) (writeToolIdentity w)) s
  match result.1 with
  | .error .toolIdentityCap => (.ok (), result.2)
  | _ => result

end

/-! ### Messages -/

def maxCanonicalNodes : ℕ := 16384

inductive MessageContentKind
  | absent
  | null
  | string
  | structuredText

def MessageContentKind.code : MessageContentKind → UInt8
  | .absent => 0
  | .null => 1
  | .string => 2
  | .structuredText => 3

/-- `hasTopLevelMultimodal`. -/
def hasTopLevelMultimodal (fields : List JsonField) : Bool :=
  [bytes "audio", bytes "input_audio", bytes "image", bytes "image_url", bytes "video",
    bytes "video_url"].any fun name =>
      let value := Strings.trimSpace ((fieldValue fields name).getD [])
      value != [] && value != bytes "null"

/-- `classifyMessageContent`, `none` if the content is not supported. -/
def classifyMessageContent (raw : GoString) : Option (GoString × MessageContentKind) :=
  match Strings.trimSpace raw with
  | [] => some ([], .absent)
  | b :: t =>
      if b :: t = bytes "null" then some (b :: t, .null)
      else if isJSONString (b :: t) then some (b :: t, .string)
      else if b = 91 then some (b :: t, .structuredText)
      else none

section

variable (order : FieldSort) {σ : Type} (w : Writer σ)

/-- The visitor of `writeStructuredTextContent`; the variable is `first`. -/
def writeTextPart (rawPart : GoString) : Act LocalityError (σ × Bool) Unit := do
  let first ← Act.look Prod.snd
  Act.onlyIf (!first) (Act.outer do
    w.write [44]
    w.checkCap)
  Act.update fun s => (s.1, false)
  let remaining ← Act.look fun s => w.canonicalNodesRemaining s.1
  Act.onlyIf (remaining = some 0) (Act.fail .canonicalComplexity)
  let fields ← Act.lift (parseObjectFieldsLimited rawPart (remaining.map (· - 1)))
  Act.outer (w.checkNodes (fields.length + 1))
  if decodeSmallString ((fieldValue fields (bytes "type")).getD []) = .ok (bytes "text") ∧
      isJSONString ((fieldValue fields (bytes "text")).getD []) then
    Act.outer (writeCanonicalObject order w fields)
  else Act.fail .unsupportedContent

/-- `writeStructuredTextContent`. -/
def writeStructuredTextContent (raw : GoString) : Act LocalityError σ Unit := do
  w.checkNodes 1
  w.write [91]
  Act.withVar true (forEachArrayValueWhile raw (fun s => !w.semanticCapReached s.1)
    (writeTextPart order w))
  w.write [93]

/-- `writeMessageContent`. -/
def writeMessageContent (content : GoString) : MessageContentKind → Act LocalityError σ Unit
  | .absent => pure ()
  | .string => writeDecodedJSONString w content
  | .null => w.write content
  | .structuredText => writeStructuredTextContent order w content

end

/-- A failure with `errSemanticCap` is none: the text ends there. -/
def exceptCap {α : Type} (r : Except LocalityError Unit × α) : Except LocalityError α :=
  match r with
  | (.ok (), a) => .ok a
  | (.error e, a) => if e = .semanticCap then .ok a else .error e

section

variable (sum64 : GoString → UInt64) (order : FieldSort)

/-- The variables of `extractChat`. -/
structure ChatState where
  progress : Progress
  messageCanonicalNodes : ℕ

/-- The segment of a message: its metadata once more, up to where the domain hash has
read it, and its content. -/
def writeSegment (metadata : List JsonField) (content : GoString) (kind : MessageContentKind)
    (domain : Bounded GoString) (metadataNodes : ℕ) : Act LocalityError ChatState Unit := fun state =>
  let builder := newSegmentBuilder state.progress .message (sum64 domain.target)
  let written := writeCanonicalObject order (canonicalBudgetWriter (boundedWriter
    (segmentWriter sum64))) metadata ⟨⟨builder, domain.written, 0⟩, metadataNodes⟩
  match written.1 with
  | .error e => (.error e, { state with progress := (close e written.2.target.target).progress })
  | .ok () =>
      let written := writeMessageContent order (canonicalBudgetWriter (segmentWriter sum64))
        content kind ⟨written.2.target.target, state.messageCanonicalNodes⟩
      match written.1 with
      | .error e => (.error e, { state with progress := (close e written.2.target).progress })
      | .ok () => (.ok (), ⟨(written.2.target.finish sum64).progress, written.2.remaining⟩)
where
  close (e : LocalityError) (builder : SegmentBuilder) : SegmentBuilder :=
    if e = .semanticCap then builder.finish sum64 else builder

/-- The visitor of `extractChat`. -/
def visitMessage (rawMessage : GoString) : Act LocalityError ChatState Unit := do
  let nodes ← Act.look ChatState.messageCanonicalNodes
  Act.onlyIf (nodes ≤ 1) (Act.fail .canonicalComplexity)
  let fields ← Act.lift (parseObjectFieldsLimited rawMessage (some (nodes - 1)))
  Act.update fun s => { s with messageCanonicalNodes := nodes - (fields.length + 1) }
  Act.onlyIf (hasTopLevelMultimodal fields) (Act.fail .unsupportedContent)
  match classifyMessageContent ((fieldValue fields (bytes "content")).getD []) with
  | none => Act.fail .unsupportedContent
  | some (content, kind) => do
      let metadata := fieldsWithout fields (bytes "content")
      let state ← Act.look id
      let metadataLimit := min ((maxPrefixTokens - state.progress.totalTokens) * 4)
        (state.progress.budget.remainingBytes 0)
      let domain ← Act.lift (exceptCap (writeCanonicalObject order (canonicalBudgetWriter
        (boundedWriter hasher)) metadata
          ⟨⟨[kind.code], metadataLimit, 0⟩, state.messageCanonicalNodes⟩))
      Act.update fun s => { s with messageCanonicalNodes := domain.remaining }
      writeSegment sum64 order metadata content kind domain.target
        (state.messageCanonicalNodes - domain.remaining)

/-- The tools of `extractChat`, `none` if they are too complex. -/
def extractTools (rawTools : GoString) (toolMode : ToolMode) (progress : Progress) :
    Except LocalityError (Option Progress) :=
  if toolMode = .none ∨ rawTools = [] ∨ Strings.trimSpace rawTools = bytes "null" then
    .ok (some progress)
  else do
    if ← arrayHasValues rawTools then
      let builder := newSegmentBuilder progress .tools 0
      match toolMode with
      | .identity => do
          let builder ← exceptCap (writeToolIdentities (segmentWriter sum64) rawTools builder)
          return some (builder.finish sum64).progress
      | .full =>
          match writeCanonicalJSON order (canonicalBudgetWriter (segmentWriter sum64)) rawTools
            ⟨builder, maxCanonicalNodes⟩ with
          | (.error .canonicalComplexity, _) => return none
          | (.error .jsonDepthLimit, _) => return none
          | result => do
              let writer ← exceptCap result
              return some (writer.target.finish sum64).progress
      | mode => .error (.unsupportedToolMode mode)
    else return some progress

/-- `extractChat`, `none` if the content is not supported. -/
def extractChat (rawMessages rawTools : GoString) (seed : UInt64) (toolMode : ToolMode)
    (budget : BlockBudget) : Except LocalityError (Option (List (List Block))) := do
  match ← extractTools sum64 order rawTools toolMode ⟨[], seed, 0, budget⟩ with
  | none => return none
  | some progress =>
      match forEachArrayValueWhile rawMessages
        (fun s => s.progress.totalTokens < maxPrefixTokens && !s.progress.budget.exhausted)
        (visitMessage sum64 order) ⟨progress, maxCanonicalNodes⟩ with
      | (.error .unsupportedContent, _) => return none
      | result => do
          let state ← exceptCap result
          return some [state.progress.chain]

end

/-! ### Prompts -/

/-- `parseUint32`. -/
def parseUint32 (raw : GoString) : Option UInt32 :=
  let raw := Strings.trimSpace raw
  if raw = [] ∨ (1 < raw.length ∧ raw.head? = some 48) then none
  else raw.foldlM (fun value digit =>
    if digit < 48 ∨ 57 < digit then none
    else
      let next := (digit - 48).toUInt32
      if (0xFFFFFFFF - next) / 10 < value then none else some (value * 10 + next)) 0

/-- `validateTokenIDArray`. -/
def validateTokenIDArray (raw : GoString) : Except LocalityError Unit :=
  (forEachArrayValue raw (fun item =>
    if (parseUint32 item).isSome then pure ()
    else Act.fail (.text "prompt token ID is invalid")) ()).1

/-- `tokenChainBuilder`; the budget is passed on. -/
structure TokenChainBuilder where
  chain : List Block
  buffer : List UInt32
  total : ℕ
  previous : UInt64

/-- What the items of a prompt array are, from its first one on. -/
inductive PromptMode
  | strings
  | batches
  | numbers
  deriving DecidableEq

/-- The variables of `extractCompletion`. -/
structure PromptState where
  chains : List (List Block)
  tokenBuilder : TokenChainBuilder
  mode : Option PromptMode
  budget : BlockBudget

section

variable (sum64 : GoString → UInt64)

/-- `tokenChainBuilder.flush`. -/
def TokenChainBuilder.flush (b : TokenChainBuilder) (budget : BlockBudget) :
    TokenChainBuilder × BlockBudget :=
  if b.buffer = [] ∨ budget.exhausted then ({ b with buffer := [] }, budget)
  else
    let contentHash := sum64 (b.buffer.flatMap putUint32)
    let previous := chainedHash sum64 .completionTokens b.buffer.length contentHash 0 b.previous
    ({ b with
        chain := b.chain ++ [⟨previous, Int64.ofNat b.buffer.length⟩]
        previous := previous
        buffer := [] }, budget.consume)

/-- `appendNumberBytes`. -/
def appendNumberBytes (raw : GoString) : Act LocalityError PromptState Unit := do
  let state ← Act.look id
  Act.onlyIf (maxPrefixTokens ≤ state.tokenBuilder.total ∨ state.budget.exhausted)
    (Act.fail .semanticCap)
  match parseUint32 raw with
  | none => Act.fail (.text "prompt token ID is invalid")
  | some value =>
      let builder := { state.tokenBuilder with
        buffer := state.tokenBuilder.buffer ++ [value]
        total := state.tokenBuilder.total + 1 }
      let flushed :=
        if builder.buffer.length = state.budget.blockTokens then builder.flush sum64 state.budget
        else (builder, state.budget)
      Act.update fun s => { s with tokenBuilder := flushed.1, budget := flushed.2 }

/-- The chain of one prompt text. -/
def promptChain (raw : GoString) (seed : UInt64) (budget : BlockBudget) :
    Except LocalityError (List Block × BlockBudget) :=
  match writeDecodedJSONString (segmentWriter sum64) raw
    (newSegmentBuilder ⟨[], seed, 0, budget⟩ .completionText 0) with
  | (.error e, _) => .error e
  | (.ok (), builder) =>
      let progress := (builder.finish sum64).progress
      .ok (progress.chain, progress.budget)

/-- The kind of a prompt array that starts with this item. -/
def promptMode (item : GoString) : PromptMode :=
  if isJSONString item then .strings
  else if item.head? = some 91 then .batches
  else .numbers

/-- The visitor of `extractCompletion`. -/
def visitPrompt (seed : UInt64) (item : GoString) : Act LocalityError PromptState Unit := do
  let item := Strings.trimSpace item
  Act.update fun s => { s with mode := some (s.mode.getD (promptMode item)) }
  let state ← Act.look id
  match state.mode with
  | some .strings =>
      if isJSONString item then
        let result ← Act.lift (promptChain sum64 item seed state.budget)
        Act.update fun s => { s with chains := s.chains ++ [result.1], budget := result.2 }
      else Act.fail (.text "prompt contains mixed types")
  | some .batches =>
      if item.head? = some 91 then Act.lift (validateTokenIDArray item)
      else Act.fail (.text "prompt contains mixed types")
  | _ =>
      if isJSONString item ∨ item.head? = some 91 then
        Act.fail (.text "prompt contains mixed types")
      else if maxPrefixTokens ≤ state.tokenBuilder.total ∨ state.budget.exhausted then
        Act.fail .semanticCap
      else appendNumberBytes sum64 item

/-- `extractCompletion`, `none` if the prompt is not supported. -/
def extractCompletion (raw : GoString) (seed : UInt64) (budget : BlockBudget) :
    Except LocalityError (Option (List (List Block))) :=
  let trimmed := Strings.trimSpace raw
  if isJSONString trimmed then
    (promptChain sum64 trimmed seed budget).map fun result => some [result.1]
  else if trimmed.head? ≠ some 91 then .error (.text "prompt must be a string or an array")
  else do
    let state ← exceptCap (forEachArrayValueWhile trimmed (fun s => !s.budget.exhausted)
      (visitPrompt sum64 seed) ⟨[], ⟨[], [], 0, seed⟩, none, budget⟩)
    match state.mode with
    | some .numbers =>
        return some (state.chains ++ [(state.tokenBuilder.flush sum64 state.budget).1.chain])
    | some .batches => return none
    | _ => return some state.chains

end

/-! ### Requests -/

/-- The model of a member whose value has to be a string that is not empty. -/
def requiredModel (raw : GoString) : Except LocalityError GoString :=
  match decodeSmallString raw with
  | .error _ => .error (.text "model is required")
  | .ok model => if model = [] then .error (.text "model is required") else .ok model

/-- The loop of `extractModelFromDeepEnvelope`, with the model found so far. -/
def deepModelFrom (model : GoString) (s : GoString) : Except LocalityError GoString :=
  match _hskip : skipWhitespace s with
  | [] => .error (.text "unterminated JSON object")
  | b :: t =>
      if b = 125 then
        if skipWhitespace t ≠ [] ∨ model = [] then .error (.text "model is required") else .ok model
      else match _hmember : scanMemberWith scanJSONValueUnbounded (b :: t) with
        | .error e => .error e
        | .ok (field, rest) =>
            match if field.key = bytes "model" then requiredModel field.value else .ok model with
            | .error e => .error e
            | .ok model =>
                match _hafter : skipWhitespace rest with
                | [] => .error (.text "invalid JSON object separator")
                | c :: after =>
                    if c = 44 then deepModelFrom model after
                    -- the closing brace is read again, by the next turn of the loop
                    else if c = 125 then deepModelFrom model (c :: after)
                    else .error (.text "invalid JSON object separator")
termination_by s.length
decreasing_by
  all_goals
    have hle := length_skipWhitespace_le s
    have hlt := scanMemberWith_shortens (fun h => scanJSONValueUnbounded_append h) _hmember
    have hle' := length_skipWhitespace_le rest
    rw [_hskip] at hle
    rw [_hafter, List.length_cons] at hle'
    simp only [List.length_cons] at *
    omega

/-- `extractModelFromDeepEnvelope`. -/
def extractModelFromDeepEnvelope (raw : GoString) : Except LocalityError GoString :=
  match skipWhitespace raw with
  | [] => .error (.text "expected JSON object")
  | b :: s => if b = 123 then deepModelFrom [] s else .error (.text "expected JSON object")

/-- `Options`. -/
structure Options where
  toolMode : ToolMode
  maxBlocks : ℤ
  blockSizeTokens : ℤ

/-- What `InspectRequestWithOptions` returns; a locality is its chains. -/
structure Inspection where
  model : GoString
  locality : Option (List (List Block))
  supported : Bool
  err : Option LocalityError

/-- A request that is turned away. -/
def Inspection.rejected (e : LocalityError) : Inspection := ⟨[], none, false, some e⟩

/-- What is said of a request whose model is known. -/
def Inspection.accepted (model : GoString) :
    Except LocalityError (Option (List (List Block))) → Inspection
  | .error .canonicalComplexity => ⟨model, none, false, none⟩
  | .error .jsonDepthLimit => ⟨model, none, false, none⟩
  | .error e => ⟨model, none, false, some e⟩
  | .ok none => ⟨model, none, false, none⟩
  | .ok (some chains) => ⟨model, some chains, true, none⟩

section

variable (sum64 : GoString → UInt64) (order : FieldSort)

/-- `decodedStringLength`. -/
def decodedStringLength (raw : GoString) : Except LocalityError ℕ :=
  match writeDecodedJSONString countingWriter raw 0 with
  | (.ok (), written) => .ok written
  | (.error e, _) => .error e

/-- `namespaceHash`. -/
def namespaceHash (modelRaw : GoString) (modelLength : ℕ) (cacheSaltRaw : Option GoString) :
    Except LocalityError UInt64 :=
  match hashed [] with
  | (.ok (), data) => .ok (sum64 data)
  | (.error e, _) => .error e
where
  hashed : Act LocalityError GoString Unit := do
    hasher.write (putUint64 (UInt64.ofNat modelLength))
    writeDecodedJSONString hasher modelRaw
    match cacheSaltRaw with
    | none => hasher.write (putUint64 0)
    | some raw =>
        let cacheSaltLength ← Act.lift (decodedStringLength raw)
        hasher.write (putUint64 (UInt64.ofNat cacheSaltLength))
        writeDecodedJSONString hasher raw

/-- `inspectValidatedRequest`. -/
def inspectValidatedRequest (body : GoString) (options : Options) : Inspection :=
  match parseObjectFields body with
  | .error e => .rejected e
  | .ok fields =>
      let modelRaw := (fieldValue fields (bytes "model")).getD []
      match requiredModel modelRaw with
      | .error e => .rejected e
      | .ok model =>
          let cacheSaltRaw := (fieldValue fields (bytes "cache_salt")).filter
            fun raw => Strings.trimSpace raw ≠ bytes "null"
          match namespaceHash sum64 modelRaw model.length cacheSaltRaw with
          | .error e => .rejected e
          | .ok seed =>
              let budget : BlockBudget := ⟨options.maxBlocks.toNat, options.blockSizeTokens.toNat⟩
              match fieldValue fields (bytes "messages"), fieldValue fields (bytes "prompt") with
              | some messages, _ =>
                  .accepted model (extractChat sum64 order messages
                    ((fieldValue fields (bytes "tools")).getD []) seed options.toolMode budget)
              | none, some prompt => .accepted model (extractCompletion sum64 prompt seed budget)
              | none, none => ⟨model, none, false, none⟩

/-- The options with their defaults. -/
def Options.withDefaults (options : Options) : Options where
  toolMode := if options.toolMode = .unset then .identity else options.toolMode
  maxBlocks := if options.maxBlocks = 0 then 32 else options.maxBlocks
  blockSizeTokens := if options.blockSizeTokens = 0 then 1024 else options.blockSizeTokens

/-- What is wrong with options that have their defaults. -/
def Options.problem (options : Options) : Option LocalityError :=
  if options.toolMode ≠ .none ∧ options.toolMode ≠ .identity ∧ options.toolMode ≠ .full then
    some (.unsupportedToolMode options.toolMode)
  else if options.maxBlocks < 1 ∨ 128 < options.maxBlocks then
    some (.text "max blocks must be in [1,128]")
  else if options.blockSizeTokens < 1 ∨ 1024 < options.blockSizeTokens then
    some (.text "block size tokens must be in [1,1024]")
  else none

/-- `json.Valid`. -/
def jsonValid (body : GoString) : Bool := (Json.unmarshal body).isSome

/-- `InspectRequestWithOptions`. -/
def inspectRequestWithOptions (body : GoString) (options : Options) : Inspection :=
  let options := options.withDefaults
  match options.problem with
  | some e => .rejected e
  | none =>
      let start := skipWhitespace body
      if start.head? ≠ some 123 then .rejected (.text "expected JSON object")
      else match scanJSONValue start with
        | .error .jsonDepthLimit =>
            match extractModelFromDeepEnvelope body with
            | .error e => .rejected e
            | .ok model => ⟨model, none, false, none⟩
        | .error _ => .rejected (.text "invalid JSON request")
        | .ok (_, rest) =>
            if skipWhitespace rest ≠ [] ∨ !jsonValid body then
              .rejected (.text "invalid JSON request")
            else inspectValidatedRequest sum64 order body options

end

end Higress.Picker
