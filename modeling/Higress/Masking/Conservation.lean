import Higress.Masking.Window

/-!
What a response carries is conserved by its windows. While the callback that
inspects the texts accepts and changes nothing, every choice gets its texts as
they came, everything else comes out once and in order, and a finish reason
comes out behind the texts of its choice.

The frames that are written and the frames that the queue holds are one list
that only grows. With the texts that still wait in the windows it accounts for
all events so far.
-/

namespace Higress.Masking

open Lib Wasm

/-! ### What values and frames carry -/

/-- The bytes of a text with its field. -/
def tag (flag : MsgFlag) (text : Text) : List (MsgFlag × UInt8) := text.map fun b => (flag, b)

/-- A text of the delta of a choice. -/
def strOf (choice : Value) (field : Text) : Text :=
  match ((choice.index (bytes "delta")).index field).asStr with
  | some s => s.1
  | none => []

/-- The texts of a choice. -/
def choiceText (choice : Value) : List (MsgFlag × UInt8) :=
  textFlags.flatMap fun f => tag f.2 (strOf choice f.1)

/-- The role in the delta of a choice. -/
def choiceRole (choice : Value) : List Value :=
  ((choice.index (bytes "delta")).get (bytes "role")).toList

/-- What the choices with the number `i` carry. -/
def carriedBy {α : Type*} (f : Value → List α) (i : ℤ) (choices : List Value) : List α :=
  choices.flatMap fun choice => if choiceIndex choice = i then f choice else []

/-- What a value carries for the choice `i`. -/
def carried {α : Type*} (f : Value → List α) (i : ℤ) (v : Value) : List α :=
  carriedBy f i ((v.index (bytes "choices")).asArray.getD [])

section Parse

variable (parse : Text → Option Value)

/-- The value of an event; the end of the stream has none. -/
def eventValue (event : Text) : Option Value :=
  if isDone event then none else (eventData event).bind parse

/-- What an event carries for the choice `i`. -/
def carriedEvent {α : Type*} (f : Value → List α) (i : ℤ) (event : Text) : List α :=
  match eventValue parse event with
  | some v => carried f i v
  | none => []

/-- What a frame carries for the choice `i`. -/
def carriedFrame {α : Type*} (f : Value → List α) (i : ℤ) : Frame → List α
  | .event e => carriedEvent parse f i e
  | .control v => carried f i v
  | .text v => carried f i v
  | .done => []

/-- What frames carry for the choice `i`. -/
def carriedOut {α : Type*} (f : Value → List α) (i : ℤ) (fs : List Frame) : List α :=
  fs.flatMap (carriedFrame parse f i)

/-- What a choice of an event with text leaves for the frame that follows. -/
def controlPart (choice : Value) : Option Value :=
  if hasText choice then
    if hasControl (controlOf choice) then some (controlOf choice) else none
  else some choice

/-- The frame of an event apart from its texts: the event itself if it has none. -/
def controlFrame (event : Text) : Option Frame :=
  if isDone event then none
  else
    match ((eventValue parse event).bind choicesOf), eventValue parse event with
    | some choices, some res =>
        if choices.all fun choice => !hasText choice then some (.event event)
        else
          let controls := choices.filterMap controlPart
          if controls ≠ [] ∨ !(res.index (bytes "usage")).isNull ∨ hasExtraFields res then
            some (.control (res.set (bytes "choices") (.array controls)))
          else none
    | _, _ => some (.event event)

/-- A frame that is no text of a window. -/
def isControl : Frame → Bool
  | .event _ => true
  | .control _ => true
  | _ => false

def isDoneFrame : Frame → Bool
  | .done => true
  | _ => false

@[simp] theorem carriedOut_append {α : Type*} (f : Value → List α) (i : ℤ) (fs gs : List Frame) :
    carriedOut parse f i (fs ++ gs) = carriedOut parse f i fs ++ carriedOut parse f i gs := by
  simp [carriedOut]

@[simp] theorem carriedOut_nil {α : Type*} (f : Value → List α) (i : ℤ) :
    carriedOut parse f i [] = [] := rfl

@[simp] theorem carriedBy_append {α : Type*} (f : Value → List α) (i : ℤ) (cs ds : List Value) :
    carriedBy f i (cs ++ ds) = carriedBy f i cs ++ carriedBy f i ds := by
  simp [carriedBy]

@[simp] theorem carriedBy_cons {α : Type*} (f : Value → List α) (i : ℤ) (c : Value)
    (cs : List Value) :
    carriedBy f i (c :: cs) = (if choiceIndex c = i then f c else []) ++ carriedBy f i cs := by
  simp [carriedBy]

@[simp] theorem carriedBy_nil {α : Type*} (f : Value → List α) (i : ℤ) :
    carriedBy f i [] = [] := rfl

end Parse

/-! ### Members of values -/

theorem Value.lookup_insertField (fields : List (Text × Value)) (name k : Text) (v : Value) :
    (Value.insertField name v fields).lookup k = if k = name then some v else fields.lookup k := by
  induction fields with
  | nil => rw [insertField, SortedMap.lookup_entry]
  | cons field fields ih =>
      rw [insertField]
      split
      · rename_i heq
        rw [SortedMap.lookup_entry, SortedMap.lookup_entry, heq]
        split <;> rfl
      · rename_i hne
        rw [SortedMap.lookup_entry, SortedMap.lookup_entry, ih]
        by_cases h : k = field.1
        · have hk : k ≠ name := fun hk => hne (h ▸ hk)
          rw [if_pos h, if_neg hk, if_pos h]
        · simp [h]

theorem Value.lookup_removeField (fields : List (Text × Value)) (name k : Text) :
    (Value.removeField name fields).lookup k = if k = name then none else fields.lookup k :=
  SortedMap.lookup_filter_ne name k fields

/-! ### Texts and what is left without them -/

theorem strOf_of_deltaText {choice : Value} {field : Text} {text : Str}
    (h : deltaText choice field = some text) : strOf choice field = text.1 ∧ text.1 ≠ [] := by
  obtain ⟨hstr, hne⟩ := Option.filter_eq_some_iff.mp h
  rw [strOf, hstr]
  exact ⟨rfl, by simpa using hne⟩

theorem strOf_of_deltaText_none {choice : Value} {field : Text}
    (h : deltaText choice field = none) : strOf choice field = [] := by
  rw [deltaText, Option.filter_eq_none_iff] at h
  rw [strOf]
  cases hstr : ((choice.index (bytes "delta")).index field).asStr with
  | none => rfl
  | some text => simpa using h text hstr

theorem choiceText_eq (choice : Value) :
    choiceText choice = tag .reasoningContent (strOf choice (bytes "reasoning_content")) ++
      tag .content (strOf choice (bytes "content")) := by
  simp [choiceText, textFlags]

theorem choiceText_of_not_hasText {choice : Value} (h : hasText choice = false) :
    choiceText choice = [] := by
  simp only [hasText, List.any_cons, List.any_nil, Bool.or_false, Bool.or_eq_false_iff,
    Option.isSome_eq_false_iff, Option.isNone_iff_eq_none] at h
  rw [choiceText_eq, strOf_of_deltaText_none h.1, strOf_of_deltaText_none h.2]
  rfl

theorem lookup_removeNull {fields : List (Text × Value)} {field k : Text} (h : k ≠ field) :
    (removeNull fields field).lookup k = fields.lookup k := by
  rw [removeNull]
  split
  · rw [Value.lookup_removeField, if_neg h]
  · rfl

theorem lookup_removeText {delta : List (Text × Value)} {field k : Text} (h : k ≠ field) :
    (removeText delta field).lookup k = delta.lookup k := by
  rw [removeText]
  split
  · rw [Value.lookup_removeField, if_neg h]
  · rw [Value.lookup_removeField, if_neg h]
  · rfl

theorem lookup_removeText_self (delta : List (Text × Value)) (field : Text) (s : Str) :
    (removeText delta field).lookup field ≠ some (.string s) := by
  rw [removeText]
  split
  · simp [Value.lookup_removeField]
  · simp [Value.lookup_removeField]
  · rename_i hstr _
    exact hstr s

/-- A choice with text is an object with an object for its delta. -/
theorem exists_of_hasText {choice : Value} (h : hasText choice = true) :
    ∃ fields delta, choice = .object fields ∧
      fields.lookup (bytes "delta") = some (.object delta) := by
  have hdelta : ∃ field text, deltaText choice field = some text := by
    simp only [hasText, List.any_cons, List.any_nil, Bool.or_false, Bool.or_eq_true,
      Option.isSome_iff_exists] at h
    exact h.elim (fun h => ⟨_, h⟩) (fun h => ⟨_, h⟩)
  obtain ⟨field, text, htext⟩ := hdelta
  have hstr := (Option.filter_eq_some_iff.mp htext).1
  cases choice with
  | object fields =>
      cases hlookup : fields.lookup (bytes "delta") with
      | none => simp [Value.index, Value.get, hlookup, Value.asStr] at hstr
      | some delta =>
          cases delta with
          | object delta => exact ⟨fields, delta, rfl, hlookup⟩
          | _ => simp [Value.index, Value.get, hlookup, Value.asStr] at hstr
  | _ => simp [Value.index, Value.get, Value.asStr] at hstr

/-- The delta that is left of a choice with text. -/
def controlDelta (delta : List (Text × Value)) : List (Text × Value) :=
  Value.removeField (bytes "role")
    (removeText (removeText delta (bytes "reasoning_content")) (bytes "content"))

/-- What is left of a choice with text differs from it in the delta, and in
members that are null. -/
theorem index_controlOf {fields delta : List (Text × Value)}
    (h : fields.lookup (bytes "delta") = some (.object delta)) {k : Text}
    (hlogprobs : k ≠ bytes "logprobs") (htoken : k ≠ bytes "token_ids") :
    (controlOf (.object fields)).get k =
      if k = bytes "delta" then some (.object (controlDelta delta)) else fields.lookup k := by
  rw [controlOf, h]
  simp only [Value.get, List.foldl_cons, List.foldl_nil]
  rw [lookup_removeNull htoken, lookup_removeNull hlogprobs, Value.lookup_insertField]
  rfl

theorem strOf_controlOf {choice : Value} (h : hasText choice = true) {field : Text}
    (hfield : field = bytes "reasoning_content" ∨ field = bytes "content") :
    strOf (controlOf choice) field = [] := by
  obtain ⟨fields, delta, rfl, hdelta⟩ := exists_of_hasText h
  have hrole : field ≠ bytes "role" := by
    rcases hfield with rfl | rfl <;> decide
  have hstr : ∀ s, (controlDelta delta).lookup field ≠ some (.string s) := by
    intro s
    rw [controlDelta, Value.lookup_removeField, if_neg hrole]
    rcases hfield with rfl | rfl
    · rw [lookup_removeText (by decide)]
      exact lookup_removeText_self delta _ s
    · exact lookup_removeText_self _ _ s
  rw [strOf, Value.index, Value.index, index_controlOf hdelta (by decide) (by decide), if_pos rfl]
  simp only [Option.getD_some, Value.get]
  cases hlookup : (controlDelta delta).lookup field with
  | none => rfl
  | some v =>
      cases v with
      | string s => exact absurd hlookup (hstr s)
      | _ => rfl

theorem choiceText_controlOf {choice : Value} (h : hasText choice = true) :
    choiceText (controlOf choice) = [] := by
  rw [choiceText_eq, strOf_controlOf h (.inl rfl), strOf_controlOf h (.inr rfl)]
  rfl

theorem choiceRole_controlOf {choice : Value} (h : hasText choice = true) :
    choiceRole (controlOf choice) = [] := by
  obtain ⟨fields, delta, rfl, hdelta⟩ := exists_of_hasText h
  rw [choiceRole, Value.index, index_controlOf hdelta (by decide) (by decide), if_pos rfl]
  simp [Value.get, controlDelta, Value.lookup_removeField]

theorem finishReason_controlOf {choice : Value} (h : hasText choice = true) :
    (controlOf choice).index (bytes "finish_reason") = choice.index (bytes "finish_reason") := by
  obtain ⟨fields, delta, rfl, hdelta⟩ := exists_of_hasText h
  rw [Value.index, index_controlOf hdelta (by decide) (by decide), if_neg (by decide)]
  rfl

/-- What is left of the choices of an event has no text. -/
theorem choiceText_of_controlPart {choice control : Value}
    (h : controlPart choice = some control) : choiceText control = [] := by
  rw [controlPart] at h
  split at h
  · rename_i htext
    split at h
    · obtain rfl := Option.some.inj h
      exact choiceText_controlOf htext
    · simp at h
  · rename_i htext
    obtain rfl := Option.some.inj h
    exact choiceText_of_not_hasText (by simpa using htext)

theorem carriedBy_eq_nil {α : Type*} {f : Value → List α} {i : ℤ} {choices : List Value}
    (h : ∀ c ∈ choices, f c = []) : carriedBy f i choices = [] := by
  rw [carriedBy, List.flatMap_eq_nil_iff]
  intro c hc
  simp [h c hc]

/-! ### Windows -/

/-- `pop` cuts a text in two. -/
theorem MessageWindow.pop_append (w : MessageWindow) (c b : ℕ) :
    (w.pop c b).1 ++ (w.pop c b).2.message = w.message := by
  rw [pop]
  cases hchars : Utf8.chars w.message with
  | some chars =>
      simp only
      split
      · rfl
      · rw [← List.flatten_append, List.take_append_drop]
        exact (Utf8.chars_eq_some_iff.mp hchars).1
  | none =>
      simp only
      split
      · rfl
      · exact List.take_append_drop _ _

theorem MessageWindow.isUtf8_pop {w : MessageWindow} (h : Utf8.IsUtf8 w.message) (c b : ℕ) :
    Utf8.IsUtf8 (w.pop c b).1 ∧ Utf8.IsUtf8 (w.pop c b).2.message := by
  obtain ⟨chars, hchars⟩ := h
  rw [pop, hchars]
  simp only
  split
  · exact ⟨Utf8.isUtf8_nil, chars, hchars⟩
  · exact ⟨Utf8.isUtf8_flatten_of_sublist hchars (List.take_sublist _ _),
      Utf8.isUtf8_flatten_of_sublist hchars (List.drop_sublist _ _)⟩

/-- The numbers of `i64`. -/
def InI64 (n : ℤ) : Prop := -9223372036854775808 ≤ n ∧ n ≤ 9223372036854775807

theorem inI64_choiceIndex (choice : Value) : InI64 (choiceIndex choice) := by
  rw [choiceIndex]
  cases h : (choice.index (bytes "index")).asI64 with
  | none => exact ⟨by decide, by decide⟩
  | some n =>
      rw [Value.asI64.eq_def] at h
      split at h
      · split at h
        · rename_i hrange
          obtain rfl := Option.some.inj h
          exact hrange
        · simp at h
      · simp at h

theorem index_frame (m : FrameMetadata) (c : Value) :
    (m.frame c).index (bytes "choices") = .array [c] := by
  have hnone : m.fields.lookup (bytes "choices") = none := by
    rw [List.lookup_eq_none_iff]
    intro field hfield
    simp only [FrameMetadata.fields, List.mem_filterMap] at hfield
    obtain ⟨g, hg, hfield⟩ := hfield
    obtain ⟨v, -, rfl⟩ := Option.map_eq_some_iff.mp hfield
    simp only [List.mem_cons, List.not_mem_nil, or_false] at hg
    rcases hg with rfl | rfl | rfl | rfl | rfl <;> rfl
  simp [FrameMetadata.frame, Value.index, Value.get, List.lookup_append, hnone]

theorem carried_frame {α : Type*} (f : Value → List α) (i : ℤ) (m : FrameMetadata) (c : Value) :
    carried f i (m.frame c) = if choiceIndex c = i then f c else [] := by
  simp [carried, index_frame, Value.asArray]

namespace MessageWindowOpenAi

/-- A message that is written unless it is empty. -/
def last (flag : MsgFlag) (msg : Text) : List (MsgFlag × Text) :=
  if msg = [] then [] else [(flag, msg)]

/-- The texts of a list of messages. -/
def texts (msgs : List (MsgFlag × Text)) : List (MsgFlag × UInt8) :=
  msgs.flatMap fun m => tag m.1 m.2

/-- The texts that a window holds. -/
def held (w : MessageWindowOpenAi) : List (MsgFlag × UInt8) :=
  texts w.retMessages ++ tag w.flag w.messageWindow.message

/-- A message that can be written. -/
def IsMessage (m : MsgFlag × Text) : Prop := m.1 ≠ .none ∧ Utf8.IsUtf8 m.2

/-- The texts of a window are UTF-8, and each has its field. -/
structure Wf (w : MessageWindowOpenAi) : Prop where
  ret : ∀ m ∈ w.retMessages, IsMessage m
  message : Utf8.IsUtf8 w.messageWindow.message
  flag : w.messageWindow.message ≠ [] → w.flag ≠ .none
  index : InI64 w.index

theorem texts_last (flag : MsgFlag) (msg : Text) : texts (last flag msg) = tag flag msg := by
  rw [last]
  split
  · rename_i h
    simp [h, texts, tag]
  · simp [texts]

@[simp] theorem texts_append (ms ns : List (MsgFlag × Text)) :
    texts (ms ++ ns) = texts ms ++ texts ns := by
  simp [texts]

/-- The choice of a frame that `gen_value` writes. -/
def choiceValue (w : MessageWindowOpenAi) (flag : MsgFlag) (msg : Text) : Value :=
  .object [(bytes "index", .number (.int w.index)),
    (bytes "delta", .object ((w.role.toList.map fun role => (bytes "role", role)) ++
      textFields flag ⟨Utf8.lossy msg, Utf8.isUtf8_lossy msg⟩)), (bytes "finish_reason", .null)]

theorem genValue_fst (w : MessageWindowOpenAi) (flag : MsgFlag) (msg : Text) :
    (w.genValue flag msg).1 = w.metadata.frame (w.choiceValue flag msg) := rfl

theorem choiceIndex_choiceValue {w : MessageWindowOpenAi} (h : InI64 w.index) (flag : MsgFlag)
    (msg : Text) : choiceIndex (w.choiceValue flag msg) = w.index := by
  have hindex : (w.choiceValue flag msg).index (bytes "index") = .number (.int w.index) := by
    simp [choiceValue, Value.index, Value.get]
  simp only [choiceIndex, hindex, Value.asI64]
  rw [if_pos ⟨h.1, h.2⟩]
  rfl

theorem delta_choiceValue (w : MessageWindowOpenAi) (flag : MsgFlag) (msg : Text) :
    (w.choiceValue flag msg).index (bytes "delta") =
      .object ((w.role.toList.map fun role => (bytes "role", role)) ++
        textFields flag ⟨Utf8.lossy msg, Utf8.isUtf8_lossy msg⟩) := by
  have hne : bytes "delta" ≠ bytes "index" := by decide
  rw [choiceValue, Value.index, Value.get, SortedMap.lookup_entry, if_neg hne,
    SortedMap.lookup_entry, if_pos rfl]
  rfl

theorem lookup_role {role : Option Value} {k : Text} (hk : k ≠ bytes "role")
    (fields : List (Text × Value)) :
    ((role.toList.map fun role => (bytes "role", role)) ++ fields).lookup k = fields.lookup k := by
  cases role with
  | none => rfl
  | some role => rw [Option.toList_some, List.map_singleton, List.singleton_append,
      SortedMap.lookup_entry, if_neg hk]

theorem strOf_choiceValue (w : MessageWindowOpenAi) (flag : MsgFlag) (msg : Text) {field : Text}
    (hfield : field ≠ bytes "role") :
    strOf (w.choiceValue flag msg) field =
      match (((textFields flag ⟨Utf8.lossy msg, Utf8.isUtf8_lossy msg⟩).lookup field).getD
        .null).asStr with
      | some s => s.1
      | none => [] := by
  rw [strOf, delta_choiceValue, Value.index, Value.get, lookup_role hfield]

/-- The texts of a frame that `gen_value` writes, by its flag. -/
theorem strOf_choiceValue_flags (w : MessageWindowOpenAi) (flag : MsgFlag) (msg : Text) :
    strOf (w.choiceValue flag msg) (bytes "reasoning_content") =
        (if flag = .reasoningContent then Utf8.lossy msg else []) ∧
      strOf (w.choiceValue flag msg) (bytes "content") =
        (if flag = .content then Utf8.lossy msg else []) := by
  rw [strOf_choiceValue _ _ _ (by decide), strOf_choiceValue _ _ _ (by decide)]
  cases flag with
  | none => exact ⟨rfl, rfl⟩
  | content => exact ⟨rfl, rfl⟩
  | reasoningContent => exact ⟨rfl, rfl⟩

theorem choiceText_choiceValue {w : MessageWindowOpenAi} {flag : MsgFlag} {msg : Text}
    (h : IsMessage (flag, msg)) : choiceText (w.choiceValue flag msg) = tag flag msg := by
  have hlossy : Utf8.lossy msg = msg := Utf8.lossy_of_isUtf8 h.2
  obtain ⟨hreasoning, hcontent⟩ := w.strOf_choiceValue_flags flag msg
  rw [choiceText_eq, hreasoning, hcontent, hlossy]
  cases flag with
  | none => exact absurd rfl h.1
  | content => simp [tag]
  | reasoningContent => simp [tag]

theorem choiceRole_choiceValue (w : MessageWindowOpenAi) (flag : MsgFlag) (msg : Text) :
    choiceRole (w.choiceValue flag msg) = w.role.toList := by
  rw [choiceRole, delta_choiceValue, Value.get]
  cases w.role with
  | some role => simp
  | none => cases flag <;> rfl

/-- What values carry for the choice `i`. -/
def carriedValues {α : Type*} (f : Value → List α) (i : ℤ) (vs : List Value) : List α :=
  vs.flatMap (carried f i)

theorem carried_genValue {α : Type*} (f : Value → List α) (i : ℤ) {w : MessageWindowOpenAi}
    (h : InI64 w.index) (flag : MsgFlag) (msg : Text) :
    carried f i (w.genValue flag msg).1 =
      if w.index = i then f (w.choiceValue flag msg) else [] := by
  rw [genValue_fst, carried_frame, choiceIndex_choiceValue h]

theorem genValues_snd (w : MessageWindowOpenAi) (msgs : List (MsgFlag × Text)) :
    (genValues w msgs).2 = { w with role := if msgs = [] then w.role else none } := by
  induction msgs generalizing w with
  | nil => rfl
  | cons m msgs ih => simp [genValues, ih, genValue]

/-- The frames depend on what names the choice, and on the role. -/
theorem genValues_fst_congr {w w' : MessageWindowOpenAi} (hindex : w.index = w'.index)
    (hmetadata : w.metadata = w'.metadata) (hrole : w.role = w'.role)
    (msgs : List (MsgFlag × Text)) : (genValues w msgs).1 = (genValues w' msgs).1 := by
  induction msgs generalizing w w' with
  | nil => rfl
  | cons m msgs ih =>
      have hvalue : (w.genValue m.1 m.2).1 = (w'.genValue m.1 m.2).1 := by
        rw [genValue_fst, genValue_fst, choiceValue, choiceValue, hindex, hmetadata, hrole]
      simp only [genValues, hvalue]
      rw [ih]
      · exact hindex
      · exact hmetadata
      · rfl

theorem genValues_append (w : MessageWindowOpenAi) (ms ns : List (MsgFlag × Text)) :
    (genValues w (ms ++ ns)).1 = (genValues w ms).1 ++ (genValues (genValues w ms).2 ns).1 := by
  induction ms generalizing w with
  | nil => rfl
  | cons m ms ih => simp [genValues, ih]

theorem genLast_eq (w : MessageWindowOpenAi) (flag : MsgFlag) (msg : Text) :
    w.genLast flag msg = genValues w (last flag msg) := by
  rw [genLast, last]
  split <;> rfl

theorem texts_genValues {w : MessageWindowOpenAi} (hindex : InI64 w.index)
    {msgs : List (MsgFlag × Text)} (h : ∀ m ∈ msgs, IsMessage m) (i : ℤ) :
    carriedValues choiceText i (genValues w msgs).1 =
      if w.index = i then texts msgs else [] := by
  induction msgs generalizing w with
  | nil => simp [genValues, carriedValues, texts]
  | cons m msgs ih =>
      have hrest := @ih (w.genValue m.1 m.2).2 hindex fun n hn => h n (List.mem_cons_of_mem m hn)
      have hfirst : choiceText (w.choiceValue m.1 m.2) = tag m.1 m.2 :=
        choiceText_choiceValue (h m (List.mem_cons_self ..))
      simp only [carriedValues, genValues, List.flatMap_cons] at hrest ⊢
      rw [hrest, carried_genValue _ _ hindex, hfirst]
      by_cases hi : w.index = i
      · simp [hi, genValue, texts]
      · simp [hi, genValue]

theorem roles_genValues {w : MessageWindowOpenAi} (hindex : InI64 w.index)
    (msgs : List (MsgFlag × Text)) (i : ℤ) :
    carriedValues choiceRole i (genValues w msgs).1 =
      if w.index = i ∧ msgs ≠ [] then w.role.toList else [] := by
  induction msgs generalizing w with
  | nil => simp [genValues, carriedValues]
  | cons m msgs ih =>
      have hrest := @ih (w.genValue m.1 m.2).2 hindex
      simp only [carriedValues, genValues, List.flatMap_cons] at hrest ⊢
      rw [hrest, carried_genValue _ _ hindex, choiceRole_choiceValue]
      by_cases hi : w.index = i
      · simp [hi, genValue]
      · simp [hi, genValue]

/-- The messages of a window when its text is cut behind `msg`. -/
def cutMessages (w : MessageWindowOpenAi) (msg : Text) : List (MsgFlag × Text) :=
  w.retMessages ++ last w.flag msg

theorem finish_eq (w : MessageWindowOpenAi) :
    w.finish = (genValues w (w.cutMessages w.messageWindow.message)).1 := by
  rw [cutMessages, genValues_append, finish, messagesToValue]
  simp only [genLast_eq, genValues_snd]
  congr 1
  · apply genValues_fst_congr <;> rfl
  · apply genValues_fst_congr <;> rfl

theorem pop_eq (w : MessageWindowOpenAi) (c b : ℕ) :
    w.pop c b = ((genValues w (w.cutMessages (w.messageWindow.pop c b).1)).1,
      { w with
        retMessages := []
        messageWindow := (w.messageWindow.pop c b).2
        role := if w.cutMessages (w.messageWindow.pop c b).1 = [] then w.role else none }) := by
  rw [cutMessages, genValues_append, pop, messagesToValue]
  simp only [genLast_eq, genValues_snd]
  rw [Prod.mk.injEq]
  constructor
  · congr 1
    · apply genValues_fst_congr <;> rfl
    · apply genValues_fst_congr <;> rfl
  · cases w.retMessages with
    | nil => simp
    | cons m ms => simp

/-- A prefix that is taken out is written as `pop` would write it. -/
theorem takePrefix_eq (w : MessageWindowOpenAi) (c b : ℕ) :
    (w.takePrefix c b).1.toList.flatMap finish = (w.pop c b).1 ∧
      (w.takePrefix c b).2 = (w.pop c b).2 := by
  rw [pop_eq, takePrefix]
  simp only [← last.eq_1, ← cutMessages.eq_1]
  by_cases h : w.cutMessages (w.messageWindow.pop c b).1 = []
  · simp [h, genValues]
  · rw [if_neg h, if_neg h]
    refine ⟨?_, rfl⟩
    simp only [Option.toList_some, List.flatMap_singleton]
    rw [finish_eq]
    have hlast (flag : MsgFlag) : last flag [] = [] := rfl
    simp only [cutMessages, default, hlast, List.append_nil]
    apply genValues_fst_congr <;> rfl

theorem takePrefix_mem {w p : MessageWindowOpenAi} {c b : ℕ} (h : (w.takePrefix c b).1 = some p) :
    p.index = w.index ∧ p.role = w.role ∧ p.messageWindow.message = [] ∧
      p.retMessages = w.cutMessages (w.messageWindow.pop c b).1 := by
  rw [takePrefix] at h
  simp only [← last.eq_1, ← cutMessages.eq_1] at h
  split at h
  · simp at h
  · obtain rfl := Option.some.inj h
    exact ⟨rfl, rfl, rfl, rfl⟩

/-- What a window puts out, and what it holds after that. -/
structure Emits (w : MessageWindowOpenAi) (vs : List Value) (text : List (MsgFlag × UInt8))
    (role : Option Value) : Prop where
  text : ∀ i, carriedValues choiceText i vs ++ (if w.index = i then text else []) =
    if w.index = i then w.held else []
  role : ∀ i p, (carriedValues choiceRole i vs).countP p +
      (if w.index = i then role.toList else []).countP p ≤
    (if w.index = i then w.role.toList else []).countP p

theorem Wf.isMessage_cutMessages {w : MessageWindowOpenAi} (h : w.Wf) {msg rest : Text}
    (hmsg : Utf8.IsUtf8 msg) (hcut : msg ++ rest = w.messageWindow.message) :
    ∀ m ∈ w.cutMessages msg, IsMessage m := by
  intro m hm
  rw [cutMessages, List.mem_append] at hm
  rcases hm with hm | hm
  · exact h.ret m hm
  · rw [last] at hm
    split at hm
    · simp at hm
    · rename_i hne
      obtain rfl := List.mem_singleton.mp hm
      refine ⟨h.flag ?_, hmsg⟩
      rw [← hcut]
      simp [hne]

/-- The messages before a cut are written, the text behind it is held. -/
theorem Wf.emits_genValues {w : MessageWindowOpenAi} (h : w.Wf) {msg rest : Text}
    (hmsg : Utf8.IsUtf8 msg) (hcut : msg ++ rest = w.messageWindow.message) :
    w.Emits (genValues w (w.cutMessages msg)).1 (tag w.flag rest)
      (if w.cutMessages msg = [] then w.role else none) where
  text i := by
    rw [texts_genValues h.index (h.isMessage_cutMessages hmsg hcut), cutMessages, texts_append,
      texts_last, held, ← hcut]
    split
    · simp [tag]
    · rfl
  role i p := by
    rw [roles_genValues h.index]
    by_cases hi : w.index = i
    · by_cases hnil : w.cutMessages msg = []
      · simp [hi, hnil]
      · simp [hi, hnil]
    · simp [hi]

theorem Wf.emits_finish {w : MessageWindowOpenAi} (h : w.Wf) : w.Emits w.finish [] none := by
  have hemits := h.emits_genValues h.message (List.append_nil _)
  rw [finish_eq]
  refine ⟨hemits.text, fun i p => ?_⟩
  have hrole := hemits.role i p
  simp only [Option.toList_none, ite_self, List.countP_nil, Nat.add_zero]
  omega

theorem Wf.emits_pop {w : MessageWindowOpenAi} (h : w.Wf) (c b : ℕ) :
    w.Emits (w.pop c b).1 (w.pop c b).2.held (w.pop c b).2.role := by
  have hemits := h.emits_genValues (w.messageWindow.isUtf8_pop h.message c b).1
    (w.messageWindow.pop_append c b)
  rw [pop_eq]
  exact hemits

theorem Wf.pop {w : MessageWindowOpenAi} (h : w.Wf) (c b : ℕ) : (w.pop c b).2.Wf := by
  rw [pop_eq]
  refine ⟨by simp, (w.messageWindow.isUtf8_pop h.message c b).2, fun hne => h.flag ?_, h.index⟩
  rw [← w.messageWindow.pop_append c b]
  simp [hne]

theorem wf_default : default.Wf where
  ret := by simp [default]
  message := Utf8.isUtf8_nil
  flag := by simp [default]
  index := ⟨by decide, by decide⟩

theorem update_eq {w : MessageWindowOpenAi} {data : Text} (hne : data ≠ []) (flag : MsgFlag)
    (index : ℤ) (metadata : FrameMetadata) (role : Option Value) :
    w.update data flag index metadata role =
      if w.flag = .none ∨ w.flag = flag then
        { w with
          messageWindow := ⟨w.messageWindow.message ++ data⟩, flag, index, metadata
          role := role.or w.role, needsCheck := true }
      else
        { w with
          messageWindow := ⟨data⟩, retMessages := w.retMessages ++ [(w.flag, w.messageWindow.message)]
          flag, index, metadata, role := role.or w.role, needsCheck := true } := by
  rw [update, if_neg hne]
  by_cases hnone : w.flag = .none
  · simp [hnone, MessageWindow.update]
  · by_cases heq : w.flag = flag
    · simp [← heq, MessageWindow.update]
    · simp [hnone, heq, MessageWindow.update, MessageWindow.finish]

/-- A text that comes in is held behind the others. -/
theorem Wf.update {w : MessageWindowOpenAi} (h : w.Wf) {data : Text} (hne : data ≠ [])
    (hutf8 : Utf8.IsUtf8 data) {flag : MsgFlag} (hflag : flag ≠ .none) {index : ℤ}
    (hindex : InI64 index) (metadata : FrameMetadata) (role : Option Value) :
    (w.update data flag index metadata role).Wf ∧
      (w.update data flag index metadata role).held = w.held ++ tag flag data ∧
      (w.update data flag index metadata role).index = index ∧
      (w.update data flag index metadata role).role = role.or w.role := by
  rw [update_eq hne]
  split
  · rename_i hsame
    refine ⟨⟨h.ret, h.message.append hutf8, fun _ => hflag, hindex⟩, ?_, rfl, rfl⟩
    rcases hsame with hnone | heq
    · -- The first text of a window: nothing is held yet.
      have hmessage : w.messageWindow.message = [] := by
        by_contra hmessage
        exact h.flag hmessage hnone
      simp [held, hmessage, tag]
    · simp [held, heq, tag]
  · rename_i hother
    refine ⟨⟨?_, hutf8, fun _ => hflag, hindex⟩, by simp [held, texts, tag], rfl, rfl⟩
    intro m hm
    rcases List.mem_append.mp hm with hm | hm
    · exact h.ret m hm
    · obtain rfl := List.mem_singleton.mp hm
      exact ⟨fun hnone => hother (.inl hnone), h.message⟩

end MessageWindowOpenAi

/-! ### The response -/

namespace MsgWindow

/-- The frames that the queue holds. -/
def pending (m : MsgWindow) : List Frame := m.queuedEvents.flatMap framesOf

/-- The texts that wait in the window of a choice. -/
def held (m : MsgWindow) (i : ℤ) : List (MsgFlag × UInt8) :=
  ((m.messageWindows.get i).map MessageWindowOpenAi.held).getD []

/-- The role that waits in the window of a choice. -/
def role (m : MsgWindow) (i : ℤ) : List Value :=
  ((m.messageWindows.get i).map fun w => w.role.toList).getD []

/-- Every window is the one of its choice. -/
def Wf (m : MsgWindow) : Prop :=
  ∀ i w, m.messageWindows.get i = some w → w.Wf ∧ w.index = i

section Parse

variable (parse : Text → Option Value)

/-- A change of the windows that puts out frames, with the texts and the roles
that come in. -/
structure Flow (m m' : MsgWindow) (frames : List Frame) (text : ℤ → List (MsgFlag × UInt8))
    (role : ℤ → List Value) : Prop where
  wf : m'.Wf
  text : ∀ i, carriedOut parse choiceText i frames ++ m'.held i = m.held i ++ text i
  role : ∀ i p, (carriedOut parse choiceRole i frames).countP p + (m'.role i).countP p ≤
    (m.role i).countP p + (role i).countP p

variable {parse}

theorem Flow.refl {m : MsgWindow} (h : m.Wf) : Flow parse m m [] (fun _ => []) fun _ => [] :=
  ⟨h, by simp, by simp⟩

theorem Flow.trans {m₁ m₂ m₃ : MsgWindow} {fs gs : List Frame}
    {t u : ℤ → List (MsgFlag × UInt8)} {r q : ℤ → List Value} (h : Flow parse m₁ m₂ fs t r)
    (h' : Flow parse m₂ m₃ gs u q) :
    Flow parse m₁ m₃ (fs ++ gs) (fun i => t i ++ u i) fun i => r i ++ q i where
  wf := h'.wf
  text i := by
    rw [carriedOut_append, List.append_assoc, h'.text, ← List.append_assoc, h.text,
      List.append_assoc]
  role i p := by
    have h₁ := h.role i p
    have h₂ := h'.role i p
    rw [carriedOut_append, List.countP_append, List.countP_append]
    omega

/-- Only the windows matter for a flow. -/
theorem Flow.congr {m₁ m₂ m₁' m₂' : MsgWindow} {fs : List Frame}
    {t : ℤ → List (MsgFlag × UInt8)} {r : ℤ → List Value} (h : Flow parse m₁ m₂ fs t r)
    (h₁ : m₁'.messageWindows = m₁.messageWindows) (h₂ : m₂'.messageWindows = m₂.messageWindows) :
    Flow parse m₁' m₂' fs t r := by
  obtain ⟨hwf, htext, hrole⟩ := h
  refine ⟨?_, ?_, ?_⟩
  · rw [Wf, h₂]
    exact hwf
  · simpa only [MsgWindow.held, h₁, h₂] using htext
  · simpa only [MsgWindow.role, h₁, h₂] using hrole

theorem carriedOut_text {α : Type*} (f : Value → List α) (i : ℤ) (vs : List Value) :
    carriedOut parse f i (vs.map .text) = MessageWindowOpenAi.carriedValues f i vs := by
  rw [carriedOut, List.flatMap_map]
  rfl

/-- One window puts out frames, the others stay. -/
theorem Wf.flow_of_emits {m m' : MsgWindow} (hm : m.Wf) {i : ℤ} {w : MessageWindowOpenAi}
    (hw : m.messageWindows.get i = some w) {vs : List Value} {text : List (MsgFlag × UInt8)}
    {r : Option Value} (hemits : w.Emits vs text r) (hwf : m'.Wf) (htext : m'.held i = text)
    (hrole : m'.role i = r.toList)
    (hother : ∀ j, j ≠ i → m'.messageWindows.get j = m.messageWindows.get j) :
    Flow parse m m' (vs.map .text) (fun _ => []) fun _ => [] where
  wf := hwf
  text j := by
    have hindex := (hm i w hw).2
    have hemits := hemits.text j
    rw [carriedOut_text, List.append_nil]
    by_cases hj : j = i
    · subst hj
      have hheld : m.held j = w.held := by simp [held, hw]
      rw [htext, hheld]
      simpa [hindex] using hemits
    · have hne : w.index ≠ j := fun h => hj (h.symm.trans hindex)
      rw [if_neg hne, if_neg hne, List.append_nil] at hemits
      rw [hemits, held, hother j hj]
      rfl
  role j p := by
    have hindex := (hm i w hw).2
    have hemits := hemits.role j p
    rw [carriedOut_text, List.countP_nil, Nat.add_zero]
    by_cases hj : j = i
    · subst hj
      have hheld : m.role j = w.role.toList := by simp [role, hw]
      rw [hrole, hheld]
      simpa [hindex] using hemits
    · have hne : w.index ≠ j := fun h => hj (h.symm.trans hindex)
      rw [if_neg hne, if_neg hne, List.countP_nil, Nat.add_zero] at hemits
      rw [role, hother j hj, ← role]
      omega

/-- A change of the windows that puts texts into the queue. -/
structure Moves (parse : Text → Option Value) (m m' : MsgWindow) (vs : List Value)
    (text : ℤ → List (MsgFlag × UInt8)) (role : ℤ → List Value) : Prop
    extends Flow parse m m' (vs.map .text) text role where
  pending : m'.pending = m.pending ++ vs.map .text
  doneSent : m'.doneSent = m.doneSent
  streamParser : m'.streamParser = m.streamParser

theorem Moves.refl {m : MsgWindow} (h : m.Wf) : Moves parse m m [] (fun _ => []) fun _ => [] :=
  ⟨Flow.refl h, by simp, rfl, rfl⟩

theorem Moves.trans {m₁ m₂ m₃ : MsgWindow} {vs us : List Value}
    {t u : ℤ → List (MsgFlag × UInt8)} {r q : ℤ → List Value} (h : Moves parse m₁ m₂ vs t r)
    (h' : Moves parse m₂ m₃ us u q) :
    Moves parse m₁ m₃ (vs ++ us) (fun i => t i ++ u i) (fun i => r i ++ q i) where
  toFlow := by
    rw [List.map_append]
    exact h.toFlow.trans h'.toFlow
  pending := by rw [h'.pending, h.pending, List.map_append, List.append_assoc]
  doneSent := h'.doneSent.trans h.doneSent
  streamParser := h'.streamParser.trans h.streamParser

/-- A flow may be charged for more roles. -/
theorem Moves.mono {m m' : MsgWindow} {vs : List Value} {t u : ℤ → List (MsgFlag × UInt8)}
    {r q : ℤ → List Value} (h : Moves parse m m' vs t r) (ht : ∀ i, t i = u i)
    (hr : ∀ i p, (r i).countP p ≤ (q i).countP p) : Moves parse m m' vs u q where
  wf := h.wf
  text i := by rw [h.text, ht]
  role i p := by
    have h₁ := h.role i p
    have h₂ := hr i p
    omega
  pending := h.pending
  doneSent := h.doneSent
  streamParser := h.streamParser

end Parse

section Texts

variable {parse : Text → Option Value}

theorem held_eq {m : MsgWindow} {i : ℤ} {w : MessageWindowOpenAi}
    (h : m.messageWindows.get i = some w) : m.held i = w.held := by
  simp [held, h]

theorem role_eq {m : MsgWindow} {i : ℤ} {w : MessageWindowOpenAi}
    (h : m.messageWindows.get i = some w) : m.role i = w.role.toList := by
  simp [role, h]

theorem Wf.insert {m : MsgWindow} (hm : m.Wf) {i : ℤ} {w : MessageWindowOpenAi} (hw : w.Wf)
    (hindex : w.index = i) :
    ({ m with messageWindows := m.messageWindows.insert i w } : MsgWindow).Wf := by
  intro j v hv
  rw [SortedMap.get_insert] at hv
  split at hv
  · rename_i hj
    obtain rfl := Option.some.inj hv
    exact ⟨hw, hindex.trans hj.symm⟩
  · exact hm j v hv

/-- The window that `addText` writes to. -/
theorem Wf.getD_default {m : MsgWindow} (hm : m.Wf) (i : ℤ) :
    ((m.messageWindows.get i).getD .default).Wf ∧
      ((m.messageWindows.get i).getD .default).held = m.held i ∧
      ((m.messageWindows.get i).getD .default).role.toList = m.role i := by
  cases hw : m.messageWindows.get i with
  | none => exact ⟨MessageWindowOpenAi.wf_default, by rw [held, hw]; rfl, by rw [role, hw]; rfl⟩
  | some w => exact ⟨(hm i w hw).1, (held_eq hw).symm, (role_eq hw).symm⟩

/-- One field of a delta. -/
theorem Wf.moves_addText {acc : MsgWindow × Option Value} (hm : acc.1.Wf) (metadata : FrameMetadata)
    (choice : Value) {f : Text × MsgFlag} (hflag : f.2 ≠ .none) :
    Moves parse acc.1 (addText metadata choice acc f).1 []
        (fun i => if choiceIndex choice = i then tag f.2 (strOf choice f.1) else [])
        (fun i => if choiceIndex choice = i ∧ (deltaText choice f.1).isSome then acc.2.toList
          else []) ∧
      (addText metadata choice acc f).2 = if (deltaText choice f.1).isSome then none else acc.2 := by
  rw [MsgWindow.addText]
  cases htext : deltaText choice f.1 with
  | none =>
      refine ⟨(Moves.refl hm).mono ?_ ?_, by simp⟩
      · intro i
        rw [strOf_of_deltaText_none htext]
        simp [tag]
      · simp
  | some text =>
      obtain ⟨hstr, hne⟩ := strOf_of_deltaText htext
      obtain ⟨hwf, hheld, hrole⟩ := hm.getD_default (choiceIndex choice)
      obtain ⟨hwf', hheld', hindex', hrole'⟩ := hwf.update hne text.2 hflag
        (inI64_choiceIndex choice) metadata acc.2
      refine ⟨⟨⟨hm.insert hwf' hindex', ?_, ?_⟩, ?_, rfl, rfl⟩, by simp⟩
      · intro i
        rw [List.map_nil, carriedOut_nil, List.nil_append, held, SortedMap.get_insert]
        by_cases hi : i = choiceIndex choice
        · subst hi
          simp [hheld', hheld, hstr]
        · simp [hi, Ne.symm hi, held]
      · intro i p
        rw [List.map_nil, carriedOut_nil, role, SortedMap.get_insert]
        by_cases hi : i = choiceIndex choice
        · subst hi
          simp only [↓reduceIte, Option.map_some, Option.getD_some, hrole', ← hrole]
          cases acc.2 with
          | none => simp
          | some r => simp
        · simp [hi, Ne.symm hi, role]
      · simp [MsgWindow.pending]

/-- The texts of a choice go into its window, and its role at most once. -/
theorem Wf.moves_addTexts {m : MsgWindow} (hm : m.Wf) (metadata : FrameMetadata) (choice : Value) :
    Moves parse m (m.addTexts metadata choice) []
      (fun i => if choiceIndex choice = i then choiceText choice else [])
      (fun i => if choiceIndex choice = i then choiceRole choice else []) := by
  rw [MsgWindow.addTexts, textFlags]
  simp only [List.foldl_cons, List.foldl_nil]
  obtain ⟨h₁, hrole₁⟩ := @Wf.moves_addText parse (m, (choice.index (bytes "delta")).get (bytes "role"))
    hm metadata choice (bytes "reasoning_content", .reasoningContent) (by decide)
  obtain ⟨h₂, -⟩ := @Wf.moves_addText parse _ h₁.wf metadata choice (bytes "content", .content)
    (by decide)
  refine (h₁.trans h₂).mono ?_ ?_
  · intro i
    rw [choiceText_eq]
    split <;> simp
  · intro i p
    rw [hrole₁, List.countP_append]
    by_cases hi : choiceIndex choice = i
    · cases (deltaText choice (bytes "reasoning_content")).isSome with
      | true => simp [hi, choiceRole]
      | false =>
          cases (deltaText choice (bytes "content")).isSome with
          | true => simp [hi, choiceRole]
          | false => simp
    · simp [hi]

end Texts

section Inspect

variable {parse : Text → Option Value} {σ : Type*} {inspect : σ → Text → Text × Bool × σ}

/-- A callback that accepts every text and changes none. -/
def Accepts (inspect : σ → Text → Text × Bool × σ) : Prop :=
  ∀ s text, (inspect s text).1 = text ∧ (inspect s text).2.1 = true

theorem Accepts.inspectAll (h : Accepts inspect) (s : σ) (msgs : List (MsgFlag × Text)) :
    (inspectAll inspect s msgs).1 = msgs ∧ (inspectAll inspect s msgs).2.1 = true := by
  induction msgs generalizing s with
  | nil => exact ⟨rfl, rfl⟩
  | cons m msgs ih =>
      simp only [Masking.inspectAll, (h s m.2).1, (h s m.2).2, if_true]
      exact ⟨by rw [(ih _).1], (ih _).2⟩

theorem Accepts.check (h : Accepts inspect) (s : σ) (w : MessageWindowOpenAi) :
    (w.check inspect s).1 = { w with needsCheck := false } := by
  rw [MessageWindowOpenAi.check]
  by_cases hcheck : w.needsCheck
  · simp only [hcheck, if_true, (h.inspectAll s w.retMessages).1,
      (h.inspectAll s w.retMessages).2, (h _ w.messageWindow.message).1,
      (h _ w.messageWindow.message).2]
    rfl
  · simp only [hcheck]
    cases w
    simp_all

theorem pending_append (m : MsgWindow) (windows : SortedMap ℤ MessageWindowOpenAi)
    (queued : List QueuedEvent) :
    ({ m with
        messageWindows := windows
        queuedEvents := m.queuedEvents ++ queued } : MsgWindow).pending =
      m.pending ++ queued.flatMap framesOf := by
  simp [pending]

/-- `queue_text` puts out a part of the text of a choice, the whole of it before
a finish reason. -/
theorem Wf.moves_queueText {m : MsgWindow} (hm : m.Wf) (hinspect : Accepts inspect) (s : σ) (i : ℤ)
    (terminal : Bool) :
    ∃ vs, Moves parse m (m.queueText inspect s i terminal).1 vs (fun _ => []) (fun _ => []) ∧
      (terminal = true → (m.queueText inspect s i terminal).1.held i = []) := by
  rw [MsgWindow.queueText]
  cases hw : m.messageWindows.get i with
  | none => exact ⟨[], Moves.refl hm, fun _ => by simp [held, hw]⟩
  | some w =>
      obtain ⟨hwf, hindex⟩ := hm i w hw
      simp only [hinspect.check]
      -- The check leaves a window as it is, apart from the note that it is due.
      generalize hv : ({ w with needsCheck := false } : MessageWindowOpenAi) = v
      have hvwf : v.Wf := by
        subst hv
        exact ⟨hwf.ret, hwf.message, hwf.flag, hwf.index⟩
      have hvindex : v.index = i := by
        subst hv
        exact hindex
      have hemits : ∀ {vs text r}, v.Emits vs text r → w.Emits vs text r := by
        subst hv
        exact fun h => ⟨h.text, h.role⟩
      cases terminal with
      | true =>
          have hwf' : ({ m with
              messageWindows := m.messageWindows.erase i
              queuedEvents := m.queuedEvents ++ [.text v] } : MsgWindow).Wf := by
            intro j u hu
            rw [SortedMap.get_erase] at hu
            split at hu
            · simp at hu
            · exact hm j u hu
          refine ⟨v.finish, ⟨hm.flow_of_emits hw (hemits hvwf.emits_finish) hwf' ?_ ?_ ?_, ?_, rfl,
            rfl⟩, fun _ => ?_⟩
          · simp [held]
          · simp [role]
          · intro j hj
            simp [hj]
          · simp [pending, framesOf]
          · simp [held]
      | false =>
          obtain ⟨hframes, hrest⟩ := v.takePrefix_eq m.charWindowSize m.byteWindowSize
          have hpopindex : (v.pop m.charWindowSize m.byteWindowSize).2.index = i := by
            rw [MessageWindowOpenAi.pop_eq]
            exact hvindex
          have hget : (m.messageWindows.insert i
              (v.pop m.charWindowSize m.byteWindowSize).2).get i =
              some (v.pop m.charWindowSize m.byteWindowSize).2 := by
            simp
          simp only [hrest]
          refine ⟨(v.pop m.charWindowSize m.byteWindowSize).1, ⟨hm.flow_of_emits hw
            (hemits (hvwf.emits_pop m.charWindowSize m.byteWindowSize)) ?_ (held_eq hget)
            (role_eq hget) ?_, ?_, rfl, rfl⟩, by simp⟩
          · exact hm.insert (hvwf.pop _ _) hpopindex
          · intro j hj
            simp [hj]
          · have hflat : ((v.takePrefix m.charWindowSize m.byteWindowSize).1.toList.map
                QueuedEvent.text).flatMap framesOf =
                (v.pop m.charWindowSize m.byteWindowSize).1.map .text := by
              rw [← hframes, List.flatMap_map, List.map_flatMap]
              rfl
            simp only [Bool.false_eq_true, if_false]
            rw [pending_append, hflat]

/-- Every window puts out frames. -/
theorem Wf.flow_all {m m' : MsgWindow} (hm : m.Wf) {vs : MessageWindowOpenAi → List Value}
    {text : MessageWindowOpenAi → List (MsgFlag × UInt8)} {r : MessageWindowOpenAi → Option Value}
    (hemits : ∀ w : MessageWindowOpenAi, w.Wf → w.Emits (vs w) (text w) (r w)) (hm' : m'.Wf)
    (hheld : ∀ i, m'.held i = ((m.messageWindows.get i).map text).getD [])
    (hrole : ∀ i, m'.role i = ((m.messageWindows.get i).map fun w => (r w).toList).getD []) :
    Flow parse m m' ((m.messageWindows.entries.flatMap fun e => vs e.2).map .text) (fun _ => [])
      fun _ => [] := by
  have hcarried : ∀ {α : Type _} (f : Value → List α),
      (∀ (w : MessageWindowOpenAi) i, w.Wf → w.index ≠ i → MessageWindowOpenAi.carriedValues f i (vs w) = []) → ∀ i,
      MessageWindowOpenAi.carriedValues f i (m.messageWindows.entries.flatMap fun e => vs e.2) =
        ((m.messageWindows.get i).map fun w =>
          MessageWindowOpenAi.carriedValues f i (vs w)).getD [] := by
    intro α f hother i
    rw [SortedMap.get, ← SortedMap.flatMap_of_lookup m.messageWindows.nodup_keys,
      MessageWindowOpenAi.carriedValues, List.flatMap_assoc, List.flatMap_def, List.flatMap_def]
    congr 1
    apply List.map_congr_left
    intro e he
    obtain ⟨hwf, hindex⟩ := hm e.1 e.2 (SortedMap.get_of_mem he)
    split
    · rfl
    · rename_i hne
      exact hother e.2 i hwf (hindex ▸ hne)
  refine ⟨hm', fun i => ?_, fun i p => ?_⟩
  · rw [carriedOut_text, hcarried, hheld, List.append_nil]
    · cases hw : m.messageWindows.get i with
      | none => simp [held, hw]
      | some w =>
          obtain ⟨hwf, hindex⟩ := hm i w hw
          simpa [held_eq hw, hindex] using (hemits w hwf).text i
    · intro w j hwf hne
      simpa [hne] using (hemits w hwf).text j
  · rw [carriedOut_text, hcarried, hrole, List.countP_nil, Nat.add_zero]
    · cases hw : m.messageWindows.get i with
      | none => simp
      | some w =>
          obtain ⟨hwf, hindex⟩ := hm i w hw
          simpa [role_eq hw, hindex] using (hemits w hwf).role i p
    · intro w j hwf hne
      have hcount := (hemits w hwf).role j fun _ => true
      simpa [hne] using hcount

theorem finish_checked (w : MessageWindowOpenAi) :
    ({ w with needsCheck := false } : MessageWindowOpenAi).finish = w.finish := by
  rw [MessageWindowOpenAi.finish_eq, MessageWindowOpenAi.finish_eq]
  apply MessageWindowOpenAi.genValues_fst_congr <;> rfl

/-- `queue_all_text` leaves no text in the windows. -/
theorem Wf.moves_queueAllText {m : MsgWindow} (hm : m.Wf) (hinspect : Accepts inspect) (s : σ) :
    (∃ vs, Moves parse m (m.queueAllText inspect s).1 vs (fun _ => []) (fun _ => [])) ∧
      ∀ i, (m.queueAllText inspect s).1.held i = [] := by
  have hvisit : (m.messageWindows.visit (MessageWindowOpenAi.check inspect) s).1.entries =
      m.messageWindows.entries.map fun e => (e.1, { e.2 with needsCheck := false }) :=
    SortedMap.visitEntries_fst (hinspect.check ·) s m.messageWindows.entries
  refine ⟨⟨m.messageWindows.entries.flatMap fun e => e.2.finish, ⟨?_, ?_, rfl, rfl⟩⟩,
    fun i => rfl⟩
  · refine hm.flow_all (fun w hw => hw.emits_finish) (fun i w hw => ?_) (fun i => ?_) fun i => ?_
    · simp [MsgWindow.queueAllText] at hw
    · cases m.messageWindows.get i <;> rfl
    · cases m.messageWindows.get i <;> rfl
  · simp only [MsgWindow.queueAllText]
    rw [pending_append, hvisit, List.map_map, List.flatMap_map, List.map_flatMap]
    congr 1
    apply List.flatMap_congr
    intro e he
    simp only [Function.comp_apply, framesOf, finish_checked]

/-- A choice with a finish reason. -/
def Finishes (choice : Value) : Prop := (choice.index (bytes "finish_reason")).isNull = false

theorem Finishes.hasProtocolData {choice : Value} (h : Finishes choice) :
    hasProtocolData choice = true := by
  rw [Finishes] at h
  simp [Masking.hasProtocolData, h]

theorem Finishes.hasControl {choice : Value} (h : Finishes choice) : hasControl choice = true := by
  rw [Finishes] at h
  simp [Masking.hasControl, h]

/-- The role that goes into the window of a choice. -/
def textRole (choice : Value) : List Value := if hasText choice then choiceRole choice else []

theorem Wf.moves_queueFor {m : MsgWindow} (hm : m.Wf) (hinspect : Accepts inspect) (s : σ)
    (choice : Value) :
    ∃ vs, Moves parse m (m.queueFor inspect s choice).1 vs (fun _ => []) (fun _ => []) ∧
      (Finishes choice → (m.queueFor inspect s choice).1.held (choiceIndex choice) = []) := by
  rw [MsgWindow.queueFor]
  split
  · obtain ⟨vs, hmoves, hterminal⟩ := @Wf.moves_queueText parse _ _ _ hm hinspect s (choiceIndex choice)
      (!(choice.index (bytes "finish_reason")).isNull)
    refine ⟨vs, hmoves, fun hfinish => hterminal ?_⟩
    rw [Finishes] at hfinish
    simp [hfinish]
  · rename_i hdata
    exact ⟨[], Moves.refl hm, fun hfinish => absurd hfinish.hasProtocolData hdata⟩

/-- One choice of an event with text. -/
theorem Wf.moves_splitChoice {m : MsgWindow} (hm : m.Wf) (hinspect : Accepts inspect)
    (metadata : FrameMetadata) (s : σ) (choice : Value) :
    (splitChoice inspect metadata m s choice).1 = controlPart choice ∧
      ∃ vs, Moves parse m (splitChoice inspect metadata m s choice).2.1 vs
          (fun i => if choiceIndex choice = i then choiceText choice else [])
          (fun i => if choiceIndex choice = i then textRole choice else []) ∧
        (Finishes choice →
          (splitChoice inspect metadata m s choice).2.1.held (choiceIndex choice) = []) := by
  rw [MsgWindow.splitChoice, controlPart]
  by_cases htext : hasText choice
  · have hadd := @Wf.moves_addTexts parse _ hm metadata choice
    have hrole : textRole choice = choiceRole choice := by rw [textRole, if_pos htext]
    have hfinish : Finishes choice → Finishes (controlOf choice) := by
      rw [Finishes, Finishes, finishReason_controlOf htext]
      exact id
    simp only [htext, if_true, hrole]
    by_cases hcontrol : hasControl (controlOf choice)
    · simp only [hcontrol, if_true, true_and]
      by_cases hdata : hasProtocolData (controlOf choice)
      · simp only [hdata, if_true]
        obtain ⟨vs, hmoves, hterminal⟩ := @Wf.moves_queueText parse _ _ _ hadd.wf hinspect s
          (choiceIndex choice) (!((controlOf choice).index (bytes "finish_reason")).isNull)
        refine ⟨[] ++ vs, (hadd.trans hmoves).mono (fun i => by simp) fun i p => by simp,
          fun hfin => hterminal ?_⟩
        have hnull := hfinish hfin
        rw [Finishes] at hnull
        simp [hnull]
      · simp only [hdata]
        exact ⟨[], hadd, fun hfin => absurd (hfinish hfin).hasProtocolData hdata⟩
    · simp only [hcontrol]
      exact ⟨rfl, [], hadd, fun hfin => absurd (hfinish hfin).hasControl hcontrol⟩
  · obtain ⟨vs, hmoves, hterminal⟩ := @Wf.moves_queueFor parse _ _ _ hm hinspect s choice
    have hnone : choiceText choice = [] := choiceText_of_not_hasText (by simpa using htext)
    simp only [htext]
    refine ⟨rfl, vs, hmoves.mono ?_ ?_, hterminal⟩
    · simp [hnone]
    · simp [textRole, htext]

theorem splitChoices_append (metadata : FrameMetadata) (m : MsgWindow) (s : σ)
    (cs ds : List Value) :
    splitChoices inspect metadata m s (cs ++ ds) =
      ((splitChoices inspect metadata m s cs).1 ++ (splitChoices inspect metadata
          (splitChoices inspect metadata m s cs).2.1 (splitChoices inspect metadata m s cs).2.2
          ds).1,
        (splitChoices inspect metadata (splitChoices inspect metadata m s cs).2.1
          (splitChoices inspect metadata m s cs).2.2 ds).2) := by
  induction cs generalizing m s with
  | nil => simp [splitChoices]
  | cons c cs ih => simp [splitChoices, ih]

/-- The choices of an event with text. -/
theorem Wf.moves_splitChoices {m : MsgWindow} (hm : m.Wf) (hinspect : Accepts inspect)
    (metadata : FrameMetadata) (s : σ) (choices : List Value) :
    (splitChoices inspect metadata m s choices).1 = choices.filterMap controlPart ∧
      ∃ vs, Moves parse m (splitChoices inspect metadata m s choices).2.1 vs
        (fun i => carriedBy choiceText i choices) (fun i => carriedBy textRole i choices) := by
  induction choices generalizing m s with
  | nil => exact ⟨rfl, [], Moves.refl hm⟩
  | cons c choices ih =>
      obtain ⟨hcontrol, vs, hmoves, -⟩ := @Wf.moves_splitChoice parse _ _ _ hm hinspect metadata s c
      obtain ⟨hcontrols, us, hrest⟩ := ih hmoves.wf (splitChoice inspect metadata m s c).2.2
      refine ⟨?_, vs ++ us, (hmoves.trans hrest).mono (fun i => ?_) fun i p => ?_⟩
      · simp only [MsgWindow.splitChoices]
        rw [hcontrol, hcontrols, List.filterMap_cons]
        cases controlPart c <;> rfl
      · rw [carriedBy_cons]
      · rw [carriedBy_cons]

/-- The texts of a choice up to its finish reason are put out. -/
theorem Wf.moves_splitChoices_finish {m : MsgWindow} (hm : m.Wf) (hinspect : Accepts inspect)
    (metadata : FrameMetadata) (s : σ) {cs ds : List Value} {c : Value} (hfinish : Finishes c) :
    ∃ vs, Moves parse m (splitChoices inspect metadata m s (cs ++ c :: ds)).2.1 vs
        (fun i => carriedBy choiceText i (cs ++ c :: ds))
        (fun i => carriedBy textRole i (cs ++ c :: ds)) ∧
      m.held (choiceIndex c) ++ carriedBy choiceText (choiceIndex c) (cs ++ [c]) <+:
        carriedOut parse choiceText (choiceIndex c) (vs.map .text) := by
  obtain ⟨-, vs₁, h₁⟩ := @Wf.moves_splitChoices parse _ _ _ hm hinspect metadata s cs
  obtain ⟨-, vs₂, h₂, hempty⟩ := @Wf.moves_splitChoice parse _ _ _ h₁.wf hinspect metadata
    (splitChoices inspect metadata m s cs).2.2 c
  obtain ⟨-, vs₃, h₃⟩ := @Wf.moves_splitChoices parse _ _ _ h₂.wf hinspect metadata
    (splitChoice inspect metadata (splitChoices inspect metadata m s cs).2.1
      (splitChoices inspect metadata m s cs).2.2 c).2.2 ds
  have hto := h₁.trans h₂
  refine ⟨vs₁ ++ vs₂ ++ vs₃, ?_, ?_⟩
  · rw [splitChoices_append]
    simp only [MsgWindow.splitChoices]
    refine (hto.trans h₃).mono (fun i => ?_) fun i p => ?_
    · simp
    · simp
  · have htext := hto.text (choiceIndex c)
    rw [hempty hfinish, List.append_nil] at htext
    rw [List.map_append, carriedOut_append, htext]
    simp

/-- Without text the two loops over the choices do the same. -/
theorem queueForAll_eq (metadata : FrameMetadata) (m : MsgWindow) (s : σ) {choices : List Value}
    (h : choices.all fun choice => !hasText choice) :
    queueForAll inspect m s choices = (splitChoices inspect metadata m s choices).2 := by
  induction choices generalizing m s with
  | nil => rfl
  | cons c choices ih =>
      simp only [List.all_cons, Bool.and_eq_true, Bool.not_eq_true'] at h
      simp only [queueForAll, MsgWindow.splitChoices, MsgWindow.splitChoice, h.1, ih _ _ h.2]
      rfl

/-- A move from a response with the same windows and the same queue. -/
theorem Moves.of_same {m m₀ m' : MsgWindow} {vs : List Value} {t : ℤ → List (MsgFlag × UInt8)}
    {r : ℤ → List Value} (h : Moves parse m₀ m' vs t r)
    (hwindows : m.messageWindows = m₀.messageWindows) (hqueued : m.queuedEvents = m₀.queuedEvents)
    (hdone : m.doneSent = m₀.doneSent) (hparser : m.streamParser = m₀.streamParser) :
    Moves parse m m' vs t r where
  toFlow := h.toFlow.congr hwindows rfl
  pending := by rw [h.pending, MsgWindow.pending, MsgWindow.pending, hqueued]
  doneSent := h.doneSent.trans hdone.symm
  streamParser := h.streamParser.trans hparser.symm

theorem recordFinish_eq (m : MsgWindow) (choices : List Value) :
    ∃ reasons, m.recordFinish choices = { m with finishReasons := reasons } := by
  rw [recordFinish]
  induction choices generalizing m with
  | nil => exact ⟨m.finishReasons, rfl⟩
  | cons c choices ih =>
      obtain ⟨reasons, h⟩ := ih { m with
        finishReasons := m.finishReasons.insert (choiceIndex c)
          (((c.get (bytes "finish_reason")).filter fun reason => !reason.isNull).or
            ((m.finishReasons.get (choiceIndex c)).getD none)) }
      exact ⟨reasons, h⟩

/-- A frame that carries no text, put into the queue. -/
theorem flow_queueRaw {m : MsgWindow} (hm : m.Wf) {f : Frame}
    (hf : ∀ i, carriedFrame parse choiceText i f = []) :
    Flow parse m (m.queueRaw f) [f] (fun _ => []) (fun i => carriedFrame parse choiceRole i f) where
  wf := hm
  text i := by
    have hheld : (m.queueRaw f).held i = m.held i := rfl
    simp [carriedOut, hf, hheld]
  role i p := by
    have hheld : (m.queueRaw f).role i = m.role i := rfl
    simp [carriedOut, hheld, Nat.add_comm]

theorem carried_of_choicesOf {α : Type*} (f : Value → List α) (i : ℤ) (v : Value) :
    carried f i v = carriedBy f i ((choicesOf v).getD []) := by
  rw [carried, choicesOf]
  cases (v.index (bytes "choices")).asArray with
  | none => rfl
  | some choices => cases choices <;> simp [Option.filter]

theorem carried_set {α : Type*} (f : Value → List α) (i : ℤ) {res : Value} {choices : List Value}
    (h : choicesOf res = some choices) (controls : List Value) :
    carried f i (res.set (bytes "choices") (.array controls)) = carriedBy f i controls := by
  have harray := (Option.filter_eq_some_iff.mp h).1
  cases res with
  | object fields =>
      rw [carried, Value.set, Value.index, Value.get, Value.lookup_insertField, if_pos rfl]
      rfl
  | _ => simp [Value.index, Value.get, Value.asArray] at harray

/-- The roles of an event stay with its texts or with the rest of it. -/
theorem countP_roles (i : ℤ) (p : Value → Bool) (choices : List Value) :
    (carriedBy textRole i choices).countP p +
        (carriedBy choiceRole i (choices.filterMap controlPart)).countP p ≤
      (carriedBy choiceRole i choices).countP p := by
  induction choices with
  | nil => simp
  | cons c choices ih =>
      rw [carriedBy_cons, carriedBy_cons, List.filterMap_cons, List.countP_append,
        List.countP_append, controlPart, textRole]
      by_cases htext : hasText c
      · by_cases hcontrol : hasControl (controlOf c)
        · simp only [htext, hcontrol, if_true, carriedBy_cons, choiceRole_controlOf htext, ite_self,
            List.nil_append]
          omega
        · simp only [htext, hcontrol, if_true]
          simp only [Bool.false_eq_true, if_false]
          omega
      · simp only [htext, Bool.false_eq_true, if_false, ite_self, List.countP_nil, carriedBy_cons,
          List.countP_append]
        omega

/-- What follows the texts of an event. -/
def tailFrames (parse : Text → Option Value) (doneSent : Bool) (event : Text) : List Frame :=
  if isDone event then if doneSent then [] else [.done] else (controlFrame parse event).toList

/-- The effect of an event: texts go to the windows, some texts come out, and
what is not text follows them. -/
structure Handles (parse : Text → Option Value) (m m' : MsgWindow) (event : Text)
    (vs : List Value) : Prop
    extends Flow parse m m' (vs.map .text ++ tailFrames parse m.doneSent event)
      (fun i => carriedEvent parse choiceText i event)
      (fun i => carriedEvent parse choiceRole i event) where
  pending : m'.pending = m.pending ++ (vs.map .text ++ tailFrames parse m.doneSent event)
  doneSent : m'.doneSent = (m.doneSent || isDone event)
  streamParser : m'.streamParser = m.streamParser
  finish : ∀ {res cs c ds}, eventValue parse event = some res →
    choicesOf res = some (cs ++ c :: ds) → Finishes c →
    m.held (choiceIndex c) ++ carriedBy choiceText (choiceIndex c) (cs ++ [c]) <+:
      carriedOut parse choiceText (choiceIndex c) (vs.map .text)

/-- An event whose rest is a frame without text. -/
theorem Moves.handles {m m₁ : MsgWindow} {vs : List Value} {event : Text} {f : Frame}
    {r : ℤ → List Value}
    (h : Moves parse m m₁ vs (fun i => carriedEvent parse choiceText i event) r)
    (hdone : isDone event = false) (hf : controlFrame parse event = some f)
    (htext : ∀ i, carriedFrame parse choiceText i f = [])
    (hrole : ∀ i p, (r i).countP p + (carriedFrame parse choiceRole i f).countP p ≤
      (carriedEvent parse choiceRole i event).countP p)
    (hfinish : ∀ {res cs c ds}, eventValue parse event = some res →
      choicesOf res = some (cs ++ c :: ds) → Finishes c →
      m.held (choiceIndex c) ++ carriedBy choiceText (choiceIndex c) (cs ++ [c]) <+:
        carriedOut parse choiceText (choiceIndex c) (vs.map .text)) :
    Handles parse m (m₁.queueRaw f) event vs := by
  have htail : tailFrames parse m.doneSent event = [f] := by simp [tailFrames, hdone, hf]
  have hflow := h.toFlow.trans (flow_queueRaw h.wf htext)
  refine ⟨⟨hflow.wf, fun i => ?_, fun i p => ?_⟩, ?_, ?_, h.streamParser, hfinish⟩
  · rw [htail, hflow.text i, List.append_nil]
  · have hcount := hflow.role i p
    have hle := hrole i p
    rw [List.countP_append] at hcount
    rw [htail]
    omega
  · rw [htail, ← List.append_assoc, ← h.pending]
    simp [MsgWindow.pending, queueRaw, framesOf]
  · rw [hdone, Bool.or_false]
    exact h.doneSent

/-- An event whose choices, if it has any, have no text. -/
theorem handles_event {m m₁ : MsgWindow} {vs : List Value} {event : Text}
    (h : Moves parse m m₁ vs (fun _ => []) (fun _ => [])) (hdone : isDone event = false)
    (hf : controlFrame parse event = some (.event event))
    (htext : ∀ i, carriedEvent parse choiceText i event = [])
    (hfinish : ∀ {res cs c ds}, eventValue parse event = some res →
      choicesOf res = some (cs ++ c :: ds) → Finishes c →
      m.held (choiceIndex c) ++ carriedBy choiceText (choiceIndex c) (cs ++ [c]) <+:
        carriedOut parse choiceText (choiceIndex c) (vs.map .text)) :
    Handles parse m (m₁.queueRaw (.event event)) event vs := by
  refine (h.mono (fun i => (htext i).symm) fun i p => Nat.le_refl _).handles hdone hf htext ?_
    hfinish
  intro i p
  simp [carriedFrame]

theorem Moves.unique {m m' : MsgWindow} {vs us : List Value} {t u : ℤ → List (MsgFlag × UInt8)}
    {r q : ℤ → List Value} (h : Moves parse m m' vs t r) (h' : Moves parse m m' us u q) :
    vs = us := by
  have heq : m.pending ++ vs.map Frame.text = m.pending ++ us.map Frame.text :=
    h.pending.symm.trans h'.pending
  exact List.map_injective_iff.mpr (fun a b h => Frame.text.inj h) (List.append_cancel_left heq)

/-- The end of the stream. -/
theorem Wf.handles_done {m : MsgWindow} (hm : m.Wf) (hinspect : Accepts inspect) (s : σ)
    {event : Text} (hdone : isDone event = true) :
    ∃ vs, Handles parse m (if (m.queueAllText inspect s).1.doneSent then
      (m.queueAllText inspect s).1
      else { (m.queueAllText inspect s).1.queueRaw .done with doneSent := true }) event vs := by
  obtain ⟨⟨vs, hmoves⟩, -⟩ := @Wf.moves_queueAllText parse _ _ _ hm hinspect s
  have hvalue : eventValue parse event = none := by simp [eventValue, hdone]
  have hcarried {α : Type _} (f : Value → List α) (i : ℤ) : carriedEvent parse f i event = [] := by
    simp [carriedEvent, hvalue]
  refine ⟨vs, ?_⟩
  cases hsent : m.doneSent with
  | true =>
      have htail : tailFrames parse m.doneSent event = [] := by simp [tailFrames, hdone, hsent]
      rw [hmoves.doneSent, hsent, if_pos rfl]
      refine ⟨⟨hmoves.wf, ?_, ?_⟩, ?_, ?_, hmoves.streamParser, ?_⟩
      · intro i
        rw [htail, List.append_nil, hmoves.text i, hcarried]
      · intro i p
        rw [htail, List.append_nil, hcarried]
        exact hmoves.role i p
      · rw [htail, List.append_nil, hmoves.pending]
      · rw [hmoves.doneSent, hdone, Bool.or_true, hsent]
      · simp [hvalue]
  | false =>
      have htail : tailFrames parse m.doneSent event = [.done] := by
        simp [tailFrames, hdone, hsent]
      have hflow := hmoves.toFlow.trans (@flow_queueRaw parse _ hmoves.wf .done fun _ => rfl)
      rw [hmoves.doneSent, hsent]
      refine ⟨⟨hflow.wf, ?_, ?_⟩, ?_, by simp [hdone], hmoves.streamParser, by simp [hvalue]⟩
      · intro i
        rw [htail, hcarried]
        exact hflow.text i
      · intro i p
        rw [htail, hcarried]
        exact hflow.role i p
      · rw [htail, ← List.append_assoc, ← hmoves.pending]
        simp [MsgWindow.pending, queueRaw, framesOf]

/-- An event with choices. -/
theorem Wf.handles_choices {m m₀ : MsgWindow} (hm : m.Wf) (hinspect : Accepts inspect) (s : σ)
    (hwindows : m.messageWindows = m₀.messageWindows) (hqueued : m.queuedEvents = m₀.queuedEvents)
    (hsent : m.doneSent = m₀.doneSent) (hparser : m.streamParser = m₀.streamParser) {event : Text} (hdone : isDone event = false) {res : Value}
    (hres : eventValue parse event = some res) {choices : List Value}
    (hchoices : choicesOf res = some choices) :
    ∃ vs, Handles parse m
      (if choices.all fun choice => !hasText choice then
        (queueForAll inspect m₀ s choices).1.queueRaw (.event event)
      else
        if (splitChoices inspect (FrameMetadata.fromValue res) m₀ s choices).1 ≠ [] ∨
            !(res.index (bytes "usage")).isNull ∨ hasExtraFields res then
          (splitChoices inspect (FrameMetadata.fromValue res) m₀ s choices).2.1.queueRaw
            (.control (res.set (bytes "choices") (.array
              (splitChoices inspect (FrameMetadata.fromValue res) m₀ s choices).1)))
        else (splitChoices inspect (FrameMetadata.fromValue res) m₀ s choices).2.1) event vs := by
  have hm₀ : m₀.Wf := by
    rw [Wf, ← hwindows]
    exact hm
  obtain ⟨hcontrols, vs, hmoves₀⟩ := @Wf.moves_splitChoices parse _ _ _ hm₀ hinspect
    (FrameMetadata.fromValue res) s choices
  have hmoves := hmoves₀.of_same hwindows hqueued hsent hparser
  have hheld : ∀ i, m.held i = m₀.held i := by simp [held, hwindows]
  have hcarried {α : Type _} (f : Value → List α) (i : ℤ) :
      carriedEvent parse f i event = carriedBy f i choices := by
    simp [carriedEvent, hres, carried_of_choicesOf, hchoices]
  have hfinish : ∀ {res' cs c ds}, eventValue parse event = some res' →
      choicesOf res' = some (cs ++ c :: ds) → Finishes c →
      m.held (choiceIndex c) ++ carriedBy choiceText (choiceIndex c) (cs ++ [c]) <+:
        carriedOut parse choiceText (choiceIndex c) (vs.map .text) := by
    intro res' cs c ds hres' hsplit hfin
    obtain rfl : res = res' := Option.some.inj (hres.symm.trans hres')
    obtain rfl : choices = cs ++ c :: ds := Option.some.inj (hchoices.symm.trans hsplit)
    obtain ⟨us, husmoves, hus⟩ := @Wf.moves_splitChoices_finish parse _ _ _ hm₀ hinspect
      (FrameMetadata.fromValue res) s cs ds c hfin
    rw [hmoves₀.unique husmoves, hheld]
    exact hus
  refine ⟨vs, ?_⟩
  by_cases hall : choices.all fun choice => !hasText choice
  · have hnotext : ∀ c ∈ choices, hasText c = false := by simpa using hall
    have htext : ∀ i, carriedBy choiceText i choices = [] :=
      fun i => carriedBy_eq_nil fun c hc => choiceText_of_not_hasText (hnotext c hc)
    have hrole : ∀ i, carriedBy textRole i choices = [] :=
      fun i => carriedBy_eq_nil fun c hc => by simp [textRole, hnotext c hc]
    rw [if_pos hall, queueForAll_eq (FrameMetadata.fromValue res) m₀ s hall]
    refine handles_event (hmoves.mono htext fun i p => by simp [hrole]) hdone ?_ ?_ hfinish
    · simp only [controlFrame, hdone, hres, Option.bind_some, hchoices, hall]
      rfl
    · intro i
      rw [hcarried, htext]
  · rw [if_neg hall]
    have hnotext : ∀ i, carriedBy choiceText i (choices.filterMap controlPart) = [] := by
      intro i
      refine carriedBy_eq_nil fun c hc => ?_
      obtain ⟨c', -, hc'⟩ := List.mem_filterMap.mp hc
      exact choiceText_of_controlPart hc'
    have hframe : controlFrame parse event =
        if choices.filterMap controlPart ≠ [] ∨ !(res.index (bytes "usage")).isNull ∨
            hasExtraFields res then
          some (.control (res.set (bytes "choices") (.array (choices.filterMap controlPart))))
        else none := by
      simp only [controlFrame, hdone, hres, Option.bind_some, hchoices]
      rw [if_neg hall]
      rfl
    rw [hcontrols]
    split
    · rename_i hcontrol
      rw [if_pos hcontrol] at hframe
      refine (hmoves.mono (fun i => (hcarried _ i).symm) fun i p => Nat.le_refl _).handles hdone
        hframe ?_ ?_ hfinish
      · intro i
        rw [carriedFrame, carried_set _ _ hchoices, hnotext]
      · intro i p
        rw [carriedFrame, carried_set _ _ hchoices, hcarried]
        exact countP_roles i p choices
    · rename_i hcontrol
      rw [if_neg hcontrol] at hframe
      have htail : tailFrames parse m.doneSent event = [] := by simp [tailFrames, hdone, hframe]
      refine ⟨⟨hmoves.wf, ?_, ?_⟩, ?_, ?_, hmoves.streamParser, hfinish⟩
      · intro i
        rw [htail, List.append_nil, hmoves.text i, hcarried]
      · intro i p
        have hcount := hmoves.role i p
        have hle := countP_roles i p choices
        rw [htail, List.append_nil, hcarried]
        omega
      · rw [htail, List.append_nil, hmoves.pending]
      · rw [hmoves.doneSent, hdone, Bool.or_false]

theorem Wf.handles_updateEvent {m : MsgWindow} (hm : m.Wf) (hinspect : Accepts inspect) (s : σ)
    {event : Text} (hne : event ≠ []) :
    ∃ vs, Handles parse m (m.updateEvent parse inspect s event).2.1 event vs := by
  rw [updateEvent, if_neg hne]
  cases hdone : isDone event with
  | true =>
      simp only [if_true]
      exact hm.handles_done hinspect s hdone
  | false =>
      have hvalue : eventValue parse event = (eventData event).bind parse := by
        simp [eventValue, hdone]
      simp only [Bool.false_eq_true, if_false, ← hvalue]
      cases hres : eventValue parse event with
      | none =>
          obtain ⟨⟨vs, hmoves⟩, -⟩ := @Wf.moves_queueAllText parse _ _ _ hm hinspect s
          refine ⟨vs, handles_event hmoves hdone ?_ ?_ ?_⟩
          · simp [controlFrame, hdone, hres]
          · simp [carriedEvent, hres]
          · simp [hres]
      | some res =>
          have hm' : ({ m with
              errorReceived := m.errorReceived || !(res.index (bytes "error")).isNull } :
              MsgWindow).Wf := hm
          simp only
          cases hchoices : choicesOf res with
          | none =>
              obtain ⟨⟨vs, hmoves⟩, -⟩ := @Wf.moves_queueAllText parse _ _ _ hm' hinspect s
              refine ⟨vs, handles_event (hmoves.of_same rfl rfl rfl rfl) hdone ?_ ?_ ?_⟩
              · simp [controlFrame, hdone, hres, hchoices]
              · simp [carriedEvent, hres, carried_of_choicesOf, hchoices]
              · intro res' cs c ds hres' hsplit
                obtain rfl := Option.some.inj (hres.symm.trans hres')
                simp [hchoices] at hsplit
          | some choices =>
              obtain ⟨reasons, hreasons⟩ := recordFinish_eq { m with
                errorReceived := m.errorReceived || !(res.index (bytes "error")).isNull } choices
              simp only [hreasons]
              obtain ⟨vs, hvs⟩ := @Wf.handles_choices parse _ _ m { m with
                errorReceived := m.errorReceived || !(res.index (bytes "error")).isNull
                finishReasons := reasons } hm hinspect s rfl rfl rfl rfl event hdone res hres choices
                hchoices
              refine ⟨vs, ?_⟩
              split
              · rename_i hall
                rw [if_pos hall] at hvs
                exact hvs
              · rename_i hall
                rw [if_neg hall] at hvs
                exact hvs

/-! ### Runs -/

/-- A call of the plugin. -/
inductive Op
  | push (data : Text) (charWindowSize byteWindowSize : ℕ)
  | pop (charWindowSize byteWindowSize : ℕ)

/-- The bytes of the response that a call brings. -/
def Op.data : Op → Text
  | push data _ _ => data
  | pop _ _ => []

/-- The frames of a call. -/
def step (parse : Text → Option Value) (inspect : σ → Text → Text × Bool × σ) (m : MsgWindow)
    (s : σ) : Op → List Frame × MsgWindow × σ
  | .push data c b =>
      let (m, s) := m.push parse inspect s data true c b
      ([], m, s)
  | .pop c b =>
      let (ret, m) := m.popFrames c b
      (ret, m, s)

/-- The frames of the calls of a response, with those of `finish`. -/
def outputFrom (parse : Text → Option Value) (inspect : σ → Text → Text × Bool × σ) :
    MsgWindow → σ → List Op → List Frame
  | m, s, [] => (m.finishFrames parse inspect s).1
  | m, s, op :: ops =>
      let (ret, m, s) := step parse inspect m s op
      ret ++ outputFrom parse inspect m s ops

/-- The frames of a response. -/
def output (parse : Text → Option Value) (inspect : σ → Text → Text × Bool × σ) (s : σ)
    (ops : List Op) : List Frame :=
  outputFrom parse inspect .default s ops

/-- The output keeps the texts of a choice before its finish reason. -/
def FinishesLast (parse : Text → Option Value) (events : List Text) (out : List Frame) : Prop :=
  ∀ pre event post res cs c ds, events = pre ++ event :: post →
    eventValue parse event = some res → choicesOf res = some (cs ++ c :: ds) → Finishes c →
    ∃ before frame after, out = before ++ frame :: after ∧
      controlFrame parse event = some frame ∧
      before.filter isControl = pre.filterMap (controlFrame parse) ∧
      pre.flatMap (carriedEvent parse choiceText (choiceIndex c)) ++
          carriedBy choiceText (choiceIndex c) (cs ++ [c]) <+:
        carriedOut parse choiceText (choiceIndex c) before

/-- The frames `out`, written or queued, account for the events so far. -/
structure Accounts (parse : Text → Option Value) (events : List Text) (out : List Frame)
    (m : MsgWindow) : Prop where
  wf : m.Wf
  text : ∀ i, carriedOut parse choiceText i out ++ m.held i =
    events.flatMap (carriedEvent parse choiceText i)
  control : out.filter isControl = events.filterMap (controlFrame parse)
  role : ∀ i p, (carriedOut parse choiceRole i out).countP p + (m.role i).countP p ≤
    (events.flatMap (carriedEvent parse choiceRole i)).countP p
  done : out.countP isDoneFrame = if m.doneSent then 1 else 0
  finish : FinishesLast parse events out

theorem FinishesLast.append {events : List Text} {out : List Frame}
    (h : FinishesLast parse events out) (fs : List Frame) :
    FinishesLast parse events (out ++ fs) := by
  intro pre event post res cs c ds hevents hres hchoices hfin
  obtain ⟨before, frame, after, hout, hrest⟩ :=
    h pre event post res cs c ds hevents hres hchoices hfin
  exact ⟨before, frame, after ++ fs, by rw [hout, List.append_assoc, List.cons_append], hrest⟩

theorem filter_isControl_text (vs : List Value) : (vs.map Frame.text).filter isControl = [] := by
  rw [List.filter_eq_nil_iff]
  intro f hf
  obtain ⟨v, -, rfl⟩ := List.mem_map.mp hf
  simp [isControl]

theorem countP_isDoneFrame_text (vs : List Value) :
    (vs.map Frame.text).countP isDoneFrame = 0 := by
  rw [List.countP_eq_zero]
  intro f hf
  obtain ⟨v, -, rfl⟩ := List.mem_map.mp hf
  simp [isDoneFrame]

/-- Texts that come out of the windows. -/
theorem Accounts.flow {events : List Text} {out : List Frame} {m m' : MsgWindow}
    (h : Accounts parse events out m) {vs : List Value}
    (hflow : Flow parse m m' (vs.map .text) (fun _ => []) fun _ => [])
    (hdone : m'.doneSent = m.doneSent) :
    Accounts parse events (out ++ vs.map .text) m' where
  wf := hflow.wf
  text i := by
    rw [carriedOut_append, List.append_assoc, hflow.text, List.append_nil, h.text]
  control := by rw [List.filter_append, filter_isControl_text, List.append_nil, h.control]
  role i p := by
    have h₁ := h.role i p
    have h₂ := hflow.role i p
    rw [List.countP_nil] at h₂
    rw [carriedOut_append, List.countP_append]
    omega
  done := by rw [List.countP_append, countP_isDoneFrame_text, Nat.add_zero, h.done, hdone]
  finish := h.finish.append _

theorem controlFrame_cases {event : Text} {f : Frame} (h : controlFrame parse event = some f) :
    isControl f = true ∧ isDoneFrame f = false ∧ isDone event = false ∧
      ∀ e, f = .event e → e = event := by
  rw [controlFrame] at h
  split at h
  · simp at h
  · rename_i hdone
    have hdone : isDone event = false := by simpa using hdone
    split at h
    · split at h
      · obtain rfl := Option.some.inj h
        exact ⟨rfl, rfl, hdone, fun e he => (Frame.event.inj he).symm⟩
      · simp only at h
        split at h
        · obtain rfl := Option.some.inj h
          exact ⟨rfl, rfl, hdone, by simp⟩
        · simp at h
    · obtain rfl := Option.some.inj h
      exact ⟨rfl, rfl, hdone, fun e he => (Frame.event.inj he).symm⟩

/-- A finish reason is not dropped. -/
theorem exists_controlFrame {event : Text} {res c : Value} {cs ds : List Value}
    (hres : eventValue parse event = some res) (hchoices : choicesOf res = some (cs ++ c :: ds))
    (hfin : Finishes c) : ∃ f, controlFrame parse event = some f := by
  have hdone : isDone event = false := by
    rw [eventValue] at hres
    split at hres
    · simp at hres
    · rename_i hdone
      simpa using hdone
  have hpart : ∃ control, controlPart c = some control := by
    rw [controlPart]
    split
    · rename_i htext
      have hfin' : Finishes (controlOf c) := by
        rw [Finishes, finishReason_controlOf htext]
        exact hfin
      rw [if_pos hfin'.hasControl]
      exact ⟨_, rfl⟩
    · exact ⟨c, rfl⟩
  obtain ⟨control, hpart⟩ := hpart
  have hne : (cs ++ c :: ds).filterMap controlPart ≠ [] :=
    List.ne_nil_of_mem (List.mem_filterMap.mpr ⟨c, by simp, hpart⟩)
  simp only [controlFrame, hdone, hres, Option.bind_some, hchoices, Bool.false_eq_true, if_false]
  split
  · exact ⟨_, rfl⟩
  · exact ⟨_, if_pos (.inl hne)⟩

theorem controlFrame_of_isDone {event : Text} (h : isDone event = true) :
    controlFrame parse event = none := by
  simp [controlFrame, h]

theorem filter_tailFrames (doneSent : Bool) (event : Text) :
    (tailFrames parse doneSent event).filter isControl = (controlFrame parse event).toList := by
  rw [tailFrames]
  split
  · rename_i hdone
    rw [controlFrame_of_isDone hdone]
    split <;> rfl
  · cases hf : controlFrame parse event with
    | none => rfl
    | some f => simp [(controlFrame_cases hf).1]

theorem countP_tailFrames (doneSent : Bool) (event : Text) :
    (if doneSent then 1 else 0) + (tailFrames parse doneSent event).countP isDoneFrame =
      if doneSent || isDone event then 1 else 0 := by
  rw [tailFrames]
  cases hdone : isDone event with
  | true => cases doneSent <;> simp [isDoneFrame]
  | false =>
      cases hf : controlFrame parse event with
      | none => simp
      | some f => simp [(controlFrame_cases hf).2.1]

/-- One more event. -/
theorem Accounts.handles {events : List Text} {out : List Frame} {m m' : MsgWindow}
    (h : Accounts parse events out m) {event : Text} {vs : List Value}
    (hevent : Handles parse m m' event vs) :
    Accounts parse (events ++ [event])
      (out ++ (vs.map .text ++ tailFrames parse m.doneSent event)) m' where
  wf := hevent.wf
  text i := by
    rw [carriedOut_append, List.append_assoc, hevent.text, ← List.append_assoc, h.text]
    simp
  control := by
    rw [List.filter_append, List.filter_append, filter_isControl_text, List.nil_append, h.control,
      filter_tailFrames, List.filterMap_append]
    cases hf : controlFrame parse event <;> simp [hf]
  role i p := by
    have h₁ := h.role i p
    have h₂ := hevent.role i p
    rw [carriedOut_append, List.countP_append, List.flatMap_append, List.countP_append]
    simp only [List.flatMap_singleton]
    omega
  done := by
    rw [List.countP_append, List.countP_append, countP_isDoneFrame_text, Nat.zero_add, h.done,
      countP_tailFrames, hevent.doneSent]
  finish := by
    intro pre event' post res cs c ds hsplit hres hchoices hfin
    rcases List.eq_nil_or_concat post with rfl | ⟨post', last, rfl⟩
    · obtain ⟨rfl, hlast⟩ := List.append_inj' hsplit rfl
      obtain rfl : event = event' := by simpa using hlast
      obtain ⟨f, hf⟩ := exists_controlFrame hres hchoices hfin
      have hdone := (controlFrame_cases hf).2.2.1
      refine ⟨out ++ vs.map .text, f, [], ?_, hf, ?_, ?_⟩
      · simp [tailFrames, hdone, hf]
      · rw [List.filter_append, filter_isControl_text, List.append_nil, h.control]
      · rw [carriedOut_append, ← h.text, List.append_assoc]
        exact List.prefix_append_right_inj _ |>.mpr (hevent.finish hres hchoices hfin)
    · have hevents : events = pre ++ event' :: post' := by
        rw [List.concat_eq_append, ← List.cons_append, ← List.append_assoc] at hsplit
        exact (List.append_inj' hsplit rfl).1
      exact h.finish.append _ pre event' post' res cs c ds hevents hres hchoices hfin

theorem Accounts.of_same {events : List Text} {out : List Frame} {m m' : MsgWindow}
    (h : Accounts parse events out m) (hwindows : m'.messageWindows = m.messageWindows)
    (hdone : m'.doneSent = m.doneSent) : Accounts parse events out m' where
  wf := by
    rw [Wf, hwindows]
    exact h.wf
  text i := by
    rw [held, hwindows]
    exact h.text i
  control := h.control
  role i p := by
    rw [MsgWindow.role, hwindows]
    exact h.role i p
  done := by rw [hdone, h.done]
  finish := h.finish

/-- The events of a callback. -/
theorem Accounts.updateEvents (hinspect : Accepts inspect) {new : List Text}
    (hnew : ∀ e ∈ new, e ≠ []) {events : List Text} {out : List Frame} {m : MsgWindow} (s : σ)
    (h : Accounts parse events (out ++ m.pending) m) :
    Accounts parse (events ++ new) (out ++ (MsgWindow.updateEvents parse inspect m s new).1.pending)
        (MsgWindow.updateEvents parse inspect m s new).1 ∧
      (MsgWindow.updateEvents parse inspect m s new).1.streamParser = m.streamParser := by
  induction new generalizing events m s with
  | nil => exact ⟨by simpa [MsgWindow.updateEvents] using h, rfl⟩
  | cons e new ih =>
      obtain ⟨vs, hevent⟩ := @Wf.handles_updateEvent parse _ _ _ h.wf hinspect s e (hnew e (by simp))
      have hstep := h.handles hevent
      rw [List.append_assoc, ← hevent.pending] at hstep
      obtain ⟨haccounts, hparser⟩ := ih (fun e' he' => hnew e' (List.mem_cons_of_mem e he'))
        (m.updateEvent parse inspect s e).2.2 hstep
      simp only [MsgWindow.updateEvents]
      exact ⟨by simpa using haccounts, hparser.trans hevent.streamParser⟩

/-- Checking the windows puts nothing out. -/
theorem Accounts.checkAll (hinspect : Accepts inspect) {events : List Text} {out : List Frame}
    {m : MsgWindow} (s : σ) (h : Accounts parse events (out ++ m.pending) m) :
    Accounts parse events (out ++ (m.checkAll inspect s).1.pending) (m.checkAll inspect s).1 := by
  have hget : ∀ i, (m.checkAll inspect s).1.messageWindows.get i =
      (m.messageWindows.get i).map fun w => { w with needsCheck := false } := by
    intro i
    have hvisit := SortedMap.visitEntries_fst (hinspect.check ·) s m.messageWindows.entries
    rw [SortedMap.get, SortedMap.get, ← SortedMap.lookup_map_snd, ← hvisit]
    rfl
  have hheld : ∀ i, (m.checkAll inspect s).1.held i = m.held i := by
    intro i
    rw [held, hget, held]
    cases m.messageWindows.get i <;> rfl
  have hrole : ∀ i, (m.checkAll inspect s).1.role i = m.role i := by
    intro i
    rw [MsgWindow.role, hget, MsgWindow.role]
    cases m.messageWindows.get i <;> rfl
  refine ⟨?_, ?_, h.control, ?_, h.done, h.finish⟩
  · intro i w hw
    rw [hget, Option.map_eq_some_iff] at hw
    obtain ⟨v, hv, rfl⟩ := hw
    obtain ⟨hwf, hindex⟩ := h.wf i v hv
    exact ⟨⟨hwf.ret, hwf.message, hwf.flag, hwf.index⟩, hindex⟩
  · intro i
    rw [hheld]
    exact h.text i
  · intro i p
    rw [hrole]
    exact h.role i p

/-- The frames of `pop`. -/
theorem popFrames_fst (m : MsgWindow) (c b : ℕ) :
    (m.popFrames c b).1 =
      m.pending ++ m.messageWindows.entries.flatMap fun e => (e.2.pop c b).1.map Frame.text :=
  @SortedMap.visitEntries_snd _ _ _
    (fun (ret : List Frame) (w : MessageWindowOpenAi) =>
      ((w.pop c b).2, ret ++ (w.pop c b).1.map Frame.text))
    _ (fun _ _ => rfl) m.pending m.messageWindows.entries

/-- The windows after `pop`. -/
theorem get_popFrames (m : MsgWindow) (c b : ℕ) (i : ℤ) :
    (m.popFrames c b).2.messageWindows.get i =
      (m.messageWindows.get i).map fun w => (w.pop c b).2 := by
  have hvisit := @SortedMap.visitEntries_fst _ _ _
    (fun (ret : List Frame) (w : MessageWindowOpenAi) =>
      ((w.pop c b).2, ret ++ (w.pop c b).1.map Frame.text))
    (fun w => (w.pop c b).2) (fun _ _ => rfl) m.pending m.messageWindows.entries
  rw [SortedMap.get, SortedMap.get, ← SortedMap.lookup_map_snd, ← hvisit]
  rfl

/-- `pop` writes the queue and a part of every text. -/
theorem Accounts.popFrames {events : List Text} {out : List Frame} {m : MsgWindow}
    (h : Accounts parse events (out ++ m.pending) m) (c b : ℕ) :
    Accounts parse events (out ++ (m.popFrames c b).1 ++ (m.popFrames c b).2.pending)
      (m.popFrames c b).2 := by
  have hflow : Flow parse m (m.popFrames c b).2
      ((m.messageWindows.entries.flatMap fun e => (e.2.pop c b).1).map .text) (fun _ => [])
      fun _ => [] := by
    refine h.wf.flow_all (fun w hw => hw.emits_pop c b) ?_ ?_ ?_
    · intro i w hw
      rw [get_popFrames, Option.map_eq_some_iff] at hw
      obtain ⟨v, hv, rfl⟩ := hw
      obtain ⟨hwf, hindex⟩ := h.wf i v hv
      refine ⟨hwf.pop c b, ?_⟩
      rw [MessageWindowOpenAi.pop_eq]
      exact hindex
    · intro i
      rw [held, get_popFrames, Option.map_map]
      rfl
    · intro i
      rw [MsgWindow.role, get_popFrames, Option.map_map]
      rfl
  have hpending : (m.popFrames c b).2.pending = [] := rfl
  rw [popFrames_fst, ← List.map_flatMap, hpending, List.append_nil, ← List.append_assoc]
  exact h.flow hflow rfl

/-- `push` handles the events that its bytes complete. -/
theorem Accounts.push (hinspect : Accepts inspect) {events : List Text} {out : List Frame}
    {m : MsgWindow} (s : σ) (h : Accounts parse events (out ++ m.pending) m) {lines : List Text}
    (hlines : ∀ l ∈ lines, EventStream.IsLine l) {data later : Text}
    (hdata : m.streamParser.rest ++ (data ++ later) = EventStream.linesStream lines) (c b : ℕ) :
    ∃ done todo, lines = done ++ todo ∧
      Accounts parse (events ++ done) (out ++ (m.push parse inspect s data true c b).1.pending)
        (m.push parse inspect s data true c b).1 ∧
      (m.push parse inspect s data true c b).1.streamParser.rest ++ later =
        EventStream.linesStream todo ∧
      EventStream.firstEvent (m.push parse inspect s data true c b).1.streamParser.rest = none := by
  rw [← List.append_assoc, ← EventStream.rest_update] at hdata
  obtain ⟨done, todo, rfl, hdrain, hrest, hnone⟩ := EventStream.drain_lines hlines hdata
  have hne : ∀ e ∈ done, e ≠ [] := fun e he => (hlines e (List.mem_append_left todo he)).1
  let m₀ : MsgWindow := { m with
    charWindowSize := c, byteWindowSize := b
    streamParser := (m.streamParser.update data).drain.2 }
  have hsame : Accounts parse events (out ++ m₀.pending) m₀ := h.of_same rfl rfl
  obtain ⟨hupdate, hparser⟩ := Accounts.updateEvents hinspect hne s hsame
  have hpush : (m.push parse inspect s data true c b).1 =
      ((MsgWindow.updateEvents parse inspect m₀ s done).1.checkAll inspect
        (MsgWindow.updateEvents parse inspect m₀ s done).2).1 := by
    simp only [MsgWindow.push, if_true, hdrain]
    rfl
  have hpushparser : (m.push parse inspect s data true c b).1.streamParser =
      (m.streamParser.update data).drain.2 := by
    rw [hpush]
    exact hparser
  refine ⟨done, todo, rfl, ?_, ?_, ?_⟩
  · rw [hpush]
    exact hupdate.checkAll hinspect _
  · rw [hpushparser, hrest]
  · rw [hpushparser, hnone]

theorem Accounts.sendDone {events : List Text} {out : List Frame} {m : MsgWindow}
    (h : Accounts parse events out m) (hsent : m.doneSent = false) :
    Accounts parse events (out ++ [.done]) { m with doneSent := true } where
  wf := h.wf
  text i := by
    rw [carriedOut_append, ← h.text i]
    simp [carriedOut, carriedFrame]
    rfl
  control := by
    rw [List.filter_append, h.control]
    simp [isControl]
  role i p := by
    have hrole := h.role i p
    rw [carriedOut_append, List.countP_append]
    exact hrole
  done := by
    have hcount := h.done
    rw [hsent] at hcount
    rw [List.countP_append, hcount]
    simp [isDoneFrame]
  finish := h.finish.append _

/-- `finish` writes all texts, and the end of the stream if it is due. -/
theorem Accounts.finishFrames (hinspect : Accepts inspect) {events : List Text} {out : List Frame}
    {m : MsgWindow} (s : σ) (h : Accounts parse events (out ++ m.pending) m)
    (hrest : m.streamParser.rest = []) :
    ∃ m', Accounts parse events (out ++ (m.finishFrames parse inspect s).1) m' ∧
      ∀ i, m'.held i = [] := by
  let m₀ : MsgWindow := { m with streamParser := m.streamParser.flush.2 }
  have hflush : m.streamParser.flush.1 = none := by rw [EventStream.flush_eq, if_pos hrest]
  have hsame : Accounts parse events (out ++ m₀.pending) m₀ := h.of_same rfl rfl
  have hcomplete : m.complete parse inspect s = (m₀, s) := by
    simp only [complete, hflush]
    rfl
  obtain ⟨⟨vs, hmoves⟩, hheld⟩ := @Wf.moves_queueAllText parse _ _ _ hsame.wf hinspect s
  have hall := hsame.flow hmoves.toFlow hmoves.doneSent
  rw [List.append_assoc, ← hmoves.pending] at hall
  have hdrain (m : MsgWindow) : m.drainQueued.1 = m.pending := rfl
  simp only [MsgWindow.finishFrames, hcomplete, hdrain]
  generalize (queueAllText inspect m₀ s).1 = m₁ at hall hheld ⊢
  split
  · rename_i hdone
    simp only [Bool.and_eq_true, Bool.not_eq_true'] at hdone
    rw [← List.append_assoc]
    exact ⟨_, hall.sendDone hdone.1.1, hheld⟩
  · exact ⟨m₁, hall, hheld⟩

/-- Every call of a response, and `finish` at its end. -/
theorem Accounts.outputFrom (hinspect : Accepts inspect) (ops : List Op) {events : List Text}
    {out : List Frame} {m : MsgWindow} (s : σ) (h : Accounts parse events (out ++ m.pending) m)
    {lines : List Text} (hlines : ∀ l ∈ lines, EventStream.IsLine l)
    (hops : m.streamParser.rest ++ ops.flatMap Op.data = EventStream.linesStream lines)
    (hnone : EventStream.firstEvent m.streamParser.rest = none) :
    ∃ m', Accounts parse (events ++ lines) (out ++ MsgWindow.outputFrom parse inspect m s ops) m' ∧
      ∀ i, m'.held i = [] := by
  induction ops generalizing events out m s lines with
  | nil =>
      rw [List.flatMap_nil, List.append_nil] at hops
      rw [hops] at hnone
      obtain rfl := EventStream.eq_nil_of_firstEvent hlines hnone
      rw [List.append_nil]
      exact h.finishFrames hinspect s hops
  | cons op ops ih =>
      cases op with
      | push data c b =>
          rw [List.flatMap_cons, Op.data] at hops
          obtain ⟨done, todo, rfl, hpush, hrest, hnone'⟩ := h.push hinspect s hlines hops c b
          obtain ⟨m', haccounts, hheld⟩ := ih (m.push parse inspect s data true c b).2 hpush
            (fun l hl => hlines l (List.mem_append_right done hl)) hrest hnone'
          refine ⟨m', ?_, hheld⟩
          simpa [MsgWindow.outputFrom, step] using haccounts
      | pop c b =>
          have hpop := h.popFrames c b
          obtain ⟨m', haccounts, hheld⟩ := ih s hpop hlines hops hnone
          refine ⟨m', ?_, hheld⟩
          simpa [MsgWindow.outputFrom, step] using haccounts

end Inspect

end MsgWindow

end Higress.Masking
