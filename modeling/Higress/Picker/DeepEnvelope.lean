import Higress.Lib.XxHash
import Higress.Picker.Locality

/-!
Bodies that are nested too deeply. Once the strict scanner has met the depth limit, a
second scanner with a counter of brackets tells the members of the body apart, to find
its model, and nothing else of the body is looked at.

The text in front of the value that is too deep is told apart by the second scanner
without looking at what follows, so it finds the same model if that value is replaced.
What the strict path says of the body that results is a different matter: it asks for
valid JSON, takes the first model and not the last one, and reads further members.
-/

namespace Higress.Picker

open Lib

/-! ### Scanners do not look beyond the end of a span -/

theorem scanStringFrom_extend {escaped : Bool} {s span rest : GoString}
    (h : scanStringFrom escaped s = .ok (span, rest)) (t : GoString) :
    scanStringFrom escaped (s ++ t) = .ok (span, rest ++ t) := by
  induction s generalizing escaped span with
  | nil => simp [scanStringFrom] at h
  | cons b s ih =>
      cases escaped with
      | true =>
          obtain ⟨span', rfl, hrest⟩ := pass_eq_ok h
          rw [List.cons_append, scanStringFrom, ih hrest, pass_ok]
      | false =>
          rw [scanStringFrom] at h
          rw [List.cons_append, scanStringFrom]
          split at h
          · rename_i hb
            simp only [Except.ok.injEq, Prod.mk.injEq] at h
            obtain ⟨rfl, rfl⟩ := h
            rw [if_pos hb]
          · rename_i hb
            obtain ⟨span', rfl, hrest⟩ := pass_eq_ok h
            rw [if_neg hb, ih hrest, pass_ok]

theorem scanJSONString_extend {s span rest : GoString} (h : scanJSONString s = .ok (span, rest))
    (t : GoString) : scanJSONString (s ++ t) = .ok (span, rest ++ t) := by
  rw [scanJSONString.eq_def] at h
  split at h
  · simp at h
  · split at h
    · rename_i hb
      obtain ⟨span', rfl, hrest⟩ := pass_eq_ok h
      rw [List.cons_append, scanJSONString, if_pos hb, scanStringFrom_extend hrest, pass_ok]
    · simp at h

theorem scanUnbounded_extend {depth : ℕ} {place : Place} {s span rest : GoString}
    (h : scanUnbounded depth place s = .ok (span, rest)) (t : GoString) :
    scanUnbounded depth place (s ++ t) = .ok (span, rest ++ t) := by
  induction s generalizing depth place span with
  | nil => cases place <;> simp [scanUnbounded] at h
  | cons b s ih =>
      have hpass : ∀ {depth place}, pass b (scanUnbounded depth place s) = .ok (span, rest) →
          pass b (scanUnbounded depth place (s ++ t)) = .ok (span, rest ++ t) := by
        intro depth place h
        obtain ⟨span', rfl, hrest⟩ := pass_eq_ok h
        rw [ih hrest, pass_ok]
      cases place with
      | escaped => exact hpass h
      | inString => exact hpass h
      | outside =>
          rw [scanUnbounded] at h
          rw [List.cons_append, scanUnbounded]
          split at h
          · rename_i hb
            rw [if_pos hb]
            exact hpass h
          · rename_i hb
            rw [if_neg hb]
            split at h
            · rename_i hopen
              rw [if_pos hopen]
              exact hpass h
            · rename_i hopen
              rw [if_neg hopen]
              split at h
              · rename_i hclose
                rw [if_pos hclose]
                split at h
                · rename_i hdepth
                  simp only [Except.ok.injEq, Prod.mk.injEq] at h
                  obtain ⟨rfl, rfl⟩ := h
                  rw [if_pos hdepth]
                · rename_i hdepth
                  rw [if_neg hdepth]
                  exact hpass h
              · rename_i hclose
                rw [if_neg hclose]
                exact hpass h

/-- A text that the second scanner takes as one value. -/
def IsSpan (v : GoString) : Prop := scanJSONValueUnbounded v = .ok (v, [])

instance (v : GoString) : Decidable (IsSpan v) := inferInstanceAs (Decidable (_ = _))

/-- A text in front of which a value ends. -/
def EndsValue (s : GoString) : Prop := ∀ b ∈ s.head?, isValueDelimiter b = true

theorem IsSpan.extend {v t : GoString} (hv : IsSpan v) (ht : EndsValue t) :
    scanJSONValueUnbounded (v ++ t) = .ok (v, t) := by
  rw [IsSpan, scanJSONValueUnbounded, scanValueWith.eq_def] at hv
  split at hv
  · simp at hv
  · rename_i b s
    rw [scanJSONValueUnbounded, List.cons_append, scanValueWith]
    split at hv
    · rename_i hb
      rw [if_pos hb]
      have := scanJSONString_extend hv t
      rwa [List.nil_append, List.cons_append] at this
    · rename_i hb
      rw [if_neg hb]
      split at hv
      · rename_i hliteral
        rw [if_pos hliteral]
        split at hv
        · simp at hv
        · rename_i hdelimiter
          simp only [Except.ok.injEq, Prod.mk.injEq] at hv
          rw [if_neg hdelimiter]
          have hall : ∀ x ∈ b :: s, (!isValueDelimiter x) = true := by
            rw [← List.takeWhile_eq_self_iff]
            exact hv.1
          have hnone : t.takeWhile (!isValueDelimiter ·) = [] := by
            cases t with
            | nil => rfl
            | cons x t => simp [ht x rfl]
          rw [← List.cons_append, List.takeWhile_append_of_pos hall,
            List.dropWhile_append_of_pos hall, hnone, List.append_nil]
          congr 2
          cases t with
          | nil => rfl
          | cons x t => simp [ht x rfl]
      · rename_i hliteral
        rw [if_neg hliteral]
        obtain ⟨span, hspan, hrest⟩ := pass_eq_ok hv
        obtain rfl := (List.cons_eq_cons.mp hspan).2
        rw [scanUnbounded_extend hrest, pass_ok, List.nil_append]

/-! ### Members in front of a value -/

/-- The name of a member, up to where its value starts. -/
structure MemberName where
  before : GoString
  rawKey : GoString
  after : GoString
  gap : GoString
  key : GoString
  hbefore : ∀ b ∈ before, Json.isSpace b = true
  hafter : ∀ b ∈ after, Json.isSpace b = true
  hgap : ∀ b ∈ gap, Json.isSpace b = true
  hkey : scanJSONString rawKey = .ok (rawKey, [])
  hdecode : decodeSmallString rawKey = .ok key

def MemberName.render (name : MemberName) : GoString :=
  name.before ++ (name.rawKey ++ (name.after ++ 58 :: name.gap))

/-- A member with the comma behind it. -/
structure Member where
  name : MemberName
  value : GoString
  trail : GoString
  hvalue : IsSpan value
  htrail : ∀ b ∈ trail, Json.isSpace b = true

def Member.render (m : Member) : GoString := m.name.render ++ (m.value ++ (m.trail ++ [44]))

/-- A body around the value of one of its members. The members in front of it are told
apart; what follows need only end the value. -/
structure Envelope where
  lead : GoString
  members : List Member
  slot : MemberName
  rest : GoString
  hlead : ∀ b ∈ lead, Json.isSpace b = true
  hrest : EndsValue rest

def Envelope.body (e : Envelope) (v : GoString) : GoString :=
  e.lead ++ 123 :: (e.members.flatMap Member.render ++ (e.slot.render ++ (v ++ e.rest)))

theorem skipWhitespace_append {w : GoString} (hw : ∀ b ∈ w, Json.isSpace b = true) (s : GoString) :
    skipWhitespace (w ++ s) = skipWhitespace s :=
  List.dropWhile_append_of_pos hw

theorem skipWhitespace_cons {b : UInt8} (hb : Json.isSpace b = false) (s : GoString) :
    skipWhitespace (b :: s) = b :: s := by
  simp [skipWhitespace, Json.skipSpace, hb]

theorem exists_cons_of_scanJSONString {s span rest : GoString}
    (h : scanJSONString s = .ok (span, rest)) : ∃ t, s = 34 :: t := by
  rw [scanJSONString.eq_def] at h
  split at h
  · simp at h
  · rename_i b t
    split at h
    · rename_i hb
      exact ⟨t, by rw [hb]⟩
    · simp at h

theorem IsSpan.head {v : GoString} (hv : IsSpan v) : ∃ b t, v = b :: t ∧ Json.isSpace b = false := by
  rw [IsSpan, scanJSONValueUnbounded, scanValueWith.eq_def] at hv
  split at hv
  · simp at hv
  · rename_i b t
    refine ⟨b, t, rfl, ?_⟩
    by_contra hspace
    have hb : b ≠ 34 ∧ b ≠ 123 ∧ b ≠ 91 ∧ isValueDelimiter b = true := by
      simp only [Json.isSpace, Bool.not_eq_false, Bool.or_eq_true, beq_iff_eq] at hspace
      rcases hspace with ((rfl | rfl) | rfl) | rfl <;> decide
    simp [hb] at hv

theorem endsValue_space {w s : GoString} (hw : ∀ b ∈ w, Json.isSpace b = true) (hs : EndsValue s) :
    EndsValue (w ++ s) := by
  cases w with
  | nil => exact hs
  | cons b w =>
      intro x hx
      obtain rfl : b = x := by simpa using hx
      have := hw b (by simp)
      simp only [Json.isSpace, Bool.or_eq_true, beq_iff_eq] at this
      rcases this with ((rfl | rfl) | rfl) | rfl <;> rfl

theorem scanMember_render (name : MemberName) {v t : GoString} (hv : IsSpan v) (ht : EndsValue t) :
    ∃ s, skipWhitespace (name.render ++ (v ++ t)) = 34 :: s ∧
      scanMemberWith scanJSONValueUnbounded (34 :: s) = .ok (⟨name.key, name.rawKey, v⟩, t) := by
  obtain ⟨s, hs⟩ := exists_cons_of_scanJSONString name.hkey
  have htext : name.render ++ (v ++ t) =
      name.before ++ (name.rawKey ++ (name.after ++ 58 :: (name.gap ++ (v ++ t)))) := by
    simp [MemberName.render]
  refine ⟨s ++ (name.after ++ 58 :: (name.gap ++ (v ++ t))), ?_, ?_⟩
  · rw [htext, skipWhitespace_append name.hbefore, hs, List.cons_append, skipWhitespace_cons rfl]
  · obtain ⟨b, v', hv', hb⟩ := hv.head
    have hvalue : skipWhitespace (name.gap ++ (v ++ t)) = v ++ t := by
      rw [skipWhitespace_append name.hgap, hv', List.cons_append, skipWhitespace_cons hb]
    rw [← List.cons_append, ← hs, scanMemberWith, scanJSONString_extend name.hkey]
    simp only [bind, Except.bind, name.hdecode, List.nil_append]
    rw [skipWhitespace_append name.hafter, skipWhitespace_cons rfl]
    simp [hvalue, hv.extend ht, pure, Except.pure]

/-- The loop of the second scanner, one turn of it. -/
theorem deepModelFrom_eq (model s : GoString) : deepModelFrom model s = (
    match skipWhitespace s with
    | [] => .error (.text "unterminated JSON object")
    | b :: t =>
        if b = 125 then
          if skipWhitespace t ≠ [] ∨ model = [] then .error (.text "model is required")
          else .ok model
        else match scanMemberWith scanJSONValueUnbounded (b :: t) with
          | .error e => .error e
          | .ok (field, rest) =>
              match if field.key = bytes "model" then requiredModel field.value else .ok model with
              | .error e => .error e
              | .ok model =>
                  match skipWhitespace rest with
                  | [] => .error (.text "invalid JSON object separator")
                  | c :: after =>
                      if c = 44 then deepModelFrom model after
                      else if c = 125 then deepModelFrom model (c :: after)
                      else .error (.text "invalid JSON object separator")) := by
  rw [deepModelFrom.eq_def]
  split
  · rename_i hskip
    rw [hskip]
  · rename_i b t hskip
    simp only [hskip]
    split
    · rfl
    · split
      · rename_i hmember
        rw [hmember]
      · rename_i field rest hmember
        rw [hmember]
        simp only []
        generalize (if field.key = bytes "model" then requiredModel field.value
          else Except.ok model) = named
        cases named with
        | error e => rfl
        | ok model =>
            simp only []
            split
            · rename_i hafter
              rw [hafter]
            · rename_i hafter
              rw [hafter]

theorem deepModelFrom_member (m : Member) (model t : GoString) :
    deepModelFrom model (m.render ++ t) =
      match if m.name.key = bytes "model" then requiredModel m.value else .ok model with
      | .error e => .error e
      | .ok model => deepModelFrom model t := by
  have hends : EndsValue (m.trail ++ 44 :: t) :=
    endsValue_space m.htrail (by simp [EndsValue, isValueDelimiter])
  obtain ⟨s, hskip, hmember⟩ := scanMember_render m.name m.hvalue hends
  have htext : m.render ++ t = m.name.render ++ (m.value ++ (m.trail ++ 44 :: t)) := by
    simp [Member.render]
  rw [htext, deepModelFrom_eq, hskip]
  simp only [hmember, skipWhitespace_append m.htrail, skipWhitespace_cons (show Json.isSpace 44 = false from rfl)]
  split
  · rename_i h
    simp at h
  · rfl

/-- The second scanner finds the same model whatever the value is. -/
theorem deepModelFrom_body (e : Envelope) (hslot : e.slot.key ≠ bytes "model") {v w : GoString}
    (hv : IsSpan v) (hw : IsSpan w) (members : List Member) (model : GoString) :
    deepModelFrom model (members.flatMap Member.render ++ (e.slot.render ++ (v ++ e.rest))) =
      deepModelFrom model (members.flatMap Member.render ++ (e.slot.render ++ (w ++ e.rest))) := by
  induction members generalizing model with
  | nil =>
      obtain ⟨s, hskip, hmember⟩ := scanMember_render e.slot hv e.hrest
      obtain ⟨s', hskip', hmember'⟩ := scanMember_render e.slot hw e.hrest
      simp only [List.flatMap_nil, List.nil_append]
      rw [deepModelFrom_eq, deepModelFrom_eq model (e.slot.render ++ (w ++ e.rest)), hskip, hskip']
      simp only [hmember, hmember', hslot, if_false, show (34 : UInt8) ≠ 125 by decide]
  | cons m members ih =>
      simp only [List.flatMap_cons, List.append_assoc, deepModelFrom_member]
      split
      · rfl
      · exact ih _

theorem extractModel_body (e : Envelope) (hslot : e.slot.key ≠ bytes "model") {v w : GoString}
    (hv : IsSpan v) (hw : IsSpan w) :
    extractModelFromDeepEnvelope (e.body v) = extractModelFromDeepEnvelope (e.body w) := by
  simp only [extractModelFromDeepEnvelope, Envelope.body, skipWhitespace_append e.hlead,
    skipWhitespace_cons (show Json.isSpace 123 = false from rfl), if_true]
  exact deepModelFrom_body e hslot hv hw e.members []

/-! ### The model of a deep body -/

/-- The text behind the opening brace of a body is told apart into these members, and
nothing but space follows the closing brace. -/
inductive Told : GoString → List JsonField → Prop
  | close {s t : GoString} (hskip : skipWhitespace s = 125 :: t) (hrest : skipWhitespace t = []) :
      Told s []
  | member {s t rest after : GoString} {b : UInt8} {field : JsonField} {fields : List JsonField}
      (hskip : skipWhitespace s = b :: t) (hb : b ≠ 125)
      (hmember : scanMemberWith scanJSONValueUnbounded (b :: t) = .ok (field, rest))
      (hafter : skipWhitespace rest = 44 :: after) (hfields : Told after fields) :
      Told s (field :: fields)
  | last {s t rest after : GoString} {b : UInt8} {field : JsonField} {fields : List JsonField}
      (hskip : skipWhitespace s = b :: t) (hb : b ≠ 125)
      (hmember : scanMemberWith scanJSONValueUnbounded (b :: t) = .ok (field, rest))
      (hafter : skipWhitespace rest = 125 :: after) (hfields : Told (125 :: after) fields) :
      Told s (field :: fields)

/-- The values of the members with the name `model`. -/
def modelValues (fields : List JsonField) : List GoString :=
  (fields.filter (·.key = bytes "model")).map JsonField.value

/-- The model after some more members. -/
def modelAfter (model : GoString) (fields : List JsonField) : Except LocalityError GoString :=
  (modelValues fields).foldlM (fun _ raw => requiredModel raw) model

theorem modelAfter_cons (model : GoString) (field : JsonField) (fields : List JsonField) :
    modelAfter model (field :: fields) =
      match if field.key = bytes "model" then requiredModel field.value else .ok model with
      | .error e => .error e
      | .ok model => modelAfter model fields := by
  by_cases hkey : field.key = bytes "model"
  · simp only [modelAfter, modelValues, List.filter_cons, hkey, decide_true, if_true, List.map_cons,
      List.foldlM_cons]
    cases requiredModel field.value <;> rfl
  · simp [modelAfter, modelValues, hkey]

theorem exists_told {model s m : GoString} (h : deepModelFrom model s = .ok m) :
    ∃ fields, Told s fields ∧ modelAfter model fields = .ok m ∧ m ≠ [] := by
  induction hlen : s.length using Nat.strongRecOn generalizing s model with
  | ind n ih =>
      subst hlen
      have hle := length_skipWhitespace_le s
      rw [deepModelFrom_eq] at h
      cases hskip : skipWhitespace s with
      | nil => simp [hskip] at h
      | cons b t =>
          rw [hskip] at h hle
          by_cases hb : b = 125
          · subst hb
            simp only [if_true] at h
            split at h
            · simp at h
            · rename_i hend
              obtain rfl := Except.ok.inj h
              rw [not_or, not_not] at hend
              exact ⟨[], .close hskip hend.1, rfl, hend.2⟩
          · simp only [hb, if_false] at h
            split at h
            · simp at h
            · rename_i field rest hmember
              have hlt := scanMemberWith_shortens (fun h => scanJSONValueUnbounded_append h) hmember
              have hle' := length_skipWhitespace_le rest
              split at h
              · simp at h
              · rename_i model' hmodel
                split at h
                · simp at h
                · rename_i c after hafter
                  rw [hafter, List.length_cons] at hle'
                  split at h
                  · rename_i hc
                    subst hc
                    obtain ⟨fields, htold, hm, hne⟩ := ih _ (by omega) h rfl
                    refine ⟨field :: fields, .member hskip hb hmember hafter htold, ?_, hne⟩
                    rw [modelAfter_cons, hmodel]
                    exact hm
                  · split at h
                    · rename_i hc
                      subst hc
                      have hlt' : (125 :: after).length < s.length := by
                        rw [List.length_cons]
                        omega
                      obtain ⟨fields, htold, hm, hne⟩ := ih _ hlt' h rfl
                      refine ⟨field :: fields, .last hskip hb hmember hafter htold, ?_, hne⟩
                      rw [modelAfter_cons, hmodel]
                      exact hm
                    · simp at h

theorem Told.deepModelFrom {s m : GoString} {fields : List JsonField} (h : Told s fields)
    {model : GoString} (hm : modelAfter model fields = .ok m) (hne : m ≠ []) :
    deepModelFrom model s = .ok m := by
  induction h generalizing model with
  | close hskip hrest =>
      obtain rfl : model = m := Except.ok.inj hm
      rw [deepModelFrom_eq, hskip]
      simp [hrest, hne]
  | member hskip hb hmember hafter _ ih =>
      rw [modelAfter_cons] at hm
      rw [deepModelFrom_eq, hskip]
      simp only [hb, if_false, hmember, hafter, if_true]
      split at hm
      · simp at hm
      · exact ih hm
  | last hskip hb hmember hafter _ ih =>
      rw [modelAfter_cons] at hm
      rw [deepModelFrom_eq, hskip]
      simp only [hb, if_false, hmember, hafter, if_true, show (125 : UInt8) ≠ 44 by decide]
      split at hm
      · simp at hm
      · exact ih hm

/-- Every member with the name `model` is a string that is not empty, and the last one
is `m`. -/
def NamesModel (fields : List JsonField) (m : GoString) : Prop :=
  (∀ raw ∈ modelValues fields, ∃ m', requiredModel raw = .ok m') ∧
    ∃ raw, (modelValues fields).getLast? = some raw ∧ requiredModel raw = .ok m

theorem ne_nil_of_requiredModel {raw m : GoString} (h : requiredModel raw = .ok m) : m ≠ [] := by
  rw [requiredModel] at h
  split at h
  · simp at h
  · split at h
    · simp at h
    · rename_i hne
      rwa [← Except.ok.inj h]

theorem foldlM_requiredModel_iff {raws : List GoString} {model m : GoString} (hne : raws ≠ []) :
    raws.foldlM (fun _ raw => requiredModel raw) model = .ok m ↔
      (∀ raw ∈ raws, ∃ m', requiredModel raw = .ok m') ∧
        ∃ raw, raws.getLast? = some raw ∧ requiredModel raw = .ok m := by
  induction raws generalizing model with
  | nil => exact absurd rfl hne
  | cons raw raws ih =>
      cases hraw : requiredModel raw with
      | error e => simp [hraw, List.foldlM_cons, bind, Except.bind]
      | ok m' =>
          simp only [List.foldlM_cons, hraw, bind, Except.bind]
          cases raws with
          | nil => simp [hraw, pure, Except.pure]
          | cons raw' raws =>
              rw [ih (by simp)]
              simp [hraw]

theorem modelAfter_nil_iff {fields : List JsonField} {m : GoString} :
    (modelAfter [] fields = .ok m ∧ m ≠ []) ↔ NamesModel fields m := by
  rw [modelAfter, NamesModel]
  by_cases hnil : modelValues fields = []
  · simp only [hnil, List.foldlM_nil, List.getLast?_nil]
    constructor
    · rintro ⟨hm, hne⟩
      exact absurd (Except.ok.inj hm).symm hne
    · rintro ⟨-, raw, hraw, -⟩
      simp at hraw
  · rw [foldlM_requiredModel_iff hnil]
    constructor
    · exact fun h => h.1
    · rintro ⟨hall, raw, hlast, hm⟩
      exact ⟨⟨hall, raw, hlast, hm⟩, ne_nil_of_requiredModel hm⟩

/-- The members of a body, as the second scanner tells them apart. -/
def ToldBody (body : GoString) (fields : List JsonField) : Prop :=
  ∃ s, skipWhitespace body = 123 :: s ∧ Told s fields

theorem extractModel_eq_ok_iff {body m : GoString} : extractModelFromDeepEnvelope body = .ok m ↔
    ∃ fields, ToldBody body fields ∧ NamesModel fields m := by
  rw [extractModelFromDeepEnvelope]
  constructor
  · intro h
    split at h
    · simp at h
    · rename_i b s hskip
      split at h
      · rename_i hb
        subst hb
        obtain ⟨fields, htold, hm⟩ := exists_told h
        exact ⟨fields, ⟨s, hskip, htold⟩, modelAfter_nil_iff.mp hm⟩
      · simp at h
  · rintro ⟨fields, ⟨s, hskip, htold⟩, hnames⟩
    obtain ⟨hm, hne⟩ := modelAfter_nil_iff.mpr hnames
    simp only [hskip, if_true]
    exact htold.deepModelFrom hm hne

/-! ### Deep and shallow bodies -/

/-- The two requests have the same model and are both accepted or both rejected. -/
def Alike (a b : Inspection) : Prop := a.model = b.model ∧ (a.err = none ↔ b.err = none)

/-- What is said of a deep body. -/
def Inspection.ofDeep : Except LocalityError GoString → Inspection
  | .error e => .rejected e
  | .ok model => ⟨model, none, false, none⟩

section

variable (sum64 : GoString → UInt64) (order : FieldSort)

/-- What is said of the messages or the prompt of a request. -/
def contentOf (fields : List JsonField) (model : GoString) (seed : UInt64) (options : Options) :
    Inspection :=
  let budget : BlockBudget := ⟨options.maxBlocks.toNat, options.blockSizeTokens.toNat⟩
  match fieldValue fields (bytes "messages"), fieldValue fields (bytes "prompt") with
  | some messages, _ => .accepted model (extractChat sum64 order messages
      ((fieldValue fields (bytes "tools")).getD []) seed options.toolMode budget)
  | none, some prompt => .accepted model (extractCompletion sum64 prompt seed budget)
  | none, none => ⟨model, none, false, none⟩

/-- A body that is valid JSON within the depth limit, whose first member with the name
`model` is the model and whose salt, if it has one, is a string. -/
structure Readable (body model : GoString) (fields : List JsonField) (seed : UInt64) : Prop where
  scanned : ∃ span rest, scanJSONValue (skipWhitespace body) = .ok (span, rest) ∧
    skipWhitespace rest = []
  valid : jsonValid body = true
  parsed : parseObjectFields body = .ok fields
  first : requiredModel ((fieldValue fields (bytes "model")).getD []) = .ok model
  salted : namespaceHash sum64 ((fieldValue fields (bytes "model")).getD []) model.length
    ((fieldValue fields (bytes "cache_salt")).filter
      fun raw => Strings.trimSpace raw ≠ bytes "null") = .ok seed

variable {sum64} in
theorem Readable.unique {body model model' : GoString} {fields fields' : List JsonField}
    {seed seed' : UInt64} (h : Readable sum64 body model fields seed)
    (h' : Readable sum64 body model' fields' seed') :
    fields = fields' ∧ model = model' ∧ seed = seed' := by
  obtain rfl := Except.ok.inj (h.parsed.symm.trans h'.parsed)
  obtain rfl := Except.ok.inj (h.first.symm.trans h'.first)
  exact ⟨rfl, rfl, Except.ok.inj (h.salted.symm.trans h'.salted)⟩

theorem contentOf_model (fields : List JsonField) (model : GoString) (seed : UInt64)
    (options : Options) : (contentOf sum64 order fields model seed options).model = model := by
  have haccepted : ∀ r, (Inspection.accepted model r).model = model := by
    intro r
    rw [Inspection.accepted.eq_def]
    split <;> rfl
  simp only [contentOf]
  split
  · exact haccepted _
  · exact haccepted _
  · rfl

/-- What the strict path says of a body with valid options. -/
theorem inspect_strict {body : GoString} {options : Options}
    (hoptions : options.withDefaults.problem = none)
    (hhead : (skipWhitespace body).head? = some 123)
    (hstrict : scanJSONValue (skipWhitespace body) ≠ .error .jsonDepthLimit) :
    (∃ model fields seed, Readable sum64 body model fields seed ∧
      inspectRequestWithOptions sum64 order body options =
        contentOf sum64 order fields model seed options.withDefaults) ∨
    ((∀ model fields seed, ¬Readable sum64 body model fields seed) ∧
      ∃ e, inspectRequestWithOptions sum64 order body options = .rejected e) := by
  simp only [inspectRequestWithOptions, hoptions, hhead, ne_eq, not_true_eq_false, if_false]
  cases hscan : scanJSONValue (skipWhitespace body) with
  | error e =>
      right
      constructor
      · rintro model fields seed ⟨⟨span, rest, hok, -⟩, -, -, -, -⟩
        simp [hscan] at hok
      · cases e <;> first | exact absurd hscan hstrict | exact ⟨_, rfl⟩
  | ok spanned =>
      obtain ⟨span, rest⟩ := spanned
      simp only []
      by_cases hinvalid : skipWhitespace rest ≠ [] ∨ (!jsonValid body) = true
      · right
        constructor
        · rintro model fields seed ⟨⟨span', rest', hok, hrest⟩, hvalid, -, -, -⟩
          obtain ⟨rfl, rfl⟩ : span = span' ∧ rest = rest' := by simpa [hscan] using hok
          simp [hrest, hvalid] at hinvalid
        · exact ⟨_, if_pos hinvalid⟩
      · rw [if_neg hinvalid]
        rw [not_or, not_not, Bool.not_eq_true, Bool.not_eq_false'] at hinvalid
        cases hfields : parseObjectFields body with
        | error e =>
            right
            refine ⟨?_, e, by simp [inspectValidatedRequest, hfields]⟩
            rintro model fields seed ⟨-, -, hparsed, -, -⟩
            simp [hfields] at hparsed
        | ok fields =>
            cases hmodel : requiredModel ((fieldValue fields (bytes "model")).getD []) with
            | error e =>
                right
                refine ⟨?_, e, by simp [inspectValidatedRequest, hfields, hmodel]⟩
                rintro model fields' seed ⟨-, -, hparsed, hfirst, -⟩
                obtain rfl := Except.ok.inj (hfields.symm.trans hparsed)
                simp [hmodel] at hfirst
            | ok model =>
                cases hseed : namespaceHash sum64 ((fieldValue fields (bytes "model")).getD [])
                    model.length ((fieldValue fields (bytes "cache_salt")).filter
                      fun raw => Strings.trimSpace raw ≠ bytes "null") with
                | error e =>
                    right
                    refine ⟨?_, e, by simp only [inspectValidatedRequest, hfields, hmodel, hseed]⟩
                    rintro model' fields' seed ⟨-, -, hparsed, hfirst, hsalted⟩
                    obtain rfl := Except.ok.inj (hfields.symm.trans hparsed)
                    obtain rfl := Except.ok.inj (hmodel.symm.trans hfirst)
                    rw [hseed] at hsalted
                    simp at hsalted
                | ok seed =>
                    left
                    refine ⟨model, fields, seed,
                      ⟨⟨span, rest, hscan, hinvalid.1⟩, hinvalid.2, hfields, hmodel, hseed⟩, ?_⟩
                    cases hmessages : fieldValue fields (bytes "messages") <;>
                      cases hprompt : fieldValue fields (bytes "prompt") <;>
                      simp only [inspectValidatedRequest, hfields, hmodel, hseed, contentOf,
                        hmessages, hprompt]

/-- A body that is nested too deeply, with the value of one of its members replaced, by
`null` or by the value with `null` in the place of what is too deep. -/
theorem deep_alike_iff (options : Options) (e : Envelope) (hslot : e.slot.key ≠ bytes "model")
    {v w : GoString} (hv : IsSpan v) (hw : IsSpan w)
    (hdeep : scanJSONValue (skipWhitespace (e.body v)) = .error .jsonDepthLimit) :
    Alike (inspectRequestWithOptions sum64 order (e.body v) options)
        (inspectRequestWithOptions sum64 order (e.body w) options) ↔
      options.withDefaults.problem ≠ none ∨
      scanJSONValue (skipWhitespace (e.body w)) = .error .jsonDepthLimit ∨
      (∀ fields model, ToldBody (e.body v) fields → NamesModel fields model →
        ∃ fields' seed, Readable sum64 (e.body w) model fields' seed ∧
          (contentOf sum64 order fields' model seed options.withDefaults).err = none) ∧
      ∀ fields' seed model, Readable sum64 (e.body w) model fields' seed →
        ∃ fields model', ToldBody (e.body v) fields ∧ NamesModel fields model' := by
  have hhead : ∀ x, (skipWhitespace (e.body x)).head? = some 123 := by
    intro x
    rw [Envelope.body, skipWhitespace_append e.hlead, skipWhitespace_cons rfl]
    rfl
  by_cases hoptions : options.withDefaults.problem = none
  swap
  · obtain ⟨err, herr⟩ := Option.ne_none_iff_exists'.mp hoptions
    have hboth : ∀ x, inspectRequestWithOptions sum64 order x options = .rejected err := by
      intro x
      simp only [inspectRequestWithOptions, herr]
    rw [hboth, hboth]
    exact ⟨fun _ => .inl hoptions, fun _ => ⟨rfl, Iff.rfl⟩⟩
  have hbody : ∀ x, scanJSONValue (skipWhitespace (e.body x)) = .error .jsonDepthLimit →
      inspectRequestWithOptions sum64 order (e.body x) options =
        .ofDeep (extractModelFromDeepEnvelope (e.body x)) := by
    intro x hx
    cases hmodel : extractModelFromDeepEnvelope (e.body x) <;>
      simp only [inspectRequestWithOptions, hoptions, hhead, hx, ne_eq, not_true_eq_false, if_false,
        hmodel, Inspection.ofDeep]
  rw [hbody v hdeep]
  by_cases hshallow : scanJSONValue (skipWhitespace (e.body w)) = .error .jsonDepthLimit
  · rw [hbody w hshallow, extractModel_body e hslot hv hw]
    exact ⟨fun _ => .inr (.inl hshallow), fun _ => ⟨rfl, Iff.rfl⟩⟩
  simp only [hoptions, hshallow, ne_eq, not_true_eq_false, false_or]
  cases hmodel : extractModelFromDeepEnvelope (e.body v) with
  | ok model =>
      -- the deep body is accepted, so the replaced one has to be, with the same model
      obtain ⟨fields, htold, hnames⟩ := extractModel_eq_ok_iff.mp hmodel
      rcases inspect_strict sum64 order hoptions (hhead w) hshallow with
        ⟨model', fields', seed, hreadable, hw⟩ | ⟨hunreadable, err, hw⟩
      · rw [hw]
        constructor
        · rintro ⟨heq, herr⟩
          rw [contentOf_model] at heq
          obtain rfl : model = model' := heq
          refine ⟨fun fields₁ model₁ htold₁ hnames₁ => ?_, fun _ _ _ _ => ⟨fields, model, htold, hnames⟩⟩
          obtain rfl : model = model₁ :=
            Except.ok.inj (hmodel.symm.trans (extractModel_eq_ok_iff.mpr ⟨fields₁, htold₁, hnames₁⟩))
          exact ⟨fields', seed, hreadable, herr.mp rfl⟩
        · rintro ⟨haccept, -⟩
          obtain ⟨fields₁, seed₁, hreadable₁, herr⟩ := haccept fields model htold hnames
          obtain ⟨rfl, rfl, rfl⟩ := hreadable.unique hreadable₁
          exact ⟨(contentOf_model _ _ _ _ _ _).symm, fun _ => herr, fun _ => rfl⟩
      · rw [hw]
        constructor
        · rintro ⟨-, herr⟩
          exact absurd (herr.mp rfl) (by simp [Inspection.rejected])
        · rintro ⟨haccept, -⟩
          obtain ⟨fields₁, seed₁, hreadable₁, -⟩ := haccept fields model htold hnames
          exact absurd hreadable₁ (hunreadable _ _ _)
  | error err =>
      -- the deep body is rejected without a model, so the replaced one must not be readable
      have hnone : ∀ fields model, ToldBody (e.body v) fields → ¬NamesModel fields model := by
        intro fields model htold hnames
        have hok := extractModel_eq_ok_iff.mpr ⟨fields, htold, hnames⟩
        simp [hmodel] at hok
      rcases inspect_strict sum64 order hoptions (hhead w) hshallow with
        ⟨model', fields', seed, hreadable, hw⟩ | ⟨hunreadable, err', hw⟩
      · rw [hw]
        constructor
        · rintro ⟨heq, -⟩
          rw [contentOf_model] at heq
          exact absurd heq.symm (ne_nil_of_requiredModel hreadable.first)
        · rintro ⟨-, hnames⟩
          obtain ⟨fields, model, htold, hname⟩ := hnames _ _ _ hreadable
          exact absurd hname (hnone _ _ htold)
      · rw [hw]
        refine ⟨fun _ => ⟨fun fields model htold hname => absurd hname (hnone _ _ htold),
          fun fields' seed model hreadable => absurd hreadable (hunreadable _ _ _)⟩, fun _ => ?_⟩
        exact ⟨rfl, by simp [Inspection.ofDeep, Inspection.rejected]⟩

end

/-- A name without space around it. -/
def MemberName.bare (rawKey key : GoString) (hkey : scanJSONString rawKey = .ok (rawKey, []))
    (hdecode : decodeSmallString rawKey = .ok key) : MemberName :=
  ⟨[], rawKey, [], [], key, by simp, by simp, by simp, hkey, hdecode⟩

def modelName : MemberName := .bare (bytes "\"model\"") (bytes "model") rfl (by decide)

def extraName : MemberName := .bare (bytes "\"x\"") (bytes "x") rfl (by decide)

/-- `{"model":"a","model":"b","x":`…`}`. -/
def twoModels : Envelope where
  lead := []
  members :=
    [⟨modelName, bytes "\"a\"", [], rfl, by simp⟩, ⟨modelName, bytes "\"b\"", [], rfl, by simp⟩]
  slot := extraName
  rest := [125]
  hlead := by simp
  hrest := by simp [EndsValue, isValueDelimiter]

/-- `{"model":"a","x":tru,"x":`…`}`. -/
def malformed : Envelope where
  lead := []
  members :=
    [⟨modelName, bytes "\"a\"", [], rfl, by simp⟩, ⟨extraName, bytes "tru", [], rfl, by simp⟩]
  slot := extraName
  rest := [125]
  hlead := by simp
  hrest := by simp [EndsValue, isValueDelimiter]

/-- Arrays in one another, one more than the scanner allows below the body. -/
def nested : GoString := List.replicate 64 91 ++ List.replicate 64 93

/-- With two models the deep body has the second one and the other body the first; the
malformed body is accepted only while it is deep. -/
theorem not_alike_nested :
    (scanJSONValue (skipWhitespace (twoModels.body nested)) = .error .jsonDepthLimit ∧
      ¬Alike (inspectRequestWithOptions XxHash.sum64 mergeFields (twoModels.body nested)
          ⟨.unset, 0, 0⟩)
        (inspectRequestWithOptions XxHash.sum64 mergeFields (twoModels.body (bytes "null"))
          ⟨.unset, 0, 0⟩)) ∧
    (scanJSONValue (skipWhitespace (malformed.body nested)) = .error .jsonDepthLimit ∧
      ¬Alike (inspectRequestWithOptions XxHash.sum64 mergeFields (malformed.body nested)
          ⟨.unset, 0, 0⟩)
        (inspectRequestWithOptions XxHash.sum64 mergeFields (malformed.body (bytes "null"))
          ⟨.unset, 0, 0⟩)) := by
  have hdup : (inspectRequestWithOptions XxHash.sum64 mergeFields (twoModels.body nested)
      ⟨.unset, 0, 0⟩).model = bytes "b" ∧
      (inspectRequestWithOptions XxHash.sum64 mergeFields (twoModels.body (bytes "null"))
        ⟨.unset, 0, 0⟩).model = bytes "a" := by decide +kernel
  have hbad : (inspectRequestWithOptions XxHash.sum64 mergeFields (malformed.body nested)
      ⟨.unset, 0, 0⟩).model = bytes "a" ∧
      (inspectRequestWithOptions XxHash.sum64 mergeFields (malformed.body (bytes "null"))
        ⟨.unset, 0, 0⟩).model = [] := by decide +kernel
  refine ⟨⟨by decide +kernel, ?_⟩, by decide +kernel, ?_⟩
  · rintro ⟨hmodel, -⟩
    rw [hdup.1, hdup.2] at hmodel
    exact absurd hmodel (by decide)
  · rintro ⟨hmodel, -⟩
    rw [hbad.1, hbad.2] at hmodel
    exact absurd hmodel (by decide)

/-- `{"model":"a","x":`…`}`. -/
def oneModel : Envelope where
  lead := []
  members := [⟨modelName, bytes "\"a\"", [], rfl, by simp⟩]
  slot := extraName
  rest := [125]
  hlead := by simp
  hrest := by simp [EndsValue, isValueDelimiter]

/-- A body with one model, for which both sides hold. -/
theorem deep_alike_oneModel :
    (inspectRequestWithOptions XxHash.sum64 mergeFields (oneModel.body nested)
      ⟨.unset, 0, 0⟩).model = bytes "a" ∧
    ∃ fields fields' seed model, ToldBody (oneModel.body nested) fields ∧
      NamesModel fields model ∧
      Readable XxHash.sum64 (oneModel.body (bytes "null")) model fields' seed := by
  have halike : Alike (inspectRequestWithOptions XxHash.sum64 mergeFields (oneModel.body nested)
      ⟨.unset, 0, 0⟩) (inspectRequestWithOptions XxHash.sum64 mergeFields
        (oneModel.body (bytes "null")) ⟨.unset, 0, 0⟩) := by
    refine ⟨by decide +kernel, ?_⟩
    have h : (inspectRequestWithOptions XxHash.sum64 mergeFields (oneModel.body nested)
        ⟨.unset, 0, 0⟩).err = none ∧ (inspectRequestWithOptions XxHash.sum64 mergeFields
          (oneModel.body (bytes "null")) ⟨.unset, 0, 0⟩).err = none := by decide +kernel
    simp [h]
  have hmodel : extractModelFromDeepEnvelope (oneModel.body nested) = .ok (bytes "a") := by
    decide +kernel
  obtain ⟨fields, htold, hnames⟩ := extractModel_eq_ok_iff.mp hmodel
  obtain hoptions | hshallow | ⟨haccept, -⟩ := (deep_alike_iff XxHash.sum64 mergeFields
    ⟨.unset, 0, 0⟩ oneModel (by decide) (show IsSpan nested by decide +kernel)
    (show IsSpan (bytes "null") from rfl) (by decide +kernel)).mp halike
  · exact absurd rfl hoptions
  · exact absurd hshallow (by decide)
  · obtain ⟨fields', seed, hreadable, -⟩ := haccept fields _ htold hnames
    exact ⟨by decide +kernel, fields, fields', seed, _, htold, hnames, hreadable⟩

end Higress.Picker
