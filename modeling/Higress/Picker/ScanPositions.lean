import Higress.Picker.Locality

/-!
The scanners of the endpoint picker with positions, as `prefixcache/locality.go` has them: a body is
indexed, sliced and never copied, and the open brackets are in an array of fixed length. An index
that is out of range would stop the program.

Every scanner is shown to say of a position what it says of the rest of the text from there, so no
index is ever out of range.
-/

namespace Higress.Picker

open Lib

/-- A result of code that indexes: `none` if an index is out of range, or a loop is not done after
the rounds it is given. -/
def Indexed (α : Type) := Option (Except LocalityError α)

namespace Indexed

variable {α β : Type}

def outOfRange : Indexed α := none

/-- A result that needs no index. -/
def of (r : Except LocalityError α) : Indexed α := some r

def chain (x : Indexed α) (f : α → Indexed β) : Indexed β :=
  match x with
  | none => none
  | some (.error e) => some (.error e)
  | some (.ok a) => f a

instance instMonadIndexed : Monad Indexed where
  pure a := of (.ok a)
  bind := chain

def fail (e : LocalityError) : Indexed α := of (.error e)

/-- `raw[i]`. -/
def index (raw : List α) (i : ℕ) : Indexed α := raw[i]?.map .ok

/-- `raw[i:j]`. -/
def slice (raw : List α) (i j : ℕ) : Indexed (List α) :=
  if i ≤ j ∧ j ≤ raw.length then of (.ok ((raw.drop i).take (j - i))) else outOfRange

/-- `raw[i] = a`. -/
def store (raw : List α) (i : ℕ) (a : α) : Indexed (List α) :=
  if i < raw.length then of (.ok (raw.set i a)) else outOfRange

theorem ok_bind (a : α) (f : α → Indexed β) : (of (.ok a) >>= f) = f a := rfl

theorem error_bind (e : LocalityError) (f : α → Indexed β) : (of (.error e) >>= f) = fail e := rfl

theorem index_of_drop {raw s : List α} {i : ℕ} {a : α} (h : raw.drop i = a :: s) :
    i < raw.length ∧ index raw i = of (.ok a) ∧ raw.drop (i + 1) = s := by
  have hlt : i < raw.length := by
    by_contra hle
    rw [List.drop_eq_nil_of_le (by omega)] at h
    simp at h
  have hget : raw[i]? = some a := by
    rw [← List.head?_drop, h]
    rfl
  refine ⟨hlt, by rw [index, hget]; rfl, ?_⟩
  rw [← List.drop_drop, h]
  rfl

theorem slice_of_drop {raw v s : List α} {i : ℕ} (h : raw.drop i = v ++ s) (hv : v ≠ []) :
    slice raw i (i + v.length) = of (.ok v) ∧ raw.drop (i + v.length) = s := by
  have hlen := congrArg List.length h
  have hpos := List.length_pos_iff.mpr hv
  rw [List.length_drop, List.length_append] at hlen
  refine ⟨?_, ?_⟩
  · rw [slice, if_pos ⟨by omega, by omega⟩, Nat.add_sub_cancel_left, h, List.take_left]
  · rw [← List.drop_drop, h, List.drop_left]

end Indexed

/-! ### The scanners -/

/-- The position behind the bytes from here that pass a test. -/
def passWhile (p : UInt8 → Bool) (raw : GoString) : ℕ → ℕ → Indexed ℕ
  | 0, _ => .outOfRange
  | rounds + 1, position =>
      if position < raw.length then do
        let b ← .index raw position
        if p b then passWhile p raw rounds (position + 1) else pure position
      else pure position

/-- `skipWhitespace`. -/
def skipWhitespaceAt (raw : GoString) (position : ℕ) : Indexed ℕ :=
  passWhile Json.isSpace raw (raw.length + 1) position

/-- The loop of `scanJSONString`. -/
def scanStringLoop (raw : GoString) : ℕ → ℕ → Indexed ℕ
  | 0, _ => .outOfRange
  | rounds + 1, position =>
      if position < raw.length then do
        let b ← .index raw position
        if b = 92 then scanStringLoop raw rounds (position + 1 + 1)
        else if b = 34 then pure (position + 1)
        else scanStringLoop raw rounds (position + 1)
      else .fail (.text "unterminated JSON string")

/-- `scanJSONString`. -/
def scanJSONStringAt (raw : GoString) (start : ℕ) : Indexed ℕ :=
  if start < raw.length then do
    let b ← .index raw start
    if b = 34 then scanStringLoop raw (raw.length + 1) (start + 1)
    else .fail (.text "expected JSON string")
  else .fail (.text "expected JSON string")

/-- The loop of `scanJSONValue`; `depth` brackets of the array `stack` are open. -/
def scanNestedLoop (raw : GoString) : ℕ → List UInt8 → ℕ → ℕ → Indexed ℕ
  | 0, _, _, _ => .outOfRange
  | rounds + 1, stack, depth, position =>
      if position < raw.length then do
        let b ← .index raw position
        if b = 34 then do
          let stop ← scanJSONStringAt raw position
          scanNestedLoop raw rounds stack depth stop
        else if b = 123 ∨ b = 91 then
          if depth = stack.length then .fail .jsonDepthLimit
          else do
            let stack ← .store stack depth b
            scanNestedLoop raw rounds stack (depth + 1) (position + 1)
        else if b = 125 ∨ b = 93 then
          if depth = 0 then .fail (.text "mismatched JSON delimiter")
          else do
            let top ← .index stack (depth - 1)
            if top = (if b = 93 then 91 else 123) then
              if depth - 1 = 0 then pure (position + 1)
              else scanNestedLoop raw rounds stack (depth - 1) (position + 1)
            else .fail (.text "mismatched JSON delimiter")
        else scanNestedLoop raw rounds stack depth (position + 1)
      else .fail (.text "unterminated JSON value")

/-- `scanJSONValue`. -/
def scanJSONValueAt (raw : GoString) (start : ℕ) : Indexed ℕ :=
  if start < raw.length then do
    let b ← .index raw start
    if b = 34 then scanJSONStringAt raw start
    else if b ≠ 123 ∧ b ≠ 91 then do
      let stop ← passWhile (!isValueDelimiter ·) raw (raw.length + 1) start
      if stop = start then .fail (.text "invalid JSON value") else pure stop
    else do
      let stack ← .store (List.replicate maxJSONDepth 0) 0 b
      scanNestedLoop raw (raw.length + 1) stack 1 (start + 1)
  else .fail (.text "missing JSON value")

/-- The byte at a position, if there is one there. -/
def peek (raw : GoString) (position : ℕ) : Indexed (Option UInt8) :=
  if position < raw.length then do
    let b ← .index raw position
    pure (some b)
  else pure none

/-- What stands behind a value: the position behind a comma, `none` behind the closing byte. -/
def separator (close : UInt8) (message : String) (raw : GoString) (position : ℕ) :
    Indexed (Option ℕ) := do
  let position ← skipWhitespaceAt raw position
  match ← peek raw position with
  | none => .fail (.text message)
  | some b =>
      if b = 44 then pure (some (position + 1))
      else if b = close then pure none
      else .fail (.text message)

/-- A member of an object, and the position behind its value. -/
def memberAt (raw : GoString) (keyStart : ℕ) : Indexed (JsonField × ℕ) := do
  let keyEnd ← scanJSONStringAt raw keyStart
  let rawKey ← .slice raw keyStart keyEnd
  let key ← .of (decodeSmallString rawKey)
  let position ← skipWhitespaceAt raw keyEnd
  match ← peek raw position with
  | none => .fail (.text "missing JSON object colon")
  | some b =>
      if b = 58 then do
        let position ← skipWhitespaceAt raw (position + 1)
        let valueEnd ← scanJSONValueAt raw position
        let value ← .slice raw position valueEnd
        pure (⟨key, rawKey, value⟩, valueEnd)
      else .fail (.text "missing JSON object colon")

/-- The loop of `parseObjectFieldsLimited`. -/
def parseFieldsLoop (raw : GoString) (maxFields : Option ℕ) :
    ℕ → ℕ → List JsonField → Indexed (List JsonField)
  | 0, _, _ => .outOfRange
  | rounds + 1, position, fields => do
      let position ← skipWhitespaceAt raw position
      match ← peek raw position with
      | none => .fail (.text "unterminated JSON object")
      | some b =>
          if b = 125 then pure fields
          else if maxFields.any (· ≤ fields.length) then .fail .canonicalComplexity
          else do
            let (field, valueEnd) ← memberAt raw position
            match ← separator 125 "invalid JSON object separator" raw valueEnd with
            | none => pure (fields ++ [field])
            | some position => parseFieldsLoop raw maxFields rounds position (fields ++ [field])

/-- `parseObjectFieldsLimited`; a negative limit is none. -/
def parseObjectFieldsLimitedAt (raw : GoString) (maxFields : Option ℕ) :
    Indexed (List JsonField) :=
  let raw := Strings.trimSpace raw
  if raw.length < 2 then .fail (.text "expected JSON object")
  else do
    let b ← .index raw 0
    if b = 123 then parseFieldsLoop raw maxFields (raw.length + 1) 1 []
    else .fail (.text "expected JSON object")

/-- `parseObjectFields`. -/
def parseObjectFieldsAt (raw : GoString) : Indexed (List JsonField) :=
  parseObjectFieldsLimitedAt raw none

section

variable {σ : Type}

/-- Goes on with a result in the state `s`. -/
def Indexed.within {α : Type} (x : Indexed α) (s : σ)
    (k : α → Option (Except LocalityError Unit × σ)) : Option (Except LocalityError Unit × σ) :=
  match x with
  | none => none
  | some (.error e) => some (.error e, s)
  | some (.ok a) => k a

/-- An item of an array, and the position behind it. -/
def itemAt (raw : GoString) (position : ℕ) : Indexed (GoString × ℕ) := do
  let stop ← scanJSONValueAt raw position
  let item ← .slice raw position stop
  pure (item, stop)

/-- The loop of `forEachArrayValueWhile`. -/
def forEachLoop (raw : GoString) (shouldContinue : σ → Bool)
    (visit : GoString → Act LocalityError σ Unit) :
    ℕ → ℕ → σ → Option (Except LocalityError Unit × σ)
  | 0, _, _ => none
  | rounds + 1, position, s =>
      (skipWhitespaceAt raw position).within s fun position =>
      (peek raw position).within s fun
        | none => some (.error (.text "unterminated JSON array"), s)
        | some b =>
            if b = 93 then some (.ok (), s)
            else if shouldContinue s then
              (itemAt raw position).within s fun (item, stop) =>
                match visit item s with
                | (.error e, s) => some (.error e, s)
                | (.ok _, s) =>
                    (separator 93 "invalid JSON array separator" raw stop).within s fun
                      | none => some (.ok (), s)
                      | some position => forEachLoop raw shouldContinue visit rounds position s
            else some (.error .semanticCap, s)

/-- `forEachArrayValueWhile`. -/
def forEachArrayValueWhileAt (raw : GoString) (shouldContinue : σ → Bool)
    (visit : GoString → Act LocalityError σ Unit) (s : σ) :
    Option (Except LocalityError Unit × σ) :=
  let raw := Strings.trimSpace raw
  if raw.length < 2 then some (.error (.text "expected JSON array"), s)
  else (Indexed.index raw 0).within s fun b =>
    if b = 91 then forEachLoop raw shouldContinue visit (raw.length + 1) 1 s
    else some (.error (.text "expected JSON array"), s)

end

/-! ### Passing a text -/

/-- A span with a text in front. -/
def passed (w : GoString) (r : Except LocalityError (GoString × GoString)) :
    Except LocalityError (GoString × GoString) :=
  r.map fun spanned => (w ++ spanned.1, spanned.2)

@[simp] theorem passed_nil (r : Except LocalityError (GoString × GoString)) : passed [] r = r := by
  cases r <;> rfl

theorem passed_cons (b : UInt8) (w : GoString) (r : Except LocalityError (GoString × GoString)) :
    passed (b :: w) r = pass b (passed w r) := by
  cases r <;> rfl

theorem passed_append (v w : GoString) (r : Except LocalityError (GoString × GoString)) :
    passed (v ++ w) r = passed v (passed w r) := by
  cases r with
  | error e => rfl
  | ok spanned => simp [passed, Except.map]

/-! ### Positions and rests -/

open Indexed

variable {raw : GoString}

/-- Where a span that starts at a position ends. -/
def endsAt (position : ℕ) (r : Except LocalityError (GoString × GoString)) : Indexed ℕ :=
  of (r.map fun spanned => position + spanned.1.length)

theorem endsAt_pass (position : ℕ) (b : UInt8) (r : Except LocalityError (GoString × GoString)) :
    endsAt position (pass b r) = endsAt (position + 1) r := by
  cases r with
  | error e => rfl
  | ok spanned =>
      simp only [endsAt, pass, Except.map, List.length_cons]
      congr 2
      omega

theorem endsAt_passed (position : ℕ) (w : GoString)
    (r : Except LocalityError (GoString × GoString)) :
    endsAt position (passed w r) = endsAt (position + w.length) r := by
  induction w generalizing position with
  | nil => simp
  | cons b w ih =>
      rw [passed_cons, endsAt_pass, ih, List.length_cons]
      congr 1
      omega

theorem not_lt_of_drop {position : ℕ} (h : raw.drop position = []) : ¬ position < raw.length := by
  rw [List.drop_eq_nil_iff] at h
  omega

theorem passWhile_eq (p : UInt8 → Bool) {rounds position : ℕ}
    (h : (raw.drop position).length < rounds) :
    passWhile p raw rounds position =
      of (.ok (position + ((raw.drop position).takeWhile p).length)) := by
  induction rounds generalizing position with
  | zero => omega
  | succ rounds ih =>
      rw [passWhile]
      cases hdrop : raw.drop position with
      | nil =>
          rw [if_neg (not_lt_of_drop hdrop)]
          rfl
      | cons b s =>
          obtain ⟨hlt, hindex, hnext⟩ := index_of_drop hdrop
          rw [hdrop, List.length_cons] at h
          rw [if_pos hlt, hindex, ok_bind]
          split
          · rename_i hb
            rw [ih (by rw [hnext]; omega), hnext, List.takeWhile_cons_of_pos hb, List.length_cons]
            congr 2
            omega
          · rename_i hb
            rw [List.takeWhile_cons_of_neg hb]
            rfl

theorem skipWhitespaceAt_eq (raw : GoString) (position : ℕ) :
    ∃ q, skipWhitespaceAt raw position = of (.ok q) ∧
      raw.drop q = skipWhitespace (raw.drop position) := by
  refine ⟨_, passWhile_eq Json.isSpace (by rw [List.length_drop]; omega), ?_⟩
  rw [← List.drop_drop]
  nth_rewrite 2 [← @List.takeWhile_append_dropWhile _ Json.isSpace (raw.drop position)]
  rw [List.drop_left]
  rfl

theorem scanStringLoop_eq {rounds position : ℕ} (h : (raw.drop position).length < rounds) :
    scanStringLoop raw rounds position =
      endsAt position (scanStringFrom false (raw.drop position)) := by
  induction rounds generalizing position with
  | zero => omega
  | succ rounds ih =>
      rw [scanStringLoop]
      cases hdrop : raw.drop position with
      | nil =>
          rw [if_neg (not_lt_of_drop hdrop)]
          rfl
      | cons b s =>
          obtain ⟨hlt, hindex, hnext⟩ := index_of_drop hdrop
          rw [hdrop, List.length_cons] at h
          rw [if_pos hlt, hindex, ok_bind, scanStringFrom]
          by_cases hslash : b = 92
          · subst hslash
            rw [if_pos rfl, if_neg (by decide), endsAt_pass]
            cases s with
            | nil =>
                have hend : raw.drop (position + 1 + 1) = [] := by
                  rw [← List.drop_drop, hnext]
                  rfl
                rw [ih (by simpa [hend] using h), hend]
                rfl
            | cons c s =>
                obtain ⟨-, -, hnext'⟩ := index_of_drop hnext
                rw [List.length_cons] at h
                rw [ih (by rw [hnext']; omega), hnext']
                exact (endsAt_pass _ c _).symm
          · rw [if_neg hslash]
            split
            · rfl
            · rw [ih (by rw [hnext]; omega), hnext, beq_false_of_ne hslash, endsAt_pass]

theorem scanJSONStringAt_eq (raw : GoString) (start : ℕ) :
    scanJSONStringAt raw start = endsAt start (scanJSONString (raw.drop start)) := by
  rw [scanJSONStringAt]
  cases hdrop : raw.drop start with
  | nil =>
      rw [if_neg (not_lt_of_drop hdrop)]
      rfl
  | cons b s =>
      obtain ⟨hlt, hindex, hnext⟩ := index_of_drop hdrop
      rw [if_pos hlt, hindex, ok_bind, scanJSONString]
      split
      · rw [scanStringLoop_eq (by rw [List.length_drop]; omega), hnext, endsAt_pass]
      · rfl

/-- A string inside a value is passed as `scanJSONString` passes it. -/
theorem scanNested_inString_eq (stack : List UInt8) (s : GoString) (escaped : Bool) :
    scanNested stack (if escaped then .escaped else .inString) s =
      (scanStringFrom escaped s).bind fun spanned =>
        passed spanned.1 (scanNested stack .outside spanned.2) := by
  induction s generalizing escaped with
  | nil => cases escaped <;> rfl
  | cons b s ih =>
      have hpass (r : Except LocalityError (GoString × GoString)) :
          pass b (r.bind fun spanned => passed spanned.1 (scanNested stack .outside spanned.2)) =
            (pass b r).bind fun spanned =>
              passed spanned.1 (scanNested stack .outside spanned.2) := by
        cases r with
        | error e => rfl
        | ok spanned => exact (passed_cons b spanned.1 _).symm
      cases escaped with
      | true =>
          rw [scanStringFrom, ← hpass]
          exact congrArg (pass b) (ih false)
      | false =>
          rw [scanStringFrom]
          change pass b (scanNested stack (.next b) s) = _
          rw [Place.next]
          split
          · rw [← passed_nil (scanNested stack .outside s), ← passed_cons]
            rfl
          · rw [← hpass]
            split
            · rename_i hslash
              rw [hslash]
              exact congrArg (pass 92) (ih true)
            · rename_i hslash
              rw [beq_false_of_ne hslash]
              exact congrArg (pass b) (ih false)

/-- The array of open brackets is never too short: it is full when the depth limit is met. -/
theorem scanNestedLoop_eq {rounds position depth : ℕ} {stack : List UInt8}
    (hstack : stack.length = maxJSONDepth) (hdepth : depth ≤ maxJSONDepth)
    (h : (raw.drop position).length < rounds) :
    scanNestedLoop raw rounds stack depth position =
      endsAt position (scanNested (stack.take depth).reverse .outside (raw.drop position)) := by
  induction rounds generalizing position depth stack with
  | zero => omega
  | succ rounds ih =>
      rw [scanNestedLoop]
      cases hdrop : raw.drop position with
      | nil =>
          rw [if_neg (not_lt_of_drop hdrop)]
          rfl
      | cons b s =>
          obtain ⟨hlt, hindex, hnext⟩ := index_of_drop hdrop
          rw [hdrop, List.length_cons] at h
          rw [if_pos hlt, hindex, ok_bind, scanNested]
          have hlength : (stack.take depth).reverse.length = depth := by simp [hstack, hdepth]
          by_cases hquote : b = 34
          · subst hquote
            rw [if_pos rfl, if_pos rfl, endsAt_pass]
            have hstring := scanNested_inString_eq (stack.take depth).reverse s false
            simp only [Bool.false_eq_true, if_false] at hstring
            rw [hstring, scanJSONStringAt_eq, hdrop, scanJSONString, if_pos rfl, endsAt_pass]
            cases hspan : scanStringFrom false s with
            | error e => rfl
            | ok spanned =>
                obtain ⟨hs, -⟩ := scanStringFrom_append hspan
                have hrest : raw.drop (position + 1 + spanned.1.length) = spanned.2 := by
                  rw [← List.drop_drop, hnext, hs, List.drop_left]
                have hlen := congrArg List.length hs
                rw [List.length_append] at hlen
                change scanNestedLoop raw rounds stack depth (position + 1 + spanned.1.length) = _
                rw [ih hstack hdepth (by rw [hrest]; omega), hrest]
                exact (endsAt_passed _ _ _).symm
          · rw [if_neg hquote, if_neg hquote]
            by_cases hopen : b = 123 ∨ b = 91
            · rw [if_pos hopen, if_pos hopen, hstack, hlength]
              split
              · rfl
              · rename_i hne
                have hroom : depth < stack.length := by omega
                have hset : ((stack.set depth b).take (depth + 1)).reverse =
                    b :: (stack.take depth).reverse := by
                  rw [List.take_succ_eq_append_getElem (by simpa using hroom),
                    List.take_set_of_le (Nat.le_refl depth)]
                  simp
                rw [Indexed.store, if_pos hroom, ok_bind,
                  ih (by simpa using hstack) (by omega) (by rw [hnext]; omega), hset, hnext,
                  endsAt_pass]
            · rw [if_neg hopen, if_neg hopen]
              by_cases hclose : b = 125 ∨ b = 93
              · rw [if_pos hclose, if_pos hclose]
                cases depth with
                | zero => rfl
                | succ depth =>
                    have hroom : depth < stack.length := by omega
                    have htop : (stack.take (depth + 1)).reverse =
                        stack[depth] :: (stack.take depth).reverse := by
                      rw [List.take_succ_eq_append_getElem hroom]
                      simp
                    have hget : Indexed.index stack depth = of (.ok stack[depth]) := by
                      rw [Indexed.index, List.getElem?_eq_getElem hroom]
                      rfl
                    rw [if_neg (by omega), Nat.add_sub_cancel, hget, ok_bind, htop, closeBracket]
                    generalize (if b = 93 then (91 : UInt8) else 123) = expected
                    by_cases hmatch : stack[depth] = expected
                    · simp only [hmatch, if_true]
                      by_cases hzero : depth = 0
                      · subst hzero
                        rfl
                      · have hopen' : (stack.take depth).reverse ≠ [] := List.length_pos_iff.mp (by
                          rw [List.length_reverse, List.length_take]
                          omega)
                        rw [if_neg hzero, if_neg hopen',
                          ih hstack (by omega) (by rw [hnext]; omega), hnext, endsAt_pass]
                    · simp only [hmatch, if_false]
                      rfl
              · rw [if_neg hclose, if_neg hclose,
                  ih hstack hdepth (by rw [hnext]; omega), hnext, endsAt_pass]

/-- `scanJSONValue` says of a position what it says of the rest of the text from there. -/
theorem scanJSONValueAt_eq (raw : GoString) (start : ℕ) :
    scanJSONValueAt raw start = endsAt start (scanJSONValue (raw.drop start)) := by
  rw [scanJSONValueAt, scanJSONValue]
  cases hdrop : raw.drop start with
  | nil =>
      rw [if_neg (not_lt_of_drop hdrop)]
      rfl
  | cons b s =>
      obtain ⟨hlt, hindex, hnext⟩ := index_of_drop hdrop
      rw [if_pos hlt, hindex, ok_bind, scanValueWith]
      split
      · rw [scanJSONStringAt_eq, hdrop]
      · split
        · rw [passWhile_eq _ (by rw [List.length_drop]; omega), ok_bind, hdrop]
          by_cases hdelimiter : isValueDelimiter b = true
          · rw [List.takeWhile_cons_of_neg (by simpa using hdelimiter), if_pos hdelimiter]
            simp
            rfl
          · rw [if_neg hdelimiter, if_neg]
            · rfl
            · rw [List.takeWhile_cons_of_pos (by simpa using hdelimiter), List.length_cons]
              omega
        · have hset : (((List.replicate maxJSONDepth (0 : UInt8)).set 0 b).take 1).reverse = [b] := rfl
          have hstore : Indexed.store (List.replicate maxJSONDepth 0) 0 b =
              of (.ok ((List.replicate maxJSONDepth 0).set 0 b)) := rfl
          rw [hstore, ok_bind, scanNestedLoop_eq (by simp) (by decide)
            (by rw [List.length_drop]; omega), hset, hnext, endsAt_pass]

theorem peek_eq (raw : GoString) (position : ℕ) :
    peek raw position = of (.ok (raw.drop position).head?) := by
  rw [peek]
  cases hdrop : raw.drop position with
  | nil =>
      rw [if_neg (not_lt_of_drop hdrop)]
      rfl
  | cons b s =>
      obtain ⟨hlt, hindex, -⟩ := index_of_drop hdrop
      rw [if_pos hlt, hindex]
      rfl

/-- A result with a position agrees with one that has the rest of the text from there. -/
def Agrees {α : Type} (raw : GoString) (x : Indexed (α × ℕ)) :
    Except LocalityError (α × GoString) → Prop
  | .error e => x = fail e
  | .ok (a, rest) => ∃ q, x = of (.ok (a, q)) ∧ raw.drop q = rest

theorem itemAt_agrees (raw : GoString) (position : ℕ) :
    Agrees raw (itemAt raw position) (scanJSONValue (raw.drop position)) := by
  rw [itemAt, scanJSONValueAt_eq]
  cases hvalue : scanJSONValue (raw.drop position) with
  | error e => rfl
  | ok spanned =>
      obtain ⟨hs, hne⟩ := scanJSONValue_append hvalue
      obtain ⟨hslice, hrest⟩ := slice_of_drop hs hne
      refine ⟨position + spanned.1.length, ?_, hrest⟩
      change (Indexed.slice raw position (position + spanned.1.length) >>= _) = _
      rw [hslice]
      rfl

theorem memberAt_agrees (raw : GoString) (position : ℕ) :
    Agrees raw (memberAt raw position) (scanMember (raw.drop position)) := by
  rw [memberAt, scanJSONStringAt_eq, scanMember, scanMemberWith]
  cases hname : scanJSONString (raw.drop position) with
  | error e => rfl
  | ok spanned =>
      obtain ⟨rawKey, rest⟩ := spanned
      obtain ⟨hs, hne⟩ := scanJSONString_append hname
      obtain ⟨hslice, hrest⟩ := slice_of_drop hs hne
      obtain ⟨q, hskip, hq⟩ := skipWhitespaceAt_eq raw (position + rawKey.length)
      rw [hrest] at hq
      change Agrees raw (Indexed.slice raw position (position + rawKey.length) >>= _) _
      rw [hslice, ok_bind]
      simp only [bind, Except.bind]
      cases hkey : decodeSmallString rawKey with
      | error e => rfl
      | ok key =>
          change Agrees raw (skipWhitespaceAt raw (position + rawKey.length) >>= _) _
          rw [hskip, ok_bind, peek_eq, hq]
          cases hcolon : skipWhitespace rest with
          | nil => rfl
          | cons b s =>
              rw [hcolon] at hq
              obtain ⟨-, -, hnext⟩ := index_of_drop hq
              change Agrees raw (if b = 58 then _ else _) (if b = 58 then _ else _)
              by_cases hb : b = 58
              · obtain ⟨q', hskip', hq'⟩ := skipWhitespaceAt_eq raw (q + 1)
                rw [hnext] at hq'
                rw [if_pos hb, if_pos hb, hskip']
                change Agrees raw (scanJSONValueAt raw q' >>= _) _
                rw [scanJSONValueAt_eq, hq']
                cases hvalue : scanJSONValue (skipWhitespace s) with
                | error e => rfl
                | ok spanned =>
                    obtain ⟨hs', hne'⟩ := scanJSONValue_append hvalue
                    obtain ⟨hslice', hrest'⟩ := slice_of_drop (hq'.trans hs') hne'
                    refine ⟨q' + spanned.1.length, ?_, hrest'⟩
                    change (Indexed.slice raw q' (q' + spanned.1.length) >>= _) = _
                    rw [hslice']
                    rfl
              · rw [if_neg hb, if_neg hb]
                rfl

/-- The same for what stands behind a value. -/
def AgreesBehind (raw : GoString) (x : Indexed (Option ℕ)) :
    Except LocalityError (Option GoString) → Prop
  | .error e => x = fail e
  | .ok none => x = of (.ok none)
  | .ok (some rest) => ∃ q, x = of (.ok (some q)) ∧ raw.drop q = rest

theorem separator_agrees (close : UInt8) (message : String) (raw : GoString) (position : ℕ) :
    AgreesBehind raw (separator close message raw position)
      (afterValue close message (raw.drop position)) := by
  obtain ⟨q, hskip, hq⟩ := skipWhitespaceAt_eq raw position
  rw [afterValue, separator, hskip, ok_bind, peek_eq, hq]
  cases hrest : skipWhitespace (raw.drop position) with
  | nil => rfl
  | cons b s =>
      rw [hrest] at hq
      obtain ⟨-, -, hnext⟩ := index_of_drop hq
      simp only [List.head?_cons, ok_bind]
      split_ifs
      · exact ⟨q + 1, rfl, hnext⟩
      · rfl
      · rfl

theorem parseFieldsFrom_eq (maxFields : Option ℕ) (s : GoString) :
    parseFieldsFrom maxFields s = (
      match skipWhitespace s with
      | [] => .error (.text "unterminated JSON object")
      | b :: t =>
          if b = 125 then .ok []
          else if maxFields = some 0 then .error .canonicalComplexity
          else match scanMember (b :: t) with
            | .error e => .error e
            | .ok (field, rest) =>
                match afterValue 125 "invalid JSON object separator" rest with
                | .error e => .error e
                | .ok none => .ok [field]
                | .ok (some rest) =>
                    (parseFieldsFrom (maxFields.map (· - 1)) rest).map (field :: ·)) := by
  rw [parseFieldsFrom.eq_def]
  split
  · rename_i hskip
    rw [hskip]
  · rename_i b t hskip
    simp only [hskip]
    split
    · rfl
    · split
      · rfl
      · split
        · rename_i hmember
          rw [hmember]
        · rename_i hmember
          rw [hmember]
          simp only []
          split
          · rename_i hafter
            rw [hafter]
          · rename_i hafter
            rw [hafter]
          · rename_i hafter
            rw [hafter]

/-- The limit is met when as many fields as it says have been taken. -/
theorem any_le_iff (maxFields : Option ℕ) (n : ℕ) :
    maxFields.any (· ≤ n) = true ↔ maxFields.map (· - n) = some 0 := by
  cases maxFields with
  | none => simp
  | some m =>
      simp
      omega

theorem parseFieldsLoop_eq (maxFields : Option ℕ) {rounds position : ℕ} {fields : List JsonField}
    (h : (raw.drop position).length < rounds) :
    parseFieldsLoop raw maxFields rounds position fields =
      of ((parseFieldsFrom (maxFields.map (· - fields.length)) (raw.drop position)).map
        (fields ++ ·)) := by
  induction rounds generalizing position fields with
  | zero => omega
  | succ rounds ih =>
      obtain ⟨q, hskip, hq⟩ := skipWhitespaceAt_eq raw position
      have hle := length_skipWhitespace_le (raw.drop position)
      rw [parseFieldsLoop, parseFieldsFrom_eq, hskip, ok_bind, peek_eq, ok_bind, ← hq]
      rw [← hq] at hle
      cases hdrop : raw.drop q with
      | nil => rfl
      | cons b s =>
          simp only [List.head?_cons, any_le_iff]
          split
          · simp [Except.map, pure]
          · split
            · rfl
            · have hmember := memberAt_agrees raw q
              rw [hdrop] at hmember
              cases hscan : scanMember (b :: s) with
              | error e =>
                  rw [hscan] at hmember
                  rw [show memberAt raw q = fail e from hmember]
                  rfl
              | ok found =>
                  obtain ⟨field, rest⟩ := found
                  rw [hscan] at hmember
                  obtain ⟨q', hat, hq'⟩ := hmember
                  have hlt := scanMember_shortens hscan
                  have hafter := separator_agrees 125 "invalid JSON object separator" raw q'
                  rw [hq'] at hafter
                  simp only [hat, ok_bind]
                  cases hbehind : afterValue 125 "invalid JSON object separator" rest with
                  | error e =>
                      rw [hbehind] at hafter
                      rw [show separator _ _ raw q' = fail e from hafter]
                      rfl
                  | ok next =>
                      rw [hbehind] at hafter
                      cases next with
                      | none =>
                          rw [show separator _ _ raw q' = of (.ok none) from hafter]
                          rfl
                      | some rest' =>
                          obtain ⟨q'', hsep, hq''⟩ := hafter
                          have hlt' := afterValue_shortens hbehind
                          rw [hdrop] at hle
                          simp only [hsep, ok_bind]
                          rw [ih (by rw [hq'']; omega), hq'']
                          simp only [List.length_append, List.length_singleton, Option.map_map,
                            Function.comp_def, Nat.sub_sub]
                          cases parseFieldsFrom (maxFields.map (· - (fields.length + 1))) rest' with
                          | error e => rfl
                          | ok more => simp [Except.map]

/-- `parseObjectFieldsLimited` with positions is the one with rests. -/
theorem parseObjectFieldsLimitedAt_eq (raw : GoString) (maxFields : Option ℕ) :
    parseObjectFieldsLimitedAt raw maxFields = of (parseObjectFieldsLimited raw maxFields) := by
  rw [parseObjectFieldsLimitedAt, parseObjectFieldsLimited]
  rcases htrim : Strings.trimSpace raw with _ | ⟨b, _ | ⟨c, t⟩⟩
  · rfl
  · rfl
  · change (if b = 123 then parseFieldsLoop (b :: c :: t) maxFields _ 1 [] else _) =
      of (if b = 123 then _ else _)
    by_cases hb : b = 123
    · rw [if_pos hb, if_pos hb, parseFieldsLoop_eq maxFields (by simp)]
      simp only [List.length_nil, Nat.sub_zero, Option.map_id', List.drop_succ_cons, List.drop_zero]
      cases parseFieldsFrom maxFields (c :: t) <;> rfl
    · rw [if_neg hb, if_neg hb]
      rfl

section

variable {σ : Type} (shouldContinue : σ → Bool) (visit : GoString → Act LocalityError σ Unit)

theorem forEachLoop_eq {rounds position : ℕ} (h : (raw.drop position).length < rounds) (s : σ) :
    forEachLoop raw shouldContinue visit rounds position s =
      some (forEachFrom shouldContinue visit (raw.drop position) s) := by
  induction rounds generalizing position s with
  | zero => omega
  | succ rounds ih =>
      obtain ⟨q, hskip, hq⟩ := skipWhitespaceAt_eq raw position
      have hle := length_skipWhitespace_le (raw.drop position)
      rw [forEachLoop, forEachFrom_eq, hskip, ← hq]
      rw [← hq] at hle
      change (peek raw q).within s _ = _
      rw [peek_eq]
      cases hdrop : raw.drop q with
      | nil => rfl
      | cons b t =>
          change (if b = 93 then _ else if shouldContinue s then _ else _) = _
          by_cases hclose : b = 93
          · simp only [hclose, if_true]
            rfl
          · simp only [hclose, if_false]
            by_cases hgo : shouldContinue s = true
            · rw [if_pos hgo]
              have hitem := itemAt_agrees raw q
              rw [hdrop] at hitem
              simp only [Act.bind_run, Act.look_run, Act.onlyIf, hgo, Bool.not_true,
                Bool.false_eq_true, if_false, Act.pure_run]
              cases hscan : scanJSONValue (b :: t) with
              | error e =>
                  rw [hscan] at hitem
                  rw [show itemAt raw q = fail e from hitem]
                  rfl
              | ok found =>
                  obtain ⟨item, rest⟩ := found
                  rw [hscan] at hitem
                  obtain ⟨q', hat, hq'⟩ := hitem
                  have hlt := congrArg List.length (scanJSONValue_append hscan).1
                  rw [List.length_append] at hlt
                  rw [hdrop] at hle
                  simp only [hat, Act.bind_run, Indexed.within, of]
                  obtain ⟨result, s'⟩ := visit item s
                  cases result with
                  | error e => rfl
                  | ok u =>
                      have hafter := separator_agrees 93 "invalid JSON array separator" raw q'
                      rw [hq'] at hafter
                      simp only []
                      cases hbehind : afterValue 93 "invalid JSON array separator" rest with
                      | error e =>
                          rw [hbehind] at hafter
                          rw [show separator _ _ raw q' = fail e from hafter]
                          rfl
                      | ok next =>
                          rw [hbehind] at hafter
                          cases next with
                          | none =>
                              rw [show separator _ _ raw q' = of (.ok none) from hafter]
                              rfl
                          | some rest' =>
                              obtain ⟨q'', hsep, hq''⟩ := hafter
                              have hlt' := afterValue_shortens hbehind
                              rw [hsep]
                              change forEachLoop raw shouldContinue visit rounds q'' s' = _
                              rw [ih (by rw [hq'']; omega), hq'']
            · rw [if_neg hgo]
              simp [Act.bind_run, Act.look_run, Act.onlyIf, hgo, Act.fail_run]

/-- `forEachArrayValueWhile` with positions is the one with rests. -/
theorem forEachArrayValueWhileAt_eq (raw : GoString) (s : σ) :
    forEachArrayValueWhileAt raw shouldContinue visit s =
      some (forEachArrayValueWhile raw shouldContinue visit s) := by
  rw [forEachArrayValueWhileAt, forEachArrayValueWhile]
  rcases htrim : Strings.trimSpace raw with _ | ⟨b, _ | ⟨c, t⟩⟩
  · rfl
  · rfl
  · change (if b = 91 then forEachLoop (b :: c :: t) shouldContinue visit _ 1 s else _) =
      some ((if b = 91 then _ else _ : Act LocalityError σ Unit) s)
    by_cases hb : b = 91
    · rw [if_pos hb, if_pos hb, forEachLoop_eq shouldContinue visit (by simp)]
      rfl
    · rw [if_neg hb, if_neg hb]
      rfl

end

end Higress.Picker
