import Higress.Lib.Json

/-!
The byte scanners of the endpoint picker (`prefixcache/locality.go`). A request
body is not read into a tree: values are spans of the body, told apart by
scanners that look at quotes, brackets and delimiters only.

A position in a text is the rest of the text from there. A scanner returns the
span it has passed and the rest.
-/

namespace Higress.Picker

open Lib

/-- `ToolMode`, a string type: the empty string, its constants, and what else a
caller may pass. -/
inductive ToolMode
  | unset
  | none
  | identity
  | full
  | other (name : GoString)
  deriving DecidableEq

/-- The errors of `locality.go`. -/
inductive LocalityError
  | unsupportedContent
  | semanticCap
  | canonicalComplexity
  | jsonDepthLimit
  | toolIdentityCap
  /-- An error of `encoding/json`. -/
  | unmarshal
  /-- `fmt.Errorf("unsupported tool mode %q", mode)`. -/
  | unsupportedToolMode (mode : ToolMode)
  /-- `fmt.Errorf` with a text that is fixed. -/
  | text (message : String)
  deriving DecidableEq

def maxJSONDepth : ℕ := 64

/-- `skipWhitespace`. -/
def skipWhitespace (s : GoString) : GoString := Json.skipSpace s

/-- `isValueDelimiter`. -/
def isValueDelimiter (b : UInt8) : Bool :=
  b == 44 || b == 93 || b == 125 || b == 32 || b == 9 || b == 13 || b == 10

/-- A span with one more byte in front. -/
def pass (b : UInt8) (r : Except LocalityError (GoString × GoString)) :
    Except LocalityError (GoString × GoString) :=
  r.map fun spanned => (b :: spanned.1, spanned.2)

/-- `scanJSONString` behind the first quote; the flag tells that the next byte is
behind a backslash. -/
def scanStringFrom : Bool → GoString → Except LocalityError (GoString × GoString)
  | _, [] => .error (.text "unterminated JSON string")
  | true, b :: s => pass b (scanStringFrom false s)
  | false, b :: s => if b = 34 then .ok ([b], s) else pass b (scanStringFrom (b == 92) s)

/-- `scanJSONString`. -/
def scanJSONString (s : GoString) : Except LocalityError (GoString × GoString) :=
  match s with
  | [] => .error (.text "expected JSON string")
  | b :: s => if b = 34 then pass b (scanStringFrom false s)
      else .error (.text "expected JSON string")

/-- Where the loops of `scanJSONValue` stand: between tokens, or in a string. -/
inductive Place
  | outside
  | inString
  | escaped

/-- Where a loop stands behind a byte of a string. -/
def Place.next (b : UInt8) : Place :=
  if b = 34 then .outside else if b = 92 then .escaped else .inString

/-- The brackets that are still open behind a closing one, if it matches. -/
def closeBracket (stack : List UInt8) (b : UInt8) : Option (List UInt8) :=
  match stack with
  | [] => none
  | top :: stack => if top = (if b = 93 then 91 else 123) then some stack else none

/-- The loop of `scanJSONValue`, with the brackets that are open. -/
def scanNested : List UInt8 → Place → GoString → Except LocalityError (GoString × GoString)
  | _, .outside, [] => .error (.text "unterminated JSON value")
  | _, _, [] => .error (.text "unterminated JSON string")
  | stack, .escaped, b :: s => pass b (scanNested stack .inString s)
  | stack, .inString, b :: s => pass b (scanNested stack (.next b) s)
  | stack, .outside, b :: s =>
      if b = 34 then pass b (scanNested stack .inString s)
      else if b = 123 ∨ b = 91 then
        if stack.length = maxJSONDepth then .error .jsonDepthLimit
        else pass b (scanNested (b :: stack) .outside s)
      else if b = 125 ∨ b = 93 then
        match closeBracket stack b with
        | none => .error (.text "mismatched JSON delimiter")
        | some stack =>
            if stack = [] then .ok ([b], s) else pass b (scanNested stack .outside s)
      else pass b (scanNested stack .outside s)

/-- The loop of `scanJSONValueUnbounded`, with the number of open brackets. -/
def scanUnbounded : ℕ → Place → GoString → Except LocalityError (GoString × GoString)
  | _, .outside, [] => .error (.text "unterminated JSON value")
  | _, _, [] => .error (.text "unterminated JSON string")
  | depth, .escaped, b :: s => pass b (scanUnbounded depth .inString s)
  | depth, .inString, b :: s => pass b (scanUnbounded depth (.next b) s)
  | depth, .outside, b :: s =>
      if b = 34 then pass b (scanUnbounded depth .inString s)
      else if b = 123 ∨ b = 91 then pass b (scanUnbounded (depth + 1) .outside s)
      else if b = 125 ∨ b = 93 then
        if depth = 1 then .ok ([b], s) else pass b (scanUnbounded (depth - 1) .outside s)
      else pass b (scanUnbounded depth .outside s)

/-- What the two scanners of values share: a string, a literal up to a delimiter,
or a bracket and what `nested` passes behind it. -/
def scanValueWith (nested : UInt8 → GoString → Except LocalityError (GoString × GoString))
    (s : GoString) : Except LocalityError (GoString × GoString) :=
  match s with
  | [] => .error (.text "missing JSON value")
  | b :: t =>
      if b = 34 then scanJSONString s
      else if b ≠ 123 ∧ b ≠ 91 then
        if isValueDelimiter b then .error (.text "invalid JSON value")
        else .ok (s.takeWhile (!isValueDelimiter ·), s.dropWhile (!isValueDelimiter ·))
      else pass b (nested b t)

/-- `scanJSONValue`. -/
def scanJSONValue (s : GoString) : Except LocalityError (GoString × GoString) :=
  scanValueWith (fun b => scanNested [b] .outside) s

/-- `scanJSONValueUnbounded`. -/
def scanJSONValueUnbounded (s : GoString) : Except LocalityError (GoString × GoString) :=
  scanValueWith (fun _ => scanUnbounded 1 .outside) s

/-! ### Spans -/

theorem pass_eq_ok {b : UInt8} {r : Except LocalityError (GoString × GoString)}
    {span rest : GoString} (h : pass b r = .ok (span, rest)) :
    ∃ span', span = b :: span' ∧ r = .ok (span', rest) := by
  cases r with
  | error e => simp [pass, Except.map] at h
  | ok spanned =>
      simp only [pass, Except.map, Except.ok.injEq, Prod.mk.injEq] at h
      exact ⟨spanned.1, h.1.symm, by rw [← h.2]⟩

@[simp] theorem pass_ok (b : UInt8) (span rest : GoString) :
    pass b (.ok (span, rest)) = .ok (b :: span, rest) := rfl

@[simp] theorem pass_error (b : UInt8) (e : LocalityError) : pass b (.error e) = .error e := rfl

theorem scanStringFrom_append {escaped : Bool} {s span rest : GoString}
    (h : scanStringFrom escaped s = .ok (span, rest)) : s = span ++ rest ∧ span ≠ [] := by
  induction s generalizing escaped span with
  | nil => simp [scanStringFrom] at h
  | cons b s ih =>
      cases escaped with
      | true =>
          obtain ⟨span', rfl, hrest⟩ := pass_eq_ok h
          exact ⟨by rw [(ih hrest).1, List.cons_append], by simp⟩
      | false =>
          rw [scanStringFrom] at h
          split at h
          · simp only [Except.ok.injEq, Prod.mk.injEq] at h
            obtain ⟨rfl, rfl⟩ := h
            exact ⟨rfl, by simp⟩
          · obtain ⟨span', rfl, hrest⟩ := pass_eq_ok h
            exact ⟨by rw [(ih hrest).1, List.cons_append], by simp⟩

theorem scanJSONString_append {s span rest : GoString} (h : scanJSONString s = .ok (span, rest)) :
    s = span ++ rest ∧ span ≠ [] := by
  rw [scanJSONString.eq_def] at h
  split at h
  · simp at h
  · split at h
    · obtain ⟨span', rfl, hrest⟩ := pass_eq_ok h
      exact ⟨by rw [(scanStringFrom_append hrest).1, List.cons_append], by simp⟩
    · simp at h

theorem scanNested_append {stack : List UInt8} {place : Place} {s span rest : GoString}
    (h : scanNested stack place s = .ok (span, rest)) : s = span ++ rest := by
  induction s generalizing stack place span with
  | nil => cases place <;> simp [scanNested] at h
  | cons b s ih =>
      have hpass : ∀ {stack place}, pass b (scanNested stack place s) = .ok (span, rest) →
          b :: s = span ++ rest := by
        intro stack place h
        obtain ⟨span', rfl, hrest⟩ := pass_eq_ok h
        rw [ih hrest, List.cons_append]
      cases place with
      | escaped => exact hpass h
      | inString => exact hpass h
      | outside =>
          rw [scanNested] at h
          split at h
          · exact hpass h
          · split at h
            · split at h
              · simp at h
              · exact hpass h
            · split at h
              · split at h
                · simp at h
                · split at h
                  · simp only [Except.ok.injEq, Prod.mk.injEq] at h
                    obtain ⟨rfl, rfl⟩ := h
                    rfl
                  · exact hpass h
              · exact hpass h

theorem scanUnbounded_append {depth : ℕ} {place : Place} {s span rest : GoString}
    (h : scanUnbounded depth place s = .ok (span, rest)) : s = span ++ rest := by
  induction s generalizing depth place span with
  | nil => cases place <;> simp [scanUnbounded] at h
  | cons b s ih =>
      have hpass : ∀ {depth place}, pass b (scanUnbounded depth place s) = .ok (span, rest) →
          b :: s = span ++ rest := by
        intro depth place h
        obtain ⟨span', rfl, hrest⟩ := pass_eq_ok h
        rw [ih hrest, List.cons_append]
      cases place with
      | escaped => exact hpass h
      | inString => exact hpass h
      | outside =>
          rw [scanUnbounded] at h
          split at h
          · exact hpass h
          · split at h
            · exact hpass h
            · split at h
              · split at h
                · simp only [Except.ok.injEq, Prod.mk.injEq] at h
                  obtain ⟨rfl, rfl⟩ := h
                  rfl
                · exact hpass h
              · exact hpass h

theorem scanValueWith_append
    {nested : UInt8 → GoString → Except LocalityError (GoString × GoString)}
    (hnested : ∀ {b s span rest}, nested b s = .ok (span, rest) → s = span ++ rest)
    {s span rest : GoString} (h : scanValueWith nested s = .ok (span, rest)) :
    s = span ++ rest ∧ span ≠ [] := by
  rw [scanValueWith.eq_def] at h
  split at h
  · simp at h
  · split at h
    · exact scanJSONString_append h
    · split at h
      · split at h
        · simp at h
        · rename_i hdelimiter
          simp only [Except.ok.injEq, Prod.mk.injEq] at h
          obtain ⟨rfl, rfl⟩ := h
          refine ⟨List.takeWhile_append_dropWhile.symm, ?_⟩
          rw [List.takeWhile_cons_of_pos (by simpa using hdelimiter)]
          simp
      · obtain ⟨span', rfl, hrest⟩ := pass_eq_ok h
        exact ⟨by rw [hnested hrest, List.cons_append], by simp⟩

theorem scanJSONValue_append {s span rest : GoString} (h : scanJSONValue s = .ok (span, rest)) :
    s = span ++ rest ∧ span ≠ [] :=
  scanValueWith_append (fun h => scanNested_append h) h

theorem scanJSONValueUnbounded_append {s span rest : GoString}
    (h : scanJSONValueUnbounded s = .ok (span, rest)) : s = span ++ rest ∧ span ≠ [] :=
  scanValueWith_append (fun h => scanUnbounded_append h) h

theorem length_skipWhitespace_le (s : GoString) : (skipWhitespace s).length ≤ s.length :=
  (List.dropWhile_sublist _).length_le

end Higress.Picker
