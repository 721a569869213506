import Higress.Lib.JsonContents
import Higress.Lib.JsonText
import Higress.Lib.Trim
import Higress.Picker.DeepEnvelope
import Higress.Picker.ScanPositions

/-!
The scanners of the endpoint picker on texts of the grammar of JSON: the span of a value is its text, the
fields of an object are its members, and the items of an array are its elements. With positions the
same holds at the offset of every value of a document.
-/

namespace Higress.Picker

open Lib Lib.JsonText

/-! ### Passing a text -/

/-- A byte of a number or a literal. -/
def Scalar (b : UInt8) : Prop :=
  (b ≠ 34 ∧ b ≠ 123 ∧ b ≠ 91 ∧ b ≠ 125 ∧ b ≠ 93) ∧ isValueDelimiter b = false

instance decidableScalar (b : UInt8) : Decidable (Scalar b) := inferInstanceAs (Decidable (_ ∧ _))

theorem scalar_of_isDigit {b : UInt8} (h : Json.isDigit b = true) : Scalar b := by
  simp only [Json.isDigit, Bool.and_eq_true, decide_eq_true_eq, UInt8.le_iff_toNat_le] at h
  simp only [Scalar, isValueDelimiter, Bool.or_eq_false_iff, beq_eq_false_iff_ne, ne_eq,
    ← UInt8.toNat_inj]
  obtain ⟨h₁, h₂⟩ := h
  simp only [UInt8.reduceToNat] at *
  omega

theorem scalar_of_digits {s : GoString} (h : Digits s) : ∀ b ∈ s, Scalar b :=
  fun b hb => scalar_of_isDigit (h.2 b hb)

theorem scalar_of_isNumber {s : GoString} (h : IsNumber s) : s ≠ [] ∧ ∀ b ∈ s, Scalar b := by
  obtain ⟨minus, int, frac, exp, rfl, hminus, hint, hfrac, hexp⟩ := h
  have hminus' : ∀ b ∈ minus, Scalar b := by
    rcases hminus with rfl | rfl
    · simp
    · exact Strings.forall_mem_of_all (by decide)
  have hint' : int ≠ [] ∧ ∀ b ∈ int, Scalar b := by
    rcases hint with rfl | ⟨hdigits, -⟩
    · exact ⟨by decide, Strings.forall_mem_of_all (by decide)⟩
    · exact ⟨hdigits.1, scalar_of_digits hdigits⟩
  have hfrac' : ∀ b ∈ frac, Scalar b := by
    rcases hfrac with rfl | ⟨ds, rfl, hdigits⟩
    · simp
    · exact List.forall_mem_cons.mpr ⟨by decide, scalar_of_digits hdigits⟩
  have hexp' : ∀ b ∈ exp, Scalar b := by
    rcases hexp with rfl | ⟨e, sign, ds, rfl, he, hsign, hdigits⟩
    · simp
    · have he' : Scalar e := by rcases he with rfl | rfl <;> decide
      have hsign' : ∀ b ∈ sign, Scalar b := by
        rcases hsign with rfl | rfl | rfl
        · simp
        · exact Strings.forall_mem_of_all (by decide)
        · exact Strings.forall_mem_of_all (by decide)
      exact List.forall_mem_cons.mpr ⟨he', List.forall_mem_append.mpr ⟨hsign', scalar_of_digits hdigits⟩⟩
  refine ⟨by simp [hint'.1], ?_⟩
  simp only [List.forall_mem_append]
  exact ⟨hminus', hint'.2, hfrac', hexp'⟩

theorem scalar_literal (l : Literal) : l.render ≠ [] ∧ ∀ b ∈ l.render, Scalar b := by
  cases l <;> exact ⟨by decide, Strings.forall_mem_of_all (by decide)⟩

/-- A hexadecimal digit stands for itself in a string. -/
theorem plain_of_hex4 {a b c d : UInt8} {r : ℕ} (h : Json.hex4 [a, b, c, d] = some r) :
    ∀ x ∈ [a, b, c, d], x ≠ 34 ∧ x ≠ 92 ∧ 32 ≤ x := by
  intro x hx
  have hplain := (Json.isPlain_of_hex4 h x hx).1
  simp only [Json.isPlain, Bool.and_eq_true, decide_eq_true_eq, bne_iff_ne] at hplain
  exact ⟨hplain.1.2, hplain.2, hplain.1.1⟩

section Nested

variable (stack : List UInt8)

theorem scanNested_plain {b : UInt8} (h : b ≠ 34 ∧ b ≠ 123 ∧ b ≠ 91 ∧ b ≠ 125 ∧ b ≠ 93)
    (s : GoString) : scanNested stack .outside (b :: s) = pass b (scanNested stack .outside s) := by
  rw [scanNested]
  simp [h]

theorem scanNested_quiet {w : GoString} (hw : ∀ b ∈ w, b ≠ 34 ∧ b ≠ 123 ∧ b ≠ 91 ∧ b ≠ 125 ∧ b ≠ 93)
    (s : GoString) : scanNested stack .outside (w ++ s) = passed w (scanNested stack .outside s) := by
  induction w with
  | nil => simp
  | cons b w ih =>
      rw [List.cons_append, scanNested_plain stack (hw b (by simp)), ih fun c hc => hw c (by simp [hc]),
        passed_cons]

theorem scanNested_space (w : Space) (s : GoString) :
    scanNested stack .outside (w.1 ++ s) = passed w.1 (scanNested stack .outside s) := by
  refine scanNested_quiet stack (fun b hb => ?_) s
  have hspace := w.2 b hb
  refine ⟨?_, ?_, ?_, ?_, ?_⟩ <;> rintro rfl <;> simp [Json.isSpace] at hspace

theorem scanNested_inString {w : GoString} (hw : ∀ b ∈ w, b ≠ 34 ∧ b ≠ 92 ∧ 32 ≤ b) (s : GoString) :
    scanNested stack .inString (w ++ s) = passed w (scanNested stack .inString s) := by
  induction w with
  | nil => simp
  | cons b w ih =>
      obtain ⟨hquote, hslash, -⟩ := hw b (by simp)
      rw [List.cons_append, scanNested, Place.next, if_neg hquote, if_neg hslash,
        ih fun c hc => hw c (by simp [hc]), passed_cons]

theorem scanNested_piece (p : Piece) (s : GoString) :
    scanNested stack .inString (p.render ++ s) = passed p.render (scanNested stack .inString s) := by
  cases p with
  | plain b h =>
      refine scanNested_inString stack (w := [b]) (fun c hc => ?_) s
      rw [List.mem_singleton.mp hc]
      exact ⟨h.2.1, h.2.2, h.1⟩
  | short c x h => rw [Piece.render, passed_cons, passed_cons, passed_nil]; rfl
  | unicode a b c d r h =>
      have hdigits := scanNested_inString stack (plain_of_hex4 h) s
      rw [Piece.render, passed_cons, passed_cons, ← hdigits]
      rfl

/-- A string is passed from quote to quote. -/
theorem scanNested_quote (ps : List Piece) (s : GoString) :
    scanNested stack .outside (JsonText.quote ps ++ s) =
      passed (JsonText.quote ps) (scanNested stack .outside s) := by
  have hpieces (s : GoString) : scanNested stack .inString (renderPieces ps ++ s) =
      passed (renderPieces ps) (scanNested stack .inString s) := by
    induction ps with
    | nil => simp [renderPieces]
    | cons p ps ih =>
        change scanNested stack .inString (p.render ++ renderPieces ps ++ s) =
          passed (p.render ++ renderPieces ps) _
        rw [List.append_assoc, scanNested_piece, ih, passed_append]
  have hopen : scanNested stack .outside (JsonText.quote ps ++ s) =
      pass 34 (scanNested stack .inString (renderPieces ps ++ 34 :: s)) := by
    simp [JsonText.quote, scanNested]
  have hclose : scanNested stack .inString (34 :: s) = pass 34 (scanNested stack .outside s) := rfl
  rw [hopen, hpieces, hclose, JsonText.quote, passed_cons, passed_append, passed_cons, passed_nil]

end Nested

/-! ### Values -/

mutual

/-- How many brackets are open at once in a value. -/
def depth : Doc → ℕ
  | .literal _ => 0
  | .number _ _ => 0
  | .string _ => 0
  | .emptyArray _ => 1
  | .array es => depthElements es + 1
  | .emptyObject _ => 1
  | .object ms => depthMembers ms + 1

def depthElements : Elements → ℕ
  | .last _ v _ => depth v
  | .more _ v _ es => max (depth v) (depthElements es)

def depthMembers : Members → ℕ
  | .last _ v _ => depth v
  | .more _ v _ ms => max (depth v) (depthMembers ms)

end

section Values

variable {stack : List UInt8}

theorem scanNested_name (k : Name) (s : GoString) :
    scanNested stack .outside (k.render ++ s) = passed k.render (scanNested stack .outside s) := by
  have htext : k.render ++ s =
      k.before.1 ++ (JsonText.quote k.pieces ++ (k.after.1 ++ 58 :: (k.gap.1 ++ s))) := by
    simp [Name.render]
  rw [htext, scanNested_space, scanNested_quote, scanNested_space, scanNested_plain stack (by decide),
    scanNested_space, Name.render, passed_append, passed_append, passed_append, passed_cons]

/-- A bracket, what it holds, and the bracket that closes it. -/
theorem scanNested_bracket {bracket close : UInt8}
    (h : bracket = 91 ∧ close = 93 ∨ bracket = 123 ∧ close = 125) {w : GoString}
    (hw : ∀ s, scanNested (bracket :: stack) .outside (w ++ s) =
      passed w (scanNested (bracket :: stack) .outside s))
    (hne : stack ≠ []) (hdepth : stack.length < maxJSONDepth) (s : GoString) :
    scanNested stack .outside (bracket :: (w ++ [close]) ++ s) =
      passed (bracket :: (w ++ [close])) (scanNested stack .outside s) := by
  have hopen : scanNested stack .outside (bracket :: (w ++ [close]) ++ s) =
      pass bracket (scanNested (bracket :: stack) .outside (w ++ close :: s)) := by
    rcases h with ⟨rfl, rfl⟩ | ⟨rfl, rfl⟩ <;> simp [scanNested, hdepth.ne]
  have hclose : scanNested (bracket :: stack) .outside (close :: s) =
      pass close (scanNested stack .outside s) := by
    rcases h with ⟨rfl, rfl⟩ | ⟨rfl, rfl⟩ <;> simp [scanNested, closeBracket, hne]
  rw [hopen, hw, hclose, passed_cons, passed_append, passed_cons, passed_nil]

mutual

/-- A value inside another is passed when its brackets fit on the stack. -/
theorem scanNested_doc (d : Doc) {stack : List UInt8} (hne : stack ≠ [])
    (hdepth : stack.length + depth d ≤ maxJSONDepth) (s : GoString) : scanNested stack .outside (d.render ++ s) =
      passed d.render (scanNested stack .outside s) := by
  cases d with
  | literal l => exact scanNested_quiet stack (fun b hb => ((scalar_literal l).2 b hb).1) s
  | number n h => exact scanNested_quiet stack (fun b hb => ((scalar_of_isNumber h).2 b hb).1) s
  | string ps => exact scanNested_quote stack ps s
  | emptyArray w =>
      exact scanNested_bracket (.inl ⟨rfl, rfl⟩) (scanNested_space _ w) hne (by simp [depth] at hdepth; omega) s
  | array es =>
      simp only [depth] at hdepth
      exact scanNested_bracket (.inl ⟨rfl, rfl⟩)
        (scanNested_elements es (by simp) (by simp only [List.length_cons]; omega)) hne (by omega) s
  | emptyObject w =>
      exact scanNested_bracket (.inr ⟨rfl, rfl⟩) (scanNested_space _ w) hne (by simp [depth] at hdepth; omega) s
  | object ms =>
      simp only [depth] at hdepth
      exact scanNested_bracket (.inr ⟨rfl, rfl⟩)
        (scanNested_members ms (by simp) (by simp only [List.length_cons]; omega)) hne (by omega) s

theorem scanNested_elements (es : Elements) {stack : List UInt8} (hne : stack ≠ [])
    (hdepth : stack.length + depthElements es ≤ maxJSONDepth) (s : GoString) :
    scanNested stack .outside (es.render ++ s) = passed es.render (scanNested stack .outside s) := by
  cases es with
  | last before v after =>
      simp only [depthElements] at hdepth
      rw [Elements.render, List.append_assoc, List.append_assoc, scanNested_space,
        scanNested_doc v hne hdepth, scanNested_space, passed_append, passed_append]
  | more before v after es =>
      simp only [depthElements] at hdepth
      have hcomma : scanNested stack .outside (44 :: (es.render ++ s)) =
          pass 44 (passed es.render (scanNested stack .outside s)) := by
        rw [scanNested_plain stack (by decide), scanNested_elements es hne (by omega)]
      rw [Elements.render, List.append_assoc, List.append_assoc, List.append_assoc, List.cons_append,
        scanNested_space, scanNested_doc v hne (by omega), scanNested_space, hcomma, passed_append,
        passed_append, passed_append, passed_cons]

theorem scanNested_members (ms : Members) {stack : List UInt8} (hne : stack ≠ [])
    (hdepth : stack.length + depthMembers ms ≤ maxJSONDepth) (s : GoString) :
    scanNested stack .outside (ms.render ++ s) = passed ms.render (scanNested stack .outside s) := by
  cases ms with
  | last k v after =>
      simp only [depthMembers] at hdepth
      rw [Members.render, List.append_assoc, List.append_assoc, scanNested_name,
        scanNested_doc v hne hdepth, scanNested_space, passed_append, passed_append]
  | more k v after ms =>
      simp only [depthMembers] at hdepth
      have hcomma : scanNested stack .outside (44 :: (ms.render ++ s)) =
          pass 44 (passed ms.render (scanNested stack .outside s)) := by
        rw [scanNested_plain stack (by decide), scanNested_members ms hne (by omega)]
      rw [Members.render, List.append_assoc, List.append_assoc, List.append_assoc, List.cons_append,
        scanNested_name, scanNested_doc v hne (by omega), scanNested_space, hcomma, passed_append,
        passed_append, passed_append, passed_cons]

end

/-- A scalar ends where a delimiter stands. -/
theorem scanJSONValue_scalar {w s : GoString} (hne : w ≠ []) (hw : ∀ b ∈ w, Scalar b)
    (hs : EndsValue s) : scanJSONValue (w ++ s) = .ok (w, s) := by
  have hall : ∀ b ∈ w, (!isValueDelimiter b) = true := fun b hb => by simp [(hw b hb).2]
  have hstop : s.takeWhile (!isValueDelimiter ·) = [] ∧ s.dropWhile (!isValueDelimiter ·) = s := by
    cases s with
    | nil => exact ⟨rfl, rfl⟩
    | cons b s => simp [hs b rfl]
  obtain ⟨b, t, rfl⟩ := List.exists_cons_of_ne_nil hne
  obtain ⟨⟨h34, h123, h91, -⟩, hdelimiter⟩ := hw b (by simp)
  have htake : (b :: t ++ s).takeWhile (!isValueDelimiter ·) = b :: t := by
    rw [List.takeWhile_append_of_pos hall, hstop.1, List.append_nil]
  have hdrop : (b :: t ++ s).dropWhile (!isValueDelimiter ·) = s := by
    rw [List.dropWhile_append_of_pos hall, hstop.2]
  rw [List.cons_append] at htake hdrop ⊢
  rw [scanJSONValue, scanValueWith, if_neg h34, if_pos ⟨h123, h91⟩, hdelimiter, if_neg Bool.false_ne_true,
    htake, hdrop]

theorem scanStringFrom_pieces (ps : List Piece) (s : GoString) :
    scanStringFrom false (renderPieces ps ++ 34 :: s) = .ok (renderPieces ps ++ [34], s) := by
  have hplain {w : GoString} (hw : ∀ b ∈ w, b ≠ 34 ∧ b ≠ 92 ∧ 32 ≤ b) (t : GoString) :
      scanStringFrom false (w ++ t) = passed w (scanStringFrom false t) := by
    induction w with
    | nil => simp
    | cons b w ih =>
        obtain ⟨hquote, hslash, -⟩ := hw b (by simp)
        rw [List.cons_append, scanStringFrom, if_neg hquote, beq_false_of_ne hslash,
          ih fun c hc => hw c (by simp [hc]), passed_cons]
  induction ps with
  | nil => rfl
  | cons p ps ih =>
      have hpiece (t : GoString) :
          scanStringFrom false (p.render ++ t) = passed p.render (scanStringFrom false t) := by
        cases p with
        | plain b h =>
            refine @hplain [b] (fun c hc => ?_) t
            rw [List.mem_singleton.mp hc]
            exact ⟨h.2.1, h.2.2, h.1⟩
        | short c x h => rw [Piece.render, passed_cons, passed_cons, passed_nil]; rfl
        | unicode a b c d r h =>
            have hdigits := hplain (plain_of_hex4 h) t
            rw [Piece.render, passed_cons, passed_cons, ← hdigits]
            rfl
      change scanStringFrom false (p.render ++ renderPieces ps ++ 34 :: s) = _
      rw [List.append_assoc, hpiece, ih]
      simp [passed, Except.map, renderPieces]

/-- The span of a value is its text. -/
theorem scanJSONValue_render (d : Doc) (hdepth : depth d ≤ maxJSONDepth) {s : GoString}
    (hs : EndsValue s) : scanJSONValue (d.render ++ s) = .ok (d.render, s) := by
  have hbracket {bracket close : UInt8}
      (h : bracket = 91 ∧ close = 93 ∨ bracket = 123 ∧ close = 125) {w : GoString}
      (hw : ∀ s, scanNested [bracket] .outside (w ++ s) = passed w (scanNested [bracket] .outside s)) :
      scanJSONValue (bracket :: (w ++ [close]) ++ s) = .ok (bracket :: (w ++ [close]), s) := by
    have hopen : scanJSONValue (bracket :: (w ++ [close]) ++ s) =
        pass bracket (scanNested [bracket] .outside (w ++ close :: s)) := by
      rcases h with ⟨rfl, rfl⟩ | ⟨rfl, rfl⟩ <;> simp [scanJSONValue, scanValueWith]
    have hclose : scanNested [bracket] .outside (close :: s) = .ok ([close], s) := by
      rcases h with ⟨rfl, rfl⟩ | ⟨rfl, rfl⟩ <;> simp [scanNested, closeBracket]
    rw [hopen, hw, hclose]
    rfl
  cases d with
  | literal l => exact scanJSONValue_scalar (scalar_literal l).1 (scalar_literal l).2 hs
  | number n h => exact scanJSONValue_scalar (scalar_of_isNumber h).1 (scalar_of_isNumber h).2 hs
  | string ps =>
      change scanJSONString (34 :: (renderPieces ps ++ [34] ++ s)) = _
      rw [scanJSONString, if_pos rfl, List.append_assoc]
      exact congrArg (pass 34) (scanStringFrom_pieces ps s)
  | emptyArray w => exact hbracket (.inl ⟨rfl, rfl⟩) (scanNested_space _ w)
  | array es =>
      simp only [depth] at hdepth
      exact hbracket (.inl ⟨rfl, rfl⟩)
        (scanNested_elements es (by simp) (by simp only [List.length_singleton]; omega))
  | emptyObject w => exact hbracket (.inr ⟨rfl, rfl⟩) (scanNested_space _ w)
  | object ms =>
      simp only [depth] at hdepth
      exact hbracket (.inr ⟨rfl, rfl⟩)
        (scanNested_members ms (by simp) (by simp only [List.length_singleton]; omega))

theorem scanJSONString_quote (ps : List Piece) (s : GoString) :
    scanJSONString (JsonText.quote ps ++ s) = .ok (JsonText.quote ps, s) := by
  change scanJSONString (34 :: (renderPieces ps ++ [34] ++ s)) = _
  rw [scanJSONString, if_pos rfl, List.append_assoc]
  exact congrArg (pass 34) (scanStringFrom_pieces ps s)

/-- A value begins with a byte that is no space and closes nothing. -/
theorem render_head (d : Doc) :
    ∃ b t, d.render = b :: t ∧ Json.isSpace b = false ∧ b ≠ 93 ∧ b ≠ 125 := by
  have hscalar {w : GoString} (hne : w ≠ []) (hw : ∀ b ∈ w, Scalar b) :
      ∃ b t, w = b :: t ∧ Json.isSpace b = false ∧ b ≠ 93 ∧ b ≠ 125 := by
    obtain ⟨b, t, rfl⟩ := List.exists_cons_of_ne_nil hne
    obtain ⟨⟨-, -, -, h125, h93⟩, hdelimiter⟩ := hw b (by simp)
    refine ⟨b, t, rfl, ?_, h93, h125⟩
    simp only [isValueDelimiter, Bool.or_eq_false_iff] at hdelimiter
    simp [Json.isSpace, hdelimiter]
  cases d with
  | literal l => exact hscalar (scalar_literal l).1 (scalar_literal l).2
  | number n h => exact hscalar (scalar_of_isNumber h).1 (scalar_of_isNumber h).2
  | string ps => exact ⟨34, _, rfl, by decide, by decide, by decide⟩
  | emptyArray w => exact ⟨91, _, rfl, by decide, by decide, by decide⟩
  | array es => exact ⟨91, _, rfl, by decide, by decide, by decide⟩
  | emptyObject w => exact ⟨123, _, rfl, by decide, by decide, by decide⟩
  | object ms => exact ⟨123, _, rfl, by decide, by decide, by decide⟩

theorem skipWhitespace_render (w : Space) (d : Doc) (s : GoString) :
    skipWhitespace (w.1 ++ (d.render ++ s)) = d.render ++ s := by
  obtain ⟨b, t, ht, hspace, -⟩ := render_head d
  rw [skipWhitespace_append w.2, ht, List.cons_append, skipWhitespace_cons hspace]

end Values

/-! ### Names -/

section Names

/-- Four digits are an escape, alone or with the one behind them. -/
theorem unicodeEscape_pieces {a b c d : UInt8} {r : ℕ} (h : Json.hex4 [a, b, c, d] = some r)
    (ps : List Piece) : ∃ r' n, Json.unicodeEscape ([a, b, c, d] ++ renderPieces ps) = some (r', n) ∧
      (n = 4 ∨ n = 10 ∧ ∃ p ps', ps = p :: ps' ∧ p.render.length = 6) := by
  have hhex : Json.hex4 ([a, b, c, d] ++ renderPieces ps) = some r := h
  have hpair : (renderPieces ps).take 2 = [92, 117] → ∃ p ps', ps = p :: ps' ∧ p.render.length = 6 := by
    intro htake
    cases ps with
    | nil => simp [renderPieces] at htake
    | cons p ps =>
        refine ⟨p, ps, rfl, ?_⟩
        cases p with
        | plain b hb =>
            have : b = 92 := by simpa [renderPieces, Piece.render] using congrArg List.head? htake
            exact absurd this hb.2.2
        | short c x hc =>
            have : c = 117 := by simpa [renderPieces, Piece.render] using htake
            rw [this] at hc
            simp [Json.simpleEscape] at hc
        | unicode => rfl
  have hdrop : ([a, b, c, d] ++ renderPieces ps).drop 4 = renderPieces ps := List.drop_left' rfl
  simp only [Json.unicodeEscape, hhex, hdrop, Option.bind_eq_bind, Option.bind_some]
  split
  · split
    · rename_i r'' hlow
      split
      · refine ⟨_, _, rfl, .inr ⟨rfl, hpair ?_⟩⟩
        by_contra hnot
        simp [hnot] at hlow
      · exact ⟨_, _, rfl, .inl rfl⟩
    · exact ⟨_, _, rfl, .inl rfl⟩
  · exact ⟨_, _, rfl, .inl rfl⟩

/-- The escapes of a string can all be resolved. -/
theorem unescapeFrom_pieces (n : ℕ) : ∀ ps : List Piece, ps.length ≤ n →
    ∃ x, Json.unescapeFrom 0 (renderPieces ps) = some x := by
  induction n with
  | zero =>
      intro ps hps
      obtain rfl := List.length_eq_zero_iff.mp (Nat.le_zero.mp hps)
      exact ⟨[], rfl⟩
  | succ n ih =>
      intro ps hps
      cases ps with
      | nil => exact ⟨[], rfl⟩
      | cons p ps =>
          rw [List.length_cons] at hps
          obtain ⟨x, hx⟩ := ih ps (by omega)
          cases p with
          | plain b h =>
              refine ⟨b :: x, ?_⟩
              change Json.unescapeFrom 0 (b :: renderPieces ps) = _
              simp [Json.unescapeFrom, h.2.2, hx]
          | short c y h =>
              have hc : c ≠ 117 := by
                rintro rfl
                simp [Json.simpleEscape] at h
              refine ⟨y :: x, ?_⟩
              change Json.unescapeFrom 0 (92 :: c :: renderPieces ps) = _
              simp [Json.unescapeFrom, hc, h, hx]
          | unicode a b c d r h =>
              change ∃ z, Json.unescapeFrom 0 (92 :: 117 :: ([a, b, c, d] ++ renderPieces ps)) = some z
              rw [Json.unescapeFrom_unicode]
              obtain ⟨r', n', hescape, hn'⟩ := unicodeEscape_pieces h ps
              rw [hescape, Option.bind_some]
              rcases hn' with rfl | ⟨rfl, p, ps', rfl, hp⟩
              · have hdrop : ([a, b, c, d] ++ renderPieces ps).drop 4 = renderPieces ps := List.drop_left' rfl
                exact ⟨_, by rw [hdrop, hx]; rfl⟩
              · obtain ⟨z, hz⟩ := ih ps' (by rw [List.length_cons] at hps; omega)
                have hdrop : ([a, b, c, d] ++ renderPieces (p :: ps')).drop 10 = renderPieces ps' := by
                  change ([a, b, c, d] ++ (p.render ++ renderPieces ps')).drop 10 = _
                  rw [← List.append_assoc, List.drop_left' (by simp [hp])]
                exact ⟨_, by rw [hdrop, hz]; rfl⟩

theorem lexString_pieces (ps : List Piece) :
    Json.lexString false (renderPieces ps ++ [34]) = some (renderPieces ps, []) := by
  have hplain {w : GoString} (hw : ∀ b ∈ w, b ≠ 34 ∧ b ≠ 92 ∧ 32 ≤ b) (t : GoString) :
      Json.lexString false (w ++ t) = (Json.lexString false t).map fun rs => (w ++ rs.1, rs.2) := by
    induction w with
    | nil => simp
    | cons b w ih =>
        obtain ⟨hquote, hslash, hlow⟩ := hw b (by simp)
        rw [List.cons_append, Json.lexString, if_neg hquote, if_neg (UInt8.not_lt.mpr hlow),
          beq_false_of_ne hslash,
          ih fun c hc => hw c (by simp [hc])]
        simp [Function.comp_def]
  induction ps with
  | nil => rfl
  | cons p ps ih =>
      have hpiece (t : GoString) : Json.lexString false (p.render ++ t) =
          (Json.lexString false t).map fun rs => (p.render ++ rs.1, rs.2) := by
        cases p with
        | plain b h =>
            refine @hplain [b] (fun c hc => ?_) t
            rw [List.mem_singleton.mp hc]
            exact ⟨h.2.1, h.2.2, h.1⟩
        | short c x h => exact Json.lexString_backslash c t
        | unicode a b c d r h =>
            change Json.lexString false (92 :: 117 :: ([a, b, c, d] ++ t)) = _
            rw [Json.lexString_backslash, hplain (plain_of_hex4 h)]
            simp [Function.comp_def, Piece.render]
      change Json.lexString false (p.render ++ renderPieces ps ++ [34]) = _
      rw [List.append_assoc, hpiece, ih]
      rfl

/-- What a name stands for. -/
def nameOf (ps : List Piece) : GoString := (Json.unquote (renderPieces ps)).getD []

theorem decodeSmallString_quote (ps : List Piece) :
    decodeSmallString (JsonText.quote ps) = .ok (nameOf ps) := by
  have htrim : Strings.trimSpace (JsonText.quote ps) = JsonText.quote ps := by
    have hlast : (JsonText.quote ps).getLast? = some 34 := by
      rw [JsonText.quote, ← List.cons_append, List.getLast?_concat]
    simpa using @Strings.trimSpace_of_visible 34 34 (by decide) (by decide) (JsonText.quote ps) rfl hlast 0
  obtain ⟨x, hx⟩ := unescapeFrom_pieces ps.length ps le_rfl
  have hparse : Json.parse (JsonText.quote ps) = some (.str (renderPieces ps)) := by
    have hvalue : Json.parseValue (JsonText.quote ps).length (JsonText.quote ps) =
        some (.str (renderPieces ps), []) := by
      rw [show (JsonText.quote ps).length = (renderPieces ps ++ [34]).length + 1 from rfl]
      simp [JsonText.quote, Json.parseValue, Json.skipSpace_cons (show Json.isSpace 34 = false by decide),
        lexString_pieces]
    simp [Json.parse, hvalue, Json.skipSpace]
  have hname : Json.unquote (renderPieces ps) = some (nameOf ps) := by
    rw [nameOf, Json.unquote, hx]
    rfl
  rw [decodeSmallString, htrim, Json.unmarshal, hparse]
  simp [Json.decode, hname]

end Names

/-! ### Members and elements -/

section Members

theorem endsValue_cons {b : UInt8} (h : isValueDelimiter b = true) (s : GoString) :
    EndsValue (b :: s) := by
  intro c hc
  rw [← Option.mem_some_iff.mp hc]
  exact h

theorem afterValue_comma (close : UInt8) (message : String) (w : Space) (s : GoString) :
    afterValue close message (w.1 ++ 44 :: s) = .ok (some s) := by
  rw [afterValue, skipWhitespace_append w.2, skipWhitespace_cons (by decide)]
  rfl

theorem afterValue_close {close : UInt8} (h : close = 93 ∨ close = 125) (message : String)
    (w : Space) (s : GoString) : afterValue close message (w.1 ++ close :: s) = .ok none := by
  rcases h with rfl | rfl
  · rw [afterValue, skipWhitespace_append w.2, skipWhitespace_cons (by decide)]
    rfl
  · rw [afterValue, skipWhitespace_append w.2, skipWhitespace_cons (by decide)]
    rfl

/-- The field of a member. -/
def field (k : Name) (v : Doc) : JsonField := ⟨nameOf k.pieces, JsonText.quote k.pieces, v.render⟩

/-- The members in order. -/
def fields : Members → List JsonField
  | .last k v _ => [field k v]
  | .more k v _ ms => field k v :: fields ms

/-- The texts of the elements in order. -/
def items : Elements → List GoString
  | .last _ v _ => [v.render]
  | .more _ v _ es => v.render :: items es

theorem scanMember_name (k : Name) (v : Doc) (hdepth : depth v ≤ maxJSONDepth) {s : GoString}
    (hs : EndsValue s) : ∃ t, skipWhitespace (k.render ++ (v.render ++ s)) = 34 :: t ∧
      scanMember (34 :: t) = .ok (field k v, s) := by
  have htext : k.render ++ (v.render ++ s) =
      k.before.1 ++ (JsonText.quote k.pieces ++ (k.after.1 ++ 58 :: (k.gap.1 ++ (v.render ++ s)))) := by
    simp [Name.render]
  refine ⟨renderPieces k.pieces ++ [34] ++ (k.after.1 ++ 58 :: (k.gap.1 ++ (v.render ++ s))), ?_, ?_⟩
  · rw [htext, skipWhitespace_append k.before.2]
    exact skipWhitespace_cons (by decide) _
  · change scanMember (JsonText.quote k.pieces ++ (k.after.1 ++ 58 :: (k.gap.1 ++ (v.render ++ s)))) = _
    have hcolon : skipWhitespace (k.after.1 ++ 58 :: (k.gap.1 ++ (v.render ++ s))) =
        58 :: (k.gap.1 ++ (v.render ++ s)) := by
      rw [skipWhitespace_append k.after.2, skipWhitespace_cons (by decide)]
    simp only [scanMember, scanMemberWith, scanJSONString_quote, decodeSmallString_quote, bind,
      Except.bind, hcolon, if_true, skipWhitespace_render, scanJSONValue_render v hdepth hs]
    rfl

theorem parseFieldsFrom_members (ms : Members) (hdepth : depthMembers ms ≤ maxJSONDepth)
    (s : GoString) : parseFieldsFrom none (ms.render ++ 125 :: s) = .ok (fields ms) := by
  cases ms with
  | last k v after =>
      simp only [depthMembers] at hdepth
      obtain ⟨t, hskip, hmember⟩ := scanMember_name k v hdepth
        (endsValue_space after.2 (endsValue_cons (show isValueDelimiter 125 = true from rfl) s))
      rw [Members.render, List.append_assoc, List.append_assoc, parseFieldsFrom_eq, hskip]
      simp only [hmember, afterValue_close (.inr rfl)]
      rfl
  | more k v after ms =>
      simp only [depthMembers] at hdepth
      obtain ⟨t, hskip, hmember⟩ := scanMember_name k v (by omega) (endsValue_space after.2
        (endsValue_cons (show isValueDelimiter 44 = true from rfl) (ms.render ++ 125 :: s)))
      rw [Members.render, List.append_assoc, List.append_assoc, List.append_assoc, List.cons_append,
        parseFieldsFrom_eq, hskip]
      simp only [hmember, afterValue_comma, Option.map_none,
        parseFieldsFrom_members ms (by omega) s]
      rfl

variable {σ : Type} (shouldContinue : σ → Bool) (visit : GoString → Act LocalityError σ Unit)

theorem forEachFrom_elements (es : Elements) (hdepth : depthElements es ≤ maxJSONDepth)
    (s : GoString) : forEachFrom shouldContinue visit (es.render ++ 93 :: s) =
      visitAll shouldContinue visit (items es) := by
  cases es with
  | last before v after =>
      simp only [depthElements] at hdepth
      obtain ⟨b, t, hhead, -, hclose, -⟩ := render_head v
      have hscan := scanJSONValue_render v hdepth
        (endsValue_space after.2 (endsValue_cons (show isValueDelimiter 93 = true from rfl) s))
      rw [Elements.render, List.append_assoc, List.append_assoc, forEachFrom_eq,
        skipWhitespace_render]
      rw [hhead, List.cons_append] at hscan ⊢
      simp only [hclose, if_false, hscan, afterValue_close (.inl rfl)]
      simp only [items, visitAll, hhead]
  | more before v after es =>
      simp only [depthElements] at hdepth
      obtain ⟨b, t, hhead, -, hclose, -⟩ := render_head v
      have hscan := scanJSONValue_render v (by omega) (endsValue_space after.2
        (endsValue_cons (show isValueDelimiter 44 = true from rfl) (es.render ++ 93 :: s)))
      rw [Elements.render, List.append_assoc, List.append_assoc, List.append_assoc,
        List.cons_append, forEachFrom_eq, skipWhitespace_render]
      rw [hhead, List.cons_append] at hscan ⊢
      simp only [hclose, if_false, hscan, afterValue_comma,
        forEachFrom_elements es (by omega) s]
      simp only [items, visitAll, hhead]

end Members

/-! ### Space around a document -/

section Around

/-- A byte of white space is dropped as a word of its own. -/
theorem trimWords_space {ws : List GoString} {c : UInt8} (hc : Strings.Visible c)
    (hws : Strings.IsSpaces ws) (hfind : ∀ b s, Json.isSpace b = true →
      (ws.find? fun w => w.isPrefixOf (b :: s)) = some [b]) {w : GoString}
    (hw : ∀ b ∈ w, Json.isSpace b = true) (s : GoString) {n : ℕ} (hn : w.length ≤ n) :
    Strings.trimWords ws n (w ++ c :: s) = c :: s := by
  induction w generalizing n with
  | nil => exact Strings.trimWords_of_visible hws hc n s
  | cons b w ih =>
      rw [List.length_cons] at hn
      obtain ⟨n, rfl⟩ : ∃ m, n = m + 1 := ⟨n - 1, by omega⟩
      rw [List.cons_append, Strings.trimWords, hfind b _ (hw b (by simp))]
      exact ih (fun x hx => hw x (by simp [hx])) (by omega)

theorem find?_space {b : UInt8} (hb : Json.isSpace b = true) (s : GoString) :
    (Strings.spaces.find? fun w => w.isPrefixOf (b :: s)) = some [b] ∧
      ((Strings.spaces.map List.reverse).find? fun w => w.isPrefixOf (b :: s)) = some [b] := by
  simp only [Json.isSpace, Bool.or_eq_true, beq_iff_eq] at hb
  rcases hb with ((rfl | rfl) | rfl) | rfl <;> exact ⟨rfl, rfl⟩

/-- The white space of the grammar around a bracketed value is dropped. -/
theorem trimSpace_bracketed {b c : UInt8} (hb : Strings.Visible b) (hc : Strings.Visible c)
    (lead trail : Space) (w : GoString) :
    Strings.trimSpace (lead.1 ++ (b :: (w ++ [c]) ++ trail.1)) = b :: (w ++ [c]) := by
  have hleft := trimWords_space hb Strings.isSpaces_spaces (fun b s h => (find?_space h s).1) lead.2
    (w ++ [c] ++ trail.1) (n := (lead.1 ++ (b :: (w ++ [c]) ++ trail.1)).length) (by simp)
  have hright := trimWords_space hc Strings.isSpaces_reverse (fun b s h => (find?_space h s).2)
    (w := trail.1.reverse) (fun x hx => trail.2 x (List.mem_reverse.mp hx)) (w.reverse ++ [b])
    (n := (b :: (w ++ [c] ++ trail.1)).length) (by simp; omega)
  rw [Strings.trimSpace]
  simp only [List.cons_append] at hleft ⊢
  rw [hleft]
  have hreverse : (b :: (w ++ [c] ++ trail.1)).reverse =
      trail.1.reverse ++ c :: (w.reverse ++ [b]) := by simp
  rw [hreverse, hright]
  simp

end Around

/-! ### Documents -/

/-- A value of a document, with the texts in front of it and behind it. -/
structure Occurrence where
  before : GoString
  value : Doc
  behind : GoString

/-- The occurrence in a text that goes on at both ends. -/
def Occurrence.inside (v w : GoString) (o : Occurrence) : Occurrence :=
  ⟨v ++ o.before, o.value, o.behind ++ w⟩

mutual

/-- All values of a document, itself included. -/
def values : Doc → List Occurrence
  | .literal l => [⟨[], .literal l, []⟩]
  | .number s h => [⟨[], .number s h, []⟩]
  | .string ps => [⟨[], .string ps, []⟩]
  | .emptyArray w => [⟨[], .emptyArray w, []⟩]
  | .array es => ⟨[], .array es, []⟩ :: (valuesElements es).map (.inside [91] [93])
  | .emptyObject w => [⟨[], .emptyObject w, []⟩]
  | .object ms => ⟨[], .object ms, []⟩ :: (valuesMembers ms).map (.inside [123] [125])

def valuesElements : Elements → List Occurrence
  | .last before v after => (values v).map (.inside before.1 after.1)
  | .more before v after es =>
      (values v).map (.inside before.1 (after.1 ++ 44 :: es.render)) ++
        (valuesElements es).map (.inside (before.1 ++ (v.render ++ (after.1 ++ [44]))) [])

def valuesMembers : Members → List Occurrence
  | .last k v after => (values v).map (.inside k.render after.1)
  | .more k v after ms =>
      (values v).map (.inside k.render (after.1 ++ 44 :: ms.render)) ++
        (valuesMembers ms).map (.inside (k.render ++ (v.render ++ (after.1 ++ [44]))) [])

end

/-- The occurrence is one in a text, it ends where a value can end, and it is not too deep. -/
structure Occurrence.In (text : GoString) (limit : ℕ) (o : Occurrence) : Prop where
  text_eq : text = o.before ++ (o.value.render ++ o.behind)
  ends : ∀ s, EndsValue s → EndsValue (o.behind ++ s)
  depth_le : depth o.value ≤ limit

theorem Occurrence.In.inside {text : GoString} {limit limit' : ℕ} {o : Occurrence}
    (h : o.In text limit) (hle : limit ≤ limit') {v w : GoString}
    (hw : ∀ s, EndsValue s → EndsValue (w ++ s)) :
    (o.inside v w).In (v ++ (text ++ w)) limit' where
  text_eq := by simp [Occurrence.inside, h.text_eq]
  ends s hs := by
    rw [Occurrence.inside, List.append_assoc]
    exact h.ends _ (hw s hs)
  depth_le := h.depth_le.trans hle

mutual

theorem values_in (d : Doc) : ∀ o ∈ values d, o.In d.render (depth d) := by
  have hself : (⟨[], d, []⟩ : Occurrence).In d.render (depth d) :=
    ⟨by simp, fun s hs => hs, le_rfl⟩
  cases d with
  | literal l => simpa [values] using hself
  | number s h => simpa [values] using hself
  | string ps => simpa [values] using hself
  | emptyArray w => simpa [values] using hself
  | emptyObject w => simpa [values] using hself
  | array es =>
      simp only [values, List.forall_mem_cons, List.forall_mem_map]
      refine ⟨hself, fun o ho => ?_⟩
      exact (values_elements_in es o ho).inside (Nat.le_succ _) (v := [91]) (w := [93])
        fun s _ => endsValue_cons rfl s
  | object ms =>
      simp only [values, List.forall_mem_cons, List.forall_mem_map]
      refine ⟨hself, fun o ho => ?_⟩
      exact (values_members_in ms o ho).inside (Nat.le_succ _) (v := [123]) (w := [125])
        fun s _ => endsValue_cons rfl s

theorem values_elements_in (es : Elements) :
    ∀ o ∈ valuesElements es, o.In es.render (depthElements es) := by
  cases es with
  | last before v after =>
      simp only [valuesElements, List.forall_mem_map]
      exact fun o ho => (values_in v o ho).inside le_rfl fun s hs => endsValue_space after.2 hs
  | more before v after es =>
      simp only [valuesElements, List.forall_mem_append, List.forall_mem_map]
      refine ⟨fun o ho => ?_, fun o ho => ?_⟩
      · refine (values_in v o ho).inside (le_max_left _ _) fun s hs => ?_
        rw [List.append_assoc]
        exact endsValue_space after.2 (endsValue_cons rfl _)
      · have := (values_elements_in es o ho).inside (le_max_right (depth v) _)
          (v := before.1 ++ (v.render ++ (after.1 ++ [44]))) (w := []) fun s hs => hs
        simpa [Elements.render, depthElements] using this

theorem values_members_in (ms : Members) :
    ∀ o ∈ valuesMembers ms, o.In ms.render (depthMembers ms) := by
  cases ms with
  | last k v after =>
      simp only [valuesMembers, List.forall_mem_map]
      exact fun o ho => (values_in v o ho).inside le_rfl fun s hs => endsValue_space after.2 hs
  | more k v after ms =>
      simp only [valuesMembers, List.forall_mem_append, List.forall_mem_map]
      refine ⟨fun o ho => ?_, fun o ho => ?_⟩
      · refine (values_in v o ho).inside (le_max_left _ _) fun s hs => ?_
        rw [List.append_assoc]
        exact endsValue_space after.2 (endsValue_cons rfl _)
      · have := (values_members_in ms o ho).inside (le_max_right (depth v) _)
          (v := k.render ++ (v.render ++ (after.1 ++ [44]))) (w := []) fun s hs => hs
        simpa [Members.render, depthMembers] using this

end

/-- The members of a document that is an object. -/
def membersOf : Doc → Option (List JsonField)
  | .emptyObject _ => some []
  | .object ms => some (fields ms)
  | _ => none

/-- The texts of the elements of a document that is an array. -/
def elementsOf : Doc → Option (List GoString)
  | .emptyArray _ => some []
  | .array es => some (items es)
  | _ => none

section Documents

variable {d : Doc} (hdepth : depth d ≤ maxJSONDepth) (lead trail : Space)

include hdepth

theorem scanJSONValueAt_value {o : Occurrence} (ho : o ∈ values d) :
    scanJSONValueAt (lead.1 ++ (d.render ++ trail.1)) (lead.1.length + o.before.length) =
      .of (.ok (lead.1.length + o.before.length + o.value.render.length)) := by
  obtain ⟨htext, hends, hle⟩ := values_in d o ho
  have hdrop : (lead.1 ++ (d.render ++ trail.1)).drop (lead.1.length + o.before.length) =
      o.value.render ++ (o.behind ++ trail.1) := by
    rw [← List.drop_drop, List.drop_left, htext, List.append_assoc, List.drop_left, List.append_assoc]
  have hnil : EndsValue [] := fun b hb => by simp at hb
  have htrail : EndsValue trail.1 := by simpa using endsValue_space trail.2 hnil
  rw [scanJSONValueAt_eq, hdrop, scanJSONValue_render _ (hle.trans hdepth) (hends _ htrail)]
  rfl

theorem parseObjectFields_document {fs : List JsonField} (h : membersOf d = some fs) :
    parseObjectFields (lead.1 ++ (d.render ++ trail.1)) = .ok fs := by
  have hopen {w : GoString} {r : Except LocalityError (List JsonField)}
      (hw : parseFieldsFrom none (w ++ [125]) = r) :
      parseObjectFields (lead.1 ++ (123 :: (w ++ [125]) ++ trail.1)) = r := by
    rw [parseObjectFields, parseObjectFieldsLimited,
      trimSpace_bracketed (by decide) (by decide)]
    rw [← hw]
    cases w <;> rfl
  cases d with
  | emptyObject w =>
      obtain rfl := Option.some.inj h
      refine hopen ?_
      rw [parseFieldsFrom_eq, skipWhitespace_append w.2, skipWhitespace_cons (by decide)]
      rfl
  | object ms =>
      obtain rfl := Option.some.inj h
      simp only [depth] at hdepth
      exact hopen (parseFieldsFrom_members ms (by omega) [])
  | _ => simp [membersOf] at h

theorem forEachArrayValueWhile_document {es : List GoString} (h : elementsOf d = some es)
    {σ : Type} (shouldContinue : σ → Bool) (visit : GoString → Act LocalityError σ Unit) :
    forEachArrayValueWhile (lead.1 ++ (d.render ++ trail.1)) shouldContinue visit =
      visitAll shouldContinue visit es := by
  have hopen {w : GoString} {r : Act LocalityError σ Unit}
      (hw : forEachFrom shouldContinue visit (w ++ [93]) = r) :
      forEachArrayValueWhile (lead.1 ++ (91 :: (w ++ [93]) ++ trail.1)) shouldContinue visit = r := by
    rw [forEachArrayValueWhile, trimSpace_bracketed (by decide) (by decide)]
    rw [← hw]
    cases w <;> rfl
  cases d with
  | emptyArray w =>
      obtain rfl := Option.some.inj h
      refine hopen ?_
      rw [forEachFrom_eq, skipWhitespace_append w.2, skipWhitespace_cons (by decide)]
      rfl
  | array es =>
      obtain rfl := Option.some.inj h
      simp only [depth] at hdepth
      exact hopen (forEachFrom_elements shouldContinue visit es (by omega) [])
  | _ => simp [elementsOf] at h

end Documents

/-- On a document that is not nested too deeply, with any white space around it, a value is scanned
from its offset exactly to its end, the fields of an object are its members with the texts of their
names and values, and a loop over an array visits its elements in order. On no text whatsoever is an
index out of range. -/
theorem scanners_agree (d : Doc) (hdepth : depth d ≤ maxJSONDepth) (lead trail : Space) :
    (∀ o ∈ values d,
      scanJSONValueAt (lead.1 ++ (d.render ++ trail.1)) (lead.1.length + o.before.length) =
        .of (.ok (lead.1.length + o.before.length + o.value.render.length))) ∧
    (∀ fs, membersOf d = some fs →
      parseObjectFieldsAt (lead.1 ++ (d.render ++ trail.1)) = .of (.ok fs)) ∧
    (∀ es, elementsOf d = some es →
      ∀ (σ : Type) (shouldContinue : σ → Bool) (visit : GoString → Act LocalityError σ Unit) (s : σ),
        forEachArrayValueWhileAt (lead.1 ++ (d.render ++ trail.1)) shouldContinue visit s =
          some (visitAll shouldContinue visit es s)) ∧
    ∀ raw : GoString,
      (∀ start, scanJSONStringAt raw start ≠ .outOfRange) ∧
      (∀ start, scanJSONValueAt raw start ≠ .outOfRange) ∧
      (∀ maxFields, parseObjectFieldsLimitedAt raw maxFields ≠ .outOfRange) ∧
      ∀ (σ : Type) (shouldContinue : σ → Bool) (visit : GoString → Act LocalityError σ Unit) (s : σ),
        forEachArrayValueWhileAt raw shouldContinue visit s ≠ none := by
  refine ⟨fun o ho => scanJSONValueAt_value hdepth lead trail ho, fun fs h => ?_,
    fun es h σ shouldContinue visit s => ?_, fun raw => ⟨fun start => ?_, fun start => ?_,
      fun maxFields => ?_, fun σ shouldContinue visit s => ?_⟩⟩
  · rw [parseObjectFieldsAt, parseObjectFieldsLimitedAt_eq]
    exact congrArg Indexed.of (parseObjectFields_document hdepth lead trail h)
  · rw [forEachArrayValueWhileAt_eq, forEachArrayValueWhile_document hdepth lead trail h]
  · rw [scanJSONStringAt_eq]
    exact Option.some_ne_none _
  · rw [scanJSONValueAt_eq]
    exact Option.some_ne_none _
  · rw [parseObjectFieldsLimitedAt_eq]
    exact Option.some_ne_none _
  · rw [forEachArrayValueWhileAt_eq]
    exact Option.some_ne_none _

theorem isSpace_of_mem_nil : ∀ b ∈ ([] : GoString), Json.isSpace b = true := List.forall_mem_nil _

def noSpace : Space := ⟨[], isSpace_of_mem_nil⟩

/-- The object of one member `"a"`, an array of one literal, with a space behind it. -/
def sampleDocument : Doc :=
  .object (.last ⟨noSpace, [.plain 97 (by decide)], noSpace, noSpace⟩
    (.array (.last noSpace (.literal .true) noSpace)) ⟨[32], List.forall_mem_singleton.mpr rfl⟩)

theorem scanners_agree_sample : depth sampleDocument ≤ maxJSONDepth ∧
    parseObjectFieldsAt (bytes "\x7b\"a\":[true] \x7d") =
      .of (.ok [⟨bytes "a", bytes "\"a\"", bytes "[true]"⟩]) ∧
    scanJSONValueAt (bytes "\x7b\"a\":[true] \x7d") 5 = .of (.ok 11) := by
  have hdepth : depth sampleDocument ≤ maxJSONDepth := by decide
  have hagree := scanners_agree sampleDocument hdepth noSpace noSpace
  exact ⟨hdepth, hagree.2.1 _ rfl, hagree.1 _ (.tail _ (.head _))⟩

end Higress.Picker
