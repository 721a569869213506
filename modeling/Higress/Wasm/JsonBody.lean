import Higress.Lib.JsonText

/-!
The package `jsonbody` of the Wasm plugins: a scan of a request body for a member of the top-level
object that comes more than once. The scan keeps track of nesting, strings and escapes, and decodes
names only. An access to a byte that is out of range would be a panic; a result is none then.
-/

namespace Higress.JsonBody

open Lib JsonText

/-! ### Accesses -/

def byteAt (s : GoString) (i : ℕ) : Option UInt8 := s[i]?

/-- `s[i:j]`. -/
def slice (s : GoString) (i j : ℕ) : Option GoString :=
  if i ≤ j ∧ j ≤ s.length then some ((s.take j).drop i) else none

/-- `ErrMalformedJSON`. -/
inductive Malformed
  | malformedJSON
deriving DecidableEq

/-! ### Names -/

def hexDigits (digits : GoString) : Option ℕ :=
  digits.foldlM (fun r c => (hexValue c).map fun v => r * 16 + v) 0

def parseHex4 (literal : GoString) (offset : ℕ) : Option (Option ℕ) :=
  if literal.length < offset + 4 then some none
  else (slice literal offset (offset + 4)).map hexDigits

def isSurrogate (r : ℕ) : Bool := 0xD800 ≤ r && r < 0xE000

/-- `utf16.DecodeRune`. -/
def decodeRune (r₁ r₂ : ℕ) : ℕ :=
  if 0xD800 ≤ r₁ ∧ r₁ < 0xDC00 ∧ 0xDC00 ≤ r₂ ∧ r₂ < 0xE000 then
    (r₁ - 0xD800) * 1024 + (r₂ - 0xDC00) + 0x10000
  else 0xFFFD

/-- `utf8.AppendRune`: a half of a pair is written as U+FFFD. -/
def runeBytes (r : ℕ) : GoString := Json.encodeRune (if isSurrogate r then 0xFFFD else r)

/-- The rest of a pair of escapes, if there is one behind the first. -/
def decodeLow (literal : GoString) (hex r : ℕ) : Option (Option (ℕ × ℕ)) := do
  if (← byteAt literal (hex + 4)) = 92 then
    if (← byteAt literal (hex + 5)) = 117 then
      match ← parseHex4 literal (hex + 6) with
      | some low =>
          let joined := decodeRune r low
          return if joined ≠ 0xFFFD then some (joined, 10) else none
      | none => return none
    else return none
  else return none

/-- The rune of an escape, and how many bytes it takes from its digits on. -/
def decodeEscape (literal : GoString) (hex : ℕ) : Option (Option (ℕ × ℕ)) := do
  match ← parseHex4 literal hex with
  | none => return none
  | some r =>
      if isSurrogate r = true ∧ hex + 10 ≤ literal.length then
        return some ((← decodeLow literal hex r).getD (r, 4))
      else return some (r, 4)

def unescapeSimple (c : UInt8) : UInt8 :=
  if c = 98 then 8
  else if c = 102 then 12
  else if c = 110 then 10
  else if c = 114 then 13
  else if c = 116 then 9
  else c

/-- The loop of `unescapeLiteral`; no text if an escape is not valid. -/
def unescapeFrom (literal dst : GoString) (i : ℕ) : Option (Option GoString) :=
  if i < literal.length then
    match byteAt literal i with
    | none => none
    | some b =>
        if b ≠ 92 then unescapeFrom literal (dst ++ [b]) (i + 1)
        else if i + 1 = literal.length then some none
        else match byteAt literal (i + 1) with
          | none => none
          | some c =>
              if c ∈ [34, 92, 47, 98, 102, 110, 114, 116] then
                unescapeFrom literal (dst ++ [unescapeSimple c]) (i + 2)
              else if c = 117 then
                match decodeEscape literal (i + 2) with
                | none => none
                | some none => some none
                | some (some (r, width)) =>
                    unescapeFrom literal (dst ++ runeBytes r) (i + 2 + width)
              else some none
  else some (some dst)
termination_by literal.length - i

def literalNames (literal key : GoString) : Option Bool :=
  if 92 ∉ literal then some (literal == key)
  else (unescapeFrom literal [] 0).map fun decoded => decoded == some key

/-! ### The scan -/

/-- The loop of `scanStringLiteral` for the literal that starts at `start`. -/
def scanLiteralFrom (body : GoString) (start i : ℕ) : Option (Except Malformed (GoString × ℕ)) :=
  if i < body.length then
    match byteAt body i with
    | none => none
    | some b =>
        if b = 92 then
          if i + 1 = body.length then some (.error .malformedJSON)
          else scanLiteralFrom body start (i + 2)
        else if b = 34 then (slice body start i).map fun literal => .ok (literal, i + 1)
        else scanLiteralFrom body start (i + 1)
  else some (.error .malformedJSON)
termination_by body.length - i

def scanStringLiteral (body : GoString) (opening : ℕ) :
    Option (Except Malformed (GoString × ℕ)) :=
  scanLiteralFrom body (opening + 1) (opening + 1)

structure State where
  depth : ℤ
  topLevelObject : Bool
  memberNext : Bool
  occurrences : ℕ
deriving DecidableEq

/-- The state behind a byte that does not begin a string; none if a bracket closes nothing. -/
def State.pass (s : State) (b : UInt8) : Option State :=
  if b = 123 then some { s with
    depth := s.depth + 1
    topLevelObject := s.topLevelObject || s.depth + 1 == 1
    memberNext := true }
  else if b = 91 then some { s with depth := s.depth + 1, memberNext := false }
  else if b = 125 ∨ b = 93 then
    if s.depth - 1 < 0 then none else some { s with depth := s.depth - 1, memberNext := false }
  else if b = 58 then some { s with memberNext := false }
  else if b = 44 then some { s with memberNext := s.depth == 1 && s.topLevelObject }
  else some s

/-- Whether a string literal is another occurrence of the key. -/
def State.names (s : State) (literal key : GoString) : Option Bool :=
  if s.memberNext = true ∧ s.depth = 1 then literalNames literal key else some false

/-- The state behind a string literal. -/
def State.passString (s : State) (named : Bool) : State :=
  { s with
    occurrences := if named then s.occurrences + 1 else s.occurrences
    memberNext := false }

/-- The loop of `DuplicateTopLevelMember`. -/
def duplicateFrom (body key : GoString) (s : State) (i : ℕ) : Option (Except Malformed Bool) :=
  if i < body.length then
    match byteAt body i with
    | none => none
    | some b =>
        if b = 34 then
          match scanStringLiteral body i with
          | none => none
          | some (.error e) => some (.error e)
          | some (.ok (literal, next)) =>
              match s.names literal key with
              | none => none
              | some named =>
                  if named = true ∧ (s.passString named).occurrences > 1 then some (.ok true)
                  else if i < next then duplicateFrom body key (s.passString named) next
                  else none
        else match s.pass b with
          | none => some (.error .malformedJSON)
          | some s => duplicateFrom body key s (i + 1)
  else if s.depth ≠ 0 then some (.error .malformedJSON) else some (.ok false)
termination_by body.length - i

def duplicateTopLevelMember (body key : GoString) : Option (Except Malformed Bool) :=
  duplicateFrom body key ⟨0, false, false, 0⟩ 0

/-! ### No access is out of range -/

theorem byteAt_isSome {s : GoString} {i : ℕ} (h : i < s.length) : (byteAt s i).isSome = true := by
  simpa [byteAt] using h

theorem parseHex4_isSome (literal : GoString) (offset : ℕ) :
    (parseHex4 literal offset).isSome = true := by
  rw [parseHex4]
  split_ifs with h
  · rfl
  · rw [slice, if_pos (by omega)]
    rfl

theorem decodeLow_isSome {literal : GoString} {hex : ℕ} (h : hex + 10 ≤ literal.length) (r : ℕ) :
    (decodeLow literal hex r).isSome = true := by
  obtain ⟨b, hb⟩ := Option.isSome_iff_exists.mp (byteAt_isSome (show hex + 4 < literal.length by omega))
  obtain ⟨c, hc⟩ := Option.isSome_iff_exists.mp (byteAt_isSome (show hex + 5 < literal.length by omega))
  obtain ⟨low, hlow⟩ := Option.isSome_iff_exists.mp (parseHex4_isSome literal (hex + 6))
  rw [decodeLow, hb]
  simp only [Option.bind_eq_bind, Option.bind_some, hc, hlow]
  split_ifs
  · cases low <;> rfl
  · rfl
  · rfl

theorem decodeEscape_isSome (literal : GoString) (hex : ℕ) :
    (decodeEscape literal hex).isSome = true := by
  obtain ⟨r, hr⟩ := Option.isSome_iff_exists.mp (parseHex4_isSome literal hex)
  rw [decodeEscape, hr]
  cases r with
  | none => rfl
  | some r =>
      simp only [Option.bind_eq_bind, Option.bind_some]
      split_ifs with h
      · obtain ⟨low, hlow⟩ := Option.isSome_iff_exists.mp (decodeLow_isSome h.2 r)
        rw [hlow]
        rfl
      · rfl

theorem unescapeFrom_isSome (literal dst : GoString) (i : ℕ) :
    (unescapeFrom literal dst i).isSome = true := by
  fun_induction unescapeFrom literal dst i with
  | case1 dst i hi hnone =>
      have := byteAt_isSome hi
      rw [hnone] at this
      cases this
  | case2 dst i hi b hb h92 ih => exact ih
  | case4 dst i hi b hb h92 hlast hnone =>
      have := byteAt_isSome (show i + 1 < literal.length by omega)
      rw [hnone] at this
      cases this
  | case5 dst i hi b hb h92 hlast c hc hsimple ih => exact ih
  | case6 dst i hi b hb h92 hlast hnone =>
      have := decodeEscape_isSome literal (i + 2)
      rw [hnone] at this
      cases this
  | case8 dst i hi b hb h92 hlast r width hescape hu hsimple ih => exact ih
  | _ => rfl

theorem literalNames_isSome (literal key : GoString) : (literalNames literal key).isSome = true := by
  rw [literalNames]
  split_ifs
  · rw [Option.isSome_map]
    exact unescapeFrom_isSome literal [] 0
  · rfl

theorem scanLiteralFrom_isSome {body : GoString} {start i : ℕ} (h : start ≤ i) :
    (scanLiteralFrom body start i).isSome = true := by
  fun_induction scanLiteralFrom body start i with
  | case1 i hi hnone =>
      have := byteAt_isSome hi
      rw [hnone] at this
      cases this
  | case3 i hi hlast hb ih => exact ih (by omega)
  | case4 i hi hb h92 =>
      rw [Option.isSome_map, slice, if_pos (by omega)]
      rfl
  | case5 i hi b hb h92 h34 ih => exact ih (by omega)
  | _ => rfl

/-- A literal ends behind the place where the scan started. -/
theorem lt_of_scanLiteralFrom {body literal : GoString} {start i next : ℕ}
    (h : scanLiteralFrom body start i = some (.ok (literal, next))) : i < next := by
  fun_induction scanLiteralFrom body start i with
  | case3 i hi hlast hb ih =>
      have := ih h
      omega
  | case4 i hi hb h92 =>
      obtain ⟨_, -, heq⟩ := Option.map_eq_some_iff.mp h
      have := congrArg Prod.snd (Except.ok.inj heq)
      change i + 1 = next at this
      omega
  | case5 i hi b hb h92 h34 ih =>
      have := ih h
      omega
  | _ => cases h

theorem names_isSome (s : State) (literal key : GoString) : (s.names literal key).isSome = true := by
  rw [State.names]
  split_ifs
  · exact literalNames_isSome literal key
  · rfl

/-- The scan comes to a result for every text. -/
theorem duplicateFrom_isSome (body key : GoString) (s : State) (i : ℕ) :
    (duplicateFrom body key s i).isSome = true := by
  fun_induction duplicateFrom body key s i with
  | case1 s i hi hnone =>
      have := byteAt_isSome hi
      rw [hnone] at this
      cases this
  | case2 s i hi hnone =>
      have : (scanStringLiteral body i).isSome = true := scanLiteralFrom_isSome (le_refl _)
      rw [hnone] at this
      cases this
  | case4 s i hi literal next hscan hnone =>
      have := names_isSome s literal key
      rw [hnone] at this
      cases this
  | case6 s i hi literal next hscan named hnamed hfound hnext hb ih => exact ih
  | case7 s i hi literal next hscan named hnamed hfound hnext =>
      have := lt_of_scanLiteralFrom hscan
      omega
  | case9 s i hi b hb h34 s' hpass ih => exact ih
  | _ => rfl

/-! ### Names as they are written -/

/-- The runes of two escapes are a pair. -/
def IsPair (r r' : ℕ) : Prop := 0xD800 ≤ r ∧ r < 0xDC00 ∧ 0xDC00 ≤ r' ∧ r' < 0xE000

instance (r r' : ℕ) : Decidable (IsPair r r') := inferInstanceAs (Decidable (_ ∧ _))

/-- What a string stands for: two escapes that are a pair are one character, and a half of a pair
is U+FFFD. -/
def unescape : List Piece → GoString
  | [] => []
  | .plain b _ :: ps => b :: unescape ps
  | .short _ x _ :: ps => x :: unescape ps
  | .unicode _ _ _ _ r _ :: .unicode a b c d r' h :: ps =>
      if IsPair r r' then
        Json.encodeRune (0x10000 + (r - 0xD800) * 1024 + (r' - 0xDC00)) ++ unescape ps
      else runeBytes r ++ unescape (.unicode a b c d r' h :: ps)
  | .unicode _ _ _ _ r _ :: ps => runeBytes r ++ unescape ps

section Names

theorem byteAt_append (pre post : GoString) (b : UInt8) :
    byteAt (pre ++ b :: post) pre.length = some b := by
  simp [byteAt]

theorem byteAt_append_add (pre text post : GoString) {i : ℕ} (h : i < text.length) :
    byteAt (pre ++ (text ++ post)) (pre.length + i) = text[i]? := by
  rw [byteAt, List.getElem?_append_right (by omega), Nat.add_sub_cancel_left,
    List.getElem?_append_left h]

theorem slice_append (pre text post : GoString) :
    slice (pre ++ (text ++ post)) pre.length (pre.length + text.length) = some text := by
  rw [slice, if_pos (by simp)]
  congr 1
  rw [List.take_append, List.drop_append]
  simp

theorem hexDigits_eq_hex4 (a b c d : UInt8) : hexDigits [a, b, c, d] = Json.hex4 [a, b, c, d] := by
  simp only [hexDigits, Json.hex4, List.foldlM_cons, List.foldlM_nil]
  cases hexValue a <;> cases hexValue b <;> cases hexValue c <;> cases hexValue d <;> simp

theorem parseHex4_append {a b c d : UInt8} {r : ℕ} (h : Json.hex4 [a, b, c, d] = some r)
    (pre post : GoString) : parseHex4 (pre ++ ([a, b, c, d] ++ post)) pre.length = some (some r) := by
  rw [parseHex4, if_neg (by simp)]
  have := slice_append pre [a, b, c, d] post
  rw [List.length_cons, List.length_cons, List.length_cons, List.length_cons, List.length_nil] at this
  rw [this, Option.map_some, hexDigits_eq_hex4, h]

theorem simpleEscape_eq_some {c x : UInt8} (h : Json.simpleEscape c = some x) :
    c ∈ [34, 92, 47, 98, 102, 110, 114, 116] ∧ unescapeSimple c = x := by
  rw [Json.simpleEscape] at h
  split_ifs at h with h₁ h₂ h₃ h₄ h₅ h₆
  · cases h
    rcases h₁ with rfl | rfl | rfl <;> decide
  all_goals
    cases h
    subst_vars
    decide

theorem decodeRune_of_pair {r r' : ℕ} (h : IsPair r r') :
    decodeRune r r' = 0x10000 + (r - 0xD800) * 1024 + (r' - 0xDC00) ∧ decodeRune r r' ≠ 0xFFFD := by
  have heq : decodeRune r r' = (r - 0xD800) * 1024 + (r' - 0xDC00) + 0x10000 := if_pos h
  rw [heq]
  omega

theorem decodeRune_of_not_pair {r r' : ℕ} (h : ¬IsPair r r') : decodeRune r r' = 0xFFFD := if_neg h

/-- What an escape at the head of pieces is decoded to, with the number of its bytes. -/
def headEscape (r : ℕ) : List Piece → ℕ × ℕ
  | .unicode _ _ _ _ r' _ :: _ => if IsPair r r' then (decodeRune r r', 10) else (r, 4)
  | _ => (r, 4)

theorem decodeLow_render {pre digits : GoString} (hdigits : digits.length = 4) (r : ℕ)
    (ps : List Piece) (hlong : pre.length + 10 ≤ (pre ++ (digits ++ renderPieces ps)).length) :
    ∃ low, decodeLow (pre ++ (digits ++ renderPieces ps)) pre.length r = some low ∧
      low.getD (r, 4) = headEscape r ps := by
  have hshift : pre ++ (digits ++ renderPieces ps) = (pre ++ digits) ++ renderPieces ps := by simp
  have hlen : pre.length + 4 = (pre ++ digits).length := by simp [hdigits]
  cases ps with
  | nil =>
      simp [renderPieces, hdigits] at hlong
  | cons p ps =>
      cases p with
      | plain b hb =>
          have hbyte : byteAt (pre ++ (digits ++ renderPieces (.plain b hb :: ps)))
              (pre.length + 4) = some b := by
            rw [hshift, hlen]
            exact byteAt_append _ _ _
          refine ⟨none, ?_, rfl⟩
          rw [decodeLow, hbyte]
          simp [hb.2.2]
      | short c x hc =>
          have hbyte : byteAt (pre ++ (digits ++ renderPieces (.short c x hc :: ps)))
              (pre.length + 4) = some 92 := by
            rw [hshift, hlen]
            exact byteAt_append _ _ _
          have hbyte' : byteAt (pre ++ (digits ++ renderPieces (.short c x hc :: ps)))
              (pre.length + 5) = some c := by
            have := byteAt_append_add (pre ++ digits) [92, c] (renderPieces ps)
              (show 1 < [92, c].length by simp)
            rw [hshift, show pre.length + 5 = (pre ++ digits).length + 1 by simp [hdigits]]
            exact this
          have hne : c ≠ 117 := by
            rintro rfl
            simp [Json.simpleEscape] at hc
          refine ⟨none, ?_, rfl⟩
          rw [decodeLow, hbyte]
          simp [hbyte', hne]
      | unicode a b c d r' h =>
          have hbyte : byteAt (pre ++ (digits ++ renderPieces (.unicode a b c d r' h :: ps)))
              (pre.length + 4) = some 92 := by
            rw [hshift, hlen]
            exact byteAt_append _ _ _
          have hbyte' : byteAt (pre ++ (digits ++ renderPieces (.unicode a b c d r' h :: ps)))
              (pre.length + 5) = some 117 := by
            have := byteAt_append_add (pre ++ digits) [92, 117] ([a, b, c, d] ++ renderPieces ps)
              (show 1 < [92, (117 : UInt8)].length by simp)
            rw [hshift, show pre.length + 5 = (pre ++ digits).length + 1 by simp [hdigits]]
            exact this
          have hlow : parseHex4 (pre ++ (digits ++ renderPieces (.unicode a b c d r' h :: ps)))
              (pre.length + 6) = some (some r') := by
            have := parseHex4_append h (pre ++ (digits ++ [92, 117])) (renderPieces ps)
            rw [show pre.length + 6 = (pre ++ (digits ++ [92, 117])).length by simp [hdigits]]
            simpa [renderPieces, Piece.render] using this
          rw [decodeLow, hbyte]
          simp only [Option.bind_eq_bind, Option.bind_some, hbyte', hlow]
          by_cases hpair : IsPair r r'
          · exact ⟨some (decodeRune r r', 10), by simp [(decodeRune_of_pair hpair).2], by
              simp [headEscape, hpair]⟩
          · exact ⟨none, by simp [decodeRune_of_not_pair hpair], by simp [headEscape, hpair]⟩

theorem decodeEscape_render {a b c d : UInt8} {r : ℕ} (h : Json.hex4 [a, b, c, d] = some r)
    (pre : GoString) (ps : List Piece) :
    decodeEscape (pre ++ ([a, b, c, d] ++ renderPieces ps)) pre.length =
      some (some (headEscape r ps)) := by
  have hself : headEscape r ps = (r, 4) ∨
      isSurrogate r = true ∧ pre.length + 10 ≤ (pre ++ ([a, b, c, d] ++ renderPieces ps)).length := by
    cases ps with
    | nil => exact .inl rfl
    | cons p ps =>
        cases p with
        | plain b hb => exact .inl rfl
        | short c x hc => exact .inl rfl
        | unicode a' b' c' d' r' h' =>
            by_cases hpair : IsPair r r'
            · right
              refine ⟨?_, by simp [renderPieces, Piece.render]⟩
              simp only [isSurrogate, Bool.and_eq_true, decide_eq_true_eq]
              obtain ⟨h₁, h₂, -, -⟩ := hpair
              omega
            · exact .inl (if_neg hpair)
  rw [decodeEscape, parseHex4_append h]
  simp only [Option.bind_eq_bind, Option.bind_some]
  split_ifs with hlong
  · obtain ⟨low, hlow, hhead⟩ := @decodeLow_render pre [a, b, c, d] rfl r ps hlong.2
    rw [hlow]
    simp [hhead]
  · rcases hself with hself | hself
    · rw [hself]
      rfl
    · exact absurd hself hlong

theorem renderPieces_cons (p : Piece) (ps : List Piece) :
    renderPieces (p :: ps) = p.render ++ renderPieces ps := rfl

theorem runeBytes_pair {r r' : ℕ} (h : IsPair r r') : runeBytes (decodeRune r r') =
    Json.encodeRune (0x10000 + (r - 0xD800) * 1024 + (r' - 0xDC00)) := by
  have hlarge : isSurrogate (decodeRune r r') = false := by
    rw [(decodeRune_of_pair h).1]
    simp only [isSurrogate, Bool.and_eq_false_iff, decide_eq_false_iff_not]
    omega
  rw [runeBytes, hlarge, (decodeRune_of_pair h).1]
  rfl

/-- The decoding follows the pieces. -/
theorem unescapeFrom_render (pre dst : GoString) (ps : List Piece) :
    unescapeFrom (pre ++ renderPieces ps) dst pre.length = some (some (dst ++ unescape ps)) := by
  -- one step for an escape of four digits, whatever comes behind it
  have hescape (pre dst : GoString) {a b c d : UInt8} {r : ℕ} (h : Json.hex4 [a, b, c, d] = some r)
      (ps : List Piece) : unescapeFrom (pre ++ renderPieces (.unicode a b c d r h :: ps)) dst
        pre.length = unescapeFrom (pre ++ renderPieces (.unicode a b c d r h :: ps))
          (dst ++ runeBytes (headEscape r ps).1) (pre.length + 2 + (headEscape r ps).2) := by
    have hdecode := decodeEscape_render h (pre ++ [92, 117]) ps
    have htext : pre ++ renderPieces (.unicode a b c d r h :: ps) =
        pre ++ [92, 117] ++ ([a, b, c, d] ++ renderPieces ps) := by
      simp [renderPieces, Piece.render]
    rw [List.length_append, ← htext] at hdecode
    have hbyte : byteAt (pre ++ renderPieces (.unicode a b c d r h :: ps)) pre.length = some 92 :=
      byteAt_append _ _ _
    have hbyte' : byteAt (pre ++ renderPieces (.unicode a b c d r h :: ps)) (pre.length + 1) =
        some 117 :=
      byteAt_append_add pre [92, 117] ([a, b, c, d] ++ renderPieces ps)
        (show 1 < [92, (117 : UInt8)].length by simp)
    rw [unescapeFrom, if_pos (by simp [renderPieces, Piece.render]), hbyte]
    simp only [ne_eq, not_true_eq_false, if_false]
    rw [if_neg (by simp [renderPieces, Piece.render]), hbyte']
    simp only [show (117 : UInt8) ∉ [34, 92, 47, 98, 102, 110, 114, 116] by decide, if_false,
      if_true]
    rw [show pre.length + 2 = pre.length + [92, (117 : UInt8)].length from rfl, hdecode]
  induction ps using unescape.induct generalizing pre dst with
  | case1 => simp [renderPieces, unescapeFrom, unescape]
  | case2 b hb ps ih =>
      have hnext := ih (pre ++ [b]) (dst ++ [b])
      have hbyte : byteAt (pre ++ renderPieces (.plain b hb :: ps)) pre.length = some b :=
        byteAt_append _ _ _
      rw [unescapeFrom, if_pos (by simp [renderPieces, Piece.render]), hbyte]
      simp only [ne_eq, hb.2.2, not_false_eq_true, if_true]
      simpa [renderPieces, Piece.render, unescape] using hnext
  | case3 c x hc ps ih =>
      have hnext := ih (pre ++ [92, c]) (dst ++ [x])
      obtain ⟨hmem, hsimple⟩ := simpleEscape_eq_some hc
      have hbyte : byteAt (pre ++ renderPieces (.short c x hc :: ps)) pre.length = some 92 :=
        byteAt_append _ _ _
      have hbyte' : byteAt (pre ++ renderPieces (.short c x hc :: ps)) (pre.length + 1) = some c :=
        byteAt_append_add pre [92, c] (renderPieces ps) (show 1 < [92, c].length by simp)
      rw [unescapeFrom, if_pos (by simp [renderPieces, Piece.render]), hbyte]
      simp only [ne_eq, not_true_eq_false, if_false]
      rw [if_neg (by simp [renderPieces, Piece.render]), hbyte']
      simp only [hmem, if_true, hsimple]
      simpa [renderPieces, Piece.render, unescape] using hnext
  | case4 a b c d r h a' b' c' d' r' h' ps hpair ih =>
      have hnext := ih (pre ++ [92, 117, a, b, c, d, 92, 117, a', b', c', d'])
        (dst ++ runeBytes (decodeRune r r'))
      have htext : pre ++ renderPieces (.unicode a b c d r h :: .unicode a' b' c' d' r' h' :: ps) =
          pre ++ [92, 117, a, b, c, d, 92, 117, a', b', c', d'] ++ renderPieces ps := by
        simp [renderPieces, Piece.render]
      rw [hescape, headEscape, if_pos hpair, htext, unescape, if_pos hpair, ← runeBytes_pair hpair,
        ← List.append_assoc dst]
      rw [List.length_append] at hnext
      exact hnext
  | case5 a b c d r h a' b' c' d' r' h' ps hpair ih =>
      have hnext := ih (pre ++ [92, 117, a, b, c, d]) (dst ++ runeBytes r)
      have htext : pre ++ renderPieces (.unicode a b c d r h :: .unicode a' b' c' d' r' h' :: ps) =
          pre ++ [92, 117, a, b, c, d] ++ renderPieces (.unicode a' b' c' d' r' h' :: ps) := by
        simp [renderPieces, Piece.render]
      rw [hescape, headEscape, if_neg hpair, htext, unescape, if_neg hpair, ← List.append_assoc dst]
      rw [List.length_append] at hnext
      exact hnext
  | case6 a b c d r h ps hnone ih =>
      have hnext := ih (pre ++ [92, 117, a, b, c, d]) (dst ++ runeBytes r)
      have hhead : headEscape r ps = (r, 4) := by
        cases ps with
        | nil => rfl
        | cons p ps =>
            cases p with
            | unicode a' b' c' d' r' h' => exact absurd rfl (hnone a' b' c' d' r' h' ps)
            | _ => rfl
      have htext : pre ++ renderPieces (.unicode a b c d r h :: ps) =
          pre ++ [92, 117, a, b, c, d] ++ renderPieces ps := by
        simp [renderPieces, Piece.render]
      rw [hescape, hhead, htext, unescape, ← List.append_assoc dst]
      · rw [List.length_append] at hnext
        exact hnext
      · exact hnone

/-- A string without escapes stands for itself. -/
theorem unescape_of_plain {ps : List Piece} (h : 92 ∉ renderPieces ps) :
    unescape ps = renderPieces ps := by
  induction ps with
  | nil => rfl
  | cons p ps ih =>
      rw [renderPieces_cons, List.mem_append, not_or] at h
      cases p with
      | plain b hb =>
          rw [unescape, ih h.2]
          rfl
      | short c x hc => simp [Piece.render] at h
      | unicode a b c d r hr => simp [Piece.render] at h

theorem literalNames_render (ps : List Piece) (key : GoString) :
    literalNames (renderPieces ps) key = some (unescape ps == key) := by
  rw [literalNames]
  split_ifs with h
  · have := unescapeFrom_render [] [] ps
    rw [List.nil_append, List.nil_append] at this
    rw [show ([] : GoString).length = 0 from rfl] at this
    rw [this]
    rfl
  · rw [unescape_of_plain h]

end Names

/-! ### Literals as they are written -/

theorem hexValue_ne {b : UInt8} {v : ℕ} (h : hexValue b = some v) : b ≠ 34 ∧ b ≠ 92 := by
  constructor
  · rintro rfl
    simp [hexValue] at h
  · rintro rfl
    simp [hexValue] at h

theorem hex4_ne {a b c d : UInt8} {r : ℕ} (h : Json.hex4 [a, b, c, d] = some r) :
    ∀ x ∈ [a, b, c, d], x ≠ 34 ∧ x ≠ 92 := by
  simp only [Json.hex4] at h
  obtain ⟨va, ha, h⟩ := Option.bind_eq_some_iff.mp h
  obtain ⟨vb, hb, h⟩ := Option.bind_eq_some_iff.mp h
  obtain ⟨vc, hc, h⟩ := Option.bind_eq_some_iff.mp h
  obtain ⟨vd, hd, -⟩ := Option.bind_eq_some_iff.mp h
  simp only [List.mem_cons, List.not_mem_nil, or_false]
  rintro x (rfl | rfl | rfl | rfl)
  · exact hexValue_ne ha
  · exact hexValue_ne hb
  · exact hexValue_ne hc
  · exact hexValue_ne hd

/-- Bytes that are neither a quote nor a backslash are passed. -/
theorem scanLiteralFrom_plain (start : ℕ) (pre text post : GoString)
    (h : ∀ x ∈ text, x ≠ 34 ∧ x ≠ 92) :
    scanLiteralFrom (pre ++ (text ++ post)) start pre.length =
      scanLiteralFrom (pre ++ (text ++ post)) start (pre.length + text.length) := by
  induction text generalizing pre with
  | nil => rfl
  | cons b text ih =>
      have hb := h b (by simp)
      have hnext := ih (pre ++ [b]) fun x hx => h x (by simp [hx])
      have hbyte : byteAt (pre ++ (b :: text ++ post)) pre.length = some b := byteAt_append _ _ _
      rw [scanLiteralFrom, if_pos (by simp), hbyte]
      simp only [hb.1, hb.2, if_false]
      simpa [Nat.add_comm 1, Nat.add_assoc] using hnext

theorem scanLiteralFrom_escape (start : ℕ) (pre post : GoString) (c : UInt8) :
    scanLiteralFrom (pre ++ 92 :: c :: post) start pre.length =
      scanLiteralFrom (pre ++ 92 :: c :: post) start (pre.length + 2) := by
  have hbyte : byteAt (pre ++ 92 :: c :: post) pre.length = some 92 := byteAt_append _ _ _
  rw [scanLiteralFrom, if_pos (by simp), hbyte]
  simp only [if_true]
  rw [if_neg (by simp)]

/-- The pieces of a string are passed up to its quote. -/
theorem scanLiteralFrom_render (start : ℕ) (pre : GoString) (ps : List Piece) (post : GoString) :
    scanLiteralFrom (pre ++ (renderPieces ps ++ post)) start pre.length =
      scanLiteralFrom (pre ++ (renderPieces ps ++ post)) start
        (pre.length + (renderPieces ps).length) := by
  induction ps generalizing pre with
  | nil => rfl
  | cons p ps ih =>
      have hnext := ih (pre ++ p.render)
      have hpiece : scanLiteralFrom (pre ++ (renderPieces (p :: ps) ++ post)) start pre.length =
          scanLiteralFrom (pre ++ (renderPieces (p :: ps) ++ post)) start
            (pre.length + p.render.length) := by
        rw [renderPieces_cons, List.append_assoc]
        cases p with
        | plain b hb => exact scanLiteralFrom_plain start pre [b] _ (by simpa using hb.2)
        | short c x hc => exact scanLiteralFrom_escape start pre _ c
        | unicode a b c d r hr =>
            rw [Piece.render]
            have hfirst := scanLiteralFrom_escape start pre
              ([a, b, c, d] ++ (renderPieces ps ++ post)) 117
            have hdigits := scanLiteralFrom_plain start (pre ++ [92, 117]) [a, b, c, d]
              (renderPieces ps ++ post) (hex4_ne hr)
            simp only [List.length_append, List.append_assoc] at hdigits
            exact hfirst.trans (by simpa [Nat.add_assoc] using hdigits)
      rw [hpiece]
      simpa [renderPieces_cons, Nat.add_assoc] using hnext

theorem scanStringLiteral_quote (pre : GoString) (ps : List Piece) (post : GoString) :
    scanStringLiteral (pre ++ (JsonText.quote ps ++ post)) pre.length =
      some (.ok (renderPieces ps, pre.length + (JsonText.quote ps).length)) := by
  have htext : pre ++ (JsonText.quote ps ++ post) = (pre ++ [34]) ++ (renderPieces ps ++ 34 :: post) := by
    simp [JsonText.quote]
  have hstart : pre.length + 1 = (pre ++ [34]).length := by simp
  rw [scanStringLiteral, htext, hstart, scanLiteralFrom_render]
  have hbyte : byteAt ((pre ++ [34]) ++ (renderPieces ps ++ 34 :: post))
      ((pre ++ [34]).length + (renderPieces ps).length) = some 34 := by
    have := byteAt_append ((pre ++ [34]) ++ renderPieces ps) post 34
    rw [@List.length_append _ (pre ++ [34]), List.append_assoc (pre ++ [34])] at this
    exact this
  rw [scanLiteralFrom, if_pos (by simp; omega), hbyte]
  simp only [show ¬(34 : UInt8) = 92 by decide, if_false, if_true]
  rw [slice_append, Option.map_some]
  have hend : (pre ++ [34]).length + (renderPieces ps).length + 1 =
      pre.length + (JsonText.quote ps).length := by
    simp [JsonText.quote]
    omega
  rw [hend]

/-! ### The scan follows the grammar -/

section Passes

variable {key : GoString} {s s' s'' : State} {text text' : GoString}

/-- The scan goes through a text from one state to another, wherever it stands. -/
def Passes (key : GoString) (s : State) (text : GoString) (s' : State) : Prop :=
  ∀ pre post, duplicateFrom (pre ++ (text ++ post)) key s pre.length =
    duplicateFrom (pre ++ (text ++ post)) key s' (pre.length + text.length)

theorem passes_nil : Passes key s [] s := fun _ _ => rfl

theorem Passes.append (h : Passes key s text s') (h' : Passes key s' text' s'') :
    Passes key s (text ++ text') s'' := by
  intro pre post
  have hfirst := h pre (text' ++ post)
  have hnext := h' (pre ++ text) post
  rw [List.length_append, List.append_assoc pre] at hnext
  rw [List.append_assoc, hfirst, hnext, List.length_append, Nat.add_assoc]

theorem passes_byte {b : UInt8} (hb : b ≠ 34) (h : s.pass b = some s') : Passes key s [b] s' := by
  intro pre post
  have hbyte : byteAt (pre ++ ([b] ++ post)) pre.length = some b := byteAt_append _ _ _
  rw [duplicateFrom, if_pos (by simp), hbyte]
  simp only [hb, if_false, h]
  rfl

/-- A byte that means nothing to the scan. -/
def Quiet (b : UInt8) : Prop := b ∉ [34, 123, 91, 125, 93, 58, 44]

instance (b : UInt8) : Decidable (Quiet b) := inferInstanceAs (Decidable (¬_))

theorem passes_quiet (h : ∀ b ∈ text, Quiet b) : Passes key s text s := by
  induction text with
  | nil => exact passes_nil
  | cons b text ih =>
      have hb := h b (by simp)
      have hfirst : Passes key s [b] s := by
        simp only [Quiet, List.mem_cons, List.not_mem_nil, or_false, not_or] at hb
        exact passes_byte hb.1 (by simp [State.pass, hb])
      exact hfirst.append (ih fun b hb => h b (by simp [hb]))

theorem passes_space (w : Space) : Passes key s w.1 s := by
  refine passes_quiet fun b hb => ?_
  have := w.2 b hb
  simp only [Json.isSpace, Bool.or_eq_true, beq_iff_eq] at this
  rcases this with ((rfl | rfl) | rfl) | rfl <;> decide

/-- The scan at a string. -/
theorem duplicateFrom_quote (pre post : GoString) (ps : List Piece) :
    duplicateFrom (pre ++ (JsonText.quote ps ++ post)) key s pre.length =
      if (s.memberNext = true ∧ s.depth = 1) ∧ unescape ps = key then
        if 1 ≤ s.occurrences then some (.ok true)
        else duplicateFrom (pre ++ (JsonText.quote ps ++ post)) key (s.passString true)
          (pre.length + (JsonText.quote ps).length)
      else duplicateFrom (pre ++ (JsonText.quote ps ++ post)) key (s.passString false)
        (pre.length + (JsonText.quote ps).length) := by
  have hbyte : byteAt (pre ++ (JsonText.quote ps ++ post)) pre.length = some 34 := byteAt_append _ _ _
  have hlt : pre.length < pre.length + (JsonText.quote ps).length := by simp [JsonText.quote]
  rw [duplicateFrom, if_pos (by simp [JsonText.quote]), hbyte]
  simp only [if_true]
  rw [scanStringLiteral_quote]
  simp only [State.names]
  by_cases hmember : s.memberNext = true ∧ s.depth = 1
  · rw [if_pos hmember, literalNames_render]
    by_cases hkey : unescape ps = key
    · rw [if_pos ⟨hmember, hkey⟩]
      by_cases hfound : 1 ≤ s.occurrences
      · rw [if_pos hfound]
        simp [hkey, State.passString]
        omega
      · rw [if_neg hfound]
        have : s.occurrences = 0 := by omega
        simp [hkey, State.passString, this, hlt]
    · have hfalse : (unescape ps == key) = false := by simpa using hkey
      rw [if_neg fun h => hkey h.2, hfalse]
      simp [hlt]
  · rw [if_neg hmember, if_neg fun h => hmember h.1]
    simp [hlt]

/-- A string that is no name of a member of the top-level object. -/
theorem passes_string (h : ¬(s.memberNext = true ∧ s.depth = 1)) (ps : List Piece) :
    Passes key s (JsonText.quote ps) { s with memberNext := false } := by
  intro pre post
  rw [duplicateFrom_quote, if_neg fun hmember => h hmember.1]
  rfl

theorem quiet_of_isDigit {b : UInt8} (h : Json.isDigit b = true) : Quiet b := by
  simp only [Json.isDigit, Bool.and_eq_true, decide_eq_true_eq] at h
  simp only [Quiet, List.mem_cons, List.not_mem_nil, or_false, not_or]
  refine ⟨?_, ?_, ?_, ?_, ?_, ?_, ?_⟩ <;>
    · rintro rfl
      revert h
      decide

theorem passes_digits (h : Digits text) : Passes key s text s :=
  passes_quiet fun b hb => quiet_of_isDigit (h.2 b hb)

theorem passes_number (h : IsNumber text) : Passes key s text s := by
  obtain ⟨minus, int, frac, exp, rfl, hminus, hint, hfrac, hexp⟩ := h
  have hm : Passes key s minus s := by
    rcases hminus with rfl | rfl
    · exact passes_nil
    · exact passes_quiet (Strings.forall_mem_of_all (by decide))
  have hi : Passes key s int s := by
    rcases hint with rfl | ⟨hint, -⟩
    · exact passes_quiet (Strings.forall_mem_of_all (by decide))
    · exact passes_digits hint
  have hf : Passes key s frac s := by
    rcases hfrac with rfl | ⟨ds, rfl, hds⟩
    · exact passes_nil
    · exact (@passes_quiet key s [46] (Strings.forall_mem_of_all (by decide))).append (passes_digits hds)
  have he : Passes key s exp s := by
    rcases hexp with rfl | ⟨e, sign, ds, rfl, he, hsign, hds⟩
    · exact passes_nil
    · have hsign' : Passes key s sign s := by
        rcases hsign with rfl | rfl | rfl
        · exact passes_nil
        · exact passes_quiet (Strings.forall_mem_of_all (by decide))
        · exact passes_quiet (Strings.forall_mem_of_all (by decide))
      refine (@passes_quiet key s [e] ?_).append (hsign'.append (passes_digits hds))
      rcases he with rfl | rfl <;> exact Strings.forall_mem_of_all (by decide)
  exact hm.append (hi.append (hf.append he))

theorem passes_literal (l : Literal) : Passes key s l.render s := by
  cases l <;> exact passes_quiet (Strings.forall_mem_of_all (by decide))

/-! ### Nested values -/

variable {n : ℤ} {top m : Bool} {o : ℕ}

theorem passes_open {b : UInt8} (hb : b = 123 ∨ b = 91) (hn : 1 ≤ n) :
    Passes key ⟨n, top, m, o⟩ [b] ⟨n + 1, top, b == 123, o⟩ := by
  have hne : (n + 1 == 1) = false := by
    simp
    omega
  rcases hb with rfl | rfl
  · exact passes_byte (by decide) (by simp [State.pass, hne])
  · exact passes_byte (by decide) (by simp [State.pass])

theorem passes_close {b : UInt8} (hb : b = 125 ∨ b = 93) (hn : 0 ≤ n) :
    Passes key ⟨n + 1, top, m, o⟩ [b] ⟨n, top, false, o⟩ := by
  rcases hb with rfl | rfl
  · exact passes_byte (by decide) (by simp [State.pass, hn])
  · exact passes_byte (by decide) (by simp [State.pass, hn])

theorem passes_colon : Passes key ⟨n, top, m, o⟩ [58] ⟨n, top, false, o⟩ :=
  passes_byte (by decide) (by simp [State.pass])

theorem passes_comma : Passes key ⟨n, top, m, o⟩ [44] ⟨n, top, n == 1 && top, o⟩ :=
  passes_byte (by decide) (by simp [State.pass])

/-- The name of a member below the top level. -/
theorem passes_name (k : Name) (hn : 2 ≤ n) :
    Passes key ⟨n, top, m, o⟩ k.render ⟨n, top, false, o⟩ := by
  have hstring : Passes key ⟨n, top, m, o⟩ (JsonText.quote k.pieces) ⟨n, top, false, o⟩ :=
    passes_string (by rintro ⟨-, h⟩; change n = 1 at h; omega) k.pieces
  exact (passes_space k.before).append (hstring.append ((passes_space k.after).append
    (passes_colon.append (passes_space k.gap))))

mutual

/-- A value below the top level leaves the state as it was. -/
theorem Doc.passes : ∀ (d : Doc) (key : GoString) {n : ℤ} {top : Bool} {o : ℕ}, 1 ≤ n →
    Passes key ⟨n, top, false, o⟩ d.render ⟨n, top, false, o⟩
  | .literal l, key, n, top, o, _ => passes_literal l
  | .number s h, key, n, top, o, _ => passes_number h
  | .string ps, key, n, top, o, _ => passes_string (by simp) ps
  | .emptyArray w, key, n, top, o, hn =>
      (passes_open (.inr rfl) hn).append ((passes_space w).append (passes_close (.inr rfl) (by omega)))
  | .array es, key, n, top, o, hn =>
      (passes_open (.inr rfl) hn).append ((Elements.passes es key (by omega) (.inl (by omega))).append
        (passes_close (.inr rfl) (by omega)))
  | .emptyObject w, key, n, top, o, hn =>
      (passes_open (.inl rfl) hn).append ((passes_space w).append (passes_close (.inl rfl) (by omega)))
  | .object ms, key, n, top, o, hn =>
      (passes_open (.inl rfl) hn).append ((Members.passes ms key (by omega)).append
        (passes_close (.inl rfl) (by omega)))

theorem Elements.passes : ∀ (es : Elements) (key : GoString) {n : ℤ} {top : Bool} {o : ℕ}, 1 ≤ n →
    2 ≤ n ∨ top = false → Passes key ⟨n, top, false, o⟩ es.render ⟨n, top, false, o⟩
  | .last before v after, key, n, top, o, hn, _ =>
      (passes_space before).append ((Doc.passes v key hn).append (passes_space after))
  | .more before v after es, key, n, top, o, hn, htop => by
      have hcomma : Passes key ⟨n, top, false, o⟩ [44] ⟨n, top, false, o⟩ := by
        have hnext : (n == 1 && top) = false := by
          rcases htop with h | h
          · simp
            omega
          · simp [h]
        have := @passes_comma key n top false o
        rwa [hnext] at this
      exact (passes_space before).append ((Doc.passes v key hn).append ((passes_space after).append
        (hcomma.append (Elements.passes es key hn htop))))

theorem Members.passes : ∀ (ms : Members) (key : GoString) {n : ℤ} {top m : Bool} {o : ℕ}, 2 ≤ n →
    Passes key ⟨n, top, m, o⟩ ms.render ⟨n, top, false, o⟩
  | .last k v after, key, n, top, m, o, hn =>
      (passes_name k hn).append ((Doc.passes v key (by omega)).append (passes_space after))
  | .more k v after ms, key, n, top, m, o, hn =>
      (passes_name k hn).append ((Doc.passes v key (by omega)).append ((passes_space after).append
        (passes_comma.append (Members.passes ms key hn))))

end

end Passes

/-! ### The top level -/

/-- How many members have the name. -/
def membersNamed (key : GoString) : Members → ℕ
  | .last k _ _ => if unescape k.pieces = key then 1 else 0
  | .more k _ _ ms => (if unescape k.pieces = key then 1 else 0) + membersNamed key ms

/-- How many members of a top-level object have the name. -/
def topLevelNamed (key : GoString) : Doc → ℕ
  | .object ms => membersNamed key ms
  | _ => 0

section TopLevel

variable {key : GoString}

/-- The name of a member of the top-level object, and what is before its value. -/
theorem duplicateFrom_name (pre post : GoString) (k : Name) {o : ℕ} (ho : o ≤ 1) :
    duplicateFrom (pre ++ (k.render ++ post)) key ⟨1, true, true, o⟩ pre.length =
      if 2 ≤ o + (if unescape k.pieces = key then 1 else 0) then some (.ok true)
      else duplicateFrom (pre ++ (k.render ++ post)) key
        ⟨1, true, false, o + (if unescape k.pieces = key then 1 else 0)⟩
        (pre.length + k.render.length) := by
  have htext : pre ++ (k.render ++ post) = pre ++ (k.before.1 ++ (JsonText.quote k.pieces ++
      ((k.after.1 ++ ([58] ++ k.gap.1)) ++ post))) := by
    simp [Name.render]
  have hbefore := @passes_space key ⟨1, true, true, o⟩ k.before pre
    (JsonText.quote k.pieces ++ ((k.after.1 ++ ([58] ++ k.gap.1)) ++ post))
  have hafter (o : ℕ) : Passes key ⟨1, true, false, o⟩ (k.after.1 ++ ([58] ++ k.gap.1))
      ⟨1, true, false, o⟩ :=
    (passes_space k.after).append (passes_colon.append (passes_space k.gap))
  have hrest (o : ℕ) := hafter o (pre ++ k.before.1 ++ JsonText.quote k.pieces) post
  have hlen : pre.length + k.render.length = (pre ++ k.before.1 ++ JsonText.quote k.pieces).length +
      (k.after.1 ++ ([58] ++ k.gap.1)).length := by
    simp [Name.render]
    omega
  have hquote := @duplicateFrom_quote key ⟨1, true, true, o⟩ (pre ++ k.before.1)
    ((k.after.1 ++ ([58] ++ k.gap.1)) ++ post) k.pieces
  have hassoc : pre ++ k.before.1 ++ (JsonText.quote k.pieces ++ ((k.after.1 ++ ([58] ++ k.gap.1)) ++ post)) =
      pre ++ (k.render ++ post) := by
    rw [htext, List.append_assoc]
  have hassoc' : pre ++ k.before.1 ++ JsonText.quote k.pieces ++ (k.after.1 ++ ([58] ++ k.gap.1) ++ post) =
      pre ++ (k.render ++ post) := by
    rw [htext]
    simp
  rw [← htext] at hbefore
  rw [hassoc] at hquote
  simp only [hassoc', ← hlen] at hrest
  have hquoteLen : (pre ++ k.before.1).length + (JsonText.quote k.pieces).length =
      (pre ++ k.before.1 ++ JsonText.quote k.pieces).length := List.length_append.symm
  rw [hbefore, ← List.length_append, hquote, hquoteLen]
  by_cases hkey : unescape k.pieces = key
  · rw [if_pos ⟨⟨rfl, rfl⟩, hkey⟩, if_pos hkey]
    by_cases hfound : 1 ≤ o
    · rw [if_pos hfound, if_pos (by omega)]
    · rw [if_neg hfound, if_neg (by omega), ← hrest]
      rfl
  · rw [if_neg fun h => hkey h.2, if_neg hkey, if_neg (by omega), ← hrest]
    rfl

/-- The members of the top-level object up to a second one of the name. -/
theorem duplicateFrom_members : ∀ (ms : Members) (pre post : GoString) {o : ℕ}, o ≤ 1 →
    duplicateFrom (pre ++ (ms.render ++ post)) key ⟨1, true, true, o⟩ pre.length =
      if 2 ≤ o + membersNamed key ms then some (.ok true)
      else duplicateFrom (pre ++ (ms.render ++ post)) key
        ⟨1, true, false, o + membersNamed key ms⟩ (pre.length + ms.render.length)
  | .last k v after, pre, post, o, ho => by
      have hname := @duplicateFrom_name key pre (v.render ++ after.1 ++ post) k o ho
      have htext : pre ++ (k.render ++ (v.render ++ after.1 ++ post)) =
          pre ++ ((Members.last k v after).render ++ post) := by
        simp [Members.render]
      have hvalue (o : ℕ) : Passes key ⟨1, true, false, o⟩ (v.render ++ after.1)
          ⟨1, true, false, o⟩ := (Doc.passes v key (le_refl 1)).append (passes_space after)
      have hrest (o : ℕ) := hvalue o (pre ++ k.render) post
      simp only [List.append_assoc pre, htext, List.length_append] at hname hrest
      rw [hname, membersNamed, hrest, Members.render, List.length_append, List.length_append,
        Nat.add_assoc]
  | .more k v after ms, pre, post, o, ho => by
      have hname := @duplicateFrom_name key pre
        ((v.render ++ (after.1 ++ [44])) ++ (ms.render ++ post)) k o ho
      have htext : pre ++ (k.render ++ ((v.render ++ (after.1 ++ [44])) ++ (ms.render ++ post))) =
          pre ++ ((Members.more k v after ms).render ++ post) := by
        simp [Members.render]
      have hvalue (o : ℕ) : Passes key ⟨1, true, false, o⟩ (v.render ++ (after.1 ++ [44]))
          ⟨1, true, true, o⟩ :=
        (Doc.passes v key (le_refl 1)).append ((passes_space after).append passes_comma)
      have hrest (o : ℕ) := hvalue o (pre ++ k.render) (ms.render ++ post)
      have hmembers {o : ℕ} (ho : o ≤ 1) := duplicateFrom_members ms
        (pre ++ k.render ++ (v.render ++ (after.1 ++ [44]))) post ho
      have hassoc : pre ++ k.render ++ (v.render ++ (after.1 ++ [44])) ++ (ms.render ++ post) =
          pre ++ ((Members.more k v after ms).render ++ post) := by
        rw [← htext]
        simp
      have hassoc' : pre ++ k.render ++ ((v.render ++ (after.1 ++ [44])) ++ (ms.render ++ post)) =
          pre ++ ((Members.more k v after ms).render ++ post) := by
        rw [← htext]
        simp
      have hlen : (pre ++ k.render ++ (v.render ++ (after.1 ++ [44]))).length + ms.render.length =
          pre.length + (Members.more k v after ms).render.length := by
        simp [Members.render]
        omega
      rw [htext] at hname
      simp only [hassoc', ← List.length_append] at hrest
      simp only [hassoc, hlen] at hmembers
      rw [hname, membersNamed]
      by_cases hfound : 2 ≤ o + (if unescape k.pieces = key then 1 else 0)
      · rw [if_pos hfound, if_pos (by omega)]
      · rw [if_neg hfound, ← List.length_append, hrest, hmembers (by omega), Nat.add_assoc]

theorem Passes.finish {s s' : State} {text : GoString} (h : Passes key s text s')
    (hdepth : s'.depth = 0) (pre : GoString) :
    duplicateFrom (pre ++ text) key s pre.length = some (.ok false) := by
  have hend := h pre []
  rw [List.append_nil] at hend
  rw [hend, duplicateFrom, if_neg (by simp), if_neg (not_not.mpr hdepth)]

/-- A text whose value is not an object with members. -/
theorem Doc.passes_top {d : Doc} (h : ∀ ms, d ≠ .object ms) :
    ∃ top, Passes key ⟨0, false, false, 0⟩ d.render ⟨0, top, false, 0⟩ := by
  have harray : Passes key ⟨0, false, false, 0⟩ [91] ⟨1, false, false, 0⟩ :=
    passes_byte (by decide) rfl
  have hobject : Passes key ⟨0, false, false, 0⟩ [123] ⟨1, true, true, 0⟩ :=
    passes_byte (by decide) rfl
  cases d with
  | literal l => exact ⟨false, passes_literal l⟩
  | number s hs => exact ⟨false, passes_number hs⟩
  | string ps => exact ⟨false, passes_string (by simp) ps⟩
  | emptyArray w =>
      exact ⟨false, harray.append ((passes_space w).append (passes_close (.inr rfl) (le_refl 0)))⟩
  | array es =>
      exact ⟨false, harray.append ((Elements.passes es key (le_refl 1) (.inr rfl)).append
        (passes_close (.inr rfl) (le_refl 0)))⟩
  | emptyObject w =>
      exact ⟨true, hobject.append ((passes_space w).append (passes_close (.inl rfl) (le_refl 0)))⟩
  | object ms => exact absurd rfl (h ms)

/-- A text whose value is an object with members, from the brace on. -/
theorem duplicateFrom_object (pre : GoString) (ms : Members) (after : Space) :
    duplicateFrom (pre ++ ((Doc.object ms).render ++ after.1)) key ⟨0, false, false, 0⟩ pre.length =
      some (.ok (decide (2 ≤ membersNamed key ms))) := by
  have hopen : Passes key ⟨0, false, false, 0⟩ [123] ⟨1, true, true, 0⟩ :=
    passes_byte (by decide) rfl
  have hclose (o : ℕ) : Passes key ⟨1, true, false, o⟩ ([125] ++ after.1) ⟨0, true, false, o⟩ :=
    (passes_close (.inl rfl) (le_refl 0)).append (passes_space after)
  have htext : pre ++ ((Doc.object ms).render ++ after.1) =
      pre ++ ([123] ++ (ms.render ++ ([125] ++ after.1))) := by
    simp [Doc.render]
  have hmembers := @duplicateFrom_members key ms (pre ++ [123]) ([125] ++ after.1) 0 (by omega)
  rw [htext, hopen pre, ← List.length_append, ← List.append_assoc, hmembers, Nat.zero_add]
  split_ifs with h
  · rw [decide_eq_true h]
  · rw [decide_eq_false h, ← List.append_assoc, ← List.length_append]
    exact (hclose _).finish rfl _

/-- The scan finds a second member of the name if and only if there is one, for every text of the
grammar; and it comes to a result for every text. -/
theorem duplicateTopLevelMember_iff (key : GoString) :
    (∀ (before after : Space) (d : Doc),
      duplicateTopLevelMember (before.1 ++ (d.render ++ after.1)) key =
        some (.ok (decide (2 ≤ topLevelNamed key d)))) ∧
    ∀ body, (duplicateTopLevelMember body key).isSome = true := by
  refine ⟨fun before after d => ?_, fun body => duplicateFrom_isSome body key _ 0⟩
  have hbefore := @passes_space key ⟨0, false, false, 0⟩ before [] (d.render ++ after.1)
  rw [List.nil_append, List.length_nil, Nat.zero_add] at hbefore
  rw [duplicateTopLevelMember, hbefore]
  by_cases hobject : ∃ ms, d = .object ms
  · obtain ⟨ms, rfl⟩ := hobject
    exact duplicateFrom_object before.1 ms after
  · obtain ⟨top, hpasses⟩ := @Doc.passes_top key d fun ms h => hobject ⟨ms, h⟩
    have hnone : topLevelNamed key d = 0 := by
      cases d with
      | object ms => exact absurd ⟨ms, rfl⟩ hobject
      | _ => rfl
    rw [hnone]
    exact (hpasses.append (passes_space after)).finish rfl before.1

end TopLevel

end Higress.JsonBody
