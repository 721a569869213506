import Mathlib.Data.List.TakeWhile
import Mathlib.Tactic.IntervalCases
import Higress.Lib.GoString

/-!
JSON values and their texts, as Go's `encoding/json` writes and reads them.

A value keeps its numbers as literals and its object members in order. The
writer and the reader work in two stages: strings are escaped or unescaped, and
the text is put together from, or taken apart into, values whose strings are
still in their escaped form.
-/

namespace Higress.Lib

inductive Json
  | null
  | bool (b : Bool)
  | num (lit : GoString)
  | str (s : GoString)
  | arr (elems : List Json)
  | obj (members : List (GoString × Json))

namespace Json

/-! ### UTF-8 -/

/-- A continuation byte. -/
def isTail (c : UInt8) : Bool := 0x80 ≤ c && c ≤ 0xBF

/-- The second byte of an encoding that starts with `b`: some first bytes allow
fewer continuations, which excludes overlong forms and surrogates. -/
def isSecond (b c : UInt8) : Bool :=
  isTail c && (b != 0xE0 || 0xA0 ≤ c) && (b != 0xED || c ≤ 0x9F) && (b != 0xF0 || 0x90 ≤ c) &&
    (b != 0xF4 || c ≤ 0x8F)

/-- The length of the valid encoding of a rune at the head of a text, zero if
there is none (`utf8.DecodeRune`). -/
def runeLen : GoString → ℕ
  | [] => 0
  | b :: s =>
      if b < 0x80 then 1
      else match s with
        | [] => 0
        | c :: s =>
            if isSecond b c then
              if 0xC2 ≤ b ∧ b ≤ 0xDF then 2
              else match s with
                | [] => 0
                | d :: s =>
                    if isTail d then
                      if 0xE0 ≤ b ∧ b ≤ 0xEF then 3
                      else match s with
                        | [] => 0
                        | e :: _ => if isTail e ∧ 0xF0 ≤ b ∧ b ≤ 0xF4 then 4 else 0
                    else 0
            else 0

/-- Every byte that is not part of a valid encoding becomes U+FFFD; the first
argument counts the bytes left of the current rune. -/
def coerceFrom : ℕ → GoString → GoString
  | _, [] => []
  | left + 1, b :: s => b :: coerceFrom left s
  | 0, b :: s =>
      match runeLen (b :: s) with
      | 0 => 0xEF :: 0xBF :: 0xBD :: coerceFrom 0 s
      | n + 1 => b :: coerceFrom n s

def coerceUTF8 (s : GoString) : GoString := coerceFrom 0 s

/-- `utf8.ValidString`: nothing has to be replaced. -/
def validUTF8 (s : GoString) : Bool := coerceUTF8 s == s

/-- `utf8.EncodeRune` for a code point. -/
def encodeRune (r : ℕ) : GoString :=
  let cont := fun n : ℕ => UInt8.ofNat (0x80 + n % 64)
  if r < 0x80 then [UInt8.ofNat r]
  else if r < 0x800 then [UInt8.ofNat (0xC0 + r / 64), cont r]
  else if r < 0x10000 then [UInt8.ofNat (0xE0 + r / 4096), cont (r / 64), cont r]
  else [UInt8.ofNat (0xF0 + r / 262144), cont (r / 4096), cont (r / 64), cont r]

/-! ### Strings -/

def hexDigit (n : ℕ) : UInt8 := if n < 10 then UInt8.ofNat (48 + n) else UInt8.ofNat (87 + n)

/-- How the writer escapes a byte. -/
def escapeByte (b : UInt8) : GoString :=
  if b = 34 ∨ b = 92 then [92, b]
  else if b = 8 then [92, 98]
  else if b = 12 then [92, 102]
  else if b = 10 then [92, 110]
  else if b = 13 then [92, 114]
  else if b = 9 then [92, 116]
  else if b < 32 ∨ b = 60 ∨ b = 62 ∨ b = 38 then
    [92, 117, 48, 48, hexDigit (b.toNat / 16), hexDigit (b.toNat % 16)]
  else [b]

/-- How the writer escapes a rune: the line and paragraph separators are
written as escapes too. -/
def escapeRune (rune : GoString) : GoString :=
  if rune = [0xE2, 0x80, 0xA8] then bytes "\\u2028"
  else if rune = [0xE2, 0x80, 0xA9] then bytes "\\u2029"
  else rune.flatMap escapeByte

/-- The writer on the contents of a string; the first argument counts the bytes
of the current rune that are written already. -/
def escapeFrom : ℕ → GoString → GoString
  | _, [] => []
  | written + 1, _ :: s => escapeFrom written s
  | 0, b :: s =>
      match runeLen (b :: s) with
      | 0 => bytes "\\ufffd" ++ escapeFrom 0 s
      | n + 1 => escapeRune ((b :: s).take (n + 1)) ++ escapeFrom n s

def escape (s : GoString) : GoString := escapeFrom 0 s

/-- The four hexadecimal digits at the head of a text. -/
def hex4 : GoString → Option ℕ
  | a :: b :: c :: d :: _ => do
      let a ← hexValue a
      let b ← hexValue b
      let c ← hexValue c
      let d ← hexValue d
      return ((a * 16 + b) * 16 + c) * 16 + d
  | _ => none

/-- The rune of a `\u` escape whose digits are at the head of a text, and the
number of bytes it takes from there. Only a surrogate pair takes more than its
four digits; half a pair stands for U+FFFD. -/
def unicodeEscape (s : GoString) : Option (ℕ × ℕ) := do
  let r ← hex4 s
  if 0xD800 ≤ r ∧ r < 0xE000 then
    let low := if (s.drop 4).take 2 = [92, 117] then hex4 (s.drop 6) else none
    match low with
    | some r' =>
        if r < 0xDC00 ∧ 0xDC00 ≤ r' ∧ r' < 0xE000 then
          return (0x10000 + (r - 0xD800) * 1024 + (r' - 0xDC00), 10)
        else return (0xFFFD, 4)
    | none => return (0xFFFD, 4)
  else return (r, 4)

/-- The byte of an escape other than `\u`. -/
def simpleEscape (c : UInt8) : Option UInt8 :=
  if c = 34 ∨ c = 92 ∨ c = 47 then some c
  else if c = 98 then some 8
  else if c = 102 then some 12
  else if c = 110 then some 10
  else if c = 114 then some 13
  else if c = 116 then some 9
  else none

/-- The escapes of a string resolved; the first argument counts the bytes of
the current escape that are still to be passed. -/
def unescapeFrom : ℕ → GoString → Option GoString
  | _, [] => some []
  | skip + 1, _ :: s => unescapeFrom skip s
  | 0, b :: s =>
      if b ≠ 92 then (unescapeFrom 0 s).map (b :: ·)
      else match s with
        | [] => none
        | c :: s' =>
            if c = 117 then
              match unicodeEscape s' with
              | none => none
              | some (r, n) => (unescapeFrom (n + 1) s).map (encodeRune r ++ ·)
            else
              match simpleEscape c with
              | none => none
              | some x => (unescapeFrom 1 s).map (x :: ·)

/-- The reader on the contents of a string. -/
def unquote (raw : GoString) : Option GoString := (unescapeFrom 0 raw).map coerceUTF8

/-- The contents of a string up to the closing quote, which is passed. The
first argument tells whether the next byte is behind a backslash. -/
def lexString : Bool → GoString → Option (GoString × GoString)
  | _, [] => none
  | true, b :: s => (lexString false s).map fun rs => (b :: rs.1, rs.2)
  | false, b :: s =>
      if b = 34 then some ([], s)
      else if b < 32 then none
      else (lexString (b == 92) s).map fun rs => (b :: rs.1, rs.2)

/-! ### Texts -/

section

variable {γ : Type*} (punct key leaf : GoString → List γ)

mutual

/-- The text of a value, put together from its punctuation and literals, its
keys and its string leaves. -/
def write : Json → List γ
  | null => punct (bytes "null")
  | bool true => punct (bytes "true")
  | bool false => punct (bytes "false")
  | num lit => punct lit
  | str s => punct [34] ++ leaf s ++ punct [34]
  | arr [] => punct [91, 93]
  | arr (v :: vs) => punct [91] ++ write v ++ writeElems vs ++ punct [93]
  | obj [] => punct [123, 125]
  | obj ((k, v) :: ms) =>
      punct [123, 34] ++ key k ++ punct [34, 58] ++ write v ++ writeMembers ms ++ punct [125]

def writeElems : List Json → List γ
  | [] => []
  | v :: vs => punct [44] ++ write v ++ writeElems vs

def writeMembers : List (GoString × Json) → List γ
  | [] => []
  | (k, v) :: ms => punct [44, 34] ++ key k ++ punct [34, 58] ++ write v ++ writeMembers ms

end

end

/-- `json.Marshal`. -/
def marshal (v : Json) : GoString := write id escape escape v

mutual

/-- A value with its keys and its string leaves changed. -/
def mapStrings (f g : GoString → GoString) : Json → Json
  | null => null
  | bool b => bool b
  | num lit => num lit
  | str s => str (g s)
  | arr vs => arr (mapElems f g vs)
  | obj ms => obj (mapMembers f g ms)

def mapElems (f g : GoString → GoString) : List Json → List Json
  | [] => []
  | v :: vs => mapStrings f g v :: mapElems f g vs

def mapMembers (f g : GoString → GoString) : List (GoString × Json) → List (GoString × Json)
  | [] => []
  | (k, v) :: ms => (f k, mapStrings f g v) :: mapMembers f g ms

end

mutual

/-- The string leaves of a value, in the order of its text. -/
def leaves : Json → List GoString
  | str s => [s]
  | arr vs => leavesElems vs
  | obj ms => leavesMembers ms
  | _ => []

def leavesElems : List Json → List GoString
  | [] => []
  | v :: vs => leaves v ++ leavesElems vs

def leavesMembers : List (GoString × Json) → List GoString
  | [] => []
  | (_, v) :: ms => leaves v ++ leavesMembers ms

end

mutual

def keys : Json → List GoString
  | arr vs => keysElems vs
  | obj ms => keysMembers ms
  | _ => []

def keysElems : List Json → List GoString
  | [] => []
  | v :: vs => keys v ++ keysElems vs

def keysMembers : List (GoString × Json) → List GoString
  | [] => []
  | (k, v) :: ms => k :: (keys v ++ keysMembers ms)

end

mutual

/-- The number literals of a value. -/
def numbers : Json → List GoString
  | num lit => [lit]
  | arr vs => numbersElems vs
  | obj ms => numbersMembers ms
  | _ => []

def numbersElems : List Json → List GoString
  | [] => []
  | v :: vs => numbers v ++ numbersElems vs

def numbersMembers : List (GoString × Json) → List GoString
  | [] => []
  | (_, v) :: ms => numbers v ++ numbersMembers ms

end

/-! ### Reading -/

def isSpace (b : UInt8) : Bool := b == 32 || b == 9 || b == 10 || b == 13

def skipSpace (s : GoString) : GoString := s.dropWhile isSpace

def isDigit (b : UInt8) : Bool := 48 ≤ b && b ≤ 57

/-- At least one digit. -/
def lexDigits (s : GoString) : Option (GoString × GoString) :=
  if s.takeWhile isDigit = [] then none else some (s.takeWhile isDigit, s.dropWhile isDigit)

/-- A zero, or digits that do not start with one. -/
def lexInt : GoString → Option (GoString × GoString)
  | [] => none
  | b :: s => if b = 48 then some ([b], s) else lexDigits (b :: s)

def lexFrac : GoString → Option (GoString × GoString)
  | [] => some ([], [])
  | b :: s => if b = 46 then (lexDigits s).map fun ds => (b :: ds.1, ds.2) else some ([], b :: s)

def lexSign : GoString → GoString × GoString
  | [] => ([], [])
  | b :: s => if b = 43 ∨ b = 45 then ([b], s) else ([], b :: s)

def lexExp : GoString → Option (GoString × GoString)
  | [] => some ([], [])
  | b :: s =>
      if b = 101 ∨ b = 69 then
        (lexDigits (lexSign s).2).map fun ds => (b :: ((lexSign s).1 ++ ds.1), ds.2)
      else some ([], b :: s)

def lexMinus : GoString → GoString × GoString
  | [] => ([], [])
  | b :: s => if b = 45 then ([b], s) else ([], b :: s)

/-- A number literal. -/
def lexNumber (s : GoString) : Option (GoString × GoString) := do
  let (minus, s) := lexMinus s
  let (int, s) ← lexInt s
  let (frac, s) ← lexFrac s
  let (exp, s) ← lexExp s
  return (minus ++ int ++ frac ++ exp, s)

mutual

/-- A value with its strings in escaped form, and the text behind it. -/
def parseValue : ℕ → GoString → Option (Json × GoString)
  | 0, _ => none
  | n + 1, s =>
      match skipSpace s with
      | [] => none
      | b :: s =>
          if b = 34 then (lexString false s).map fun rs => (str rs.1, rs.2)
          else if b = 91 then
            match skipSpace s with
            | [] => none
            | c :: s' =>
                if c = 93 then some (arr [], s')
                else (parseElems n s).map fun vs => (arr vs.1, vs.2)
          else if b = 123 then
            match skipSpace s with
            | [] => none
            | c :: s' =>
                if c = 125 then some (obj [], s')
                else (parseMembers n s).map fun ms => (obj ms.1, ms.2)
          else if (bytes "null").isPrefixOf (b :: s) then some (null, s.drop 3)
          else if (bytes "true").isPrefixOf (b :: s) then some (bool true, s.drop 3)
          else if (bytes "false").isPrefixOf (b :: s) then some (bool false, s.drop 4)
          else (lexNumber (b :: s)).map fun ls => (num ls.1, ls.2)

/-- The elements of a non-empty array up to its closing bracket. -/
def parseElems : ℕ → GoString → Option (List Json × GoString)
  | 0, _ => none
  | n + 1, s =>
      match parseValue n s with
      | none => none
      | some (v, s) =>
          match skipSpace s with
          | [] => none
          | b :: s =>
              if b = 93 then some ([v], s)
              else if b = 44 then (parseElems n s).map fun vs => (v :: vs.1, vs.2)
              else none

/-- The members of a non-empty object up to its closing brace. -/
def parseMembers : ℕ → GoString → Option (List (GoString × Json) × GoString)
  | 0, _ => none
  | n + 1, s =>
      match skipSpace s with
      | [] => none
      | q :: s =>
          if q ≠ 34 then none
          else match lexString false s with
            | none => none
            | some (k, s) =>
                match skipSpace s with
                | [] => none
                | b :: s =>
                    if b ≠ 58 then none
                    else match parseValue n s with
                      | none => none
                      | some (v, s) =>
                          match skipSpace s with
                          | [] => none
                          | b :: s =>
                              if b = 125 then some ([(k, v)], s)
                              else if b = 44 then
                                (parseMembers n s).map fun ms => ((k, v) :: ms.1, ms.2)
                              else none

end

/-- A whole text as one value; only space may follow. -/
def parse (s : GoString) : Option Json :=
  match parseValue s.length s with
  | some (v, rest) => if skipSpace rest = [] then some v else none
  | none => none

mutual

/-- The strings of a value in escaped form, resolved. -/
def decode : Json → Option Json
  | null => some null
  | bool b => some (bool b)
  | num lit => some (num lit)
  | str raw => (unquote raw).map str
  | arr vs => (decodeElems vs).map arr
  | obj ms => (decodeMembers ms).map obj

def decodeElems : List Json → Option (List Json)
  | [] => some []
  | v :: vs => do
      let v ← decode v
      let vs ← decodeElems vs
      return v :: vs

def decodeMembers : List (GoString × Json) → Option (List (GoString × Json))
  | [] => some []
  | (k, v) :: ms => do
      let k ← unquote k
      let v ← decode v
      let ms ← decodeMembers ms
      return (k, v) :: ms

end

/-- `json.Unmarshal`. -/
def unmarshal (s : GoString) : Option Json := (parse s).bind decode

/-! ### Valid text -/

theorem isTail_ascii {c : UInt8} (h : c < 0x80) : isTail c = false := by
  simp [isTail, UInt8.not_le.mpr h]

theorem runeLen_le_length (s : GoString) : runeLen s ≤ s.length := by
  unfold runeLen
  split
  · simp
  · split
    · simp
    · split
      · simp
      · split
        · split
          · simp
          · split
            · simp
            · split
              · split
                · simp
                · split
                  · simp
                  · split <;> simp
              · simp
        · simp

/-- A complete rune is recognised whatever follows it. -/
theorem runeLen_append {x : GoString} (h : runeLen x ≠ 0) (y : GoString) :
    runeLen (x ++ y) = runeLen x := by
  match x with
  | [] => simp [runeLen] at h
  | [b] =>
      by_cases hb : b < 0x80
      · simp [runeLen, hb]
      · simp [runeLen, hb] at h
  | [b, c] =>
      simp only [runeLen] at h ⊢
      grind [runeLen]
  | [b, c, d] =>
      simp only [runeLen] at h ⊢
      grind [runeLen]
  | b :: c :: d :: e :: x => simp [runeLen]

/-- `w` is text that may stand between quotes and reads as `x`, whatever
follows it there. -/
structure Spells (w x : GoString) : Prop where
  lex : ∀ rest, lexString false (w ++ rest) =
    (lexString false rest).map fun rs => (w ++ rs.1, rs.2)
  unescape : ∀ rest, unescapeFrom 0 (w ++ rest) = (unescapeFrom 0 rest).map (x ++ ·)

theorem Spells.nil : Spells [] [] := ⟨by simp, by simp⟩

theorem Spells.append {w w' x x' : GoString} (h : Spells w x) (h' : Spells w' x') :
    Spells (w ++ w') (x ++ x') where
  lex rest := by
    rw [List.append_assoc, h.lex, h'.lex, Option.map_map]
    simp [Function.comp_def]
  unescape rest := by
    rw [List.append_assoc, h.unescape, h'.unescape, Option.map_map]
    simp [Function.comp_def]

theorem Spells.flatMap {α : Type*} {l : List α} {f g : α → GoString}
    (h : ∀ a ∈ l, Spells (f a) (g a)) : Spells (l.flatMap f) (l.flatMap g) := by
  induction l with
  | nil => exact Spells.nil
  | cons a l ih => simpa using (h a (by simp)).append (ih fun b hb => h b (by simp [hb]))

theorem Spells.lexString {w x : GoString} (h : Spells w x) (rest : GoString) :
    Json.lexString false (w ++ 34 :: rest) = some (w, rest) := by
  rw [h.lex]
  simp [Json.lexString]

theorem Spells.unquote {w x : GoString} (h : Spells w x) :
    Json.unquote w = some (coerceUTF8 x) := by
  have hw := h.unescape []
  rw [List.append_nil] at hw
  simp [Json.unquote, hw, unescapeFrom]

/-- A byte that stands for itself between quotes. -/
def isPlain (b : UInt8) : Bool := 32 ≤ b && b != 34 && b != 92

theorem spells_plain {b : UInt8} (h : isPlain b = true) : Spells [b] [b] := by
  simp only [isPlain, Bool.and_eq_true, decide_eq_true_eq, bne_iff_ne] at h
  obtain ⟨⟨hctl, hquote⟩, hslash⟩ := h
  have hctl' : ¬b < 32 := UInt8.not_lt.mpr hctl
  have hslash' : (b == 92) = false := by simpa using hslash
  exact ⟨fun rest => by simp [Json.lexString, hquote, hctl', hslash'],
    fun rest => by simp [unescapeFrom, hslash]⟩

theorem spells_of_plain {w : GoString} (h : ∀ b ∈ w, isPlain b = true) : Spells w w := by
  simpa using Spells.flatMap (f := fun b => [b]) (g := fun b => [b])
    fun b hb => spells_plain (h b hb)

theorem lexString_backslash (c : UInt8) (s : GoString) :
    lexString false (92 :: c :: s) =
      (lexString false s).map fun rs => (92 :: c :: rs.1, rs.2) := by
  simp [lexString, Function.comp_def]

theorem spells_simple {c x : UInt8} (hc : c ≠ 117) (h : simpleEscape c = some x) :
    Spells [92, c] [x] where
  lex rest := by simpa using lexString_backslash c rest
  unescape rest := by simp [unescapeFrom, hc, h]

/-- An escape with four digits. -/
theorem spells_unicode {a b c d : UInt8} {r : ℕ}
    (hplain : ∀ x ∈ [a, b, c, d], isPlain x = true) (h : hex4 [a, b, c, d] = some r)
    (hr : ¬(0xD800 ≤ r ∧ r < 0xE000)) :
    Spells [92, 117, a, b, c, d] (encodeRune r) where
  lex rest := by
    have hdigits := (spells_of_plain hplain).lex rest
    rw [show [92, 117, a, b, c, d] ++ rest = 92 :: 117 :: ([a, b, c, d] ++ rest) from rfl,
      lexString_backslash, hdigits, Option.map_map]
    simp [Function.comp_def]
  unescape rest := by
    have hhex : hex4 (a :: b :: c :: d :: rest) = some r := h
    have hesc : unicodeEscape (a :: b :: c :: d :: rest) = some (r, 4) := by
      simp [unicodeEscape, hhex, hr]
    simp [unescapeFrom, hesc]

theorem hexValue_hexDigit {n : ℕ} (h : n < 16) : hexValue (hexDigit n) = some n := by
  interval_cases n <;> decide

theorem isPlain_hexDigit {n : ℕ} (h : n < 16) : isPlain (hexDigit n) = true := by
  interval_cases n <;> decide

theorem coerceFrom_eq_take (n : ℕ) (s : GoString) :
    coerceFrom n s = s.take n ++ coerceFrom 0 (s.drop n) := by
  induction s generalizing n with
  | nil => simp [coerceFrom]
  | cons b s ih =>
      cases n with
      | zero => rfl
      | succ n => simpa [coerceFrom] using ih n

section

variable {γ δ : Type*}

mutual

/-- Writing in pieces and replacing the pieces afterwards. -/
theorem write_flatMap (p k l : GoString → List γ) (g : γ → List δ) :
    ∀ t, (write p k l t).flatMap g = write (fun s => (p s).flatMap g) (fun s => (k s).flatMap g)
      (fun s => (l s).flatMap g) t
  | null => rfl
  | bool true => rfl
  | bool false => rfl
  | num lit => rfl
  | str s => by simp [write]
  | arr [] => rfl
  | arr (v :: vs) => by simp [write, write_flatMap p k l g v, writeElems_flatMap p k l g vs]
  | obj [] => rfl
  | obj ((key, v) :: ms) => by
      simp [write, write_flatMap p k l g v, writeMembers_flatMap p k l g ms]

theorem writeElems_flatMap (p k l : GoString → List γ) (g : γ → List δ) :
    ∀ vs, (writeElems p k l vs).flatMap g = writeElems (fun s => (p s).flatMap g)
      (fun s => (k s).flatMap g) (fun s => (l s).flatMap g) vs
  | [] => rfl
  | v :: vs => by simp [writeElems, write_flatMap p k l g v, writeElems_flatMap p k l g vs]

theorem writeMembers_flatMap (p k l : GoString → List γ) (g : γ → List δ) :
    ∀ ms, (writeMembers p k l ms).flatMap g = writeMembers (fun s => (p s).flatMap g)
      (fun s => (k s).flatMap g) (fun s => (l s).flatMap g) ms
  | [] => rfl
  | (key, v) :: ms => by
      simp [writeMembers, write_flatMap p k l g v, writeMembers_flatMap p k l g ms]

end

mutual

theorem write_mapStrings (p k l : GoString → List γ) (f g : GoString → GoString) :
    ∀ t, write p k l (mapStrings f g t) = write p (fun s => k (f s)) (fun s => l (g s)) t
  | null => rfl
  | bool true => rfl
  | bool false => rfl
  | num lit => rfl
  | str s => rfl
  | arr [] => rfl
  | arr (v :: vs) => by
      simp [mapStrings, mapElems, write, write_mapStrings p k l f g v,
        writeElems_mapElems p k l f g vs]
  | obj [] => rfl
  | obj ((key, v) :: ms) => by
      simp [mapStrings, mapMembers, write, write_mapStrings p k l f g v,
        writeMembers_mapMembers p k l f g ms]

theorem writeElems_mapElems (p k l : GoString → List γ) (f g : GoString → GoString) :
    ∀ vs, writeElems p k l (mapElems f g vs) =
      writeElems p (fun s => k (f s)) (fun s => l (g s)) vs
  | [] => rfl
  | v :: vs => by
      simp [mapElems, writeElems, write_mapStrings p k l f g v, writeElems_mapElems p k l f g vs]

theorem writeMembers_mapMembers (p k l : GoString → List γ) (f g : GoString → GoString) :
    ∀ ms, writeMembers p k l (mapMembers f g ms) =
      writeMembers p (fun s => k (f s)) (fun s => l (g s)) ms
  | [] => rfl
  | (key, v) :: ms => by
      simp [mapMembers, writeMembers, write_mapStrings p k l f g v,
        writeMembers_mapMembers p k l f g ms]

end

end

mutual

/-- The strings of a value are decoded one by one. -/
theorem decode_mapStrings (f g h : GoString → GoString) :
    ∀ t, (∀ k ∈ keys t, unquote (f k) = some k) → (∀ s ∈ leaves t, unquote (g s) = some (h s)) →
      decode (mapStrings f g t) = some (mapStrings id h t)
  | null, _, _ => rfl
  | bool b, _, _ => rfl
  | num lit, _, _ => rfl
  | str s, _, hl => by simp [mapStrings, decode, hl s (by simp [leaves])]
  | arr vs, hk, hl => by simp [mapStrings, decode, decodeElems_mapElems f g h vs hk hl]
  | obj ms, hk, hl => by simp [mapStrings, decode, decodeMembers_mapMembers f g h ms hk hl]

theorem decodeElems_mapElems (f g h : GoString → GoString) :
    ∀ vs, (∀ k ∈ keysElems vs, unquote (f k) = some k) →
      (∀ s ∈ leavesElems vs, unquote (g s) = some (h s)) →
      decodeElems (mapElems f g vs) = some (mapElems id h vs)
  | [], _, _ => rfl
  | v :: vs, hk, hl => by
      have hv := decode_mapStrings f g h v (fun k hkv => hk k (by simp [keysElems, hkv]))
        fun s hs => hl s (by simp [leavesElems, hs])
      have hvs := decodeElems_mapElems f g h vs (fun k hkv => hk k (by simp [keysElems, hkv]))
        fun s hs => hl s (by simp [leavesElems, hs])
      simp [mapElems, decodeElems, hv, hvs]

theorem decodeMembers_mapMembers (f g h : GoString → GoString) :
    ∀ ms, (∀ k ∈ keysMembers ms, unquote (f k) = some k) →
      (∀ s ∈ leavesMembers ms, unquote (g s) = some (h s)) →
      decodeMembers (mapMembers f g ms) = some (mapMembers id h ms)
  | [], _, _ => rfl
  | (key, v) :: ms, hk, hl => by
      have hkey := hk key (by simp [keysMembers])
      have hv := decode_mapStrings f g h v (fun k hkv => hk k (by simp [keysMembers, hkv]))
        fun s hs => hl s (by simp [leavesMembers, hs])
      have hms := decodeMembers_mapMembers f g h ms (fun k hkv => hk k (by simp [keysMembers, hkv]))
        fun s hs => hl s (by simp [leavesMembers, hs])
      simp [mapMembers, decodeMembers, hkey, hv, hms]

end

/-- No number goes on with this text. -/
def Stops (rest : GoString) : Prop :=
  ∀ b ∈ rest.head?, isDigit b = false ∧ b ≠ 46 ∧ b ≠ 101 ∧ b ≠ 69

theorem takeWhile_append_of_head {α : Type*} {p : α → Bool} {s rest : List α}
    (h : ∀ b ∈ rest.head?, p b = false) :
    (s ++ rest).takeWhile p = s.takeWhile p ∧
      (s ++ rest).dropWhile p = s.dropWhile p ++ rest := by
  induction s with
  | nil =>
      cases rest with
      | nil => simp
      | cons b rest => simp [h b (by simp)]
  | cons c s ih =>
      by_cases hc : p c = true
      · simp [hc, ih]
      · simp [hc]

section

variable {s t rest lit : GoString}

theorem lexDigits_append (h : Stops rest) (hs : lexDigits s = some (lit, t)) :
    lexDigits (s ++ rest) = some (lit, t ++ rest) := by
  obtain ⟨htake, hdrop⟩ := takeWhile_append_of_head (s := s) fun b hb => (h b hb).1
  unfold lexDigits at hs ⊢
  rw [htake, hdrop]
  split at hs
  · simp at hs
  · rename_i hne
    obtain ⟨rfl, rfl⟩ : s.takeWhile isDigit = lit ∧ s.dropWhile isDigit = t := by simpa using hs
    rw [if_neg hne]

theorem lexInt_append (h : Stops rest) (hs : lexInt s = some (lit, t)) :
    lexInt (s ++ rest) = some (lit, t ++ rest) := by
  cases s with
  | nil => simp [lexInt] at hs
  | cons b s =>
      rw [lexInt] at hs
      rw [List.cons_append, lexInt]
      split
      · rename_i hb
        obtain ⟨rfl, rfl⟩ : [b] = lit ∧ s = t := by simpa [hb] using hs
        rfl
      · rename_i hb
        rw [if_neg hb] at hs
        exact lexDigits_append h hs

theorem lexFrac_append (h : Stops rest) (hs : lexFrac s = some (lit, t)) :
    lexFrac (s ++ rest) = some (lit, t ++ rest) := by
  cases s with
  | nil =>
      obtain ⟨rfl, rfl⟩ : [] = lit ∧ [] = t := by simpa [lexFrac] using hs
      cases rest with
      | nil => rfl
      | cons b rest => simp [lexFrac, (h b (by simp)).2.1]
  | cons b s =>
      rw [lexFrac] at hs
      rw [List.cons_append, lexFrac]
      split
      · rename_i hb
        rw [if_pos hb] at hs
        obtain ⟨⟨ds, s'⟩, hd, heq⟩ := Option.map_eq_some_iff.mp hs
        obtain ⟨rfl, rfl⟩ : b :: ds = lit ∧ s' = t := by simpa using heq
        rw [lexDigits_append h hd]
        rfl
      · rename_i hb
        obtain ⟨rfl, rfl⟩ : [] = lit ∧ b :: s = t := by simpa [hb] using hs
        rfl

theorem lexExp_append (h : Stops rest) (hs : lexExp s = some (lit, t)) :
    lexExp (s ++ rest) = some (lit, t ++ rest) := by
  cases s with
  | nil =>
      obtain ⟨rfl, rfl⟩ : [] = lit ∧ [] = t := by simpa [lexExp] using hs
      cases rest with
      | nil => rfl
      | cons b rest => simp [lexExp, (h b (by simp)).2.2]
  | cons b s =>
      rw [lexExp] at hs
      rw [List.cons_append, lexExp]
      split
      · rename_i hb
        rw [if_pos hb] at hs
        obtain ⟨⟨ds, s'⟩, hd, heq⟩ := Option.map_eq_some_iff.mp hs
        obtain ⟨rfl, rfl⟩ : b :: ((lexSign s).1 ++ ds) = lit ∧ s' = t := by simpa using heq
        have hsign : lexSign (s ++ rest) = ((lexSign s).1, (lexSign s).2 ++ rest) := by
          cases s with
          | nil => simp [lexSign, lexDigits] at hd
          | cons c s =>
              simp only [lexSign, List.cons_append]
              split <;> rfl
        rw [hsign]
        dsimp only
        rw [lexDigits_append h hd]
        rfl
      · rename_i hb
        obtain ⟨rfl, rfl⟩ : [] = lit ∧ b :: s = t := by simpa [hb] using hs
        rfl

/-- The literals of the number grammar. -/
def isNumber (lit : GoString) : Bool := lexNumber lit == some (lit, [])

/-- A number ends where its text stops. -/
theorem lexNumber_append (hlit : isNumber lit = true) (h : Stops rest) :
    lexNumber (lit ++ rest) = some (lit, rest) := by
  simp only [isNumber, beq_iff_eq, lexNumber, Option.bind_eq_bind, Option.bind_eq_some_iff] at hlit
  obtain ⟨⟨int, s₁⟩, hint, ⟨frac, s₂⟩, hfrac, ⟨exp, s₃⟩, hexp, hparts⟩ := hlit
  obtain ⟨heq, rfl⟩ : (lexMinus lit).1 ++ int ++ frac ++ exp = lit ∧ s₃ = [] := by
    simpa using hparts
  have hminus : lexMinus (lit ++ rest) = ((lexMinus lit).1, (lexMinus lit).2 ++ rest) := by
    cases lit with
    | nil => simp [lexMinus, lexInt] at hint
    | cons b lit =>
        simp only [lexMinus, List.cons_append]
        split <;> rfl
  unfold lexNumber
  simp only [hminus, lexInt_append h hint, lexFrac_append h hfrac, lexExp_append h hexp,
    Option.bind_eq_bind, Option.bind_some, Option.pure_def, heq, List.nil_append]

theorem isNumber_head (hlit : isNumber lit = true) :
    ∃ b s, lit = b :: s ∧ (b = 45 ∨ isDigit b = true) := by
  simp only [isNumber, beq_iff_eq, lexNumber, Option.bind_eq_bind, Option.bind_eq_some_iff] at hlit
  obtain ⟨⟨int, s₁⟩, hint, -⟩ := hlit
  cases lit with
  | nil => simp [lexMinus, lexInt] at hint
  | cons b s =>
      refine ⟨b, s, rfl, ?_⟩
      by_cases hb : b = 45
      · exact Or.inl hb
      · refine Or.inr ?_
        simp only [lexMinus, hb, if_false, lexInt] at hint
        split at hint
        · rename_i h48
          subst h48
          decide
        · unfold lexDigits at hint
          by_contra hd
          simp [hd] at hint

end

/-- A string in escaped form is read up to its closing quote. -/
def Lexable (raw : GoString) : Prop :=
  ∀ rest, lexString false (raw ++ 34 :: rest) = some (raw, rest)

theorem skipSpace_cons {b : UInt8} {s : GoString} (h : isSpace b = false) :
    skipSpace (b :: s) = b :: s := by
  simp [skipSpace, h]

theorem stops_of_head {b : UInt8} {s : GoString} (h : b = 44 ∨ b = 93 ∨ b = 125) :
    Stops (b :: s) := by
  intro c hc
  obtain rfl : b = c := by simpa using hc
  rcases h with rfl | rfl | rfl <;> decide

theorem number_head_ne {b : UInt8} (h : b = 45 ∨ isDigit b = true) :
    isSpace b = false ∧ b ≠ 34 ∧ b ≠ 91 ∧ b ≠ 123 ∧ b ≠ 110 ∧ b ≠ 116 ∧ b ≠ 102 := by
  have hne : ∀ c : UInt8, c ≠ 45 → isDigit c = false → b ≠ c := by
    rintro c hc hd rfl
    simp [hc, hd] at h
  refine ⟨?_, hne _ (by decide) (by decide), hne _ (by decide) (by decide),
    hne _ (by decide) (by decide), hne _ (by decide) (by decide), hne _ (by decide) (by decide),
    hne _ (by decide) (by decide)⟩
  simp [isSpace, hne 32 (by decide) (by decide), hne 9 (by decide) (by decide),
    hne 10 (by decide) (by decide), hne 13 (by decide) (by decide)]

/-- The text of a value in escaped form. -/
def writeRaw (t : Json) : GoString := write id id id t

theorem writeRaw_ne_nil (t : Json) (hn : ∀ lit ∈ numbers t, isNumber lit = true) :
    ∃ b s, writeRaw t = b :: s ∧ isSpace b = false ∧ b ≠ 93 ∧ b ≠ 125 := by
  match t with
  | null => exact ⟨110, _, rfl, by decide⟩
  | bool true => exact ⟨116, _, rfl, by decide⟩
  | bool false => exact ⟨102, _, rfl, by decide⟩
  | num lit =>
      obtain ⟨b, s, rfl, hb⟩ := isNumber_head (hn lit (by simp [numbers]))
      refine ⟨b, s, rfl, (number_head_ne hb).1, ?_, ?_⟩ <;> rintro rfl <;> simp [isDigit] at hb
  | str s => exact ⟨34, _, rfl, by decide⟩
  | arr [] => exact ⟨91, _, rfl, by decide⟩
  | arr (v :: vs) => exact ⟨91, write id id id v ++ (writeElems id id id vs ++ [93]),
      by simp [writeRaw, write], by decide⟩
  | obj [] => exact ⟨123, _, rfl, by decide⟩
  | obj ((k, v) :: ms) => exact ⟨123, 34 :: (k ++ 34 :: 58 :: (write id id id v ++
      (writeMembers id id id ms ++ [125]))), by simp [writeRaw, write], by decide⟩

mutual

/-- A value is read back from its text when enough steps are allowed. -/
theorem parseValue_writeRaw : ∀ (n : ℕ) (t : Json) (rest : GoString),
    (∀ raw ∈ keys t, Lexable raw) → (∀ raw ∈ leaves t, Lexable raw) →
    (∀ lit ∈ numbers t, isNumber lit = true) → (writeRaw t).length ≤ n → Stops rest →
    parseValue n (writeRaw t ++ rest) = some (t, rest)
  | 0, t, rest, _, _, hnum, hn, _ => by
      obtain ⟨b, s, hbs, -⟩ := writeRaw_ne_nil t hnum
      simp [hbs] at hn
  | n + 1, null, rest, _, _, _, _, _ => rfl
  | n + 1, bool true, rest, _, _, _, _, _ => rfl
  | n + 1, bool false, rest, _, _, _, _, _ => rfl
  | n + 1, num lit, rest, _, _, hnum, _, hstop => by
      have hlit := hnum lit (by simp [numbers])
      have hlex := lexNumber_append hlit hstop
      obtain ⟨b, s, rfl, hb⟩ := isNumber_head hlit
      obtain ⟨hspace, h34, h91, h123, hn, ht, hf⟩ := number_head_ne hb
      have hnull : (bytes "null").isPrefixOf (b :: (s ++ rest)) = false := by
        rw [show bytes "null" = 110 :: [117, 108, 108] by decide]
        simp [List.isPrefixOf, hn.symm]
      have htrue : (bytes "true").isPrefixOf (b :: (s ++ rest)) = false := by
        rw [show bytes "true" = 116 :: [114, 117, 101] by decide]
        simp [List.isPrefixOf, ht.symm]
      have hfalse : (bytes "false").isPrefixOf (b :: (s ++ rest)) = false := by
        rw [show bytes "false" = 102 :: [97, 108, 115, 101] by decide]
        simp [List.isPrefixOf, hf.symm]
      rw [List.cons_append] at hlex
      simp only [writeRaw, write, id_eq, List.cons_append, parseValue, skipSpace_cons hspace, h34,
        h91, h123, if_false, hnull, htrue, hfalse, Bool.false_eq_true, hlex, Option.map_some]
  | n + 1, str s, rest, _, hl, _, _, _ => by
      have hs := hl s (by simp [leaves]) rest
      simp only [writeRaw, write, id_eq, List.cons_append, List.nil_append, List.append_assoc,
        parseValue, skipSpace_cons (show isSpace 34 = false by decide), if_true, hs,
        Option.map_some]
  | n + 1, arr [], rest, _, _, _, _, _ => rfl
  | n + 1, arr (v :: vs), rest, hk, hl, hnum, hn, _ => by
      have hv : ∀ lit ∈ numbers v, isNumber lit = true := fun lit h =>
        hnum lit (by simp [numbers, numbersElems, h])
      have htext : writeRaw (arr (v :: vs)) ++ rest =
          91 :: (writeRaw v ++ (writeElems id id id vs ++ 93 :: rest)) := by
        simp [writeRaw, write]
      have helems := parseElems_writeElems n v vs rest (by simpa [keys] using hk)
        (by simpa [leaves] using hl) (by simpa [numbers] using hnum) (by
          simp [writeRaw, write] at hn ⊢
          omega)
      obtain ⟨b, s, hbs, hspace, h93, -⟩ := writeRaw_ne_nil v hv
      rw [htext, parseValue, skipSpace_cons (show isSpace 91 = false by decide)]
      rw [hbs, List.cons_append] at helems ⊢
      simp [skipSpace_cons hspace, h93, helems]
  | n + 1, obj [], rest, _, _, _, _, _ => rfl
  | n + 1, obj ((k, v) :: ms), rest, hk, hl, hnum, hn, _ => by
      have htext : writeRaw (obj ((k, v) :: ms)) ++ rest = 123 :: 34 :: (k ++ 34 :: 58 ::
          (writeRaw v ++ (writeMembers id id id ms ++ 125 :: rest))) := by
        simp [writeRaw, write]
      have hmembers := parseMembers_writeMembers n k v ms rest (by simpa [keys] using hk)
        (by simpa [leaves] using hl) (by simpa [numbers] using hnum) (by
          simp [writeRaw, write] at hn ⊢
          omega)
      rw [htext, parseValue, skipSpace_cons (show isSpace 123 = false by decide)]
      simp [skipSpace_cons (show isSpace 34 = false by decide), hmembers]

theorem parseElems_writeElems : ∀ (n : ℕ) (v : Json) (vs : List Json) (rest : GoString),
    (∀ raw ∈ keysElems (v :: vs), Lexable raw) → (∀ raw ∈ leavesElems (v :: vs), Lexable raw) →
    (∀ lit ∈ numbersElems (v :: vs), isNumber lit = true) →
    (writeRaw v ++ writeElems id id id vs).length + 1 ≤ n →
    parseElems n (writeRaw v ++ (writeElems id id id vs ++ 93 :: rest)) = some (v :: vs, rest)
  | 0, v, vs, rest, _, _, _, hn => by simp at hn
  | n + 1, v, [], rest, hk, hl, hnum, hn => by
      have hv := parseValue_writeRaw n v (93 :: rest) (by simpa [keysElems] using hk)
        (by simpa [leavesElems] using hl) (by simpa [numbersElems] using hnum)
        (by simpa [writeElems] using hn) (stops_of_head (by simp))
      simp [writeElems, parseElems, hv, skipSpace_cons (show isSpace 93 = false by decide)]
  | n + 1, v, v' :: vs, rest, hk, hl, hnum, hn => by
      have hv := parseValue_writeRaw n v
        (44 :: (writeRaw v' ++ (writeElems id id id vs ++ 93 :: rest)))
        (fun raw h => hk raw (by simp [keysElems, h])) (fun raw h => hl raw (by simp [leavesElems, h]))
        (fun raw h => hnum raw (by simp [numbersElems, h])) (by simp at hn; omega)
        (stops_of_head (by simp))
      have hvs := parseElems_writeElems n v' vs rest
        (fun raw h => hk raw (by rw [keysElems]; simp [h]))
        (fun raw h => hl raw (by rw [leavesElems]; simp [h]))
        (fun raw h => hnum raw (by rw [numbersElems]; simp [h]))
        (by simp [writeElems, writeRaw] at hn ⊢; omega)
      have htext : writeElems id id id (v' :: vs) ++ 93 :: rest =
          44 :: (writeRaw v' ++ (writeElems id id id vs ++ 93 :: rest)) := by
        simp [writeElems, writeRaw]
      rw [htext, parseElems, hv]
      simp [skipSpace_cons (show isSpace 44 = false by decide), hvs]

theorem parseMembers_writeMembers : ∀ (n : ℕ) (k : GoString) (v : Json)
    (ms : List (GoString × Json)) (rest : GoString),
    (∀ raw ∈ keysMembers ((k, v) :: ms), Lexable raw) →
    (∀ raw ∈ leavesMembers ((k, v) :: ms), Lexable raw) →
    (∀ lit ∈ numbersMembers ((k, v) :: ms), isNumber lit = true) →
    (writeRaw v ++ writeMembers id id id ms).length + 1 ≤ n →
    parseMembers n (34 :: (k ++ 34 :: 58 :: (writeRaw v ++ (writeMembers id id id ms ++
      125 :: rest)))) = some ((k, v) :: ms, rest)
  | 0, k, v, ms, rest, _, _, _, hn => by simp at hn
  | n + 1, k, v, [], rest, hk, hl, hnum, hn => by
      have hkey := hk k (by simp [keysMembers])
      have hv := parseValue_writeRaw n v (125 :: rest)
        (fun raw h => hk raw (by simp [keysMembers, h]))
        (by simpa [leavesMembers] using hl) (by simpa [numbersMembers] using hnum)
        (by simpa [writeMembers] using hn) (stops_of_head (by simp))
      simp [writeMembers, parseMembers, skipSpace_cons (show isSpace 34 = false by decide), hkey _,
        skipSpace_cons (show isSpace 58 = false by decide), hv,
        skipSpace_cons (show isSpace 125 = false by decide)]
  | n + 1, k, v, (k', v') :: ms, rest, hk, hl, hnum, hn => by
      have hkey := hk k (by simp [keysMembers])
      have hv := parseValue_writeRaw n v (44 :: 34 :: (k' ++ 34 :: 58 :: (writeRaw v' ++
          (writeMembers id id id ms ++ 125 :: rest))))
        (fun raw h => hk raw (by simp [keysMembers, h]))
        (fun raw h => hl raw (by simp [leavesMembers, h]))
        (fun raw h => hnum raw (by simp [numbersMembers, h])) (by simp at hn; omega)
        (stops_of_head (by simp))
      have hms := parseMembers_writeMembers n k' v' ms rest
        (fun raw h => hk raw (by rw [keysMembers]; simp [h]))
        (fun raw h => hl raw (by rw [leavesMembers]; simp [h]))
        (fun raw h => hnum raw (by rw [numbersMembers]; simp [h]))
        (by simp [writeMembers, writeRaw] at hn ⊢; omega)
      have htext : writeMembers id id id ((k', v') :: ms) ++ 125 :: rest = 44 :: 34 :: (k' ++
          34 :: 58 :: (writeRaw v' ++ (writeMembers id id id ms ++ 125 :: rest))) := by
        simp [writeMembers, writeRaw]
      rw [htext, parseMembers]
      simp [skipSpace_cons (show isSpace 34 = false by decide), hkey _,
        skipSpace_cons (show isSpace 58 = false by decide), hv,
        skipSpace_cons (show isSpace 44 = false by decide), hms]

end

theorem parse_writeRaw {t : Json} (hk : ∀ raw ∈ keys t, Lexable raw)
    (hl : ∀ raw ∈ leaves t, Lexable raw) (hn : ∀ lit ∈ numbers t, isNumber lit = true) :
    parse (writeRaw t) = some t := by
  have h := parseValue_writeRaw (writeRaw t).length t [] hk hl hn le_rfl (by simp [Stops])
  rw [List.append_nil] at h
  simp [parse, h, skipSpace]

mutual

theorem strings_mapStrings (f g : GoString → GoString) : ∀ t : Json,
    keys (mapStrings f g t) = (keys t).map f ∧ leaves (mapStrings f g t) = (leaves t).map g ∧
      numbers (mapStrings f g t) = numbers t
  | null => ⟨rfl, rfl, rfl⟩
  | bool _ => ⟨rfl, rfl, rfl⟩
  | num _ => ⟨rfl, rfl, rfl⟩
  | str _ => ⟨rfl, rfl, rfl⟩
  | arr vs => by simpa [mapStrings, keys, leaves, numbers] using strings_mapElems f g vs
  | obj ms => by simpa [mapStrings, keys, leaves, numbers] using strings_mapMembers f g ms

theorem strings_mapElems (f g : GoString → GoString) : ∀ vs : List Json,
    keysElems (mapElems f g vs) = (keysElems vs).map f ∧
      leavesElems (mapElems f g vs) = (leavesElems vs).map g ∧
      numbersElems (mapElems f g vs) = numbersElems vs
  | [] => ⟨rfl, rfl, rfl⟩
  | v :: vs => by
      simp [mapElems, keysElems, leavesElems, numbersElems, strings_mapStrings f g v,
        strings_mapElems f g vs]

theorem strings_mapMembers (f g : GoString → GoString) : ∀ ms : List (GoString × Json),
    keysMembers (mapMembers f g ms) = (keysMembers ms).map f ∧
      leavesMembers (mapMembers f g ms) = (leavesMembers ms).map g ∧
      numbersMembers (mapMembers f g ms) = numbersMembers ms
  | [] => ⟨rfl, rfl, rfl⟩
  | (k, v) :: ms => by
      simp [mapMembers, keysMembers, leavesMembers, numbersMembers, strings_mapStrings f g v,
        strings_mapMembers f g ms]

end

mutual

/-- Writing nothing but the leaves. -/
theorem write_leaves {γ : Type*} (l : GoString → List γ) :
    ∀ t, write (fun _ => []) (fun _ => []) l t = (leaves t).flatMap l
  | null => rfl
  | bool true => rfl
  | bool false => rfl
  | num lit => rfl
  | str s => by simp [write, leaves]
  | arr [] => rfl
  | arr (v :: vs) => by simp [write, leaves, leavesElems, write_leaves l v, writeElems_leaves l vs]
  | obj [] => rfl
  | obj ((k, v) :: ms) => by
      simp [write, leaves, leavesMembers, write_leaves l v, writeMembers_leaves l ms]

theorem writeElems_leaves {γ : Type*} (l : GoString → List γ) :
    ∀ vs, writeElems (fun _ => []) (fun _ => []) l vs = (leavesElems vs).flatMap l
  | [] => rfl
  | v :: vs => by simp [writeElems, leavesElems, write_leaves l v, writeElems_leaves l vs]

theorem writeMembers_leaves {γ : Type*} (l : GoString → List γ) :
    ∀ ms, writeMembers (fun _ => []) (fun _ => []) l ms = (leavesMembers ms).flatMap l
  | [] => rfl
  | (k, v) :: ms => by
      simp [writeMembers, leavesMembers, write_leaves l v, writeMembers_leaves l ms]

end

mutual

theorem mapStrings_eq_self {g : GoString → GoString} :
    ∀ t, (∀ s ∈ leaves t, g s = s) → mapStrings id g t = t
  | null, _ => rfl
  | bool _, _ => rfl
  | num _, _ => rfl
  | str s, h => by rw [mapStrings, h s (by simp [leaves])]
  | arr vs, h => by rw [mapStrings, mapElems_eq_self vs h]
  | obj ms, h => by rw [mapStrings, mapMembers_eq_self ms h]

theorem mapElems_eq_self {g : GoString → GoString} :
    ∀ vs, (∀ s ∈ leavesElems vs, g s = s) → mapElems id g vs = vs
  | [], _ => rfl
  | v :: vs, h => by
      rw [mapElems, mapStrings_eq_self v fun s hs => h s (by simp [leavesElems, hs]),
        mapElems_eq_self vs fun s hs => h s (by simp [leavesElems, hs])]

theorem mapMembers_eq_self {g : GoString → GoString} :
    ∀ ms, (∀ s ∈ leavesMembers ms, g s = s) → mapMembers id g ms = ms
  | [], _ => rfl
  | (k, v) :: ms, h => by
      rw [mapMembers, mapStrings_eq_self v fun s hs => h s (by simp [leavesMembers, hs]),
        mapMembers_eq_self ms fun s hs => h s (by simp [leavesMembers, hs])]
      rfl

end

/-- A value in the sense of the JSON grammar: its numbers are literals and its
strings are text. -/
structure Valid (t : Json) : Prop where
  keys : ∀ k ∈ t.keys, validUTF8 k = true
  leaves : ∀ s ∈ t.leaves, validUTF8 s = true
  numbers : ∀ lit ∈ t.numbers, isNumber lit = true

end Json

end Higress.Lib
