import Higress.Lib.Json

/-!
The concrete syntax of JSON, RFC 8259. A syntax tree keeps everything a text
says: the white space, the spelling of each string and of each number. So
every tree has exactly one text, a text is grammatical exactly when some tree
has it, and statements about where a parser stands in a text can be made
about trees. The contents of strings are bytes; they need not be UTF-8.
-/

namespace Higress.Lib.JsonText

/-- White space of the grammar. -/
def Space := { s : GoString // ∀ b ∈ s, Json.isSpace b = true }

def Space.append (v w : Space) : Space :=
  ⟨v.1 ++ w.1, fun b hb => (List.mem_append.mp hb).elim (v.2 b) (w.2 b)⟩

/-- One character of a string: a byte that stands for itself, one of the eight
short escapes, or four hexadecimal digits behind `\u`. -/
inductive Piece
  | plain (b : UInt8) (h : 0x20 ≤ b ∧ b ≠ 34 ∧ b ≠ 92)
  | short (c x : UInt8) (h : Json.simpleEscape c = some x)
  | unicode (a b c d : UInt8) (r : ℕ) (h : Json.hex4 [a, b, c, d] = some r)

def Piece.render : Piece → GoString
  | .plain b _ => [b]
  | .short c _ _ => [92, c]
  | .unicode a b c d _ _ => [92, 117, a, b, c, d]

/-- The ASCII character a piece stands for, if it is one. -/
def Piece.ascii : Piece → Option UInt8
  | .plain b _ => if b < 0x80 then some b else none
  | .short _ x _ => some x
  | .unicode _ _ _ _ r _ => if r ≤ 0x7F then some (UInt8.ofNat r) else none

def renderPieces (ps : List Piece) : GoString := ps.flatMap Piece.render

/-- A string between its quotes. -/
def quote (ps : List Piece) : GoString := 34 :: (renderPieces ps ++ [34])

/-- The string is the given text of ASCII characters once unescaped. -/
def Spells (ps : List Piece) (name : GoString) : Prop := ps.map Piece.ascii = name.map some

instance (ps : List Piece) (name : GoString) : Decidable (Spells ps name) :=
  inferInstanceAs (Decidable (_ = _))

def Digits (s : GoString) : Prop := s ≠ [] ∧ ∀ b ∈ s, Json.isDigit b = true

/-- `int`: a zero, or digits that start with another one. -/
def IsInt (s : GoString) : Prop := s = [48] ∨ Digits s ∧ s.head? ≠ some 48

/-- `frac`, which may be missing. -/
def IsFrac (s : GoString) : Prop := s = [] ∨ ∃ ds, s = 46 :: ds ∧ Digits ds

/-- `exp`, which may be missing. -/
def IsExp (s : GoString) : Prop :=
  s = [] ∨ ∃ e sign ds, s = e :: (sign ++ ds) ∧ (e = 101 ∨ e = 69) ∧
    (sign = [] ∨ sign = [43] ∨ sign = [45]) ∧ Digits ds

def IsNumber (s : GoString) : Prop :=
  ∃ minus int frac exp, s = minus ++ (int ++ (frac ++ exp)) ∧ (minus = [] ∨ minus = [45]) ∧
    IsInt int ∧ IsFrac frac ∧ IsExp exp

inductive Literal
  | false
  | null
  | true

def Literal.render : Literal → GoString
  | .false => bytes "false"
  | .null => bytes "null"
  | .true => bytes "true"

/-- The name of a member up to where its value starts. -/
structure Name where
  before : Space
  pieces : List Piece
  after : Space
  gap : Space

def Name.render (k : Name) : GoString :=
  k.before.1 ++ (quote k.pieces ++ (k.after.1 ++ 58 :: k.gap.1))

mutual

/-- A value. -/
inductive Doc
  | literal (l : Literal)
  | number (s : GoString) (h : IsNumber s)
  | string (ps : List Piece)
  | emptyArray (w : Space)
  | array (es : Elements)
  | emptyObject (w : Space)
  | object (ms : Members)

/-- The elements of an array that is not empty. -/
inductive Elements
  | last (before : Space) (v : Doc) (after : Space)
  | more (before : Space) (v : Doc) (after : Space) (es : Elements)

/-- The members of an object that is not empty. -/
inductive Members
  | last (k : Name) (v : Doc) (after : Space)
  | more (k : Name) (v : Doc) (after : Space) (ms : Members)

end

mutual

def Doc.render : Doc → GoString
  | .literal l => l.render
  | .number s _ => s
  | .string ps => quote ps
  | .emptyArray w => 91 :: (w.1 ++ [93])
  | .array es => 91 :: (es.render ++ [93])
  | .emptyObject w => 123 :: (w.1 ++ [125])
  | .object ms => 123 :: (ms.render ++ [125])

def Elements.render : Elements → GoString
  | .last before v after => before.1 ++ (v.render ++ after.1)
  | .more before v after es => before.1 ++ (v.render ++ (after.1 ++ 44 :: es.render))

def Members.render : Members → GoString
  | .last k v after => k.render ++ (v.render ++ after.1)
  | .more k v after ms => k.render ++ (v.render ++ (after.1 ++ 44 :: ms.render))

end

/-- The members of an object that have been passed before the next one. -/
def renderPrior : Option Members → GoString
  | none => []
  | some ms => ms.render ++ [44]

end Higress.Lib.JsonText
