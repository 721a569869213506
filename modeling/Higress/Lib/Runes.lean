import Higress.Lib.GoString

/-!
A text as Go's `range` goes through it: characters, and bytes that belong to no character. The
fields of a text are what its spaces separate.
-/

namespace Higress.Lib

/-- `unicode.IsSpace`. -/
def unicodeIsSpace (c : Char) : Bool :=
  (9 ≤ c.toNat && c.toNat ≤ 13) || c.toNat == 0x20 || c.toNat == 0x85 || c.toNat == 0xA0 ||
    c.toNat == 0x1680 || (0x2000 ≤ c.toNat && c.toNat ≤ 0x200A) || c.toNat == 0x2028 ||
    c.toNat == 0x2029 || c.toNat == 0x202F || c.toNat == 0x205F || c.toNat == 0x3000

/-- A character, or a byte that belongs to none. -/
inductive Rune
  | char (c : Char)
  | invalid (b : UInt8)
deriving DecidableEq

namespace Rune

def isSpace : Rune → Bool
  | char c => unicodeIsSpace c
  | invalid _ => false

def encode : Rune → GoString
  | char c => String.utf8EncodeChar c
  | invalid b => [b]

end Rune

/-- A Go string, rune by rune. -/
abbrev Runes := List Rune

namespace Runes

def ofString (s : String) : Runes := s.toList.map Rune.char

def encode (s : Runes) : GoString := s.flatMap Rune.encode

/-- `strings.Contains`. -/
def contains (s sub : Runes) : Bool := Strings.contains (encode s) (encode sub)

/-- A field that has been read, if there is one. -/
def closed (field : Runes) : List Runes := if field = [] then [] else [field]

/-- The fields of a text behind the beginning of a field. -/
def fieldsFrom : Runes → Runes → List Runes
  | field, [] => closed field
  | field, c :: s =>
      if c.isSpace then closed field ++ fieldsFrom [] s else fieldsFrom (field ++ [c]) s

/-- `strings.Fields`. -/
def fields (s : Runes) : List Runes := fieldsFrom [] s

/-- A text of spaces only. -/
def IsBlank (s : Runes) : Prop := ∀ c ∈ s, c.isSpace = true

instance decidableIsBlank (s : Runes) : Decidable (IsBlank s) :=
  inferInstanceAs (Decidable (∀ c ∈ s, c.isSpace = true))

/-- A text with no space in it. -/
def IsWord (s : Runes) : Prop := ∀ c ∈ s, c.isSpace = false

instance decidableIsWord (s : Runes) : Decidable (IsWord s) :=
  inferInstanceAs (Decidable (∀ c ∈ s, c.isSpace = false))

theorem fieldsFrom_word {x : Runes} (hx : IsWord x) (field s : Runes) :
    fieldsFrom field (x ++ s) = fieldsFrom (field ++ x) s := by
  induction x generalizing field with
  | nil => simp
  | cons c x ih =>
      rw [List.cons_append, fieldsFrom, if_neg (by simp [hx c (by simp)]),
        ih fun c' hc' => hx c' (by simp [hc'])]
      simp

theorem fieldsFrom_blank {w : Runes} (hw : IsBlank w) (hne : w ≠ []) (field s : Runes) :
    fieldsFrom field (w ++ s) = closed field ++ fields s := by
  induction w generalizing field with
  | nil => exact absurd rfl hne
  | cons c w ih =>
      rw [List.cons_append, fieldsFrom, if_pos (hw c (by simp))]
      by_cases hnil : w = []
      · rw [hnil]
        rfl
      · rw [ih (fun c' hc' => hw c' (by simp [hc'])) hnil]
        rfl

/-- Spaces in front do not matter. -/
theorem fields_blank {w : Runes} (hw : IsBlank w) (s : Runes) : fields (w ++ s) = fields s := by
  by_cases hnil : w = []
  · rw [hnil]
    rfl
  · rw [fields, fieldsFrom_blank hw hnil]
    rfl

theorem closed_of_ne_nil {x : Runes} (hx : x ≠ []) : closed x = [x] := if_neg hx

/-- Spaces at the end close a field. -/
theorem fieldsFrom_of_blank {w : Runes} (hw : IsBlank w) (field : Runes) :
    fieldsFrom field w = closed field := by
  by_cases hnil : w = []
  · rw [hnil]
    rfl
  · have := fieldsFrom_blank hw hnil field []
    simpa [fields, fieldsFrom, closed] using this

end Runes

end Higress.Lib
