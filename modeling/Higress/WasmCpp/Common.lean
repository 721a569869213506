import Mathlib
import Higress.Lib.Json
import Higress.Lib.SortedMap
import Higress.Lib.Text

/-!
What the plugins in C++ share: the readers of their JSON configuration
(`common/json_util.cc`) and of URLs and query parameters (`common/http_util.cc`).
-/

namespace Higress.WasmCpp

open Lib

/-! ### Configurations -/

section JsonUtil

/-- `find`, which finds nothing in a value that is not an object. -/
def find : Json → GoString → Option Json
  | .obj members, field => members.lookup field
  | _, _ => none

/-- `size`. -/
def size : Json → ℕ
  | .null => 0
  | .arr elems => elems.length
  | .obj members => members.length
  | _ => 1

/-- The number that a literal of digits stands for. -/
def decimal (lit : GoString) : ℕ := lit.foldl (fun n b => n * 10 + (b.toNat - 48)) 0

/-- `is_number_unsigned` of a literal: an integer without a sign that fits 64 bits. -/
def isUnsigned (lit : GoString) : Bool := lit.all Json.isDigit && decimal lit < 2 ^ 64

/-- `JsonValueAs<std::string>`. An unsigned number is written out, as its literal is. -/
def valueAsString : Json → Option GoString
  | .str s => some s
  | .num lit => if isUnsigned lit then some lit else none
  | _ => none

/-- `JsonValueAs<bool>`. -/
def valueAsBool : Json → Option Bool
  | .bool b => some b
  | .str s => if s = bytes "true" then some true else if s = bytes "false" then some false else none
  | _ => none

/-- `JsonArrayIterate`: what the visitor makes of the elements of an optional array. -/
def arrayIterate {α : Type} (j : Json) (field : GoString) (visitor : Json → Option α) :
    Option (List α) :=
  match find j field with
  | none => some []
  | some (.arr elems) => elems.mapM visitor
  | some _ => none

/-- An optional field with its default. -/
def fieldOr {α : Type} (conf : Json) (field : String) (as : Json → Option α) (default : α) :
    Option α :=
  match find conf (bytes field) with
  | none => some default
  | some value => as value

/-- A visitor that does something more with what another one reads. -/
theorem arrayIterate_of_map {α β : Type} {v : Json → Option α} {w : Json → Option β} {g : α → β}
    (hw : ∀ item b, w item = some b → ∃ a, v item = some a ∧ b = g a) {j : Json} {field : GoString}
    {bs : List β} (h : arrayIterate j field w = some bs) :
    ∃ as, arrayIterate j field v = some as ∧ bs = as.map g := by
  have hall (items : List Json) (bs : List β) (hbs : items.mapM w = some bs) :
      ∃ as, items.mapM v = some as ∧ bs = as.map g := by
    induction items generalizing bs with
    | nil => exact ⟨[], rfl, by simpa using hbs.symm⟩
    | cons item items ih =>
        simp only [List.mapM_cons, Option.bind_eq_bind, Option.bind_eq_some_iff] at hbs
        obtain ⟨b, hb, rest, hrest, heq⟩ := hbs
        obtain rfl : b :: rest = bs := by simpa using heq
        obtain ⟨a, ha, rfl⟩ := hw item b hb
        obtain ⟨as, has, rfl⟩ := ih rest hrest
        exact ⟨a :: as, by simp [List.mapM_cons, ha, has], rfl⟩
  rw [arrayIterate] at h ⊢
  split at h
  · exact ⟨[], rfl, by simpa using h.symm⟩
  · exact hall _ bs h
  · cases h

/-- The results of a visitor stand at the places of what it has visited. -/
theorem getElem?_of_mapM {α β : Type} {f : α → Option β} {l : List α} {l' : List β}
    (h : l.mapM f = some l') (i : ℕ) : l'[i]? = l[i]?.bind f := by
  induction l generalizing l' i with
  | nil =>
      obtain rfl : [] = l' := by simpa using h
      simp
  | cons a l ih =>
      simp only [List.mapM_cons, Option.bind_eq_bind, Option.bind_eq_some_iff] at h
      obtain ⟨b, hb, bs, hbs, hl'⟩ := h
      obtain rfl : b :: bs = l' := by simpa using hl'
      cases i with
      | zero => simp [hb]
      | succ i => simpa using ih hbs i

end JsonUtil

/-! ### URLs -/

section HttpUtil

/-- `rfind` of a byte. -/
def rfind (b : UInt8) (s : GoString) : Option ℕ :=
  (s.reverse.findIdx? (· == b)).map fun i => s.length - 1 - i

def stripPortFromHost (requestHost : GoString) : GoString :=
  match rfind 58 requestHost with
  | none => requestHost
  | some portStart =>
      match rfind 93 requestHost with
      | none => requestHost.take portStart
      | some v6EndIndex => if v6EndIndex < portStart then requestHost.take portStart else requestHost

/-- A digit as `PercentEncoding::decode` reads it; other characters wrap around. -/
def hexDigit (b : UInt8) : UInt8 :=
  if Json.isDigit b then b - 48 else upperByte b - 65 + 10

/-- `PercentEncoding::decode`. -/
def percentDecode : GoString → GoString
  | [] => []
  | [b] => [b]
  | [b, c] => [b, c]
  | b :: hi :: lo :: rest =>
      if b = 37 then (hexDigit hi * 16 + hexDigit lo) :: percentDecode rest
      else b :: percentDecode (hi :: lo :: rest)

/-- `QueryParams`. -/
abbrev QueryParams := SortedMap GoString GoString

/-- `emplace`, which keeps the value that is there. -/
def emplace (params : QueryParams) (p : GoString × GoString) : QueryParams :=
  if (params.get p.1).isSome then params else params.insert p.1 p.2

/-- One parameter. A name without a value is taken as it is written. -/
def readParameter (decodeParams : Bool) (param : GoString) : GoString × GoString :=
  match cutByte 61 param with
  | (name, some value) =>
      if decodeParams then (percentDecode name, percentDecode value) else (name, value)
  | (name, none) => (name, [])

/-- The parameters of a text in order; a `&` at its end begins no other. -/
def parameterList (data : GoString) (decodeParams : Bool) : List (GoString × GoString) :=
  let parts := data.splitOn 38
  let parts := if parts.getLast? = some [] then parts.dropLast else parts
  parts.map (readParameter decodeParams)

/-- `parseParameters`: of repeated parameters the first one counts. -/
def parseParameters (data : GoString) (decodeParams : Bool) : QueryParams :=
  (parameterList data decodeParams).foldl emplace .empty

/-- The query of a URL, if it has one. -/
def queryOf (url : GoString) : Option GoString := (cutByte 63 url).2

def parseAndDecodeQueryString (url : GoString) : QueryParams :=
  match queryOf url with
  | none => .empty
  | some query => parseParameters query true

def parseFromBody (body : GoString) : QueryParams := parseParameters body true

end HttpUtil

end Higress.WasmCpp
