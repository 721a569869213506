import Mathlib.Data.List.Basic
import Higress.Lib.GoString

/-!
Values of JSON as the package `gjson` gives them out. Arrays and objects keep the text they were
read from, since that is what `String` returns of them, and a number the text that it is printed
as. A result that may not exist is an option.
-/

namespace Higress.Lib

inductive GValue
  | null
  | bool (b : Bool)
  | number (text : GoString)
  | str (s : GoString)
  | arr (raw : GoString) (items : List GValue)
  | obj (raw : GoString) (members : List (GoString × GValue))

namespace GValue

/-- `Get` with a path that is a plain name: of several members with one name the first. -/
def get (name : GoString) : GValue → Option GValue
  | obj _ members => members.lookup name
  | _ => none

/-- `String`. -/
def string : GValue → GoString
  | null => []
  | bool b => if b then bytes "true" else bytes "false"
  | number text => text
  | str s => s
  | arr raw _ => raw
  | obj raw _ => raw

/-- `Array`: what is no array stands for its only element. -/
def array : GValue → List GValue
  | null => []
  | arr _ items => items
  | v => [v]

/-- The values that `ForEach` goes through. -/
def elements : GValue → List GValue
  | arr _ items => items
  | obj _ members => members.map Prod.snd
  | v => [v]

/-- `json.Get(name).String()`. -/
def getString (name : GoString) (v : GValue) : GoString := ((v.get name).map string).getD []

end GValue

/-- `ForEach`: the callback says whether to go on. -/
def forEach {σ α : Type*} (callback : σ → α → σ × Bool) (s : σ) : List α → σ
  | [] => s
  | a :: as => if (callback s a).2 then forEach callback (callback s a).1 as else (callback s a).1

end Higress.Lib
