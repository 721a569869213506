import Mathlib
import Higress.WasmCpp.Common

/-!
Percent encoding (`PercentEncoding` in `common/http_util.cc`). The encoder writes two hexadecimal
digits for a character that has to be escaped, but no percent sign in front of them: in the format
`%02X` the percent sign only begins the conversion.
-/

namespace Higress.WasmCpp

open Lib

/-! ### The encoder -/

/-- The test for a character that is escaped. A `char` of 128 or more is below the blank when it has
a sign and above the tilde when it has none. -/
def isEscaped (reservedChars : GoString) (ch : UInt8) : Bool :=
  ch < 32 || 126 ≤ ch || reservedChars.contains ch

def hexUpper (n : ℕ) : UInt8 := UInt8.ofNat (if n < 10 then 48 + n else 55 + n)

/-- `absl::StrFormat("%02X", ch)`. -/
def formatHex (ch : UInt8) : GoString := [hexUpper (ch.toNat / 16), hexUpper (ch.toNat % 16)]

/-- What the slow path appends for a character. -/
def encodeChar (reservedChars : GoString) (ch : UInt8) : GoString :=
  if isEscaped reservedChars ch then formatHex ch else [ch]

/-- `PercentEncoding::encode` from an index on. -/
def percentEncodeFrom (value : GoString) (index : ℕ) (reservedChars : GoString) : GoString :=
  value.take index ++ (value.drop index).flatMap (encodeChar reservedChars)

/-- `PercentEncoding::encode`. -/
def percentEncode (value reservedChars : GoString) : GoString :=
  match value.findIdx? (isEscaped reservedChars) with
  | some i => percentEncodeFrom value i reservedChars
  | none => value

/-! ### The decoder with its indices -/

/-- The loop of `PercentEncoding::decode`; a read behind the end is `none`. -/
def decodeLoop (encoded : GoString) (i : ℕ) (decoded : GoString) : Option GoString :=
  if i < encoded.length then do
    let ch ← encoded[i]?
    if ch = 37 ∧ i + 2 < encoded.length then
      let hi ← encoded[i + 1]?
      let lo ← encoded[i + 2]?
      decodeLoop encoded (i + 3) (decoded ++ [hexDigit hi * 16 + hexDigit lo])
    else decodeLoop encoded (i + 1) (decoded ++ [ch])
  else some decoded
termination_by encoded.length - i

def percentDecodeBytes (encoded : GoString) : Option GoString := decodeLoop encoded 0 []

theorem percentDecode_cons {b : UInt8} {rest : GoString} (h : b ≠ 37 ∨ rest.length < 2) :
    percentDecode (b :: rest) = b :: percentDecode rest := by
  match rest, h with
  | [], _ => rfl
  | [_], _ => rfl
  | _ :: _ :: _, .inl hb => rw [percentDecode, if_neg hb]

/-- The loop reads inside the text only, and what it reads is what `percentDecode` says. -/
theorem decodeLoop_eq (encoded decoded : GoString) (i : ℕ) :
    decodeLoop encoded i decoded = some (decoded ++ percentDecode (encoded.drop i)) := by
  fun_induction decodeLoop encoded i decoded with
  | case1 i decoded hi ih₁ ih₂ =>
      have hdrop : encoded.drop i = encoded[i] :: encoded.drop (i + 1) := List.drop_eq_getElem_cons hi
      rw [List.getElem?_eq_getElem hi, Option.bind_eq_bind, Option.bind_some]
      split
      · rename_i hescape
        obtain ⟨hch, hlen⟩ := hescape
        have hhi : encoded.drop (i + 1) = encoded[i + 1] :: encoded.drop (i + 2) :=
          List.drop_eq_getElem_cons (by omega)
        have hlo : encoded.drop (i + 2) = encoded[i + 2] :: encoded.drop (i + 3) :=
          List.drop_eq_getElem_cons hlen
        rw [List.getElem?_eq_getElem (by omega), List.getElem?_eq_getElem hlen]
        simp only [Option.bind_some]
        rw [ih₁ encoded[i] ⟨hch, hlen⟩ encoded[i + 1] encoded[i + 2], hdrop, hhi, hlo, percentDecode, if_pos hch, List.append_assoc]
        rfl
      · rename_i hplain
        have hcons : percentDecode (encoded[i] :: encoded.drop (i + 1)) =
            encoded[i] :: percentDecode (encoded.drop (i + 1)) := by
          apply percentDecode_cons
          rw [not_and_or] at hplain
          refine hplain.imp id fun hshort => ?_
          rw [List.length_drop]
          omega
        rw [ih₂, hdrop, hcons, List.append_assoc]
        rfl
  | case2 i decoded hi =>
      rw [List.drop_eq_nil_of_le (by omega), percentDecode, List.append_nil]

/-! ### Encoding and decoding -/

variable {reservedChars v : GoString}

theorem percentEncode_eq (v reservedChars : GoString) :
    percentEncode v reservedChars = v.flatMap (encodeChar reservedChars) := by
  have hplain : ∀ {s : GoString}, (∀ b ∈ s, isEscaped reservedChars b = false) →
      s.flatMap (encodeChar reservedChars) = s := by
    intro s hs
    have hsingle : ∀ b ∈ s, encodeChar reservedChars b = [b] := by
      intro b hb
      rw [encodeChar, hs b hb]
      rfl
    rw [List.flatMap_congr hsingle]
    exact List.flatMap_singleton' s
  rw [percentEncode]
  split
  · rename_i i hi
    obtain ⟨hlt, -, hbefore⟩ := List.findIdx?_eq_some_iff_getElem.mp hi
    have htake : ∀ b ∈ v.take i, isEscaped reservedChars b = false := by
      intro b hb
      obtain ⟨j, hj, rfl⟩ := List.mem_take_iff_getElem.mp hb
      simpa using hbefore j (by omega)
    have hsplit := congrArg (List.flatMap (encodeChar reservedChars)) (List.take_append_drop i v)
    rw [List.flatMap_append, hplain htake] at hsplit
    exact hsplit
  · rename_i hnone
    exact (hplain (List.findIdx?_eq_none_iff.mp hnone)).symm

theorem hexUpper_ne {n : ℕ} (h : n < 16) : hexUpper n ≠ 37 := by
  interval_cases n <;> decide

/-- No percent sign is left, and none is written. -/
theorem percent_notMem_encode (h : 37 ∈ reservedChars) : 37 ∉ percentEncode v reservedChars := by
  rw [percentEncode_eq, List.mem_flatMap]
  rintro ⟨b, -, hb⟩
  rw [encodeChar] at hb
  split at hb
  · have hlt := b.toNat_lt
    rcases List.mem_cons.mp hb with hb | hb
    · exact hexUpper_ne (by omega) hb.symm
    · exact hexUpper_ne (by omega) (List.mem_singleton.mp hb).symm
  · rename_i hplain
    obtain rfl := List.mem_singleton.mp hb
    exact hplain (by simp [isEscaped, h])

theorem percentDecode_of_notMem {s : GoString} (h : 37 ∉ s) : percentDecode s = s := by
  induction s with
  | nil => rfl
  | cons b s ih =>
      rw [List.mem_cons, not_or] at h
      rw [percentDecode_cons (Or.inl (Ne.symm h.1)), ih h.2]

theorem length_percentEncode (v reservedChars : GoString) :
    (percentEncode v reservedChars).length = v.length + v.countP (isEscaped reservedChars) := by
  rw [percentEncode_eq]
  induction v with
  | nil => rfl
  | cons b v ih =>
      rw [List.flatMap_cons, List.length_append, ih, List.countP_cons, List.length_cons, encodeChar]
      split
      · rw [formatHex, List.length_cons, List.length_singleton]
        omega
      · rw [List.length_singleton]
        omega

/-- The decoder reads inside its input only, and it gives back what was encoded if and only if
nothing had to be escaped. -/
theorem percent_decode_encode_iff (h : 37 ∈ reservedChars) :
    (∀ encoded, percentDecodeBytes encoded = some (percentDecode encoded)) ∧
      (percentDecodeBytes (percentEncode v reservedChars) = some v ↔
        ∀ b ∈ v, isEscaped reservedChars b = false) := by
  have hdecode : ∀ encoded, percentDecodeBytes encoded = some (percentDecode encoded) := by
    intro encoded
    rw [percentDecodeBytes, decodeLoop_eq]
    rfl
  refine ⟨hdecode, ?_⟩
  rw [hdecode, percentDecode_of_notMem (percent_notMem_encode h), Option.some.injEq]
  constructor
  · intro heq
    have hlen := length_percentEncode v reservedChars
    rw [heq] at hlen
    have hcount : v.countP (isEscaped reservedChars) = 0 := by omega
    simpa using List.countP_eq_zero.mp hcount
  · intro hplain
    rw [percentEncode, List.findIdx?_eq_none_iff.mpr hplain]

theorem percent_decode_encode_plain :
    (∀ encoded, percentDecodeBytes encoded = some (percentDecode encoded)) ∧
      (percentDecodeBytes (percentEncode (bytes "a/b") (bytes "%")) = some (bytes "a/b") ↔
        ∀ b ∈ bytes "a/b", isEscaped (bytes "%") b = false) :=
  percent_decode_encode_iff (by decide)

/-- A percent sign comes back as the two digits of its code. -/
theorem percent_encode_lost : 37 ∈ bytes "%" ∧
    percentDecodeBytes (percentEncode (bytes "%") (bytes "%")) = some (bytes "25") ∧
      bytes "25" ≠ bytes "%" := by
  refine ⟨by decide, ?_, by decide⟩
  rw [percentDecodeBytes, decodeLoop_eq]
  decide

end Higress.WasmCpp
