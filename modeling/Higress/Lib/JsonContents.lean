import Mathlib
import Higress.Lib.Json

/-!
The escapes of JSON strings that name a rune by its number: the four digits are plain bytes, and
what is read behind the escape does not depend on it.
-/

namespace Higress.Lib.Json

theorem isPlain_of_hexValue {b : UInt8} {v : ℕ} (h : hexValue b = some v) : isPlain b = true ∧ b < 0x80 := by
  have hrange : 48 ≤ b.toNat ∧ b.toNat ≤ 57 ∨ 65 ≤ b.toNat ∧ b.toNat ≤ 70 ∨
      97 ≤ b.toNat ∧ b.toNat ≤ 102 := by
    unfold hexValue at h
    split_ifs at h with h₁ h₂ h₃
    · exact Or.inl ⟨UInt8.le_iff_toNat_le.mp h₁.1, UInt8.le_iff_toNat_le.mp h₁.2⟩
    · exact Or.inr (Or.inr ⟨UInt8.le_iff_toNat_le.mp h₂.1, UInt8.le_iff_toNat_le.mp h₂.2⟩)
    · exact Or.inr (Or.inl ⟨UInt8.le_iff_toNat_le.mp h₃.1, UInt8.le_iff_toNat_le.mp h₃.2⟩)
  have h34 : b ≠ 34 := by
    rintro rfl
    simp at hrange
  have h92 : b ≠ 92 := by
    rintro rfl
    simp at hrange
  have h32 : 32 ≤ b := UInt8.le_iff_toNat_le.mpr (show 32 ≤ b.toNat by omega)
  exact ⟨by simp [isPlain, h34, h92, h32], UInt8.lt_iff_toNat_lt.mpr (show b.toNat < 128 by omega)⟩

theorem hexValue_of_hex4 {a b c d : UInt8} {r : ℕ} (h : hex4 [a, b, c, d] = some r) :
    (∀ x ∈ [a, b, c, d], ∃ v, hexValue x = some v) ∧ r < 0x10000 := by
  simp only [hex4, Option.bind_eq_bind, Option.bind_eq_some_iff, Option.pure_def,
    Option.some.injEq] at h
  obtain ⟨va, ha, vb, hb, vc, hc, vd, hd, rfl⟩ := h
  have hlt : ∀ {x : UInt8} {v : ℕ}, hexValue x = some v → v < 16 := by
    intro x v hx
    have hle : x.toNat < 256 := x.toNat_lt
    unfold hexValue at hx
    split_ifs at hx with h₁ h₂ h₃
    · have := UInt8.le_iff_toNat_le.mp h₁.2
      simp at hx this
      omega
    · have := UInt8.le_iff_toNat_le.mp h₂.2
      simp at hx this
      omega
    · have := UInt8.le_iff_toNat_le.mp h₃.2
      simp at hx this
      omega
  have := hlt ha
  have := hlt hb
  have := hlt hc
  have := hlt hd
  refine ⟨?_, by omega⟩
  simp [ha, hb, hc, hd]

theorem isPlain_of_hex4 {a b c d : UInt8} {r : ℕ} (h : hex4 [a, b, c, d] = some r) :
    ∀ x ∈ [a, b, c, d], isPlain x = true ∧ x < 0x80 := by
  intro x hx
  obtain ⟨v, hv⟩ := (hexValue_of_hex4 h).1 x hx
  exact isPlain_of_hexValue hv

theorem unescapeFrom_eq_drop (n : ℕ) (s : GoString) :
    unescapeFrom n s = unescapeFrom 0 (s.drop n) := by
  induction s generalizing n with
  | nil => simp [unescapeFrom]
  | cons b s ih =>
      cases n with
      | zero => rfl
      | succ n => simpa [unescapeFrom] using ih n

theorem unescapeFrom_unicode {s : GoString} : unescapeFrom 0 (92 :: 117 :: s) =
    (unicodeEscape s).bind fun rn =>
      (unescapeFrom 0 (s.drop rn.2)).map (encodeRune rn.1 ++ ·) := by
  rw [unescapeFrom]
  cases h : unicodeEscape s with
  | none => simp [h]
  | some rn => simp [h, unescapeFrom_eq_drop (rn.2 + 1)]

end Higress.Lib.Json
