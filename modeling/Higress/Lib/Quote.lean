import Mathlib
import Higress.Lib.Utf8

/-!
The quoting of Go's `strconv` beside the strings of JSON. A character that can be printed stands for
itself in both, a quote and a backslash are escaped alike, and the escapes `\b`, `\f`, `\n`, `\r`,
`\t` and `\u` are common to both. Go has others that JSON does not have: `\a`, `\v`, `\x` and `\U`.

Which characters can be printed is a table of the Unicode version; only ASCII is fixed here.
-/

namespace Higress.Lib

open Json Utf8

theorem bytes_append (a b : String) : bytes (a ++ b) = bytes a ++ bytes b := by
  simp [bytes]

/-- `strconv.IsPrint`. -/
structure PrintTable where
  isPrint : ℕ → Bool
  ascii : ∀ r < 0x80, isPrint r = decide (32 ≤ r ∧ r < 127)

/-- The code point of a character. -/
def runeValue : GoString → ℕ
  | [] => 0
  | [b] => b.toNat
  | [b, c] => 0x40 * (b.toNat % 0x20) + c.toNat % 0x40
  | [b, c, d] => 0x1000 * (b.toNat % 0x10) + 0x40 * (c.toNat % 0x40) + d.toNat % 0x40
  | b :: c :: d :: e :: _ => 0x40000 * (b.toNat % 0x08) + 0x1000 * (c.toNat % 0x40) +
      0x40 * (d.toNat % 0x40) + e.toNat % 0x40

/-- The last hexadecimal digits of a number. -/
def hexDigits : ℕ → ℕ → GoString
  | 0, _ => []
  | n + 1, r => hexDigits n (r / 16) ++ [hexDigit (r % 16)]

/-- `appendEscapedRune` for a character with the code point `r`. -/
def appendEscapedRune (table : PrintTable) (c : GoString) (r : ℕ) : GoString :=
  if r = 34 ∨ r = 92 then 92 :: c
  else if table.isPrint r then c
  else if r = 7 then [92, 97]
  else if r = 8 then [92, 98]
  else if r = 12 then [92, 102]
  else if r = 10 then [92, 110]
  else if r = 13 then [92, 114]
  else if r = 9 then [92, 116]
  else if r = 11 then [92, 118]
  else if r < 32 ∨ r = 127 then 92 :: 120 :: hexDigits 2 r
  else if r < 0x10000 then 92 :: 117 :: hexDigits 4 r
  else 92 :: 85 :: hexDigits 8 r

def escapedRune (table : PrintTable) (c : GoString) : GoString :=
  appendEscapedRune table c (runeValue c)

/-- The contents of what `strconv.Quote` gives; the first argument counts the bytes of the current
character that are written already. -/
def quoteFrom (table : PrintTable) : ℕ → GoString → GoString
  | _, [] => []
  | written + 1, _ :: s => quoteFrom table written s
  | 0, b :: s =>
      match runeLen (b :: s) with
      | 0 => 92 :: 120 :: (hexDigits 2 b.toNat ++ quoteFrom table 0 s)
      | n + 1 => escapedRune table ((b :: s).take (n + 1)) ++ quoteFrom table n s

/-- `strconv.Quote`. -/
def quote (table : PrintTable) (s : GoString) : GoString := 34 :: (quoteFrom table 0 s ++ [34])

/-! ### Characters -/

theorem quoteFrom_eq_drop (table : PrintTable) (n : ℕ) (s : GoString) :
    quoteFrom table n s = quoteFrom table 0 (s.drop n) := by
  induction s generalizing n with
  | nil => simp [quoteFrom]
  | cons b s ih =>
      cases n with
      | zero => rfl
      | succ n => simpa [quoteFrom] using ih n

theorem quoteFrom_flatten (table : PrintTable) {cs : List GoString} (h : ∀ c ∈ cs, IsChar c) :
    quoteFrom table 0 cs.flatten = cs.flatMap (escapedRune table) := by
  induction cs with
  | nil => rfl
  | cons c cs ih =>
      obtain ⟨hne, hlen⟩ := h c List.mem_cons_self
      obtain ⟨b, t, rfl⟩ := List.exists_cons_of_ne_nil hne
      have hrune : runeLen (b :: (t ++ cs.flatten)) = t.length + 1 := by
        rw [← List.cons_append, runeLen_append (by simp [hlen]), hlen, List.length_cons]
      rw [List.flatten_cons, List.cons_append, quoteFrom, hrune, List.flatMap_cons,
        ← ih fun c hc => h c (List.mem_cons_of_mem _ hc)]
      dsimp only
      rw [quoteFrom_eq_drop]
      simp

theorem isUtf8_of_ascii {s : GoString} (h : ∀ b ∈ s, b < 0x80) : IsUtf8 s := by
  refine isUtf8_iff.2 ⟨s.map fun b => [b], ?_, fun c hc => ?_⟩
  · rw [← List.flatMap_def, List.flatMap_singleton']
  obtain ⟨b, hb, rfl⟩ := List.mem_map.1 hc
  exact ⟨by simp, by simp [runeLen, h b hb]⟩

/-- Nothing has to be replaced in a text that is UTF-8. -/
theorem coerceUTF8_flatten {cs : List GoString} (h : ∀ c ∈ cs, IsChar c) :
    coerceUTF8 cs.flatten = cs.flatten := by
  unfold coerceUTF8
  induction cs with
  | nil => rfl
  | cons c cs ih =>
      obtain ⟨hne, hlen⟩ := h c List.mem_cons_self
      obtain ⟨b, t, rfl⟩ := List.exists_cons_of_ne_nil hne
      have hrune : runeLen (b :: (t ++ cs.flatten)) = t.length + 1 := by
        rw [← List.cons_append, runeLen_append (by simp [hlen]), hlen, List.length_cons]
      rw [List.flatten_cons, List.cons_append, coerceFrom, hrune]
      dsimp only
      rw [coerceFrom_eq_take, List.take_left, List.drop_left,
        ih fun c hc => h c (List.mem_cons_of_mem _ hc)]

theorem isTail_iff {c : UInt8} : isTail c = true ↔ 0x80 ≤ c.toNat ∧ c.toNat ≤ 0xBF := by
  simp [isTail, UInt8.le_iff_toNat_le]

theorem isSecond_iff {b c : UInt8} : isSecond b c = true ↔
    (0x80 ≤ c.toNat ∧ c.toNat ≤ 0xBF) ∧ (b.toNat = 0xE0 → 0xA0 ≤ c.toNat) ∧
      (b.toNat = 0xED → c.toNat ≤ 0x9F) ∧ (b.toNat = 0xF0 → 0x90 ≤ c.toNat) ∧
      (b.toNat = 0xF4 → c.toNat ≤ 0x8F) := by
  simp only [isSecond, Bool.and_eq_true, Bool.or_eq_true, bne_iff_ne, ne_eq, decide_eq_true_eq,
    isTail_iff, UInt8.le_iff_toNat_le, ← UInt8.toNat_inj, and_assoc, ← imp_iff_not_or]
  rfl

/-- The bytes of a character, by its length. -/
theorem isChar_cases {c : GoString} (h : IsChar c) :
    (∃ b : UInt8, c = [b] ∧ b.toNat < 0x80) ∨
    (∃ b d : UInt8, c = [b, d] ∧ 0xC2 ≤ b.toNat ∧ b.toNat ≤ 0xDF ∧ 0x80 ≤ d.toNat ∧
      d.toNat ≤ 0xBF) ∨
    (∃ b d e : UInt8, c = [b, d, e] ∧ 0xE0 ≤ b.toNat ∧ b.toNat ≤ 0xEF ∧ 0x80 ≤ d.toNat ∧
      d.toNat ≤ 0xBF ∧ (b.toNat = 0xE0 → 0xA0 ≤ d.toNat) ∧ (b.toNat = 0xED → d.toNat ≤ 0x9F) ∧
      0x80 ≤ e.toNat ∧ e.toNat ≤ 0xBF) ∨
    (∃ b d e f : UInt8, c = [b, d, e, f] ∧ 0xF0 ≤ b.toNat ∧ b.toNat ≤ 0xF4 ∧ 0x80 ≤ d.toNat ∧
      d.toNat ≤ 0xBF ∧ (b.toNat = 0xF0 → 0x90 ≤ d.toNat) ∧ (b.toNat = 0xF4 → d.toNat ≤ 0x8F) ∧
      0x80 ≤ e.toNat ∧ e.toNat ≤ 0xBF ∧ 0x80 ≤ f.toNat ∧ f.toNat ≤ 0xBF) := by
  obtain ⟨hne, hlen⟩ := h
  match c with
  | [] => exact absurd rfl hne
  | [b] =>
      simp only [runeLen, List.length_singleton] at hlen
      split at hlen
      next hb => exact .inl ⟨b, rfl, UInt8.lt_iff_toNat_lt.1 hb⟩
      next => simp at hlen
  | [b, d] =>
      refine .inr (.inl ⟨b, d, rfl, ?_⟩)
      simp only [runeLen, isSecond_iff, UInt8.lt_iff_toNat_lt, UInt8.le_iff_toNat_le, UInt8.reduceToNat, List.length_cons, List.length_nil] at hlen
      split_ifs at hlen <;> omega
  | [b, d, e] =>
      refine .inr (.inr (.inl ⟨b, d, e, rfl, ?_⟩))
      simp only [runeLen, isSecond_iff, isTail_iff, UInt8.lt_iff_toNat_lt, UInt8.le_iff_toNat_le, UInt8.reduceToNat, List.length_cons,
        List.length_nil] at hlen
      split_ifs at hlen <;> omega
  | b :: d :: e :: f :: s =>
      have hs : s = [] := by
        simp only [runeLen, List.length_cons] at hlen
        rw [← List.length_eq_zero_iff]
        split_ifs at hlen <;> omega
      subst hs
      refine .inr (.inr (.inr ⟨b, d, e, f, rfl, ?_⟩))
      simp only [runeLen, isSecond_iff, isTail_iff, UInt8.lt_iff_toNat_lt, UInt8.le_iff_toNat_le, UInt8.reduceToNat, List.length_cons,
        List.length_nil] at hlen
      split_ifs at hlen <;> omega

theorem encodeRune_runeValue {c : GoString} (h : IsChar c) : encodeRune (runeValue c) = c := by
  have hofNat {n : ℕ} {b : UInt8} (heq : n = b.toNat) : UInt8.ofNat n = b := by
    rw [heq, UInt8.ofNat_toNat]
  rcases isChar_cases h with ⟨b, rfl, hb⟩ | ⟨b, d, rfl, h⟩ | ⟨b, d, e, rfl, h⟩ | ⟨b, d, e, f, rfl, h⟩
  · simp [encodeRune, runeValue, hb]
  · rw [runeValue]
    simp only [encodeRune]
    rw [if_neg (by omega), if_pos (by omega), hofNat (b := b) (by omega),
      hofNat (b := d) (by omega)]
  · rw [runeValue]
    simp only [encodeRune]
    rw [if_neg (by omega), if_neg (by omega), if_pos (by omega), hofNat (b := b) (by omega),
      hofNat (b := d) (by omega), hofNat (b := e) (by omega)]
  · rw [runeValue]
    simp only [encodeRune]
    rw [if_neg (by omega), if_neg (by omega), if_neg (by omega), hofNat (b := b) (by omega),
      hofNat (b := d) (by omega), hofNat (b := e) (by omega), hofNat (b := f) (by omega)]

/-- A code point is no half of a surrogate pair. -/
theorem runeValue_not_surrogate {c : GoString} (h : IsChar c) :
    ¬ (0xD800 ≤ runeValue c ∧ runeValue c < 0xE000) := by
  rcases isChar_cases h with ⟨b, rfl, hb⟩ | ⟨b, d, rfl, h⟩ | ⟨b, d, e, rfl, h⟩ | ⟨b, d, e, f, rfl, h⟩ <;>
    simp only [runeValue] <;> omega

/-- A character of ASCII is one byte, and the bytes of the others are above ASCII. -/
theorem eq_singleton_of_ascii {c : GoString} (h : IsChar c) (hr : runeValue c < 0x80) :
    c = [UInt8.ofNat (runeValue c)] := by
  have := encodeRune_runeValue h
  rw [encodeRune, if_pos hr] at this
  exact this.symm

theorem above_ascii {c : GoString} (h : IsChar c) (hr : 0x80 ≤ runeValue c) :
    ∀ b ∈ c, 0x80 ≤ b.toNat := by
  rcases isChar_cases h with ⟨b, rfl, hb⟩ | ⟨b, d, rfl, h⟩ | ⟨b, d, e, rfl, h⟩ | ⟨b, d, e, f, rfl, h⟩
  · simp only [runeValue] at hr
    omega
  all_goals
    simp only [List.mem_cons, List.not_mem_nil, or_false, forall_eq_or_imp, forall_eq]
    omega

theorem isPlain_of_above {b : UInt8} (h : 0x80 ≤ b.toNat) : isPlain b = true := by
  have hne {n : ℕ} (hn : n < 0x80) : b ≠ UInt8.ofNat n := by
    rintro rfl
    rw [UInt8.toNat_ofNat'] at h
    omega
  simp only [isPlain, Bool.and_eq_true, decide_eq_true_eq, bne_iff_ne]
  refine ⟨⟨?_, hne (n := 34) (by decide)⟩, hne (n := 92) (by decide)⟩
  rw [UInt8.le_iff_toNat_le]
  exact le_trans (by decide) h

/-! ### Characters that both write alike -/

/-- The character can be printed or has an escape that JSON has too. -/
def Shared (table : PrintTable) (c : GoString) : Prop :=
  let r := runeValue c
  r ∈ [8, 9, 10, 12, 13] ∨ 32 ≤ r ∧ r ≠ 127 ∧ (r < 0x10000 ∨ table.isPrint r = true)

instance (table : PrintTable) (c : GoString) : Decidable (Shared table c) :=
  inferInstanceAs (Decidable (_ ∨ _ ∧ _ ∧ (_ ∨ _)))

theorem isPlain_hexDigits (n r : ℕ) : ∀ b ∈ hexDigits n r, isPlain b = true := by
  induction n generalizing r with
  | zero => simp [hexDigits]
  | succ n ih =>
      intro b hb
      rcases List.mem_append.1 hb with hb | hb
      · exact ih _ b hb
      · rw [List.mem_singleton.1 hb]
        exact isPlain_hexDigit (Nat.mod_lt _ (by decide))

theorem hex4_hexDigits {r : ℕ} (hr : r < 0x10000) : hex4 (hexDigits 4 r) = some r := by
  simp only [hexDigits, List.nil_append, List.cons_append, hex4,
    hexValue_hexDigit (Nat.mod_lt _ (by decide : 0 < 16)), Option.bind_eq_bind, Option.bind_some,
    Option.pure_def, Option.some.injEq]
  omega

theorem isPlain_ofNat {r : ℕ} (hr : 32 ≤ r ∧ r < 127) (hquote : ¬ (r = 34 ∨ r = 92)) :
    isPlain (UInt8.ofNat r) = true := by
  simp only [isPlain, Bool.and_eq_true, decide_eq_true_eq, bne_iff_ne, UInt8.le_iff_toNat_le, ne_eq,
    ← UInt8.toNat_inj, UInt8.toNat_ofNat', UInt8.reduceToNat]
  omega

section

variable {table : PrintTable} {c : GoString}

/-- What a character is written as: itself, a short escape, or an escape with digits. -/
theorem escapedRune_cases (h : IsChar c) :
    ((runeValue c = 34 ∨ runeValue c = 92) ∧ escapedRune table c = 92 :: c) ∨
    (escapedRune table c = c ∧ Shared table c ∧ ∀ b ∈ c, isPlain b = true) ∨
    (∃ x y, escapedRune table c = [92, x] ∧ x ≠ 117 ∧ isPlain x = true ∧ simpleEscape x = some y ∧
      c = [y] ∧ Shared table c) ∨
    (escapedRune table c = 92 :: 117 :: hexDigits 4 (runeValue c) ∧ runeValue c < 0x10000 ∧
      Shared table c) ∨
    (∃ x n, escapedRune table c = 92 :: x :: hexDigits n (runeValue c) ∧ x ≠ 117 ∧
      isPlain x = true ∧ simpleEscape x = none ∧ ¬ Shared table c) := by
  have hascii := fun hr => eq_singleton_of_ascii h hr
  have habove := fun hr => above_ascii h hr
  have hprint := table.ascii (runeValue c)
  unfold escapedRune Shared
  generalize runeValue c = r at *
  generalize hw : appendEscapedRune table c r = w
  unfold appendEscapedRune at hw
  -- the branches for short escapes of JSON, and for escapes that it does not have
  have hshort {x y : UInt8} (hw : [92, x] = w) (hx : x ≠ 117) (hplain : isPlain x = true)
      (hy : simpleEscape x = some y) (hr : r < 128) (hval : UInt8.ofNat r = y)
      (hin : r ∈ [8, 9, 10, 12, 13]) :
      ∃ x y, w = [92, x] ∧ x ≠ 117 ∧ isPlain x = true ∧ simpleEscape x = some y ∧ c = [y] ∧
        (r ∈ [8, 9, 10, 12, 13] ∨ 32 ≤ r ∧ r ≠ 127 ∧ (r < 0x10000 ∨ table.isPrint r = true)) :=
    ⟨x, y, hw.symm, hx, hplain, hy, hval ▸ hascii hr, .inl hin⟩
  by_cases hquote : r = 34 ∨ r = 92
  · rw [if_pos hquote] at hw
    exact .inl ⟨hquote, hw.symm⟩
  rw [if_neg hquote] at hw
  by_cases hp : table.isPrint r = true
  · rw [if_pos hp] at hw
    refine .inr (.inl ⟨hw.symm, .inr ?_, ?_⟩)
    · by_cases hlt : r < 128
      · have := hprint hlt
        rw [hp, eq_comm, decide_eq_true_iff] at this
        exact ⟨this.1, by omega, .inr hp⟩
      · exact ⟨by omega, by omega, .inr hp⟩
    · by_cases hlt : r < 128
      · have hrange := hprint hlt
        rw [hp, eq_comm, decide_eq_true_iff] at hrange
        rw [hascii hlt]
        exact fun b hb => List.mem_singleton.1 hb ▸ isPlain_ofNat hrange hquote
      · exact fun b hb => isPlain_of_above (habove (Nat.not_lt.1 hlt) b hb)
  rw [if_neg hp] at hw
  have hcontrol (hctl : r < 32 ∨ r = 127) (hnot : r ∉ [8, 9, 10, 12, 13]) :
      ¬ (r ∈ [8, 9, 10, 12, 13] ∨ 32 ≤ r ∧ r ≠ 127 ∧ (r < 0x10000 ∨ table.isPrint r = true)) := by
    rintro (hin | ⟨hle, hne, -⟩)
    · exact hnot hin
    · omega
  by_cases h7 : r = 7
  · rw [if_pos h7] at hw
    exact .inr (.inr (.inr (.inr ⟨97, 0, hw.symm, by decide, by decide, by decide,
      hcontrol (by omega) (by rw [h7]; decide)⟩)))
  rw [if_neg h7] at hw
  by_cases h8 : r = 8
  · rw [if_pos h8] at hw
    exact .inr (.inr (.inl (hshort hw (by decide) (by decide) rfl (by omega) (by rw [h8]; rfl)
      (by rw [h8]; decide))))
  rw [if_neg h8] at hw
  by_cases h12 : r = 12
  · rw [if_pos h12] at hw
    exact .inr (.inr (.inl (hshort hw (by decide) (by decide) rfl (by omega) (by rw [h12]; rfl)
      (by rw [h12]; decide))))
  rw [if_neg h12] at hw
  by_cases h10 : r = 10
  · rw [if_pos h10] at hw
    exact .inr (.inr (.inl (hshort hw (by decide) (by decide) rfl (by omega) (by rw [h10]; rfl)
      (by rw [h10]; decide))))
  rw [if_neg h10] at hw
  by_cases h13 : r = 13
  · rw [if_pos h13] at hw
    exact .inr (.inr (.inl (hshort hw (by decide) (by decide) rfl (by omega) (by rw [h13]; rfl)
      (by rw [h13]; decide))))
  rw [if_neg h13] at hw
  by_cases h9 : r = 9
  · rw [if_pos h9] at hw
    exact .inr (.inr (.inl (hshort hw (by decide) (by decide) rfl (by omega) (by rw [h9]; rfl)
      (by rw [h9]; decide))))
  rw [if_neg h9] at hw
  have hnot : r ∉ [8, 9, 10, 12, 13] := by
    simp only [List.mem_cons, List.not_mem_nil, or_false]
    omega
  by_cases h11 : r = 11
  · rw [if_pos h11] at hw
    exact .inr (.inr (.inr (.inr ⟨118, 0, hw.symm, by decide, by decide, by decide,
      hcontrol (by omega) hnot⟩)))
  rw [if_neg h11] at hw
  by_cases hctl : r < 32 ∨ r = 127
  · rw [if_pos hctl] at hw
    exact .inr (.inr (.inr (.inr ⟨120, 2, hw.symm, by decide, by decide, by decide,
      hcontrol hctl hnot⟩)))
  rw [if_neg hctl] at hw
  by_cases hu : r < 0x10000
  · rw [if_pos hu] at hw
    exact .inr (.inr (.inr (.inl ⟨hw.symm, hu, .inr ⟨by omega, by omega, .inl hu⟩⟩)))
  · rw [if_neg hu] at hw
    refine .inr (.inr (.inr (.inr ⟨85, 8, hw.symm, by decide, by decide, by decide, ?_⟩)))
    rintro (hin | ⟨-, -, hlt | hpr⟩)
    · exact hnot hin
    · exact hu hlt
    · exact hp hpr

theorem eq_of_quote_or_backslash (h : IsChar c) (hr : runeValue c = 34 ∨ runeValue c = 92) :
    c = [34] ∨ c = [92] := by
  have hc := eq_singleton_of_ascii h (by omega)
  rcases hr with hr | hr <;> rw [hr] at hc
  · exact .inl hc
  · exact .inr hc

theorem shared_of_quote_or_backslash (hr : runeValue c = 34 ∨ runeValue c = 92) :
    Shared table c := by
  refine .inr ?_
  rcases hr with hr | hr <;> rw [hr] <;> exact ⟨by decide, by decide, .inl (by decide)⟩

/-- A character that both write alike reads as itself. -/
theorem spells_escapedRune (h : IsChar c) (hshared : Shared table c) :
    Spells (escapedRune table c) c := by
  rcases @escapedRune_cases table c h with ⟨hr, heq⟩ | ⟨heq, -, hplain⟩ |
    ⟨x, y, heq, hx, -, hy, rfl, -⟩ | ⟨heq, hr, -⟩ | ⟨x, n, -, -, -, -, hnot⟩
  · rw [heq]
    rcases eq_of_quote_or_backslash h hr with rfl | rfl <;>
      exact spells_simple (by decide) (by decide)
  · rw [heq]
    exact spells_of_plain hplain
  · rw [heq]
    exact spells_simple hx hy
  · have hhex := hex4_hexDigits hr
    have hplain := isPlain_hexDigits 4 (runeValue c)
    have hspells := encodeRune_runeValue h ▸
      spells_unicode hplain hhex (runeValue_not_surrogate h)
    rw [heq]
    exact hspells
  · exact absurd hshared hnot

/-- The reader of JSON fails at a character that only Go escapes. -/
theorem unescapeFrom_escapedRune (h : IsChar c) (hnot : ¬ Shared table c) (rest : GoString) :
    unescapeFrom 0 (escapedRune table c ++ rest) = none := by
  rcases @escapedRune_cases table c h with ⟨hr, -⟩ | ⟨-, hshared, -⟩ | ⟨x, y, -, -, -, -, -, hshared⟩ |
    ⟨-, -, hshared⟩ | ⟨x, n, heq, hx, -, hnone, -⟩
  · exact absurd (shared_of_quote_or_backslash hr) hnot
  · exact absurd hshared hnot
  · exact absurd hshared hnot
  · exact absurd hshared hnot
  · rw [heq]
    simp [unescapeFrom, hx, hnone]

/-- Between quotes, whatever Go writes for a character is passed as a whole. -/
theorem lexString_escapedRune (h : IsChar c) (rest : GoString) :
    lexString false (escapedRune table c ++ rest) =
      (lexString false rest).map fun rs => (escapedRune table c ++ rs.1, rs.2) := by
  by_cases hshared : Shared table c
  · exact (spells_escapedRune h hshared).lex rest
  rcases @escapedRune_cases table c h with ⟨hr, -⟩ | ⟨-, hin, -⟩ | ⟨x, y, -, -, -, -, -, hin⟩ |
    ⟨-, -, hin⟩ | ⟨x, n, heq, -, -, -, -⟩
  · exact absurd (shared_of_quote_or_backslash hr) hshared
  · exact absurd hin hshared
  · exact absurd hin hshared
  · exact absurd hin hshared
  · have hdigits := (spells_of_plain (isPlain_hexDigits n (runeValue c))).lex rest
    rw [heq, List.cons_append, List.cons_append, lexString_backslash, hdigits, Option.map_map]
    simp [Function.comp_def]

theorem le_of_isPlain {b : UInt8} (h : isPlain b = true) : 32 ≤ b ∧ b ≠ 34 := by
  simp only [isPlain, Bool.and_eq_true, decide_eq_true_eq, bne_iff_ne] at h
  exact h.1

/-- What Go writes for a character has no control characters, does not start with a quote, and ends
with one for the quote itself only. -/
theorem escapedRune_bytes (h : IsChar c) :
    (∀ b ∈ escapedRune table c, 32 ≤ b) ∧
      (∃ b t, escapedRune table c = b :: t ∧ b ≠ 34) ∧
      (c ≠ [34] → ∃ t b, escapedRune table c = t ++ [b] ∧ b ≠ 34) := by
  have hdigits (n r : ℕ) : ∀ b ∈ hexDigits n r, 32 ≤ b :=
    fun b hb => (le_of_isPlain (isPlain_hexDigits n r b hb)).1
  have hlast {x : UInt8} (hx : isPlain x = true) (n r : ℕ) :
      ∃ t b, (92 :: x :: hexDigits n r : GoString) = t ++ [b] ∧ b ≠ 34 := by
    cases n with
    | zero => exact ⟨[92], x, rfl, (le_of_isPlain hx).2⟩
    | succ n =>
        exact ⟨92 :: x :: hexDigits n (r / 16), _, rfl,
          (le_of_isPlain (isPlain_hexDigit (Nat.mod_lt _ (by decide)))).2⟩
  rcases @escapedRune_cases table c h with ⟨hr, heq⟩ | ⟨heq, -, hplain⟩ |
    ⟨x, y, heq, -, hx, -⟩ | ⟨heq, -⟩ | ⟨x, n, heq, -, hx, -⟩
  · rw [heq]
    rcases eq_of_quote_or_backslash h hr with rfl | rfl
    · exact ⟨Strings.forall_mem_of_all (by decide), ⟨92, [34], rfl, by decide⟩, fun hne => absurd rfl hne⟩
    · exact ⟨Strings.forall_mem_of_all (by decide), ⟨92, [92], rfl, by decide⟩, fun _ => ⟨[92], 92, rfl, by decide⟩⟩
  · rw [heq]
    obtain ⟨b, t, hc⟩ := List.exists_cons_of_ne_nil h.1
    refine ⟨fun b hb => (le_of_isPlain (hplain b hb)).1, ⟨b, t, hc, ?_⟩, fun _ => ?_⟩
    · exact (le_of_isPlain (hplain b (hc ▸ List.mem_cons_self))).2
    · obtain ⟨t, b, hc⟩ := List.eq_nil_or_concat c |>.resolve_left h.1
      rw [List.concat_eq_append] at hc
      exact ⟨t, b, hc, (le_of_isPlain (hplain b (hc ▸ List.mem_append_right _ List.mem_cons_self))).2⟩
  · rw [heq]
    refine ⟨?_, ⟨92, [x], rfl, by decide⟩, fun _ => ⟨[92], x, rfl, (le_of_isPlain hx).2⟩⟩
    simpa using (le_of_isPlain hx).1
  · rw [heq]
    refine ⟨?_, ⟨92, _, rfl, by decide⟩, fun _ => hlast (by decide) 4 _⟩
    simpa using hdigits 4 (runeValue c)
  · rw [heq]
    refine ⟨?_, ⟨92, _, rfl, by decide⟩, fun _ => hlast hx n _⟩
    simpa [(le_of_isPlain hx).1] using hdigits n (runeValue c)

end

/-! ### Texts -/

section

variable {table : PrintTable} {cs : List GoString} (h : ∀ c ∈ cs, IsChar c)

include h

theorem lexString_quoted (rest : GoString) :
    lexString false (cs.flatMap (escapedRune table) ++ rest) =
      (lexString false rest).map fun rs => (cs.flatMap (escapedRune table) ++ rs.1, rs.2) := by
  induction cs with
  | nil => simp
  | cons c cs ih =>
      rw [List.flatMap_cons, List.append_assoc, lexString_escapedRune (h c List.mem_cons_self),
        ih fun c hc => h c (List.mem_cons_of_mem _ hc), Option.map_map]
      simp [Function.comp_def]

theorem spells_quoted (hshared : ∀ c ∈ cs, Shared table c) :
    Spells (cs.flatMap (escapedRune table)) cs.flatten := by
  simpa using Spells.flatMap (g := fun c => c) fun c hc =>
    spells_escapedRune (h c hc) (hshared c hc)

theorem unquote_quoted_eq_none (hnot : ¬ ∀ c ∈ cs, Shared table c) :
    unquote (cs.flatMap (escapedRune table)) = none := by
  suffices unescapeFrom 0 (cs.flatMap (escapedRune table)) = none by simp [unquote, this]
  induction cs with
  | nil => simp at hnot
  | cons c cs ih =>
      rw [List.flatMap_cons]
      by_cases hc : Shared table c
      · rw [(spells_escapedRune (h c List.mem_cons_self) hc).unescape,
          ih (fun c hc => h c (List.mem_cons_of_mem _ hc)) fun hall => hnot (by simpa [hc] using hall)]
        rfl
      · exact unescapeFrom_escapedRune (h c List.mem_cons_self) hc _

theorem le_of_mem_quoted : ∀ b ∈ cs.flatMap (escapedRune table), 32 ≤ b := by
  intro b hb
  obtain ⟨c, hc, hb⟩ := List.mem_flatMap.1 hb
  exact (escapedRune_bytes (h c hc)).1 b hb

theorem quoted_head (hne : cs ≠ []) :
    ∃ b t, cs.flatMap (escapedRune table) = b :: t ∧ b ≠ 34 := by
  obtain ⟨c, cs, rfl⟩ := List.exists_cons_of_ne_nil hne
  obtain ⟨-, ⟨b, t, heq, hb⟩, -⟩ := @escapedRune_bytes table c (h c List.mem_cons_self)
  exact ⟨b, t ++ cs.flatMap (escapedRune table), by simp [heq], hb⟩

end

end Higress.Lib
