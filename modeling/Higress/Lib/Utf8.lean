import Higress.Lib.Json

/-!
The characters of a text of bytes. A text is UTF-8 when it is the concatenation
of encodings of characters; there is at most one way to read it so.
-/

namespace Higress.Lib.Utf8

/-- The characters of a text, if it is UTF-8 (`String::from_utf8`, `chars`). -/
def chars (s : GoString) : Option (List GoString) :=
  match s with
  | [] => some []
  | b :: t =>
      match Json.runeLen (b :: t) with
      | 0 => none
      | n + 1 => (chars (t.drop n)).map fun cs => (b :: t.take n) :: cs
termination_by s.length
decreasing_by
  rw [List.length_drop, List.length_cons]
  omega

/-- The encoding of one character. -/
def IsChar (c : GoString) : Prop := c ≠ [] ∧ Json.runeLen c = c.length

/-- A text that is UTF-8. -/
def IsUtf8 (s : GoString) : Prop := ∃ cs, chars s = some cs

instance (s : GoString) : Decidable (IsUtf8 s) :=
  decidable_of_iff ((chars s).isSome = true) Option.isSome_iff_exists

/-- A character does not depend on what follows it. -/
theorem runeLen_take {s : GoString} {n : ℕ} (h : Json.runeLen s = n) (hn : n ≠ 0) :
    Json.runeLen (s.take n) = n := by
  match s with
  | [] => simp [Json.runeLen] at h; omega
  | [b] =>
      have hle : n ≤ 1 := h ▸ Json.runeLen_le_length [b]
      obtain rfl : n = 1 := by omega
      simpa using h
  | [b, c] =>
      simp only [Json.runeLen] at h
      grind [Json.runeLen]
  | [b, c, d] =>
      simp only [Json.runeLen] at h
      grind [Json.runeLen]
  | b :: c :: d :: e :: s =>
      simp only [Json.runeLen] at h
      grind [Json.runeLen]

theorem IsChar.take {s : GoString} (h : Json.runeLen s ≠ 0) : IsChar (s.take (Json.runeLen s)) := by
  have hlen := Json.runeLen_le_length s
  have hs : s ≠ [] := by
    rintro rfl
    simp [Json.runeLen] at h
  refine ⟨by simp [h, hs], ?_⟩
  rw [runeLen_take rfl h, List.length_take]
  omega

theorem chars_cons {c : GoString} (hc : IsChar c) (s : GoString) :
    chars (c ++ s) = (chars s).map (c :: ·) := by
  obtain ⟨hne, hlen⟩ := hc
  cases c with
  | nil => exact absurd rfl hne
  | cons b t =>
      have hrune : Json.runeLen (b :: (t ++ s)) = t.length + 1 := by
        rw [← List.cons_append, Json.runeLen_append (by simp [hlen]), hlen, List.length_cons]
      rw [List.cons_append, chars, hrune]
      simp

/-- Reading a text and joining its characters are inverse to each other. -/
theorem chars_eq_some_iff {s : GoString} {cs : List GoString} :
    chars s = some cs ↔ cs.flatten = s ∧ ∀ c ∈ cs, IsChar c := by
  constructor
  · fun_induction chars s generalizing cs with
    | case1 =>
        rintro h
        obtain rfl : [] = cs := Option.some.inj h
        simp
    | case2 b t hrune => simp
    | case3 b t n hrune ih =>
        intro h
        obtain ⟨ds, hds, rfl⟩ := Option.map_eq_some_iff.mp h
        obtain ⟨hflat, hall⟩ := ih hds
        refine ⟨by simp [hflat], ?_⟩
        intro c hc
        rcases List.mem_cons.mp hc with rfl | hc
        · have := IsChar.take (s := b :: t) (by omega)
          rwa [hrune, List.take_succ_cons] at this
        · exact hall c hc
  · rintro ⟨rfl, hall⟩
    induction cs with
    | nil => simp [chars]
    | cons c cs ih =>
        rw [List.flatten_cons, chars_cons (hall c (by simp)),
          ih fun d hd => hall d (List.mem_cons_of_mem c hd)]
        rfl

theorem isUtf8_iff {s : GoString} : IsUtf8 s ↔ ∃ cs : List GoString, cs.flatten = s ∧
    ∀ c ∈ cs, IsChar c := by
  simp only [IsUtf8, chars_eq_some_iff]

theorem isUtf8_nil : IsUtf8 [] := ⟨[], by simp [chars]⟩

theorem chars_append {s t : GoString} {cs ds : List GoString} (hs : chars s = some cs)
    (ht : chars t = some ds) : chars (s ++ t) = some (cs ++ ds) := by
  rw [chars_eq_some_iff] at hs ht ⊢
  refine ⟨by rw [List.flatten_append, hs.1, ht.1], ?_⟩
  intro c hc
  rcases List.mem_append.mp hc with hc | hc
  · exact hs.2 c hc
  · exact ht.2 c hc

theorem IsUtf8.append {s t : GoString} (hs : IsUtf8 s) (ht : IsUtf8 t) : IsUtf8 (s ++ t) := by
  obtain ⟨cs, hs⟩ := hs
  obtain ⟨ds, ht⟩ := ht
  exact ⟨cs ++ ds, chars_append hs ht⟩

theorem isUtf8_flatten_of_sublist {s : GoString} {cs ds : List GoString} (h : chars s = some cs)
    (hsub : ds.Sublist cs) : IsUtf8 ds.flatten :=
  ⟨ds, chars_eq_some_iff.mpr ⟨rfl, fun c hc => (chars_eq_some_iff.mp h).2 c (hsub.subset hc)⟩⟩

/-- A character is a first byte and continuation bytes. -/
theorem IsChar.tail {c : GoString} (h : IsChar c) :
    ∃ b t, c = b :: t ∧ Json.isTail b = false ∧ ∀ x ∈ t, Json.isTail x = true := by
  obtain ⟨hne, hlen⟩ := h
  have hfirst : ∀ b : UInt8, 0xC2 ≤ b → Json.isTail b = false := by
    intro b hb
    have : ¬ b ≤ 0xBF := by
      rw [UInt8.not_le]
      exact UInt8.lt_of_lt_of_le (by decide) hb
    simp [Json.isTail, this]
  have hsecond : ∀ b c : UInt8, Json.isSecond b c = true → Json.isTail c = true := by
    intro b c h
    simp only [Json.isSecond, Bool.and_eq_true] at h
    exact h.1.1.1.1
  have hlead : ∀ b k : UInt8, k ≤ b → 0xC2 ≤ k → Json.isTail b = false :=
    fun b k hb hk => hfirst b (UInt8.le_trans hk hb)
  rcases c with _ | ⟨b, _ | ⟨c, _ | ⟨d, _ | ⟨e, _ | ⟨f, s⟩⟩⟩⟩⟩
  · exact absurd rfl hne
  · by_cases hb : b < 0x80
    · exact ⟨b, [], rfl, Json.isTail_ascii hb, by simp⟩
    · simp [Json.runeLen, hb] at hlen
  · simp only [Json.runeLen, List.length_cons, List.length_nil] at hlen
    grind
  · simp only [Json.runeLen, List.length_cons, List.length_nil] at hlen
    grind
  · simp only [Json.runeLen, List.length_cons, List.length_nil] at hlen
    grind
  · simp only [Json.runeLen, List.length_cons] at hlen
    grind

/-- A text does not start inside a character. -/
def Starts (s : GoString) : Prop := ∀ b ∈ s.head?, Json.isTail b = false

theorem IsUtf8.starts {s : GoString} (h : IsUtf8 s) : Starts s := by
  obtain ⟨cs, hcs⟩ := h
  obtain ⟨rfl, hall⟩ := chars_eq_some_iff.mp hcs
  cases cs with
  | nil => simp [Starts]
  | cons c cs =>
      obtain ⟨b, t, rfl, hb, -⟩ := (hall c (by simp)).tail
      simpa [Starts] using hb

/-- A text that starts with a whole character can be cut there. -/
theorem isUtf8_of_append_left {s t : GoString} (hs : IsUtf8 s) (h : IsUtf8 (s ++ t)) : IsUtf8 t := by
  obtain ⟨cs, hcs⟩ := hs
  obtain ⟨rfl, hall⟩ := chars_eq_some_iff.mp hcs
  clear hcs
  induction cs with
  | nil => simpa using h
  | cons c cs ih =>
      obtain ⟨ds, hds⟩ := h
      rw [List.flatten_cons, List.append_assoc, chars_cons (hall c (by simp))] at hds
      obtain ⟨es, hes, -⟩ := Option.map_eq_some_iff.mp hds
      exact ih (fun d hd => hall d (List.mem_cons_of_mem c hd)) ⟨es, hes⟩

/-- What stands before a character is a whole number of characters. -/
theorem isUtf8_of_append_right {s t : GoString} (h : IsUtf8 (s ++ t)) (ht : Starts t) : IsUtf8 s := by
  obtain ⟨cs, hcs⟩ := h
  obtain ⟨hflat, hall⟩ := chars_eq_some_iff.mp hcs
  clear hcs
  induction cs generalizing s with
  | nil =>
      obtain rfl : s = [] := (List.append_eq_nil_iff.mp hflat.symm).1
      exact isUtf8_nil
  | cons c cs ih =>
      obtain ⟨b, u, rfl, hb, hu⟩ := (hall c (by simp)).tail
      cases s with
      | nil => exact isUtf8_nil
      | cons b' s =>
          rw [List.flatten_cons, List.cons_append, List.cons_append, List.cons.injEq] at hflat
          obtain ⟨rfl, hflat⟩ := hflat
          rcases List.append_eq_append_iff.mp hflat with ⟨s', rfl, hrest⟩ | ⟨t', rfl, hrest⟩
          · have hs' := ih hrest fun d hd => hall d (List.mem_cons_of_mem _ hd)
            obtain ⟨ds, hds⟩ := hs'
            exact ⟨_, (chars_cons (hall (b :: u) (by simp)) s').trans (by rw [hds]; rfl)⟩
          · cases t' with
            | nil =>
                rw [List.append_nil] at hall
                exact ⟨[b :: s], chars_eq_some_iff.mpr ⟨by simp, by simpa using hall (b :: s) (by simp)⟩⟩
            | cons x t' =>
                -- The cut would be inside the first character.
                have hx := hu x (by simp)
                rw [hrest] at ht
                simp [Starts, hx] at ht

/-- The number of bytes of an encoding that is cut short, at the head of a text
that does not start with a character. -/
def brokenLen : GoString → ℕ
  | b :: c :: s =>
      if 0xE0 ≤ b ∧ b ≤ 0xF4 ∧ Json.isSecond b c then
        match s with
        | d :: _ => if 0xF0 ≤ b ∧ Json.isTail d then 3 else 2
        | [] => 2
      else 1
  | _ => 1

/-- `String::from_utf8_lossy`: every broken encoding becomes one U+FFFD. -/
def lossy (s : GoString) : GoString :=
  match s with
  | [] => []
  | b :: t =>
      match Json.runeLen (b :: t) with
      | 0 => 0xEF :: 0xBF :: 0xBD :: lossy (t.drop (brokenLen (b :: t) - 1))
      | n + 1 => b :: t.take n ++ lossy (t.drop n)
termination_by s.length
decreasing_by
  all_goals
    rw [List.length_drop, List.length_cons]
    omega

theorem isUtf8_lossy (s : GoString) : IsUtf8 (lossy s) := by
  fun_induction lossy s with
  | case1 => exact isUtf8_nil
  | case2 b t hrune ih =>
      have hchar : IsChar [0xEF, 0xBF, 0xBD] := ⟨by simp, by decide⟩
      obtain ⟨cs, hcs⟩ := ih
      exact ⟨_, (chars_cons hchar _).trans (by rw [hcs]; rfl)⟩
  | case3 b t n hrune ih =>
      have hchar := IsChar.take (s := b :: t) (by omega)
      rw [hrune, List.take_succ_cons] at hchar
      obtain ⟨cs, hcs⟩ := ih
      exact ⟨_, (chars_cons hchar _).trans (by rw [hcs]; rfl)⟩

theorem lossy_of_isUtf8 {s : GoString} (h : IsUtf8 s) : lossy s = s := by
  fun_induction lossy s with
  | case1 => rfl
  | case2 b t hrune ih =>
      obtain ⟨cs, hcs⟩ := h
      rw [chars, hrune] at hcs
      simp at hcs
  | case3 b t n hrune ih =>
      obtain ⟨cs, hcs⟩ := h
      rw [chars, hrune] at hcs
      obtain ⟨ds, hds, -⟩ := Option.map_eq_some_iff.mp hcs
      rw [ih ⟨ds, hds⟩, List.cons_append, List.take_append_drop]

end Higress.Lib.Utf8
