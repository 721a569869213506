import Mathlib
import Higress.Mcp.Classification

/-!
The lexer of `classification.go` and the grammar of JSON. The lexer accepts a
body as legacy exactly when it is the text of a syntax tree that has no
reserved name at `params._meta`, and it answers modern exactly when the body
starts like such a text and goes on to a reserved name there.
-/

namespace Higress.Mcp.Classification

open Higress.Lib Higress.Lib.JsonText

/-! ### Tokens and the grammar -/

theorem skip_append (w : Space) (s : GoString) :
    skipClassificationWhitespace (w.1 ++ s) = skipClassificationWhitespace s := by
  obtain ⟨w, hw⟩ := w
  induction w with
  | nil => rfl
  | cons b w ih =>
      rw [skipClassificationWhitespace, List.cons_append,
        List.dropWhile_cons_of_pos (hw b List.mem_cons_self)]
      exact ih fun c hc => hw c (List.mem_cons_of_mem _ hc)

theorem exists_skip (s : GoString) :
    ∃ w : Space, s = w.1 ++ skipClassificationWhitespace s :=
  ⟨⟨s.takeWhile Json.isSpace, fun _ hb => List.mem_takeWhile_imp hb⟩,
    List.takeWhile_append_dropWhile.symm⟩

theorem skip_cons {b : UInt8} (hb : Json.isSpace b = false) (s : GoString) :
    skipClassificationWhitespace (b :: s) = b :: s := by
  simp [skipClassificationWhitespace, hb]

/-- The targets after the pieces of a key have been compared. -/
def comparePieces : List Target → ℕ → List Piece → List Target
  | targets, _, [] => targets
  | targets, n, p :: ps => comparePieces (targets.map (Target.compare n p.ascii)) (n + 1) ps

theorem scanString_piece (targets : List Target) (n : ℕ) (p : Piece) (s : GoString) :
    scanString targets n (p.render ++ s) =
      scanString (targets.map (Target.compare n p.ascii)) (n + 1) s := by
  rw [scanString.eq_def]
  cases p with
  | plain b h =>
      have hlt : ¬b < 0x20 := by simpa using h.1
      simp only [Piece.render, List.singleton_append, if_neg h.2.1, if_neg h.2.2, if_neg hlt]
      rfl
  | short c x h =>
      have hu : c ≠ 117 := by
        rintro rfl
        simp [Json.simpleEscape] at h
      simp [Piece.render, hu, h, Piece.ascii]
  | unicode a b c d r h => simp [Piece.render, scanClassificationHex, h, Piece.ascii]

theorem scanString_pieces (targets : List Target) (n : ℕ) (ps : List Piece) (rest : GoString) :
    scanString targets n (renderPieces ps ++ 34 :: rest) =
      some (rest, targetKey (comparePieces targets n ps) (n + ps.length)) := by
  induction ps generalizing targets n with
  | nil =>
      rw [scanString.eq_def]
      simp [renderPieces, comparePieces]
  | cons p ps ih =>
      rw [renderPieces, List.flatMap_cons, List.append_assoc, scanString_piece, ← renderPieces,
        ih, comparePieces, List.length_cons, Nat.add_right_comm, Nat.add_assoc]

theorem exists_pieces {targets : List Target} {n : ℕ} {s rest : GoString}
    {key : ClassificationKey} (h : scanString targets n s = some (rest, key)) :
    ∃ ps, s = renderPieces ps ++ 34 :: rest := by
  have hcons : ∀ (p : Piece) (s : GoString), (∃ ps, s = renderPieces ps ++ 34 :: rest) →
      ∃ ps, p.render ++ s = renderPieces ps ++ 34 :: rest := by
    rintro p _ ⟨ps, rfl⟩
    exact ⟨p :: ps, by simp [renderPieces]⟩
  fun_induction scanString targets n s with
  | case2 targets n s =>
      obtain ⟨rfl, -⟩ : s = rest ∧ _ := by simpa using h
      exact ⟨[], rfl⟩
  | case5 targets n a b c d s r hr decoded hne ih => exact hcons (.unicode a b c d r hr) s (ih h)
  | case8 targets n c s hc x hx hne ih => exact hcons (.short c x hx) s (ih h)
  | case10 targets n b s hq hb hlt decoded ih =>
      exact hcons (.plain b ⟨by simpa using hlt, hq, hb⟩) s (ih h)
  | _ => simp at h

/-- One character of the comparison, seen from the rest of the target. -/
theorem compare_eq (n : ℕ) (c : Option UInt8) (t : Target) :
    Target.compare n c t =
      { t with alive := t.alive && [c].isPrefixOf ((t.text.drop n).map some) } := by
  by_cases hn : n < t.text.length
  · rw [List.drop_eq_getElem_cons hn, List.map_cons, List.isPrefixOf_cons_cons,
      List.isPrefixOf_nil_left, Bool.and_true]
    cases c with
    | none => simp [Target.compare]
    | some c =>
        rw [Target.compare, List.getElem?_eq_getElem hn, BEq.comm]
  · rw [List.drop_eq_nil_of_le (by omega), List.map_nil]
    cases c <;> simp [Target.compare, hn, List.isPrefixOf]

theorem comparePieces_eq (targets : List Target) (n : ℕ) (ps : List Piece) :
    comparePieces targets n ps = targets.map fun t =>
      { t with alive := t.alive && (ps.map Piece.ascii).isPrefixOf ((t.text.drop n).map some) } := by
  induction ps generalizing targets n with
  | nil => simp [comparePieces]
  | cons p ps ih =>
      rw [comparePieces, ih, List.map_map]
      apply List.map_congr_left
      intro t _
      rw [Function.comp_apply, compare_eq]
      by_cases hn : n < t.text.length
      · rw [List.drop_eq_getElem_cons hn]
        simp only [List.map_cons, List.isPrefixOf_cons_cons, List.isPrefixOf_nil_left,
          Bool.and_true, Bool.and_assoc]
      · rw [List.drop_eq_nil_of_le (by omega)]
        simp

/-- The key that a name is in an object at a path. -/
def keyOf (path : ClassificationPath) (ps : List Piece) : ClassificationKey :=
  match (classificationTargets path).find? fun t => Spells ps t.text with
  | some t => t.key
  | none => .other

theorem spells_iff {ps : List Piece} {name : GoString} :
    Spells ps name ↔
      (ps.map Piece.ascii).isPrefixOf (name.map some) = true ∧ ps.length = name.length := by
  rw [Spells, List.isPrefixOf_iff_prefix]
  constructor
  · intro h
    exact ⟨h ▸ List.prefix_rfl, by simpa using congrArg List.length h⟩
  · rintro ⟨hp, hlen⟩
    exact hp.eq_of_length (by simpa using hlen)

theorem scanClassificationString_pieces (path : ClassificationPath) (ps : List Piece)
    (rest : GoString) :
    scanClassificationString (renderPieces ps ++ 34 :: rest) path =
      some (rest, keyOf path ps) := by
  rw [scanClassificationString, scanString_pieces, comparePieces_eq, targetKey, keyOf,
    List.find?_map]
  have halive : ∀ t ∈ classificationTargets path, t.alive = true := by
    cases path <;> simp [classificationTargets]
  have hsame : ∀ t ∈ classificationTargets path,
      (t.alive && (ps.map Piece.ascii).isPrefixOf ((t.text.drop 0).map some) &&
        0 + ps.length == t.text.length) = decide (Spells ps t.text) := by
    intro t ht
    rw [Bool.eq_iff_iff, decide_eq_true_iff, spells_iff]
    simp [halive t ht]
  have hfind := List.find?_congr hsame
  simp only [Function.comp_def]
  rw [hfind]
  cases (classificationTargets path).find? fun t => decide (Spells ps t.text) <;> rfl

/-- The names that make a request modern. -/
def reservedNames : List GoString := [metaProtocolVersion, metaClientCapabilities, metaClientInfo]

def IsReserved (ps : List Piece) : Prop := ∃ name ∈ reservedNames, Spells ps name

instance (ps : List Piece) : Decidable (IsReserved ps) :=
  inferInstanceAs (Decidable (∃ name ∈ reservedNames, Spells ps name))

/-- The path of the value of a member of an object at a path. -/
def childPath (path : ClassificationPath) (ps : List Piece) : ClassificationPath :=
  match path with
  | .root => if Spells ps (bytes "params") then .params else .other
  | .params => if Spells ps (bytes "_meta") then .metadata else .other
  | _ => .other

theorem keyOf_root (ps : List Piece) :
    keyOf .root ps = if Spells ps (bytes "params") then .params else .other := by
  rw [keyOf, classificationTargets, List.find?_cons]
  by_cases h : Spells ps (bytes "params") <;> simp [h]

theorem keyOf_params (ps : List Piece) :
    keyOf .params ps = if Spells ps (bytes "_meta") then .metadata else .other := by
  rw [keyOf, classificationTargets, List.find?_cons]
  by_cases h : Spells ps (bytes "_meta") <;> simp [h]

theorem keyOf_metadata (ps : List Piece) :
    keyOf .metadata ps = if IsReserved ps then .modern else .other := by
  rw [keyOf]
  cases hfind : (classificationTargets .metadata).find? fun t => decide (Spells ps t.text) with
  | none =>
      rw [if_neg]
      simpa [classificationTargets, reservedNames, IsReserved] using hfind
  | some t =>
      have hmem := List.mem_of_find?_eq_some hfind
      have hsp : Spells ps t.text := by simpa using List.find?_some hfind
      have ht : t.key = .modern ∧ t.text ∈ reservedNames := by
        simp only [classificationTargets, List.mem_cons, List.not_mem_nil, or_false] at hmem
        rcases hmem with rfl | rfl | rfl <;> simp [reservedNames]
      rw [if_pos ⟨t.text, ht.2, hsp⟩]
      exact ht.1

theorem keyOf_eq_modern {path : ClassificationPath} {ps : List Piece} :
    keyOf path ps = .modern ↔ path = .metadata ∧ IsReserved ps := by
  cases path with
  | metadata => simp [keyOf_metadata]
  | root =>
      rw [keyOf_root]
      split <;> simp
  | params =>
      rw [keyOf_params]
      split <;> simp
  | other => simp [keyOf, classificationTargets]

theorem pendingPath_keyOf (path : ClassificationPath) (ps : List Piece) :
    pendingPath (keyOf path ps) = childPath path ps := by
  cases path with
  | metadata =>
      rw [keyOf_metadata]
      split <;> rfl
  | root =>
      rw [keyOf_root, childPath]
      split <;> rfl
  | params =>
      rw [keyOf_params, childPath]
      split <;> rfl
  | other => rfl

/-! ### Numbers -/

/-- The text does not go on with a digit. -/
def NoDigit (s : GoString) : Prop := ∀ b ∈ s.head?, Json.isDigit b = false

theorem exists_digits {s r : GoString} (h : consumeDigits s = some r) :
    ∃ ds, s = ds ++ r ∧ Digits ds := by
  rw [consumeDigits] at h
  split at h
  · simp at h
  · rename_i hne
    obtain rfl := Option.some.inj h
    refine ⟨s.takeWhile Json.isDigit, List.takeWhile_append_dropWhile.symm, ?_, ?_⟩
    · simpa using hne
    · exact fun b hb => List.mem_takeWhile_imp hb

theorem consumeDigits_append {ds r : GoString} (h : Digits ds) (hr : NoDigit r) :
    consumeDigits (ds ++ r) = some r := by
  obtain ⟨htake, hdrop⟩ := @Json.takeWhile_append_of_head _ _ ds r hr
  have hall : ds.takeWhile Json.isDigit = ds := List.takeWhile_eq_self_iff.mpr h.2
  have hnone : ds.dropWhile Json.isDigit = [] := List.dropWhile_eq_nil_iff.mpr h.2
  rw [consumeDigits, htake, hdrop, hall, hnone, List.nil_append, if_neg]
  simpa using h.1

theorem exists_int {s r : GoString} (h : consumeInt s = some r) :
    ∃ int, s = int ++ r ∧ IsInt int := by
  cases s with
  | nil => simp [consumeInt] at h
  | cons b s =>
      rw [consumeInt] at h
      split at h
      · rename_i hb
        obtain rfl := Option.some.inj h
        exact ⟨[48], by simp [hb], Or.inl rfl⟩
      · rename_i hb
        split at h
        · simp at h
        · rename_i hrange
          obtain rfl := Option.some.inj h
          have hd : Json.isDigit b = true := by
            rw [not_or] at hrange
            have h49 : (49 : UInt8) ≤ b := by simpa using hrange.1
            have h57 : b ≤ 57 := by simpa using hrange.2
            have h48 : (48 : UInt8) ≤ b := UInt8.le_trans (by decide) h49
            simp [Json.isDigit, h48, h57]
          refine ⟨(b :: s).takeWhile Json.isDigit, List.takeWhile_append_dropWhile.symm,
            Or.inr ⟨⟨?_, fun c hc => List.mem_takeWhile_imp hc⟩, ?_⟩⟩
          · simp [hd]
          · simp [hd, hb]

theorem consumeInt_append {int r : GoString} (h : IsInt int) (hr : NoDigit r) :
    consumeInt (int ++ r) = some r := by
  rcases h with rfl | ⟨hd, hhead⟩
  · rfl
  · cases int with
    | nil => exact absurd rfl hd.1
    | cons b int =>
        have hb : b ≠ 48 := by simpa using hhead
        have hdig : Json.isDigit b = true := hd.2 b List.mem_cons_self
        have hrange : ¬(b < 49 ∨ b > 57) := by
          rw [Json.isDigit, Bool.and_eq_true, decide_eq_true_iff, decide_eq_true_iff,
            UInt8.le_iff_toNat_le, UInt8.le_iff_toNat_le] at hdig
          rw [gt_iff_lt, UInt8.lt_iff_toNat_lt, UInt8.lt_iff_toNat_lt]
          rw [Ne, ← UInt8.toNat_inj] at hb
          simp only [UInt8.reduceToNat] at hdig hb ⊢
          omega
        rw [List.cons_append, consumeInt, if_neg hb, if_neg hrange, ← List.cons_append]
        obtain ⟨-, hdrop⟩ := @Json.takeWhile_append_of_head _ _ (b :: int) r hr
        rw [hdrop, List.dropWhile_eq_nil_iff.mpr hd.2, List.nil_append]

theorem exists_fraction {s r : GoString} (h : consumeFraction s = some r) :
    ∃ frac, s = frac ++ r ∧ IsFrac frac := by
  cases s with
  | nil =>
      obtain rfl : [] = r := by simpa [consumeFraction] using h
      exact ⟨[], rfl, Or.inl rfl⟩
  | cons b s =>
      rw [consumeFraction] at h
      split at h
      · rename_i hb
        obtain ⟨ds, rfl, hds⟩ := exists_digits h
        exact ⟨b :: ds, rfl, Or.inr ⟨ds, by rw [hb], hds⟩⟩
      · obtain rfl := Option.some.inj h
        exact ⟨[], rfl, Or.inl rfl⟩

theorem consumeFraction_append {frac r : GoString} (h : IsFrac frac) (hr : NoDigit r)
    (hdot : ∀ b ∈ r.head?, b ≠ 46) : consumeFraction (frac ++ r) = some r := by
  rcases h with rfl | ⟨ds, rfl, hds⟩
  · cases r with
    | nil => rfl
    | cons b r => exact if_neg (hdot b rfl)
  · exact consumeDigits_append hds hr

theorem exists_sign (s : GoString) :
    ∃ sign, s = sign ++ consumeSign s ∧ (sign = [] ∨ sign = [43] ∨ sign = [45]) := by
  cases s with
  | nil => exact ⟨[], rfl, Or.inl rfl⟩
  | cons b s =>
      rw [consumeSign]
      split
      · rename_i hb
        exact ⟨[b], rfl, by simpa using hb⟩
      · exact ⟨[], rfl, Or.inl rfl⟩

theorem exists_exponent {s r : GoString} (h : consumeExponent s = some r) :
    ∃ exp, s = exp ++ r ∧ IsExp exp := by
  cases s with
  | nil =>
      obtain rfl : [] = r := by simpa [consumeExponent] using h
      exact ⟨[], rfl, Or.inl rfl⟩
  | cons b s =>
      rw [consumeExponent] at h
      split at h
      · rename_i hb
        obtain ⟨sign, hs, hsign⟩ := exists_sign s
        obtain ⟨ds, hr, hds⟩ := exists_digits h
        refine ⟨b :: (sign ++ ds), ?_, Or.inr ⟨b, sign, ds, rfl, hb, hsign, hds⟩⟩
        rw [List.cons_append, List.append_assoc, ← hr, ← hs]
      · obtain rfl := Option.some.inj h
        exact ⟨[], rfl, Or.inl rfl⟩

theorem consumeExponent_append {exp r : GoString} (h : IsExp exp) (hr : NoDigit r)
    (he : ∀ b ∈ r.head?, b ≠ 101 ∧ b ≠ 69) : consumeExponent (exp ++ r) = some r := by
  rcases h with rfl | ⟨e, sign, ds, rfl, hexp, hsign, hds⟩
  · cases r with
    | nil => rfl
    | cons b r =>
        have := he b rfl
        simp [consumeExponent, this]
  · have hskip : consumeSign (sign ++ ds ++ r) = ds ++ r := by
      obtain ⟨d, ds', rfl⟩ := List.exists_cons_of_ne_nil hds.1
      have hd := hds.2 d List.mem_cons_self
      have hne : ¬(d = 43 ∨ d = 45) := by
        rintro (rfl | rfl) <;> exact absurd hd (by decide)
      rcases hsign with rfl | rfl | rfl
      · exact if_neg hne
      · rfl
      · rfl
    rw [List.cons_append, consumeExponent, if_pos hexp, hskip]
    exact consumeDigits_append hds hr

theorem exists_minus (s : GoString) :
    ∃ minus, s = minus ++ consumeMinus s ∧ (minus = [] ∨ minus = [45]) := by
  cases s with
  | nil => exact ⟨[], rfl, Or.inl rfl⟩
  | cons b s =>
      rw [consumeMinus]
      split
      · rename_i hb
        exact ⟨[b], rfl, by simpa using hb⟩
      · exact ⟨[], rfl, Or.inl rfl⟩

theorem exists_number {s r : GoString} (h : consumeClassificationNumber s = some r) :
    ∃ num, s = num ++ r ∧ IsNumber num := by
  rw [consumeClassificationNumber, Option.bind_eq_bind, Option.bind_eq_some_iff] at h
  obtain ⟨s₁, hint, h⟩ := h
  obtain ⟨s₂, hfrac, hexp⟩ := Option.bind_eq_some_iff.mp h
  obtain ⟨minus, hs, hminus⟩ := exists_minus s
  obtain ⟨int, hs₀, hint⟩ := exists_int hint
  obtain ⟨frac, hs₁, hfrac⟩ := exists_fraction hfrac
  obtain ⟨exp, hs₂, hexp⟩ := exists_exponent hexp
  refine ⟨minus ++ (int ++ (frac ++ exp)), ?_, minus, int, frac, exp, rfl, hminus, hint, hfrac,
    hexp⟩
  rw [hs, hs₀, hs₁, hs₂]
  simp

/-- A number is passed up to where its text stops. -/
theorem consumeNumber_append {num r : GoString} (h : IsNumber num) (hr : Json.Stops r) :
    consumeClassificationNumber (num ++ r) = some r := by
  obtain ⟨minus, int, frac, exp, rfl, hminus, hint, hfrac, hexp⟩ := h
  have hr₀ : NoDigit r := fun b hb => (hr b hb).1
  -- the part behind each piece starts with the mark of a later piece or is `r`
  have hr₁ : ∀ b ∈ (exp ++ r).head?, Json.isDigit b = false ∧ b ≠ 46 := by
    rcases hexp with rfl | ⟨e, sign, ds, rfl, he, -⟩
    · exact fun b hb => ⟨(hr b hb).1, (hr b hb).2.1⟩
    · rintro b ⟨⟩
      rcases he with rfl | rfl <;> decide
  have hr₂ : NoDigit (frac ++ (exp ++ r)) := by
    rcases hfrac with rfl | ⟨ds, rfl, -⟩
    · exact fun b hb => (hr₁ b hb).1
    · rintro b ⟨⟩
      decide
  have hmin : consumeMinus (minus ++ (int ++ (frac ++ (exp ++ r)))) =
      int ++ (frac ++ (exp ++ r)) := by
    rcases hminus with rfl | rfl
    · obtain ⟨b, s, hb, hne⟩ : ∃ b s, int = b :: s ∧ b ≠ 45 := by
        rcases hint with rfl | ⟨hd, -⟩
        · exact ⟨48, [], rfl, by decide⟩
        · obtain ⟨b, s, rfl⟩ := List.exists_cons_of_ne_nil hd.1
          refine ⟨b, s, rfl, ?_⟩
          rintro rfl
          exact absurd (hd.2 45 List.mem_cons_self) (by decide)
      rw [hb]
      exact if_neg hne
    · rfl
  simp only [List.append_assoc, consumeClassificationNumber, hmin, consumeInt_append hint hr₂,
    consumeFraction_append hfrac (fun b hb => (hr₁ b hb).1) (fun b hb => (hr₁ b hb).2),
    Option.bind_eq_bind, Option.bind_some]
  exact consumeExponent_append hexp hr₀ fun b hb => (hr b hb).2.2

theorem number_head {num : GoString} (h : IsNumber num) :
    ∃ b s, num = b :: s ∧ (b = 45 ∨ Json.isDigit b = true) := by
  obtain ⟨minus, int, frac, exp, rfl, rfl | rfl, hint, -, -⟩ := h
  · rcases hint with rfl | ⟨hd, -⟩
    · exact ⟨48, _, rfl, Or.inr (by decide)⟩
    · obtain ⟨b, s, rfl⟩ := List.exists_cons_of_ne_nil hd.1
      exact ⟨b, _, rfl, Or.inr (hd.2 b List.mem_cons_self)⟩
  · exact ⟨45, _, rfl, Or.inl rfl⟩

/-! ### The loop without its counter -/

theorem skip_length_le (s : GoString) : (skipClassificationWhitespace s).length ≤ s.length :=
  (List.dropWhile_suffix _).length_le

theorem consumeLiteral_append (l r : GoString) : consumeClassificationLiteral (l ++ r) l = some r := by
  simp [consumeClassificationLiteral, List.isPrefixOf_iff_prefix]

theorem exists_literal {s l r : GoString} (h : consumeClassificationLiteral s l = some r) :
    s = l ++ r := by
  rw [consumeClassificationLiteral] at h
  split at h
  · rename_i hp
    obtain rfl := Option.some.inj h
    obtain ⟨t, rfl⟩ := List.isPrefixOf_iff_prefix.mp hp
    simp
  · simp at h

/-- What a value at a path consumes: a scalar, or the bracket that opens a
container. -/
theorem consumeValue_cases {s r : GoString} {path : ClassificationPath} {stack stack' : List UInt8}
    (h : consumeClassificationValue s path stack = some (r, stack')) :
    ∃ w : Space,
      (s = w.1 ++ 123 :: r ∧ stack' = makeClassificationFrame .object .initial path .other :: stack) ∨
      (s = w.1 ++ 91 :: r ∧ stack' = makeClassificationFrame .array .initial .other .other :: stack) ∨
      (stack' = stack ∧ ((∃ ps, s = w.1 ++ (JsonText.quote ps ++ r)) ∨
        (∃ l : Literal, s = w.1 ++ (l.render ++ r)) ∨
        ∃ num, IsNumber num ∧ s = w.1 ++ (num ++ r))) := by
  obtain ⟨w, hw⟩ := exists_skip s
  refine ⟨w, ?_⟩
  rw [consumeClassificationValue] at h
  generalize skipClassificationWhitespace s = t at h hw
  subst hw
  cases t with
  | nil => simp at h
  | cons b t =>
      simp only at h
      split at h
      · rename_i hb
        obtain ⟨rfl, rfl⟩ : t = r ∧ _ = stack' := by simpa using h
        exact Or.inl ⟨by rw [hb], rfl⟩
      split at h
      · rename_i hb
        obtain ⟨rfl, rfl⟩ : t = r ∧ _ = stack' := by simpa using h
        exact Or.inr (Or.inl ⟨by rw [hb], rfl⟩)
      refine Or.inr (Or.inr ?_)
      split at h
      · rename_i hb
        obtain ⟨⟨r', key⟩, hscan, heq⟩ := Option.map_eq_some_iff.mp h
        obtain ⟨rfl, rfl⟩ : r' = r ∧ stack = stack' := by simpa using heq
        obtain ⟨ps, rfl⟩ := exists_pieces hscan
        exact ⟨rfl, Or.inl ⟨ps, by simp [JsonText.quote, hb]⟩⟩
      have hlit : ∀ l : Literal, (consumeClassificationLiteral (b :: t) l.render).map
          (fun r => (r, stack)) = some (r, stack') →
          stack' = stack ∧ ∃ l : Literal, w.1 ++ b :: t = w.1 ++ (l.render ++ r) := by
        intro l hl
        obtain ⟨r', hcons, heq⟩ := Option.map_eq_some_iff.mp hl
        obtain ⟨rfl, rfl⟩ : r' = r ∧ stack = stack' := by simpa using heq
        exact ⟨rfl, l, by rw [exists_literal hcons]⟩
      split at h
      · exact ⟨(hlit .true h).1, Or.inr (Or.inl (hlit .true h).2)⟩
      split at h
      · exact ⟨(hlit .false h).1, Or.inr (Or.inl (hlit .false h).2)⟩
      split at h
      · exact ⟨(hlit .null h).1, Or.inr (Or.inl (hlit .null h).2)⟩
      · obtain ⟨r', hnum, heq⟩ := Option.map_eq_some_iff.mp h
        obtain ⟨rfl, rfl⟩ : r' = r ∧ stack = stack' := by simpa using heq
        obtain ⟨num, hs, hnum⟩ := exists_number hnum
        exact ⟨rfl, Or.inr (Or.inr ⟨num, hnum, by rw [hs]⟩)⟩

theorem consumeValue_shortens {s r : GoString} {path : ClassificationPath}
    {stack stack' : List UInt8}
    (h : consumeClassificationValue s path stack = some (r, stack')) : r.length < s.length := by
  obtain ⟨w, ⟨rfl, -⟩ | ⟨rfl, -⟩ | ⟨-, ⟨ps, rfl⟩ | ⟨l, rfl⟩ | ⟨num, hnum, rfl⟩⟩⟩ :=
    consumeValue_cases h
  · simp
    omega
  · simp
    omega
  · simp [JsonText.quote]
    omega
  · have : 0 < l.render.length := by cases l <;> decide
    simp
    omega
  · obtain ⟨b, t, rfl, -⟩ := number_head hnum
    simp
    omega

theorem gotoValue_shortens {s r : GoString} {path : ClassificationPath}
    {stack stack' : List UInt8} (h : gotoValue s path stack = .goto r stack') :
    r.length < s.length := by
  rw [gotoValue] at h
  split at h
  · simp at h
  · rename_i heq
    obtain ⟨rfl, rfl⟩ := Outcome.goto.inj h
    exact consumeValue_shortens heq

theorem keyStep_shortens {b : UInt8} {s r : GoString} {frame : UInt8} {below stack : List UInt8}
    (h : keyStep b s frame below = .goto r stack) : r.length < s.length := by
  rw [keyStep] at h
  split at h
  · simp at h
  · split at h
    · simp at h
    · rename_i heq
      split at h
      · simp at h
      · obtain ⟨rfl, -⟩ := Outcome.goto.inj h
        obtain ⟨ps, rfl⟩ := exists_pieces heq
        simp
        omega

theorem arrayStep_length {b : UInt8} {s r : GoString} {frame : UInt8} {below stack : List UInt8}
    (h : arrayStep b s frame below = .goto r stack) : r.length ≤ s.length := by
  have hvalue : ∀ stack', gotoValue (b :: s) .other stack' = .goto r stack →
      r.length ≤ s.length := by
    intro stack' hv
    have := gotoValue_shortens hv
    simp only [List.length_cons] at this
    omega
  rw [arrayStep] at h
  split at h
  · split at h
    · rw [(Outcome.goto.inj h).1]
    · exact hvalue _ h
  · split at h
    · simp at h
    · exact hvalue _ h
  · split at h
    · rw [(Outcome.goto.inj h).1]
    · split at h
      · rw [(Outcome.goto.inj h).1]
      · simp at h
  · simp at h

theorem objectStep_length {b : UInt8} {s r : GoString} {frame : UInt8} {below stack : List UInt8}
    (h : objectStep b s frame below = .goto r stack) : r.length ≤ s.length := by
  rw [objectStep] at h
  split at h
  · split at h
    · rw [(Outcome.goto.inj h).1]
    · exact (keyStep_shortens h).le
  · split at h
    · simp at h
    · exact (keyStep_shortens h).le
  · split at h
    · simp at h
    · exact (gotoValue_shortens h).le
  · split at h
    · rw [(Outcome.goto.inj h).1]
    · split at h
      · rw [(Outcome.goto.inj h).1]
      · simp at h
  · simp at h

/-- Every iteration consumes a byte. -/
theorem step_shortens {rest r : GoString} {stack stack' : List UInt8}
    (h : step rest stack = .goto r stack') : r.length < rest.length := by
  cases stack with
  | nil => simp [step] at h
  | cons frame below =>
      have hle := skip_length_le rest
      rw [step] at h
      split at h
      · simp at h
      · rename_i b t heq
        rw [heq, List.length_cons] at hle
        split at h
        · have := arrayStep_length h
          omega
        · have := objectStep_length h
          omega

theorem loop_eq_loop {n m : ℕ} {rest : GoString} {stack : List UInt8} (hn : rest.length < n)
    (hm : rest.length < m) : loop n rest stack = loop m rest stack := by
  induction n generalizing m rest stack with
  | zero => omega
  | succ n ih =>
      cases m with
      | zero => omega
      | succ m =>
          rw [loop, loop]
          cases hstep : step rest stack with
          | done c => rfl
          | goto r stack' =>
              have := step_shortens hstep
              exact ih (by omega) (by omega)

/-- The classification reached from a position with the given containers open. -/
def answer (rest : GoString) (stack : List UInt8) : BodyClassification :=
  loop (rest.length + 1) rest stack

/-- The classification that the outcome of an iteration leads to. -/
def Outcome.resolve : Outcome → BodyClassification
  | .done c => c
  | .goto rest stack => answer rest stack

@[simp] theorem resolve_done (c : BodyClassification) : (Outcome.done c).resolve = c := rfl

@[simp] theorem resolve_goto (rest : GoString) (stack : List UInt8) :
    (Outcome.goto rest stack).resolve = answer rest stack := rfl

theorem answer_eq (rest : GoString) (stack : List UInt8) :
    answer rest stack = (step rest stack).resolve := by
  rw [answer, loop]
  cases hstep : step rest stack with
  | done c => rfl
  | goto r stack' => exact loop_eq_loop (step_shortens hstep) (Nat.lt_succ_self _)

/-- The same where a value is expected. -/
def valueAnswer (s : GoString) (path : ClassificationPath) (stack : List UInt8) :
    BodyClassification :=
  match consumeClassificationValue s path stack with
  | none => .invalid
  | some (r, stack') => answer r stack'

theorem isSpace_of_skip {s t : GoString} {b : UInt8}
    (h : skipClassificationWhitespace s = b :: t) : Json.isSpace b = false := by
  induction s with
  | nil => simp [skipClassificationWhitespace] at h
  | cons c s ih =>
      rw [skipClassificationWhitespace, List.dropWhile_cons] at h
      split at h
      · exact ih h
      · rename_i hc
        obtain ⟨rfl, -⟩ := List.cons.inj h
        simpa using hc

theorem classifyRequestBody_eq {body : GoString} (h : body.length ≤ legacyMaxBodyBytes) :
    classifyRequestBody body = valueAnswer body .root [] := by
  rw [classifyRequestBody, List.take_of_length_le h, valueAnswer]
  cases hs : skipClassificationWhitespace body with
  | nil => simp [consumeClassificationValue, hs]
  | cons b s =>
      have hsame : consumeClassificationValue (b :: s) .root [] =
          consumeClassificationValue body .root [] := by
        rw [consumeClassificationValue, consumeClassificationValue, hs,
          skip_cons (isSpace_of_skip hs)]
      simp only [hsame]
      cases hv : consumeClassificationValue body .root [] with
      | none => rfl
      | some r =>
          have := @consumeValue_shortens _ r.1 _ _ r.2 hv
          exact loop_eq_loop (by omega) (by omega)

/-! ### One iteration at a byte -/

theorem answer_space (w : Space) (s : GoString) (stack : List UInt8) :
    answer (w.1 ++ s) stack = answer s stack := by
  have hstep : step (w.1 ++ s) stack = step s stack := by
    cases stack with
    | nil => rw [step, step, skip_append]
    | cons frame below => rw [step, step, skip_append]
  rw [answer_eq, hstep, ← answer_eq]

theorem answer_nil (s : GoString) :
    answer s [] = if skipClassificationWhitespace s = [] then .legacy else .invalid := by
  rw [answer_eq, step, resolve_done]

theorem valueAnswer_space (w : Space) (s : GoString) (path : ClassificationPath)
    (stack : List UInt8) : valueAnswer (w.1 ++ s) path stack = valueAnswer s path stack := by
  rw [valueAnswer, valueAnswer, consumeClassificationValue, skip_append,
    ← consumeClassificationValue]

/-- With a container open there is always a next byte. -/
theorem exists_byte {s : GoString} {frame : UInt8} {below : List UInt8}
    (h : answer s (frame :: below) ≠ .invalid) :
    ∃ (w : Space) (b : UInt8) (t : GoString), s = w.1 ++ b :: t ∧ Json.isSpace b = false := by
  obtain ⟨w, hw⟩ := exists_skip s
  cases hs : skipClassificationWhitespace s with
  | nil =>
      rw [answer_eq, step, hs] at h
      simp at h
  | cons b t =>
      refine ⟨w, b, t, ?_, isSpace_of_skip hs⟩
      rwa [hs] at hw

/-- The stack with an array on top. -/
def inArray (state : ClassificationState) (p q : ClassificationPath) (below : List UInt8) :
    List UInt8 :=
  makeClassificationFrame .array state p q :: below

/-- The stack with an object at the path `p` on top, and `q` the path of its
pending value. -/
def inObject (state : ClassificationState) (p q : ClassificationPath) (below : List UInt8) :
    List UInt8 :=
  makeClassificationFrame .object state p q :: below

/-- The states in which an element or a member may start. -/
def Items (state : ClassificationState) : Prop := state = .initial ∨ state = .next

@[simp] theorem resolve_gotoValue (s : GoString) (path : ClassificationPath)
    (stack : List UInt8) : (gotoValue s path stack).resolve = valueAnswer s path stack := by
  rw [gotoValue, valueAnswer]
  cases consumeClassificationValue s path stack <;> rfl

section

variable {b : UInt8} (hb : Json.isSpace b = false) (s : GoString) (p q : ClassificationPath)
  (below : List UInt8) {state : ClassificationState} (hstate : Items state)

include hb

include hstate in
theorem answer_array_items : answer (b :: s) (inArray state p q below) =
    if b = 93 then (if state = .initial then answer s below else .invalid)
    else valueAnswer (b :: s) .other (inArray .commaOrEnd p q below) := by
  rw [answer_eq, inArray, step, skip_cons hb]
  simp only [frameContainer_make, arrayStep, frameState_make, setFrameState_make, if_true]
  rcases hstate with rfl | rfl <;>
  · by_cases h : b = 93 <;> simp [h, inArray]

theorem answer_array_comma : answer (b :: s) (inArray .commaOrEnd p q below) =
    if b = 44 then answer s (inArray .next p q below)
    else if b = 93 then answer s below else .invalid := by
  rw [answer_eq, inArray, step, skip_cons hb]
  simp only [frameContainer_make, arrayStep, frameState_make, setFrameState_make, if_true]
  by_cases h : b = 44
  · simp [h, inArray]
  · by_cases h' : b = 93 <;> simp [h, h']

include hstate in
theorem answer_object_items (hne : b ≠ 34) : answer (b :: s) (inObject state p q below) =
    if b = 125 ∧ state = .initial then answer s below else .invalid := by
  rw [answer_eq, inObject, step, skip_cons hb]
  simp only [frameContainer_make, objectStep, frameState_make, keyStep, reduceCtorEq, if_false]
  rcases hstate with rfl | rfl <;>
  · by_cases h : b = 125 <;> simp [h, hne]

theorem answer_object_colon : answer (b :: s) (inObject .colon p q below) =
    if b = 58 then valueAnswer s q (inObject .commaOrEnd p q below) else .invalid := by
  rw [answer_eq, inObject, step, skip_cons hb]
  simp only [frameContainer_make, objectStep, frameState_make, setFrameState_make,
    framePending_make, reduceCtorEq, if_false]
  by_cases h : b = 58 <;> simp [h, inObject]

theorem answer_object_comma : answer (b :: s) (inObject .commaOrEnd p q below) =
    if b = 44 then answer s (inObject .next p q below)
    else if b = 125 then answer s below else .invalid := by
  rw [answer_eq, inObject, step, skip_cons hb]
  simp only [frameContainer_make, objectStep, frameState_make, setFrameState_make,
    reduceCtorEq, if_false]
  by_cases h : b = 44
  · simp [h, inObject]
  · by_cases h' : b = 125 <;> simp [h, h']

end

/-- A key is read to its end, and unless it is a reserved one it decides the
path of the value. -/
theorem answer_key (ps : List Piece) (s : GoString) (p q : ClassificationPath)
    (below : List UInt8) {state : ClassificationState} (hstate : Items state) :
    answer (JsonText.quote ps ++ s) (inObject state p q below) =
      if p = .metadata ∧ IsReserved ps then .modern
      else answer s (inObject .colon p (childPath p ps) below) := by
  rw [JsonText.quote, List.cons_append, answer_eq, inObject, step, skip_cons (by decide)]
  have hscan := scanClassificationString_pieces p ps s
  rw [← List.singleton_append, ← List.append_assoc] at hscan
  simp only [frameContainer_make, objectStep, frameState_make, keyStep, framePath_make, hscan,
    setFramePending_make, setFrameState_make, reduceCtorEq, if_false, ← keyOf_eq_modern]
  rcases hstate with rfl | rfl <;>
  · by_cases h : keyOf p ps = .modern <;> simp [h, inObject, pendingPath_keyOf]

/-- A text that starts with a quote is a string and what follows, or leads
nowhere. -/
theorem exists_key {s : GoString} {p q : ClassificationPath} {below : List UInt8}
    {state : ClassificationState} (hstate : Items state)
    (h : answer (34 :: s) (inObject state p q below) ≠ .invalid) :
    ∃ ps r, 34 :: s = JsonText.quote ps ++ r := by
  cases hscan : scanClassificationString s p with
  | some r =>
      obtain ⟨ps, rfl⟩ := exists_pieces hscan
      exact ⟨ps, r.1, by simp [JsonText.quote]⟩
  | none =>
      rw [answer_eq, inObject, step, skip_cons (by decide)] at h
      simp only [frameContainer_make, objectStep, frameState_make, keyStep, framePath_make,
        hscan, reduceCtorEq, if_false] at h
      rcases hstate with rfl | rfl <;> simp at h

/-! ### Values -/

theorem valueAnswer_object (s : GoString) (path : ClassificationPath) (stack : List UInt8) :
    valueAnswer (123 :: s) path stack = answer s (inObject .initial path .other stack) := by
  rw [valueAnswer, consumeClassificationValue, skip_cons (by decide)]
  rfl

theorem valueAnswer_array (s : GoString) (path : ClassificationPath) (stack : List UInt8) :
    valueAnswer (91 :: s) path stack = answer s (inArray .initial .other .other stack) := by
  rw [valueAnswer, consumeClassificationValue, skip_cons (by decide)]
  rfl

theorem valueAnswer_string (ps : List Piece) (r : GoString) (path : ClassificationPath)
    (stack : List UInt8) : valueAnswer (JsonText.quote ps ++ r) path stack = answer r stack := by
  rw [valueAnswer, JsonText.quote, List.cons_append, consumeClassificationValue, skip_cons (by decide)]
  simp [scanClassificationString_pieces]

theorem valueAnswer_literal (l : Literal) (r : GoString) (path : ClassificationPath)
    (stack : List UInt8) : valueAnswer (l.render ++ r) path stack = answer r stack := by
  have hlit := congrArg (Option.map fun r => (r, stack)) (consumeLiteral_append l.render r)
  have hvalue : consumeClassificationValue (l.render ++ r) path stack = some (r, stack) := by
    cases l with
    | false =>
        change consumeClassificationValue (102 :: (bytes "alse" ++ r)) path stack = _
        rw [consumeClassificationValue, skip_cons (by decide)]
        exact hlit
    | null =>
        change consumeClassificationValue (110 :: (bytes "ull" ++ r)) path stack = _
        rw [consumeClassificationValue, skip_cons (by decide)]
        exact hlit
    | true =>
        change consumeClassificationValue (116 :: (bytes "rue" ++ r)) path stack = _
        rw [consumeClassificationValue, skip_cons (by decide)]
        exact hlit
  rw [valueAnswer, hvalue]

theorem valueAnswer_number {num r : GoString} (hnum : IsNumber num) (hr : Json.Stops r)
    (path : ClassificationPath) (stack : List UInt8) :
    valueAnswer (num ++ r) path stack = answer r stack := by
  have hcons := consumeNumber_append hnum hr
  obtain ⟨b, t, rfl, hb⟩ := number_head hnum
  obtain ⟨hsp, h34, h91, h123, h110, h116, h102⟩ := Json.number_head_ne hb
  rw [List.cons_append] at hcons ⊢
  rw [valueAnswer, consumeClassificationValue, skip_cons hsp]
  simp [hcons, h34, h91, h123, h110, h116, h102]

/-! ### Reserved names in a text -/

mutual

/-- The value, at the given path, has a reserved name at `params._meta`. -/
def docReserved : ClassificationPath → Doc → Prop
  | path, .object ms => membersReserved path ms
  | _, _ => False

def membersReserved : ClassificationPath → Members → Prop
  | path, .last k v _ =>
      path = .metadata ∧ IsReserved k.pieces ∨ docReserved (childPath path k.pieces) v
  | path, .more k v _ ms =>
      path = .metadata ∧ IsReserved k.pieces ∨ docReserved (childPath path k.pieces) v ∨
        membersReserved path ms

end

/-- The text of an object at the given path, from behind its opening brace,
goes through whole members, perhaps into an object among them, and comes to a
complete reserved name. Nothing is asked of what follows the name. -/
inductive Meets : ClassificationPath → GoString → Prop
  | here (prior : Option Members) (w : Space) (ps : List Piece) (rest : GoString)
      (h : IsReserved ps) : Meets .metadata (renderPrior prior ++ (w.1 ++ (JsonText.quote ps ++ rest)))
  | under {path : ClassificationPath} (prior : Option Members) (k : Name) {t : GoString}
      (h : Meets (childPath path k.pieces) t) :
      Meets path (renderPrior prior ++ (k.render ++ 123 :: t))

theorem Meets.cons {path : ClassificationPath} {t : GoString} (h : Meets path t) (k : Name)
    (v : Doc) (w : Space) : Meets path (k.render ++ (v.render ++ (w.1 ++ 44 :: t))) := by
  have hprior : ∀ prior : Option Members, ∃ prior', ∀ s,
      k.render ++ (v.render ++ (w.1 ++ 44 :: (renderPrior prior ++ s))) =
        renderPrior (some prior') ++ s := by
    intro prior
    cases prior with
    | none => exact ⟨.last k v w, fun s => by simp [renderPrior, Members.render]⟩
    | some ms => exact ⟨.more k v w ms, fun s => by simp [renderPrior, Members.render]⟩
  cases h with
  | here prior w' ps rest hres =>
      obtain ⟨prior', heq⟩ := hprior prior
      rw [heq]
      exact Meets.here _ _ _ _ hres
  | under prior k' hmeets =>
      obtain ⟨prior', heq⟩ := hprior prior
      rw [heq]
      exact Meets.under _ _ hmeets

/-- Off the path there is nothing to meet. -/
theorem not_meets_other (t : GoString) : ¬Meets .other t := by
  intro h
  generalize hp : ClassificationPath.other = path at h
  induction h with
  | here => simp at hp
  | under prior k h ih =>
      subst hp
      exact ih rfl

mutual

theorem not_docReserved_other : ∀ d : Doc, ¬docReserved .other d
  | .object ms => not_membersReserved_other ms
  | .literal _ | .number _ _ | .string _ | .emptyArray _ | .array _ | .emptyObject _ => id

theorem not_membersReserved_other : ∀ ms : Members, ¬membersReserved .other ms
  | .last k v _ => by
      rintro (⟨h, -⟩ | h)
      · simp at h
      · exact not_docReserved_other v h
  | .more k v _ ms => by
      rintro (⟨h, -⟩ | h | h)
      · simp at h
      · exact not_docReserved_other v h
      · exact not_membersReserved_other ms h

end

/-! ### The lexer follows the trees -/

theorem stops_space {r : GoString} (hr : Json.Stops r) (w : Space) : Json.Stops (w.1 ++ r) := by
  obtain ⟨w, hw⟩ := w
  cases w with
  | nil => exact hr
  | cons b w =>
      rintro c ⟨⟩
      have hb := hw b List.mem_cons_self
      simp only [Json.isSpace, Bool.or_eq_true, beq_iff_eq] at hb
      rcases hb with ((rfl | rfl) | rfl) | rfl <;> decide

theorem render_head (d : Doc) :
    ∃ b t, d.render = b :: t ∧ Json.isSpace b = false ∧ b ≠ 93 := by
  cases d with
  | literal l => cases l <;> exact ⟨_, _, rfl, by decide, by decide⟩
  | number s h =>
      obtain ⟨b, t, rfl, hb⟩ := number_head h
      refine ⟨b, t, rfl, (Json.number_head_ne hb).1, ?_⟩
      rintro rfl
      exact absurd hb (by decide)
  | string ps => exact ⟨_, _, rfl, by decide, by decide⟩
  | emptyArray w => exact ⟨_, _, rfl, by decide, by decide⟩
  | array es => exact ⟨_, _, rfl, by decide, by decide⟩
  | emptyObject w => exact ⟨_, _, rfl, by decide, by decide⟩
  | object ms => exact ⟨_, _, rfl, by decide, by decide⟩

/-- An element is passed if its value is. -/
theorem answer_element {v : Doc} {p q : ClassificationPath} {below : List UInt8}
    (hv : ∀ s, Json.Stops s → valueAnswer (v.render ++ s) .other (inArray .commaOrEnd p q below) =
      answer s (inArray .commaOrEnd p q below))
    {state : ClassificationState} (hstate : Items state) (before after : Space) {r : GoString}
    (hr : Json.Stops r) :
    answer (before.1 ++ (v.render ++ (after.1 ++ r))) (inArray state p q below) =
      answer r (inArray .commaOrEnd p q below) := by
  have hpass := hv (after.1 ++ r) (stops_space hr after)
  obtain ⟨b, t, hhead, hsp, hne⟩ := render_head v
  rw [hhead, List.cons_append] at hpass
  rw [answer_space, hhead, List.cons_append, answer_array_items hsp _ _ _ _ hstate, if_neg hne,
    hpass, answer_space]

/-- A name leads to its value, unless it is a reserved one. -/
theorem answer_name (k : Name) (s : GoString) (p q : ClassificationPath) (below : List UInt8)
    {state : ClassificationState} (hstate : Items state) :
    answer (k.render ++ s) (inObject state p q below) =
      if p = .metadata ∧ IsReserved k.pieces then .modern
      else valueAnswer s (childPath p k.pieces)
        (inObject .commaOrEnd p (childPath p k.pieces) below) := by
  simp only [Name.render, List.append_assoc, List.cons_append]
  rw [answer_space, answer_key _ _ _ _ _ hstate]
  split
  · rfl
  · rw [answer_space, answer_object_colon (by decide), if_pos rfl, valueAnswer_space]

mutual

/-- A value is passed, unless it has a reserved name. -/
theorem valueAnswer_render : ∀ (d : Doc) (path : ClassificationPath) (stack : List UInt8)
    (r : GoString), Json.Stops r →
    (docReserved path d → valueAnswer (d.render ++ r) path stack = .modern) ∧
      (¬docReserved path d → valueAnswer (d.render ++ r) path stack = answer r stack)
  | .literal l, path, stack, r, _ => ⟨False.elim, fun _ => valueAnswer_literal l r path stack⟩
  | .number _ h, path, stack, _, hr => ⟨False.elim, fun _ => valueAnswer_number h hr path stack⟩
  | .string ps, path, stack, r, _ => ⟨False.elim, fun _ => valueAnswer_string ps r path stack⟩
  | .emptyArray w, path, stack, r, _ => by
      refine ⟨False.elim, fun _ => ?_⟩
      rw [Doc.render, List.cons_append, List.append_assoc, List.singleton_append,
        valueAnswer_array, answer_space, answer_array_items (by decide) _ _ _ _ (Or.inl rfl)]
      rfl
  | .array es, path, stack, r, _ => by
      refine ⟨False.elim, fun _ => ?_⟩
      rw [Doc.render, List.cons_append, List.append_assoc, List.singleton_append,
        valueAnswer_array, answer_elements es _ _ _ _ _ (Or.inl rfl) (Json.stops_of_head (by simp)),
        answer_array_comma (by decide)]
      rfl
  | .emptyObject w, path, stack, r, _ => by
      refine ⟨False.elim, fun _ => ?_⟩
      rw [Doc.render, List.cons_append, List.append_assoc, List.singleton_append,
        valueAnswer_object, answer_space,
        answer_object_items (by decide) _ _ _ _ (Or.inl rfl) (by decide)]
      rfl
  | .object ms, path, stack, r, _ => by
      obtain ⟨hmodern, hpass⟩ := answer_members ms .initial path .other stack (125 :: r)
        (Or.inl rfl) (Json.stops_of_head (by simp))
      rw [Doc.render, List.cons_append, List.append_assoc, List.singleton_append,
        valueAnswer_object]
      refine ⟨hmodern, fun h => ?_⟩
      obtain ⟨q, hq⟩ := hpass h
      rw [hq, answer_object_comma (by decide)]
      rfl

theorem answer_elements : ∀ (es : Elements) (state : ClassificationState)
    (p q : ClassificationPath) (below : List UInt8) (r : GoString), Items state →
    Json.Stops r →
    answer (es.render ++ r) (inArray state p q below) = answer r (inArray .commaOrEnd p q below)
  | .last before v after, state, p, q, below, r, hstate, hr => by
      rw [Elements.render, List.append_assoc, List.append_assoc]
      apply answer_element _ hstate before after hr
      intro s hs
      exact (valueAnswer_render v _ _ s hs).2 (not_docReserved_other v)
  | .more before v after es, state, p, q, below, r, hstate, hr => by
      have hpass : ∀ s, Json.Stops s → valueAnswer (v.render ++ s) .other _ = _ :=
        fun s hs => (valueAnswer_render v _ (inArray .commaOrEnd p q below) s hs).2
          (not_docReserved_other v)
      have hrest := answer_elements es .next p q below r (Or.inr rfl) hr
      simp only [Elements.render, List.append_assoc, List.cons_append]
      rw [answer_element hpass hstate before after (Json.stops_of_head (by simp)),
        answer_array_comma (by decide), if_pos rfl, hrest]

theorem answer_members : ∀ (ms : Members) (state : ClassificationState)
    (p q : ClassificationPath) (below : List UInt8) (r : GoString), Items state →
    Json.Stops r →
    (membersReserved p ms → answer (ms.render ++ r) (inObject state p q below) = .modern) ∧
      (¬membersReserved p ms → ∃ q', answer (ms.render ++ r) (inObject state p q below) =
        answer r (inObject .commaOrEnd p q' below))
  | .last k v after, state, p, q, below, r, hstate, hr => by
      obtain ⟨hmodern, hpass⟩ := valueAnswer_render v (childPath p k.pieces)
        (inObject .commaOrEnd p (childPath p k.pieces) below) (after.1 ++ r) (stops_space hr after)
      simp only [Members.render, membersReserved, List.append_assoc]
      rw [answer_name _ _ _ _ _ hstate]
      by_cases hk : p = .metadata ∧ IsReserved k.pieces
      · simp [hk]
      · simp only [hk, false_or, if_false]
        refine ⟨hmodern, fun h => ⟨childPath p k.pieces, ?_⟩⟩
        rw [hpass h, answer_space]
  | .more k v after ms, state, p, q, below, r, hstate, hr => by
      obtain ⟨hmodern, hpass⟩ := valueAnswer_render v (childPath p k.pieces)
        (inObject .commaOrEnd p (childPath p k.pieces) below) (after.1 ++ 44 :: (ms.render ++ r))
        (stops_space (Json.stops_of_head (by simp)) after)
      obtain ⟨hmodern', hpass'⟩ :=
        answer_members ms .next p (childPath p k.pieces) below r (Or.inr rfl) hr
      simp only [Members.render, membersReserved, List.append_assoc, List.cons_append]
      rw [answer_name _ _ _ _ _ hstate]
      by_cases hk : p = .metadata ∧ IsReserved k.pieces
      · simp [hk]
      by_cases hv : docReserved (childPath p k.pieces) v
      · simp [hk, hv, hmodern hv]
      · simp only [hk, hv, false_or, if_false]
        rw [hpass hv, answer_space, answer_object_comma (by decide), if_pos rfl]
        exact ⟨hmodern', hpass'⟩

end

theorem answer_prior (prior : Option Members) (s : GoString) (p q : ClassificationPath)
    (below : List UInt8) {state : ClassificationState} (hstate : Items state) :
    answer (renderPrior prior ++ s) (inObject state p q below) = .modern ∨
      ∃ state' q', Items state' ∧ answer (renderPrior prior ++ s) (inObject state p q below) =
        answer s (inObject state' p q' below) := by
  cases prior with
  | none => exact Or.inr ⟨state, q, hstate, rfl⟩
  | some ms =>
      rw [renderPrior, List.append_assoc, List.singleton_append]
      obtain ⟨hmodern, hpass⟩ := answer_members ms state p q below (44 :: s) hstate
        (Json.stops_of_head (by simp))
      by_cases h : membersReserved p ms
      · exact Or.inl (hmodern h)
      · obtain ⟨q', hq'⟩ := hpass h
        refine Or.inr ⟨.next, q', Or.inr rfl, ?_⟩
        rw [hq', answer_object_comma (by decide), if_pos rfl]

/-- From an object where a member may start, a text that meets a reserved name
is modern. -/
theorem answer_of_meets {path : ClassificationPath} {t : GoString} (h : Meets path t)
    {state : ClassificationState} (hstate : Items state) (q : ClassificationPath)
    (below : List UInt8) : answer t (inObject state path q below) = .modern := by
  induction h generalizing state q below with
  | here prior w ps rest hres =>
      rcases answer_prior prior (w.1 ++ (JsonText.quote ps ++ rest)) .metadata q below hstate with
        hm | ⟨state', q', hstate', heq⟩
      · exact hm
      · rw [heq, answer_space, answer_key _ _ _ _ _ hstate', if_pos ⟨rfl, hres⟩]
  | @under path prior k t h ih =>
      rcases answer_prior prior (k.render ++ 123 :: t) path q below hstate with
        hm | ⟨state', q', hstate', heq⟩
      · exact hm
      · rw [heq, answer_name _ _ _ _ _ hstate']
        split
        · rfl
        · rw [valueAnswer_object, ih (Or.inl rfl)]

/-! ### The trees behind a run -/

/-- A run from where a value is expected that does not fail. -/
def ValueSound (s : GoString) : Prop :=
  ∀ path stack c, c ≠ .invalid → valueAnswer s path stack = c →
    ∃ w : Space, (c = .modern ∧ ∃ t, s = w.1 ++ 123 :: t ∧ Meets path t) ∨
      ∃ d r, s = w.1 ++ (Doc.render d ++ r) ∧ ¬docReserved path d ∧ answer r stack = c

/-- A run from inside an array where an element may start. -/
def ArraySound (s : GoString) : Prop :=
  ∀ state p q below c, Items state → c ≠ .invalid → answer s (inArray state p q below) = c →
    (state = .initial ∧ ∃ (w : Space) (r : GoString), s = w.1 ++ 93 :: r ∧ answer r below = c) ∨
      ∃ es r, s = Elements.render es ++ 93 :: r ∧ answer r below = c

/-- A run from inside an object where a member may start. -/
def ObjectSound (s : GoString) : Prop :=
  ∀ state p q below c, Items state → c ≠ .invalid → answer s (inObject state p q below) = c →
    (state = .initial ∧ ∃ (w : Space) (r : GoString), s = w.1 ++ 125 :: r ∧ answer r below = c) ∨
      (∃ ms r, s = Members.render ms ++ 125 :: r ∧ ¬membersReserved p ms ∧ answer r below = c) ∨
      (c = .modern ∧ Meets p s)

theorem valueSound_of_shorter {s : GoString}
    (harr : ∀ t : GoString, t.length < s.length → ArraySound t)
    (hobj : ∀ t : GoString, t.length < s.length → ObjectSound t) : ValueSound s := by
  intro path stack c hc h
  rw [valueAnswer] at h
  cases hv : consumeClassificationValue s path stack with
  | none =>
      rw [hv] at h
      exact absurd h.symm hc
  | some rs =>
      obtain ⟨r, stack'⟩ := rs
      rw [hv] at h
      have hlt := consumeValue_shortens hv
      obtain ⟨w, hcases⟩ := consumeValue_cases hv
      refine ⟨w, ?_⟩
      rcases hcases with ⟨rfl, rfl⟩ | ⟨rfl, rfl⟩ | ⟨rfl, ⟨ps, rfl⟩ | ⟨l, rfl⟩ | ⟨num, hnum, rfl⟩⟩
      · rcases hobj r hlt .initial path .other stack c (Or.inl rfl) hc h with
          ⟨-, w', r', rfl, hr'⟩ | ⟨ms, r', rfl, hres, hr'⟩ | ⟨hm, hmeets⟩
        · exact Or.inr ⟨.emptyObject w', r', by simp [Doc.render], id, hr'⟩
        · exact Or.inr ⟨.object ms, r', by simp [Doc.render], hres, hr'⟩
        · exact Or.inl ⟨hm, r, rfl, hmeets⟩
      · rcases harr r hlt .initial .other .other stack c (Or.inl rfl) hc h with
          ⟨-, w', r', rfl, hr'⟩ | ⟨es, r', rfl, hr'⟩
        · exact Or.inr ⟨.emptyArray w', r', by simp [Doc.render], id, hr'⟩
        · exact Or.inr ⟨.array es, r', by simp [Doc.render], id, hr'⟩
      · exact Or.inr ⟨.string ps, r, rfl, id, h⟩
      · exact Or.inr ⟨.literal l, r, rfl, id, h⟩
      · exact Or.inr ⟨.number num hnum, r, rfl, id, h⟩

theorem arraySound_of_shorter {s : GoString}
    (hval : ∀ t : GoString, t.length ≤ s.length → ValueSound t)
    (harr : ∀ t : GoString, t.length < s.length → ArraySound t) : ArraySound s := by
  intro state p q below c hstate hc h
  obtain ⟨w, b, t, rfl, hb⟩ := exists_byte (h ▸ hc : answer s (inArray state p q below) ≠ .invalid)
  rw [answer_space, answer_array_items hb _ _ _ _ hstate] at h
  split at h
  · rename_i hb93
    split at h
    · rename_i hinit
      exact Or.inl ⟨hinit, w, t, by rw [hb93], h⟩
    · exact absurd h.symm hc
  · obtain ⟨w₂, ⟨-, t', -, hmeets⟩ | ⟨d, r, heq, -, hr⟩⟩ := hval (b :: t) (by simp) _ _ c hc h
    · exact absurd hmeets (not_meets_other t')
    rw [heq] at harr ⊢
    obtain ⟨w₃, b₃, t₃, rfl, hb₃⟩ :=
      exists_byte (hr ▸ hc : answer r (inArray .commaOrEnd p q below) ≠ .invalid)
    rw [answer_space, answer_array_comma hb₃] at hr
    refine Or.inr ?_
    split at hr
    · rename_i hcomma
      obtain ⟨h, -⟩ | ⟨es, r', rfl, hr'⟩ :=
        harr t₃ (by simp; omega) .next p q below c (Or.inr rfl) hc hr
      · simp at h
      · exact ⟨.more (w.append w₂) d w₃ es, r', by simp [Elements.render, Space.append, hcomma], hr'⟩
    split at hr
    · rename_i hend
      exact ⟨.last (w.append w₂) d w₃, t₃, by simp [Elements.render, Space.append, hend], hr⟩
    · exact absurd hr.symm hc

theorem objectSound_of_shorter {s : GoString}
    (hval : ∀ t : GoString, t.length ≤ s.length → ValueSound t)
    (hobj : ∀ t : GoString, t.length < s.length → ObjectSound t) : ObjectSound s := by
  intro state p q below c hstate hc h
  obtain ⟨w, b, t, rfl, hb⟩ := exists_byte (h ▸ hc : answer s (inObject state p q below) ≠ .invalid)
  rw [answer_space] at h
  by_cases hquote : b = 34
  · subst hquote
    obtain ⟨ps, r, hkey⟩ := exists_key hstate (h ▸ hc)
    rw [hkey] at h hobj hval ⊢
    rw [answer_key _ _ _ _ _ hstate] at h
    split at h
    · rename_i hres
      obtain ⟨rfl, hres⟩ := hres
      exact Or.inr (Or.inr ⟨h.symm, Meets.here none w ps r hres⟩)
    rename_i hres
    obtain ⟨w₁, b₁, t₁, rfl, hb₁⟩ :=
      exists_byte (h ▸ hc : answer r (inObject .colon p _ below) ≠ .invalid)
    rw [answer_space, answer_object_colon hb₁] at h
    split at h
    swap
    · exact absurd h.symm hc
    rename_i hcolon
    subst hcolon
    obtain ⟨w₂, ⟨hm, t', rfl, hmeets⟩ | ⟨d, r, rfl, hd, hr⟩⟩ :=
      hval t₁ (by simp; omega) _ _ c hc h
    · refine Or.inr (Or.inr ⟨hm, ?_⟩)
      simpa [renderPrior, Name.render] using Meets.under none ⟨w, ps, w₁, w₂⟩ hmeets
    obtain ⟨w₃, b₃, t₃, rfl, hb₃⟩ :=
      exists_byte (hr ▸ hc : answer r (inObject .commaOrEnd p _ below) ≠ .invalid)
    rw [answer_space, answer_object_comma hb₃] at hr
    refine Or.inr ?_
    split at hr
    · rename_i hcomma
      subst hcomma
      obtain ⟨h, -⟩ | ⟨ms, r', rfl, hms, hr'⟩ | ⟨hm, hmeets⟩ :=
        hobj t₃ (by simp; omega) .next p _ below c (Or.inr rfl) hc hr
      · simp at h
      · refine Or.inl ⟨.more ⟨w, ps, w₁, w₂⟩ d w₃ ms, r', by simp [Members.render, Name.render], ?_,
          hr'⟩
        simp only [membersReserved, not_or]
        exact ⟨hres, hd, hms⟩
      · refine Or.inr ⟨hm, ?_⟩
        simpa [Name.render] using hmeets.cons ⟨w, ps, w₁, w₂⟩ d w₃
    split at hr
    · rename_i hend
      subst hend
      refine Or.inl ⟨.last ⟨w, ps, w₁, w₂⟩ d w₃, t₃, by simp [Members.render, Name.render], ?_, hr⟩
      simp only [membersReserved, not_or]
      exact ⟨hres, hd⟩
    · exact absurd hr.symm hc
  · rw [answer_object_items hb _ _ _ _ hstate hquote] at h
    split at h
    · rename_i hend
      exact Or.inl ⟨hend.2, w, t, by rw [hend.1], h⟩
    · exact absurd h.symm hc

theorem valueSound (s : GoString) : ValueSound s := by
  suffices h : ∀ n, ∀ s : GoString, s.length = n → ValueSound s ∧ ArraySound s ∧ ObjectSound s from
    (h s.length s rfl).1
  intro n
  induction n using Nat.strongRecOn with
  | _ n ih =>
      have hval : ∀ t : GoString, t.length ≤ n → ValueSound t := by
        intro t ht
        apply valueSound_of_shorter
        · exact fun u hu => (ih u.length (by omega) u rfl).2.1
        · exact fun u hu => (ih u.length (by omega) u rfl).2.2
      rintro s rfl
      refine ⟨hval s le_rfl, ?_, ?_⟩
      · exact arraySound_of_shorter hval fun u hu => (ih u.length hu u rfl).2.1
      · exact objectSound_of_shorter hval fun u hu => (ih u.length hu u rfl).2.2

/-- For every body within the size limit: it is legacy exactly when it is a JSON
text without a reserved name at `params._meta`, modern exactly when reading it
meets a complete reserved name there, and otherwise invalid. -/
theorem classifyRequestBody_iff (body : GoString) (hlen : body.length ≤ legacyMaxBodyBytes) :
    (classifyRequestBody body = .legacy ↔
      ∃ (v w : Space) (d : Doc), body = v.1 ++ (d.render ++ w.1) ∧ ¬docReserved .root d) ∧
    (classifyRequestBody body = .modern ↔
      ∃ (w : Space) (t : GoString), body = w.1 ++ 123 :: t ∧ Meets .root t) ∧
    (classifyRequestBody body = .invalid ↔
      (¬∃ (v w : Space) (d : Doc), body = v.1 ++ (d.render ++ w.1) ∧ ¬docReserved .root d) ∧
      ¬∃ (w : Space) (t : GoString), body = w.1 ++ 123 :: t ∧ Meets .root t) := by
  rw [classifyRequestBody_eq hlen]
  have hlegacy : valueAnswer body .root [] = .legacy ↔
      ∃ (v w : Space) (d : Doc), body = v.1 ++ (d.render ++ w.1) ∧ ¬docReserved .root d := by
    constructor
    · intro h
      obtain ⟨v, ⟨hm, -⟩ | ⟨d, r, heq, hd, hr⟩⟩ := valueSound body _ _ _ (by simp) h
      · simp at hm
      · rw [answer_nil] at hr
        split at hr
        · rename_i hskip
          obtain ⟨w, hw⟩ := exists_skip r
          rw [hskip, List.append_nil] at hw
          exact ⟨v, w, d, by rw [heq, hw], hd⟩
        · simp at hr
    · rintro ⟨v, w, d, rfl, hd⟩
      have hstops : Json.Stops w.1 := by
        simpa using @stops_space [] (by simp [Json.Stops]) w
      have hskip := skip_append w []
      rw [List.append_nil] at hskip
      rw [valueAnswer_space, (valueAnswer_render d .root [] w.1 hstops).2 hd, answer_nil, hskip]
      rfl
  have hmodern : valueAnswer body .root [] = .modern ↔
      ∃ (w : Space) (t : GoString), body = w.1 ++ 123 :: t ∧ Meets .root t := by
    constructor
    · intro h
      obtain ⟨w, ⟨-, t, heq, ht⟩ | ⟨d, r, -, -, hr⟩⟩ := valueSound body _ _ _ (by simp) h
      · exact ⟨w, t, heq, ht⟩
      · rw [answer_nil] at hr
        split at hr <;> simp at hr
    · rintro ⟨w, t, rfl, ht⟩
      rw [valueAnswer_space, valueAnswer_object, answer_of_meets ht (Or.inl rfl)]
  refine ⟨hlegacy, hmodern, ?_⟩
  rw [← hlegacy, ← hmodern]
  cases valueAnswer body .root [] <;> simp

/-- A text with the reserved name escaped, broken off behind it. -/
def escapedMarker : GoString :=
  bytes "\x7b\"params\":\x7b\"_meta\":\x7b\"io.modelcontextprotocol\\/clientInfo\""

theorem classifyRequestBody_escapedMarker :
    escapedMarker.length ≤ legacyMaxBodyBytes ∧
      ∃ (w : Space) (t : GoString), escapedMarker = w.1 ++ 123 :: t ∧ Meets .root t := by
  have hlen : escapedMarker.length ≤ legacyMaxBodyBytes := by decide
  refine ⟨hlen, (classifyRequestBody_iff escapedMarker hlen).2.1.mp ?_⟩
  decide

end Higress.Mcp.Classification
