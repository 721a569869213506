import Mathlib.Data.List.Chain

/-!
Scanning a text with a pattern: the leftmost match is taken, then the scan goes
on behind it. This is how the `FindAll` and `ReplaceAll` families of Go's
`regexp` walk through a text.

The pattern is given by a `Matcher`, which decides whether a match starts at
the head of a text. Everything else is read off the list of tokens: elements
that are in no match, and matches.
-/

namespace Higress.Lib

/-- A pattern. A match determines the text it stands for, and that text is what
the matcher takes off the front. -/
structure Matcher (β α : Type*) where
  matchAt : List β → Option (α × List β)
  text : α → List β
  text_ne_nil : ∀ a, text a ≠ []
  matchAt_eq : ∀ {s a rest}, matchAt s = some (a, rest) → s = text a ++ rest

namespace Matcher

variable {β α : Type*} (M : Matcher β α)

/-- The scan; the first argument counts the elements of the current match that
are still to be passed. -/
def scan : ℕ → List β → List (β ⊕ α)
  | _, [] => []
  | skip + 1, _ :: s => scan skip s
  | 0, c :: s =>
      match M.matchAt (c :: s) with
      | some (a, rest) => .inr a :: scan (s.length - rest.length) s
      | none => .inl c :: scan 0 s

def tokens (s : List β) : List (β ⊕ α) := M.scan 0 s

/-- `FindAll`. -/
def findAll (s : List β) : List α := (M.tokens s).filterMap Sum.getRight?

/-- `ReplaceAllFunc`. -/
def replaceAll (f : α → List β) (s : List β) : List β :=
  (M.tokens s).flatMap (Sum.elim (fun c => [c]) f)

/-- Neighbouring elements that are in no match, taken together. -/
def gather : List (β ⊕ α) → List (List β ⊕ α)
  | [] => []
  | .inr a :: ts => .inr a :: gather ts
  | .inl c :: ts =>
      match gather ts with
      | .inl x :: gs => .inl (c :: x) :: gs
      | gs => .inl [c] :: gs

/-- A text as a sequence of stretches without a match and of matches. -/
def segments (s : List β) : List (List β ⊕ α) := gather (M.tokens s)

/-- Where the matches of a token list start, counted from `i`. -/
def locate : ℕ → List (β ⊕ α) → List (ℕ × α)
  | _, [] => []
  | i, .inl _ :: ts => locate (i + 1) ts
  | i, .inr a :: ts => (i, a) :: locate (i + (M.text a).length) ts

/-- `FindAllIndex`: the matches with their offsets. -/
def findAllIndex (s : List β) : List (ℕ × α) := M.locate 0 (M.tokens s)

theorem scan_append (t rest : List β) : M.scan t.length (t ++ rest) = M.scan 0 rest := by
  induction t with
  | nil => rfl
  | cons c t ih => simpa [scan] using ih

@[simp]
theorem tokens_nil : M.tokens [] = [] := rfl

variable {M}

theorem tokens_of_match {s rest : List β} {a : α} (h : M.matchAt s = some (a, rest)) :
    M.tokens s = .inr a :: M.tokens rest := by
  have hs := M.matchAt_eq h
  cases hta : M.text a with
  | nil => exact absurd hta (M.text_ne_nil a)
  | cons c t =>
      rw [hta, List.cons_append] at hs
      subst hs
      have hlen : (t ++ rest).length - rest.length = t.length := by simp
      rw [tokens, scan, h]
      simp only [hlen, scan_append]
      rfl

theorem tokens_of_none {c : β} {s : List β} (h : M.matchAt (c :: s) = none) :
    M.tokens (c :: s) = .inl c :: M.tokens s := by
  rw [tokens, scan, h]
  rfl

theorem length_lt_of_match {s rest : List β} {a : α} (h : M.matchAt s = some (a, rest)) :
    rest.length < s.length := by
  rw [M.matchAt_eq h, List.length_append]
  have := List.length_pos_iff.mpr (M.text_ne_nil a)
  omega

/-- Induction along the scan. -/
theorem scan_induction {P : List β → Prop} (hnil : P [])
    (hhit : ∀ s a rest, M.matchAt s = some (a, rest) → P rest → P s)
    (hmiss : ∀ c s, M.matchAt (c :: s) = none → P s → P (c :: s)) (s : List β) : P s := by
  induction hn : s.length using Nat.strongRecOn generalizing s with
  | _ n ih =>
      subst hn
      cases s with
      | nil => exact hnil
      | cons c s =>
          cases h : M.matchAt (c :: s) with
          | none => exact hmiss c s h (ih s.length (by simp) s rfl)
          | some r => exact hhit _ r.1 r.2 h (ih r.2.length (length_lt_of_match h) r.2 rfl)

theorem findAll_of_match {s rest : List β} {a : α} (h : M.matchAt s = some (a, rest)) :
    M.findAll s = a :: M.findAll rest := by
  simp [findAll, tokens_of_match h]

theorem findAll_of_none {c : β} {s : List β} (h : M.matchAt (c :: s) = none) :
    M.findAll (c :: s) = M.findAll s := by
  rw [findAll, tokens_of_none h]
  rfl

theorem locate_eq_map (i : ℕ) (ts : List (β ⊕ α)) :
    M.locate i ts = (M.locate 0 ts).map fun ja => (i + ja.1, ja.2) := by
  induction ts generalizing i with
  | nil => rfl
  | cons t ts ih =>
      cases t with
      | inl c =>
          rw [locate, locate, ih (i + 1), ih (0 + 1), List.map_map]
          exact List.map_congr_left fun ja _ => by simp [Nat.add_assoc]
      | inr a =>
          rw [locate, locate, ih (i + _), ih (0 + _), List.map_cons, List.map_map]
          refine congrArg₂ _ (by simp) (List.map_congr_left fun ja _ => by simp [Nat.add_assoc])

theorem findAllIndex_of_match {s rest : List β} {a : α} (h : M.matchAt s = some (a, rest)) :
    M.findAllIndex s =
      (0, a) :: (M.findAllIndex rest).map fun ja => ((M.text a).length + ja.1, ja.2) := by
  rw [findAllIndex, tokens_of_match h, locate, locate_eq_map, Nat.zero_add, ← findAllIndex]

theorem findAllIndex_of_none {c : β} {s : List β} (h : M.matchAt (c :: s) = none) :
    M.findAllIndex (c :: s) = (M.findAllIndex s).map fun ja => (1 + ja.1, ja.2) := by
  rw [findAllIndex, tokens_of_none h, locate, locate_eq_map, Nat.zero_add, ← findAllIndex]

@[simp]
theorem replaceAll_nil (f : α → List β) : M.replaceAll f [] = [] := rfl

theorem replaceAll_of_match {f : α → List β} {s rest : List β} {a : α}
    (h : M.matchAt s = some (a, rest)) : M.replaceAll f s = f a ++ M.replaceAll f rest := by
  simp [replaceAll, tokens_of_match h]

theorem replaceAll_of_none {f : α → List β} {c : β} {s : List β}
    (h : M.matchAt (c :: s) = none) : M.replaceAll f (c :: s) = c :: M.replaceAll f s := by
  simp [replaceAll, tokens_of_none h]

theorem mem_findAll_of_mem_findAllIndex {s : List β} {ja : ℕ × α} (h : ja ∈ M.findAllIndex s) :
    ja.2 ∈ M.findAll s := by
  induction s using M.scan_induction generalizing ja with
  | hnil => simp [findAllIndex, locate] at h
  | hhit s a rest hm ih =>
      rw [findAllIndex_of_match hm] at h
      rw [findAll_of_match hm]
      rcases List.mem_cons.mp h with rfl | h
      · exact List.mem_cons_self
      · obtain ⟨kb, hkb, rfl⟩ := List.mem_map.mp h
        exact List.mem_cons_of_mem _ (@ih kb hkb)
  | hmiss c s hm ih =>
      rw [findAllIndex_of_none hm] at h
      rw [findAll_of_none hm]
      obtain ⟨kb, hkb, rfl⟩ := List.mem_map.mp h
      exact @ih kb hkb

theorem replaceAll_congr {f g : α → List β} {s : List β} (h : ∀ a ∈ M.findAll s, f a = g a) :
    M.replaceAll f s = M.replaceAll g s := by
  induction s using M.scan_induction with
  | hnil => rfl
  | hhit s a rest hm ih =>
      rw [findAll_of_match hm] at h
      rw [replaceAll_of_match hm, replaceAll_of_match hm, h a (by simp),
        ih fun b hb => h b (by simp [hb])]
  | hmiss c s hm ih =>
      rw [findAll_of_none hm] at h
      rw [replaceAll_of_none hm, replaceAll_of_none hm, ih h]

theorem replaceAll_text (s : List β) : M.replaceAll M.text s = s := by
  induction s using M.scan_induction with
  | hnil => rfl
  | hhit s a rest hm ih => rw [replaceAll_of_match hm, ih, ← M.matchAt_eq hm]
  | hmiss c s hm ih => rw [replaceAll_of_none hm, ih]

/-- A replacement that puts in the matches themselves changes nothing. -/
theorem replaceAll_eq_self {f : α → List β} {s : List β}
    (h : ∀ a ∈ M.findAll s, f a = M.text a) : M.replaceAll f s = s :=
  (replaceAll_congr h).trans (replaceAll_text s)

end Matcher

end Higress.Lib
