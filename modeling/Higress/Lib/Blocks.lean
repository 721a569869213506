import Higress.Lib.Text

/-!
Texts made of blocks, each with a separator behind it, that arrive in pieces. Splitting what has
arrived at the separator gives the blocks that are complete and the beginning of the next one, and
the same blocks are complete whatever the pieces are.
-/

namespace Higress.Lib

/-- `bytes.ReplaceAll` of a text that is not empty. -/
def replaceAll (s old new : GoString) : GoString := Strings.join (split s old) new

/-! ### Splitting -/

section Split

variable {sep : GoString}

theorem splitFrom_of_index_none {s : GoString} (h : Strings.index s sep = none)
    (part : GoString) : splitFrom sep 0 part s = [part ++ s] := by
  induction s generalizing part with
  | nil => simp [splitFrom]
  | cons b s ih =>
      rw [Strings.index] at h
      split at h
      · cases h
      · rename_i hstart
        have hrest : Strings.index s sep = none := by simpa using h
        rw [splitFrom, if_neg hstart, ih hrest]
        simp

theorem splitFrom_skip (n : ℕ) (part : GoString) {s : GoString} (hn : n ≤ s.length) :
    splitFrom sep n part s = splitFrom sep 0 part (s.drop n) := by
  induction n generalizing s with
  | zero => rfl
  | succ n ih =>
      cases s with
      | nil => simp at hn
      | cons b s =>
          rw [splitFrom, ih (by simpa using hn)]
          rfl

theorem splitFrom_of_index {b : GoString} (h : Strings.index (b ++ sep) sep = some b.length)
    (hsep : sep ≠ []) (part rest : GoString) :
    splitFrom sep 0 part (b ++ (sep ++ rest)) = (part ++ b) :: splitFrom sep 0 [] rest := by
  induction b generalizing part with
  | nil =>
      obtain ⟨c, t, rfl⟩ := List.exists_cons_of_ne_nil hsep
      have hstart : (c :: t).isPrefixOf (c :: (t ++ rest)) = true :=
        List.isPrefixOf_iff_prefix.mpr (List.prefix_append (c :: t) rest)
      rw [List.nil_append, List.cons_append, splitFrom, if_pos hstart, List.append_nil,
        splitFrom_skip _ _ (by simp)]
      simp
  | cons c b ih =>
      rw [List.cons_append, Strings.index] at h
      split at h
      · simp at h
      · rename_i hstart
        have hrest : Strings.index (b ++ sep) sep = some b.length := by simpa using h
        have hstart' : ¬ sep.isPrefixOf (c :: (b ++ (sep ++ rest))) = true := by
          -- the separator would stand within the block and the separator behind it
          intro hp
          have hp' : sep <+: (c :: (b ++ sep)) ++ rest := by
            simpa using List.isPrefixOf_iff_prefix.mp hp
          exact hstart (List.isPrefixOf_iff_prefix.mpr
            (List.prefix_of_prefix_length_le hp' (List.prefix_append _ _) (by simp; omega)))
        rw [List.cons_append, splitFrom, if_neg hstart', ih hrest]
        simp

theorem split_of_index_none {s : GoString} (h : Strings.index s sep = none) : split s sep = [s] :=
  splitFrom_of_index_none h []

theorem index_eq_none_of_notMem {c : UInt8} (hc : sep.head? = some c) {s : GoString} (h : c ∉ s) :
    Strings.index s sep = none := by
  obtain ⟨t, rfl⟩ := List.head?_eq_some_iff.mp hc
  induction s with
  | nil => simp [Strings.index]
  | cons b s ih =>
      simp only [List.mem_cons, not_or] at h
      rw [Strings.index, if_neg (by simp [List.isPrefixOf, h.1])]
      simp [ih h.2]

theorem replaceAll_of_notMem {c : UInt8} {old : GoString} (hc : old.head? = some c) {s : GoString}
    (h : c ∉ s) (new : GoString) : replaceAll s old new = s := by
  rw [replaceAll, split_of_index_none (index_eq_none_of_notMem hc h)]
  simp [Strings.join]

end Split

/-! ### Blocks -/

/-- The separator is first met behind the block, whether it stands there or not. -/
def IsBlock (sep b : GoString) : Prop := Strings.index (b ++ sep) sep = some b.length

/-- Blocks, each with the separator behind it. -/
def sealBlocks (sep : GoString) (blocks : List GoString) : GoString := blocks.flatMap (· ++ sep)

/-- How many of the blocks are complete within the first `n` bytes. -/
def completed (sep : GoString) (n : ℕ) : List GoString → ℕ
  | [] => 0
  | b :: blocks =>
      if (b ++ sep).length ≤ n then completed sep (n - (b ++ sep).length) blocks + 1 else 0

/-- The beginning of the first block, without all of it and its separator. -/
def Opens (sep p : GoString) : List GoString → Prop
  | [] => p = []
  | b :: _ => p <+: b ++ sep ∧ p.length < (b ++ sep).length

section Blocks

variable {sep : GoString}

@[simp] theorem sealBlocks_nil : sealBlocks sep [] = [] := rfl

@[simp] theorem sealBlocks_cons (b : GoString) (blocks : List GoString) :
    sealBlocks sep (b :: blocks) = b ++ (sep ++ sealBlocks sep blocks) := by
  simp [sealBlocks]

theorem sealBlocks_append (blocks blocks' : List GoString) :
    sealBlocks sep (blocks ++ blocks') = sealBlocks sep blocks ++ sealBlocks sep blocks' :=
  List.flatMap_append

/-- Without the last separator, the blocks are joined by it. -/
theorem sealBlocks_eq_join (b : GoString) (blocks : List GoString) :
    sealBlocks sep (b :: blocks) = Strings.join (b :: blocks) sep ++ sep := by
  induction blocks generalizing b with
  | nil => simp [Strings.join]
  | cons b' blocks ih =>
      have hrest := ih b'
      rw [Strings.join] at hrest ⊢
      rw [sealBlocks_cons, hrest, List.intercalate_cons_cons]
      simp

theorem split_cons_block {b : GoString} (hb : IsBlock sep b) (hsep : sep ≠ []) (rest : GoString) :
    split (b ++ (sep ++ rest)) sep = b :: split rest sep := splitFrom_of_index hb hsep [] rest

theorem split_sealBlocks {blocks : List GoString} (hblocks : ∀ b ∈ blocks, IsBlock sep b)
    (hsep : sep ≠ []) {p : GoString} (hp : Strings.index p sep = none) :
    split (sealBlocks sep blocks ++ p) sep = blocks ++ [p] := by
  induction blocks with
  | nil => exact split_of_index_none hp
  | cons b blocks ih =>
      rw [sealBlocks_cons, List.append_assoc, List.append_assoc,
        split_cons_block (hblocks b (by simp)) hsep, ih fun b' hb' => hblocks b' (by simp [hb'])]
      rfl

/-- A block has no separator in it. -/
theorem IsBlock.index_eq_none {b p : GoString} (hb : IsBlock sep b) (hp : p <+: b ++ sep)
    (hlt : p.length < (b ++ sep).length) : Strings.index p sep = none := by
  cases hi : Strings.index p sep with
  | none => rfl
  | some i =>
      exfalso
      obtain ⟨t, ht⟩ := hp
      have hfound := Strings.index_append hi t
      rw [ht, hb] at hfound
      obtain rfl := Option.some.inj hfound
      have hlen := Strings.length_le_of_index hi
      rw [List.length_append] at hlt
      omega

theorem split_join {blocks : List GoString} (hblocks : ∀ b ∈ blocks, IsBlock sep b)
    (hsep : sep ≠ []) (hne : blocks ≠ []) : split (Strings.join blocks sep) sep = blocks := by
  induction blocks with
  | nil => exact absurd rfl hne
  | cons b blocks ih =>
      have hb := hblocks b (by simp)
      cases blocks with
      | nil =>
          have hnone : Strings.index b sep = none :=
            hb.index_eq_none (List.prefix_append _ _) (by
              have := List.length_pos_iff.mpr hsep
              simp
              omega)
          simpa [Strings.join] using split_of_index_none hnone
      | cons b' blocks =>
          have hrest := ih (fun c hc => hblocks c (by simp [hc])) (by simp)
          rw [Strings.join] at hrest ⊢
          rw [List.intercalate_cons_cons, List.append_assoc, split_cons_block hb hsep, hrest]

theorem Opens.index_eq_none {p : GoString} {blocks : List GoString} (h : Opens sep p blocks)
    (hblocks : ∀ b ∈ blocks, IsBlock sep b) (hsep : sep ≠ []) : Strings.index p sep = none := by
  cases blocks with
  | nil =>
      obtain rfl : p = [] := h
      rw [Strings.index, if_neg]
      simpa using hsep
  | cons b blocks => exact (hblocks b (by simp)).index_eq_none h.1 h.2

theorem completed_le (n : ℕ) (blocks : List GoString) : completed sep n blocks ≤ blocks.length := by
  induction blocks generalizing n with
  | nil => simp [completed]
  | cons b blocks ih =>
      rw [completed]
      split
      · simpa using ih _
      · omega

/-- What has arrived is the complete blocks and the beginning of the next one. -/
theorem exists_opens {blocks : List GoString} {t : GoString} (h : t <+: sealBlocks sep blocks) :
    ∃ p, t = sealBlocks sep (blocks.take (completed sep t.length blocks)) ++ p ∧
      Opens sep p (blocks.drop (completed sep t.length blocks)) := by
  induction blocks generalizing t with
  | nil => exact ⟨[], by simpa using h, rfl⟩
  | cons b blocks ih =>
      have hsplit : t <+: (b ++ sep) ++ sealBlocks sep blocks := by simpa using h
      rw [completed]
      split
      · rename_i hle
        obtain ⟨u, rfl⟩ := List.prefix_of_prefix_length_le (List.prefix_append _ _) hsplit hle
        obtain ⟨p, hp, hopens⟩ := ih (List.prefix_append_right_inj _ |>.mp hsplit)
        have hlen : (b ++ sep ++ u).length - (b ++ sep).length = u.length := by
          rw [@List.length_append _ (b ++ sep), Nat.add_sub_cancel_left]
        rw [hlen]
        refine ⟨p, ?_, by simpa using hopens⟩
        calc
          b ++ sep ++ u = b ++ sep ++
              (sealBlocks sep (blocks.take (completed sep u.length blocks)) ++ p) := by rw [← hp]
          _ = _ := by simp
      · rename_i hle
        exact ⟨t, by simp, List.prefix_of_prefix_length_le hsplit (List.prefix_append _ _)
          (by omega), by omega⟩

/-- Behind complete blocks, the following ones are counted from their own beginning. -/
theorem completed_add {blocks : List GoString} {k : ℕ} (hk : k ≤ blocks.length) (n : ℕ) :
    completed sep ((sealBlocks sep (blocks.take k)).length + n) blocks =
      k + completed sep n (blocks.drop k) := by
  induction blocks generalizing k with
  | nil =>
      obtain rfl : k = 0 := by simpa using hk
      simp [completed]
  | cons b blocks ih =>
      cases k with
      | zero => simp
      | succ k =>
          have hrest := ih (k := k) (by simpa using hk)
          have hlen : (sealBlocks sep ((b :: blocks).take (k + 1))).length + n =
              (b ++ sep).length + ((sealBlocks sep (blocks.take k)).length + n) := by
            simp
            omega
          rw [hlen, completed, if_pos (by omega), Nat.add_sub_cancel_left, hrest]
          simp
          omega

/-- The blocks that a piece completes: they begin with what was left open. -/
theorem completed_append {blocks : List GoString} {t chunk p : GoString}
    (h : t ++ chunk <+: sealBlocks sep blocks)
    (ht : t = sealBlocks sep (blocks.take (completed sep t.length blocks)) ++ p) :
    ∃ more p', completed sep (t ++ chunk).length blocks = completed sep t.length blocks + more ∧
      p ++ chunk =
        sealBlocks sep ((blocks.drop (completed sep t.length blocks)).take more) ++ p' ∧
      Opens sep p' (blocks.drop (completed sep t.length blocks + more)) := by
  obtain ⟨p', hsplit, hopens⟩ := exists_opens h
  generalize hk : completed sep t.length blocks = k at *
  have hkle : k ≤ blocks.length := hk ▸ completed_le _ _
  have hlen : (t ++ chunk).length = (sealBlocks sep (blocks.take k)).length + (p ++ chunk).length := by
    have hsum := congrArg List.length ht
    rw [List.length_append] at hsum ⊢
    rw [List.length_append, hsum]
    omega
  have hsum : completed sep (t ++ chunk).length blocks =
      k + completed sep (p ++ chunk).length (blocks.drop k) := by
    rw [hlen, completed_add hkle]
  rw [hsum] at hsplit hopens
  refine ⟨_, p', hsum, ?_, hopens⟩
  rw [List.take_add, sealBlocks_append] at hsplit
  have hsame : sealBlocks sep (blocks.take k) ++ (p ++ chunk) = sealBlocks sep (blocks.take k) ++
      (sealBlocks sep ((blocks.drop k).take (completed sep (p ++ chunk).length (blocks.drop k))) ++
        p') := by
    rw [← List.append_assoc, ← List.append_assoc, ← hsplit]
    exact congrArg (· ++ chunk) ht.symm
  exact List.append_cancel_left hsame

end Blocks

/-! ### Lines -/

theorem isBlock_line {line : GoString} (h : 10 ∉ line) : IsBlock [10] line := by
  rw [IsBlock]
  induction line with
  | nil => simp [Strings.index]
  | cons b line ih =>
      simp only [List.mem_cons, not_or] at h
      rw [List.cons_append, Strings.index, if_neg (by simp [List.isPrefixOf, h.1]), ih h.2]
      simp

/-- Lines that are not empty are a block up to the next empty line. -/
theorem isBlock_lines {lines : List GoString} (hne : lines ≠ [])
    (h : ∀ line ∈ lines, line ≠ [] ∧ 10 ∉ line) : IsBlock [10, 10] (Strings.join lines [10]) := by
  have hskip {line : GoString} (hline : 10 ∉ line) (t : GoString) :
      Strings.index (line ++ t) [10, 10] = (Strings.index t [10, 10]).map (· + line.length) := by
    induction line with
    | nil => simp
    | cons b line ih =>
        simp only [List.mem_cons, not_or] at hline
        rw [List.cons_append, Strings.index, if_neg (by simp [List.isPrefixOf, hline.1]), ih hline.2]
        simp [Function.comp_def, Nat.add_assoc]
  rw [IsBlock]
  induction lines with
  | nil => exact absurd rfl hne
  | cons line lines ih =>
      obtain ⟨-, hline⟩ := h line (by simp)
      cases lines with
      | nil => simp [Strings.join, hskip hline, Strings.index]
      | cons line' lines =>
          have hrest := ih (by simp) fun l hl => h l (by simp [hl])
          -- the next line is not empty, so the line break between the two is a single one
          have hbreak : ¬ ([10, 10] : GoString).isPrefixOf
              (10 :: (Strings.join (line' :: lines) [10] ++ [10, 10])) = true := by
            obtain ⟨hline', hbreak'⟩ := h line' (by simp)
            obtain ⟨c, t, rfl⟩ := List.exists_cons_of_ne_nil hline'
            have hc : c ≠ 10 := fun heq => hbreak' (by simp [heq])
            cases lines <;> simp [Strings.join, List.intercalate_cons_cons, List.isPrefixOf, hc.symm]
          have hjoin : Strings.join (line :: line' :: lines) [10] ++ [10, 10] =
              line ++ (10 :: (Strings.join (line' :: lines) [10] ++ [10, 10])) := by
            simp [Strings.join, List.intercalate_cons_cons]
          rw [hjoin, hskip hline, Strings.index, if_neg hbreak, hrest]
          simp [Strings.join, List.intercalate_cons_cons]
          omega

/-- The beginning of a block does not end with an empty line, also not with one that begins
before it. -/
theorem Opens.not_suffix {p : GoString} {blocks : List GoString} (h : Opens [10, 10] p blocks)
    (hblocks : ∀ b ∈ blocks, IsBlock [10, 10] b ∧ b ≠ [] ∧ b.head? ≠ some 10) (hp : p ≠ [])
    (s : GoString) : ¬ [10, 10] <:+ s ++ p := by
  intro hsuffix
  have hnone := h.index_eq_none (fun b hb => (hblocks b hb).1) (by simp)
  cases p with
  | nil => exact hp rfl
  | cons c p =>
      cases p with
      | nil =>
          -- the byte is the first one of the block
          cases blocks with
          | nil => cases h
          | cons b blocks =>
              obtain ⟨-, hne, hhead⟩ := hblocks b (by simp)
              obtain ⟨d, t, rfl⟩ := List.exists_cons_of_ne_nil hne
              obtain ⟨u, hu⟩ := h.1
              obtain ⟨v, hv⟩ := hsuffix
              have hc : c = d := (List.cons.inj hu).1
              have hlast : (10 : UInt8) = c := by
                simpa using congrArg List.getLast? hv
              exact hhead (by simp [← hc, ← hlast])
      | cons d p =>
          have hinfix : [10, 10] <:+: c :: d :: p :=
            (List.suffix_of_suffix_length_le hsuffix (List.suffix_append _ _) (by simp)).isInfix
          have hfound := (contains_iff_isInfix _ _).mpr hinfix
          rw [Strings.contains, hnone] at hfound
          cases hfound

end Higress.Lib
