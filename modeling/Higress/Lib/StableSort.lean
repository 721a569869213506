import Mathlib.Data.List.Triplewise
import Mathlib.Data.List.Perm.Basic
import Mathlib.Tactic.Common

/-!
The stable sort of Go's `sort` package, for a comparison that need not be a
strict weak order.

The package asks its callers for a comparison whose incomparability is
transitive and promises nothing otherwise. The algorithm itself is an
insertion sort of blocks of twenty elements followed by in-place symmetric
merges, and every comparison it makes is of the form "does the element that
stands further right precede the one that stands further left". What the
result looks like is therefore decided by these pairs alone, and the exact
requirement on them is about triples: whenever the last element of a triple
precedes the first, the middle one has to be on one side of the inversion.
`Consistent` states this. For a transitive comparison it is enough for the
sort to deliver an ordered list (`ordered_sliceStable`), and on a list that
fits in one block it is also necessary (`consistent_of_ordered_insertionSort`).
-/

namespace Higress.Lib.StableSort

variable {α : Type*} (less : α → α → Bool)

/-! ### The algorithm -/

/-- One pass of the inner loop of the insertion sort. The sorted part is held
back to front, so the element moves left by moving towards the tail. -/
def insertBack (y : α) : List α → List α
  | [] => [y]
  | x :: rest => if less y x then x :: insertBack y rest else y :: x :: rest

/-- `insertionSort_func`: the elements of a block are inserted left to right. -/
def insertionSort (l : List α) : List α :=
  (l.foldl (fun sorted y => insertBack less y sorted) []).reverse

/-- The binary search loop that all three searches of `symMerge_func` share:
go right of the probe when `right` holds there. -/
def search (right : ℕ → Bool) (i j : ℕ) : ℕ :=
  if i < j then
    if right ((i + j) / 2) then search right ((i + j) / 2 + 1) j
    else search right i ((i + j) / 2)
  else i
termination_by j - i

/-- The comparison `Less(h, c)` of an index `h` of the right block with an
index `c` of the left block, both counted from the start of their block. -/
def lessAt (ys : List α) (h : ℕ) (xs : List α) (c : ℕ) : Bool :=
  match ys[h]?, xs[c]? with
  | some y, some x => less y x
  | _, _ => false

/-- The split point of `symMerge_func`: how many elements of the left block
stay in the first half of the merged range. -/
def splitPoint (xs ys : List α) : ℕ :=
  let mid := (xs.length + ys.length) / 2
  let right := fun c => !lessAt less ys (mid - 1 - c) xs c
  if mid < xs.length then search right (mid + xs.length - (xs.length + ys.length)) mid
  else search right 0 xs.length

/-- `symMerge_func` on two adjacent blocks. The rotation exchanges the tail
of the left block with the head of the right one, after which both halves are
merged on their own. -/
def symMerge (xs ys : List α) : List α :=
  match xs, ys with
  | [], ys => ys
  | x :: xs, [] => x :: xs
  | [x], y :: ys =>
      let k := search (fun h => lessAt less (y :: ys) h [x] 0) 0 (y :: ys).length
      (y :: ys).take k ++ x :: (y :: ys).drop k
  | x :: x' :: xs, [y] =>
      let k := search (fun h => !lessAt less [y] 0 (x :: x' :: xs) h) 0 (x :: x' :: xs).length
      (x :: x' :: xs).take k ++ y :: (x :: x' :: xs).drop k
  | x :: x' :: xs, y :: y' :: ys =>
      let mid := ((x :: x' :: xs).length + (y :: y' :: ys).length) / 2
      let start := splitPoint less (x :: x' :: xs) (y :: y' :: ys)
      symMerge ((x :: x' :: xs).take start) ((y :: y' :: ys).take (mid - start)) ++
        symMerge ((x :: x' :: xs).drop start) ((y :: y' :: ys).drop (mid - start))
termination_by xs.length + ys.length
decreasing_by
  all_goals simp only [List.length_take, List.length_drop, List.length_cons]; omega

/-- The blocks that are sorted on their own before the first merge. -/
def blocks (size : ℕ) (l : List α) : List (List α) :=
  if 0 < size ∧ size < l.length then l.take size :: blocks size (l.drop size) else [l]
termination_by l.length
decreasing_by simp only [List.length_drop]; omega

/-- One merge pass over neighbouring blocks; an odd last block is left alone. -/
def mergePass : List (List α) → List (List α)
  | x :: y :: rest => symMerge less x y :: mergePass rest
  | rest => rest

theorem length_mergePass_le (bs : List (List α)) :
    (mergePass less bs).length ≤ bs.length := by
  induction bs using mergePass.induct with
  | case1 x y rest ih => simp only [mergePass, List.length_cons]; omega
  | case2 rest hne => simp [mergePass]

/-- The doubling loop of `stable_func`. -/
def mergeBlocks : List (List α) → List α
  | [] => []
  | [x] => x
  | x :: y :: rest => mergeBlocks (symMerge less x y :: mergePass less rest)
termination_by bs => bs.length
decreasing_by
  have := length_mergePass_le less rest
  simp only [List.length_cons]; omega

/-- `sort.SliceStable`, which is `stable_func` with blocks of twenty. -/
def sliceStable (l : List α) : List α :=
  mergeBlocks less ((blocks 20 l).map (insertionSort less))

theorem sliceStable_of_length_le {l : List α} (h : l.length ≤ 20) :
    sliceStable less l = insertionSort less l := by
  have hb : blocks 20 l = [l] := by
    rw [blocks, if_neg (by omega)]
  simp [sliceStable, hb, mergeBlocks]

/-! ### Ordered lists and consistent triples -/

/-- No later element precedes an earlier one. -/
def Ordered (l : List α) : Prop := l.Pairwise fun x y => less y x = false

/-- Whenever the last element of a triple precedes the first, the middle one
precedes the first or is preceded by the last. -/
def Consistent (l : List α) : Prop :=
  l.Triplewise fun x y z => less z x = true → less y x = true ∨ less z y = true

/-- `l'` arises from `l` by exchanging only pairs that the comparison wants
exchanged. The relation `R` stands for anything known about the pairs of `l`
in list order. -/
structure Reorders (l l' : List α) : Prop where
  perm : l'.Perm l
  pairwise : ∀ R : α → α → Prop, l.Pairwise R →
    (∀ a ∈ l, ∀ b ∈ l, less a b = true → R a b) → l'.Pairwise R

theorem Reorders.refl (l : List α) : Reorders less l l :=
  ⟨List.Perm.refl l, fun _ h _ => h⟩

variable {less}

theorem Reorders.trans {l₁ l₂ l₃ : List α} (h₁ : Reorders less l₁ l₂)
    (h₂ : Reorders less l₂ l₃) : Reorders less l₁ l₃ where
  perm := h₂.perm.trans h₁.perm
  pairwise R hR hless :=
    h₂.pairwise R (h₁.pairwise R hR hless) fun a ha b hb =>
      hless a (h₁.perm.mem_iff.mp ha) b (h₁.perm.mem_iff.mp hb)

theorem Reorders.append {l₁ l₁' l₂ l₂' : List α} (h₁ : Reorders less l₁ l₁')
    (h₂ : Reorders less l₂ l₂') : Reorders less (l₁ ++ l₂) (l₁' ++ l₂') where
  perm := h₁.perm.append h₂.perm
  pairwise R hR hless := by
    obtain ⟨hR₁, hR₂, hcross⟩ := List.pairwise_append.mp hR
    refine List.pairwise_append.mpr ⟨?_, ?_, ?_⟩
    · exact h₁.pairwise R hR₁ fun a ha b hb =>
        hless a (List.mem_append_left _ ha) b (List.mem_append_left _ hb)
    · exact h₂.pairwise R hR₂ fun a ha b hb =>
        hless a (List.mem_append_right _ ha) b (List.mem_append_right _ hb)
    · intro a ha b hb
      exact hcross a (h₁.perm.mem_iff.mp ha) b (h₂.perm.mem_iff.mp hb)

theorem Ordered.consistent {l : List α} (h : Ordered less l) : Consistent less l := by
  induction l with
  | nil => exact .nil
  | cons x l ih =>
      obtain ⟨hx, hl⟩ := List.pairwise_cons.mp h
      refine .cons ?_ (ih hl)
      refine List.pairwise_iff_forall_sublist.mpr fun {y z} hyz hzx => ?_
      have hz : z ∈ l := hyz.subset (by simp)
      simp [hx z hz] at hzx

/-- A part of a consistent list may be replaced by an ordered rearrangement of
it without losing consistency with what stands around it. -/
theorem Consistent.replace (htrans : ∀ a b c, less a b = true → less b c = true → less a c = true)
    {A X X' B : List α} (h : Consistent less (A ++ (X ++ B))) (hr : Reorders less X X')
    (ho : Ordered less X') : Consistent less (A ++ (X' ++ B)) := by
  obtain ⟨hA, hXB, hAXB, hXBA⟩ := List.triplewise_append.mp h
  obtain ⟨-, hB, hXpairB, hBpairX⟩ := List.triplewise_append.mp hXB
  have hmem : ∀ {a}, a ∈ X' → a ∈ X := fun ha => hr.perm.mem_iff.mp ha
  refine List.triplewise_append.mpr ⟨hA, List.triplewise_append.mpr
    ⟨ho.consistent, hB, fun x hx => hXpairB x (hmem hx), fun b hb => ?_⟩,
    fun a ha => ?_, fun z hz => ?_⟩
  · -- a pair of the rearranged part followed by an element to its right
    refine hr.pairwise _ (hBpairX b hb) fun x _ y _ hxy hbx => Or.inr ?_
    exact htrans _ _ _ hbx hxy
  · -- an element to its left followed by a pair of the rearranged part
    obtain ⟨hX, hBp, hcross⟩ := List.pairwise_append.mp (hAXB a ha)
    refine List.pairwise_append.mpr ⟨?_, hBp, fun x hx b hb => hcross x (hmem hx) b hb⟩
    exact hr.pairwise _ hX fun x _ y _ hxy hya => Or.inl (htrans _ _ _ hxy hya)
  · rcases List.mem_append.mp hz with hz | hz
    · exact hXBA z (List.mem_append_left _ (hmem hz))
    · exact hXBA z (List.mem_append_right _ hz)

/-! ### The insertion sort of one block -/

/-- Where an inserted element ends up: it has passed exactly a stretch of
elements it precedes, and the next one it does not precede. -/
theorem insertBack_split (y : α) (rest : List α) :
    ∃ passed kept, rest = passed ++ kept ∧ insertBack less y rest = passed ++ y :: kept ∧
      (∀ x ∈ passed, less y x = true) ∧ (∀ x ∈ kept.head?, less y x = false) := by
  induction rest with
  | nil => exact ⟨[], [], rfl, rfl, by simp, by simp⟩
  | cons x rest ih =>
      by_cases hx : less y x = true
      · obtain ⟨passed, kept, hrest, hins, hpassed, hkept⟩ := ih
        refine ⟨x :: passed, kept, by simp [hrest], by simp [insertBack, hx, hins], ?_, hkept⟩
        simpa [hx] using hpassed
      · have hx' : less y x = false := by simpa using hx
        exact ⟨[], x :: rest, rfl, by simp [insertBack, hx'], by simp, by simp [hx']⟩

theorem reorders_insertBack (y : α) (rest : List α) :
    Reorders less (rest.reverse ++ [y]) (insertBack less y rest).reverse := by
  obtain ⟨passed, kept, hrest, hins, hpassed, -⟩ := @insertBack_split _ less y rest
  rw [hins, hrest]
  simp only [List.reverse_append, List.reverse_cons, List.append_assoc]
  refine (Reorders.refl less kept.reverse).append ⟨?_, fun R hR hless => ?_⟩
  · simpa using @List.perm_append_comm _ [y] passed.reverse
  · have hpw := (List.pairwise_append.mp hR).1
    refine List.pairwise_append.mpr ⟨List.pairwise_singleton _ _, hpw, fun a ha b hb => ?_⟩
    obtain rfl : a = y := by simpa using ha
    have hb' : b ∈ passed := by simpa using hb
    exact hless a (by simp) b (by simp [hb']) (hpassed b hb')

/-- The invariant of the outer loop: what has been inserted so far followed by
what has not is a rearrangement of the block. -/
theorem reorders_foldl_insertBack (l sorted : List α) :
    Reorders less (sorted.reverse ++ l)
      (l.foldl (fun sorted y => insertBack less y sorted) sorted).reverse := by
  induction l generalizing sorted with
  | nil => simpa using Reorders.refl less sorted.reverse
  | cons y l ih =>
      rw [List.foldl_cons, show sorted.reverse ++ y :: l = (sorted.reverse ++ [y]) ++ l by simp]
      exact ((reorders_insertBack y sorted).append (Reorders.refl less l)).trans (ih _)

theorem reorders_insertionSort (l : List α) : Reorders less l (insertionSort less l) := by
  simpa [insertionSort] using @reorders_foldl_insertBack _ less l []

/-- An element that is consistent with every pair of an ordered part lands
where the part stays ordered: it does not precede the element it stopped at,
so it cannot precede one further left either. -/
theorem ordered_insertBack (hasymm : ∀ a b, less a b = true → less b a = false)
    {y : α} {rest : List α} (ho : Ordered less rest.reverse)
    (hy : rest.reverse.Pairwise fun x w => less y x = true → less w x = true ∨ less y w = true) :
    Ordered less (insertBack less y rest).reverse := by
  obtain ⟨passed, kept, hrest, hins, hpassed, hkept⟩ := @insertBack_split _ less y rest
  rw [Ordered, List.pairwise_reverse] at ho ⊢
  rw [List.pairwise_reverse] at hy
  rw [hrest] at ho hy
  rw [hins]
  obtain ⟨hop, hok, hcross⟩ := List.pairwise_append.mp ho
  refine List.pairwise_append.mpr ⟨hop, List.pairwise_cons.mpr ⟨fun x hx => ?_, hok⟩,
    fun w hw x hx => ?_⟩
  · cases kept with
    | nil => simp at hx
    | cons w kept =>
        have hw : less y w = false := hkept w (by simp)
        rcases List.mem_cons.mp hx with rfl | hx
        · exact hw
        · have hwx : less w x = false := (List.pairwise_cons.mp hok).1 x hx
          have hyx := (List.pairwise_cons.mp (List.pairwise_append.mp hy).2.1).1 x hx
          simpa [hw, hwx] using hyx
  · rcases List.mem_cons.mp hx with rfl | hx
    · exact hasymm _ _ (hpassed w hw)
    · exact hcross w hw x hx

theorem ordered_insertionSort (htrans : ∀ a b c, less a b = true → less b c = true → less a c = true)
    (hasymm : ∀ a b, less a b = true → less b a = false) {l : List α}
    (h : Consistent less l) : Ordered less (insertionSort less l) := by
  suffices key : ∀ l sorted : List α, Ordered less sorted.reverse →
      Consistent less (sorted.reverse ++ l) →
      Ordered less (l.foldl (fun sorted y => insertBack less y sorted) sorted).reverse by
    exact key l [] List.Pairwise.nil (by simpa using h)
  intro l
  induction l with
  | nil => exact fun sorted ho _ => ho
  | cons y l ih =>
      intro sorted ho hc
      have hy := (List.triplewise_append.mp hc).2.2.2 y (by simp)
      have hins := ordered_insertBack hasymm ho hy
      refine ih (insertBack less y sorted) hins ?_
      have hc' : Consistent less ([] ++ ((sorted.reverse ++ [y]) ++ l)) := by simpa using hc
      simpa using hc'.replace htrans (reorders_insertBack y sorted) hins

/-- A block that comes out ordered was consistent: an element never passes one
it does not precede, so a triple with an inversion across its middle element
keeps that inversion. Nothing is asked of the comparison. -/
theorem consistent_of_ordered_insertionSort {l : List α}
    (h : Ordered less (insertionSort less l)) : Consistent less l := by
  suffices key : ∀ l sorted : List α,
      Ordered less (l.foldl (fun sorted y => insertBack less y sorted) sorted).reverse →
      Ordered less sorted.reverse ∧ Consistent less (sorted.reverse ++ l) by
    simpa using (key l [] h).2
  intro l
  induction l with
  | nil =>
      intro sorted ho
      exact ⟨ho, by simpa using Ordered.consistent ho⟩
  | cons y l ih =>
      intro sorted ho
      obtain ⟨hins, hc⟩ := ih (insertBack less y sorted) ho
      obtain ⟨passed, kept, hrest, hsplit, hpassed, -⟩ :=
        @insertBack_split _ less y sorted
      rw [hsplit] at hins hc
      subst hrest
      have hsub : (passed ++ kept).reverse.Sublist (passed ++ y :: kept).reverse :=
        (List.Sublist.append_left (List.sublist_cons_self y kept) passed).reverse
      have hmem : ∀ {x}, x ∈ (passed ++ kept).reverse → x ∈ (passed ++ y :: kept).reverse :=
        fun hx => hsub.subset hx
      have hkeptLast : ∀ x ∈ kept, less y x = false := by
        rw [Ordered, List.pairwise_reverse] at hins
        exact (List.pairwise_cons.mp (List.pairwise_append.mp hins).2.1).1
      have hord : Ordered less (passed ++ kept).reverse := hins.sublist hsub
      obtain ⟨-, hl, hright, hleft⟩ := List.triplewise_append.mp hc
      refine ⟨hord, List.triplewise_append.mpr ⟨hord.consistent, .cons (hright y (by simp)) hl,
        fun x hx => List.pairwise_cons.mpr ⟨fun z hz hzx => ?_, hright x (hmem hx)⟩,
        fun z hz => ?_⟩⟩
      · -- the inserted element in the middle of the triple
        rcases List.mem_append.mp (List.mem_reverse.mp hx) with hxp | hxk
        · exact Or.inl (hpassed x hxp)
        · have hp := hleft z hz
          rw [List.pairwise_reverse] at hp
          exact (List.pairwise_cons.mp (List.pairwise_append.mp hp).2.1).1 x hxk hzx
      · rcases List.mem_cons.mp hz with rfl | hz
        · -- the inserted element as the last one of the triple
          rw [List.pairwise_reverse]
          refine List.pairwise_append.mpr ⟨?_, ?_, fun w hw x _ _ => Or.inr (hpassed w hw)⟩
          · exact List.Pairwise.imp_of_mem (R := fun _ _ => True)
              (fun hw _ _ _ => Or.inr (hpassed _ hw)) (List.pairwise_of_forall fun _ _ => trivial)
          · refine List.Pairwise.imp_of_mem (R := fun _ _ => True)
              (fun _ hx _ hyx => ?_) (List.pairwise_of_forall fun _ _ => trivial)
            simp [hkeptLast _ hx] at hyx
        · exact (hleft z hz).sublist hsub

/-- Of two neighbours of a block of which the second precedes the first, the
second comes out first: it passes everything its neighbour has passed, and the
neighbour itself. Nothing is asked of the other elements. -/
theorem insertionSort_exchanges (htrans : ∀ a b c, less a b = true → less b c = true → less a c = true)
    (hasymm : ∀ a b, less a b = true → less b a = false) {pre post : List α} {x y : α}
    (hyx : less y x = true) (hx : x ∉ pre ++ post) (hy : y ∉ pre ++ post) :
    (insertionSort less (pre ++ x :: y :: post)).Pairwise fun a b => ¬(a = x ∧ b = y) := by
  have hne : x ≠ y := by
    rintro rfl
    simpa [hyx] using hasymm x x hyx
  set sorted := pre.foldl (fun sorted y => insertBack less y sorted) []
  have hsorted : sorted.Perm pre :=
    (List.reverse_perm sorted).symm.trans (@reorders_insertionSort _ less pre).perm
  have hx' : x ∉ sorted ++ post := by simpa [hsorted.mem_iff] using hx
  have hy' : y ∉ sorted ++ post := by simpa [hsorted.mem_iff] using hy
  obtain ⟨passed, kept, hrest, hins, hpassed, -⟩ := @insertBack_split _ less x sorted
  have hsecond : insertBack less y (passed ++ x :: kept) =
      passed ++ x :: insertBack less y kept := by
    clear hrest hins
    induction passed with
    | nil => simp [insertBack, hyx]
    | cons p passed ih =>
        have hp : less y p = true := htrans y x p hyx (hpassed p (by simp))
        simp [insertBack, hp, ih fun q hq => hpassed q (by simp [hq])]
  have hrun := @reorders_foldl_insertBack _ less post (passed ++ x :: insertBack less y kept)
  have hsort : insertionSort less (pre ++ x :: y :: post) =
      (post.foldl (fun sorted y => insertBack less y sorted)
        (passed ++ x :: insertBack less y kept)).reverse := by
    rw [insertionSort, List.foldl_append, List.foldl_cons, List.foldl_cons, hins, hsecond]
  rw [hsort]
  refine hrun.pairwise (fun a b => ¬(a = x ∧ b = y)) ?_ fun a _ b _ hab h => ?_
  · -- the second element stands before the first one, and neither occurs again
    have hmem : ∀ a ∈ (insertBack less y kept).reverse, a ≠ x := by
      intro a ha hax
      have ha' := (@reorders_insertBack _ less y kept).perm.mem_iff.mp ha
      simp only [List.mem_append, List.mem_reverse, List.mem_singleton, hax] at ha'
      exact ha'.elim (fun h => hx' (by simp [hrest, h])) hne
    have hmem' : ∀ b ∈ x :: (passed.reverse ++ post), b ≠ y := by
      rintro b hb rfl
      simp only [List.mem_cons, List.mem_append, List.mem_reverse] at hb
      rcases hb with h | h | h
      · exact hne h.symm
      · exact hy' (by simp [hrest, h])
      · exact hy' (by simp [h])
    rw [show (passed ++ x :: insertBack less y kept).reverse ++ post =
      (insertBack less y kept).reverse ++ x :: (passed.reverse ++ post) by simp]
    refine List.pairwise_append.mpr ⟨?_, ?_, fun a ha _ _ h => hmem a ha h.1⟩
    · exact List.pairwise_iff_forall_sublist.mpr fun h hab =>
        hmem _ (h.subset (by simp)) hab.1
    · exact List.pairwise_iff_forall_sublist.mpr fun h hab =>
        hmem' _ (h.subset (by simp)) hab.2
  · rw [h.1, h.2] at hab
    simp [hasymm _ _ hyx] at hab

/-! ### The symmetric merge -/

/-- What the binary search loop leaves behind, with nothing asked of `right`:
the probe just left of the result was passed and the one at the result not. -/
theorem search_spec (right : ℕ → Bool) (i j : ℕ) (hij : i ≤ j) :
    i ≤ search right i j ∧ search right i j ≤ j ∧
      (i < search right i j → right (search right i j - 1) = true) ∧
      (search right i j < j → right (search right i j) = false) := by
  induction i, j using search.induct right with
  | case1 i j hlt hright ih =>
      rw [search, if_pos hlt, if_pos hright]
      obtain ⟨hle, hge, hprev, hnext⟩ := ih (by omega)
      refine ⟨by omega, hge, fun _ => ?_, hnext⟩
      by_cases heq : (i + j) / 2 + 1 < search right ((i + j) / 2 + 1) j
      · exact hprev heq
      · rw [show search right ((i + j) / 2 + 1) j - 1 = (i + j) / 2 by omega]
        exact hright
  | case2 i j hlt hright ih =>
      rw [search, if_pos hlt, if_neg hright]
      obtain ⟨hle, hge, hprev, hnext⟩ := ih (by omega)
      refine ⟨hle, by omega, hprev, fun _ => ?_⟩
      by_cases heq : search right i ((i + j) / 2) < (i + j) / 2
      · exact hnext heq
      · rw [show search right i ((i + j) / 2) = (i + j) / 2 by omega]
        simpa using hright
  | case3 i j hlt =>
      rw [search, if_neg hlt]
      exact ⟨Nat.le_refl i, hij, fun h => absurd h (Nat.lt_irrefl i), fun h => absurd h hlt⟩

/-- What a merge needs of its two blocks: both are ordered, and the pairs the
comparison wants exchanged form a staircase. -/
structure Mergeable (less : α → α → Bool) (xs ys : List α) : Prop where
  left : Ordered less xs
  right : Ordered less ys
  stairLeft : ∀ y ∈ ys, xs.Pairwise fun x x' => less y x = true → less y x' = true
  stairRight : ∀ x ∈ xs, ys.Pairwise fun y y' => less y' x = true → less y x = true

theorem Consistent.mergeable {xs ys : List α} (h : Consistent less (xs ++ ys))
    (hx : Ordered less xs) (hy : Ordered less ys) : Mergeable less xs ys where
  left := hx
  right := hy
  stairLeft y hmem := by
    refine ((List.triplewise_append.mp h).2.2.2 y hmem).imp₂ (fun x x' hc ho hyx => ?_) hx
    simpa [ho] using hc hyx
  stairRight x hmem := by
    refine ((List.triplewise_append.mp h).2.2.1 x hmem).imp₂ (fun y y' hc ho hyx => ?_) hy
    simpa [ho] using hc hyx

theorem Mergeable.sublist {xs ys xs' ys' : List α} (h : Mergeable less xs ys)
    (hx : xs'.Sublist xs) (hy : ys'.Sublist ys) : Mergeable less xs' ys' where
  left := h.left.sublist hx
  right := h.right.sublist hy
  stairLeft y hmem := (h.stairLeft y (hy.subset hmem)).sublist hx
  stairRight x hmem := (h.stairRight x (hx.subset hmem)).sublist hy

theorem Mergeable.stair {xs ys : List α} (h : Mergeable less xs ys) {i i' j j' : ℕ}
    (hi : i ≤ i') (hi' : i' < xs.length) (hj : j' ≤ j) (hj' : j < ys.length)
    (hless : less ys[j] xs[i] = true) : less ys[j'] xs[i'] = true := by
  have hright : less ys[j'] xs[i] = true := by
    rcases Nat.lt_or_eq_of_le hj with hlt | rfl
    · exact List.pairwise_iff_getElem.mp (h.stairRight xs[i] (List.getElem_mem _)) j' j
        (by omega) hj' hlt hless
    · exact hless
  rcases Nat.lt_or_eq_of_le hi with hlt | rfl
  · exact List.pairwise_iff_getElem.mp (h.stairLeft ys[j'] (List.getElem_mem _)) i i'
      (by omega) hi' hlt hright
  · exact hright

/-- Both blocks are cut so that the head of the right one precedes the tail of
the left one and nothing else has to cross. -/
structure Cut (less : α → α → Bool) (xs ys : List α) (s t : ℕ) : Prop where
  cross : ∀ y ∈ ys.take t, ∀ x ∈ xs.drop s, less y x = true
  keep : ∀ y ∈ ys.drop t, ∀ x ∈ xs.take s, less y x = false

/-- A cut is found as soon as the two comparisons at its corners are known. -/
theorem Mergeable.cut {xs ys : List α} (h : Mergeable less xs ys) {s t : ℕ}
    (hcross : 0 < t → s < xs.length → lessAt less ys (t - 1) xs s = true)
    (hkeep : 0 < s → t < ys.length → lessAt less ys t xs (s - 1) = false)
    (hs : s ≤ xs.length) (ht : t ≤ ys.length) : Cut less xs ys s t where
  cross y hy x hx := by
    obtain ⟨j, hj, rfl⟩ := List.mem_iff_getElem.mp hy
    obtain ⟨i, hi, rfl⟩ := List.mem_iff_getElem.mp hx
    simp only [List.length_take, List.length_drop] at hj hi
    rw [List.getElem_take, List.getElem_drop]
    refine h.stair (i := s) (j := t - 1) (by omega) (by omega) (by omega) (by omega) ?_
    simpa [lessAt, List.getElem?_eq_getElem (show t - 1 < ys.length by omega),
      List.getElem?_eq_getElem (show s < xs.length by omega)] using
      hcross (by omega) (by omega)
  keep y hy x hx := by
    obtain ⟨j, hj, rfl⟩ := List.mem_iff_getElem.mp hy
    obtain ⟨i, hi, rfl⟩ := List.mem_iff_getElem.mp hx
    simp only [List.length_take, List.length_drop] at hj hi
    rw [List.getElem_take, List.getElem_drop]
    by_contra hless
    have hcorner : less ys[t] xs[s - 1] = true :=
      h.stair (i := i) (j := t + j) (by omega) (by omega) (by omega) (by omega)
        (by simpa using hless)
    have hfalse := hkeep (by omega) (by omega)
    simp [lessAt, List.getElem?_eq_getElem (show t < ys.length by omega),
      List.getElem?_eq_getElem (show s - 1 < xs.length by omega), hcorner] at hfalse

/-- Two ordered halves on the two sides of a cut make an ordered whole. -/
theorem Cut.combine (hasymm : ∀ a b, less a b = true → less b a = false)
    {xs ys P Q : List α} {s t : ℕ} (hm : Mergeable less xs ys) (hcut : Cut less xs ys s t)
    (hP : Ordered less P ∧ Reorders less (xs.take s ++ ys.take t) P)
    (hQ : Ordered less Q ∧ Reorders less (xs.drop s ++ ys.drop t) Q) :
    Ordered less (P ++ Q) ∧ Reorders less (xs ++ ys) (P ++ Q) := by
  have hleft := List.pairwise_append.mp
    (show (xs.take s ++ xs.drop s).Pairwise _ by rw [List.take_append_drop]; exact hm.left)
  have hright := List.pairwise_append.mp
    (show (ys.take t ++ ys.drop t).Pairwise _ by rw [List.take_append_drop]; exact hm.right)
  constructor
  · refine List.pairwise_append.mpr ⟨hP.1, hQ.1, fun a ha b hb => ?_⟩
    rcases List.mem_append.mp (hP.2.perm.mem_iff.mp ha) with ha | ha <;>
      rcases List.mem_append.mp (hQ.2.perm.mem_iff.mp hb) with hb | hb
    · exact hleft.2.2 a ha b hb
    · exact hcut.keep b hb a ha
    · exact hasymm _ _ (hcut.cross a ha b hb)
    · exact hright.2.2 a ha b hb
  · have hrotate : Reorders less (xs ++ ys)
        ((xs.take s ++ ys.take t) ++ (xs.drop s ++ ys.drop t)) := by
      have hsplit : xs ++ ys =
          xs.take s ++ ((xs.drop s ++ ys.take t) ++ ys.drop t) := by
        rw [List.append_assoc, List.take_append_drop, ← List.append_assoc,
          List.take_append_drop]
      rw [hsplit, show (xs.take s ++ ys.take t) ++ (xs.drop s ++ ys.drop t) =
        xs.take s ++ ((ys.take t ++ xs.drop s) ++ ys.drop t) by simp]
      refine (Reorders.refl less _).append (Reorders.append ⟨List.perm_append_comm, ?_⟩
        (Reorders.refl less _))
      intro R hR hless
      obtain ⟨hRx, hRy, -⟩ := List.pairwise_append.mp hR
      refine List.pairwise_append.mpr ⟨hRy, hRx, fun y hy x hx => ?_⟩
      exact hless y (List.mem_append_right _ hy) x (List.mem_append_left _ hx)
        (hcut.cross y hy x hx)
    exact hrotate.trans (hP.2.append hQ.2)

/-- The split point of the symmetric merge is a cut through the middle. -/
theorem Mergeable.cut_splitPoint {xs ys : List α} (h : Mergeable less xs ys) :
    Cut less xs ys (splitPoint less xs ys)
      ((xs.length + ys.length) / 2 - splitPoint less xs ys) := by
  set mid := (xs.length + ys.length) / 2 with hmid
  unfold splitPoint
  simp only [← hmid]
  split
  · rename_i hlt
    obtain ⟨hlo, hhi, hprev, hnext⟩ := search_spec
      (fun c => !lessAt less ys (mid - 1 - c) xs c)
      (mid + xs.length - (xs.length + ys.length)) mid (by omega)
    set s := search (fun c => !lessAt less ys (mid - 1 - c) xs c)
      (mid + xs.length - (xs.length + ys.length)) mid
    refine h.cut (fun ht _ => ?_) (fun hs ht => ?_) (by omega) (by omega)
    · simpa [show mid - s - 1 = mid - 1 - s by omega] using hnext (by omega)
    · simpa [show mid - 1 - (s - 1) = mid - s by omega] using hprev (by omega)
  · rename_i hge
    obtain ⟨-, hhi, hprev, hnext⟩ := search_spec
      (fun c => !lessAt less ys (mid - 1 - c) xs c) 0 xs.length (by omega)
    set s := search (fun c => !lessAt less ys (mid - 1 - c) xs c) 0 xs.length
    refine h.cut (fun _ hs => ?_) (fun hs _ => ?_) hhi (by omega)
    · simpa [show mid - s - 1 = mid - 1 - s by omega] using hnext hs
    · simpa [show mid - 1 - (s - 1) = mid - s by omega] using hprev hs

theorem symMerge_spec (hasymm : ∀ a b, less a b = true → less b a = false) (xs ys : List α)
    (h : Mergeable less xs ys) :
    Ordered less (symMerge less xs ys) ∧ Reorders less (xs ++ ys) (symMerge less xs ys) := by
  induction xs, ys using symMerge.induct less with
  | case1 ys =>
      rw [symMerge]
      exact ⟨h.right, Reorders.refl less _⟩
  | case2 x xs =>
      rw [symMerge, List.append_nil]
      exact ⟨h.left, Reorders.refl less _⟩
  | case3 x y ys =>
      rw [symMerge]
      set k := search (fun h => lessAt less (y :: ys) h [x] 0) 0 (y :: ys).length
      obtain ⟨-, hk, hprev, hnext⟩ := search_spec
        (fun h => lessAt less (y :: ys) h [x] 0) 0 (y :: ys).length (Nat.zero_le _)
      have hcut : Cut less [x] (y :: ys) 0 k :=
        h.cut (fun hk _ => hprev hk) (fun h0 => absurd h0 (Nat.lt_irrefl 0)) (by simp) hk
      have hcut' : Cut less [x] (y :: ys) 1 k :=
        h.cut (fun _ h1 => absurd h1 (by simp)) (fun _ hk => hnext hk) (by simp) hk
      refine hcut.combine hasymm h ⟨h.right.sublist (List.take_sublist _ _), Reorders.refl less _⟩
        ⟨List.pairwise_cons.mpr ⟨fun z hz => hcut'.keep z hz x (by simp),
          h.right.sublist (List.drop_sublist _ _)⟩, Reorders.refl less _⟩
  | case4 x x' xs y =>
      rw [symMerge]
      set k := search (fun h => !lessAt less [y] 0 (x :: x' :: xs) h) 0 (x :: x' :: xs).length
      obtain ⟨-, hk, hprev, hnext⟩ := search_spec
        (fun h => !lessAt less [y] 0 (x :: x' :: xs) h) 0 (x :: x' :: xs).length (Nat.zero_le _)
      have hcut : Cut less (x :: x' :: xs) [y] k 1 :=
        h.cut (fun _ hk => by simpa only [Bool.not_eq_eq_eq_not, Bool.not_false] using hnext hk)
          (fun _ h1 => absurd h1 (by simp)) hk (by simp)
      have hcut' : Cut less (x :: x' :: xs) [y] k 0 :=
        h.cut (fun h0 => absurd h0 (Nat.lt_irrefl 0))
          (fun hk _ => by simpa only [Bool.not_eq_eq_eq_not, Bool.not_true] using hprev hk) hk
          (by simp)
      have hfront : (x :: x' :: xs).take k ++ y :: (x :: x' :: xs).drop k =
          ((x :: x' :: xs).take k ++ [y]) ++ (x :: x' :: xs).drop k := by simp
      rw [hfront]
      refine hcut.combine hasymm h ⟨List.pairwise_append.mpr
          ⟨h.left.sublist (List.take_sublist _ _), List.pairwise_singleton _ _, fun a ha b hb => ?_⟩,
          Reorders.refl less _⟩
        ⟨h.left.sublist (List.drop_sublist _ _), by simpa using Reorders.refl less _⟩
      exact hcut'.keep b hb a ha
  | case5 x x' xs y y' ys mid start ih₁ ih₂ =>
      rw [symMerge]
      exact h.cut_splitPoint.combine hasymm h
        (ih₁ (h.sublist (List.take_sublist _ _) (List.take_sublist _ _)))
        (ih₂ (h.sublist (List.drop_sublist _ _) (List.drop_sublist _ _)))

/-! ### The whole sort -/

theorem flatten_blocks (size : ℕ) (l : List α) : (blocks size l).flatten = l := by
  induction l using blocks.induct size with
  | case1 l h ih => rw [blocks, if_pos h, List.flatten_cons, ih, List.take_append_drop]
  | case2 l h => rw [blocks, if_neg h]; simp

/-- The sort moves elements and never drops or repeats one, whatever the
comparison says. -/
theorem perm_symMerge (xs ys : List α) : (symMerge less xs ys).Perm (xs ++ ys) := by
  induction xs, ys using symMerge.induct less with
  | case1 ys => rw [symMerge]; exact List.Perm.refl _
  | case2 x xs => rw [symMerge, List.append_nil]
  | case3 x y ys =>
      rw [symMerge]
      refine List.perm_middle.trans ?_
      rw [List.take_append_drop]
      exact List.Perm.refl _
  | case4 x x' xs y =>
      rw [symMerge]
      refine List.perm_middle.trans ?_
      rw [List.take_append_drop]
      exact (List.perm_append_singleton y _).symm
  | case5 x x' xs y y' ys mid start ih₁ ih₂ =>
      rw [symMerge]
      refine (ih₁.append ih₂).trans ?_
      set X := x :: x' :: xs
      set Y := y :: y' :: ys
      calc ((X.take start ++ Y.take (mid - start)) ++ (X.drop start ++ Y.drop (mid - start))).Perm
            (X.take start ++ (X.drop start ++ Y.take (mid - start)) ++ Y.drop (mid - start)) := by
              simpa using (List.perm_append_comm_assoc (Y.take (mid - start)) (X.drop start)
                (Y.drop (mid - start))).append_left (X.take start)
        _ = X ++ Y := by
              rw [← List.append_assoc, List.take_append_drop, List.append_assoc,
                List.take_append_drop]

theorem perm_mergePass (bs : List (List α)) :
    (mergePass less bs).flatten.Perm bs.flatten := by
  induction bs using mergePass.induct with
  | case1 x y rest ih =>
      simpa [mergePass] using (@perm_symMerge _ less x y).append ih
  | case2 rest hne => simp [mergePass]

theorem perm_mergeBlocks (bs : List (List α)) : (mergeBlocks less bs).Perm bs.flatten := by
  induction bs using mergeBlocks.induct less with
  | case1 => simp [mergeBlocks]
  | case2 x => simp [mergeBlocks]
  | case3 x y rest ih =>
      rw [mergeBlocks]
      exact ih.trans (@perm_mergePass _ less (x :: y :: rest))

theorem reorders_map_insertionSort (bs : List (List α)) :
    Reorders less bs.flatten (bs.map (insertionSort less)).flatten := by
  induction bs with
  | nil => exact Reorders.refl less _
  | cons b bs ih => simpa using (reorders_insertionSort b).append ih

theorem perm_sliceStable (l : List α) : (sliceStable less l).Perm l := by
  have h := (@perm_mergeBlocks _ less ((blocks 20 l).map (insertionSort less))).trans
    (reorders_map_insertionSort (blocks 20 l)).perm
  rwa [flatten_blocks] at h

/-- The invariant of the merge passes: the blocks are ordered and, read in
sequence, consistent. -/
structure Sound (less : α → α → Bool) (bs : List (List α)) : Prop where
  ordered : ∀ b ∈ bs, Ordered less b
  consistent : Consistent less bs.flatten

section

variable (htrans : ∀ a b c, less a b = true → less b c = true → less a c = true)
variable (hasymm : ∀ a b, less a b = true → less b a = false)

include htrans

/-- Sorting the blocks one after another, each between those already sorted
and those still to come. -/
theorem sound_map_insertionSort (hasymm : ∀ a b, less a b = true → less b a = false)
    (done bs : List (List α)) (hdone : ∀ b ∈ done, Ordered less b)
    (h : Consistent less (done.flatten ++ bs.flatten)) :
    Sound less (done ++ bs.map (insertionSort less)) := by
  induction bs generalizing done with
  | nil => exact ⟨by simpa using hdone, by simpa using h⟩
  | cons b bs ih =>
      have hb : Consistent less b := by
        rw [List.flatten_cons] at h
        exact (List.triplewise_append.mp (List.triplewise_append.mp h).2.1).1
      have ho := ordered_insertionSort htrans hasymm hb
      have hnext := ih (done ++ [insertionSort less b])
        (by simpa using fun x hx => hx.elim (hdone x) (fun he => he ▸ ho))
      rw [List.map_cons, ← List.singleton_append, ← List.append_assoc]
      refine hnext ?_
      rw [List.flatten_append, List.append_assoc]
      simpa using Consistent.replace htrans (by simpa using h) (reorders_insertionSort b) ho

include hasymm

/-- One merge of two neighbouring blocks, anywhere in the sequence. -/
theorem Sound.merge {before after : List (List α)} {x y : List α}
    (h : Sound less (before ++ x :: y :: after)) :
    Sound less (before ++ symMerge less x y :: after) ∧
      Reorders less (x ++ y) (symMerge less x y) := by
  have hc : Consistent less (before.flatten ++ ((x ++ y) ++ after.flatten)) := by
    simpa using h.consistent
  have hxy : Consistent less (x ++ y) :=
    (List.triplewise_append.mp (List.triplewise_append.mp hc).2.1).1
  have hm := hxy.mergeable (h.ordered x (by simp)) (h.ordered y (by simp))
  obtain ⟨ho, hr⟩ := symMerge_spec hasymm x y hm
  refine ⟨⟨fun b hb => ?_, by simpa using hc.replace htrans hr ho⟩, hr⟩
  simp only [List.mem_append, List.mem_cons] at hb
  rcases hb with hb | rfl | hb
  · exact h.ordered b (by simp [hb])
  · exact ho
  · exact h.ordered b (by simp [hb])

theorem Sound.mergePass {before bs : List (List α)} (h : Sound less (before ++ bs)) :
    Sound less (before ++ mergePass less bs) ∧
      Reorders less bs.flatten (StableSort.mergePass less bs).flatten := by
  induction bs using mergePass.induct generalizing before with
  | case1 x y rest ih =>
      obtain ⟨hs, hr⟩ := h.merge htrans hasymm
      obtain ⟨hs', hr'⟩ := @ih (before ++ [symMerge less x y]) (by simpa using hs)
      refine ⟨by simpa [StableSort.mergePass] using hs', ?_⟩
      simpa [StableSort.mergePass] using hr.append hr'
  | case2 rest hne =>
      have hrest : StableSort.mergePass less rest = rest := by simp [StableSort.mergePass]
      rw [hrest]
      exact ⟨h, Reorders.refl less _⟩

theorem Sound.mergeBlocks {bs : List (List α)} (h : Sound less bs) :
    Ordered less (mergeBlocks less bs) ∧
      Reorders less bs.flatten (StableSort.mergeBlocks less bs) := by
  induction bs using mergeBlocks.induct less with
  | case1 => exact ⟨by simp [StableSort.mergeBlocks, Ordered], by
      simpa [StableSort.mergeBlocks] using Reorders.refl less []⟩
  | case2 x =>
      rw [StableSort.mergeBlocks]
      exact ⟨h.ordered x (by simp), by simpa using Reorders.refl less x⟩
  | case3 x y rest ih =>
      rw [StableSort.mergeBlocks]
      obtain ⟨hs, hr⟩ := @Sound.mergePass _ less htrans hasymm [] (x :: y :: rest) h
      obtain ⟨ho, hr'⟩ := ih (by simpa [StableSort.mergePass] using hs)
      refine ⟨ho, Reorders.trans ?_ hr'⟩
      simpa [StableSort.mergePass] using hr

/-- On a consistent list the sort delivers an ordered list, and it exchanges
only pairs that the comparison wants exchanged. -/
theorem sliceStable_spec {l : List α} (h : Consistent less l) :
    Ordered less (sliceStable less l) ∧ Reorders less l (sliceStable less l) := by
  have hs := sound_map_insertionSort htrans hasymm [] (blocks 20 l) (by simp)
    (by simpa [flatten_blocks] using h)
  obtain ⟨ho, hr⟩ := Sound.mergeBlocks htrans hasymm (by simpa using hs)
  refine ⟨ho, Reorders.trans ?_ hr⟩
  simpa [flatten_blocks] using @reorders_map_insertionSort _ less (blocks 20 l)

end

end Higress.Lib.StableSort
