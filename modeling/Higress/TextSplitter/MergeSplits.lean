import Mathlib.Algebra.Order.Group.Nat
import Mathlib.Algebra.Order.Ring.Int
import Mathlib.Data.List.DropRight
import Mathlib.Data.List.Infix

/-!
The text splitter of the RAG server (`textsplitter/splitter_document.go`). Splits are collected until
the next one would make the chunk too long; then the chunk is put out, and splits are dropped from its
front until what is left may overlap with the next chunk.

A text is a sequence of characters. The length of texts is a parameter, additive over concatenation.
-/

namespace Higress.TextSplitter

abbrev Text := List Char

/-- `unicode.IsSpace`. -/
def isSpace (c : Char) : Bool :=
  (0x09 ≤ c.val && c.val ≤ 0x0D) || c.val == 0x20 || c.val == 0x85 || c.val == 0xA0 || c.val == 0x1680 ||
    (0x2000 ≤ c.val && c.val ≤ 0x200A) || c.val == 0x2028 || c.val == 0x2029 || c.val == 0x202F ||
    c.val == 0x205F || c.val == 0x3000

/-- `strings.TrimSpace`. -/
def trimSpace (s : Text) : Text := (s.dropWhile isSpace).rdropWhile isSpace

/-- `joinDocs`. -/
def joinDocs (docs : List Text) (separator : Text) : Text := trimSpace (separator.intercalate docs)

/-- `LenFunc`, additive over concatenation. -/
structure LenFunc where
  len : Text → ℕ
  append : ∀ s t, len (s ++ t) = len s + len t

/-- `shouldPop`. -/
def shouldPop (chunkOverlap chunkSize total splitLen separatorLen : ℤ) (currentDocLen : ℕ) : Bool :=
  let separatorLen := if currentDocLen < 2 then 0 else separatorLen
  0 < currentDocLen &&
    (total > chunkOverlap || (total + splitLen + separatorLen > chunkSize && total > 0))

section Merge

variable (lenFunc : LenFunc) (separator : Text) (chunkSize chunkOverlap : ℤ)

/-- The inner loop of `mergeSplits`: the splits that are kept and their total. -/
def popDocs (splitLen : ℤ) : List Text → ℤ → List Text × ℤ
  | [], total => ([], total)
  | doc :: docs, total =>
      if shouldPop chunkOverlap chunkSize total splitLen (lenFunc.len separator) (doc :: docs).length then
        popDocs splitLen docs
          (total - lenFunc.len doc - if (doc :: docs).length > 1 then (lenFunc.len separator : ℤ) else 0)
      else (doc :: docs, total)

/-- The variables of `mergeSplits`. -/
structure MergeState where
  docs : List Text
  currentDoc : List Text
  total : ℤ

/-- A chunk that is blank is left out. -/
def appendDoc (docs : List Text) (doc : Text) : List Text := if doc ≠ [] then docs ++ [doc] else docs

/-- The chunk is put out and its front is dropped, if the next split would make it too long. -/
def MergeState.emit (s : MergeState) (split : Text) : MergeState :=
  let totalWithSplit := s.total + lenFunc.len split +
    if s.currentDoc.length ≠ 0 then (lenFunc.len separator : ℤ) else 0
  if totalWithSplit > chunkSize ∧ s.currentDoc.length > 0 then
    let kept := popDocs lenFunc separator chunkSize chunkOverlap (lenFunc.len split) s.currentDoc s.total
    ⟨appendDoc s.docs (joinDocs s.currentDoc separator), kept.1, kept.2⟩
  else s

def MergeState.add (s : MergeState) (split : Text) : MergeState :=
  { s with
    currentDoc := s.currentDoc ++ [split]
    total := s.total + lenFunc.len split +
      if (s.currentDoc ++ [split]).length > 1 then (lenFunc.len separator : ℤ) else 0 }

/-- The body of the loop. -/
def mergeSplit (s : MergeState) (split : Text) : MergeState :=
  (s.emit lenFunc separator chunkSize chunkOverlap split).add lenFunc separator split

def mergeSplits (splits : List Text) : List Text :=
  let s := splits.foldl (mergeSplit lenFunc separator chunkSize chunkOverlap) ⟨[], [], 0⟩
  appendDoc s.docs (joinDocs s.currentDoc separator)

/-! ### Lengths -/

namespace LenFunc

@[simp] theorem len_nil : lenFunc.len [] = 0 := by
  have h := lenFunc.append [] []
  rw [List.append_nil] at h
  omega

theorem len_le_of_infix {s t : Text} (h : s <:+: t) : lenFunc.len s ≤ lenFunc.len t := by
  obtain ⟨u, v, rfl⟩ := h
  rw [lenFunc.append, lenFunc.append]
  omega

end LenFunc

theorem trimSpace_isInfix (s : Text) : trimSpace s <:+: s :=
  (List.rdropWhile_prefix _ _).isInfix.trans (List.dropWhile_suffix _).isInfix

/-- The length of a chunk before the space around it is dropped. -/
def joinLen (docs : List Text) : ℕ := lenFunc.len (separator.intercalate docs)

theorem len_joinDocs_le (docs : List Text) :
    lenFunc.len (joinDocs docs separator) ≤ joinLen lenFunc separator docs :=
  lenFunc.len_le_of_infix (trimSpace_isInfix _)

@[simp] theorem joinLen_nil : joinLen lenFunc separator [] = 0 := by simp [joinLen]

@[simp] theorem joinLen_singleton (doc : Text) : joinLen lenFunc separator [doc] = lenFunc.len doc := by
  simp [joinLen]

theorem joinLen_cons (doc : Text) {docs : List Text} (h : docs ≠ []) :
    joinLen lenFunc separator (doc :: docs) =
      lenFunc.len doc + lenFunc.len separator + joinLen lenFunc separator docs := by
  cases docs with
  | nil => exact absurd rfl h
  | cons d ds =>
      simp only [joinLen, List.intercalate_cons_cons, lenFunc.append]
      

theorem joinLen_append {docs : List Text} (h : docs ≠ []) (split : Text) :
    joinLen lenFunc separator (docs ++ [split]) =
      joinLen lenFunc separator docs + lenFunc.len separator + lenFunc.len split := by
  induction docs with
  | nil => exact absurd rfl h
  | cons doc docs ih =>
      cases docs with
      | nil => simp [joinLen_cons]
      | cons d ds =>
          rw [List.cons_append, joinLen_cons _ _ _ (by simp), joinLen_cons _ _ _ (by simp), ih (by simp)]
          omega

/-! ### Chunks that are too long -/

/-- The first split is short enough to be kept before the second one, and with the separator between
them the two are too long. -/
structure Overlong (x y : Text) : Prop where
  kept : (lenFunc.len x : ℤ) ≤ chunkOverlap
  without : (lenFunc.len x + lenFunc.len y : ℤ) ≤ chunkSize
  tooLong : chunkSize < (lenFunc.len x + lenFunc.len separator + lenFunc.len y : ℤ)

/-- A chunk is too long only if it is such a pair. -/
def Fits (docs : List Text) : Prop :=
  (joinLen lenFunc separator docs : ℤ) ≤ chunkSize ∨
    ∃ x y, docs = [x, y] ∧ Overlong lenFunc separator chunkSize chunkOverlap x y

/-- Dropping a split from the front takes its length and that of the separator off the total. -/
theorem joinLen_tail (doc : Text) (docs : List Text) :
    (joinLen lenFunc separator (doc :: docs) : ℤ) - lenFunc.len doc -
      (if (doc :: docs).length > 1 then (lenFunc.len separator : ℤ) else 0) =
        joinLen lenFunc separator docs := by
  cases docs with
  | nil => simp
  | cons d ds =>
      rw [joinLen_cons _ _ _ (by simp), if_pos (by simp)]
      push_cast
      omega

/-- What is kept is the end of the chunk, and its front need not be dropped. -/
theorem popDocs_spec (splitLen : ℤ) (docs : List Text) :
    ∃ k ≤ docs.length,
      popDocs lenFunc separator chunkSize chunkOverlap splitLen docs (joinLen lenFunc separator docs) =
        (docs.drop k, (joinLen lenFunc separator (docs.drop k) : ℤ)) ∧
      (docs.drop k = [] ∨ shouldPop chunkOverlap chunkSize (joinLen lenFunc separator (docs.drop k))
        splitLen (lenFunc.len separator) (docs.drop k).length = false) := by
  induction docs with
  | nil => exact ⟨0, le_rfl, by simp [popDocs], .inl rfl⟩
  | cons doc docs ih =>
      rw [popDocs]
      split
      · obtain ⟨k, hk, hpop, hstop⟩ := ih
        refine ⟨k + 1, by simpa using hk, ?_, hstop⟩
        rw [joinLen_tail, hpop]
        rfl
      · rename_i hpop
        exact ⟨0, Nat.zero_le _, rfl, .inr (by simpa using hpop)⟩

variable {lenFunc separator chunkSize chunkOverlap}

theorem shouldPop_eq_false_iff {total splitLen separatorLen : ℤ} {n : ℕ} (hn : 0 < n) :
    shouldPop chunkOverlap chunkSize total splitLen separatorLen n = false ↔ total ≤ chunkOverlap ∧
      (total + splitLen + (if n < 2 then 0 else separatorLen) ≤ chunkSize ∨ total ≤ 0) := by
  simp only [shouldPop, hn, decide_true, Bool.true_and, Bool.or_eq_false_iff, Bool.and_eq_false_iff,
    decide_eq_false_iff_not, not_lt, gt_iff_lt]

/-- Before a split that makes an overlong pair everything but the last split is dropped. -/
theorem popDocs_overlong {x y : Text} (h : Overlong lenFunc separator chunkSize chunkOverlap x y)
    (docs : List Text) :
    popDocs lenFunc separator chunkSize chunkOverlap (lenFunc.len y) (docs ++ [x])
      (joinLen lenFunc separator (docs ++ [x])) = ([x], (lenFunc.len x : ℤ)) := by
  obtain ⟨hkept, hwithout, htooLong⟩ := h
  induction docs with
  | nil =>
      have hstop : shouldPop chunkOverlap chunkSize (lenFunc.len x) (lenFunc.len y)
          (lenFunc.len separator) 1 = false := by
        rw [shouldPop_eq_false_iff (by omega), if_pos (by omega)]
        omega
      rw [List.nil_append, joinLen_singleton, popDocs, List.length_singleton, hstop]
      rfl
  | cons doc docs ih =>
      have hlen : joinLen lenFunc separator (doc :: docs ++ [x]) =
          joinLen lenFunc separator (doc :: docs) + lenFunc.len separator + lenFunc.len x :=
        joinLen_append _ _ (by simp) x
      rw [List.cons_append] at hlen ⊢
      have hpop : shouldPop chunkOverlap chunkSize (joinLen lenFunc separator (doc :: (docs ++ [x])))
          (lenFunc.len y) (lenFunc.len separator) (doc :: (docs ++ [x])).length = true := by
        rw [← Bool.not_eq_false, shouldPop_eq_false_iff (by simp), if_neg (by simp), hlen]
        push_cast
        omega
      rw [popDocs, hpop, if_pos rfl, joinLen_tail, ih]

/-- What is kept and the next split are too long only if they are an overlong pair. -/
theorem fits_of_kept {docs : List Text} {split : Text} (hsplit : (lenFunc.len split : ℤ) < chunkSize)
    (h : docs = [] ∨ shouldPop chunkOverlap chunkSize (joinLen lenFunc separator docs)
      (lenFunc.len split) (lenFunc.len separator) docs.length = false) :
    Fits lenFunc separator chunkSize chunkOverlap (docs ++ [split]) := by
  cases docs with
  | nil => exact .inl (by simpa using hsplit.le)
  | cons x docs =>
      have hstop := h.resolve_left (by simp)
      rw [shouldPop_eq_false_iff (by simp)] at hstop
      rw [Fits, joinLen_append _ _ (by simp)]
      cases docs with
      | nil =>
          rw [if_pos (by simp), joinLen_singleton] at hstop
          rw [joinLen_singleton]
          by_cases hfit : chunkSize < (lenFunc.len x + lenFunc.len separator + lenFunc.len split : ℤ)
          · exact .inr ⟨x, split, rfl, by omega, by omega, hfit⟩
          · exact .inl (by push_cast; omega)
      | cons x' docs =>
          -- two splits are at least as long as the separator between them
          have hlen : joinLen lenFunc separator (x :: x' :: docs) =
              lenFunc.len x + lenFunc.len separator + joinLen lenFunc separator (x' :: docs) :=
            joinLen_cons _ _ _ (by simp)
          rw [if_neg (by simp)] at hstop
          exact .inl (by push_cast; omega)

/-! ### The runs of splits that are merged -/

/-- The splits from one place to another. -/
def run (splits : List Text) (w : ℕ × ℕ) : List Text := (splits.take w.2).drop w.1

theorem run_append {splits : List Text} {w : ℕ × ℕ} (h : w.2 ≤ splits.length) (t : List Text) :
    run (splits ++ t) w = run splits w := by
  rw [run, List.take_append_of_le_length h, run]

theorem run_length (splits : List Text) (a : ℕ) : run splits (a, splits.length) = splits.drop a := by
  simp [run]

variable (separator) in
/-- The chunks of the runs that are not blank. -/
def chunksOf (splits : List Text) (ws : List (ℕ × ℕ)) : List Text :=
  (ws.map fun w => joinDocs (run splits w) separator).filter (· ≠ [])

theorem chunksOf_append (splits : List Text) (ws : List (ℕ × ℕ)) (w : ℕ × ℕ) :
    chunksOf separator splits (ws ++ [w]) =
      appendDoc (chunksOf separator splits ws) (joinDocs (run splits w) separator) := by
  rw [chunksOf, List.map_append, List.filter_append, appendDoc]
  by_cases h : joinDocs (run splits w) separator = []
  · simp [h, chunksOf]
  · simp [h, chunksOf]

/-- The loop after the splits `done`: the runs that were put out, and the start of the current one. -/
structure Inv (lenFunc : LenFunc) (separator : Text) (chunkSize chunkOverlap : ℤ) (done : List Text)
    (ws : List (ℕ × ℕ)) (start : ℕ) (s : MergeState) : Prop where
  start_le : start ≤ done.length
  start_lt : done ≠ [] → start < done.length
  docs : s.docs = chunksOf separator done ws
  currentDoc : s.currentDoc = done.drop start
  total : s.total = joinLen lenFunc separator (done.drop start)
  ordered : ws.Pairwise fun w w' => w.1 ≤ w'.1 ∧ w.2 < w'.2
  before : ∀ w ∈ ws, w.1 ≤ start ∧ w.2 < done.length
  covers : ∀ i < start, ∃ w ∈ ws, w.1 ≤ i ∧ i < w.2
  fits : ∀ w ∈ ws, Fits lenFunc separator chunkSize chunkOverlap (run done w)
  current_fits : Fits lenFunc separator chunkSize chunkOverlap (done.drop start)
  overlong : ∀ i x y, done[i]? = some x → done[i + 1]? = some y →
    Overlong lenFunc separator chunkSize chunkOverlap x y → (i, i + 2) ∈ ws ++ [(start, done.length)]

theorem inv_nil (hsize : 0 < chunkSize) : Inv lenFunc separator chunkSize chunkOverlap [] [] 0 ⟨[], [], 0⟩ where
  start_le := le_rfl
  start_lt h := absurd rfl h
  docs := rfl
  currentDoc := rfl
  total := by simp
  ordered := List.Pairwise.nil
  before := by simp
  covers := by simp
  fits := by simp
  current_fits := .inl (by simpa using hsize.le)
  overlong := by simp

theorem joinLen_add (docs : List Text) (split : Text) :
    (joinLen lenFunc separator docs : ℤ) + lenFunc.len split +
      (if (docs ++ [split]).length > 1 then (lenFunc.len separator : ℤ) else 0) =
        joinLen lenFunc separator (docs ++ [split]) := by
  cases docs with
  | nil => simp
  | cons doc docs =>
      rw [joinLen_append _ _ (by simp), if_pos (by simp)]
      push_cast
      omega

theorem len_le_joinLen_append (docs : List Text) (x : Text) :
    lenFunc.len x ≤ joinLen lenFunc separator (docs ++ [x]) := by
  cases docs with
  | nil => simp
  | cons doc docs =>
      rw [joinLen_append _ _ (by simp)]
      omega

theorem chunksOf_extend {done : List Text} {ws : List (ℕ × ℕ)} (h : ∀ w ∈ ws, w.2 ≤ done.length)
    (t : List Text) : chunksOf separator (done ++ t) ws = chunksOf separator done ws := by
  rw [chunksOf, chunksOf]
  congr 1
  apply List.map_congr_left
  intro w hw
  rw [run_append (h w hw)]

/-- Two neighbours behind one more split are neighbours before, or the last split and the new one. -/
theorem neighbours_append {done : List Text} {split x y : Text} {i : ℕ}
    (hx : (done ++ [split])[i]? = some x) (hy : (done ++ [split])[i + 1]? = some y) :
    (done[i]? = some x ∧ done[i + 1]? = some y) ∨
      ∃ pre, done = pre ++ [x] ∧ y = split ∧ i = pre.length := by
  by_cases hi : i + 1 < done.length
  · rw [List.getElem?_append_left (by omega)] at hx
    rw [List.getElem?_append_left hi] at hy
    exact .inl ⟨hx, hy⟩
  · have hle := (List.getElem?_eq_some_iff.mp hy).1
    rw [List.length_append, List.length_singleton] at hle
    have hlen : done.length = i + 1 := by omega
    rw [List.getElem?_append_right (by omega), hlen, Nat.sub_self] at hy
    rw [List.getElem?_append_left (by omega)] at hx
    rcases List.eq_nil_or_concat' done with rfl | ⟨pre, b, rfl⟩
    · simp at hlen
    · have hpre : i = pre.length := by simpa using hlen.symm
      rw [hpre, List.getElem?_append_right le_rfl, Nat.sub_self] at hx
      obtain rfl : b = x := by simpa using hx
      exact .inr ⟨pre, rfl, by simpa using hy.symm, hpre⟩

section Step

variable {done : List Text} {ws : List (ℕ × ℕ)} {start : ℕ} {s : MergeState} {split : Text}

theorem Inv.currentDoc_add (h : Inv lenFunc separator chunkSize chunkOverlap done ws start s) :
    s.currentDoc ++ [split] = (done ++ [split]).drop start := by
  rw [h.currentDoc, List.drop_append_of_le_length h.start_le]

/-- A split that the chunk has room for. -/
theorem Inv.keep (h : Inv lenFunc separator chunkSize chunkOverlap done ws start s)
    (hsplit : (lenFunc.len split : ℤ) < chunkSize)
    (hroom : done.drop start = [] ∨
      (joinLen lenFunc separator (done.drop start ++ [split]) : ℤ) ≤ chunkSize) :
    Inv lenFunc separator chunkSize chunkOverlap (done ++ [split]) ws start
      (s.add lenFunc separator split) where
  start_le := by
    have := h.start_le
    simp only [List.length_append, List.length_singleton]
    omega
  start_lt _ := by
    have := h.start_le
    simp only [List.length_append, List.length_singleton]
    omega
  docs := by
    rw [chunksOf_extend fun w hw => (h.before w hw).2.le]
    exact h.docs
  currentDoc := h.currentDoc_add
  total := by
    rw [MergeState.add, h.total, h.currentDoc, joinLen_add, List.drop_append_of_le_length h.start_le]
  ordered := h.ordered
  before w hw := by
    have := h.before w hw
    simp only [List.length_append, List.length_singleton]
    omega
  covers := h.covers
  fits w hw := by
    rw [run_append (h.before w hw).2.le]
    exact h.fits w hw
  current_fits := by
    rw [List.drop_append_of_le_length h.start_le]
    rcases hroom with hnil | hroom
    · rw [hnil]
      exact fits_of_kept hsplit (.inl rfl)
    · exact .inl hroom
  overlong := by
    intro i x y hx hy hover
    have hroom' : done.drop start ≠ [] →
        (joinLen lenFunc separator (done.drop start) + lenFunc.len separator + lenFunc.len split : ℤ) ≤
          chunkSize := by
      intro hne
      have := hroom.resolve_left hne
      rwa [joinLen_append _ _ hne, Nat.cast_add, Nat.cast_add] at this
    rcases neighbours_append hx hy with ⟨hx, hy⟩ | ⟨pre, rfl, rfl, rfl⟩
    · -- an overlong chunk has no room for one more split
      rcases List.mem_append.mp (h.overlong i x y hx hy hover) with hmem | hmem
      · exact List.mem_append_left _ hmem
      · exfalso
        obtain ⟨rfl, hend⟩ := Prod.mk.inj (List.mem_singleton.mp hmem)
        have hdrop : done.drop i = [x, y] := by
          rw [List.drop_eq_getElem?_toList_append, List.drop_eq_getElem?_toList_append, hx, hy]
          simp
          omega
        have htotal := hroom' (by simp [hdrop])
        have hover' := hover.tooLong
        rw [hdrop, joinLen_cons _ _ _ (by simp), joinLen_singleton] at htotal
        push_cast at htotal
        omega
    · exfalso
      have hstart := h.start_lt (by simp)
      have hdrop : (pre ++ [x]).drop start = pre.drop start ++ [x] := by
        rw [List.drop_append_of_le_length]
        simp only [List.length_append, List.length_singleton] at hstart
        omega
      have htotal := hroom' (by simp [hdrop])
      have hover' := hover.tooLong
      have hle := @len_le_joinLen_append lenFunc separator (pre.drop start) x
      rw [hdrop] at htotal
      omega

/-- A split that the chunk has no room for: the chunk is put out and its front is dropped. -/
theorem Inv.emit (h : Inv lenFunc separator chunkSize chunkOverlap done ws start s)
    (hne : done.drop start ≠ []) (hsplit : (lenFunc.len split : ℤ) < chunkSize) :
    let kept := popDocs lenFunc separator chunkSize chunkOverlap (lenFunc.len split) s.currentDoc s.total
    ∃ start', Inv lenFunc separator chunkSize chunkOverlap (done ++ [split])
      (ws ++ [(start, done.length)]) start'
      (MergeState.add lenFunc separator
        ⟨appendDoc s.docs (joinDocs s.currentDoc separator), kept.1, kept.2⟩ split) := by
  obtain ⟨k, hk, hpop, hstop⟩ := popDocs_spec lenFunc separator chunkSize chunkOverlap
    (lenFunc.len split) (done.drop start)
  have hkept := hpop
  rw [List.drop_drop] at hpop hstop
  rw [List.length_drop] at hk
  have hstart := h.start_le
  have hle : start + k ≤ done.length := by omega
  refine ⟨start + k, ?_⟩
  rw [h.currentDoc, h.total, hpop]
  exact
    { start_le := by
        simp only [List.length_append, List.length_singleton]
        omega
      start_lt := fun _ => by
        simp only [List.length_append, List.length_singleton]
        omega
      docs := by
        rw [chunksOf_extend, chunksOf_append, run_length, ← h.docs]
        · rfl
        · intro w hw
          rcases List.mem_append.mp hw with hw | hw
          · exact (h.before w hw).2.le
          · rw [List.mem_singleton.mp hw]
      currentDoc := by
        rw [List.drop_append_of_le_length hle]
        rfl
      total := by
        rw [MergeState.add, joinLen_add, List.drop_append_of_le_length hle]
      ordered := by
        rw [List.pairwise_append]
        refine ⟨h.ordered, by simp, fun w hw w' hw' => ?_⟩
        rw [List.mem_singleton.mp hw']
        exact h.before w hw
      before := fun w hw => by
        simp only [List.length_append, List.length_singleton]
        rcases List.mem_append.mp hw with hw | hw
        · have := h.before w hw
          omega
        · rw [List.mem_singleton.mp hw]
          omega
      covers := fun i hi => by
        by_cases hlt : i < start
        · obtain ⟨w, hw, hwi⟩ := h.covers i hlt
          exact ⟨w, List.mem_append_left _ hw, hwi⟩
        · exact ⟨(start, done.length), by simp, by omega, by omega⟩
      fits := fun w hw => by
        rcases List.mem_append.mp hw with hw | hw
        · rw [run_append (h.before w hw).2.le]
          exact h.fits w hw
        · rw [List.mem_singleton.mp hw, run_append le_rfl, run_length]
          exact h.current_fits
      current_fits := by
        rw [List.drop_append_of_le_length hle]
        exact fits_of_kept hsplit hstop
      overlong := by
        intro i x y hx hy hover
        rcases neighbours_append hx hy with ⟨hx, hy⟩ | ⟨pre, rfl, rfl, rfl⟩
        · exact List.mem_append_left _ (h.overlong i x y hx hy hover)
        · have hlt := h.start_lt (by simp)
          simp only [List.length_append, List.length_singleton] at hlt
          have hdrop : (pre ++ [x]).drop start = pre.drop start ++ [x] :=
            List.drop_append_of_le_length (by omega)
          -- everything but the last split was dropped
          have hlast : (pre ++ [x]).drop (start + k) = [x] := by
            rw [hdrop, popDocs_overlong hover] at hkept
            rw [← List.drop_drop, hdrop]
            exact (congrArg Prod.fst hkept).symm
          have hlen := congrArg List.length hlast
          simp only [List.length_drop, List.length_append, List.length_singleton] at hlen
          apply List.mem_append_right
          rw [List.mem_singleton, Prod.mk.injEq, List.length_append, List.length_append]
          exact ⟨by omega, rfl⟩ }

/-- One round of the loop. -/
theorem Inv.step (h : Inv lenFunc separator chunkSize chunkOverlap done ws start s)
    (hsplit : (lenFunc.len split : ℤ) < chunkSize) :
    ∃ ws' start', Inv lenFunc separator chunkSize chunkOverlap (done ++ [split]) ws' start'
      (mergeSplit lenFunc separator chunkSize chunkOverlap s split) := by
  rw [mergeSplit, MergeState.emit]
  by_cases hnil : done.drop start = []
  · rw [if_neg (by simp [h.currentDoc, hnil])]
    exact ⟨ws, start, h.keep hsplit (.inl hnil)⟩
  · have htotal : s.total + lenFunc.len split +
        (if s.currentDoc.length ≠ 0 then (lenFunc.len separator : ℤ) else 0) =
          joinLen lenFunc separator (done.drop start ++ [split]) := by
      rw [joinLen_append _ _ hnil, h.total, h.currentDoc,
        if_pos (Nat.pos_iff_ne_zero.mp (List.length_pos_iff.mpr hnil))]
      push_cast
      omega
    simp only [htotal]
    split_ifs with hcond
    · obtain ⟨start', hinv⟩ := h.emit hnil hsplit
      exact ⟨_, start', hinv⟩
    · refine ⟨ws, start, h.keep hsplit (.inr ?_)⟩
      by_contra hlong
      exact hcond ⟨by omega, by rw [h.currentDoc]; exact List.length_pos_iff.mpr hnil⟩

end Step

/-- The loop. -/
theorem exists_inv (hsize : 0 < chunkSize) {splits : List Text}
    (h : ∀ split ∈ splits, (lenFunc.len split : ℤ) < chunkSize) :
    ∃ ws start, Inv lenFunc separator chunkSize chunkOverlap splits ws start
      (splits.foldl (mergeSplit lenFunc separator chunkSize chunkOverlap) ⟨[], [], 0⟩) := by
  induction splits using List.reverseRecOn with
  | nil => exact ⟨[], 0, inv_nil hsize⟩
  | append_singleton splits split ih =>
      obtain ⟨ws, start, hinv⟩ := ih fun split' hsplit' => h split' (by simp [hsplit'])
      rw [List.foldl_append, List.foldl_cons, List.foldl_nil]
      exact hinv.step (h split (by simp))

/-! ### What `mergeSplits` returns -/

theorem dropWhile_isInfix {α : Type*} (p : α → Bool) {s t : List α} (h : s <:+: t) :
    s.dropWhile p <:+: t.dropWhile p := by
  obtain ⟨u, v, rfl⟩ := h
  rw [List.append_assoc, List.dropWhile_append]
  split
  · rw [List.dropWhile_append]
    split
    · rename_i hnil
      rw [List.isEmpty_iff.mp hnil]
      exact List.nil_infix
    · exact (List.prefix_append _ _).isInfix
  · exact (List.dropWhile_suffix p).isInfix.trans ⟨u.dropWhile p, v, by simp⟩

/-- What is left of a text is left of a longer one. -/
theorem trimSpace_infix_of_infix {s t : Text} (h : s <:+: t) : trimSpace s <:+: trimSpace t := by
  rw [trimSpace, trimSpace, List.rdropWhile, List.rdropWhile, List.reverse_infix]
  exact dropWhile_isInfix _ (List.reverse_infix.mpr (dropWhile_isInfix _ h))

theorem infix_intercalate {docs : List Text} {doc : Text} (h : doc ∈ docs) :
    doc <:+: separator.intercalate docs := by
  induction docs with
  | nil => simp at h
  | cons d ds ih =>
      cases ds with
      | nil =>
          obtain rfl : doc = d := by simpa using h
          simp
      | cons d' ds =>
          rw [List.intercalate_cons_cons]
          rcases List.mem_cons.mp h with rfl | h
          · exact ⟨[], separator ++ separator.intercalate (d' :: ds), by simp⟩
          · exact (ih h).trans (List.suffix_append _ _).isInfix

/-- The runs are in order and cover the splits. -/
structure Runs (splits : List Text) (ws : List (ℕ × ℕ)) : Prop where
  ordered : ws.Pairwise fun w w' => w.1 ≤ w'.1 ∧ w.2 < w'.2
  within : ∀ w ∈ ws, w.2 ≤ splits.length
  covers : ∀ i < splits.length, ∃ w ∈ ws, w.1 ≤ i ∧ i < w.2

variable (lenFunc separator chunkSize) in
/-- No chunk is too long. The chunks are the texts of runs of splits in order, so that every split that
is not blank is found in one of them. -/
structure Merged (splits chunks : List Text) : Prop where
  size : ∀ chunk ∈ chunks, (lenFunc.len chunk : ℤ) ≤ chunkSize
  runs : ∃ ws, Runs splits ws ∧ chunks = chunksOf separator splits ws ∧
    ∀ w ∈ ws, ∀ split ∈ run splits w, trimSpace split ≠ [] →
      joinDocs (run splits w) separator ∈ chunks ∧
        trimSpace split <:+: joinDocs (run splits w) separator

variable (lenFunc separator chunkSize chunkOverlap) in
/-- Two neighbours of which the first may be kept before the second are not too long together. -/
def NeighboursFit (splits : List Text) : Prop :=
  ∀ i x y, splits[i]? = some x → splits[i + 1]? = some y → (lenFunc.len x : ℤ) ≤ chunkOverlap →
    (lenFunc.len x + lenFunc.len y : ℤ) ≤ chunkSize →
    (lenFunc.len (joinDocs [x, y] separator) : ℤ) ≤ chunkSize

/-- The runs that the loop has put out, with the last one. -/
theorem Inv.runs {splits : List Text} {ws : List (ℕ × ℕ)} {start : ℕ} {s : MergeState}
    (h : Inv lenFunc separator chunkSize chunkOverlap splits ws start s) :
    Runs splits (ws ++ [(start, splits.length)]) where
  ordered := by
    rw [List.pairwise_append]
    refine ⟨h.ordered, by simp, fun w hw w' hw' => ?_⟩
    rw [List.mem_singleton.mp hw']
    exact h.before w hw
  within w hw := by
    rcases List.mem_append.mp hw with hw | hw
    · exact (h.before w hw).2.le
    · rw [List.mem_singleton.mp hw]
  covers i hi := by
    by_cases hlt : i < start
    · obtain ⟨w, hw, hwi⟩ := h.covers i hlt
      exact ⟨w, List.mem_append_left _ hw, hwi⟩
    · exact ⟨(start, splits.length), by simp, by omega, hi⟩

theorem mem_chunksOf {splits : List Text} {ws : List (ℕ × ℕ)} {chunk : Text} :
    chunk ∈ chunksOf separator splits ws ↔
      chunk ≠ [] ∧ ∃ w ∈ ws, joinDocs (run splits w) separator = chunk := by
  simp only [chunksOf, List.mem_filter, List.mem_map, decide_eq_true_eq]
  exact and_comm

theorem occurs_of_mem_run {splits : List Text} {ws : List (ℕ × ℕ)} {w : ℕ × ℕ} {split : Text}
    (hw : w ∈ ws) (hsplit : split ∈ run splits w) (hblank : trimSpace split ≠ []) :
    joinDocs (run splits w) separator ∈ chunksOf separator splits ws ∧
      trimSpace split <:+: joinDocs (run splits w) separator := by
  have hinfix : trimSpace split <:+: joinDocs (run splits w) separator :=
    trimSpace_infix_of_infix (infix_intercalate hsplit)
  refine ⟨mem_chunksOf.mpr ⟨fun hnil => hblank ?_, w, hw, rfl⟩, hinfix⟩
  rw [hnil] at hinfix
  exact List.infix_nil.mp hinfix

theorem run_pair {splits : List Text} {i : ℕ} {x y : Text} (hx : splits[i]? = some x)
    (hy : splits[i + 1]? = some y) : run splits (i, i + 2) = [x, y] := by
  rw [run, List.drop_take, List.drop_eq_getElem?_toList_append, List.drop_eq_getElem?_toList_append, hx,
    hy]
  simp

/-- A run of two splits is a pair of neighbours. -/
theorem neighbours_of_run {splits : List Text} {w : ℕ × ℕ} {x y : Text} (h : run splits w = [x, y]) :
    splits[w.1]? = some x ∧ splits[w.1 + 1]? = some y := by
  have hget (i : ℕ) : (run splits w)[i]? = (splits.take w.2)[w.1 + i]? := by rw [run, List.getElem?_drop]
  have hx := hget 0
  have hy := hget 1
  rw [h] at hx hy
  have htake {i : ℕ} {z : Text} (hz : (splits.take w.2)[i]? = some z) : splits[i]? = some z := by
    rw [List.getElem?_take] at hz
    split at hz
    · exact hz
    · simp at hz
  exact ⟨htake hx.symm, htake hy.symm⟩

/-- The splits stand in the chunks, in order; and every chunk is short enough exactly when no two
neighbours are too long together. -/
theorem mergeSplits_merged_iff {splits : List Text}
    (h : ∀ split ∈ splits, (lenFunc.len split : ℤ) < chunkSize) :
    Merged lenFunc separator chunkSize splits
        (mergeSplits lenFunc separator chunkSize chunkOverlap splits) ↔
      NeighboursFit lenFunc separator chunkSize chunkOverlap splits := by
  by_cases hnil : splits = []
  · subst hnil
    have hchunks : mergeSplits lenFunc separator chunkSize chunkOverlap [] = [] := rfl
    rw [hchunks]
    refine iff_of_true ⟨by simp, [], ⟨by simp, by simp, by simp⟩, rfl, by simp⟩ ?_
    intro i x y hx
    simp at hx
  · obtain ⟨first, hfirst⟩ := List.exists_mem_of_ne_nil splits hnil
    have hsize : 0 < chunkSize := by
      have := h first hfirst
      omega
    obtain ⟨ws, start, hinv⟩ := @exists_inv lenFunc separator chunkSize chunkOverlap hsize _ h
    have hchunks : mergeSplits lenFunc separator chunkSize chunkOverlap splits =
        chunksOf separator splits (ws ++ [(start, splits.length)]) := by
      rw [mergeSplits, hinv.docs, hinv.currentDoc, chunksOf_append, run_length]
    rw [hchunks]
    constructor
    · rintro ⟨hbound, -⟩ i x y hx hy hkept hwithout
      by_cases hlong : chunkSize < (lenFunc.len x + lenFunc.len separator + lenFunc.len y : ℤ)
      · by_cases hblank : joinDocs [x, y] separator = []
        · simpa [hblank] using hsize.le
        · apply hbound
          have hmem := hinv.overlong i x y hx hy ⟨hkept, hwithout, hlong⟩
          exact mem_chunksOf.mpr ⟨hblank, _, hmem, by rw [run_pair hx hy]⟩
      · have hle := len_joinDocs_le lenFunc separator [x, y]
        rw [joinLen_cons _ _ _ (by simp), joinLen_singleton] at hle
        omega
    · intro hfit
      refine ⟨fun chunk hchunk => ?_, _, hinv.runs, rfl, fun w hw split hsplit hblank =>
        occurs_of_mem_run hw hsplit hblank⟩
      obtain ⟨-, w, hw, rfl⟩ := mem_chunksOf.mp hchunk
      have hfits : Fits lenFunc separator chunkSize chunkOverlap (run splits w) := by
        rcases List.mem_append.mp hw with hw | hw
        · exact hinv.fits w hw
        · rw [List.mem_singleton.mp hw, run_length]
          exact hinv.current_fits
      rcases hfits with hshort | ⟨x, y, hxy, hover⟩
      · have hle := len_joinDocs_le lenFunc separator (run splits w)
        omega
      · obtain ⟨hx, hy⟩ := neighbours_of_run hxy
        rw [hxy]
        exact hfit w.1 x y hx hy hover.kept hover.without

namespace Sample

/-- The number of characters. -/
def runeCount : LenFunc := ⟨List.length, fun _ _ => List.length_append⟩

def splits : List Text := ["aaaa".toList, "bbbb".toList, "cccccc".toList]

end Sample

/-- With an overlap of 5 the second split is kept before the third one, and the separator makes the
chunk longer than 10. -/
theorem mergeSplits_overlong :
    mergeSplits Sample.runeCount "--".toList 10 5 Sample.splits =
        ["aaaa--bbbb".toList, "bbbb--cccccc".toList] ∧
      ¬ Merged Sample.runeCount "--".toList 10 Sample.splits
        (mergeSplits Sample.runeCount "--".toList 10 5 Sample.splits) := by
  have hchunks : mergeSplits Sample.runeCount "--".toList 10 5 Sample.splits =
      ["aaaa--bbbb".toList, "bbbb--cccccc".toList] := by decide
  refine ⟨hchunks, fun h => ?_⟩
  have hsize := h.size "bbbb--cccccc".toList (by rw [hchunks]; simp)
  exact absurd hsize (by decide)

/-- With an overlap of 3 none of the splits is kept. -/
theorem mergeSplits_fits : Merged Sample.runeCount "--".toList 10 Sample.splits
    (mergeSplits Sample.runeCount "--".toList 10 3 Sample.splits) := by
  refine (mergeSplits_merged_iff (by decide)).mpr fun i x y hx _ hkept => ?_
  have hlong : ∀ split ∈ Sample.splits, (3 : ℤ) < Sample.runeCount.len split := by decide
  have := hlong x (List.mem_of_getElem? hx)
  omega

/-- No chunk is longer than the size by more than the separator, and in all cases the splits stand in
the chunks, in order. -/
theorem mergeSplits_merged {splits : List Text}
    (h : ∀ split ∈ splits, (lenFunc.len split : ℤ) < chunkSize) :
    Merged lenFunc separator (chunkSize + lenFunc.len separator) splits
      (mergeSplits lenFunc separator chunkSize chunkOverlap splits) := by
  cases splits with
  | nil =>
      have hchunks : mergeSplits lenFunc separator chunkSize chunkOverlap [] = [] := rfl
      rw [hchunks]
      exact ⟨by simp, [], ⟨by simp, by simp, by simp⟩, rfl, by simp⟩
  | cons first rest =>
      have hfirst := h first List.mem_cons_self
      generalize first :: rest = splits at h ⊢
      obtain ⟨ws, start, hinv⟩ :=
        @exists_inv lenFunc separator chunkSize chunkOverlap (by omega) _ h
      have hchunks : mergeSplits lenFunc separator chunkSize chunkOverlap splits =
          chunksOf separator splits (ws ++ [(start, splits.length)]) := by
        rw [mergeSplits, hinv.docs, hinv.currentDoc, chunksOf_append, run_length]
      rw [hchunks]
      refine ⟨fun chunk hchunk => ?_, _, hinv.runs, rfl, fun w hw split hsplit hblank =>
        occurs_of_mem_run hw hsplit hblank⟩
      obtain ⟨-, w, hw, rfl⟩ := mem_chunksOf.mp hchunk
      have hfits : Fits lenFunc separator chunkSize chunkOverlap (run splits w) := by
        rcases List.mem_append.mp hw with hw | hw
        · exact hinv.fits w hw
        · rw [List.mem_singleton.mp hw, run_length]
          exact hinv.current_fits
      have hle := len_joinDocs_le lenFunc separator (run splits w)
      rcases hfits with hshort | ⟨x, y, hxy, hover⟩
      · omega
      · have hwithout := hover.without
        rw [hxy, joinLen_cons _ _ _ (by simp), joinLen_singleton] at hle
        rw [hxy]
        omega

theorem mergeSplits_merged_sample : Merged Sample.runeCount "--".toList (10 + 2) Sample.splits
    (mergeSplits Sample.runeCount "--".toList 10 5 Sample.splits) :=
  mergeSplits_merged (by decide)

end Merge

end Higress.TextSplitter
