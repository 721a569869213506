import Mathlib.Data.List.Infix
import Higress.Lib.GoString

/-!
Slash-separated paths, as Go's `path` and `net/url` packages treat them. A path
is resolved element by element with a stack: empty elements and `.` are
dropped and `..` pops. `clean` writes the resolved path again; a rooted path
cannot climb above its root, any other keeps the `..` that lead out of it.
-/

namespace Higress.Lib.Path

/-- The elements between the slashes. -/
def elements (p : GoString) : List GoString := p.splitOn 47

/-- One element against the elements resolved so far, the innermost last. -/
def push (rooted : Bool) (stack : List GoString) (e : GoString) : List GoString :=
  if e = [] ∨ e = [46] then stack
  else if e = [46, 46] then
    if rooted = false ∧ (stack = [] ∨ stack.getLast? = some [46, 46]) then stack ++ [e]
    else stack.dropLast
  else stack ++ [e]

/-- Rooted elements resolved from the root on. -/
def walk (es : List GoString) : List GoString := es.foldl (push true) []

/-- The location of a rooted path. -/
def resolve (p : GoString) : List GoString := walk (elements p)

/-- `path.Clean`. -/
def clean (p : GoString) : GoString :=
  if p.head? = some 47 then 47 :: Strings.join (resolve p) [47]
  else match (elements p).foldl (push false) [] with
    | [] => [46]
    | stack => Strings.join stack [47]

/-- `path.Join`: the elements from the first that is not empty on, cleaned. -/
def join (elems : List GoString) : GoString :=
  match elems.dropWhile List.isEmpty with
  | [] => []
  | es => clean (Strings.join es [47])

/-- `url.PathUnescape`; an escape that is not two hexadecimal digits is an
error of the whole path. -/
def unescape : GoString → Option GoString
  | [] => some []
  | c :: s =>
      if c = 37 then
        match s with
        | a :: b :: s => do
            let a ← hexValue a
            let b ← hexValue b
            let s ← unescape s
            return UInt8.ofNat (16 * a + b) :: s
        | _ => none
      else (unescape s).map (c :: ·)

theorem unescape_cons {c : UInt8} (hc : c ≠ 37) (s : GoString) :
    unescape (c :: s) = (unescape s).map (c :: ·) := by
  rw [unescape.eq_def]
  exact if_neg hc

theorem unescape_of_notMem {s : GoString} (h : 37 ∉ s) : unescape s = some s := by
  induction s with
  | nil => rfl
  | cons c s ih =>
      simp only [List.mem_cons, not_or] at h
      rw [unescape_cons (Ne.symm h.1), ih h.2]
      rfl

/-- From where it has reached `base`, a rooted path stays at it or below it. -/
def StaysBelow (base : List GoString) (p : GoString) : Prop :=
  (∃ k, walk ((elements p).take k) = base) ∧
    ∀ k n, k ≤ n → walk ((elements p).take k) = base → base <+: walk ((elements p).take n)

/-! ### Resolved elements -/

/-- An element that resolves to itself. -/
structure Plain (e : GoString) : Prop where
  ne_nil : e ≠ []
  ne_dot : e ≠ [46]
  ne_dotdot : e ≠ [46, 46]
  slash : 47 ∉ e

theorem push_plain {e : GoString} (he : Plain e) (rooted : Bool) (stack : List GoString) :
    push rooted stack e = stack ++ [e] := by
  rw [push, if_neg (by simp [he.ne_nil, he.ne_dot]), if_neg he.ne_dotdot]

theorem push_nil (rooted : Bool) (stack : List GoString) : push rooted stack [] = stack := by
  rw [push, if_pos (Or.inl rfl)]

theorem foldl_push_plain {es : List GoString} (hes : ∀ e ∈ es, Plain e) (rooted : Bool)
    (stack : List GoString) : es.foldl (push rooted) stack = stack ++ es := by
  induction es generalizing stack with
  | nil => simp
  | cons e es ih =>
      simp only [List.mem_cons, forall_eq_or_imp] at hes
      rw [List.foldl_cons, push_plain hes.1, ih hes.2, List.append_assoc, List.singleton_append]

theorem slash_notMem_of_mem_elements {p e : GoString} (he : e ∈ elements p) : 47 ∉ e := by
  induction p generalizing e with
  | nil =>
      obtain rfl : e = [] := by simpa [elements] using he
      simp
  | cons b p ih =>
      rw [elements, List.splitOn_cons_eq_if_modifyHead] at he
      split at he
      · rcases List.mem_cons.mp he with rfl | he
        · simp
        · exact ih he
      · rename_i hb
        obtain ⟨first, rest, hsplit⟩ := List.exists_cons_of_ne_nil (List.splitOn_ne_nil 47 p)
        have hmem : ∀ e ∈ first :: rest, 47 ∉ e := by
          intro e he
          rw [← hsplit] at he
          exact ih he
        rw [hsplit, List.modifyHead_cons] at he
        rcases List.mem_cons.mp he with rfl | he
        · have hne : b ≠ 47 := by simpa using hb
          simpa [eq_comm, hne] using hmem first (by simp)
        · exact hmem e (by simp [he])

/-- Every element that stays on the stack was pushed there. -/
theorem mem_foldl_push {P : GoString → Prop} {rooted : Bool} {es stack : List GoString}
    (hstack : ∀ e ∈ stack, P e)
    (hes : ∀ e ∈ es, e ≠ [] → e ≠ [46] → (rooted = true → e ≠ [46, 46]) → P e) :
    ∀ e ∈ es.foldl (push rooted) stack, P e := by
  induction es generalizing stack with
  | nil => exact hstack
  | cons e es ih =>
      simp only [List.mem_cons, forall_eq_or_imp] at hes
      refine ih ?_ hes.2
      have hsnoc : ∀ x ∈ stack ++ [e], (x = e → P e) → P x := by
        intro x hx he
        rcases List.mem_append.mp hx with hx | hx
        · exact hstack x hx
        · obtain rfl : x = e := by simpa using hx
          exact he rfl
      intro x hx
      rw [push] at hx
      split at hx
      · exact hstack x hx
      · rename_i hskip
        rw [not_or] at hskip
        split at hx
        · split at hx
          · rename_i hr
            exact hsnoc x hx fun _ => hes.1 hskip.1 hskip.2 (by simp [hr.1])
          · exact hstack x (List.mem_of_mem_dropLast hx)
        · rename_i hdd
          exact hsnoc x hx fun _ => hes.1 hskip.1 hskip.2 fun _ => hdd

theorem plain_of_mem_resolve {p e : GoString} (he : e ∈ resolve p) : Plain e := by
  refine mem_foldl_push (by simp) ?_ e he
  intro e hmem hnil hdot hdd
  exact ⟨hnil, hdot, hdd rfl, slash_notMem_of_mem_elements hmem⟩

/-! ### Writing a location -/

theorem elements_append_slash (p q : GoString) :
    elements (p ++ 47 :: q) = elements p ++ elements q :=
  List.splitOn_append_cons_self p q

theorem elements_join {es : List GoString} (hes : ∀ e ∈ es, 47 ∉ e) (hne : es ≠ []) :
    elements (Strings.join es [47]) = es :=
  List.splitOn_intercalate 47 hes hne

theorem elements_slash_cons (p : GoString) : elements (47 :: p) = [] :: elements p := by
  exact elements_append_slash [] p

theorem resolve_append_slash (p q : GoString) :
    resolve (p ++ 47 :: q) = (elements q).foldl (push true) (resolve p) := by
  rw [resolve, walk, elements_append_slash, List.foldl_append]
  rfl

theorem resolve_slash_cons (p : GoString) : resolve (47 :: p) = resolve p := by
  rw [resolve, resolve, walk, elements_slash_cons, List.foldl_cons, push_nil]
  rfl

theorem resolve_append_slash_nil (p : GoString) : resolve (p ++ [47]) = resolve p := by
  rw [resolve_append_slash, elements, List.splitOn_nil, List.foldl_cons, push_nil, List.foldl_nil]

theorem resolve_join {es : List GoString} (hes : ∀ e ∈ es, Plain e) :
    resolve (Strings.join es [47]) = es := by
  cases es with
  | nil => rfl
  | cons e es =>
      rw [resolve, elements_join (fun x hx => (hes x hx).slash) (by simp), walk,
        foldl_push_plain hes, List.nil_append]

/-- A written location is read back. -/
theorem resolve_slash_join {es : List GoString} (hes : ∀ e ∈ es, Plain e) :
    resolve (47 :: Strings.join es [47]) = es := by
  rw [resolve_slash_cons, resolve_join hes]

theorem clean_rooted (p : GoString) : clean (47 :: p) = 47 :: Strings.join (resolve p) [47] := by
  rw [clean, if_pos (by simp), resolve_slash_cons]

theorem join_append {xs ys : List GoString} (hx : xs ≠ []) (hy : ys ≠ []) :
    Strings.join (xs ++ ys) [47] = Strings.join xs [47] ++ 47 :: Strings.join ys [47] := by
  induction xs with
  | nil => exact absurd rfl hx
  | cons x xs ih =>
      cases xs with
      | nil =>
          simp only [Strings.join, List.singleton_append, List.intercalate_cons_of_ne_nil hy,
            List.intercalate_singleton]
          simp
      | cons y xs =>
          have := ih (by simp)
          simp only [Strings.join, List.cons_append, List.intercalate_cons_cons] at this ⊢
          rw [this]
          simp

/-- Two written locations compare as their elements do. -/
theorem isPrefix_of_slash_isPrefix {xs ys : List GoString} (hx : ∀ e ∈ xs, Plain e)
    (hy : ∀ e ∈ ys, Plain e) (hne : xs ≠ [])
    (h : Strings.join xs [47] ++ [47] <+: Strings.join ys [47]) : xs <+: ys := by
  obtain ⟨r, hr⟩ := h
  have hys : ys ≠ [] := by
    rintro rfl
    simp [Strings.join] at hr
  have helems := congrArg elements hr
  rw [List.append_assoc, List.singleton_append, elements_append_slash,
    elements_join (fun e he => (hx e he).slash) hne,
    elements_join (fun e he => (hy e he).slash) hys] at helems
  exact ⟨elements r, helems⟩

/-- Only the root is written with a slash at its end. -/
theorem not_suffix_slash_join {es : List GoString} (hes : ∀ e ∈ es, Plain e) (hne : es ≠ []) :
    ¬ [47] <:+ 47 :: Strings.join es [47] := by
  rintro ⟨q, hq⟩
  have helems := congrArg elements hq
  rw [elements_append_slash, elements_slash_cons, elements_join (fun e he => (hes e he).slash) hne]
    at helems
  cases hfirst : elements q with
  | nil => exact absurd hfirst (List.splitOn_ne_nil 47 q)
  | cons e rest =>
      rw [hfirst, List.cons_append] at helems
      have hmem : [] ∈ es := by
        rw [← (List.cons.inj helems).2]
        simp [elements]
      exact (hes [] hmem).ne_nil rfl

/-! ### Bytes -/

theorem mem_join {es : List GoString} {b : UInt8} (hb : b ≠ 47) :
    b ∈ Strings.join es [47] ↔ ∃ e ∈ es, b ∈ e := by
  induction es with
  | nil => simp [Strings.join]
  | cons e es ih =>
      cases es with
      | nil => simp [Strings.join]
      | cons e' es =>
          rw [Strings.join] at ih ⊢
          rw [List.intercalate_cons_cons, List.append_assoc, List.mem_append, List.mem_append, ih]
          simp [hb]

theorem mem_of_mem_elements {p e : GoString} {b : UInt8} (he : e ∈ elements p) (hb : b ∈ e) :
    b ∈ p := by
  have hp : Strings.join (elements p) [47] = p := List.intercalate_splitOn 47
  have hne : b ≠ 47 := by
    rintro rfl
    exact slash_notMem_of_mem_elements he hb
  rw [← hp, mem_join hne]
  exact ⟨e, he, hb⟩

/-- Cleaning brings in no bytes but slashes and dots. -/
theorem mem_of_mem_clean {p : GoString} {b : UInt8} (hslash : b ≠ 47) (hdot : b ≠ 46)
    (h : b ∈ clean p) : b ∈ p := by
  have hfold : ∀ rooted, b ∈ Strings.join ((elements p).foldl (push rooted) []) [47] → b ∈ p := by
    intro rooted h
    obtain ⟨e, he, hb⟩ := (mem_join hslash).mp h
    have hmem : e ∈ elements p :=
      @mem_foldl_push (· ∈ elements p) _ _ _ (by simp) (fun e he _ _ _ => he) e he
    exact mem_of_mem_elements hmem hb
  rw [clean] at h
  split at h
  · rcases List.mem_cons.mp h with h | h
    · exact absurd h hslash
    · exact hfold true h
  · split at h
    · exact absurd (by simpa using h) hdot
    · exact hfold false h

/-- Only a rooted path is cleaned to a rooted one. -/
theorem rooted_of_clean {p q : GoString} (h : clean p = 47 :: q) : p.head? = some 47 := by
  by_contra hp
  rw [clean, if_neg hp] at h
  split at h
  · simp at h
  · rename_i stack hne
    have hmem : ∀ e ∈ (elements p).foldl (push false) [], e ≠ [] ∧ 47 ∉ e :=
      mem_foldl_push (by simp) fun e he hnil _ _ => ⟨hnil, slash_notMem_of_mem_elements he⟩
    obtain ⟨e, es, hes⟩ := List.exists_cons_of_ne_nil hne
    rw [hes] at h hmem
    have hfirst := hmem e (by simp)
    obtain ⟨c, e, rfl⟩ := List.exists_cons_of_ne_nil hfirst.1
    rw [Strings.join, List.intercalate_cons_cons_left] at h
    obtain rfl : c = 47 := by simpa using (List.cons.inj h).1
    simp at hfirst

/-! ### Descending paths -/

/-- Elements that are empty or plain are never popped. -/
theorem walk_filter {es : List GoString} (hes : ∀ e ∈ es, e = [] ∨ Plain e) :
    walk es = es.filter (· ≠ []) := by
  have hfold : ∀ stack, es.foldl (push true) stack = stack ++ es.filter (· ≠ []) := by
    induction es with
    | nil => simp
    | cons e es ih =>
        simp only [List.mem_cons, forall_eq_or_imp] at hes
        intro stack
        rw [List.foldl_cons, ih hes.2]
        rcases hes.1 with rfl | he
        · simp [push_nil]
        · simp [push_plain he, he.ne_nil]
  rw [walk, hfold, List.nil_append]

/-- A written location goes down only. -/
theorem staysBelow_slash_join {base es : List GoString} (hes : ∀ e ∈ es, Plain e)
    (h : base <+: es) : StaysBelow base (47 :: Strings.join es [47]) := by
  have helems : ∀ e ∈ elements (47 :: Strings.join es [47]), e = [] ∨ Plain e := by
    intro e he
    cases es with
    | nil =>
        left
        simpa [elements, Strings.join, List.splitOn_cons_eq_if_modifyHead] using he
    | cons x es =>
        rw [elements_slash_cons, elements_join (fun e he => (hes e he).slash) (by simp)] at he
        rcases List.mem_cons.mp he with he | he
        · exact Or.inl he
        · exact Or.inr (hes e he)
  have hwalk : ∀ n, walk ((elements (47 :: Strings.join es [47])).take n) =
      ((elements (47 :: Strings.join es [47])).take n).filter (· ≠ []) :=
    fun n => walk_filter fun e he => helems e (List.mem_of_mem_take he)
  refine ⟨?_, ?_⟩
  · obtain ⟨below, rfl⟩ := h
    cases hb : base ++ below with
    | nil =>
        refine ⟨0, ?_⟩
        simp [(List.append_eq_nil_iff.mp hb).1, walk]
    | cons e rest =>
        refine ⟨base.length + 1, ?_⟩
        rw [← hb, elements_slash_cons, elements_join (fun e he => (hes e he).slash) (by simp [hb]),
          List.take_succ_cons, List.take_left, walk, List.foldl_cons, push_nil,
          foldl_push_plain fun e he => hes e (List.mem_append_left _ he), List.nil_append]
  · intro k n hkn hk
    rw [← hk, hwalk, hwalk]
    exact (List.take_prefix_take_left hkn).filter _

end Higress.Lib.Path
