import Mathlib.Data.List.Basic

/-!
Go's slices: windows on arrays that other slices may look at as well. `append` writes behind its
slice as long as the array has room there, and copies the slice into a new array after that.
-/

namespace Higress.Lib

/-- A window on an array. -/
structure Slice where
  addr : ℕ
  off : ℕ
  len : ℕ
  cap : ℕ

/-- The slice of no value. -/
def Slice.nil : Slice := ⟨0, 0, 0, 0⟩

/-- The first `n` elements of a slice. -/
def Slice.upTo (s : Slice) (n : ℕ) : Slice := { s with len := n }

/-- A slice from its `n`-th element on. -/
def Slice.since (s : Slice) (n : ℕ) : Slice := ⟨s.addr, s.off + n, s.len - n, s.cap - n⟩

/-- How `append` chooses the capacity of a new array. -/
structure Growth where
  capacity : ℕ → ℕ → ℕ
  le_capacity : ∀ cap needed, needed ≤ capacity cap needed

/-- The capacity of a slice that grew to a length by one element after the other. -/
def Growth.oneByOne (grow : Growth) : ℕ → ℕ
  | 0 => 0
  | n + 1 =>
      if n + 1 ≤ grow.oneByOne n then grow.oneByOne n else grow.capacity (grow.oneByOne n) (n + 1)

theorem Growth.le_oneByOne (grow : Growth) (n : ℕ) : n ≤ grow.oneByOne n := by
  cases n with
  | zero => exact Nat.zero_le _
  | succ n =>
      rw [Growth.oneByOne]
      split
      · assumption
      · exact grow.le_capacity _ _

/-- The arrays, each at its address. -/
abbrev Heap (α : Type*) := List (List α)

namespace Heap

variable {α : Type*}

def array (h : Heap α) (addr : ℕ) : List α := h.getD addr []

/-- The values that a slice shows. -/
def view (h : Heap α) (s : Slice) : List α := ((h.array s.addr).drop s.off).take s.len

def write (h : Heap α) (addr i : ℕ) (xs : List α) : Heap α :=
  h.modify addr fun a => a.take i ++ xs ++ a.drop (i + xs.length)

/-- A new array of some capacity with some values at its beginning. -/
def alloc [Inhabited α] (h : Heap α) (xs : List α) (cap : ℕ) : Heap α × Slice :=
  (h ++ [xs ++ List.replicate (cap - xs.length) default], ⟨h.length, 0, xs.length, cap⟩)

/-- `append`. -/
def append [Inhabited α] (grow : Growth) (h : Heap α) (s : Slice) (xs : List α) : Heap α × Slice :=
  if s.len + xs.length ≤ s.cap then
    (h.write s.addr (s.off + s.len) xs, s.upTo (s.len + xs.length))
  else h.alloc (h.view s ++ xs) (grow.capacity s.cap (s.len + xs.length))

/-- A slice lies in its array. -/
structure Fits (h : Heap α) (s : Slice) : Prop where
  len_le : s.len ≤ s.cap
  cap_le : s.off + s.cap ≤ (h.array s.addr).length

/-- Values written behind a slice do not change what another one shows. -/
def Untouched (h : Heap α) (s : Slice) (xs : List α) (t : Slice) : Prop :=
  t.addr = s.addr → ∀ j < xs.length, t.off ≤ s.off + s.len + j →
    s.off + s.len + j < t.off + t.len → (h.array s.addr)[s.off + s.len + j]? = xs[j]?

/-! ### Reading -/

section Reading

variable {h : Heap α} {s t : Slice} {xs : List α}

@[simp] theorem view_nil : h.view Slice.nil = [] := by simp [view, Slice.nil]

theorem fits_nil : h.Fits Slice.nil := ⟨Nat.le_refl _, Nat.zero_le _⟩

theorem view_getElem? (k : ℕ) :
    (h.view s)[k]? = if k < s.len then (h.array s.addr)[s.off + k]? else none := by
  rw [view, List.getElem?_take]
  split
  · rw [List.getElem?_drop]
  · rfl

theorem Fits.length_view (hs : h.Fits s) : (h.view s).length = s.len := by
  have := hs.len_le
  have := hs.cap_le
  rw [view, List.length_take, List.length_drop]
  omega

theorem Fits.upTo (hs : h.Fits s) {n : ℕ} (hn : n ≤ s.cap) : h.Fits (s.upTo n) := ⟨hn, hs.cap_le⟩

theorem view_upTo {n : ℕ} (hn : n ≤ s.len) : h.view (s.upTo n) = (h.view s).take n := by
  change List.take n _ = _
  rw [view, List.take_take, Nat.min_eq_left hn]
  rfl

theorem Fits.since (hs : h.Fits s) {n : ℕ} (hn : n ≤ s.len) : h.Fits (s.since n) := by
  have hlen := hs.len_le
  have hcap := hs.cap_le
  refine ⟨?_, ?_⟩
  · change s.len - n ≤ s.cap - n
    omega
  · change s.off + n + (s.cap - n) ≤ (h.array s.addr).length
    omega

theorem view_since {n : ℕ} : h.view (s.since n) = (h.view s).drop n := by
  rw [view, view, List.drop_take, List.drop_drop]
  rfl

end Reading

/-! ### Writing behind a slice -/

section Writing

variable {h : Heap α} {s t : Slice} {xs : List α}

theorem array_write_getElem? {addr i : ℕ} (hi : i + xs.length ≤ (h.array addr).length) (a k : ℕ) :
    ((h.write addr i xs).array a)[k]? =
      if a = addr ∧ i ≤ k ∧ k < i + xs.length then xs[k - i]? else (h.array a)[k]? := by
  simp only [array, write, List.getD_eq_getElem?_getD, List.getElem?_modify] at hi ⊢
  by_cases ha : addr = a
  · subst ha
    cases harr : h[addr]? with
    | none =>
        rw [harr] at hi
        obtain ⟨rfl, rfl⟩ : i = 0 ∧ xs = [] := by
          simp only [Option.getD_none, List.length_nil] at hi
          exact ⟨by omega, List.length_eq_zero_iff.mp (by omega)⟩
        simp
    | some arr =>
        rw [harr] at hi
        simp only [Option.getD_some] at hi
        simp only [if_true, Option.map_eq_map, Option.map_some, Option.getD_some, true_and,
          List.append_assoc]
        by_cases hk : k < i
        · rw [List.getElem?_append_left (by rw [List.length_take]; omega), List.getElem?_take_of_lt hk,
            if_neg (by omega)]
        · rw [List.getElem?_append_right (by rw [List.length_take]; omega), List.length_take,
            Nat.min_eq_left (by omega)]
          by_cases hk' : k < i + xs.length
          · rw [List.getElem?_append_left (by omega), if_pos (by omega)]
          · rw [List.getElem?_append_right (by omega), if_neg (by omega), List.getElem?_drop]
            congr 1
            omega
  · simp [ha, Ne.symm ha]

theorem length_array_write {addr i : ℕ} (hi : i + xs.length ≤ (h.array addr).length) (a : ℕ) :
    ((h.write addr i xs).array a).length = (h.array a).length := by
  simp only [array, write, List.getD_eq_getElem?_getD, List.getElem?_modify] at hi ⊢
  by_cases ha : addr = a
  · subst ha
    cases harr : h[addr]? with
    | none => simp
    | some arr =>
        rw [harr] at hi
        simp only [Option.getD_some] at hi
        simp only [if_true, Option.map_eq_map, Option.map_some, Option.getD_some, List.length_append,
          List.length_take, List.length_drop]
        omega
  · simp [ha]

/-- The room behind a slice. -/
theorem Fits.room (hs : h.Fits s) (hroom : s.len + xs.length ≤ s.cap) :
    s.off + s.len + xs.length ≤ (h.array s.addr).length := by
  have := hs.cap_le
  omega

theorem Fits.write (ht : h.Fits t) {addr i : ℕ} (hi : i + xs.length ≤ (h.array addr).length) :
    (h.write addr i xs).Fits t :=
  ⟨ht.len_le, by rw [length_array_write hi]; exact ht.cap_le⟩

/-- Which slices a write behind a slice leaves. -/
theorem view_write_iff (hs : h.Fits s) (hroom : s.len + xs.length ≤ s.cap) :
    (h.write s.addr (s.off + s.len) xs).view t = h.view t ↔ h.Untouched s xs t := by
  have hi := hs.room hroom
  rw [List.ext_getElem?_iff]
  simp only [view_getElem?, array_write_getElem? hi]
  constructor
  · intro hview haddr j hj hlow hhigh
    have hk := hview (s.off + s.len + j - t.off)
    have hpos : t.off + (s.off + s.len + j - t.off) = s.off + s.len + j := by omega
    have hin : s.off + s.len + j - t.off < t.len := by omega
    rw [if_pos hin, if_pos hin, hpos, if_pos ⟨haddr, by omega, by omega⟩, haddr] at hk
    rw [← hk]
    congr 1
    omega
  · intro huntouched k
    by_cases hk : k < t.len
    · rw [if_pos hk, if_pos hk]
      split
      · rename_i hin
        obtain ⟨haddr, hlow, hhigh⟩ := hin
        have hj := huntouched haddr (t.off + k - (s.off + s.len)) (by omega) (by omega) (by omega)
        have hpos : s.off + s.len + (t.off + k - (s.off + s.len)) = t.off + k := by omega
        rw [hpos] at hj
        rw [haddr, hj]
      · rfl
    · rw [if_neg hk, if_neg hk]

/-- The slice itself has grown. -/
theorem view_write_self (hs : h.Fits s) (hroom : s.len + xs.length ≤ s.cap) :
    (h.write s.addr (s.off + s.len) xs).view (s.upTo (s.len + xs.length)) = h.view s ++ xs := by
  have hi := hs.room hroom
  have hlen := hs.length_view
  apply List.ext_getElem?
  intro k
  rw [view_getElem?, array_write_getElem? hi]
  change (if k < s.len + xs.length then
    if s.addr = s.addr ∧ s.off + s.len ≤ s.off + k ∧ s.off + k < s.off + s.len + xs.length then
      xs[s.off + k - (s.off + s.len)]? else (h.array s.addr)[s.off + k]? else none) = _
  by_cases hk : k < s.len
  · rw [if_pos (by omega), if_neg (by omega), List.getElem?_append_left (by omega), view_getElem?,
      if_pos hk]
  · rw [List.getElem?_append_right (by omega), hlen]
    by_cases hk' : k < s.len + xs.length
    · rw [if_pos hk', if_pos ⟨rfl, by omega, by omega⟩]
      congr 1
      omega
    · rw [if_neg hk', List.getElem?_eq_none (by omega)]

end Writing

/-! ### New arrays -/

section Alloc

variable [Inhabited α] {h : Heap α} {s t : Slice} {xs : List α} {cap : ℕ}

theorem array_alloc_of_fits (ht : h.Fits t) :
    ((h.alloc xs cap).1.array t.addr = h.array t.addr ∧ t.addr < h.length) ∨ t.cap = 0 ∧ t.off = 0 := by
  by_cases haddr : t.addr < h.length
  · refine .inl ⟨?_, haddr⟩
    simp [array, alloc, List.getElem?_append_left haddr]
  · right
    have hcap := ht.cap_le
    rw [array, List.getD_eq_getElem?_getD, List.getElem?_eq_none (by omega), Option.getD_none,
      List.length_nil] at hcap
    omega

theorem Fits.alloc (ht : h.Fits t) : (h.alloc xs cap).1.Fits t := by
  refine ⟨ht.len_le, ?_⟩
  rcases array_alloc_of_fits ht with ⟨harr, -⟩ | ⟨hcap, hoff⟩
  · rw [harr]
    exact ht.cap_le
  · rw [hcap, hoff]
    exact Nat.zero_le _

theorem view_alloc (ht : h.Fits t) : (h.alloc xs cap).1.view t = h.view t := by
  rcases array_alloc_of_fits ht with ⟨harr, -⟩ | ⟨hcap, -⟩
  · rw [view, view, harr]
  · have hlen : t.len = 0 := by
      have := ht.len_le
      omega
    rw [view, view, hlen, List.take_zero, List.take_zero]

theorem array_alloc_self : (h.alloc xs cap).1.array (h.alloc xs cap).2.addr =
    xs ++ List.replicate (cap - xs.length) default := by
  simp [array, alloc]

theorem fits_alloc (hcap : xs.length ≤ cap) : (h.alloc xs cap).1.Fits (h.alloc xs cap).2 := by
  refine ⟨hcap, ?_⟩
  rw [array_alloc_self, List.length_append, List.length_replicate]
  change 0 + cap ≤ _
  omega

theorem view_alloc_self : (h.alloc xs cap).1.view (h.alloc xs cap).2 = xs := by
  rw [view, array_alloc_self]
  change ((xs ++ _).drop 0).take xs.length = xs
  rw [List.drop_zero, List.take_left]

end Alloc

/-! ### Appending -/

section Append

variable [Inhabited α] {grow : Growth} {h : Heap α} {s t : Slice} {xs : List α}

/-- `append` leaves a slice: there is no room, or what is written does not change it. -/
def Spares (h : Heap α) (s : Slice) (xs : List α) (t : Slice) : Prop :=
  s.len + xs.length ≤ s.cap → h.Untouched s xs t

theorem view_append_iff (hs : h.Fits s) (ht : h.Fits t) :
    (h.append grow s xs).1.view t = h.view t ↔ h.Spares s xs t := by
  rw [append, Spares]
  split
  · rename_i hroom
    rw [view_write_iff hs hroom]
    exact ⟨fun huntouched _ => huntouched, fun huntouched => huntouched hroom⟩
  · rename_i hroom
    exact iff_of_true (view_alloc ht) fun hroom' => absurd hroom' hroom

theorem view_append_self (hs : h.Fits s) :
    (h.append grow s xs).1.view (h.append grow s xs).2 = h.view s ++ xs := by
  rw [append]
  split
  · rename_i hroom
    exact view_write_self hs hroom
  · exact view_alloc_self

theorem Fits.append (ht : h.Fits t) (hs : h.Fits s) : (h.append grow s xs).1.Fits t := by
  rw [Heap.append]
  split
  · rename_i hroom
    exact ht.write (hs.room hroom)
  · exact ht.alloc

theorem fits_append_self (hs : h.Fits s) :
    (h.append grow s xs).1.Fits (h.append grow s xs).2 := by
  rw [Heap.append]
  split
  · rename_i hroom
    exact (hs.write (hs.room hroom)).upTo hroom
  · apply fits_alloc
    rw [List.length_append, hs.length_view]
    exact grow.le_capacity _ _

end Append

end Heap

end Higress.Lib
