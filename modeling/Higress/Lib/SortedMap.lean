import Mathlib

/-!
Maps as lists of entries in the order of their keys (`BTreeMap`).
-/

namespace Higress.Lib

/-- A map; the keys of its entries increase. -/
structure SortedMap (κ α : Type*) [LT κ] where
  entries : List (κ × α)
  sorted : (entries.map Prod.fst).Pairwise (· < ·)

namespace SortedMap

variable {κ α β σ : Type*}

/-- The values visited in the order of their keys, each replaced, with a state
that is passed on. -/
def visitEntries (f : σ → α → α × σ) : σ → List (κ × α) → List (κ × α) × σ
  | s, [] => ([], s)
  | s, (k, v) :: es =>
      let (v, s) := f s v
      let (es, s) := visitEntries f s es
      ((k, v) :: es, s)

theorem keys_visitEntries (f : σ → α → α × σ) (s : σ) (es : List (κ × α)) :
    (visitEntries f s es).1.map Prod.fst = es.map Prod.fst := by
  induction es generalizing s with
  | nil => rfl
  | cons e es ih => simp [visitEntries, ih]

/-- A visitor whose new values do not depend on the state. -/
theorem visitEntries_fst {f : σ → α → α × σ} {g : α → α} (h : ∀ s v, (f s v).1 = g v) (s : σ)
    (es : List (κ × α)) : (visitEntries f s es).1 = es.map fun e => (e.1, g e.2) := by
  induction es generalizing s with
  | nil => rfl
  | cons e es ih => simp [visitEntries, ih, h]

/-- A visitor that collects what each value gives. -/
theorem visitEntries_snd {f : List β → α → α × List β} {g : α → List β}
    (h : ∀ s v, (f s v).2 = s ++ g v) (s : List β) (es : List (κ × α)) :
    (visitEntries f s es).2 = s ++ es.flatMap fun e => g e.2 := by
  induction es generalizing s with
  | nil => simp [visitEntries]
  | cons e es ih => simp [visitEntries, ih, h]

section Lookup

variable [BEq κ] [LawfulBEq κ] [DecidableEq κ]

theorem lookup_entry (e : κ × α) (es : List (κ × α)) (j : κ) :
    (e :: es).lookup j = if j = e.1 then some e.2 else es.lookup j := by
  rw [List.lookup_cons]
  by_cases h : j = e.1
  · simp [h]
  · rw [beq_eq_false_iff_ne.mpr h, if_neg h]

theorem lookup_filter_ne (k j : κ) (es : List (κ × α)) :
    (es.filter fun e => e.1 ≠ k).lookup j = if j = k then none else es.lookup j := by
  induction es with
  | nil => simp
  | cons e es ih =>
      by_cases hk : e.1 = k
      · rw [List.filter_cons_of_neg (by simp [hk]), ih, lookup_entry, hk]
        split <;> rfl
      · rw [List.filter_cons_of_pos (by simp [hk]), lookup_entry, lookup_entry, ih]
        by_cases hj : j = e.1
        · simp [hj, hk]
        · simp [hj]

theorem lookup_map_snd (g : α → β) (es : List (κ × α)) (j : κ) :
    (es.map fun e => (e.1, g e.2)).lookup j = (es.lookup j).map g := by
  induction es with
  | nil => rfl
  | cons e es ih =>
      rw [List.map_cons, lookup_entry, lookup_entry, ih]
      split <;> rfl

/-- With different keys, what belongs to one key comes from one entry. -/
theorem flatMap_of_lookup {es : List (κ × α)} (h : (es.map Prod.fst).Nodup) (j : κ)
    (g : α → List β) :
    (es.flatMap fun e => if e.1 = j then g e.2 else []) = ((es.lookup j).map g).getD [] := by
  induction es with
  | nil => rfl
  | cons e es ih =>
      rw [List.map_cons, List.nodup_cons] at h
      rw [List.flatMap_cons, ih h.2, lookup_entry]
      by_cases hj : j = e.1
      · have hnone : es.lookup j = none := by
          rw [List.lookup_eq_none_iff]
          intro e' he'
          rw [bne_iff_ne]
          rintro rfl
          exact h.1 (hj ▸ List.mem_map_of_mem he')
        simp [hj.symm, hnone]
      · rw [if_neg (Ne.symm hj), if_neg hj, List.nil_append]

end Lookup

variable [LinearOrder κ]

def empty : SortedMap κ α := ⟨[], by simp⟩

def get (m : SortedMap κ α) (k : κ) : Option α := m.entries.lookup k

/-- The entries with `k ↦ v` put in. -/
def insertEntry (k : κ) (v : α) : List (κ × α) → List (κ × α)
  | [] => [(k, v)]
  | (j, w) :: es =>
      if k < j then (k, v) :: (j, w) :: es
      else if k = j then (k, v) :: es
      else (j, w) :: insertEntry k v es

theorem mem_insertEntry {k j : κ} {v : α} {es : List (κ × α)}
    (h : j ∈ (insertEntry k v es).map Prod.fst) : j = k ∨ j ∈ es.map Prod.fst := by
  induction es with
  | nil => simpa [insertEntry] using h
  | cons e es ih =>
      rw [insertEntry] at h
      split at h
      · simpa using h
      · split at h
        · rw [List.map_cons, List.mem_cons] at h
          exact h.imp_right fun h => List.mem_cons_of_mem _ h
        · rw [List.map_cons, List.mem_cons] at h
          rcases h with rfl | h
          · exact .inr (by simp)
          · exact (ih h).imp_right fun h => List.mem_cons_of_mem _ h

theorem sorted_insertEntry (k : κ) (v : α) {es : List (κ × α)}
    (h : (es.map Prod.fst).Pairwise (· < ·)) :
    ((insertEntry k v es).map Prod.fst).Pairwise (· < ·) := by
  induction es with
  | nil => simp [insertEntry]
  | cons e es ih =>
      rw [List.map_cons, List.pairwise_cons] at h
      rw [insertEntry]
      split
      · rename_i hlt
        rw [List.map_cons, List.pairwise_cons, List.map_cons, List.pairwise_cons]
        refine ⟨?_, h⟩
        intro j hj
        rcases List.mem_cons.mp hj with rfl | hj
        · exact hlt
        · exact hlt.trans (h.1 j hj)
      · split
        · rename_i heq
          rw [List.map_cons, List.pairwise_cons]
          exact ⟨fun j hj => heq ▸ h.1 j hj, h.2⟩
        · rename_i hlt hne
          rw [List.map_cons, List.pairwise_cons]
          refine ⟨?_, ih h.2⟩
          intro j hj
          rcases mem_insertEntry hj with rfl | hj
          · exact lt_of_le_of_ne (not_lt.mp hlt) (Ne.symm hne)
          · exact h.1 j hj

def insert (m : SortedMap κ α) (k : κ) (v : α) : SortedMap κ α :=
  ⟨insertEntry k v m.entries, sorted_insertEntry k v m.sorted⟩

def erase (m : SortedMap κ α) (k : κ) : SortedMap κ α :=
  ⟨m.entries.filter fun e => e.1 ≠ k, by
    rw [List.pairwise_map]
    exact (List.pairwise_map.mp m.sorted).filter _⟩

/-- `values_mut`, with the state of the visitor. -/
def visit (m : SortedMap κ α) (f : σ → α → α × σ) (s : σ) : SortedMap κ α × σ :=
  (⟨(visitEntries f s m.entries).1, by rw [keys_visitEntries]; exact m.sorted⟩,
    (visitEntries f s m.entries).2)

@[simp] theorem get_empty (k : κ) : (empty : SortedMap κ α).get k = none := rfl

theorem nodup_keys (m : SortedMap κ α) : (m.entries.map Prod.fst).Nodup :=
  m.sorted.imp fun h => h.ne

theorem get_of_mem {m : SortedMap κ α} {e : κ × α} (h : e ∈ m.entries) : m.get e.1 = some e.2 := by
  have hnodup := m.nodup_keys
  rw [get]
  generalize m.entries = es at h hnodup ⊢
  induction es with
  | nil => simp at h
  | cons f es ih =>
      rw [List.map_cons, List.nodup_cons] at hnodup
      rw [lookup_entry]
      rcases List.mem_cons.mp h with rfl | h
      · simp
      · have hne : e.1 ≠ f.1 := fun heq => hnodup.1 (heq ▸ List.mem_map_of_mem h)
        rw [if_neg hne]
        exact ih h hnodup.2

theorem mem_keys_iff (m : SortedMap κ α) (k : κ) :
    k ∈ m.entries.map Prod.fst ↔ ∃ v, m.get k = some v := by
  constructor
  · intro h
    obtain ⟨e, he, rfl⟩ := List.mem_map.mp h
    exact ⟨e.2, get_of_mem he⟩
  · rintro ⟨v, hv⟩
    by_contra hnot
    have hnone : m.entries.lookup k = none := by
      rw [List.lookup_eq_none_iff]
      intro e he
      rw [bne_iff_ne]
      rintro rfl
      exact hnot (List.mem_map_of_mem he)
    rw [get, hnone] at hv
    cases hv

theorem lookup_insertEntry (k j : κ) (v : α) (es : List (κ × α)) :
    (insertEntry k v es).lookup j = if j = k then some v else es.lookup j := by
  induction es with
  | nil => rw [insertEntry, lookup_entry]
  | cons e es ih =>
      rw [insertEntry]
      split
      · rw [lookup_entry]
      · split
        · rename_i heq
          rw [lookup_entry, lookup_entry, heq]
          split <;> rfl
        · rename_i hne
          rw [lookup_entry, lookup_entry, ih]
          by_cases h : j = e.1
          · have hjk : j ≠ k := fun hjk => hne (hjk.symm.trans h)
            rw [if_pos h, if_neg hjk, if_pos h]
          · simp [h]

@[simp] theorem get_insert (m : SortedMap κ α) (k j : κ) (v : α) :
    (m.insert k v).get j = if j = k then some v else m.get j :=
  lookup_insertEntry k j v m.entries

@[simp] theorem get_erase (m : SortedMap κ α) (k j : κ) :
    (m.erase k).get j = if j = k then none else m.get j :=
  lookup_filter_ne k j m.entries

end SortedMap

end Higress.Lib
