import Mathlib.Data.List.Nodup
import Higress.Lib.GoString

/-!
Go maps with string keys as lists of their members, each name once. A map that
is read from a text with a name that comes again keeps the last value.
-/

namespace Higress.Lib.GoMap

variable {α : Type*}

/-- The members that a map keeps of an object: of several with one name the
last. -/
def lastWins : List (GoString × α) → List (GoString × α)
  | [] => []
  | m :: ms => if ms.any (·.1 == m.1) then lastWins ms else m :: lastWins ms

variable {name : GoString} {v : α} {ms : List (GoString × α)}

theorem lookup_eq_none_iff : ms.lookup name = none ↔ name ∉ ms.map Prod.fst := by
  rw [List.lookup_eq_none_iff, List.mem_map]
  constructor
  · rintro h ⟨m, hm, rfl⟩
    simpa using h m hm
  · intro h m hm
    rw [bne_iff_ne]
    rintro rfl
    exact h ⟨m, hm, rfl⟩

/-- In a map a name has one value. -/
theorem lookup_eq_some_iff (h : (ms.map Prod.fst).Nodup) :
    ms.lookup name = some v ↔ (name, v) ∈ ms := by
  induction ms with
  | nil => simp
  | cons m ms ih =>
      rw [List.map_cons, List.nodup_cons] at h
      rw [List.lookup_cons, List.mem_cons]
      by_cases hname : name = m.1
      · subst hname
        have hnot : (m.1, v) ∉ ms := fun hmem => h.1 (List.mem_map.mpr ⟨_, hmem, rfl⟩)
        simp [hnot, Prod.ext_iff, eq_comm]
      · have hne : (name == m.1) = false := by simpa using hname
        simp [hne, ih h.2, Prod.ext_iff, hname]

theorem mem_of_mem_lastWins {m : GoString × α} (h : m ∈ lastWins ms) : m ∈ ms := by
  induction ms with
  | nil => simp [lastWins] at h
  | cons m' ms ih =>
      rw [lastWins] at h
      split at h
      · exact List.mem_cons_of_mem _ (ih h)
      · rcases List.mem_cons.mp h with rfl | h
        · exact List.mem_cons_self
        · exact List.mem_cons_of_mem _ (ih h)

theorem nodup_lastWins (ms : List (GoString × α)) : ((lastWins ms).map Prod.fst).Nodup := by
  induction ms with
  | nil => simp [lastWins]
  | cons m ms ih =>
      rw [lastWins]
      split
      · exact ih
      · rename_i hnew
        rw [List.map_cons, List.nodup_cons]
        refine ⟨fun hmem => hnew ?_, ih⟩
        obtain ⟨m', hm', heq⟩ := List.mem_map.mp hmem
        exact List.any_eq_true.mpr ⟨m', mem_of_mem_lastWins hm', by simpa using heq⟩

theorem lastWins_eq_self (h : (ms.map Prod.fst).Nodup) : lastWins ms = ms := by
  induction ms with
  | nil => rfl
  | cons m ms ih =>
      rw [List.map_cons, List.nodup_cons] at h
      rw [lastWins, if_neg, ih h.2]
      intro hany
      obtain ⟨m', hm', heq⟩ := List.any_eq_true.mp hany
      exact h.1 (List.mem_map.mpr ⟨m', hm', by simpa using heq⟩)

theorem lastWins_eq_nil_iff : lastWins ms = [] ↔ ms = [] := by
  induction ms with
  | nil => simp [lastWins]
  | cons m ms ih =>
      rw [lastWins]
      split
      · rename_i hany
        obtain ⟨m', hm', -⟩ := List.any_eq_true.mp hany
        simp [ih, List.ne_nil_of_mem hm']
      · simp

end Higress.Lib.GoMap
