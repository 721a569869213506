import Mathlib.Data.List.Induction
import Mathlib.Data.List.Nodup
import Mathlib.Data.List.Perm.Basic
import Mathlib.Logic.Function.Basic

/-!
Writes to a map, one after the other: of several to one key the last stays. If the writes come
in any order, what stays is the same for all orders if and only if all writes to the key have the
same value.
-/

namespace Higress.Lib

variable {κ β : Type*} [DecidableEq κ]

/-- The value of the last write to a key. -/
def lastFor (k : κ) (writes : List (κ × β)) : Option β :=
  ((writes.filter (·.1 = k)).getLast?).map Prod.snd

/-- The values that are written to a key. -/
def valuesFor (k : κ) (writes : List (κ × β)) : List β := (writes.filter (·.1 = k)).map Prod.snd

variable {k : κ} {writes xs : List (κ × β)}

theorem mem_valuesFor {v : β} : v ∈ valuesFor k writes ↔ (k, v) ∈ writes := by
  rw [valuesFor, List.mem_map]
  constructor
  · rintro ⟨⟨k', v'⟩, h, rfl⟩
    obtain ⟨hmem, hk⟩ := List.mem_filter.mp h
    obtain rfl : k' = k := of_decide_eq_true hk
    exact hmem
  · intro h
    exact ⟨(k, v), List.mem_filter.mpr ⟨h, by simp⟩, rfl⟩

theorem valuesFor_perm (h : xs.Perm writes) : (valuesFor k xs).Perm (valuesFor k writes) :=
  (h.filter _).map _

theorem lastFor_eq_getLast? : lastFor k writes = (valuesFor k writes).getLast? := by
  rw [lastFor, valuesFor, List.getLast?_map]

theorem lastFor_append (kv : κ × β) :
    lastFor k (writes ++ [kv]) = if kv.1 = k then some kv.2 else lastFor k writes := by
  rw [lastFor, List.filter_append]
  split_ifs with h
  · simp [h]
  · simp [h, lastFor]

theorem lastFor_eq_none_iff : lastFor k writes = none ↔ valuesFor k writes = [] := by
  rw [lastFor_eq_getLast?, List.getLast?_eq_none_iff]

theorem mem_of_lastFor {v : β} (h : lastFor k writes = some v) : v ∈ valuesFor k writes := by
  rw [lastFor_eq_getLast?] at h
  exact List.mem_of_getLast? h

/-- If the writes agree, the order does not matter. -/
theorem lastFor_perm (h : xs.Perm writes)
    (hagree : ∀ v ∈ valuesFor k writes, ∀ v' ∈ valuesFor k writes, v = v') :
    lastFor k xs = lastFor k writes := by
  have hperm : (valuesFor k xs).Perm (valuesFor k writes) := valuesFor_perm h
  cases hx : lastFor k xs with
  | none =>
      rw [lastFor_eq_none_iff] at hx
      rw [hx] at hperm
      exact (lastFor_eq_none_iff.mpr hperm.nil_eq.symm).symm
  | some v =>
      have hv := hperm.mem_iff.mp (mem_of_lastFor hx)
      cases hw : lastFor k writes with
      | none =>
          rw [lastFor_eq_none_iff] at hw
          simp [hw] at hv
      | some v' => rw [hagree v hv v' (mem_of_lastFor hw)]

/-- The map after the writes. -/
theorem foldl_update (m : κ → β) (writes : List (κ × β)) (k : κ) :
    writes.foldl (fun m kv => Function.update m kv.1 kv.2) m k = (lastFor k writes).getD (m k) := by
  induction writes using List.reverseRecOn with
  | nil => rfl
  | append_singleton writes kv ih =>
      rw [List.foldl_append, List.foldl_cons, List.foldl_nil, lastFor_append]
      split_ifs with h
      · rw [← h, Function.update_self]
        rfl
      · rw [Function.update_of_ne (Ne.symm h), ih]

/-! ### Maps as lists -/

/-- A write to a map that is a list of its entries. -/
def putEntry (m : List (κ × β)) (kv : κ × β) : List (κ × β) := m.filter (·.1 ≠ kv.1) ++ [kv]

theorem nodup_putEntry {m : List (κ × β)} (h : (m.map Prod.fst).Nodup) (kv : κ × β) :
    ((putEntry m kv).map Prod.fst).Nodup := by
  rw [putEntry, List.map_append, List.nodup_append]
  refine ⟨h.sublist (List.filter_sublist.map _), by simp, ?_⟩
  intro a ha b hb
  obtain ⟨kv', hkv', rfl⟩ := List.mem_map.mp ha
  rw [List.map_singleton, List.mem_singleton] at hb
  rw [hb]
  simpa using (List.mem_filter.mp hkv').2

theorem lastFor_putEntry (m : List (κ × β)) (kv : κ × β) :
    lastFor k (putEntry m kv) = if kv.1 = k then some kv.2 else lastFor k m := by
  rw [putEntry, lastFor_append]
  split_ifs with h
  · rfl
  · rw [lastFor, lastFor, List.filter_filter]
    congr 2
    apply List.filter_congr
    intro kv' _
    by_cases hk : kv'.1 = k
    · simp [hk, Ne.symm h]
    · simp [hk]

/-- The entries after the writes: what is last for each key, and each key once. -/
theorem foldl_putEntry (writes : List (κ × β)) :
    ((writes.foldl putEntry []).map Prod.fst).Nodup ∧
      ∀ k, lastFor k (writes.foldl putEntry []) = lastFor k writes := by
  induction writes using List.reverseRecOn with
  | nil => simp [lastFor]
  | append_singleton writes kv ih =>
      rw [List.foldl_append, List.foldl_cons, List.foldl_nil]
      refine ⟨nodup_putEntry ih.1 kv, fun k => ?_⟩
      rw [lastFor_putEntry, lastFor_append, ih.2 k]

/-- Writes to different keys are the entries. -/
theorem foldl_putEntry_of_nodup (h : (writes.map Prod.fst).Nodup) :
    writes.foldl putEntry [] = writes := by
  induction writes using List.reverseRecOn with
  | nil => rfl
  | append_singleton writes kv ih =>
      rw [List.map_append, List.nodup_append] at h
      rw [List.foldl_append, List.foldl_cons, List.foldl_nil, ih h.1, putEntry,
        List.filter_eq_self.mpr]
      intro kv' hkv'
      have := h.2.2 kv'.1 (List.mem_map.mpr ⟨kv', hkv', rfl⟩) kv.1 (by simp)
      simpa using this

theorem valuesFor_agree (h : (writes.map Prod.fst).Nodup) :
    ∀ v ∈ valuesFor k writes, ∀ v' ∈ valuesFor k writes, v = v' := by
  intro v hv v' hv'
  exact congrArg Prod.snd (List.inj_on_of_nodup_map h (mem_valuesFor.mp hv) (mem_valuesFor.mp hv') rfl)

/-- The entries in any order, written to a map. -/
theorem foldl_update_entries {entries : List (κ × β)} (h : entries.Perm (writes.foldl putEntry []))
    (m : κ → Option β) (k : κ) :
    entries.foldl (fun (m : κ → Option β) kv => Function.update m kv.1 (some kv.2)) m k =
      (lastFor k writes).or (m k) := by
  have hmap : entries.foldl (fun (m : κ → Option β) kv => Function.update m kv.1 (some kv.2)) m =
      (entries.map fun kv => (kv.1, some kv.2)).foldl
        (fun m kv => Function.update m kv.1 kv.2) m := by
    rw [List.foldl_map]
  have hlast : lastFor k (entries.map fun kv => (kv.1, some kv.2)) =
      (lastFor k entries).map some := by
    rw [lastFor_eq_getLast?, lastFor_eq_getLast?, valuesFor, valuesFor, List.filter_map,
      List.map_map, ← List.getLast?_map, List.map_map]
    rfl
  rw [hmap, foldl_update, hlast,
    lastFor_perm h (valuesFor_agree (foldl_putEntry writes).1), (foldl_putEntry writes).2]
  cases lastFor k writes <;> rfl

end Higress.Lib
