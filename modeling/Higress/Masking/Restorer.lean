import Higress.Masking.RoundTrip
import Higress.Masking.Window

/-!
The restorer that is built from a restore map (`from_map` of
`ai-data-masking/src/ai_data_masking.rs`): what it finds is a mask of the map, and its patterns are
the masks that are no digests. The crate that searches for them is a parameter; a matcher that tries
every pattern at every place is one that behaves as documented.
-/

namespace Higress.Masking

open Lib

variable {r : MaskRestore}

/-- Digits are characters. -/
theorem isUtf8_of_hex {s : Text} (h : s.all isHexByte) : Utf8.IsUtf8 s := by
  rw [Utf8.isUtf8_iff]
  refine ⟨s.map fun b => [b], by rw [← List.flatMap_def, List.flatMap_singleton'], ?_⟩
  intro c hc
  obtain ⟨b, hb, rfl⟩ := List.mem_map.mp hc
  have hhex := List.all_eq_true.mp h b hb
  have hlt : b < 0x80 := by
    simp only [isHexByte, Bool.or_eq_true, Bool.and_eq_true, decide_eq_true_eq] at hhex
    rcases hhex with hhex | hhex
    · exact UInt8.lt_of_le_of_lt hhex.2 (by decide)
    · exact UInt8.lt_of_le_of_lt hhex.2 (by decide)
  exact ⟨by simp, by simp [Json.runeLen, hlt]⟩

theorem MaskRestore.Wf.generalHead_cases (hr : r.Wf) {g : GeneralRestore} (hg : r.general = some g) (s : Text) :
    (r.generalHead s = none ∧ ∀ q ∈ g.patterns, ¬ q <+: s) ∨
      ∃ k p o, r.generalHead s = some (p.length, o) ∧ LongestAt g s k p o := by
  rcases hr.nextGeneralMatch_cases hg s 0 with ⟨heq, hnone⟩ | ⟨j, k, p, o, heq, -, hbefore, h⟩
  · exact .inl ⟨by simp [generalHead, heq], hnone 0 le_rfl⟩
  · by_cases hj : j = 0
    · subst hj
      exact .inr ⟨k, p, o, hr.generalHead_eq_some hg h, h⟩
    · exact .inl ⟨by simp [generalHead, heq, hj], hbefore 0 le_rfl (by omega)⟩

/-- The parts of a restorer that is built. -/
theorem fromMap_eq_some {build : (patterns : List Text) → Option (AhoCorasick patterns)}
    {maskMap : MaskMap} (h : fromMap build maskMap = .ok (some r)) :
    r.hashes = (entriesOf .hash maskMap).foldl (fun m e => m.insert e.1 e.2) ∅ ∧
      ∀ g, r.general = some g →
        g.patterns = ((entriesOf .general maskMap).mergeSort textLe).map Prod.fst ∧
          g.replacements = ((entriesOf .general maskMap).mergeSort textLe).map Prod.snd := by
  simp only [fromMap] at h
  split at h
  · simp at h
  · split at h
    · simp at h
    · split at h
      · simp at h
      · split at h
        · obtain rfl := Option.some.inj (Except.ok.inj h)
          exact ⟨rfl, by simp⟩
        · split at h
          · simp at h
          · obtain rfl := Option.some.inj (Except.ok.inj h)
            exact ⟨rfl, fun g hg => Option.some.inj hg ▸ ⟨rfl, rfl⟩⟩

/-- A mask that the restorer finds is a recorded one. -/
theorem lookup_of_head {build : (patterns : List Text) → Option (AhoCorasick patterns)}
    {maskMap : MaskMap} (h : fromMap build maskMap = .ok (some r)) (hr : r.Wf)
    {s o : Text} {n : ℕ} (hhead : r.head s = some (n, o)) :
    ∃ kind, maskMap.lookup (s.take n) = some ⟨some o, kind⟩ := by
  obtain ⟨hhashes, hgeneral⟩ := fromMap_eq_some h
  have hfromGeneral : r.generalHead s = some (n, o) →
      ∃ kind, maskMap.lookup (s.take n) = some ⟨some o, kind⟩ := by
    intro heq
    cases hg : r.general with
    | none => simp [MaskRestore.generalHead, MaskRestore.nextGeneralMatch, hg] at heq
    | some g =>
        obtain ⟨hpatterns, hreplacements⟩ := hgeneral g hg
        rcases hr.generalHead_cases hg s with ⟨hnone, -⟩ | ⟨k, p, o', hsome, hlongest⟩
        · simp [heq] at hnone
        · obtain ⟨rfl, rfl⟩ : p.length = n ∧ o' = o := by simpa using hsome.symm.trans heq
          have hp := hlongest.pattern
          have ho := hlongest.replacement
          rw [hpatterns, List.getElem?_map, Option.map_eq_some_iff] at hp
          rw [hreplacements, List.getElem?_map, Option.map_eq_some_iff] at ho
          obtain ⟨e, he, rfl⟩ := hp
          obtain ⟨e', he', rfl⟩ := ho
          obtain rfl := Option.some.inj (he.symm.trans he')
          have hmem := List.mem_mergeSort.mp (List.mem_of_getElem? he)
          refine ⟨.general, ?_⟩
          rw [← List.prefix_iff_eq_take.mp hlongest.head]
          exact mem_entriesOf.mp hmem
  have hfromHash : r.hashHead s = some (n, o) →
      ∃ kind, maskMap.lookup (s.take n) = some ⟨some o, kind⟩ := by
    intro heq
    rw [MaskRestore.hashHead, Option.map_eq_some_iff] at heq
    obtain ⟨o', hat, hpair⟩ := heq
    obtain ⟨rfl, rfl⟩ := Prod.mk.inj hpair
    rw [hashAt] at hat
    split at hat
    · rw [hhashes, lookup_foldl_insert (nodup_entriesOf _ _)] at hat
      rcases hat with hmem | ⟨-, hempty⟩
      · exact ⟨.hash, mem_entriesOf.mp hmem⟩
      · simp at hempty
    · simp at hat
  rw [MaskRestore.head] at hhead
  cases hg : r.generalHead s with
  | none =>
      rw [hg] at hhead
      exact hfromHash hhead
  | some general =>
      cases hh : r.hashHead s with
      | none =>
          rw [hg, hh] at hhead
          exact hfromGeneral (hg.trans hhead)
      | some hash =>
          rw [hg, hh] at hhead
          simp only at hhead
          split at hhead
          · exact hfromGeneral (hg.trans hhead)
          · exact hfromHash (hh.trans hhead)

theorem wf_of_fromMap {build : (patterns : List Text) → Option (AhoCorasick patterns)}
    {maskMap : MaskMap} (h : fromMap build maskMap = .ok (some r))
    (hne : ∀ mask original, maskMap.lookup mask = some ⟨some original, .general⟩ → mask ≠ []) :
    r.Wf := by
  obtain ⟨-, hgeneral⟩ := fromMap_eq_some h
  refine ⟨fun g hg p hp => ?_, fun g hg => ?_, fun g hg => ?_⟩
  · rw [(hgeneral g hg).1] at hp
    obtain ⟨e, he, rfl⟩ := List.mem_map.mp hp
    exact hne _ _ (mem_entriesOf.mp (List.mem_mergeSort.mp he))
  · rw [(hgeneral g hg).1]
    exact ((List.mergeSort_perm _ _).map Prod.fst).nodup_iff.mpr (nodup_entriesOf _ _)
  · rw [(hgeneral g hg).1, (hgeneral g hg).2, List.length_map, List.length_map]

/-! ### A search at every place -/

/-- The longest of the patterns at the head of a text, with its number. -/
def longestPattern (s : Text) : List Text → Option (Text × ℕ)
  | [] => none
  | p :: ps =>
      match (longestPattern s ps).map fun found => (found.1, found.2 + 1) with
      | none => if p.isPrefixOf s then some (p, 0) else none
      | some found =>
          if p.isPrefixOf s ∧ found.1.length ≤ p.length then some (p, 0) else some found

theorem longestPattern_eq_none {s : Text} {ps : List Text} (h : longestPattern s ps = none) :
    ∀ q ∈ ps, ¬ q <+: s := by
  induction ps with
  | nil => simp
  | cons p ps ih =>
      rw [longestPattern] at h
      split at h
      · rename_i hrest
        split at h
        · simp at h
        · rename_i hhead
          intro q hq
          rcases List.mem_cons.mp hq with rfl | hq
          · rwa [List.isPrefixOf_iff_prefix] at hhead
          · exact ih (Option.map_eq_none_iff.mp hrest) q hq
      · split at h <;> simp at h

theorem longestPattern_eq_some {s : Text} {ps : List Text} {found : Text × ℕ}
    (h : longestPattern s ps = some found) :
    ps[found.2]? = some found.1 ∧ found.1 <+: s ∧
      ∀ q ∈ ps, q <+: s → q.length ≤ found.1.length := by
  induction ps generalizing found with
  | nil => simp [longestPattern] at h
  | cons p ps ih =>
      rw [longestPattern] at h
      split at h
      · rename_i hrest
        have hnone := longestPattern_eq_none (Option.map_eq_none_iff.mp hrest)
        split at h
        · rename_i hhead
          obtain rfl := Option.some.inj h
          refine ⟨rfl, List.isPrefixOf_iff_prefix.mp hhead, fun q hq hqs => ?_⟩
          rcases List.mem_cons.mp hq with rfl | hq
          · exact Nat.le_refl _
          · exact absurd hqs (hnone q hq)
        · simp at h
      · rename_i other hrest
        obtain ⟨found', hfound', rfl⟩ := Option.map_eq_some_iff.mp hrest
        obtain ⟨hget, hprefix, hlongest⟩ := ih hfound'
        split at h
        · rename_i hhead
          obtain rfl := Option.some.inj h
          refine ⟨rfl, List.isPrefixOf_iff_prefix.mp hhead.1, fun q hq hqs => ?_⟩
          rcases List.mem_cons.mp hq with rfl | hq
          · exact Nat.le_refl _
          · exact (hlongest q hq hqs).trans hhead.2
        · rename_i hhead
          obtain rfl := Option.some.inj h
          refine ⟨hget, hprefix, fun q hq hqs => ?_⟩
          rcases List.mem_cons.mp hq with rfl | hq
          · rw [List.isPrefixOf_iff_prefix] at hhead
            simp only at hhead ⊢
            by_contra hlt
            exact hhead ⟨hqs, by omega⟩
          · exact hlongest q hq hqs

/-- The first place of a text where a pattern stands. -/
def firstPattern (ps : List Text) : Text → Option (ℕ × ℕ)
  | [] => (longestPattern [] ps).map fun found => (0, found.2)
  | b :: s =>
      match longestPattern (b :: s) ps with
      | some found => some (0, found.2)
      | none => (firstPattern ps s).map fun found => (found.1 + 1, found.2)

theorem firstPattern_eq_none {ps : List Text} {s : Text} (h : firstPattern ps s = none) (n : ℕ) :
    ∀ q ∈ ps, ¬ q <+: s.drop n := by
  induction s generalizing n with
  | nil =>
      rw [List.drop_nil]
      exact longestPattern_eq_none (Option.map_eq_none_iff.mp h)
  | cons b s ih =>
      rw [firstPattern] at h
      split at h
      · simp at h
      · rename_i hnone
        cases n with
        | zero => exact longestPattern_eq_none hnone
        | succ n => exact ih (Option.map_eq_none_iff.mp h) n

theorem firstPattern_eq_some {ps : List Text} {s : Text} {found : ℕ × ℕ}
    (h : firstPattern ps s = some found) :
    (∀ n, n < found.1 → ∀ q ∈ ps, ¬ q <+: s.drop n) ∧
      ∃ p, ps[found.2]? = some p ∧ p <+: s.drop found.1 ∧
        ∀ q ∈ ps, q <+: s.drop found.1 → q.length ≤ p.length := by
  induction s generalizing found with
  | nil =>
      obtain ⟨longest, hlongest, rfl⟩ := Option.map_eq_some_iff.mp h
      exact ⟨by simp, longest.1, longestPattern_eq_some hlongest⟩
  | cons b s ih =>
      rw [firstPattern] at h
      split at h
      · rename_i longest hlongest
        obtain rfl := Option.some.inj h
        exact ⟨by simp, longest.1, longestPattern_eq_some hlongest⟩
      · rename_i hnone
        obtain ⟨found', hfound', rfl⟩ := Option.map_eq_some_iff.mp h
        obtain ⟨hbefore, hat⟩ := ih hfound'
        refine ⟨fun n hn => ?_, hat⟩
        cases n with
        | zero => exact longestPattern_eq_none hnone
        | succ n => exact hbefore n (by simpa using hn)

/-- A matcher that tries every pattern at every place. -/
def AhoCorasick.naive (patterns : List Text) : AhoCorasick patterns where
  find text i := (firstPattern patterns (text.drop i)).map fun found => (i + found.1, found.2)
  found := by
    intro text i j k h
    obtain ⟨found, hfound, hpair⟩ := Option.map_eq_some_iff.mp h
    obtain ⟨rfl, rfl⟩ := Prod.mk.inj hpair
    obtain ⟨hbefore, p, hp, hhead, hlongest⟩ := firstPattern_eq_some hfound
    rw [List.drop_drop] at hhead hlongest
    refine ⟨Nat.le_add_right _ _, fun n hn hlt q hq => ?_, p, hp, hhead, hlongest⟩
    have hmiss := hbefore (n - i) (by omega) q hq
    rwa [List.drop_drop, Nat.add_sub_cancel' hn] at hmiss
  missing := by
    intro text i h n hn q hq
    have hmiss := firstPattern_eq_none (Option.map_eq_none_iff.mp h) (n - i) q hq
    rwa [List.drop_drop, Nat.add_sub_cancel' hn] at hmiss

def naiveBuild (patterns : List Text) : Option (AhoCorasick patterns) := some (.naive patterns)

end Higress.Masking
