import Mathlib
import Higress.Lib.Replaced
import Higress.Masking.Restorer

/-!
The restorer against its purpose (`MaskRestore` in `ai-data-masking/src/ai_data_masking.rs`): the
masks of a map, digests and others alike, are replaced together, the leftmost first and the longest
where several start. The restorer has two matchers with cursors of their own; what is shown here is
that they act as one matcher over all masks.

A slice of a string is taken only where no character is cut, and the program stops where one would
be. `restoreStr` is the restorer with that test at every slice.
-/

namespace Higress.Masking

open Lib

variable {build : (patterns : List Text) → Option (AhoCorasick patterns)} {maskMap : MaskMap}
  {r : MaskRestore} {message : Text}

/-- A mask of a map with the text it stands for. -/
def MaskMap.Stands (maskMap : MaskMap) (mask original : Text) : Prop :=
  ∃ kind, maskMap.lookup mask = some ⟨some original, kind⟩

/-- The masks of a map: digests are hexadecimal digits, no other mask is empty, and all of them are
strings. -/
structure MaskMap.Masks (maskMap : MaskMap) : Prop where
  digest : ∀ mask original, maskMap.lookup mask = some ⟨some original, .hash⟩ →
    mask.length = hashMaskBytes ∧ mask.all isHexByte = true
  general : ∀ mask original, maskMap.lookup mask = some ⟨some original, .general⟩ → mask ≠ []
  utf8 : ∀ mask original, maskMap.Stands mask original → Utf8.IsUtf8 mask

theorem MaskMap.Masks.ne_nil (h : maskMap.Masks) {mask original : Text}
    (hmask : maskMap.Stands mask original) : mask ≠ [] := by
  obtain ⟨kind, hlookup⟩ := hmask
  cases kind with
  | general => exact h.general mask original hlookup
  | hash =>
      rintro rfl
      exact absurd (h.digest [] original hlookup).1 (by decide)

/-! ### The mask at the head of a text -/

/-- No general mask at the head of a text is longer than what `generalHead` says. -/
theorem length_le_generalHead (hbuild : fromMap build maskMap = .ok (some r)) (hr : r.Wf)
    {s mask original : Text} (hmask : maskMap.lookup mask = some ⟨some original, .general⟩)
    (hstart : mask <+: s) : ∃ m, r.generalHead s = some m ∧ mask.length ≤ m.1 := by
  have hentry : (mask, original) ∈ entriesOf .general maskMap := mem_entriesOf.mpr hmask
  obtain ⟨g, hg⟩ : ∃ g, r.general = some g := by
    simp only [fromMap] at hbuild
    split at hbuild
    · simp at hbuild
    · split at hbuild
      · simp at hbuild
      · split at hbuild
        · simp at hbuild
        · split at hbuild
          · rename_i hnil
            rw [List.eq_nil_iff_forall_not_mem] at hnil
            exact absurd (List.mem_mergeSort.mpr hentry) (hnil _)
          · split at hbuild
            · simp at hbuild
            · obtain rfl := Option.some.inj (Except.ok.inj hbuild)
              exact ⟨_, rfl⟩
  have hpattern : mask ∈ g.patterns := by
    rw [((fromMap_eq_some hbuild).2 g hg).1]
    exact List.mem_map.mpr ⟨_, List.mem_mergeSort.mpr hentry, rfl⟩
  rcases hr.generalHead_cases hg s with ⟨-, hnone⟩ | ⟨k, p, o, hsome, hlongest⟩
  · exact absurd hstart (hnone mask hpattern)
  · exact ⟨_, hsome, hlongest.longest mask hpattern hstart⟩

/-- A digest of the map at the head of a text is found. -/
theorem hashHead_eq_some (hbuild : fromMap build maskMap = .ok (some r)) (hm : maskMap.Masks)
    {s mask original : Text} (hmask : maskMap.lookup mask = some ⟨some original, .hash⟩)
    (hstart : mask <+: s) : r.hashHead s = some (mask.length, original) := by
  obtain ⟨hlength, hhex⟩ := hm.digest mask original hmask
  have htake : s.take hashMaskBytes = mask := by
    rw [← hlength]
    exact (List.prefix_iff_eq_take.mp hstart).symm
  have hlookup : r.hashes.lookup mask = some original := by
    rw [(fromMap_eq_some hbuild).1, lookup_foldl_insert (nodup_entriesOf _ _)]
    exact Or.inl (mem_entriesOf.mpr hmask)
  have hle : hashMaskBytes ≤ s.length := hlength ▸ hstart.length_le
  rw [MaskRestore.hashHead, hashAt, htake, if_pos ⟨hle, hhex⟩, hlookup, hlength]
  rfl

/-- `head` compares a general mask and a digest by their lengths. -/
theorem MaskRestore.length_le_head {s : Text} {m : ℕ × Text}
    (h : r.generalHead s = some m ∨ r.hashHead s = some m) :
    ∃ n o, r.head s = some (n, o) ∧ m.1 ≤ n := by
  rw [MaskRestore.head]
  cases hg : r.generalHead s with
  | none =>
      rcases h with h | h
      · rw [hg] at h
        cases h
      · exact ⟨m.1, m.2, h, le_rfl⟩
  | some general =>
      cases hh : r.hashHead s with
      | none =>
          rcases h with h | h
          · obtain rfl := Option.some.inj (hg.symm.trans h)
            exact ⟨general.1, general.2, rfl, le_rfl⟩
          · rw [hh] at h
            cases h
      | some hash =>
          dsimp only
          have hle : m.1 ≤ max general.1 hash.1 := by
            rcases h with h | h
            · obtain rfl := Option.some.inj (hg.symm.trans h)
              exact le_max_left _ _
            · obtain rfl := Option.some.inj (hh.symm.trans h)
              exact le_max_right _ _
          split_ifs with hlonger
          · exact ⟨general.1, general.2, rfl, by omega⟩
          · exact ⟨hash.1, hash.2, rfl, by omega⟩

/-- Of all masks of the map, `head` finds the longest one at the head of a text. -/
theorem length_le_head (hbuild : fromMap build maskMap = .ok (some r)) (hm : maskMap.Masks)
    {s mask original : Text} (hmask : maskMap.Stands mask original) (hstart : mask <+: s) :
    ∃ n o, r.head s = some (n, o) ∧ mask.length ≤ n := by
  obtain ⟨kind, hlookup⟩ := hmask
  cases kind with
  | general =>
      obtain ⟨m, hhead, hle⟩ :=
        length_le_generalHead hbuild (wf_of_fromMap hbuild hm.general) hlookup hstart
      obtain ⟨n, o, hsome, hn⟩ := MaskRestore.length_le_head (Or.inl hhead)
      exact ⟨n, o, hsome, hle.trans hn⟩
  | hash =>
      exact MaskRestore.length_le_head (Or.inr (hashHead_eq_some hbuild hm hlookup hstart))

theorem MaskRestore.Wf.take_ne_nil (hr : r.Wf) {s o : Text} {n : ℕ} (h : r.head s = some (n, o)) :
    s.take n ≠ [] := by
  obtain ⟨hpos, hle⟩ := hr.head_bounds h
  apply List.ne_nil_of_length_pos
  rw [List.length_take]
  omega

/-- The restorer is one matcher over all masks of the map. -/
theorem replaced_unmask (hbuild : fromMap build maskMap = .ok (some r)) (hm : maskMap.Masks)
    (message : Text) : Replaced maskMap.Stands message (r.unmask message) := by
  have hr : r.Wf := wf_of_fromMap hbuild hm.general
  refine Matcher.replaced_replaceAll ?_ ?_ message
  · intro s a rest hmatch
    cases hhead : r.head s with
    | none => simp [MaskRestore.matcher, hhead] at hmatch
    | some m =>
        obtain ⟨n, o⟩ := m
        have hle := (hr.head_bounds hhead).2
        have hne := hr.take_ne_nil hhead
        obtain rfl : a = ⟨(s.take n, o), hne⟩ := by
          simp only [MaskRestore.matcher, hhead, dif_pos hne, Option.some.injEq,
            Prod.mk.injEq] at hmatch
          exact hmatch.1.symm
        refine ⟨lookup_of_head hbuild hr hhead, ?_⟩
        intro mask original hmask hstart
        obtain ⟨n', o', hhead', hlength⟩ := length_le_head hbuild hm hmask hstart
        obtain ⟨rfl, rfl⟩ : n = n' ∧ o = o' := by simpa using hhead.symm.trans hhead'
        change mask.length ≤ (s.take n).length
        rw [List.length_take, Nat.min_eq_left hle]
        exact hlength
  · intro s hmatch mask original hmask hstart
    obtain ⟨n, o, hhead, -⟩ := length_le_head hbuild hm hmask hstart
    have hne := hr.take_ne_nil hhead
    simp only [MaskRestore.matcher, hhead, dif_pos hne] at hmatch
    cases hmatch

/-! ### Slices -/

/-- `str::is_char_boundary`. -/
def isCharBoundary (s : Text) (i : ℕ) : Bool :=
  i == 0 || i == s.length || s[i]?.any fun b => !Json.isTail b

/-- `&s[i..j]`; `none` where it would stop the program. -/
def strSlice (s : Text) (i j : ℕ) : Option Text :=
  if i ≤ j ∧ j ≤ s.length ∧ isCharBoundary s i ∧ isCharBoundary s j then some (slice s i j) else none

namespace MaskRestore

/-- The loop of `restore`, as far as its slices can be taken. -/
def loopStr (r : MaskRestore) (message : Text) : ℕ → Loop → Option Loop
  | 0, l => some l
  | rounds + 1, l =>
      match l.nextGeneral, l.nextHash with
      | none, none => some l
      | general, hash =>
          match if useGeneral general hash then general else hash with
          | none => some l
          | some found =>
              match strSlice message l.lastEnd found.start with
              | none => none
              | some _ =>
                  if useGeneral general hash then
                    loopStr r message rounds (r.generalRound message l found)
                  else loopStr r message rounds (r.hashRound message l found)

/-- `restore`, as far as its slices can be taken. -/
def restoreStr (r : MaskRestore) (message : Text) : Option Text := do
  let next := nextHashMatch message r.hashes 0
  let l ← r.loopStr message (message.length + 1)
    ⟨[], 0, r.nextGeneralMatch message 0, next.1, next.2⟩
  if l.lastEnd = 0 then return message
  else
    let rest ← strSlice message l.lastEnd message.length
    return l.restored ++ rest

end MaskRestore

theorem isCharBoundary_of_starts {i : ℕ} (hi : i ≤ message.length)
    (h : Utf8.Starts (message.drop i)) : isCharBoundary message i = true := by
  rcases Nat.eq_or_lt_of_le hi with rfl | hlt
  · simp [isCharBoundary]
  · have hb : Json.isTail message[i] = false := by
      rw [List.drop_eq_getElem_cons hlt] at h
      exact h _ rfl
    simp [isCharBoundary, List.getElem?_eq_getElem hlt, hb]

/-- A string found in a string starts and ends between two characters. -/
theorem isCharBoundary_of_prefix (hmessage : Utf8.IsUtf8 message) {i n : ℕ}
    (hi : i + n ≤ message.length) (hn : 0 < n) (hpart : Utf8.IsUtf8 ((message.drop i).take n)) :
    isCharBoundary message i = true ∧ isCharBoundary message (i + n) = true := by
  have hstart : Utf8.Starts (message.drop i) := by
    have hhead : ((message.drop i).take n).head? = (message.drop i).head? := by
      rw [List.head?_take, if_neg (by omega)]
    have := hpart.starts
    rwa [Utf8.Starts, hhead] at this
  have hbefore : Utf8.IsUtf8 (message.take i) :=
    Utf8.isUtf8_of_append_right (by rwa [List.take_append_drop]) hstart
  have hfrom : Utf8.IsUtf8 (message.drop i) :=
    Utf8.isUtf8_of_append_left hbefore (by rwa [List.take_append_drop])
  have hbehind : Utf8.IsUtf8 ((message.drop i).drop n) :=
    Utf8.isUtf8_of_append_left hpart (by rwa [List.take_append_drop])
  rw [List.drop_drop] at hbehind
  exact ⟨isCharBoundary_of_starts (by omega) hstart,
    isCharBoundary_of_starts hi hbehind.starts⟩

namespace MaskRestore

/-- The masks that are found are strings. -/
def OnStrings (r : MaskRestore) : Prop :=
  ∀ s n o, r.head s = some (n, o) → Utf8.IsUtf8 (s.take n)

/-- The next mask starts and ends between two characters. -/
theorem Wf.isCharBoundary_next (hr : r.Wf) (hs : r.OnStrings) (hmessage : Utf8.IsUtf8 message)
    {i : ℕ} {found : Found} (h : Next (fun n => r.head (message.drop n)) i (some found)) :
    found.stop ≤ message.length ∧ isCharBoundary message found.start = true ∧
      isCharBoundary message found.stop = true := by
  obtain ⟨-, -, hlt, hhead⟩ := h
  obtain ⟨hpos, hle⟩ := hr.head_bounds hhead
  rw [List.length_drop] at hle
  have hends := isCharBoundary_of_prefix hmessage (by omega) hpos (hs _ _ _ hhead)
  rw [show found.start + (found.stop - found.start) = found.stop by omega] at hends
  exact ⟨by omega, hends⟩

/-- The match that a round of the loop takes. -/
def Loop.found (l : Loop) : Option Found :=
  if useGeneral l.nextGeneral l.nextHash then l.nextGeneral else l.nextHash

/-- A round of the loop that takes a match. -/
def round (r : MaskRestore) (message : Text) (l : Loop) (found : Found) : Loop :=
  if useGeneral l.nextGeneral l.nextHash then r.generalRound message l found
  else r.hashRound message l found

theorem Loop.found_of_none {l : Loop} (hgeneral : l.nextGeneral = none) (hhash : l.nextHash = none) :
    l.found = none := by
  simp [Loop.found, hgeneral, hhash]

theorem loop_succ (rounds : ℕ) (l : Loop) :
    r.loop message (rounds + 1) l =
      (match l.found with
      | none => l
      | some found => r.loop message rounds (r.round message l found)) := by
  rw [MaskRestore.loop]
  split
  · rename_i hgeneral hhash
    rw [Loop.found_of_none hgeneral hhash]
  · rw [Loop.found]
    cases if useGeneral l.nextGeneral l.nextHash then l.nextGeneral else l.nextHash with
    | none => rfl
    | some found =>
        simp only [MaskRestore.round]
        split <;> rfl

theorem loopStr_succ (rounds : ℕ) (l : Loop) :
    r.loopStr message (rounds + 1) l =
      (match l.found with
      | none => some l
      | some found =>
          (strSlice message l.lastEnd found.start).bind fun _ =>
            r.loopStr message rounds (r.round message l found)) := by
  rw [MaskRestore.loopStr]
  split
  · rename_i hgeneral hhash
    rw [Loop.found_of_none hgeneral hhash]
  · rw [Loop.found]
    cases if useGeneral l.nextGeneral l.nextHash then l.nextGeneral else l.nextHash with
    | none => rfl
    | some found =>
        simp only [MaskRestore.round]
        cases strSlice message l.lastEnd found.start with
        | none => rfl
        | some part =>
            dsimp only [Option.bind_some]
            split <;> rfl

theorem LoopInv.round (hr : r.Wf) {l : Loop} {found : Found} (h : LoopInv r message l)
    (hfound : l.found = some found) :
    LoopInv r message (r.round message l found) ∧
      (r.round message l found).lastEnd = found.stop := by
  have hnext := next_head h.general h.hash
  change Next _ _ l.found at hnext
  rw [hfound] at hnext
  rw [MaskRestore.round]
  rw [Loop.found] at hfound
  split at hfound
  · rename_i huse
    rw [if_pos huse]
    refine ⟨(h.generalRound hr hnext).1, ?_⟩
    rw [MaskRestore.generalRound]
    split <;> rfl
  · rename_i huse
    rw [if_neg huse]
    refine ⟨(h.hashRound hr hfound hnext).1, ?_⟩
    rw [MaskRestore.hashRound]
    split <;> rfl

/-- Every round of the loop goes on from the end of a mask, so that all slices can be taken. -/
theorem LoopInv.loopStr_eq (hr : r.Wf) (hs : r.OnStrings) (hmessage : Utf8.IsUtf8 message)
    {l : Loop} (h : LoopInv r message l) (hend : isCharBoundary message l.lastEnd = true)
    (rounds : ℕ) :
    r.loopStr message rounds l = some (r.loop message rounds l) ∧
      isCharBoundary message (r.loop message rounds l).lastEnd = true ∧
      (r.loop message rounds l).lastEnd ≤ message.length := by
  induction rounds generalizing l with
  | zero => exact ⟨rfl, hend, h.le⟩
  | succ rounds ih =>
      have hnext := next_head h.general h.hash
      change Next _ _ l.found at hnext
      rw [loopStr_succ, loop_succ]
      cases hfound : l.found with
      | none => exact ⟨rfl, hend, h.le⟩
      | some found =>
          rw [hfound] at hnext
          obtain ⟨hstop, hat, hbehind⟩ := hr.isCharBoundary_next hs hmessage hnext
          have hlt : found.start < found.stop := hnext.2.2.1
          have hslice : strSlice message l.lastEnd found.start =
              some (slice message l.lastEnd found.start) :=
            if_pos ⟨hnext.1, by omega, hend, hat⟩
          obtain ⟨hinv, hlast⟩ := h.round hr hfound
          rw [← hlast] at hbehind
          dsimp only
          rw [hslice, Option.bind_some]
          exact ih hinv hbehind

/-- All slices of `restore` can be taken. -/
theorem Wf.restoreStr_eq (hr : r.Wf) (hs : r.OnStrings) (hmessage : Utf8.IsUtf8 message) :
    r.restoreStr message = some (r.restore message) := by
  obtain ⟨hhash, hcursor⟩ := next_nextHashMatch message r.hashes 0
  have hinit : LoopInv r message ⟨[], 0, r.nextGeneralMatch message 0,
      (nextHashMatch message r.hashes 0).1, (nextHashMatch message r.hashes 0).2⟩ :=
    ⟨Nat.zero_le _, by simp, hr.next_nextGeneralMatch message 0, hhash, hcursor⟩
  obtain ⟨heq, hend, hle⟩ := hinit.loopStr_eq hr hs hmessage rfl (message.length + 1)
  rw [restoreStr, restore, heq]
  generalize r.loop message (message.length + 1) _ = l at hend hle
  have hslice : strSlice message l.lastEnd message.length =
      some (slice message l.lastEnd message.length) :=
    if_pos ⟨hle, le_rfl, hend, by simp [isCharBoundary]⟩
  have hrest : slice message l.lastEnd message.length = message.drop l.lastEnd :=
    List.take_of_length_le (by rw [List.length_drop])
  by_cases hzero : l.lastEnd = 0
  · simp [hzero]
  · simp [hzero, hslice, hrest]

end MaskRestore

/-- `restore` replaces the masks of a map together: the leftmost, at one place the longest, and
nothing that was put in. That determines the result, and all slices it is made of are taken between
two characters. -/
theorem restore_leftmost_longest
    (build : (patterns : List Text) → Option (AhoCorasick patterns)) (maskMap : MaskMap)
    (hmasks : maskMap.Masks) (r : MaskRestore) (hbuild : fromMap build maskMap = .ok (some r))
    (message : Text) (hmessage : Utf8.IsUtf8 message) :
    Replaced maskMap.Stands message (r.restore message) ∧
      (∀ t, Replaced maskMap.Stands message t → t = r.restore message) ∧
      r.restoreStr message = some (r.restore message) := by
  have hr : r.Wf := wf_of_fromMap hbuild hmasks.general
  have hreplaced : Replaced maskMap.Stands message (r.restore message) := by
    rw [hr.restore_eq]
    exact replaced_unmask hbuild hmasks message
  refine ⟨hreplaced, ?_, ?_⟩
  · intro t ht
    refine ht.unique ?_ (fun mask original => hmasks.ne_nil) hreplaced
    rintro mask o o' ⟨kind, hlookup⟩ ⟨kind', hlookup'⟩
    have hentry := Option.some.inj (hlookup.symm.trans hlookup')
    simpa using congrArg RestoreEntry.original hentry
  · refine hr.restoreStr_eq ?_ hmessage
    intro s n o hhead
    exact hmasks.utf8 _ o (lookup_of_head hbuild hr hhead)

/-! ### A map with masks of both kinds -/

def sampleDigestMask : Text := List.replicate 64 97

/-- The mask `é` stands for `ab`, and a digest for `x`. -/
def sampleMasks : MaskMap :=
  ((∅ : MaskMap).insert (bytes "é") ⟨some (bytes "ab"), .general⟩).insert sampleDigestMask
    ⟨some (bytes "x"), .hash⟩

theorem lookup_sampleMasks {mask : Text} {entry : RestoreEntry}
    (h : sampleMasks.lookup mask = some entry) :
    (mask = sampleDigestMask ∧ entry.kind = .hash) ∨ (mask = bytes "é" ∧ entry.kind = .general) := by
  rw [sampleMasks] at h
  by_cases hdigest : mask = sampleDigestMask
  · subst hdigest
    rw [AList.lookup_insert] at h
    obtain rfl := Option.some.inj h
    exact Or.inl ⟨rfl, rfl⟩
  · rw [AList.lookup_insert_ne hdigest] at h
    by_cases hgeneral : mask = bytes "é"
    · subst hgeneral
      rw [AList.lookup_insert] at h
      obtain rfl := Option.some.inj h
      exact Or.inr ⟨rfl, rfl⟩
    · rw [AList.lookup_insert_ne hgeneral] at h
      simp at h

theorem isUtf8_accented : Utf8.IsUtf8 (bytes "é") := by
  refine Utf8.isUtf8_iff.mpr ⟨[bytes "é"], by decide, ?_⟩
  intro c hc
  obtain rfl := List.mem_singleton.mp hc
  exact ⟨by decide, by decide⟩

theorem masks_sampleMasks : sampleMasks.Masks where
  digest mask original h := by
    rcases lookup_sampleMasks h with ⟨rfl, -⟩ | ⟨-, hkind⟩
    · exact ⟨by decide, by decide⟩
    · cases hkind
  general mask original h := by
    rcases lookup_sampleMasks h with ⟨-, hkind⟩ | ⟨rfl, -⟩
    · cases hkind
    · decide
  utf8 mask original h := by
    obtain ⟨kind, h⟩ := h
    rcases lookup_sampleMasks h with ⟨rfl, -⟩ | ⟨rfl, -⟩
    · exact isUtf8_of_hex (by decide)
    · exact isUtf8_accented

def sampleRestore : MaskRestore :=
  ⟨some ⟨[bytes "é"], .naive _, [bytes "ab"]⟩, (∅ : AList fun _ : Text => Text).insert
    sampleDigestMask (bytes "x")⟩

theorem fromMap_sampleMasks : fromMap naiveBuild sampleMasks = .ok (some sampleRestore) := by
  have hhash : entriesOf .hash sampleMasks = [(sampleDigestMask, bytes "x")] := by decide
  have hgeneral : entriesOf .general sampleMasks = [(bytes "é", bytes "ab")] := by decide
  have hlength : (bytes "é").length = 2 := by decide
  simp [fromMap, hhash, hgeneral, naiveBuild, sampleRestore, hlength, maxGeneralRestorePatterns,
    maxGeneralRestorePatternBytes]
  have hsorted : ((entriesOf .general sampleMasks).mergeSort textLe).map Prod.fst =
      [bytes "é"] := by
    rw [hgeneral]
    simp
  rw [hsorted]

theorem restore_leftmost_longest_sample :
    Replaced sampleMasks.Stands (bytes "éé") (sampleRestore.restore (bytes "éé")) ∧
      (∀ t, Replaced sampleMasks.Stands (bytes "éé") t → t = sampleRestore.restore (bytes "éé")) ∧
      sampleRestore.restoreStr (bytes "éé") = some (sampleRestore.restore (bytes "éé")) :=
  restore_leftmost_longest naiveBuild sampleMasks masks_sampleMasks sampleRestore
    fromMap_sampleMasks (bytes "éé") (isUtf8_accented.append isUtf8_accented)

end Higress.Masking
