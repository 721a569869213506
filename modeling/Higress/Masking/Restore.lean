import Mathlib
import Higress.Lib.Scan
import Higress.Lib.Text

/-!
The masking of requests and the restoring of responses in the data masking plugin
(`ai-data-masking/src/ai_data_masking.rs`). Rules replace what their expressions
match by masks, a map records which text each mask stands for, and the restorer
puts the texts back in one pass.

Texts are lists of bytes. The expressions of `fancy_regex`, the digest of
`hmac_sha256` and the matcher of `aho_corasick` are parameters.
-/

namespace Higress.Masking

open Lib

abbrev Text := List UInt8

/-- One item of `captures_iter`: the span of the whole match, and what `expand`
makes of the replacement value of the rule. -/
structure Capture where
  start : ℕ
  stop : ℕ
  expanded : Text

/-- The matches of an iteration come one after another, in the text. -/
def Ordered (text : Text) : ℕ → List (Option Capture) → Prop
  | _, [] => True
  | i, none :: cs => Ordered text i cs
  | i, some c :: cs =>
      i ≤ c.start ∧ c.start ≤ c.stop ∧ c.stop ≤ text.length ∧ Ordered text c.stop cs

/-- A compiled expression. An item without a match is an error of the engine. -/
structure Regex where
  capturesIter : Text → List (Option Capture)
  ordered : ∀ text, Ordered text 0 (capturesIter text)

/-- `Type`. -/
inductive RuleType
  | replace
  | hash
  deriving DecidableEq

/-- `Rule`; the replacement value is in the items of the expression. -/
structure Rule where
  regex : Regex
  type : RuleType
  restore : Bool

inductive RestoreKind
  | hash
  | general
  deriving DecidableEq

/-- `RestoreEntry`. -/
structure RestoreEntry where
  original : Option Text
  kind : RestoreKind
  deriving DecidableEq

abbrev MaskMap := AList fun _ : Text => RestoreEntry

/-- A lower case hexadecimal digit. -/
def isHexByte (b : UInt8) : Bool := (48 ≤ b && b ≤ 57) || (97 ≤ b && b ≤ 102)

def hashMaskBytes : ℕ := 64

/-- `hmac_sha256::Hash::hash`, written in lower case hexadecimal digits. -/
structure Digest where
  hash : Text → Text
  length_hash : ∀ s, (hash s).length = hashMaskBytes
  hex_hash : ∀ s, (hash s).all isHexByte

/-! ### Masking -/

/-- `record_restore_mapping`. -/
def recordRestoreMapping (maskMap : MaskMap) (masked original : Text) (kind : RestoreKind) :
    MaskMap :=
  match maskMap.lookup masked with
  | none => maskMap.insert masked ⟨some original, kind⟩
  | some entry =>
      match entry.original with
      | some existing =>
          if existing = original then
            if kind = .hash then maskMap.insert masked { entry with kind := .hash } else maskMap
          else maskMap.insert masked { entry with original := none }
      | none => maskMap

/-- `str::chars().count()`: the bytes that do not continue a character. -/
def charCount (s : Text) : ℕ := s.countP fun b => !(0x80 ≤ b && b ≤ 0xBF)

/-- The fields of the plugin that masking changes. -/
structure MaskState where
  maskMap : MaskMap
  byteWindowSize : ℕ
  charWindowSize : ℕ

/-- The part of a text between two offsets. -/
def slice (s : Text) (i j : ℕ) : Text := (s.drop i).take (j - i)

/-- The mask of a match. -/
def maskOf (digest : Digest) (rule : Rule) (message : Text) (c : Capture) : Text :=
  match rule.type with
  | .hash => digest.hash (slice message c.start c.stop)
  | .replace => c.expanded

/-- What the loop of `replace_rule_message` records of a match. -/
def recordMatch (digest : Digest) (rule : Rule) (message : Text) (state : MaskState)
    (c : Capture) : MaskState :=
  let masked := maskOf digest rule message c
  let state :=
    if rule.type = .hash ∨ rule.restore then
      { state with
        byteWindowSize := max state.byteWindowSize masked.length
        charWindowSize := max state.charWindowSize (charCount masked) }
    else state
  if rule.restore ∧ masked ≠ [] then
    { state with
      maskMap := recordRestoreMapping state.maskMap masked (slice message c.start c.stop)
        (if rule.type = .hash then .hash else .general) }
  else state

/-- The loop of `replace_rule_message` behind `lastEnd`: the rest of the new
message and the number of matches. -/
def replaceFrom (digest : Digest) (rule : Rule) (message : Text) :
    ℕ → MaskState → List (Option Capture) → Option (Text × ℕ × MaskState)
  | lastEnd, state, [] => some (message.drop lastEnd, 0, state)
  | _, _, none :: _ => none
  | lastEnd, state, some c :: cs => do
      let (rest, count, state) ←
        replaceFrom digest rule message c.stop (recordMatch digest rule message state c) cs
      return (slice message lastEnd c.start ++ maskOf digest rule message c ++ rest, count + 1,
        state)

/-- `replace_rule_message`; `none` is an error of the expression. -/
def replaceRuleMessage (digest : Digest) (rule : Rule) (message : Text) (state : MaskState) :
    Option (Text × ℕ × MaskState) :=
  replaceFrom digest rule message 0 state (rule.regex.capturesIter message)

/-- The body of the loop of `replace_request_msg`: the message, the number of
matches, which is logged, and the fields of the plugin. -/
def replaceStep (digest : Digest) (acc : Text × ℕ × MaskState) (rule : Rule) :
    Option (Text × ℕ × MaskState) :=
  (replaceRuleMessage digest rule acc.1 acc.2.2).map fun new =>
    (new.1, acc.2.1 + new.2.1, new.2.2)

/-- `replace_request_msg`. -/
def replaceRequestMsg (digest : Digest) (rules : List Rule) (message : Text)
    (state : MaskState) : Option (Text × ℕ × MaskState) :=
  rules.foldlM (replaceStep digest) (message, 0, state)

/-! ### Restoring -/

/-- A matcher of the `aho_corasick` crate with leftmost-longest semantics: the
first place behind `from` where a pattern stands, and the longest one there. -/
structure AhoCorasick (patterns : List Text) where
  find : Text → ℕ → Option (ℕ × ℕ)
  found : ∀ {text i j k}, find text i = some (j, k) → i ≤ j ∧
    (∀ n, i ≤ n → n < j → ∀ q ∈ patterns, ¬ q <+: text.drop n) ∧
    ∃ p, patterns[k]? = some p ∧ p <+: text.drop j ∧
      ∀ q ∈ patterns, q <+: text.drop j → q.length ≤ p.length
  missing : ∀ {text i}, find text i = none → ∀ n, i ≤ n → ∀ q ∈ patterns, ¬ q <+: text.drop n

/-- `GeneralRestore`. -/
structure GeneralRestore where
  patterns : List Text
  matcher : AhoCorasick patterns
  replacements : List Text

/-- `MaskRestore`. -/
structure MaskRestore where
  general : Option GeneralRestore
  hashes : AList fun _ : Text => Text

/-- A match of the restorer. -/
structure Found where
  start : ℕ
  stop : ℕ
  replacement : Text

inductive RestoreBuildError
  | tooManyGeneralPatterns (count : ℕ)
  | generalPatternBytesExceeded (bytes : ℕ)
  | matcher

def maxGeneralRestorePatterns : ℕ := 1024

def maxGeneralRestorePatternBytes : ℕ := 65536

/-- The entries of one kind that are not withdrawn. -/
def entriesOf (kind : RestoreKind) (maskMap : MaskMap) : List (Text × Text) :=
  maskMap.entries.filterMap fun e =>
    if e.2.kind = kind then e.2.original.map fun original => (e.1, original) else none

/-- The order of Rust's strings. -/
def textLe (a b : Text × Text) : Bool := decide (a.1 ≤ b.1)

/-- `from_map`; `build` is the builder of the `aho_corasick` crate. -/
def fromMap (build : (patterns : List Text) → Option (AhoCorasick patterns)) (maskMap : MaskMap) :
    Except RestoreBuildError (Option MaskRestore) :=
  let hashes := (entriesOf .hash maskMap).foldl (fun m e => m.insert e.1 e.2) ∅
  let generalPairs := entriesOf .general maskMap
  let generalPatternBytes := (generalPairs.map fun e => e.1.length).sum
  if generalPairs.length > maxGeneralRestorePatterns then
    .error (.tooManyGeneralPatterns generalPairs.length)
  else if generalPatternBytes > maxGeneralRestorePatternBytes then
    .error (.generalPatternBytesExceeded generalPatternBytes)
  else if hashes.entries = [] ∧ generalPairs = [] then .ok none
  else
    let generalPairs := generalPairs.mergeSort textLe
    if generalPairs = [] then .ok (some ⟨none, hashes⟩)
    else match build (generalPairs.map Prod.fst) with
      | none => .error .matcher
      | some matcher => .ok (some ⟨some ⟨_, matcher, generalPairs.map Prod.snd⟩, hashes⟩)

/-- The test of `next_hash_match` at the head of a text. -/
def hashAt (hashes : AList fun _ : Text => Text) (s : Text) : Option Text :=
  if hashMaskBytes ≤ s.length ∧ (s.take hashMaskBytes).all isHexByte then
    hashes.lookup (s.take hashMaskBytes)
  else none

/-- `next_hash_match`, with the new cursor. -/
def nextHashMatch (message : Text) (hashes : AList fun _ : Text => Text) (cursor : ℕ) :
    Option Found × ℕ :=
  if cursor + hashMaskBytes ≤ message.length then
    match hashAt hashes (message.drop cursor) with
    | some original =>
        (some ⟨cursor, cursor + hashMaskBytes, original⟩, cursor + hashMaskBytes)
    | none => nextHashMatch message hashes (cursor + 1)
  else (none, cursor)
termination_by message.length - cursor
decreasing_by
  simp only [hashMaskBytes] at *
  omega

namespace MaskRestore

/-- `next_general_match`, with the replacement that `restore` looks up. -/
def nextGeneralMatch (r : MaskRestore) (message : Text) (start : ℕ) : Option Found := do
  let general ← r.general
  let (i, k) ← general.matcher.find message start
  let pattern ← general.patterns[k]?
  let replacement ← general.replacements[k]?
  return ⟨i, i + pattern.length, replacement⟩

/-- The test `use_general`. -/
def useGeneral : Option Found → Option Found → Bool
  | some general, some hash =>
      general.start < hash.start ||
        (general.start == hash.start && general.stop - general.start ≥ hash.stop - hash.start)
  | some _, none => true
  | none, _ => false

/-- The variables of the loop of `restore`. -/
structure Loop where
  restored : Text
  lastEnd : ℕ
  nextGeneral : Option Found
  nextHash : Option Found
  hashCursor : ℕ

/-- A round of the loop of `restore` with a general match. -/
def generalRound (r : MaskRestore) (message : Text) (l : Loop) (found : Found) : Loop :=
  let l := { l with
    restored := l.restored ++ slice message l.lastEnd found.start ++ found.replacement
    lastEnd := found.stop
    nextGeneral := r.nextGeneralMatch message found.stop }
  if l.nextHash.any fun hash => hash.start < l.lastEnd then
    let next := nextHashMatch message r.hashes l.lastEnd
    { l with nextHash := next.1, hashCursor := next.2 }
  else l

/-- A round of the loop of `restore` with a digest. -/
def hashRound (r : MaskRestore) (message : Text) (l : Loop) (found : Found) : Loop :=
  let next := nextHashMatch message r.hashes l.hashCursor
  let l := { l with
    restored := l.restored ++ slice message l.lastEnd found.start ++ found.replacement
    lastEnd := found.stop
    nextHash := next.1
    hashCursor := next.2 }
  if l.nextGeneral.any fun general => general.start < l.lastEnd then
    { l with nextGeneral := r.nextGeneralMatch message l.lastEnd }
  else l

/-- The loop of `restore`. Every round goes on behind a match, so that there are
at most as many rounds as the message has bytes; the first argument counts them. -/
def loop (r : MaskRestore) (message : Text) : ℕ → Loop → Loop
  | 0, l => l
  | rounds + 1, l =>
      match l.nextGeneral, l.nextHash with
      | none, none => l
      | general, hash =>
          match if useGeneral general hash then general else hash with
          | none => l
          | some found =>
              if useGeneral general hash then loop r message rounds (r.generalRound message l found)
              else loop r message rounds (r.hashRound message l found)

/-- `restore`. -/
def restore (r : MaskRestore) (message : Text) : Text :=
  let next := nextHashMatch message r.hashes 0
  let l := r.loop message (message.length + 1)
    ⟨[], 0, r.nextGeneralMatch message 0, next.1, next.2⟩
  if l.lastEnd = 0 then message else l.restored ++ message.drop l.lastEnd

/-! ### The restorer as a scan

At every place the longest mask that stands there counts; a general mask wins
against a digest of its length. -/

/-- The general mask at the head of a text: its length and what it stands for. -/
def generalHead (r : MaskRestore) (s : Text) : Option (ℕ × Text) :=
  match r.nextGeneralMatch s 0 with
  | some found => if found.start = 0 then some (found.stop, found.replacement) else none
  | none => none

/-- The digest at the head of a text. -/
def hashHead (r : MaskRestore) (s : Text) : Option (ℕ × Text) :=
  (hashAt r.hashes s).map fun original => (hashMaskBytes, original)

/-- The mask at the head of a text. -/
def head (r : MaskRestore) (s : Text) : Option (ℕ × Text) :=
  match r.generalHead s, r.hashHead s with
  | some general, some hash => if general.1 ≥ hash.1 then some general else some hash
  | some general, none => some general
  | none, hash => hash

/-- The restorer as a pattern: a mask with the text it stands for. -/
def matcher (r : MaskRestore) : Matcher UInt8 { e : Text × Text // e.1 ≠ [] } where
  matchAt s :=
    match r.head s with
    | none => none
    | some (n, original) =>
        if h : s.take n ≠ [] then some (⟨(s.take n, original), h⟩, s.drop (s.take n).length)
        else none
  text e := e.1.1
  text_ne_nil e := e.2
  matchAt_eq := by
    intro s e rest h
    cases hhead : r.head s with
    | none => simp [hhead] at h
    | some m =>
        rw [hhead] at h
        simp only at h
        split at h
        · simp only [Option.some.injEq, Prod.mk.injEq] at h
          obtain ⟨rfl, rfl⟩ := h
          simp only [List.length_take]
          rcases Nat.le_total m.1 s.length with hle | hle
          · rw [Nat.min_eq_left hle, List.take_append_drop]
          · rw [Nat.min_eq_right hle, List.drop_length, List.append_nil,
              List.take_of_length_le hle]
        · simp at h

/-- All masks of a text replaced. -/
def unmask (r : MaskRestore) (s : Text) : Text := r.matcher.replaceAll (fun e => e.1.2) s

/-- The patterns of a restorer are not empty and differ, and each has its
replacement. -/
structure Wf (r : MaskRestore) : Prop where
  ne_nil : ∀ g, r.general = some g → ∀ p ∈ g.patterns, p ≠ []
  nodup : ∀ g, r.general = some g → g.patterns.Nodup
  length_eq : ∀ g, r.general = some g → g.replacements.length = g.patterns.length

/-- `found` is the first place from `i` on where `at` finds a mask. -/
def Next (at_ : ℕ → Option (ℕ × Text)) (i : ℕ) : Option Found → Prop
  | none => ∀ n, i ≤ n → at_ n = none
  | some found => i ≤ found.start ∧ (∀ n, i ≤ n → n < found.start → at_ n = none) ∧
      found.start < found.stop ∧ at_ found.start = some (found.stop - found.start, found.replacement)

variable {r : MaskRestore} {message : Text}

/-- A match stays the next one until its start is passed. -/
theorem Next.mono {at_ : ℕ → Option (ℕ × Text)} {i j : ℕ} {found : Option Found}
    (h : Next at_ i found) (hij : i ≤ j) (hj : ∀ f ∈ found, j ≤ f.start) : Next at_ j found := by
  cases found with
  | none => exact fun n hn => h n (hij.trans hn)
  | some f => exact ⟨hj f rfl, fun n hn => h.2.1 n (hij.trans hn), h.2.2⟩

theorem hashAt_eq_none {hashes : AList fun _ : Text => Text} {s : Text}
    (h : s.length < hashMaskBytes) : hashAt hashes s = none := by
  rw [hashAt, if_neg]
  omega

theorem next_nextHashMatch (message : Text) (hashes : AList fun _ : Text => Text) (i : ℕ) :
    Next (fun n => (hashAt hashes (message.drop n)).map fun o => (hashMaskBytes, o)) i
        (nextHashMatch message hashes i).1 ∧
      ∀ f ∈ (nextHashMatch message hashes i).1, (nextHashMatch message hashes i).2 = f.stop := by
  fun_induction nextHashMatch message hashes i with
  | case1 cursor hle original hat =>
      refine ⟨⟨le_rfl, fun n h₁ h₂ => absurd h₁ (Nat.not_le.mpr h₂), ?_, ?_⟩, by simp⟩
      · simp [hashMaskBytes]
      · simp [hat]
  | case2 cursor hle hat ih =>
      refine ⟨?_, ih.2⟩
      cases hnext : (nextHashMatch message hashes (cursor + 1)).1 with
      | none =>
          rw [hnext] at ih
          intro n hn
          rcases Nat.eq_or_lt_of_le hn with rfl | hlt
          · simp [hat]
          · exact ih.1 n hlt
      | some f =>
          rw [hnext] at ih
          obtain ⟨hstart, hbetween, hpos, hf⟩ := ih.1
          refine ⟨by omega, fun n hn hlt => ?_, hpos, hf⟩
          rcases Nat.eq_or_lt_of_le hn with rfl | hlt'
          · simp [hat]
          · exact hbetween n hlt' hlt
  | case3 cursor hle =>
      refine ⟨fun n hn => ?_, by simp⟩
      have hpos : 0 < hashMaskBytes := by decide
      have : (message.drop n).length < hashMaskBytes := by
        rw [List.length_drop]
        omega
      simp [hashAt_eq_none this]

/-- The pattern `k` is the longest one at the head of a text. -/
structure LongestAt (g : GeneralRestore) (s : Text) (k : ℕ) (p original : Text) : Prop where
  pattern : g.patterns[k]? = some p
  replacement : g.replacements[k]? = some original
  head : p <+: s
  longest : ∀ q ∈ g.patterns, q <+: s → q.length ≤ p.length

theorem LongestAt.unique {g : GeneralRestore} {s p p' o o' : Text} {k k' : ℕ}
    (hnd : g.patterns.Nodup) (h : LongestAt g s k p o) (h' : LongestAt g s k' p' o') :
    p = p' ∧ o = o' := by
  have hle := h.longest p' (List.mem_of_getElem? h'.pattern) h'.head
  have hle' := h'.longest p (List.mem_of_getElem? h.pattern) h.head
  have hp : p = p' := (List.prefix_of_prefix_length_le h.head h'.head hle').eq_of_length (by omega)
  subst hp
  have hk : k = k' := by
    obtain ⟨hlt, hget⟩ := List.getElem?_eq_some_iff.mp h.pattern
    obtain ⟨hlt', hget'⟩ := List.getElem?_eq_some_iff.mp h'.pattern
    exact (hnd.getElem_inj_iff).mp (hget.trans hget'.symm)
  subst hk
  exact ⟨rfl, Option.some.inj (h.replacement.symm.trans h'.replacement)⟩

/-- What the search of the crate finds. -/
theorem Wf.nextGeneralMatch_cases (hr : r.Wf) {g : GeneralRestore} (hg : r.general = some g)
    (s : Text) (i : ℕ) :
    (r.nextGeneralMatch s i = none ∧ ∀ n, i ≤ n → ∀ q ∈ g.patterns, ¬ q <+: s.drop n) ∨
      ∃ j k p o, r.nextGeneralMatch s i = some ⟨j, j + p.length, o⟩ ∧ i ≤ j ∧
        (∀ n, i ≤ n → n < j → ∀ q ∈ g.patterns, ¬ q <+: s.drop n) ∧
        LongestAt g (s.drop j) k p o := by
  cases hfind : g.matcher.find s i with
  | none =>
      left
      exact ⟨by simp [nextGeneralMatch, hg, hfind], fun n hn => g.matcher.missing hfind n hn⟩
  | some jk =>
      obtain ⟨j, k⟩ := jk
      obtain ⟨hij, hbefore, p, hp, hhead, hlongest⟩ := g.matcher.found hfind
      have hlt : k < g.replacements.length := by
        rw [hr.length_eq g hg]
        exact (List.getElem?_eq_some_iff.mp hp).1
      right
      refine ⟨j, k, p, g.replacements[k], ?_, hij, hbefore,
        ⟨hp, List.getElem?_eq_getElem hlt, hhead, hlongest⟩⟩
      simp [nextGeneralMatch, hg, hfind, hp, List.getElem?_eq_getElem hlt]

theorem Wf.generalHead_eq_some (hr : r.Wf) {g : GeneralRestore} (hg : r.general = some g)
    {s p o : Text} {k : ℕ} (h : LongestAt g s k p o) : r.generalHead s = some (p.length, o) := by
  rw [generalHead]
  rcases hr.nextGeneralMatch_cases hg s 0 with ⟨-, hnone⟩ | ⟨j, k', p', o', heq, -, hbefore, h'⟩
  · exact absurd h.head (hnone 0 le_rfl p (List.mem_of_getElem? h.pattern))
  · obtain rfl : j = 0 := by
      by_contra hj
      exact hbefore 0 le_rfl (by omega) p (List.mem_of_getElem? h.pattern) h.head
    obtain ⟨rfl, rfl⟩ := LongestAt.unique (hr.nodup g hg) h h'
    simp [heq]

theorem Wf.generalHead_eq_none (hr : r.Wf) {g : GeneralRestore} (hg : r.general = some g)
    {s : Text} (h : ∀ q ∈ g.patterns, ¬ q <+: s) : r.generalHead s = none := by
  rw [generalHead]
  rcases hr.nextGeneralMatch_cases hg s 0 with ⟨heq, -⟩ | ⟨j, k, p, o, heq, -, -, h'⟩
  · simp [heq]
  · have hj : j ≠ 0 := by
      rintro rfl
      exact h p (List.mem_of_getElem? h'.pattern) h'.head
    simp [heq, hj]

theorem Wf.next_nextGeneralMatch (hr : r.Wf) (message : Text) (i : ℕ) :
    Next (fun n => r.generalHead (message.drop n)) i (r.nextGeneralMatch message i) := by
  cases hg : r.general with
  | none =>
      have hnone : ∀ s j, r.nextGeneralMatch s j = none := by simp [nextGeneralMatch, hg]
      rw [hnone]
      intro n _
      simp [generalHead, hnone]
  | some g =>
      rcases hr.nextGeneralMatch_cases hg message i with
        ⟨heq, hnone⟩ | ⟨j, k, p, o, heq, hij, hbefore, h⟩
      · rw [heq]
        exact fun n hn => hr.generalHead_eq_none hg (hnone n hn)
      · rw [heq]
        have hpos := List.length_pos_iff.mpr (hr.ne_nil g hg p (List.mem_of_getElem? h.pattern))
        refine ⟨hij, fun n hn hlt => hr.generalHead_eq_none hg (hbefore n hn hlt), by simpa, ?_⟩
        simpa using hr.generalHead_eq_some hg h

theorem Wf.head_bounds (hr : r.Wf) {s o : Text} {n : ℕ} (h : r.head s = some (n, o)) :
    0 < n ∧ n ≤ s.length := by
  have hgeneral : ∀ m ∈ r.generalHead s, 0 < m.1 ∧ m.1 ≤ s.length := by
    intro m hm
    cases hg : r.general with
    | none => simp [generalHead, nextGeneralMatch, hg] at hm
    | some g =>
        rcases hr.nextGeneralMatch_cases hg s 0 with ⟨heq, -⟩ | ⟨j, k, p, o, heq, -, -, h'⟩
        · simp [generalHead, heq] at hm
        · have hpos := List.length_pos_iff.mpr (hr.ne_nil g hg p (List.mem_of_getElem? h'.pattern))
          have hle := h'.head.length_le
          by_cases hj : j = 0
          · subst hj
            simp only [generalHead, heq, if_true, Option.mem_some_iff, Nat.zero_add] at hm
            subst hm
            exact ⟨hpos, by simpa using hle⟩
          · simp [generalHead, heq, hj] at hm
  have hhash : ∀ m ∈ r.hashHead s, 0 < m.1 ∧ m.1 ≤ s.length := by
    intro m hm
    simp only [hashHead, Option.mem_def, Option.map_eq_some_iff] at hm
    obtain ⟨o, ho, rfl⟩ := hm
    refine ⟨by simp [hashMaskBytes], ?_⟩
    by_contra hlt
    simp [hashAt_eq_none (Nat.not_le.mp hlt)] at ho
  rw [head] at h
  cases hg : r.generalHead s with
  | none =>
      rw [hg] at h
      exact hhash (n, o) h
  | some general =>
      cases hh : r.hashHead s with
      | none =>
          rw [hg, hh] at h
          exact hgeneral (n, o) (hg.trans h)
      | some hash =>
          rw [hg, hh] at h
          simp only at h
          split at h
          · exact hgeneral (n, o) (hg.trans h)
          · exact hhash (n, o) (hh.trans h)

theorem unmask_of_none {b : UInt8} {s : Text} (h : r.head (b :: s) = none) :
    r.unmask (b :: s) = b :: r.unmask s := by
  apply Matcher.replaceAll_of_none
  simp [matcher, h]

theorem Wf.unmask_of_some (hr : r.Wf) {s o : Text} {n : ℕ} (h : r.head s = some (n, o)) :
    r.unmask s = o ++ r.unmask (s.drop n) := by
  obtain ⟨hpos, hle⟩ := hr.head_bounds h
  have hne : s.take n ≠ [] := by
    intro hnil
    have hlen := congrArg List.length hnil
    rw [List.length_take, Nat.min_eq_left hle, List.length_nil] at hlen
    omega
  have hmatch : r.matcher.matchAt s = some (⟨(s.take n, o), hne⟩, s.drop n) := by
    simp only [matcher, h]
    rw [dif_pos hne, List.length_take, Nat.min_eq_left hle]
  exact Matcher.replaceAll_of_match hmatch

/-- Bytes at which no mask starts are kept. -/
theorem unmask_drop {i j : ℕ} (hij : i ≤ j) (hj : j ≤ message.length)
    (h : ∀ n, i ≤ n → n < j → r.head (message.drop n) = none) :
    r.unmask (message.drop i) = slice message i j ++ r.unmask (message.drop j) := by
  induction hd : j - i generalizing i with
  | zero =>
      obtain rfl : i = j := by omega
      simp [slice]
  | succ d ih =>
      have hlt : i < message.length := by omega
      have hnone := h i le_rfl (by omega)
      rw [List.drop_eq_getElem_cons hlt] at hnone
      rw [List.drop_eq_getElem_cons hlt, unmask_of_none hnone,
        ih (by omega) (fun n hn => h n (by omega)) (by omega)]
      simp only [slice]
      rw [List.drop_eq_getElem_cons hlt, show j - i = j - (i + 1) + 1 by omega,
        List.take_succ_cons, List.cons_append]

/-- The next mask in the message is taken. -/
theorem Wf.unmask_next (hr : r.Wf) {i : ℕ} {found : Found}
    (h : Next (fun n => r.head (message.drop n)) i (some found)) :
    found.stop ≤ message.length ∧
      r.unmask (message.drop i) =
        slice message i found.start ++ found.replacement ++ r.unmask (message.drop found.stop) := by
  obtain ⟨hi, hbefore, hpos, hhead⟩ := h
  obtain ⟨-, hle⟩ := hr.head_bounds hhead
  rw [List.length_drop] at hle
  refine ⟨by omega, ?_⟩
  rw [unmask_drop hi (by omega) hbefore, hr.unmask_of_some hhead, List.drop_drop,
    show found.start + (found.stop - found.start) = found.stop by omega, List.append_assoc]

/-! ### The loop -/

/-- The invariant of the loop of `restore`. -/
structure LoopInv (r : MaskRestore) (message : Text) (l : Loop) : Prop where
  le : l.lastEnd ≤ message.length
  unmask_eq : l.restored ++ r.unmask (message.drop l.lastEnd) = r.unmask message
  general : Next (fun n => r.generalHead (message.drop n)) l.lastEnd l.nextGeneral
  hash : Next (fun n => r.hashHead (message.drop n)) l.lastEnd l.nextHash
  cursor : ∀ f ∈ l.nextHash, l.hashCursor = f.stop

/-- The match that `use_general` chooses is the next one of both kinds. -/
theorem next_head {i : ℕ} {general hash : Option Found}
    (hgeneral : Next (fun n => r.generalHead (message.drop n)) i general)
    (hhash : Next (fun n => r.hashHead (message.drop n)) i hash) :
    Next (fun n => r.head (message.drop n)) i
      (if useGeneral general hash then general else hash) := by
  cases general with
  | none =>
      have hg : ∀ n, i ≤ n → r.head (message.drop n) = r.hashHead (message.drop n) := by
        intro n hn
        have hnone : r.generalHead (message.drop n) = none := hgeneral n hn
        simp only [head, hnone]
      cases hash with
      | none => exact fun n hn => (hg n hn).trans (hhash n hn)
      | some h =>
          obtain ⟨hi, hbefore, hpos, hat⟩ := hhash
          exact ⟨hi, fun n hn hlt => (hg n hn).trans (hbefore n hn hlt), hpos, (hg _ hi).trans hat⟩
  | some g =>
      obtain ⟨hi, hbefore, hpos, hat⟩ := hgeneral
      cases hash with
      | none =>
          refine ⟨hi, fun n hn hlt => ?_, hpos, ?_⟩
          · simp only [head, hbefore n hn hlt, hhash n hn]
          · simp only [head, hat, hhash _ hi]
      | some h =>
          obtain ⟨hi', hbefore', hpos', hat'⟩ := hhash
          simp only [useGeneral]
          rcases Nat.lt_trichotomy g.start h.start with hlt | heq | hgt
          · simp only [hlt, decide_true, Bool.true_or, if_true]
            refine ⟨hi, fun n hn hn' => ?_, hpos, ?_⟩
            · simp only [head, hbefore n hn hn', hbefore' n hn (by omega)]
            · simp only [head, hat, hbefore' _ hi hlt]
          · rw [← heq] at hat' hbefore'
            by_cases hlen : g.stop - g.start ≥ h.stop - h.start
            · simp only [heq, lt_self_iff_false, decide_false, Bool.false_or, beq_self_eq_true,
                Bool.true_and]
              rw [if_pos (by simpa [heq] using hlen)]
              refine ⟨hi, fun n hn hn' => ?_, hpos, ?_⟩
              · simp only [head, hbefore n hn hn', hbefore' n hn hn']
              · rw [← heq] at hlen
                simp only [head, hat, hat', if_pos hlen]
            · simp only [heq, lt_self_iff_false, decide_false, Bool.false_or, beq_self_eq_true,
                Bool.true_and]
              rw [if_neg (by simpa [heq] using hlen)]
              refine ⟨hi', fun n hn hn' => ?_, hpos', ?_⟩
              · rw [← heq] at hn'
                simp only [head, hbefore n hn hn', hbefore' n hn hn']
              · rw [← heq] at hlen ⊢
                simp only [head, hat, hat', if_neg hlen]
          · have hnot : ¬ (g.start < h.start) := by omega
            have hne : ¬ (g.start = h.start) := by omega
            simp only [hnot, hne, decide_false, Bool.false_or, beq_iff_eq, Bool.and_eq_true,
              false_and, if_false]
            refine ⟨hi', fun n hn hn' => ?_, hpos', ?_⟩
            · simp only [head, hbefore n hn (by omega), hbefore' n hn hn']
            · simp only [head, hbefore _ hi' hgt, hat']

theorem LoopInv.generalRound (hr : r.Wf) {l : Loop} {found : Found} (h : LoopInv r message l)
    (hfound : Next (fun n => r.head (message.drop n)) l.lastEnd (some found)) :
    LoopInv r message (r.generalRound message l found) ∧
      l.lastEnd < (r.generalRound message l found).lastEnd := by
  obtain ⟨hstop, heq⟩ := hr.unmask_next hfound
  have hlt : l.lastEnd < found.stop := lt_of_le_of_lt hfound.1 hfound.2.2.1
  have hrestored : l.restored ++ slice message l.lastEnd found.start ++ found.replacement ++
      r.unmask (message.drop found.stop) = r.unmask message := by
    rw [← h.unmask_eq, heq]
    simp
  have hgeneral := hr.next_nextGeneralMatch message found.stop
  simp only [MaskRestore.generalRound]
  split
  · obtain ⟨hhash, hcursor⟩ := next_nextHashMatch message r.hashes found.stop
    exact ⟨⟨hstop, hrestored, hgeneral, hhash, hcursor⟩, hlt⟩
  · rename_i hany
    have hstart : ∀ f ∈ l.nextHash, found.stop ≤ f.start := by
      intro f hf
      simp only [Option.any_eq_true, decide_eq_true_eq, not_exists, not_and, not_lt] at hany
      exact hany f hf
    exact ⟨⟨hstop, hrestored, hgeneral, h.hash.mono hlt.le hstart, h.cursor⟩, hlt⟩

theorem LoopInv.hashRound (hr : r.Wf) {l : Loop} {found : Found} (h : LoopInv r message l)
    (hhash : l.nextHash = some found)
    (hfound : Next (fun n => r.head (message.drop n)) l.lastEnd (some found)) :
    LoopInv r message (r.hashRound message l found) ∧
      l.lastEnd < (r.hashRound message l found).lastEnd := by
  obtain ⟨hstop, heq⟩ := hr.unmask_next hfound
  have hlt : l.lastEnd < found.stop := lt_of_le_of_lt hfound.1 hfound.2.2.1
  have hrestored : l.restored ++ slice message l.lastEnd found.start ++ found.replacement ++
      r.unmask (message.drop found.stop) = r.unmask message := by
    rw [← h.unmask_eq, heq]
    simp
  obtain ⟨hnext, hcursor⟩ := next_nextHashMatch message r.hashes l.hashCursor
  rw [h.cursor found hhash] at hnext hcursor
  have hcur : l.hashCursor = found.stop := h.cursor found hhash
  simp only [MaskRestore.hashRound, hcur]
  split
  · exact ⟨⟨hstop, hrestored, hr.next_nextGeneralMatch message found.stop, hnext, hcursor⟩, hlt⟩
  · rename_i hany
    have hstart : ∀ f ∈ l.nextGeneral, found.stop ≤ f.start := by
      intro f hf
      simp only [Option.any_eq_true, decide_eq_true_eq, not_exists, not_and, not_lt] at hany
      exact hany f hf
    exact ⟨⟨hstop, hrestored, h.general.mono hlt.le hstart, hnext, hcursor⟩, hlt⟩

/-- The loop ends with no match left: there are enough rounds. -/
theorem LoopInv.loop (hr : r.Wf) {l : Loop} (h : LoopInv r message l) {rounds : ℕ}
    (hrounds : message.length < rounds + l.lastEnd) :
    LoopInv r message (r.loop message rounds l) ∧
      (r.loop message rounds l).nextGeneral = none ∧ (r.loop message rounds l).nextHash = none := by
  induction rounds generalizing l with
  | zero =>
      have := h.le
      omega
  | succ rounds ih =>
      have hnext := next_head h.general h.hash
      rw [MaskRestore.loop]
      split
      · rename_i hgeneral hhash
        exact ⟨h, hgeneral, hhash⟩
      · rename_i hsome
        split
        · rename_i hnone
          exfalso
          cases hg : l.nextGeneral with
          | none =>
              rw [hg] at hnone
              simp only [useGeneral, Bool.false_eq_true, if_false] at hnone
              exact hsome hg hnone
          | some g =>
              cases hh : l.nextHash with
              | none => simp [hg, hh, useGeneral] at hnone
              | some f =>
                  rw [hg, hh] at hnone
                  split at hnone <;> simp at hnone
        · rename_i found hfound
          rw [hfound] at hnext
          by_cases huse : useGeneral l.nextGeneral l.nextHash
          · rw [if_pos huse]
            obtain ⟨hinv, hlt⟩ := h.generalRound hr hnext
            exact ih hinv (by omega)
          · rw [if_neg huse] at hfound ⊢
            obtain ⟨hinv, hlt⟩ := h.hashRound hr hfound hnext
            exact ih hinv (by omega)

/-- `restore` replaces the masks of the message in one pass from left to right. -/
theorem Wf.restore_eq (hr : r.Wf) (message : Text) : r.restore message = r.unmask message := by
  obtain ⟨hhash, hcursor⟩ := next_nextHashMatch message r.hashes 0
  have hinit : LoopInv r message ⟨[], 0, r.nextGeneralMatch message 0,
      (nextHashMatch message r.hashes 0).1, (nextHashMatch message r.hashes 0).2⟩ :=
    ⟨Nat.zero_le _, by simp, hr.next_nextGeneralMatch message 0, hhash, hcursor⟩
  obtain ⟨hinv, hgeneral, hhash⟩ := hinit.loop hr (by omega : message.length < message.length + 1 + 0)
  rw [restore]
  generalize r.loop message (message.length + 1) _ = l at hinv hgeneral hhash
  have hnone : ∀ n, l.lastEnd ≤ n → r.head (message.drop n) = none := by
    have hnext := next_head hinv.general hinv.hash
    rw [hgeneral, hhash] at hnext
    exact hnext
  have hrest : r.unmask (message.drop l.lastEnd) = message.drop l.lastEnd := by
    rw [unmask_drop hinv.le le_rfl (fun n hn _ => hnone n hn), List.drop_length, slice,
      List.take_of_length_le (by simp)]
    exact List.append_nil _
  have heq := hinv.unmask_eq
  rw [hrest] at heq
  by_cases hzero : l.lastEnd = 0
  · rw [hzero, List.drop_zero] at hrest
    simp only [hzero, if_true, hrest]
  · simp only [hzero, if_false, heq]

end MaskRestore

end Higress.Masking
