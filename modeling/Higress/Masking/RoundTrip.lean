import Higress.Lib.GoString
import Higress.Lib.Run
import Higress.Masking.Restore

/-!
Masking with digests and restoring. The masked message is followed as a list of
segments, bytes and digests with the texts they stand for. A rule that matches a
part of a digest breaks it up: its bytes are ordinary text from then on, and the
one pass of the restorer does not put them together again.
-/

namespace Higress.Masking

open Lib

/-- A part of a masked message. -/
inductive Segment
  | byte (b : UInt8)
  | mask (original : Text)
  deriving DecidableEq

namespace Segment

def isMask : Segment → Bool
  | byte _ => false
  | mask _ => true

/-- The segment in the masked message. -/
def masked (digest : Digest) : Segment → Text
  | byte b => [b]
  | mask original => digest.hash original

/-- The segment after restoring. -/
def plain : Segment → Text
  | byte b => [b]
  | mask original => original

end Segment

/-- The masked message. -/
def maskedText (digest : Digest) (segments : List Segment) : Text :=
  segments.flatMap (Segment.masked digest)

/-- The message with the digests restored. -/
def plainText (segments : List Segment) : Text := segments.flatMap Segment.plain

def bytesOf (s : Text) : List Segment := s.map .byte

/-- The segments before and behind an offset of the masked message, and whether a
digest is broken up there. -/
def cutAt (digest : Digest) : ℕ → List Segment → List Segment × List Segment × Bool
  | 0, segments => ([], segments, false)
  | _ + 1, [] => ([], [], false)
  | n + 1, .byte b :: segments =>
      let cut := cutAt digest n segments
      (.byte b :: cut.1, cut.2)
  | n + 1, .mask original :: segments =>
      if hashMaskBytes ≤ n + 1 then
        let cut := cutAt digest (n + 1 - hashMaskBytes) segments
        (.mask original :: cut.1, cut.2)
      else
        (bytesOf ((digest.hash original).take (n + 1)),
          bytesOf ((digest.hash original).drop (n + 1)) ++ segments, true)
termination_by _ segments => segments.length

/-- A rule on the segments behind `lastEnd`: the new segments, whether a match
overlaps a digest, and the matched texts. -/
def maskSegments (digest : Digest) : ℕ → List Segment → List Capture →
    List Segment × Bool × List Text
  | _, segments, [] => (segments, false, [])
  | lastEnd, segments, c :: cs =>
      let before := cutAt digest (c.start - lastEnd) segments
      let match_ := cutAt digest (c.stop - c.start) before.2.1
      let original := maskedText digest match_.1
      let rest := maskSegments digest c.stop match_.2.1 cs
      (before.1 ++ .mask original :: rest.1,
        before.2.2 || match_.2.2 || match_.1.any Segment.isMask || rest.2.1,
        original :: rest.2.2)

/-- A message on its way through the rules. -/
structure Masked where
  segments : List Segment
  /-- A match overlapped a digest that an earlier rule had put in. -/
  broken : Bool
  /-- The texts that were matched. -/
  originals : List Text
  deriving DecidableEq

/-- One rule; `none` is an error of its expression. -/
def maskRule (digest : Digest) (m : Masked) (rule : Rule) : Option Masked := do
  let captures ← (rule.regex.capturesIter (maskedText digest m.segments)).mapM id
  let new := maskSegments digest 0 m.segments captures
  return ⟨new.1, m.broken || new.2.1, m.originals ++ new.2.2⟩

/-- All rules. -/
def maskAll (digest : Digest) (rules : List Rule) (message : Text) : Option Masked :=
  rules.foldlM (maskRule digest) ⟨bytesOf message, false, []⟩

variable {digest : Digest} {segments : List Segment}

@[simp] theorem maskedText_cons (segment : Segment) (segments : List Segment) :
    maskedText digest (segment :: segments) =
      segment.masked digest ++ maskedText digest segments := rfl

@[simp] theorem maskedText_append (l r : List Segment) :
    maskedText digest (l ++ r) = maskedText digest l ++ maskedText digest r := by
  simp [maskedText]

@[simp] theorem maskedText_bytesOf (s : Text) : maskedText digest (bytesOf s) = s := by
  induction s with
  | nil => rfl
  | cons b s ih => simpa [maskedText, bytesOf, Segment.masked] using ih

@[simp] theorem plainText_bytesOf (s : Text) : plainText (bytesOf s) = s := by
  induction s with
  | nil => rfl
  | cons b s ih => simpa [plainText, bytesOf, Segment.plain] using ih

/-! ### Cutting -/

/-- A cut does not change the masked message. -/
theorem maskedText_cutAt {n : ℕ} (hn : n ≤ (maskedText digest segments).length) :
    maskedText digest (cutAt digest n segments).1 = (maskedText digest segments).take n ∧
      maskedText digest (cutAt digest n segments).2.1 = (maskedText digest segments).drop n := by
  fun_induction cutAt digest n segments with
  | case1 segments => simp [maskedText]
  | case2 n => simp [maskedText] at hn
  | case3 n b segments cut ih =>
      have hle : n ≤ (maskedText digest segments).length := by
        simpa [maskedText, Segment.masked] using hn
      obtain ⟨hl, hr⟩ := ih hle
      constructor
      · simpa [maskedText, Segment.masked] using hl
      · simpa [maskedText, Segment.masked] using hr
  | case4 n original segments hle cut ih =>
      have hlen := digest.length_hash original
      have hcons : maskedText digest (.mask original :: segments) =
          digest.hash original ++ maskedText digest segments := rfl
      rw [hcons, List.length_append, hlen] at hn
      obtain ⟨hl, hr⟩ := ih (by omega)
      rw [hcons]
      constructor
      · rw [List.take_append, hlen, List.take_of_length_le (by omega), ← hl]
        rfl
      · rw [List.drop_append, hlen, List.drop_of_length_le (by omega), List.nil_append, ← hr]
  | case5 n original segments hlt =>
      have hlen := digest.length_hash original
      have hcons : maskedText digest (.mask original :: segments) =
          digest.hash original ++ maskedText digest segments := rfl
      rw [hcons]
      constructor
      · rw [maskedText_bytesOf, List.take_append_of_le_length (by omega)]
      · rw [maskedText_append, maskedText_bytesOf, List.drop_append_of_le_length (by omega)]

/-- A text that comes from the segments by restoring some of the digests and
leaving the others, with the information whether some are left. -/
inductive Expands (digest : Digest) : List Segment → Text → Bool → Prop
  | nil : Expands digest [] [] false
  | byte {b segments s left} :
      Expands digest segments s left → Expands digest (.byte b :: segments) (b :: s) left
  | restored {original segments s left} : Expands digest segments s left →
      Expands digest (.mask original :: segments) (original ++ s) left
  | left {original segments s left} : Expands digest segments s left →
      Expands digest (.mask original :: segments) (digest.hash original ++ s) true

theorem expands_plainText (segments : List Segment) :
    Expands digest segments (plainText segments) false := by
  induction segments with
  | nil => exact .nil
  | cons segment segments ih =>
      cases segment with
      | byte b => exact .byte ih
      | mask original => exact .restored ih

theorem expands_maskedText (segments : List Segment) :
    Expands digest segments (maskedText digest segments) (segments.any Segment.isMask) := by
  induction segments with
  | nil => exact .nil
  | cons segment segments ih =>
      cases segment with
      | byte b => exact .byte ih
      | mask original => exact .left ih

theorem Expands.eq_plainText {s : Text} (h : Expands digest segments s false) :
    s = plainText segments := by
  generalize hleft : false = left at h
  induction h with
  | nil => rfl
  | byte _ ih => simp [plainText, Segment.plain, ih hleft]
  | restored _ ih => simp [plainText, Segment.plain, ih hleft]
  | left _ _ => simp at hleft

/-- A digest that is left stands in the text. -/
theorem Expands.exists_hash {s : Text} (h : Expands digest segments s true) :
    ∃ original, .mask original ∈ segments ∧ digest.hash original <:+: s := by
  generalize hleft : true = left at h
  induction h with
  | nil => simp at hleft
  | @byte b _ _ _ _ ih =>
      obtain ⟨original, hmem, hin⟩ := ih hleft
      exact ⟨original, List.mem_cons_of_mem _ hmem, hin.trans (List.suffix_cons b _).isInfix⟩
  | @restored o _ _ _ _ ih =>
      obtain ⟨original, hmem, hin⟩ := ih hleft
      exact ⟨original, List.mem_cons_of_mem _ hmem, hin.trans (List.suffix_append o _).isInfix⟩
  | @left o _ s _ _ _ => exact ⟨o, List.mem_cons_self, (List.prefix_append _ s).isInfix⟩

theorem expands_bytesOf {s t : Text} {left : Bool} (h : Expands digest (bytesOf s) t left) :
    t = s ∧ left = false := by
  induction s generalizing t with
  | nil =>
      cases h
      exact ⟨rfl, rfl⟩
  | cons b s ih =>
      cases h with
      | byte h =>
          obtain ⟨rfl, rfl⟩ := ih h
          exact ⟨rfl, rfl⟩

theorem Expands.of_bytesOf_append {s t : Text} {left : Bool}
    (h : Expands digest (bytesOf s ++ segments) t left) :
    ∃ t', t = s ++ t' ∧ Expands digest segments t' left := by
  induction s generalizing t with
  | nil => exact ⟨t, rfl, h⟩
  | cons b s ih =>
      cases h with
      | byte h =>
          obtain ⟨t', rfl, ht'⟩ := ih h
          exact ⟨t', rfl, ht'⟩

/-- Texts of the two sides of a cut make a text of the whole, in which a digest at
the cut is left. -/
theorem Expands.of_cutAt {n : ℕ} {s t : Text} {left left' : Bool}
    (hs : Expands digest (cutAt digest n segments).1 s left)
    (ht : Expands digest (cutAt digest n segments).2.1 t left') :
    Expands digest segments (s ++ t) (left || left' || (cutAt digest n segments).2.2) := by
  revert s left
  fun_induction cutAt digest n segments with
  | case1 segments =>
      intro s left hs
      cases hs
      simpa using ht
  | case2 n =>
      intro s left hs
      cases hs
      cases ht
      exact .nil
  | case3 n b segments cut ih =>
      intro s left hs
      cases hs with
      | byte hs => exact .byte (ih ht hs)
  | case4 n original segments hle cut ih =>
      intro s left hs
      cases hs with
      | restored hs =>
          rw [List.append_assoc]
          exact .restored (ih ht hs)
      | left hs =>
          rw [List.append_assoc, Bool.true_or, Bool.true_or]
          exact .left (ih ht hs)
  | case5 n original segments hlt =>
      intro s left hs
      obtain ⟨rfl, rfl⟩ := expands_bytesOf hs
      obtain ⟨t', rfl, ht'⟩ := Expands.of_bytesOf_append ht
      rw [← List.append_assoc, List.take_append_drop, Bool.or_true]
      exact .left ht'

/-- What a rule does to the restored text: digests that a match overlaps are left
in it. -/
theorem expands_maskSegments (lastEnd : ℕ) (segments : List Segment) (captures : List Capture) :
    Expands digest segments (plainText (maskSegments digest lastEnd segments captures).1)
      (maskSegments digest lastEnd segments captures).2.1 := by
  induction captures generalizing lastEnd segments with
  | nil => exact expands_plainText segments
  | cons c cs ih =>
      simp only [maskSegments]
      generalize hbefore : cutAt digest (c.start - lastEnd) segments = before
      generalize hmatch : cutAt digest (c.stop - c.start) before.2.1 = match_
      have hrest := ih c.stop match_.2.1
      generalize maskSegments digest c.stop match_.2.1 cs = rest at hrest ⊢
      have hinner : Expands digest before.2.1 (maskedText digest match_.1 ++ plainText rest.1)
          (match_.1.any Segment.isMask || rest.2.1 || match_.2.2) := by
        rw [← hmatch] at hrest ⊢
        exact Expands.of_cutAt (expands_maskedText _) hrest
      have houter : Expands digest segments
          (plainText before.1 ++ (maskedText digest match_.1 ++ plainText rest.1))
          (false || (match_.1.any Segment.isMask || rest.2.1 || match_.2.2) || before.2.2) := by
        rw [← hbefore] at hinner ⊢
        exact Expands.of_cutAt (expands_plainText _) hinner
      have hflag : (false || (match_.1.any Segment.isMask || rest.2.1 || match_.2.2) ||
          before.2.2) = (before.2.2 || match_.2.2 || match_.1.any Segment.isMask || rest.2.1) := by
        cases before.2.2 <;> cases match_.2.2 <;> cases rest.2.1 <;>
          cases match_.1.any Segment.isMask <;> rfl
      rw [hflag] at houter
      simpa [plainText, Segment.plain] using houter

/-! ### The rules -/

theorem cutAt_masks {n : ℕ} {original : Text} :
    (.mask original ∈ (cutAt digest n segments).1 ∨
      .mask original ∈ (cutAt digest n segments).2.1) → .mask original ∈ segments := by
  have hbytes : ∀ s : Text, .mask original ∉ bytesOf s := by simp [bytesOf]
  fun_induction cutAt digest n segments with
  | case1 segments => simp
  | case2 n => simp
  | case3 n b segments cut ih => simpa using ih
  | case4 n o segments hle cut ih =>
      rintro (h | h)
      · rcases List.mem_cons.mp h with h | h
        · rw [h]
          exact List.mem_cons_self
        · exact List.mem_cons_of_mem _ (ih (.inl h))
      · exact List.mem_cons_of_mem _ (ih (.inr h))
  | case5 n o segments hlt =>
      rintro (h | h)
      · exact absurd h (hbytes _)
      · exact List.mem_cons_of_mem _ ((List.mem_append.mp h).resolve_left (hbytes _))

/-- The digests after a rule are earlier ones or of its own matches. -/
theorem maskSegments_masks {lastEnd : ℕ} {captures : List Capture} {original : Text}
    (h : .mask original ∈ (maskSegments digest lastEnd segments captures).1) :
    .mask original ∈ segments ∨
      original ∈ (maskSegments digest lastEnd segments captures).2.2 := by
  induction captures generalizing lastEnd segments with
  | nil => exact .inl h
  | cons c cs ih =>
      simp only [maskSegments] at h ⊢
      rcases List.mem_append.mp h with h | h
      · exact .inl (cutAt_masks (.inl h))
      · rcases List.mem_cons.mp h with h | h
        · right
          injection h with h
          rw [h]
          exact List.mem_cons_self
        · rcases ih h with h | h
          · exact .inl (cutAt_masks (.inr (cutAt_masks (.inr h))))
          · exact .inr (List.mem_cons_of_mem _ h)

/-- What the hash rules record of the matched texts. -/
def recordAll (digest : Digest) (maskMap : MaskMap) (originals : List Text) : MaskMap :=
  originals.foldl (fun m o => recordRestoreMapping m (digest.hash o) o .hash) maskMap

/-- A rule of type hash with restore enabled. -/
def Rule.IsHash (rule : Rule) : Prop := rule.type = .hash ∧ rule.restore = true

theorem slice_eq_maskedText {message : Text} {i j k : ℕ} (hij : i ≤ j) (hjk : j ≤ k)
    (hk : k ≤ message.length) (hsegments : maskedText digest segments = message.drop i) :
    maskedText digest (cutAt digest (j - i) segments).1 = slice message i j ∧
      maskedText digest
        (cutAt digest (k - j) (cutAt digest (j - i) segments).2.1).1 = slice message j k ∧
      maskedText digest
        (cutAt digest (k - j) (cutAt digest (j - i) segments).2.1).2.1 = message.drop k := by
  have hle : j - i ≤ (maskedText digest segments).length := by
    rw [hsegments, List.length_drop]
    omega
  obtain ⟨hl, hr⟩ := maskedText_cutAt hle
  rw [hsegments] at hl hr
  rw [List.drop_drop, show i + (j - i) = j by omega] at hr
  have hle' : k - j ≤ (maskedText digest (cutAt digest (j - i) segments).2.1).length := by
    rw [hr, List.length_drop]
    omega
  obtain ⟨hl', hr'⟩ := maskedText_cutAt hle'
  rw [hr] at hl' hr'
  rw [List.drop_drop, show j + (k - j) = k by omega] at hr'
  exact ⟨hl, hl', hr'⟩

theorem maskMap_recordMatch {rule : Rule} (hrule : rule.IsHash) (message : Text)
    (state : MaskState) (c : Capture) :
    (recordMatch digest rule message state c).maskMap =
      recordRestoreMapping state.maskMap (digest.hash (slice message c.start c.stop))
        (slice message c.start c.stop) .hash := by
  have hne : digest.hash (slice message c.start c.stop) ≠ [] := by
    intro hnil
    have hlen := digest.length_hash (slice message c.start c.stop)
    rw [hnil] at hlen
    simp [hashMaskBytes] at hlen
  simp [recordMatch, maskOf, hrule.1, hrule.2, hne]

/-- A rule on the message is the rule on the segments. -/
theorem replaceFrom_eq {rule : Rule} (hrule : rule.IsHash) {message : Text} {lastEnd : ℕ}
    (captures : List Capture) (hordered : Ordered message lastEnd (captures.map some))
    (hsegments : maskedText digest segments = message.drop lastEnd) (state : MaskState) :
    ∃ state', replaceFrom digest rule message lastEnd state (captures.map some) =
        some (maskedText digest (maskSegments digest lastEnd segments captures).1,
          captures.length, state') ∧
      state'.maskMap = recordAll digest state.maskMap
        (maskSegments digest lastEnd segments captures).2.2 := by
  induction captures generalizing lastEnd segments state with
  | nil => exact ⟨state, by simp [replaceFrom, maskSegments, hsegments], rfl⟩
  | cons c cs ih =>
      obtain ⟨hstart, hstop, hlen, hcs⟩ := hordered
      obtain ⟨hbefore, hmatch, hrest⟩ := slice_eq_maskedText hstart hstop hlen hsegments
      obtain ⟨state', hreplace, hmap⟩ := ih hcs hrest (recordMatch digest rule message state c)
      refine ⟨state', ?_, ?_⟩
      · rw [List.map_cons, replaceFrom, hreplace]
        simp [maskSegments, maskOf, hrule.1, hbefore, hmatch, Segment.masked]
      · rw [hmap, maskMap_recordMatch hrule]
        simp only [maskSegments, recordAll, List.foldl_cons, hmatch]

theorem eq_map_of_mapM {l : List (Option Capture)} {captures : List Capture}
    (h : l.mapM id = some captures) : l = captures.map some := by
  induction l generalizing captures with
  | nil =>
      obtain rfl : [] = captures := by simpa using h
      rfl
  | cons c l ih =>
      rw [List.mapM_cons] at h
      obtain ⟨c', hc, hrest⟩ := Option.bind_eq_some_iff.mp h
      obtain ⟨cs, hcs, heq⟩ := Option.bind_eq_some_iff.mp hrest
      obtain rfl : c' :: cs = captures := by simpa using heq
      rw [ih hcs, show c = some c' from hc]
      rfl

/-- One rule on the message and on the segments. -/
theorem replaceRuleMessage_eq {rule : Rule} (hrule : rule.IsHash) {m m' : Masked}
    (h : maskRule digest m rule = some m') (state : MaskState) :
    ∃ count state', replaceRuleMessage digest rule (maskedText digest m.segments) state =
        some (maskedText digest m'.segments, count, state') ∧
      ∃ new, m'.originals = m.originals ++ new ∧
        state'.maskMap = recordAll digest state.maskMap new := by
  obtain ⟨captures, hcaptures, heq⟩ := Option.bind_eq_some_iff.mp h
  obtain rfl := Option.some.inj heq
  have hlist := eq_map_of_mapM hcaptures
  have hordered := rule.regex.ordered (maskedText digest m.segments)
  rw [hlist] at hordered
  have hsegments : maskedText digest m.segments = (maskedText digest m.segments).drop 0 := rfl
  obtain ⟨state', hreplace, hmap⟩ := replaceFrom_eq hrule captures hordered hsegments state
  exact ⟨captures.length, state', by rw [replaceRuleMessage, hlist, hreplace], _, rfl, hmap⟩

/-- The rules on a message on its way and on its segments. -/
theorem foldlM_replaceStep {rules : List Rule} (hrules : ∀ rule ∈ rules, rule.IsHash)
    {m₀ m : Masked} (count : ℕ) {state : MaskState}
    (hmap : state.maskMap = recordAll digest ∅ m₀.originals)
    (hrun : rules.foldlM (maskRule digest) m₀ = some m) :
    ∃ count' state', rules.foldlM (replaceStep digest)
        (maskedText digest m₀.segments, count, state) =
          some (maskedText digest m.segments, count', state') ∧
      state'.maskMap = recordAll digest ∅ m.originals := by
  induction rules generalizing m₀ count state with
  | nil =>
      obtain rfl : m₀ = m := by simpa using hrun
      exact ⟨count, state, rfl, hmap⟩
  | cons rule rules ih =>
      obtain ⟨m₁, hm₁, hrest⟩ := Option.bind_eq_some_iff.mp hrun
      obtain ⟨n, state₁, hreplace, new, horiginals, hnew⟩ :=
        replaceRuleMessage_eq (hrules rule List.mem_cons_self) hm₁ state
      have hmap₁ : state₁.maskMap = recordAll digest ∅ m₁.originals := by
        rw [hnew, hmap, horiginals, recordAll, recordAll, recordAll, List.foldl_append]
      obtain ⟨count', state', hrun', hmap'⟩ :=
        ih (fun r hr => hrules r (List.mem_cons_of_mem _ hr)) (count + n) hmap₁ hrest
      refine ⟨count', state', ?_, hmap'⟩
      rw [List.foldlM_cons, replaceStep, hreplace]
      exact hrun'

/-- All rules on the message and on the segments. -/
theorem replaceRequestMsg_eq {rules : List Rule} (hrules : ∀ rule ∈ rules, rule.IsHash)
    {message : Text} {m : Masked} (h : maskAll digest rules message = some m) :
    ∃ count state, replaceRequestMsg digest rules message ⟨∅, 0, 0⟩ =
        some (maskedText digest m.segments, count, state) ∧
      state.maskMap = recordAll digest ∅ m.originals := by
  have hrun := @foldlM_replaceStep digest rules hrules _ m 0 ⟨∅, 0, 0⟩ rfl h
  rwa [maskedText_bytesOf] at hrun

/-- What holds of a message on its way through the rules. -/
structure Masked.Inv (digest : Digest) (message : Text) (m : Masked) : Prop where
  masks : ∀ original, .mask original ∈ m.segments → original ∈ m.originals
  whole : m.broken = false → plainText m.segments = message
  broken : m.broken = true →
    ∃ original ∈ m.originals, digest.hash original <:+: plainText m.segments

theorem Masked.Inv.maskRule {message : Text} {rule : Rule} {m m' : Masked}
    (h : m.Inv digest message) (hrule : maskRule digest m rule = some m') :
    m'.Inv digest message := by
  obtain ⟨captures, -, heq⟩ := Option.bind_eq_some_iff.mp hrule
  obtain rfl := Option.some.inj heq
  have hexpands := @expands_maskSegments digest 0 m.segments captures
  refine ⟨fun original hmem => ?_, fun hwhole => ?_, fun hbroken => ?_⟩
  · rcases maskSegments_masks hmem with hold | hnew
    · exact List.mem_append_left _ (h.masks original hold)
    · exact List.mem_append_right _ hnew
  · simp only [Bool.or_eq_false_iff] at hwhole
    rw [hwhole.2] at hexpands
    rw [← h.whole hwhole.1]
    exact hexpands.eq_plainText
  · cases hnew : (maskSegments digest 0 m.segments captures).2.1 with
    | true =>
        rw [hnew] at hexpands
        obtain ⟨original, hmem, hin⟩ := hexpands.exists_hash
        exact ⟨original, List.mem_append_left _ (h.masks original hmem), hin⟩
    | false =>
        rw [hnew] at hexpands
        simp only [hnew, Bool.or_false] at hbroken
        obtain ⟨original, hmem, hin⟩ := h.broken hbroken
        rw [← hexpands.eq_plainText] at hin
        exact ⟨original, List.mem_append_left _ hmem, hin⟩

theorem Masked.Inv.maskAll {rules : List Rule} {message : Text} {m : Masked}
    (h : maskAll digest rules message = some m) : m.Inv digest message := by
  refine Run.of_foldlM_eq_some (P := Masked.Inv digest message)
    (fun rule _ m m' hm hrule => hm.maskRule hrule) ⟨?_, ?_, ?_⟩ h
  · simp [bytesOf]
  · simp
  · simp

/-! ### The recorded map -/

/-- No two of the texts have one digest. -/
def CollisionFree (digest : Digest) (originals : List Text) : Prop :=
  ∀ a ∈ originals, ∀ b ∈ originals, digest.hash a = digest.hash b → a = b

theorem lookup_recordAll {originals : List Text} (h : CollisionFree digest originals) {d : Text}
    {entry : RestoreEntry} :
    (recordAll digest ∅ originals).lookup d = some entry ↔
      ∃ o ∈ originals, digest.hash o = d ∧ entry = ⟨some o, .hash⟩ := by
  induction originals using List.reverseRecOn generalizing d entry with
  | nil => simp [recordAll]
  | append_singleton originals o ih =>
      have hold : CollisionFree digest originals := fun a ha b hb =>
        h a (List.mem_append_left _ ha) b (List.mem_append_left _ hb)
      have hstep : recordAll digest ∅ (originals ++ [o]) =
          (recordAll digest ∅ originals).insert (digest.hash o) ⟨some o, .hash⟩ := by
        have happend : recordAll digest ∅ (originals ++ [o]) =
            recordRestoreMapping (recordAll digest ∅ originals) (digest.hash o) o .hash := by
          rw [recordAll, List.foldl_append]
          rfl
        rw [happend, recordRestoreMapping]
        cases hlookup : (recordAll digest ∅ originals).lookup (digest.hash o) with
        | none => rfl
        | some e =>
            obtain ⟨o', ho', heq, rfl⟩ := (ih hold).mp hlookup
            obtain rfl : o' = o := h o' (List.mem_append_left _ ho') o (by simp) heq
            simp
      rw [hstep]
      by_cases hd : d = digest.hash o
      · subst hd
        rw [AList.lookup_insert]
        constructor
        · intro heq
          exact ⟨o, by simp, rfl, (Option.some.inj heq).symm⟩
        · rintro ⟨o', ho', heq, rfl⟩
          rw [h o' ho' o (by simp) heq]
      · rw [AList.lookup_insert_ne hd, ih hold]
        constructor
        · rintro ⟨o', ho', hrest⟩
          exact ⟨o', List.mem_append_left _ ho', hrest⟩
        · rintro ⟨o', ho', rfl, hentry⟩
          rcases List.mem_append.mp ho' with ho' | ho'
          · exact ⟨o', ho', rfl, hentry⟩
          · obtain rfl : o' = o := by simpa using ho'
            exact absurd rfl hd

theorem lookup_foldl_insert {l : List (Text × Text)} (hnd : (l.map Prod.fst).Nodup)
    (m : AList fun _ : Text => Text) {d v : Text} :
    (l.foldl (fun m e => m.insert e.1 e.2) m).lookup d = some v ↔
      (d, v) ∈ l ∨ d ∉ l.map Prod.fst ∧ m.lookup d = some v := by
  induction l generalizing m with
  | nil => simp
  | cons e l ih =>
      rw [List.map_cons, List.nodup_cons] at hnd
      rw [List.foldl_cons, ih hnd.2]
      by_cases hd : d = e.1
      · subst hd
        have hnot : (e.1, v) ∉ l := fun hmem => hnd.1 (List.mem_map.mpr ⟨_, hmem, rfl⟩)
        simp [hnot, hnd.1, AList.lookup_insert, Prod.ext_iff, eq_comm]
      · simp [hd, AList.lookup_insert_ne hd, Prod.ext_iff]

theorem mem_entriesOf {kind : RestoreKind} {maskMap : MaskMap} {d o : Text} :
    (d, o) ∈ entriesOf kind maskMap ↔ maskMap.lookup d = some ⟨some o, kind⟩ := by
  rw [entriesOf, List.mem_filterMap, ← Option.mem_def, AList.mem_lookup_iff]
  constructor
  · rintro ⟨⟨d', entry⟩, hmem, heq⟩
    simp only at heq
    split at heq
    · rename_i hkind
      obtain ⟨original, horiginal, hpair⟩ := Option.map_eq_some_iff.mp heq
      obtain ⟨rfl, rfl⟩ := Prod.mk.inj hpair
      obtain ⟨_, _⟩ := entry
      simp only at hkind horiginal
      subst hkind horiginal
      exact hmem
    · simp at heq
  · intro hmem
    exact ⟨_, hmem, by simp⟩

theorem nodup_entriesOf (kind : RestoreKind) (maskMap : MaskMap) :
    ((entriesOf kind maskMap).map Prod.fst).Nodup := by
  have hsub : ((entriesOf kind maskMap).map Prod.fst).Sublist maskMap.keys := by
    rw [entriesOf, AList.keys, List.keys]
    induction maskMap.entries with
    | nil => exact .slnil
    | cons e es ih =>
        rw [List.filterMap_cons, List.map_cons]
        split
        · exact ih.cons _
        · rename_i pair hpair
          split at hpair
          · obtain ⟨original, -, rfl⟩ := Option.map_eq_some_iff.mp hpair
            exact ih.cons_cons _
          · simp at hpair
  exact hsub.nodup maskMap.keys_nodup

/-- What `restore` makes of a message with the map that was recorded; without a
restorer the message stays as it is. -/
def restoreWith (build : (patterns : List Text) → Option (AhoCorasick patterns))
    (maskMap : MaskMap) (message : Text) : Option Text :=
  match fromMap build maskMap with
  | .ok (some r) => some (r.restore message)
  | .ok none => some message
  | .error _ => none

/-- No recorded digest can be read in the masked message from a byte on that is
not in a digest of a match. -/
def Unambiguous (digest : Digest) (originals : List Text) (segments : List Segment) : Prop :=
  ∀ before b behind, segments = before ++ .byte b :: behind →
    ∀ o ∈ originals, ¬ digest.hash o <+: maskedText digest (.byte b :: behind)

theorem Unambiguous.tail {originals : List Text} {segment : Segment}
    (h : Unambiguous digest originals (segment :: segments)) :
    Unambiguous digest originals segments := by
  intro before b behind heq
  exact h (segment :: before) b behind (by rw [heq]; rfl)

/-- The restorer that is built of the recorded digests. -/
theorem fromMap_recordAll {originals : List Text} (h : CollisionFree digest originals)
    (build : (patterns : List Text) → Option (AhoCorasick patterns)) :
    (originals = [] ∧ fromMap build (recordAll digest ∅ originals) = .ok none) ∨
      ∃ hashes, fromMap build (recordAll digest ∅ originals) = .ok (some ⟨none, hashes⟩) ∧
        ∀ d o, hashes.lookup d = some o ↔ o ∈ originals ∧ digest.hash o = d := by
  generalize hhashes : (entriesOf .hash (recordAll digest ∅ originals)).foldl
    (fun m e => m.insert e.1 e.2) (∅ : AList fun _ : Text => Text) = hashes
  have hlookup : ∀ d o, hashes.lookup d = some o ↔ o ∈ originals ∧ digest.hash o = d := by
    intro d o
    rw [← hhashes, lookup_foldl_insert (nodup_entriesOf _ _), mem_entriesOf, lookup_recordAll h]
    simp
  have hgeneral : entriesOf .general (recordAll digest ∅ originals) = [] := by
    rw [List.eq_nil_iff_forall_not_mem]
    rintro ⟨d, o⟩ hmem
    obtain ⟨o', -, -, heq⟩ := (lookup_recordAll h).mp (mem_entriesOf.mp hmem)
    simp at heq
  by_cases hnil : hashes.entries = []
  · left
    have hempty : originals = [] := by
      rw [List.eq_nil_iff_forall_not_mem]
      intro o ho
      have hsome := (hlookup (digest.hash o) o).mpr ⟨ho, rfl⟩
      rw [← Option.mem_def, AList.mem_lookup_iff, hnil] at hsome
      simp at hsome
    exact ⟨hempty, by simp [fromMap, hhashes, hgeneral, hnil]⟩
  · right
    exact ⟨hashes, by simp [fromMap, hhashes, hgeneral, hnil], hlookup⟩

/-- The one pass puts every digest back that is whole. -/
theorem unmask_maskedText {originals : List Text} {hashes : AList fun _ : Text => Text}
    (hlookup : ∀ d o, hashes.lookup d = some o ↔ o ∈ originals ∧ digest.hash o = d)
    (hmasks : ∀ o, .mask o ∈ segments → o ∈ originals)
    (hread : Unambiguous digest originals segments) :
    (MaskRestore.mk none hashes).unmask (maskedText digest segments) = plainText segments := by
  have hwf : (MaskRestore.mk none hashes).Wf := ⟨by simp, by simp, by simp⟩
  have hgeneral : ∀ s, (MaskRestore.mk none hashes).generalHead s = none := by
    intro s
    simp [MaskRestore.generalHead, MaskRestore.nextGeneralMatch]
  induction segments with
  | nil => rfl
  | cons segment segments ih =>
      have hrest := ih (fun o ho => hmasks o (List.mem_cons_of_mem _ ho)) hread.tail
      cases segment with
      | byte b =>
          have hnone : (MaskRestore.mk none hashes).head (b :: maskedText digest segments) = none := by
            rw [MaskRestore.head, hgeneral, MaskRestore.hashHead, Option.map_eq_none_iff, hashAt]
            split
            · cases hsome : hashes.lookup _ with
              | none => rfl
              | some o =>
                  obtain ⟨ho, heq⟩ := (hlookup _ o).mp hsome
                  refine absurd ?_ (hread [] b segments rfl o ho)
                  rw [heq]
                  exact List.take_prefix _ _
            · rfl
          exact (MaskRestore.unmask_of_none hnone).trans (congrArg (b :: ·) hrest)
      | mask o =>
          have ho := hmasks o List.mem_cons_self
          have hlen := digest.length_hash o
          have htake : (digest.hash o ++ maskedText digest segments).take hashMaskBytes =
              digest.hash o := by
            rw [← hlen, List.take_left']
            rfl
          have hsome : (MaskRestore.mk none hashes).head
              (digest.hash o ++ maskedText digest segments) = some (hashMaskBytes, o) := by
            rw [MaskRestore.head, hgeneral, MaskRestore.hashHead, hashAt, htake, if_pos,
              (hlookup _ o).mpr ⟨ho, rfl⟩]
            · rfl
            · rw [List.length_append, hlen]
              exact ⟨Nat.le_add_right _ _, digest.hex_hash o⟩
          have hdrop : (digest.hash o ++ maskedText digest segments).drop hashMaskBytes =
              maskedText digest segments := by
            rw [← hlen, List.drop_left']
            rfl
          rw [maskedText_cons, Segment.masked, hwf.unmask_of_some hsome, hdrop, hrest]
          rfl

theorem restoreWith_recordAll {originals : List Text} (h : CollisionFree digest originals)
    (build : (patterns : List Text) → Option (AhoCorasick patterns))
    (hmasks : ∀ o, .mask o ∈ segments → o ∈ originals)
    (hread : Unambiguous digest originals segments) :
    restoreWith build (recordAll digest ∅ originals) (maskedText digest segments) =
      some (plainText segments) := by
  rcases fromMap_recordAll h build with ⟨rfl, hmap⟩ | ⟨hashes, hmap, hlookup⟩
  · have hbytes : maskedText digest segments = plainText segments := by
      have hexpands := @expands_maskedText digest segments
      have hnone : segments.any Segment.isMask = false := by
        rw [List.any_eq_false]
        intro segment hsegment
        cases segment with
        | byte b => simp [Segment.isMask]
        | mask o => simpa using hmasks o hsegment
      rw [hnone] at hexpands
      exact hexpands.eq_plainText
    rw [restoreWith, hmap, hbytes]
  · have hwf : (MaskRestore.mk none hashes).Wf := ⟨by simp, by simp, by simp⟩
    rw [restoreWith, hmap]
    simp only [hwf.restore_eq, unmask_maskedText hlookup hmasks hread]

/-- Masking and restoring gives the message back. -/
def RoundTrips (digest : Digest)
    (build : (patterns : List Text) → Option (AhoCorasick patterns)) (rules : List Rule)
    (message : Text) : Prop :=
  ∃ masked count state,
    replaceRequestMsg digest rules message ⟨∅, 0, 0⟩ = some (masked, count, state) ∧
      restoreWith build state.maskMap masked = some message

/-- Rules of type hash with restore enabled, on a message without the digests of
its matches, where no recorded digest can be read across the edge of another one:
the message comes back if and only if no rule matches a part of a digest that an
earlier rule has put in. -/
theorem roundTrips_iff (digest : Digest)
    (build : (patterns : List Text) → Option (AhoCorasick patterns)) (rules : List Rule)
    (hrules : ∀ rule ∈ rules, rule.IsHash) (message : Text) (m : Masked)
    (hmask : maskAll digest rules message = some m)
    (hinj : CollisionFree digest m.originals)
    (hfree : ∀ o ∈ m.originals, ¬ digest.hash o <:+: message)
    (hread : Unambiguous digest m.originals m.segments) :
    RoundTrips digest build rules message ↔ m.broken = false := by
  have hinv := Masked.Inv.maskAll hmask
  obtain ⟨count, state, hreplace, hmap⟩ := replaceRequestMsg_eq hrules hmask
  have hrestore := restoreWith_recordAll hinj build hinv.masks hread
  constructor
  · rintro ⟨masked, count', state', hreplace', htrip⟩
    obtain ⟨rfl, -, rfl⟩ : maskedText digest m.segments = masked ∧ count = count' ∧
        state = state' := by simpa using hreplace.symm.trans hreplace'
    rw [hmap, hrestore, Option.some.injEq] at htrip
    by_contra hbroken
    obtain ⟨o, ho, hin⟩ := hinv.broken (by simpa using hbroken)
    exact hfree o ho (htrip ▸ hin)
  · intro hwhole
    exact ⟨_, count, state, hreplace, by rw [hmap, hrestore, hinv.whole hwhole]⟩

/-! ### Expressions without special characters -/

theorem Ordered.mono {text : Text} {captures : List (Option Capture)} {i j : ℕ} (hij : i ≤ j)
    (h : Ordered text j captures) : Ordered text i captures := by
  induction captures with
  | nil => trivial
  | cons c cs ih =>
      cases c with
      | none => exact ih h
      | some c => exact ⟨hij.trans h.1, h.2⟩

/-- The matches of a literal text from an offset on; `skip` counts the bytes of
the last match that are still to be passed. -/
def literalCaptures (pattern : Text) : ℕ → ℕ → Text → List (Option Capture)
  | _, _, [] => []
  | i, skip + 1, _ :: s => literalCaptures pattern (i + 1) skip s
  | i, 0, b :: s =>
      if pattern.isPrefixOf (b :: s) then
        some ⟨i, i + pattern.length, []⟩ :: literalCaptures pattern (i + 1) (pattern.length - 1) s
      else literalCaptures pattern (i + 1) 0 s

theorem ordered_literalCaptures {pattern : Text} (hpattern : pattern ≠ []) {text s : Text}
    {i skip : ℕ} (hs : text.drop i = s) :
    Ordered text (i + skip) (literalCaptures pattern i skip s) := by
  induction s generalizing i skip with
  | nil => cases skip <;> exact trivial
  | cons b s ih =>
      have hdrop : text.drop (i + 1) = s := by rw [← List.tail_drop, hs, List.tail_cons]
      cases skip with
      | succ skip =>
          have h := @ih (i + 1) skip hdrop
          rwa [show i + 1 + skip = i + (skip + 1) by omega] at h
      | zero =>
          rw [literalCaptures]
          split
          · rename_i hhead
            have hpos := List.length_pos_iff.mpr hpattern
            have hle := (List.isPrefixOf_iff_prefix.mp hhead).length_le
            rw [← hs, List.length_drop] at hle
            have h := @ih (i + 1) (pattern.length - 1) hdrop
            rw [show i + 1 + (pattern.length - 1) = i + pattern.length by omega] at h
            refine ⟨le_rfl, Nat.le_add_right _ _, ?_, h⟩
            change i + pattern.length ≤ text.length
            omega
          · exact (@ih (i + 1) 0 hdrop).mono (by omega)

def Regex.literal (pattern : Text) (hpattern : pattern ≠ []) : Regex where
  capturesIter text := literalCaptures pattern 0 0 text
  ordered text := @ordered_literalCaptures pattern hpattern text text 0 0 rfl

/-- A rule of type hash for a literal text. -/
def literalRule (pattern : Text) (hpattern : pattern ≠ []) : Rule :=
  ⟨.literal pattern hpattern, .hash, true⟩

/-- The digests of the two texts that the examples match. -/
def sampleDigest : Digest where
  hash s :=
    if s = bytes "secret" then
      bytes "2bb80d537b1da3e38bd30361aa855686bde0eacd7162fef6a25fe97bf527a25b"
    else if s = bytes "2bb8" then
      bytes "70eaa7773a6565881995fa443091b6875ee1d3c24e1bf24e215bbeee9d0093b0"
    else List.replicate 64 48
  length_hash s := by
    split
    · decide
    · split <;> decide
  hex_hash s := by
    split
    · decide
    · split <;> decide

def sampleRules : List Rule :=
  [literalRule (bytes "secret") (by decide), literalRule (bytes "2bb8") (by decide)]

/-- The second rule matches the first four digits of the digest that the first
one has put in: the restored message is that digest. -/
theorem not_roundTrips_secret :
    (∀ rule ∈ sampleRules, rule.IsHash) ∧
      (maskAll sampleDigest sampleRules (bytes "secret")).map Masked.originals =
        some [bytes "secret", bytes "2bb8"] ∧
      CollisionFree sampleDigest [bytes "secret", bytes "2bb8"] ∧
      (∀ o ∈ [bytes "secret", bytes "2bb8"], ¬ sampleDigest.hash o <:+: bytes "secret") ∧
      ¬ RoundTrips sampleDigest (fun _ => none) sampleRules (bytes "secret") := by
  have hrun : ((replaceRequestMsg sampleDigest sampleRules (bytes "secret") ⟨∅, 0, 0⟩).map
      fun r => restoreWith (fun _ => none) r.2.2.maskMap r.1) =
        some (some (sampleDigest.hash (bytes "secret"))) := by
    decide +kernel
  refine ⟨?_, by decide +kernel, ?_, ?_, ?_⟩
  · intro rule hrule
    simp only [sampleRules, List.mem_cons, List.not_mem_nil, or_false] at hrule
    rcases hrule with rfl | rfl <;> exact ⟨rfl, rfl⟩
  · intro a ha b hb
    simp only [List.mem_cons, List.not_mem_nil, or_false] at ha hb
    rcases ha with rfl | rfl <;> rcases hb with rfl | rfl <;> decide
  · intro o ho hin
    have hlen := hin.length_le
    rw [sampleDigest.length_hash] at hlen
    revert hlen
    decide
  · rintro ⟨masked, count, state, hreplace, htrip⟩
    rw [hreplace, Option.map_some, htrip] at hrun
    revert hrun
    decide

/-- With the first rule alone the message comes back. -/
theorem roundTrips_secret :
    RoundTrips sampleDigest (fun _ => none) [literalRule (bytes "secret") (by decide)]
      (bytes "secret") := by
  have hmask : maskAll sampleDigest [literalRule (bytes "secret") (by decide)] (bytes "secret") =
      some ⟨[.mask (bytes "secret")], false, [bytes "secret"]⟩ := by
    decide +kernel
  refine (roundTrips_iff sampleDigest (fun _ => none) _ ?_ _ _ hmask ?_ ?_ ?_).mpr rfl
  · intro rule hrule
    obtain rfl := List.mem_singleton.mp hrule
    exact ⟨rfl, rfl⟩
  · intro a ha b hb _
    rw [List.mem_singleton.mp ha, List.mem_singleton.mp hb]
  · intro o ho hin
    have hlen := hin.length_le
    rw [sampleDigest.length_hash] at hlen
    revert hlen
    decide
  · intro before b behind heq
    cases before with
    | nil => simp at heq
    | cons segment before => simp at heq

end Higress.Masking
