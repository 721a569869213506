import Mathlib.Data.List.ReduceOption
import Higress.AiProxy.StreamEvents

/-!
The events of a streaming response do not depend on how it is cut into callbacks
(`ExtractStreamingEvents` in `ai-proxy/provider/provider.go`). Each callback writes CRLF and CR as
LF on its own: a cut between the CR and the LF of a CRLF gives one LF more. That LF is one more
blank line, and it does nothing if a blank line is there anyway.

The reader of the whole stream and the reader of the callbacks are compared byte by byte. Where
the one more LF has ended an event, the reader of the callbacks is ahead until the blank line.
-/

namespace Higress.AiProxy.StreamEvents

open Lib

/-! ### Line ends while reading -/

/-- The reader is given bytes, and knows whether the last one was a CR. -/
def feed (x : Reader × Bool) (b : UInt8) : Option (Reader × Bool) :=
  if b = 10 ∧ x.2 = true then some (x.1, false)
  else (x.1.read (if b = 13 then 10 else b)).map fun r => (r, decide (b = 13))

theorem feed_of_ne {b : UInt8} (h : b ≠ 10) (r : Reader) (cr : Bool) :
    feed (r, cr) b = feed (r, false) b := by
  simp [feed, h]

/-- To write line ends as LF first is to know about the last CR. -/
theorem foldlM_feed (s : GoString) (r : Reader) :
    (s.foldlM feed (r, false)).map Prod.fst = (normalize s).foldlM Reader.read r := by
  induction s using replaceCRLF.induct generalizing r with
  | case1 s ih =>
      rw [normalize_crlf, List.foldlM_cons, List.foldlM_cons]
      cases hread : r.read 10 with
      | none => simp [feed, hread]
      | some r₁ =>
          have hfeed : feed (r, false) 13 = some (r₁, true) := by simp [feed, hread]
          rw [hfeed]
          exact ih r₁
  | case2 b s h ih =>
      rw [normalize_cons h, List.foldlM_cons, List.foldlM_cons]
      cases hread : r.read (if b = 13 then 10 else b) with
      | none => simp [feed, hread]
      | some r₁ =>
          have hfeed : feed (r, false) b = some (r₁, decide (b = 13)) := by simp [feed, hread]
          rw [hfeed]
          refine Eq.trans ?_ (ih r₁)
          cases s with
          | nil => rfl
          | cons c s =>
              by_cases hc : c = 10
              · subst hc
                have hb : b ≠ 13 := fun hb => h s hb rfl
                simp [hb]
              · show ((c :: s).foldlM feed (r₁, _)).map Prod.fst = _
                rw [List.foldlM_cons, List.foldlM_cons, feed_of_ne hc]
  | case3 => rfl

/-! ### Cuts -/

def IsEol (b : UInt8) : Prop := b = 10 ∨ b = 13

instance (b : UInt8) : Decidable (IsEol b) := inferInstanceAs (Decidable (_ ∨ _))

/-- If a cut is between the CR and the LF that end a line which is not blank, the next line is
blank. -/
def GoodCut (before after : GoString) : Prop :=
  before.getLast? = some 13 → after.head? = some 10 →
    (∃ b ∈ before.dropLast.getLast?, ¬ IsEol b) → ∃ b ∈ after.tail.head?, IsEol b

instance (before after : GoString) : Decidable (GoodCut before after) :=
  inferInstanceAs (Decidable (_ → _ → _ → _))

/-- All cuts of a stream are of this kind. -/
def GoodCuts (chunks : List GoString) : Prop :=
  ∀ i ≤ chunks.length, GoodCut (chunks.take i).flatten (chunks.drop i).flatten

instance (chunks : List GoString) : Decidable (GoodCuts chunks) :=
  inferInstanceAs (Decidable (∀ i ≤ chunks.length, _))

/-- The bytes of the chunks, with a mark where a chunk starts. -/
def marked (chunks : List GoString) : List (Option UInt8) :=
  chunks.flatMap fun chunk => none :: chunk.map some

/-- A new callback does not know about a CR. -/
def cutStep (x : Reader × Bool) : Option UInt8 → Option (Reader × Bool)
  | none => some (x.1, false)
  | some b => feed x b

def wholeStep (x : Reader × Bool) : Option UInt8 → Option (Reader × Bool)
  | none => some x
  | some b => feed x b

theorem foldlM_map_some {f : Reader × Bool → Option UInt8 → Option (Reader × Bool)}
    (hf : ∀ x b, f x (some b) = feed x b) (s : GoString) (x : Reader × Bool) :
    (s.map some).foldlM f x = s.foldlM feed x := by
  rw [List.foldlM_map]
  exact congrArg (fun g => List.foldlM g x s) (funext fun x => funext fun b => hf x b)

theorem foldlM_cutStep (chunks : List GoString) (x : Reader × Bool) :
    ((marked chunks).foldlM cutStep x).map Prod.fst =
      (chunks.map normalize).flatten.foldlM Reader.read x.1 := by
  induction chunks generalizing x with
  | nil => rfl
  | cons chunk chunks ih =>
      rw [marked, List.flatMap_cons, List.cons_append, List.foldlM_cons, List.map_cons,
        List.flatten_cons, List.foldlM_append, ← foldlM_feed]
      show (((chunk.map some ++ marked chunks).foldlM cutStep (x.1, false)).map Prod.fst) = _
      rw [List.foldlM_append, foldlM_map_some fun _ _ => rfl]
      cases chunk.foldlM feed (x.1, false) with
      | none => rfl
      | some x₁ => exact ih x₁

theorem foldlM_wholeStep (chunks : List GoString) (x : Reader × Bool) :
    (marked chunks).foldlM wholeStep x = chunks.flatten.foldlM feed x := by
  induction chunks generalizing x with
  | nil => rfl
  | cons chunk chunks ih =>
      rw [marked, List.flatMap_cons, List.cons_append, List.foldlM_cons, List.flatten_cons,
        List.foldlM_append]
      show (chunk.map some ++ marked chunks).foldlM wholeStep x = _
      rw [List.foldlM_append, foldlM_map_some fun _ _ => rfl]
      cases chunk.foldlM feed x with
      | none => rfl
      | some x₁ => exact ih x₁

/-- The cuts in what is left of the stream. -/
def GoodMarks : GoString → List (Option UInt8) → Prop
  | _, [] => True
  | before, none :: ts => GoodCut before ts.reduceOption ∧ GoodMarks before ts
  | before, some b :: ts => GoodMarks (before ++ [b]) ts

theorem reduceOption_marked (chunks : List GoString) :
    (marked chunks).reduceOption = chunks.flatten := by
  induction chunks with
  | nil => rfl
  | cons chunk chunks ih =>
      rw [marked, List.flatMap_cons, List.cons_append, List.reduceOption_cons_of_none,
        List.reduceOption_append, ← marked, ih, List.flatten_cons]
      simp [List.reduceOption]

theorem goodMarks_map_some (before chunk : GoString) (ts : List (Option UInt8)) :
    GoodMarks before (chunk.map some ++ ts) ↔ GoodMarks (before ++ chunk) ts := by
  induction chunk generalizing before with
  | nil => simp
  | cons b chunk ih => simp [GoodMarks, ih]

theorem goodMarks_of_goodCuts (done chunks : List GoString)
    (h : ∀ before after, chunks = before ++ after →
      GoodCut (done ++ before).flatten after.flatten) :
    GoodMarks done.flatten (marked chunks) := by
  induction chunks generalizing done with
  | nil => exact trivial
  | cons chunk chunks ih =>
      rw [marked, List.flatMap_cons, List.cons_append, ← marked]
      refine ⟨?_, ?_⟩
      · have hcut := h [] (chunk :: chunks) rfl
        rw [List.reduceOption_append, reduceOption_marked]
        simpa [List.reduceOption] using hcut
      · rw [goodMarks_map_some]
        have hflat : done.flatten ++ chunk = (done ++ [chunk]).flatten := by simp
        rw [hflat]
        apply ih
        rintro before after rfl
        simpa using h (chunk :: before) after rfl

/-! ### The two readers -/

/-- What the bytes so far say about the reader of the whole stream. -/
structure Follows (before : GoString) (w : Reader × Bool) : Prop where
  line : w.1.line ≠ [] → ∃ b ∈ before.getLast?, ¬ IsEol b
  cr : w.2 = true → w.1.line = [] ∧ ∃ line, before = line ++ [13] ∧
    (w.1.raw ≠ [] → ∃ b ∈ line.getLast?, ¬ IsEol b)

/-- After the end of a line there is no line, and of an event only if the line was not blank. -/
theorem read_lf {r r' : Reader} (h : r.read 10 = some r') :
    r'.line = [] ∧ (r'.raw ≠ [] → r.line ≠ []) := by
  by_cases hline : r.line = []
  · by_cases hraw : r.raw = []
    · rw [read_blank hline hraw] at h
      obtain rfl := Option.some.inj h
      exact ⟨hline, fun hne => absurd hraw hne⟩
    · rw [read_event hline hraw] at h
      obtain rfl := Option.some.inj h
      exact ⟨rfl, fun hne => absurd rfl hne⟩
  · by_cases hcolon : 58 ∈ r.line
    · rw [read_line hline hcolon] at h
      obtain rfl := Option.some.inj h
      exact ⟨rfl, fun _ => hline⟩
    · rw [read_line_none hline hcolon] at h
      cases h

theorem Follows.feed {before : GoString} {w w' : Reader × Bool} {b : UInt8}
    (h : Follows before w) (hfeed : StreamEvents.feed w b = some w') :
    Follows (before ++ [b]) w' := by
  rw [StreamEvents.feed] at hfeed
  split at hfeed
  · rename_i hlf
    obtain rfl := Option.some.inj hfeed
    exact ⟨fun hline => absurd (h.cr hlf.2).1 hline, by simp⟩
  · obtain ⟨r, hread, rfl⟩ := Option.map_eq_some_iff.mp hfeed
    by_cases heol : IsEol b
    · have hread : w.1.read 10 = some r := by
        rcases heol with rfl | rfl
        · exact hread
        · exact hread
      obtain ⟨hline, hraw⟩ := read_lf hread
      refine ⟨fun hne => absurd hline hne, fun hcr => ⟨hline, before, ?_, fun hne => ?_⟩⟩
      · have hb : b = 13 := by simpa using hcr
        rw [hb]
      · exact h.line (hraw hne)
    · have hcr : b ≠ 13 := fun hb => heol (.inr hb)
      refine ⟨fun _ => ⟨b, by simp, heol⟩, fun hcr' => absurd ?_ hcr⟩
      simpa using hcr'

/-- How the reader of the callbacks stands to the reader of the whole stream. -/
inductive Stands (before : GoString) (ts : List (Option UInt8)) (w c : Reader × Bool) : Prop
  | same (h : c = w)
  /-- A callback has ended behind a CR. -/
  | cut (h : c = (w.1, false)) (hcr : w.2 = true) (hgood : GoodCut before ts.reduceOption)
  /-- The LF behind it has ended an event, and a blank line follows. -/
  | ahead (hw : w.2 = false) (hc : c.2 = false) (hread : w.1.read 10 = some c.1)
      (hline : w.1.line = []) (hraw : w.1.raw ≠ []) (hnext : ∃ b ∈ ts.reduceOption.head?, IsEol b)

/-- A new callback starts. -/
theorem Stands.mark {before : GoString} {ts : List (Option UInt8)} {w c : Reader × Bool}
    (h : Stands before (none :: ts) w c) (hgood : GoodCut before ts.reduceOption) :
    Stands before ts w (c.1, false) := by
  cases h with
  | same hsame =>
      subst hsame
      cases hcr : c.2 with
      | true => exact .cut rfl hcr hgood
      | false => exact .same (by rw [← hcr])
  | cut hsame hcr _ => exact .cut (by rw [hsame]) hcr hgood
  | ahead hw hc hread hline hraw hnext => exact .ahead hw rfl hread hline hraw hnext

/-- One byte for both readers. -/
theorem Stands.byte {before : GoString} {ts : List (Option UInt8)} {w c : Reader × Bool}
    {b : UInt8} (h : Stands before (some b :: ts) w c) (hw : Follows before w) :
    (StreamEvents.feed w b = none ∧ StreamEvents.feed c b = none) ∨
      ∃ w' c', StreamEvents.feed w b = some w' ∧ StreamEvents.feed c b = some c' ∧
        Stands (before ++ [b]) ts w' c' := by
  cases h with
  | same hsame =>
      subst hsame
      cases hfeed : StreamEvents.feed c b with
      | none => exact .inl ⟨rfl, rfl⟩
      | some x => exact .inr ⟨x, x, rfl, rfl, .same rfl⟩
  | cut hsame hcr hgood =>
      subst hsame
      by_cases hb : b = 10
      · subst hb
        obtain ⟨hline, line, rfl, hblank⟩ := hw.cr hcr
        have hwhole : StreamEvents.feed w 10 = some (w.1, false) := by simp [StreamEvents.feed, hcr]
        by_cases hraw : w.1.raw = []
        · refine .inr ⟨_, (w.1, false), hwhole, ?_, .same rfl⟩
          simp [StreamEvents.feed, read_blank hline hraw]
        · have hread := read_event hline hraw
          refine .inr ⟨_, (_, false), hwhole, ?_, .ahead rfl rfl hread hline hraw ?_⟩
          · simp [StreamEvents.feed, hread]
          · simpa using hgood (by simp) (by simp) (by simpa using hblank hraw)
      · have hsame : StreamEvents.feed w b = StreamEvents.feed (w.1, false) b := feed_of_ne hb w.1 w.2
        rw [hsame]
        cases hfeed : StreamEvents.feed (w.1, false) b with
        | none => exact .inl ⟨rfl, rfl⟩
        | some x => exact .inr ⟨x, x, rfl, rfl, .same rfl⟩
  | ahead hwcr hccr hread hline hraw hnext =>
      obtain ⟨b', hb', heol⟩ := hnext
      rw [List.reduceOption_cons_of_some, List.head?_cons] at hb'
      obtain rfl := Option.some.inj hb'
      -- The event is ended for both now, and the blank line does nothing for the second.
      have hblank : c.1.read 10 = some c.1 := by
        rw [read_event hline hraw] at hread
        rw [← Option.some.inj hread]
        exact read_blank rfl rfl
      have hbyte : (if b = 13 then 10 else b) = 10 := by
        rcases heol with rfl | rfl
        · rfl
        · rfl
      refine .inr ⟨(c.1, decide (b = 13)), (c.1, decide (b = 13)), ?_, ?_, .same rfl⟩
      · simp [StreamEvents.feed, hwcr, hbyte, hread]
      · simp [StreamEvents.feed, hccr, hbyte, hblank]

/-- The readers end alike. -/
theorem Stands.run {before : GoString} {ts : List (Option UInt8)} {w c : Reader × Bool}
    (h : Stands before ts w c) (hw : Follows before w) (hgood : GoodMarks before ts) :
    (ts.foldlM cutStep c).map Prod.fst = (ts.foldlM wholeStep w).map Prod.fst := by
  induction ts generalizing before w c with
  | nil =>
      cases h with
      | same hsame => rw [hsame]; rfl
      | cut hsame _ _ => rw [hsame]; rfl
      | ahead _ _ _ _ _ hnext =>
          obtain ⟨b, hb, -⟩ := hnext
          cases hb
  | cons token ts ih =>
      cases token with
      | none => exact ih (h.mark hgood.1) hw hgood.2
      | some b =>
          rw [List.foldlM_cons, List.foldlM_cons, cutStep, wholeStep]
          rcases h.byte hw with ⟨hwhole, hcut⟩ | ⟨w', c', hwhole, hcut, hnext⟩
          · rw [hwhole, hcut]
            rfl
          · rw [hwhole, hcut]
            exact ih hnext (hw.feed hwhole) hgood

/-- Good cuts do not change what the callbacks extract. -/
theorem extractAll_of_goodCuts {chunks : List GoString} (h : GoodCuts chunks) :
    extractAll chunks = extractAll [chunks.flatten] := by
  have hmarks : GoodMarks [] (marked chunks) :=
    goodMarks_of_goodCuts [] chunks fun before after heq => by
      simpa [heq] using h before.length (by simp [heq])
  have hfollows : Follows [] ({}, false) := ⟨fun hne => absurd rfl hne, by simp⟩
  have hrun := (Stands.same rfl : Stands [] (marked chunks) ({}, false) ({}, false)).run hfollows hmarks
  rw [extractAll_eq, extractAll_eq, ← foldlM_cutStep chunks ({}, false), hrun, foldlM_wholeStep,
    foldlM_feed]
  simp

/-! ### What is carried over -/

/-- A text without a blank line, which can be the start of an event. -/
def Unfinished (t : GoString) : Prop := t.head? ≠ some 10 ∧ ¬ [10, 10] <:+: t

/-- A text that consists of complete events and blank lines. -/
inductive Complete : List StreamEvent → GoString → Prop
  | nil : Complete [] []
  | blank {events : List StreamEvent} {done : GoString} (h : Complete events done) :
      Complete events (done ++ [10])
  | event {events : List StreamEvent} {done t : GoString} {e : StreamEvent}
      (h : Complete events done) (hne : t ≠ []) (ht : Unfinished t)
      (hlast : t.getLast? = some 10) (hraw : e.rawEvent = t ++ [10]) :
      Complete (events ++ [e]) (done ++ e.rawEvent)

/-- What the reader has read. -/
structure HasRead (s : GoString) (r : Reader) : Prop where
  split : ∃ done, s = done ++ r.raw ∧ Complete r.events done
  unfinished : Unfinished r.raw
  line : r.line <:+ r.raw
  noLF : 10 ∉ r.line
  last : r.line = [] → r.raw ≠ [] → r.raw.getLast? = some 10

theorem Unfinished.append {t : GoString} (h : Unfinished t) {b : UInt8}
    (hb : b = 10 → t ≠ [] ∧ t.getLast? ≠ some 10) : Unfinished (t ++ [b]) := by
  constructor
  · cases t with
    | nil =>
        intro hhead
        exact (hb (by simpa using hhead)).1 rfl
    | cons c t => simpa using h.1
  · intro hinfix
    rcases List.infix_concat_iff.mp hinfix with ⟨a, ha⟩ | hinfix
    · have hsplit : (a ++ [10]) ++ [10] = t ++ [b] := by simpa using ha
      obtain ⟨rfl, hlast⟩ := List.append_inj' hsplit rfl
      refine (hb (by simpa using hlast.symm)).2 ?_
      simp
    · exact h.2 hinfix

theorem HasRead.read {s : GoString} {r r' : Reader} {b : UInt8} (h : HasRead s r)
    (hread : r.read b = some r') : HasRead (s ++ [b]) r' := by
  obtain ⟨done, hs, hdone⟩ := h.split
  by_cases hb : b = 10
  · subst hb
    by_cases hline : r.line = []
    · by_cases hraw : r.raw = []
      · rw [read_blank hline hraw] at hread
        obtain rfl := Option.some.inj hread
        refine ⟨⟨done ++ [10], ?_, hdone.blank⟩, h.unfinished, h.line, h.noLF, h.last⟩
        simp [hs, hraw]
      · rw [read_event hline hraw] at hread
        obtain rfl := Option.some.inj hread
        have hevent := hdone.event (e := { r.event with rawEvent := r.raw ++ [10] }) hraw
          h.unfinished (h.last hline hraw) rfl
        refine ⟨⟨_, ?_, hevent⟩, ⟨by simp, by simp⟩, List.suffix_rfl, by simp, by simp⟩
        simp [hs]
    · by_cases hcolon : 58 ∈ r.line
      · rw [read_line hline hcolon] at hread
        obtain rfl := Option.some.inj hread
        refine ⟨⟨done, by simp [hs], hdone⟩, h.unfinished.append fun _ => ?_, List.nil_suffix,
          by simp, by simp⟩
        obtain ⟨a, ha⟩ := h.line
        rw [← ha]
        refine ⟨by simp [hline], fun hlast => h.noLF ?_⟩
        rw [List.getLast?_append_of_ne_nil _ hline] at hlast
        exact List.mem_of_getLast? hlast
      · rw [read_line_none hline hcolon] at hread
        cases hread
  · rw [read_text hb] at hread
    obtain rfl := Option.some.inj hread
    refine ⟨⟨done, by simp [hs], hdone⟩, h.unfinished.append fun heq => absurd heq hb, ?_, ?_,
      by simp⟩
    · obtain ⟨a, ha⟩ := h.line
      exact ⟨a, by rw [← ha, List.append_assoc]⟩
    · simp [h.noLF, Ne.symm hb]

theorem HasRead.foldlM {s t : GoString} {r r' : Reader} (h : HasRead s r)
    (hread : t.foldlM Reader.read r = some r') : HasRead (s ++ t) r' := by
  induction t generalizing s r with
  | nil =>
      obtain rfl : r = r' := by simpa using hread
      simpa using h
  | cons b t ih =>
      obtain ⟨r₁, hr₁, hrest⟩ := Option.bind_eq_some_iff.mp hread
      simpa using ih (h.read hr₁) hrest

/-- However a stream is cut, as long as no callback ends between the CR and the LF of a line that
is not blank and not followed by a blank one, the callbacks extract the events of the whole
stream. They carry over what is behind the last of them, with LF as line ends and without the
blank lines before it. -/
theorem extractAll_cuts (chunks : List GoString)
    (hcolon : ∀ line ∈ nonBlankLines chunks.flatten, 58 ∈ line) (hcuts : GoodCuts chunks) :
    ∃ events rest done, extractAll chunks = some (events, rest) ∧
      extractAll [chunks.flatten] = some (events, rest) ∧
      normalize chunks.flatten = done ++ rest.getD [] ∧ Complete events done ∧
      Unfinished (rest.getD []) := by
  have hwhole := extractAll_eq [chunks.flatten]
  have hsome := (extractAll_isSome_iff [chunks.flatten]).mpr (by simpa using hcolon)
  rw [hwhole, Option.isSome_map] at hsome
  obtain ⟨r, hr⟩ := Option.isSome_iff_exists.mp hsome
  rw [hr, Option.map_some] at hwhole
  have hstart : HasRead [] {} :=
    ⟨⟨[], rfl, .nil⟩, ⟨by simp, by simp⟩, List.suffix_rfl, by simp, by simp⟩
  have hread : HasRead (normalize chunks.flatten) r := by
    simpa using hstart.foldlM hr
  obtain ⟨done, hs, hdone⟩ := hread.split
  refine ⟨r.left.1, r.left.2, done, ?_, hwhole, ?_, hdone, ?_⟩
  · rw [extractAll_of_goodCuts hcuts, hwhole]
  · rw [left_getD, hs]
  · rw [left_getD]
    exact hread.unfinished

/-- A stream with CRLF that is cut within a line and between a CR and an LF. -/
theorem extractAll_cuts_crlf :
    ∃ events rest done, extractAll [bytes "data: a\r\n\r", bytes "\nda", bytes "ta: b\r\n"] =
        some (events, rest) ∧
      extractAll [bytes "data: a\r\n\r\ndata: b\r\n"] = some (events, rest) ∧
      normalize (bytes "data: a\r\n\r\ndata: b\r\n") = done ++ rest.getD [] ∧
      Complete events done ∧ Unfinished (rest.getD []) :=
  extractAll_cuts [bytes "data: a\r\n\r", bytes "\nda", bytes "ta: b\r\n"] (by decide) (by decide)

/-- What is carried over is not what was received. -/
theorem carried_over_not_suffix :
    ∃ rest, extractAll [bytes "a:b\r"] = some ([], some rest) ∧ ¬ rest <:+ bytes "a:b\r" := by
  exact ⟨bytes "a:b\n", by decide, by decide⟩

end Higress.AiProxy.StreamEvents
