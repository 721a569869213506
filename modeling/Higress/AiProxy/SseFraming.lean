import Mathlib
import Higress.Lib.GoString
import Higress.Lib.EventSplit

/-!
The framer of server-sent events (`ai-proxy/provider/sse_framing.go`; the plugins for
token limits, quotas and statistics have the same one and only normalize the events they
emit). It is given a response body in chunks and emits the events in it as they become
complete. What is left of the last chunk is kept as the tail, up to a cap; beyond the cap
the framer drops it and looks for the end of the event with the last three bytes in hand.

Every access to a byte and every slice can fail, so that a run that is `some` has stayed
in range.
-/

namespace Higress.AiProxy

open Lib Lib.EventSplit

/-- `maxIncompleteSSEEventBytes`. -/
def maxIncompleteSSEEventBytes : ℕ := 1 * 1024 * 1024

/-- `maxSSEDelimiterBytes`. -/
def maxSSEDelimiterBytes : ℕ := 4

/-- `s[i:j]`. -/
def slice (s : GoString) (i j : ℕ) : Option GoString :=
  if i ≤ j ∧ j ≤ s.length then some ((s.take j).drop i) else none

/-! ### The window -/

/-- `sseByteWindow`: a prefix that was kept and the current chunk. -/
structure SseByteWindow where
  a : GoString
  b : GoString

namespace SseByteWindow

variable (w : SseByteWindow)

def len : ℕ := w.a.length + w.b.length

/-- `at`. -/
def byteAt (i : ℕ) : Option UInt8 := if i < w.a.length then w.a[i]? else w.b[i - w.a.length]?

/-- `lineEndingEnd`: the offset just past a line ending, and whether it is pending. -/
def lineEndingEnd (i : ℕ) : Option (ℕ × Bool) :=
  (w.byteAt i).bind fun c =>
    if c = 10 then some (i + 1, false)
    else if i + 1 = w.len then some (i, true)
    else (w.byteAt (i + 1)).map fun c => (if c = 10 then i + 2 else i + 1, false)

/-- What one round of the loop of `scanEventEnds` does: it stops at a pending line ending,
goes on from an offset, or finds the end of an event. -/
inductive ScanStep
  | pending
  | skip (next : ℕ)
  | event (last : ℕ)

/-- One round of the loop of `scanEventEnds`. -/
def scanStep (pos : ℕ) : Option ScanStep :=
  (w.byteAt pos).bind fun c =>
    if c ≠ 10 ∧ c ≠ 13 then some (.skip (pos + 1))
    else (w.lineEndingEnd pos).bind fun first =>
      if first.2 then some .pending
      else if first.1 < w.len then
        (w.byteAt first.1).bind fun c2 =>
          if c2 = 10 ∨ c2 = 13 then
            (w.lineEndingEnd first.1).map fun second =>
              if second.2 then .pending else .event second.1
          else some (.skip first.1)
      else some (.skip first.1)

/-- The rounds that go on are at an offset further on. -/
def ScanStep.From (pos : ℕ) : ScanStep → Prop
  | .pending => True
  | .skip next => pos < next
  | .event last => pos < last

variable {w}

theorem lt_of_lineEndingEnd {i : ℕ} {next : ℕ × Bool} (h : w.lineEndingEnd i = some next)
    (hpending : ¬next.2) : i < next.1 := by
  obtain ⟨c, -, hc⟩ := Option.bind_eq_some_iff.mp h
  split at hc
  · obtain rfl := Option.some.inj hc
    exact Nat.lt_succ_self i
  · split at hc
    · obtain rfl := Option.some.inj hc
      exact absurd rfl hpending
    · obtain ⟨c', -, rfl⟩ := Option.map_eq_some_iff.mp hc
      dsimp only
      split <;> omega

theorem scanStep_from {pos : ℕ} {step : ScanStep} (h : w.scanStep pos = some step) :
    step.From pos := by
  obtain ⟨c, -, hc⟩ := Option.bind_eq_some_iff.mp h
  split at hc
  · obtain rfl := Option.some.inj hc
    exact Nat.lt_succ_self pos
  · obtain ⟨first, hfirst, hc⟩ := Option.bind_eq_some_iff.mp hc
    split at hc
    · obtain rfl := Option.some.inj hc
      trivial
    · rename_i hpending
      have hlt := lt_of_lineEndingEnd hfirst hpending
      split at hc
      · obtain ⟨c2, -, hc⟩ := Option.bind_eq_some_iff.mp hc
        split at hc
        · obtain ⟨second, hsecond, rfl⟩ := Option.map_eq_some_iff.mp hc
          split
          · trivial
          · rename_i hpending'
            exact hlt.trans (lt_of_lineEndingEnd hsecond hpending')
        · obtain rfl := Option.some.inj hc
          exact hlt
      · obtain rfl := Option.some.inj hc
        exact hlt

variable (w)

/-- The loop of `scanEventEnds` from an offset on. -/
def scanFrom (limit pos : ℕ) (ends : List ℕ) : Option (List ℕ) :=
  if pos < w.len then
    match _h : w.scanStep pos with
    | none => none
    | some .pending => some ends
    | some (.skip next) => scanFrom limit next ends
    | some (.event last) =>
        if 0 < limit ∧ limit ≤ ends.length + 1 then some (ends ++ [last])
        else scanFrom limit last (ends ++ [last])
  else some ends
termination_by w.len - pos
decreasing_by
  · have : pos < next := scanStep_from _h
    omega
  · have : pos < last := scanStep_from _h
    omega

/-- `scanEventEnds`. -/
def scanEventEnds (limit : ℕ) : Option (List ℕ) := w.scanFrom limit 0 []

/-- `sliceRange`. -/
def sliceRange (start stop : ℕ) : Option GoString :=
  if stop < start then none
  else if w.a.length ≤ start then slice w.b (start - w.a.length) (stop - w.a.length)
  else if stop ≤ w.a.length then slice w.a start stop
  else (slice w.a start w.a.length).bind fun first =>
    (slice w.b 0 (stop - w.a.length)).map (first ++ ·)

/-- `lastBytes`. -/
def lastBytes (start k : ℕ) : Option GoString := w.sliceRange (max (w.len - k) start) w.len

end SseByteWindow

/-! ### The framer -/

/-- `sseFramer`. -/
structure SseFramer where
  tail : GoString := []
  resyncing : Bool := false
  resyncCarry : GoString := []
  overflowCount : ℕ := 0
  deriving DecidableEq

namespace SseFramer

/-- The start of `frameCallback` while the end of a dropped event is looked for: the rest
of the chunk behind it, if it is found. -/
def resync (f : SseFramer) (chunk : GoString) : Option (SseFramer × Option GoString) :=
  let w : SseByteWindow := ⟨f.resyncCarry, chunk⟩
  (w.scanEventEnds 1).bind fun ends =>
    match ends with
    | [] => (w.lastBytes 0 (maxSSEDelimiterBytes - 1)).map fun carry =>
        ({ f with resyncCarry := carry }, none)
    | last :: _ =>
        let f' := { f with resyncing := false, resyncCarry := [], tail := [] }
        if w.a.length < last then
          (slice chunk (last - w.a.length) chunk.length).map fun chunk => (f', some chunk)
        else some (f', some chunk)

/-- One event of the loop of `frameCallback`, which ends at the offset `last`; `prev` is
where it starts. -/
def cutEvent (f : SseFramer) (chunk : GoString) (left : ℕ × List GoString) (last : ℕ) :
    Option (ℕ × List GoString) :=
  let w : SseByteWindow := ⟨f.tail, chunk⟩
  let event :=
    if f.tail.length ≤ left.1 then slice chunk (left.1 - f.tail.length) (last - f.tail.length)
    else w.sliceRange left.1 last
  event.map fun event => (last, left.2 ++ [event])

/-- `frameCallback` from where the framer is not resyncing. -/
def frame (f : SseFramer) (chunk : GoString) : Option (List GoString × SseFramer) :=
  let w : SseByteWindow := ⟨f.tail, chunk⟩
  (w.scanEventEnds 0).bind fun ends =>
    (ends.foldlM (f.cutEvent chunk) (0, [])).bind fun left =>
      let suffixLen := w.len - left.1
      if suffixLen = 0 then some (left.2, { f with tail := [] })
      else if suffixLen ≤ maxIncompleteSSEEventBytes then
        (w.sliceRange left.1 w.len).map fun tail => (left.2, { f with tail := tail })
      else (w.lastBytes left.1 (maxSSEDelimiterBytes - 1)).map fun carry =>
        (left.2, { f with
          tail := []
          resyncing := true
          resyncCarry := carry
          overflowCount := f.overflowCount + 1 })

/-- `frameCallback`. -/
def frameCallback (f : SseFramer) (chunk : GoString) : Option (List GoString × SseFramer) :=
  if f.resyncing then
    (f.resync chunk).bind fun found =>
      match found.2 with
      | none => some ([], found.1)
      | some chunk => found.1.frame chunk
  else f.frame chunk

/-- `flush`. -/
def flush (f : SseFramer) : GoString × SseFramer :=
  (f.tail, { f with tail := [], resyncing := false, resyncCarry := [] })

/-- The callbacks of a response, with all events emitted. -/
def run (chunks : List GoString) : Option (List GoString × SseFramer) :=
  chunks.foldlM (fun left chunk =>
    (left.2.frameCallback chunk).map fun next => (left.1 ++ next.1, next.2)) ([], {})

end SseFramer

/-! ### Scanning -/

namespace SseByteWindow

variable (w : SseByteWindow)

/-- The bytes of the window. -/
def all : GoString := w.a ++ w.b

theorem len_eq : w.len = w.all.length := by
  rw [len, all, List.length_append]

theorem byteAt_eq (i : ℕ) : w.byteAt i = (w.all.drop i).head? := by
  rw [byteAt, List.head?_drop, all]
  split
  · rw [List.getElem?_append_left ‹_›]
  · rw [List.getElem?_append_right (Nat.not_lt.mp ‹_›)]

/-- At a byte that can be a line ending. -/
theorem lineEndingEnd_eq {i : ℕ} {c : UInt8} {rest : GoString} (hdrop : w.all.drop i = c :: rest)
    (hc : c = 10 ∨ c = 13) :
    w.lineEndingEnd i = some (match lineSize false (c :: rest) with
      | some n => (i + n, false)
      | none => (i, true)) := by
  have hbyte : w.byteAt i = some c := by rw [byteAt_eq, hdrop, List.head?_cons]
  have hnext : w.byteAt (i + 1) = rest.head? := by
    rw [byteAt_eq, ← List.drop_drop, hdrop, List.drop_succ_cons, List.drop_zero]
  have hlen : w.all.length = i + (rest.length + 1) := by
    have := congrArg List.length hdrop
    rw [List.length_drop, List.length_cons] at this
    omega
  rw [lineEndingEnd, hbyte, Option.bind_some, w.len_eq, hlen, hnext]
  by_cases hlf : c = 10
  · simp [lineSize, hlf]
  · have hcr : c = 13 := hc.resolve_left hlf
    cases rest with
    | nil => simp [lineSize, hcr]
    | cons d rest =>
        by_cases hd : d = 10
        · simp [lineSize, hcr, hd]
        · simp [lineSize, hcr, hd]

/-- What a round of the scan tells about the first event from its offset on. -/
def ScanStep.Tells (all : GoString) (pos : ℕ) : ScanStep → Prop
  | .pending => eventEnd false (all.drop pos) = none
  | .skip next => next ≤ all.length ∧
      eventEnd false (all.drop pos) = (eventEnd false (all.drop next)).map (· + (next - pos))
  | .event last => eventEnd false (all.drop pos) = some (last - pos)

theorem scanStep_tells {pos : ℕ} (hpos : pos < w.len) :
    ∃ step, w.scanStep pos = some step ∧ step.Tells w.all pos := by
  rw [w.len_eq] at hpos
  obtain ⟨c, rest, hdrop⟩ : ∃ c rest, w.all.drop pos = c :: rest := by
    cases hdrop : w.all.drop pos with
    | nil => exact absurd (List.drop_eq_nil_iff.mp hdrop) (by omega)
    | cons c rest => exact ⟨c, rest, rfl⟩
  have hbyte : w.byteAt pos = some c := by rw [byteAt_eq, hdrop, List.head?_cons]
  have hlen : w.all.length = pos + (rest.length + 1) := by
    have := congrArg List.length hdrop
    rw [List.length_drop, List.length_cons] at this
    omega
  rw [scanStep, hbyte, Option.bind_some]
  by_cases htext : c ≠ 10 ∧ c ≠ 13
  · rw [if_pos htext]
    refine ⟨_, rfl, by omega, ?_⟩
    have hsize : lineSize false (c :: rest) = none := by simp [lineSize, htext.1, htext.2]
    rw [hdrop, eventEnd_text hsize, ← List.drop_drop, hdrop, Nat.add_sub_cancel_left]
    rfl
  · have hc : c = 10 ∨ c = 13 := by
      by_contra hnot
      exact htext (not_or.mp hnot)
    rw [if_neg htext, w.lineEndingEnd_eq hdrop hc, Option.bind_some]
    cases hsize : lineSize false (c :: rest) with
    | none =>
        -- a CR that is the last byte
        obtain rfl : rest = [] := (text_or_cr_of_lineSize hsize).resolve_left htext
        refine ⟨.pending, rfl, ?_⟩
        rw [ScanStep.Tells, hdrop, eventEnd_singleton]
    | some n =>
        have hn := lineSize_bounds hsize
        rw [List.length_cons] at hn
        have hdrop' : (c :: rest).drop n = w.all.drop (pos + n) := by
          rw [← hdrop, List.drop_drop]
        have hskip : lineSize false (w.all.drop (pos + n)) = none →
            (ScanStep.skip (pos + n)).Tells w.all pos := by
          intro hsecond
          refine ⟨by omega, ?_⟩
          rw [← hdrop'] at hsecond
          rw [hdrop, eventEnd_one hsize hsecond, hdrop', Nat.add_sub_cancel_left]
        simp only [Bool.false_eq_true, if_false]
        by_cases hend : pos + n < w.len
        · obtain ⟨c2, rest2, hdrop2⟩ : ∃ c2 rest2, w.all.drop (pos + n) = c2 :: rest2 := by
            cases hdrop2 : w.all.drop (pos + n) with
            | nil =>
                rw [w.len_eq] at hend
                exact absurd (List.drop_eq_nil_iff.mp hdrop2) (by omega)
            | cons c2 rest2 => exact ⟨c2, rest2, rfl⟩
          have hbyte2 : w.byteAt (pos + n) = some c2 := by rw [byteAt_eq, hdrop2, List.head?_cons]
          rw [if_pos hend, hbyte2, Option.bind_some]
          by_cases hc2 : c2 = 10 ∨ c2 = 13
          · rw [if_pos hc2, w.lineEndingEnd_eq hdrop2 hc2, Option.map_some]
            cases hsecond : lineSize false (c2 :: rest2) with
            | none =>
                obtain rfl : rest2 = [] := (text_or_cr_of_lineSize hsecond).resolve_left (by
                  rintro ⟨h10, h13⟩
                  exact hc2.elim h10 h13)
                refine ⟨.pending, rfl, ?_⟩
                rw [← hdrop2, ← hdrop'] at hsecond
                rw [ScanStep.Tells, hdrop, eventEnd_one hsize hsecond, hdrop', hdrop2,
                  eventEnd_singleton, Option.map_none]
            | some m =>
                refine ⟨.event (pos + n + m), rfl, ?_⟩
                rw [← hdrop2, ← hdrop'] at hsecond
                rw [ScanStep.Tells, hdrop, eventEnd_two hsize hsecond, Nat.add_assoc,
                  Nat.add_sub_cancel_left]
          · rw [if_neg hc2]
            refine ⟨_, rfl, hskip ?_⟩
            rw [hdrop2]
            obtain ⟨h10, h13⟩ := not_or.mp hc2
            simp [lineSize, h10, h13]
        · rw [if_neg hend]
          refine ⟨_, rfl, hskip ?_⟩
          rw [w.len_eq] at hend
          rw [List.drop_eq_nil_of_le (Nat.not_lt.mp hend)]
          rfl

theorem scanFrom_eq (limit pos : ℕ) (ends : List ℕ) :
    w.scanFrom limit pos ends =
      if pos < w.len then
        (match w.scanStep pos with
        | none => none
        | some .pending => some ends
        | some (.skip next) => w.scanFrom limit next ends
        | some (.event last) =>
            if 0 < limit ∧ limit ≤ ends.length + 1 then some (ends ++ [last])
            else w.scanFrom limit last (ends ++ [last]))
      else some ends := by
  rw [scanFrom]
  split
  · cases w.scanStep pos with
    | none => rfl
    | some step => cases step <;> rfl
  · rfl

/-- Where the given events end, the first of which starts at an offset. -/
def offsets : ℕ → List GoString → List ℕ
  | _, [] => []
  | pos, event :: events => (pos + event.length) :: offsets (pos + event.length) events

/-- What a scan with a limit finds of the ends of events. -/
def limited (limit found : ℕ) (ends : List ℕ) : List ℕ :=
  if limit = 0 then ends else ends.take (limit - found)

theorem offsets_of_some {all : GoString} {pos n : ℕ} (h : eventEnd false (all.drop pos) = some n) :
    offsets pos (splitEvents false (all.drop pos)).1 =
      (pos + n) :: offsets (pos + n) (splitEvents false (all.drop (pos + n))).1 := by
  have hlen : ((all.drop pos).take n).length = n :=
    List.length_take_of_le (eventEnd_bounds h).2
  rw [splitEvents_of_some h, offsets, hlen, List.drop_drop]

theorem scanFrom_spec (limit pos : ℕ) (ends : List ℕ) (hlimit : limit = 0 ∨ ends.length < limit) :
    w.scanFrom limit pos ends =
      some (ends ++ limited limit ends.length
        (offsets pos (splitEvents false (w.all.drop pos)).1)) := by
  induction hmeasure : w.len - pos using Nat.strongRecOn generalizing pos ends with
  | _ measure ih =>
      rw [scanFrom_eq]
      by_cases hpos : pos < w.len
      · rw [if_pos hpos]
        obtain ⟨step, hstep, htells⟩ := w.scanStep_tells hpos
        have hfrom := scanStep_from hstep
        rw [hstep]
        cases step with
        | pending => simp [splitEvents_of_none htells, offsets, limited]
        | skip next =>
            obtain ⟨hnext, hend⟩ := htells
            have hlt : pos < next := hfrom
            have hoffsets : offsets next (splitEvents false (w.all.drop next)).1 =
                offsets pos (splitEvents false (w.all.drop pos)).1 := by
              cases hfirst : eventEnd false (w.all.drop next) with
              | none =>
                  rw [hfirst, Option.map_none] at hend
                  rw [splitEvents_of_none hfirst, splitEvents_of_none hend]
                  rfl
              | some n =>
                  rw [hfirst, Option.map_some] at hend
                  rw [offsets_of_some hfirst, offsets_of_some hend,
                    show pos + (n + (next - pos)) = next + n by omega]
            rw [← hoffsets]
            exact ih (w.len - next) (by omega) next ends hlimit rfl
        | event last =>
            have hlt : pos < last := hfrom
            rw [offsets_of_some htells, show pos + (last - pos) = last by omega]
            have hmore : ∀ hlimit' : limit = 0 ∨ (ends ++ [last]).length < limit, _ :=
              fun hlimit' => ih (w.len - last) (by omega) last (ends ++ [last]) hlimit' rfl
            simp only [List.length_append, List.length_singleton] at hmore
            dsimp only
            by_cases hstop : 0 < limit ∧ limit ≤ ends.length + 1
            · rw [if_pos hstop, limited, if_neg (by omega), show limit - ends.length = 1 by omega]
              rfl
            · rw [if_neg hstop, hmore (by omega), limited, limited]
              by_cases hzero : limit = 0
              · simp [hzero]
              · rw [if_neg hzero, if_neg hzero,
                  show limit - ends.length = limit - (ends.length + 1) + 1 by omega]
                simp
      · rw [if_neg hpos, List.drop_eq_nil_of_le (by rw [← w.len_eq]; omega),
          splitEvents_of_none (eventEnd_nil _)]
        simp [offsets, limited]

/-- All events of the window. -/
theorem scanEventEnds_zero : w.scanEventEnds 0 = some (offsets 0 (splitEvents false w.all).1) := by
  rw [scanEventEnds, w.scanFrom_spec 0 0 [] (.inl rfl)]
  simp [limited]

/-- The first event of the window. -/
theorem scanEventEnds_one : w.scanEventEnds 1 = some (eventEnd false w.all).toList := by
  rw [scanEventEnds, w.scanFrom_spec 1 0 [] (.inr Nat.zero_lt_one)]
  cases hend : eventEnd false w.all with
  | none => simp [splitEvents_of_none hend, offsets, limited]
  | some n =>
      have hoffsets := @offsets_of_some w.all 0 n (by simpa using hend)
      rw [hoffsets]
      simp [limited]

/-! ### Slices -/

theorem slice_eq {s : GoString} {i j : ℕ} (hij : i ≤ j) (hj : j ≤ s.length) :
    slice s i j = some ((s.take j).drop i) := if_pos ⟨hij, hj⟩

theorem sliceRange_eq {start stop : ℕ} (hle : start ≤ stop) (hstop : stop ≤ w.len) :
    w.sliceRange start stop = some ((w.all.take stop).drop start) := by
  rw [len] at hstop
  rw [sliceRange, if_neg (by omega), all]
  by_cases hstart : w.a.length ≤ start
  · rw [if_pos hstart, slice_eq (by omega) (by omega)]
    congr 1
    rw [List.take_append, List.drop_append, List.take_of_length_le (by omega : w.a.length ≤ stop),
      List.drop_eq_nil_of_le hstart, List.nil_append]
  · rw [if_neg hstart]
    by_cases hin : stop ≤ w.a.length
    · rw [if_pos hin, slice_eq hle hin, List.take_append_of_le_length hin]
    · rw [if_neg hin, slice_eq (by omega) le_rfl, Option.bind_some, slice_eq (by omega) (by omega),
        Option.map_some]
      congr 1
      rw [List.take_append, List.drop_append_of_le_length (by rw [List.length_take]; omega),
        List.take_of_length_le (by omega : w.a.length ≤ stop), List.take_length, List.drop_zero]

theorem lastBytes_eq {start k : ℕ} (hstart : start ≤ w.len) :
    w.lastBytes start k = some (w.all.drop (max (w.len - k) start)) := by
  rw [lastBytes, w.sliceRange_eq (by omega) le_rfl, w.len_eq, List.take_length]

end SseByteWindow

/-! ### One callback -/

namespace SseFramer

open SseByteWindow

theorem add_length_le_of_drop {s event rest : GoString} {pos : ℕ} (h : s.drop pos = event ++ rest)
    (hpos : pos ≤ s.length) : pos + event.length ≤ s.length := by
  have hlen := congrArg List.length h
  simp only [List.length_drop, List.length_append] at hlen
  omega

theorem cutEvent_eq (f : SseFramer) (chunk : GoString) {pos : ℕ} {event rest : GoString}
    (h : (f.tail ++ chunk).drop pos = event ++ rest) (hpos : pos ≤ (f.tail ++ chunk).length)
    (before : List GoString) :
    f.cutEvent chunk (pos, before) (pos + event.length) = some (pos + event.length, before ++ [event]) := by
  have hlen : pos + event.length ≤ (SseByteWindow.mk f.tail chunk).len := by
    rw [len_eq]
    exact add_length_le_of_drop h hpos
  have hslice := sliceRange_eq ⟨f.tail, chunk⟩ (Nat.le_add_right pos event.length) hlen
  have hevent : ((f.tail ++ chunk).take (pos + event.length)).drop pos = event := by
    rw [List.drop_take, h, Nat.add_sub_cancel_left, List.take_left]
  rw [cutEvent]
  -- inside the chunk the slice is the same, taken directly
  have hsame : (if f.tail.length ≤ pos then
      slice chunk (pos - f.tail.length) (pos + event.length - f.tail.length)
      else (SseByteWindow.mk f.tail chunk).sliceRange pos (pos + event.length)) = some event := by
    split
    · rename_i hin
      rw [sliceRange, if_neg (by omega), if_pos hin] at hslice
      rw [hslice, all, hevent]
    · rw [hslice, all, hevent]
  dsimp only
  rw [hsame, Option.map_some]

theorem foldlM_cutEvent (f : SseFramer) (chunk : GoString) (events : List GoString) {pos : ℕ}
    {rest : GoString} (h : (f.tail ++ chunk).drop pos = events.flatten ++ rest)
    (hpos : pos ≤ (f.tail ++ chunk).length) (before : List GoString) :
    (offsets pos events).foldlM (f.cutEvent chunk) (pos, before) =
      some (pos + events.flatten.length, before ++ events) := by
  induction events generalizing pos before with
  | nil => simp [offsets]
  | cons event events ih =>
      rw [List.flatten_cons, List.append_assoc] at h
      have hnext : (f.tail ++ chunk).drop (pos + event.length) = events.flatten ++ rest := by
        rw [← List.drop_drop, h, List.drop_left]
      have hle := add_length_le_of_drop h hpos
      rw [offsets, List.foldlM_cons, f.cutEvent_eq chunk h hpos before]
      refine (ih hnext hle _).trans ?_
      rw [List.flatten_cons, List.length_append, Nat.add_assoc, List.append_assoc]
      rfl

/-- What is left of a body when more than the cap would have to be kept. -/
def carryOf (rest : GoString) : GoString := rest.drop (rest.length - (maxSSEDelimiterBytes - 1))

theorem frame_eq (f : SseFramer) (chunk : GoString) :
    let split := splitEvents false (f.tail ++ chunk)
    f.frame chunk = some (split.1,
      if split.2.length ≤ maxIncompleteSSEEventBytes then { f with tail := split.2 }
      else { f with
        tail := []
        resyncing := true
        resyncCarry := carryOf split.2
        overflowCount := f.overflowCount + 1 }) := by
  intro split
  have hall : split.1.flatten ++ split.2 = f.tail ++ chunk := flatten_splitEvents false _
  have hlen : (SseByteWindow.mk f.tail chunk).len = split.1.flatten.length + split.2.length := by
    rw [len_eq, all, ← hall, List.length_append]
  have hcut := @foldlM_cutEvent f chunk split.1 0 split.2 (by simpa using hall.symm) (Nat.zero_le _) []
  rw [Nat.zero_add, List.nil_append] at hcut
  rw [frame]
  dsimp only
  rw [scanEventEnds_zero, Option.bind_some]
  simp only [all]
  rw [hcut, Option.bind_some]
  dsimp only
  rw [hlen, Nat.add_sub_cancel_left]
  have hrest : (f.tail ++ chunk).drop split.1.flatten.length = split.2 := by
    rw [← hall, List.drop_left]
  by_cases hzero : split.2.length = 0
  · have hnil := List.length_eq_zero_iff.mp hzero
    rw [if_pos hzero, if_pos (by omega), hnil]
  · rw [if_neg hzero]
    by_cases hcap : split.2.length ≤ maxIncompleteSSEEventBytes
    · rw [if_pos hcap, if_pos hcap, sliceRange_eq _ (by omega) (by omega), Option.map_some, ← hlen,
        len_eq, List.take_length, all, hrest]
    · rw [if_neg hcap, if_neg hcap, lastBytes_eq _ (by omega), Option.map_some]
      have hcarry : (SseByteWindow.mk f.tail chunk).all.drop
          (max ((SseByteWindow.mk f.tail chunk).len - (maxSSEDelimiterBytes - 1))
            split.1.flatten.length) = carryOf split.2 := by
        have hmax : max ((SseByteWindow.mk f.tail chunk).len - (maxSSEDelimiterBytes - 1))
            split.1.flatten.length =
              split.1.flatten.length + (split.2.length - (maxSSEDelimiterBytes - 1)) := by
          simp only [maxSSEDelimiterBytes, maxIncompleteSSEEventBytes] at hcap ⊢
          omega
        rw [hmax, ← List.drop_drop, all, hrest, carryOf]
      rw [hcarry]

theorem resync_eq (f : SseFramer) (chunk : GoString) (h : eventEnd false f.resyncCarry = none) :
    f.resync chunk = some (match eventEnd false (f.resyncCarry ++ chunk) with
      | none => ({ f with resyncCarry := carryOf (f.resyncCarry ++ chunk) }, none)
      | some n => ({ f with resyncing := false, resyncCarry := [], tail := [] },
          some ((f.resyncCarry ++ chunk).drop n))) := by
  rw [resync]
  dsimp only
  rw [scanEventEnds_one, Option.bind_some]
  simp only [all]
  cases hend : eventEnd false (f.resyncCarry ++ chunk) with
  | none =>
      simp only [Option.toList_none]
      rw [lastBytes_eq _ (Nat.zero_le _), Option.map_some, Nat.max_zero, len_eq]
      rfl
  | some n =>
      have hle := le_of_eventEnd_append h hend
      have hn := (eventEnd_bounds hend).2
      rw [List.length_append] at hn
      simp only [Option.toList_some]
      by_cases hlt : f.resyncCarry.length < n
      · rw [if_pos hlt, slice_eq (by omega) le_rfl, Option.map_some, List.take_length,
          List.drop_append, List.drop_eq_nil_of_le hle, List.nil_append]
      · have heq : n = f.resyncCarry.length := by omega
        rw [if_neg hlt, heq, List.drop_left]

/-- What the framer keeps of the bytes behind the last event: all of them, or their end
once they have been dropped. -/
inductive Keeps (rest : GoString) : SseFramer → Prop
  | framing {f : SseFramer} (hresyncing : f.resyncing = false) (htail : f.tail = rest)
      (hcap : rest.length ≤ maxIncompleteSSEEventBytes) (hcarry : f.resyncCarry = []) : Keeps rest f
  | resyncing {f : SseFramer} (hresyncing : f.resyncing = true) (htail : f.tail = [])
      (hlen : 3 ≤ rest.length) (hcarry : f.resyncCarry = carryOf rest) : Keeps rest f

theorem length_carryOf {rest : GoString} (h : 3 ≤ rest.length) : (carryOf rest).length = 3 := by
  simp only [carryOf, maxSSEDelimiterBytes, List.length_drop]
  omega

/-- The end of a longer body can be taken from the end of its end. -/
theorem carryOf_append {rest : GoString} (h : 3 ≤ rest.length) (chunk : GoString) :
    carryOf (carryOf rest ++ chunk) = carryOf (rest ++ chunk) := by
  have hsplit : rest ++ chunk =
      rest.take (rest.length - (maxSSEDelimiterBytes - 1)) ++ (carryOf rest ++ chunk) := by
    rw [carryOf, ← List.append_assoc, List.take_append_drop]
  have hlen := length_carryOf h
  conv_rhs => rw [carryOf, hsplit]
  rw [List.drop_append, List.drop_eq_nil_of_le, List.nil_append, carryOf]
  · congr 1
    simp only [List.length_append, List.length_take, hlen, maxSSEDelimiterBytes]
    omega
  · simp only [List.length_append, List.length_take, hlen, maxSSEDelimiterBytes]
    omega

/-- One frame from a tail. -/
theorem keeps_frame {f : SseFramer} (hresyncing : f.resyncing = false) (hcarry : f.resyncCarry = [])
    (chunk : GoString) :
    let split := splitEvents false (f.tail ++ chunk)
    ∃ f', f.frame chunk = some (split.1, f') ∧ Keeps split.2 f' ∧
      (f'.resyncing = true ↔ maxIncompleteSSEEventBytes < split.2.length) := by
  intro split
  refine ⟨_, f.frame_eq chunk, ?_⟩
  by_cases hcap : split.2.length ≤ maxIncompleteSSEEventBytes
  · rw [if_pos hcap]
    exact ⟨.framing hresyncing rfl hcap hcarry, by simp [hresyncing, hcap]⟩
  · rw [if_neg hcap]
    have hlen : 3 ≤ split.2.length := by
      rw [maxIncompleteSSEEventBytes] at hcap
      omega
    exact ⟨.resyncing rfl rfl hlen rfl, by simpa using hcap⟩

/-- One callback: the events of the chunk are emitted, without the one that is being
dropped. -/
theorem keeps_frameCallback {f : SseFramer} {rest : GoString} (hrest : eventEnd false rest = none)
    (h : Keeps rest f) (chunk : GoString) :
    let split := splitEvents false (rest ++ chunk)
    ∃ f', f.frameCallback chunk = some (if f.resyncing then split.1.drop 1 else split.1, f') ∧
      Keeps split.2 f' ∧
      (f'.resyncing = true ↔
        (f.resyncing = true ∧ split.1 = []) ∨ maxIncompleteSSEEventBytes < split.2.length) := by
  intro split
  rw [frameCallback]
  cases h with
  | framing hresyncing htail hcap hcarry =>
      subst htail
      obtain ⟨f', hf', hkeeps, hiff⟩ := keeps_frame hresyncing hcarry chunk
      rw [hresyncing]
      exact ⟨f', hf', hkeeps, hiff.trans (by simp [split])⟩
  | resyncing hresyncing htail hlen hcarry =>
      obtain ⟨p, hwhole⟩ : ∃ p, p ++ carryOf rest = rest := ⟨_, List.take_append_drop _ _⟩
      have hbody : rest ++ chunk = p ++ (carryOf rest ++ chunk) := by
        rw [← List.append_assoc, hwhole]
      obtain ⟨hnone, hend⟩ := eventEnd_of_suffix (p := p) (u := carryOf rest)
        (by rw [length_carryOf hlen]; omega) (by rwa [hwhole]) chunk
      rw [hwhole] at hend
      rw [if_pos hresyncing, f.resync_eq chunk (by rwa [hcarry]), Option.bind_some, hcarry, hresyncing]
      cases hfirst : eventEnd false (carryOf rest ++ chunk) with
      | none =>
          rw [hfirst, Option.map_none] at hend
          have hsplit : split = ([], rest ++ chunk) := splitEvents_of_none hend
          rw [hsplit]
          refine ⟨_, rfl, ?_, by simp⟩
          refine .resyncing rfl htail ?_ (carryOf_append hlen chunk)
          rw [List.length_append]
          omega
      | some n =>
          rw [hfirst, Option.map_some] at hend
          have hdrop : (rest ++ chunk).drop (n + p.length) = (carryOf rest ++ chunk).drop n := by
            rw [hbody, Nat.add_comm, ← List.drop_drop, List.drop_left]
          have hsplit := splitEvents_of_some hend
          rw [hdrop] at hsplit
          obtain ⟨f', hf', hkeeps, hiff⟩ := @keeps_frame
            { f with resyncing := false, resyncCarry := [], tail := [] } rfl rfl
            ((carryOf rest ++ chunk).drop n)
          simp only [split, hsplit]
          refine ⟨f', hf', hkeeps, hiff.trans ?_⟩
          simp

/-! ### Runs -/

/-- At the end of some callback the event with a number was not complete, and longer than
the cap. -/
def overflowed (chunks : List GoString) (k : ℕ) : Bool :=
  chunks.inits.any fun before =>
    (splitEvents false before.flatten).1.length == k &&
      maxIncompleteSSEEventBytes < (splitEvents false before.flatten).2.length

/-- The events that have not overflowed; the first of them has the number `k`. -/
def kept (chunks : List GoString) (k : ℕ) (events : List GoString) : List GoString :=
  ((events.zipIdx k).filter fun event => !overflowed chunks event.2).map Prod.fst

variable (chunks : List GoString) (chunk : GoString)

theorem overflowed_snoc (k : ℕ) :
    overflowed (chunks ++ [chunk]) k =
      (overflowed chunks k ||
        ((splitEvents false (chunks ++ [chunk]).flatten).1.length == k &&
          maxIncompleteSSEEventBytes < (splitEvents false (chunks ++ [chunk]).flatten).2.length)) := by
  rw [Bool.eq_iff_iff, Bool.or_eq_true, overflowed, overflowed, List.any_eq_true, List.any_eq_true]
  simp only [List.mem_inits, List.prefix_concat_iff]
  constructor
  · rintro ⟨before, rfl | hbefore, hk⟩
    · exact .inr hk
    · exact .inl ⟨before, hbefore, hk⟩
  · rintro (⟨before, hbefore, hk⟩ | hk)
    · exact ⟨before, .inr hbefore, hk⟩
    · exact ⟨_, .inl rfl, hk⟩

/-- More callbacks have more events. -/
theorem splitEvents_flatten_snoc :
    splitEvents false (chunks ++ [chunk]).flatten =
      ((splitEvents false chunks.flatten).1 ++
        (splitEvents false ((splitEvents false chunks.flatten).2 ++ chunk)).1,
        (splitEvents false ((splitEvents false chunks.flatten).2 ++ chunk)).2) := by
  rw [List.flatten_append, List.flatten_singleton, splitEvents_append]

/-- Events that have not begun have not overflowed. -/
theorem overflowed_eq_false {k : ℕ} (hk : (splitEvents false chunks.flatten).1.length < k) :
    overflowed chunks k = false := by
  induction chunks using List.reverseRecOn with
  | nil =>
      rw [List.flatten_nil, splitEvents_of_none (eventEnd_nil _)] at hk
      simp [overflowed, splitEvents_of_none (eventEnd_nil _)]
  | append_singleton chunks chunk ih =>
      have hmore := congrArg (fun split => split.1.length) (splitEvents_flatten_snoc chunks chunk)
      simp only [List.length_append] at hmore
      rw [overflowed_snoc, ih (by omega), Bool.false_or, Bool.and_eq_false_iff]
      left
      simp only [beq_eq_false_iff_ne]
      omega

theorem kept_append (k : ℕ) (events events' : List GoString) :
    kept chunks k (events ++ events') =
      kept chunks k events ++ kept chunks (k + events.length) events' := by
  simp only [kept, List.zipIdx_append, List.filter_append, List.map_append]

theorem kept_cons (k : ℕ) (event : GoString) (events : List GoString) :
    kept chunks k (event :: events) =
      (if overflowed chunks k then [] else [event]) ++ kept chunks (k + 1) events := by
  rw [kept, List.zipIdx_cons, List.filter_cons]
  by_cases h : overflowed chunks k
  · simp [h, kept]
  · simp [h, kept]

variable {chunks}

theorem kept_congr {chunks' : List GoString} {k : ℕ} {events : List GoString}
    (h : ∀ j < events.length, overflowed chunks' (k + j) = overflowed chunks (k + j)) :
    kept chunks' k events = kept chunks k events := by
  induction events generalizing k with
  | nil => rfl
  | cons event events ih =>
      have hfirst := h 0 (by simp)
      rw [Nat.add_zero] at hfirst
      rw [kept_cons, kept_cons, hfirst, ih]
      intro j hj
      rw [Nat.add_assoc, Nat.add_comm 1 j]
      exact h (j + 1) (by simpa using hj)

theorem kept_eq_self {k : ℕ} {events : List GoString}
    (h : ∀ j < events.length, overflowed chunks (k + j) = false) : kept chunks k events = events := by
  induction events generalizing k with
  | nil => rfl
  | cons event events ih =>
      have hfirst := h 0 (by simp)
      rw [Nat.add_zero] at hfirst
      rw [kept_cons, hfirst, ih]
      · rfl
      · intro j hj
        rw [Nat.add_assoc, Nat.add_comm 1 j]
        exact h (j + 1) (by simpa using hj)

/-- What a callback adds to the events that are kept. -/
theorem kept_snoc :
    let split := splitEvents false chunks.flatten
    let next := splitEvents false (split.2 ++ chunk)
    kept (chunks ++ [chunk]) 0 (splitEvents false (chunks ++ [chunk]).flatten).1 =
      kept chunks 0 split.1 ++ if overflowed chunks split.1.length then next.1.drop 1 else next.1 := by
  intro split next
  have htotal : (splitEvents false (chunks ++ [chunk]).flatten).1 = split.1 ++ next.1 :=
    congrArg Prod.fst (splitEvents_flatten_snoc chunks chunk)
  -- the events that are complete now do not overflow any more
  have hcomplete : ∀ k < (split.1 ++ next.1).length,
      overflowed (chunks ++ [chunk]) k = overflowed chunks k := by
    intro k hk
    rw [overflowed_snoc, htotal, beq_false_of_ne (by omega), Bool.false_and, Bool.or_false]
  have hbegun : ∀ k, split.1.length < k → overflowed chunks k = false := fun k hk =>
    overflowed_eq_false chunks hk
  rw [htotal, kept_append, Nat.zero_add, List.length_append] at *
  congr 1
  · exact kept_congr fun j hj => by rw [Nat.zero_add, hcomplete j (by omega)]
  · rw [kept_congr fun j hj => hcomplete (split.1.length + j) (by omega)]
    cases hnext : next.1 with
    | nil => simp [kept]
    | cons event events =>
        rw [kept_cons, kept_eq_self fun j _ => hbegun _ (by omega)]
        split
        · rfl
        · rfl

theorem run_snoc (chunks : List GoString) :
    run (chunks ++ [chunk]) =
      (run chunks).bind fun left =>
        (left.2.frameCallback chunk).map fun next => (left.1 ++ next.1, next.2) := by
  rw [run, List.foldlM_append]
  simp [run]

theorem run_kept (chunks : List GoString) :
    let split := splitEvents false chunks.flatten
    ∃ f, run chunks = some (kept chunks 0 split.1, f) ∧ Keeps split.2 f ∧
      f.resyncing = overflowed chunks split.1.length := by
  intro split
  induction chunks using List.reverseRecOn with
  | nil =>
      have hsplit : split = ([], []) := splitEvents_of_none (eventEnd_nil _)
      rw [hsplit]
      refine ⟨{}, rfl, .framing rfl rfl (Nat.zero_le _) rfl, ?_⟩
      simp [overflowed, splitEvents_of_none (eventEnd_nil _)]
  | append_singleton chunks chunk ih =>
      obtain ⟨f, hrun, hkeeps, hresyncing⟩ := ih
      obtain ⟨f', hcallback, hkeeps', hiff⟩ :=
        keeps_frameCallback (eventEnd_rest false chunks.flatten) hkeeps chunk
      have hsplit : split = _ := splitEvents_flatten_snoc chunks chunk
      refine ⟨f', ?_, ?_, ?_⟩
      · rw [run_snoc, hrun, Option.bind_some, hcallback, Option.map_some, hresyncing, ← kept_snoc]
      · rw [hsplit]
        exact hkeeps'
      · rw [Bool.eq_iff_iff, hiff, overflowed_snoc, splitEvents_flatten_snoc, hsplit, hresyncing]
        simp only [List.length_append, Bool.or_eq_true, Bool.and_eq_true, beq_self_eq_true, true_and,
          decide_eq_true_eq]
        cases hnext : (splitEvents false ((splitEvents false chunks.flatten).2 ++ chunk)).1 with
        | nil => simp
        | cons event events =>
            have hnew : overflowed chunks
                ((splitEvents false chunks.flatten).1.length + (event :: events).length) = false :=
              overflowed_eq_false chunks (by simp)
            rw [hnew]
            simp

/-- Framing. Whatever the chunks of a body, no access is out of range, and the events
emitted are those of the body, in order, except the ones that overflowed. What is flushed
is what is left of the body, unless it has overflowed. After every callback, the tail is
at most as long as the cap and the carry at most three bytes. -/
theorem run_frames (chunks : List GoString) :
    let split := splitEvents false chunks.flatten
    ∃ f, run chunks = some (kept chunks 0 split.1, f) ∧
      f.flush.1 = (if overflowed chunks split.1.length then [] else split.2) ∧
      f.tail.length ≤ maxIncompleteSSEEventBytes ∧
      f.resyncCarry.length ≤ maxSSEDelimiterBytes - 1 := by
  intro split
  obtain ⟨f, hrun, hkeeps, hresyncing⟩ := run_kept chunks
  refine ⟨f, hrun, ?_⟩
  rw [← hresyncing]
  cases hkeeps with
  | framing h htail hcap hcarry =>
      rw [h, hcarry, flush, htail]
      exact ⟨rfl, hcap, Nat.zero_le _⟩
  | resyncing h htail hlen hcarry =>
      rw [h, hcarry, flush, htail, length_carryOf hlen]
      exact ⟨rfl, Nat.zero_le _, le_rfl⟩

/-- A body whose last event ends with a CR that is its last byte: the event is not
emitted, only flushed. -/
theorem last_cr_not_emitted :
    let body := bytes "a\n\r"
    (splitEvents true body).1 = [body] ∧
      (run [body]).map (fun left => (left.1, left.2.flush.1)) = some ([], body) := by
  decide +kernel

/-- The events of a body and what is left of it are within the cap. -/
def Fits (body : GoString) : Prop :=
  ∀ part ∈ (splitEvents false body).2 :: (splitEvents false body).1,
    part.length ≤ maxIncompleteSSEEventBytes

theorem overflowed_of_fits {chunks : List GoString} (hfits : Fits chunks.flatten) (k : ℕ) :
    overflowed chunks k = false := by
  induction chunks using List.reverseRecOn with
  | nil => simp [overflowed, splitEvents_of_none (eventEnd_nil _)]
  | append_singleton chunks chunk ih =>
      have hrest := hfits _ List.mem_cons_self
      rw [overflowed_snoc, decide_eq_false (by omega), Bool.and_false, Bool.or_false]
      rw [Fits, splitEvents_flatten_snoc] at hfits
      rw [splitEvents_flatten_snoc] at hrest
      refine ih (List.forall_mem_cons.mpr ⟨?_, fun event hevent => hfits event (by simp [hevent])⟩)
      -- what was left before is in the first event behind it, or is left still
      cases hend : eventEnd false ((splitEvents false chunks.flatten).2 ++ chunk) with
      | none =>
          rw [splitEvents_of_none hend, List.length_append] at hrest
          omega
      | some n =>
          have hle := le_of_eventEnd_append (eventEnd_rest false chunks.flatten) hend
          have hfirst := hfits (((splitEvents false chunks.flatten).2 ++ chunk).take n)
            (by simp [splitEvents_of_some hend])
          rw [List.length_take, Nat.min_eq_left (eventEnd_bounds hend).2] at hfirst
          omega

/-- A body within the cap gives the same events and the same rest, however it is cut. -/
theorem run_any_cut (body : GoString) (hfits : Fits body) (chunks : List GoString)
    (hchunks : chunks.flatten = body) :
    ∃ f, run chunks = some ((splitEvents false body).1, f) ∧ f.flush.1 = (splitEvents false body).2 := by
  subst hchunks
  have hnone := overflowed_of_fits hfits
  obtain ⟨f, hrun, hkeeps, hresyncing⟩ := run_kept chunks
  rw [kept_eq_self fun j _ => hnone _] at hrun
  rw [hnone] at hresyncing
  refine ⟨f, hrun, ?_⟩
  cases hkeeps with
  | framing _ htail _ _ => rw [flush, htail]
  | resyncing h _ _ _ => simp [h] at hresyncing

/-- Two chunks that are cut inside of a blank line. -/
theorem run_any_cut_sample :
    ∃ f, run [bytes "a\n", bytes "\nb"] = some ([bytes "a\n\n"], f) ∧ f.flush.1 = bytes "b" := by
  have hsplit : splitEvents false (bytes "a\n\nb") = ([bytes "a\n\n"], bytes "b") := by decide +kernel
  have h := run_any_cut (bytes "a\n\nb") (by rw [Fits, hsplit]; decide) [bytes "a\n", bytes "\nb"] rfl
  rwa [hsplit] at h

end SseFramer

end Higress.AiProxy
