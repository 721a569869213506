import Mathlib.Data.Int.Notation
import Mathlib.Data.List.Basic
import Mathlib.Data.List.Infix
import Mathlib.Data.List.TakeWhile
import Higress.Lib.GoString

/-!
How the events of a streaming response are extracted (`ExtractStreamingEvents` in
`ai-proxy/provider/provider.go`). Each callback is given a chunk, reads it behind what is left of
an event from the callbacks before, and keeps what is left of an event again. One loop goes over
the bytes and keeps the indices at which the event, the line and the value of the line start.

Every access to the buffer can fail, so that a run that is `some` has stayed in range. The loop
does what a reader does that keeps the texts instead of the indices, and what a reader has read of
an event is what a callback leaves for the next one.
-/

namespace Higress.AiProxy.StreamEvents

open Lib

/-! ### The events -/

structure StreamEvent where
  rawEvent : GoString := []
  id : GoString := []
  event : GoString := []
  data : GoString := []
  httpStatus : GoString := []
  deriving DecidableEq

def streamEventIdItemKey : GoString := bytes "id:"
def streamEventNameItemKey : GoString := bytes "event:"
def streamBuiltInItemKey : GoString := bytes ":"
def streamHttpStatusValuePrefix : GoString := bytes "HTTP_STATUS/"
def streamDataItemKey : GoString := bytes "data:"

/-- `SetValue`. -/
def StreamEvent.setValue (e : StreamEvent) (key value : GoString) : StreamEvent :=
  if key = streamEventIdItemKey then { e with id := value }
  else if key = streamEventNameItemKey then { e with event := value }
  else if key = streamDataItemKey then { e with data := value }
  else if key = streamBuiltInItemKey then
    if Strings.startsWith value streamHttpStatusValuePrefix then
      { e with httpStatus := value.drop streamHttpStatusValuePrefix.length }
    else e
  else e

/-! ### The loop -/

/-- `s[i:j]`. -/
def slice (s : GoString) (i j : ℤ) : Option GoString :=
  if 0 ≤ i ∧ i ≤ j ∧ j ≤ s.length then some ((s.take j.toNat).drop i.toNat) else none

/-- `bytes.ReplaceAll` of CRLF by LF. -/
def replaceCRLF : GoString → GoString
  | 13 :: 10 :: s => 10 :: replaceCRLF s
  | b :: s => b :: replaceCRLF s
  | [] => []

/-- `bytes.ReplaceAll` of CR by LF. -/
def replaceCR (s : GoString) : GoString := s.map fun b => if b = 13 then 10 else b

/-- The variables of the loop. An index that is not set is -1. -/
structure ParseState where
  eventStartIndex : ℤ := -1
  lineStartIndex : ℤ := -1
  valueStartIndex : ℤ := -1
  currentKey : GoString := []
  currentEvent : StreamEvent := {}
  events : List StreamEvent := []

/-- A byte of text opens a line, and an event, if there is none. -/
def ParseState.openLine (st : ParseState) (i : ℕ) : ParseState :=
  if st.lineStartIndex = -1 then
    { st with
      eventStartIndex := if st.eventStartIndex = -1 then i else st.eventStartIndex
      lineStartIndex := i
      valueStartIndex := -1 }
  else st

/-- The loop at a byte that does not end a line. -/
def ParseState.textByte (body : GoString) (st : ParseState) (i : ℕ) (ch : UInt8) :
    Option ParseState :=
  let st := st.openLine i
  if st.valueStartIndex = -1 then
    if ch = 58 then
      (slice body st.lineStartIndex (i + 1)).map fun key =>
        { st with valueStartIndex := i + 1, currentKey := key }
    else some st
  -- Skip leading spaces in data.
  else if st.valueStartIndex = i ∧ ch = 32 then some { st with valueStartIndex := i + 1 }
  else some st

/-- The loop at the end of a line. -/
def ParseState.lineEnd (body : GoString) (st : ParseState) (i : ℕ) : Option ParseState :=
  let next :=
    if st.lineStartIndex ≠ -1 then
      (slice body st.valueStartIndex i).map fun value =>
        { st with currentEvent := st.currentEvent.setValue st.currentKey value }
    else if st.eventStartIndex ≠ -1 then
      (slice body st.eventStartIndex (i + 1)).map fun raw =>
        -- Extra new line. The current event is complete.
        { st with
          events := st.events ++ [{ st.currentEvent with rawEvent := raw }]
          eventStartIndex := -1
          currentEvent := {} }
    else some st
  next.map fun st => { st with lineStartIndex := -1, valueStartIndex := -1, currentKey := [] }

def ParseState.step (body : GoString) (st : ParseState) (i : ℕ) : Option ParseState :=
  body[i]?.bind fun ch => if ch ≠ 10 then st.textByte body i ch else st.lineEnd body i

/-- `ExtractStreamingEvents`: the events, and what is kept for the next callback. -/
def extractStreamingEvents (buffered : Option GoString) (chunk : GoString) :
    Option (List StreamEvent × Option GoString) :=
  let body := replaceCR (replaceCRLF (buffered.getD [] ++ chunk))
  ((List.range body.length).foldlM (ParseState.step body) {}).bind fun st =>
    if st.eventStartIndex ≥ 0 ∧ st.eventStartIndex < body.length then
      (slice body st.eventStartIndex body.length).map fun rest => (st.events, some rest)
    else some (st.events, none)

/-- The callbacks of a response, with all events that they have extracted. -/
def extractAll (chunks : List GoString) : Option (List StreamEvent × Option GoString) :=
  chunks.foldlM (fun acc chunk =>
    (extractStreamingEvents acc.2 chunk).map fun next => (acc.1 ++ next.1, next.2)) ([], none)

/-! ### A reader without indices -/

/-- The item key of a line, with its colon. -/
def keyOf (line : GoString) : GoString := line.takeWhile (· ≠ 58) ++ [58]

/-- What is behind the colon and the spaces after it. -/
def valueOf (line : GoString) : GoString := ((line.dropWhile (· ≠ 58)).drop 1).dropWhile (· = 32)

/-- What was read of the current event and of its current line. -/
structure Reader where
  raw : GoString := []
  line : GoString := []
  event : StreamEvent := {}
  events : List StreamEvent := []
  deriving DecidableEq

/-- A line must have a colon. -/
def Reader.read (r : Reader) (ch : UInt8) : Option Reader :=
  if ch ≠ 10 then some { r with raw := r.raw ++ [ch], line := r.line ++ [ch] }
  else if r.line ≠ [] then
    if 58 ∈ r.line then
      some { r with
        raw := r.raw ++ [10]
        line := []
        event := r.event.setValue (keyOf r.line) (valueOf r.line) }
    else none
  else if r.raw ≠ [] then
    some { events := r.events ++ [{ r.event with rawEvent := r.raw ++ [10] }] }
  else some r

section Read

variable {r : Reader}

theorem read_text {ch : UInt8} (h : ch ≠ 10) :
    r.read ch = some { r with raw := r.raw ++ [ch], line := r.line ++ [ch] } := by
  rw [Reader.read, if_pos h]

theorem read_line (hline : r.line ≠ []) (hcolon : 58 ∈ r.line) :
    r.read 10 = some { r with
      raw := r.raw ++ [10]
      line := []
      event := r.event.setValue (keyOf r.line) (valueOf r.line) } := by
  rw [Reader.read, if_neg (by simp), if_pos hline, if_pos hcolon]

theorem read_line_none (hline : r.line ≠ []) (hcolon : 58 ∉ r.line) : r.read 10 = none := by
  rw [Reader.read, if_neg (by simp), if_pos hline, if_neg hcolon]

theorem read_event (hline : r.line = []) (hraw : r.raw ≠ []) :
    r.read 10 = some { events := r.events ++ [{ r.event with rawEvent := r.raw ++ [10] }] } := by
  rw [Reader.read, if_neg (by simp), if_neg (not_not.mpr hline), if_pos hraw]

/-- A blank line that ends no event. -/
theorem read_blank (hline : r.line = []) (hraw : r.raw = []) : r.read 10 = some r := by
  rw [Reader.read, if_neg (by simp), if_neg (not_not.mpr hline), if_neg (not_not.mpr hraw)]

end Read

theorem keyOf_append {line : GoString} (h : 58 ∈ line) (ch : UInt8) :
    keyOf (line ++ [ch]) = keyOf line := by
  rw [keyOf, keyOf, List.takeWhile_append, if_neg]
  intro hlen
  have hall := List.takeWhile_eq_self_iff.mp (List.IsPrefix.eq_of_length (List.takeWhile_prefix _) hlen)
  simpa using hall 58 h

theorem keyOf_append_colon {line : GoString} (h : 58 ∉ line) : keyOf (line ++ [58]) = line ++ [58] := by
  have hself : line.takeWhile (fun b => decide (b ≠ 58)) = line := by
    apply List.takeWhile_eq_self_iff.mpr
    intro b hb
    have hne : b ≠ 58 := fun heq => h (heq ▸ hb)
    simpa using hne
  rw [keyOf, List.takeWhile_append, if_pos (by rw [hself])]
  simp

theorem valueOf_append_colon {line : GoString} (h : 58 ∉ line) : valueOf (line ++ [58]) = [] := by
  have hnil : line.dropWhile (fun b => decide (b ≠ 58)) = [] := by
    apply List.dropWhile_eq_nil_iff.mpr
    intro b hb
    have hne : b ≠ 58 := fun heq => h (heq ▸ hb)
    simpa using hne
  rw [valueOf, List.dropWhile_append, hnil]
  simp

/-- The spaces behind the colon are skipped. -/
theorem valueOf_append {line : GoString} (h : 58 ∈ line) (ch : UInt8) :
    valueOf (line ++ [ch]) =
      if valueOf line = [] ∧ ch = 32 then [] else valueOf line ++ [ch] := by
  have hne : (line.dropWhile (fun b => decide (b ≠ 58))) ≠ [] := by
    intro hnil
    simpa using List.dropWhile_eq_nil_iff.mp hnil 58 h
  have hdrop : ((line ++ [ch]).dropWhile (fun b => decide (b ≠ 58))).drop 1 =
      (line.dropWhile (fun b => decide (b ≠ 58))).drop 1 ++ [ch] := by
    rw [List.dropWhile_append, if_neg (by simpa using hne)]
    exact List.drop_append_of_le_length (List.length_pos_of_ne_nil hne)
  rw [valueOf, hdrop, List.dropWhile_append, ← valueOf]
  by_cases hvalue : valueOf line = []
  · by_cases hch : ch = 32
    · simp [hvalue, hch]
    · simp [hvalue, hch]
  · simp [hvalue]

theorem valueOf_suffix (line : GoString) : valueOf line <:+ line :=
  ((List.dropWhile_suffix _).trans (List.drop_suffix _ _)).trans (List.dropWhile_suffix _)

/-! ### The loop is the reader -/

/-- Texts that end at an index are what the loop slices. -/
theorem slice_of_suffix {body t : GoString} {j : ℕ} (hj : j ≤ body.length)
    (h : t <:+ body.take j) : slice body ((j : ℤ) - t.length) j = some t := by
  obtain ⟨a, ha⟩ := h
  have hlen : a.length + t.length = j := by
    rw [← List.length_append, ha, List.length_take, Nat.min_eq_left hj]
  have hsub : ((j : ℤ) - t.length).toNat = a.length := by omega
  rw [slice, if_pos (by omega), hsub, Int.toNat_natCast, ← ha, List.drop_left]

/-- The indices of the loop before byte `i` are where the texts of the reader start. -/
structure Sim (body : GoString) (i : ℕ) (st : ParseState) (r : Reader) : Prop where
  raw : r.raw <:+ body.take i
  line : r.line <:+ r.raw
  eventStart : st.eventStartIndex = if r.raw = [] then -1 else (i : ℤ) - r.raw.length
  lineStart : st.lineStartIndex = if r.line = [] then -1 else (i : ℤ) - r.line.length
  valueStart : r.line ≠ [] →
    st.valueStartIndex = if 58 ∈ r.line then (i : ℤ) - (valueOf r.line).length else -1
  key : st.currentKey = if 58 ∈ r.line then keyOf r.line else []
  event : st.currentEvent = r.event
  events : st.events = r.events

theorem suffix_take_succ {body t : GoString} {i : ℕ} {ch : UInt8} (hch : body[i]? = some ch)
    (h : t <:+ body.take i) : t ++ [ch] <:+ body.take (i + 1) := by
  obtain ⟨a, ha⟩ := h
  refine ⟨a, ?_⟩
  rw [List.take_add_one, hch, ← ha, List.append_assoc]
  rfl

/-- The text is sliced with the byte behind it. -/
theorem slice_succ {body t : GoString} {i : ℕ} {ch : UInt8} (hch : body[i]? = some ch)
    (h : t <:+ body.take i) : slice body ((i : ℤ) - t.length) (i + 1) = some (t ++ [ch]) := by
  have hi : i < body.length := (List.getElem?_eq_some_iff.mp hch).1
  have hslice := slice_of_suffix hi (suffix_take_succ hch h)
  have hstart : ((i.succ : ℕ) : ℤ) - (t ++ [ch]).length = (i : ℤ) - t.length := by
    rw [List.length_append, List.length_singleton]
    omega
  rwa [hstart] at hslice

section Sim

variable {body : GoString} {i : ℕ} {st : ParseState} {r : Reader} {ch : UInt8}

theorem Sim.raw_length_le (h : Sim body i st r) : r.raw.length ≤ i := by
  have hlen := h.raw.length_le
  rw [List.length_take] at hlen
  omega

theorem Sim.openLine (h : Sim body i st r) :
    (st.openLine i).eventStartIndex = (i : ℤ) - r.raw.length ∧
      (st.openLine i).lineStartIndex = (i : ℤ) - r.line.length ∧
      (st.openLine i).valueStartIndex =
        if 58 ∈ r.line then (i : ℤ) - (valueOf r.line).length else -1 := by
  have hlen := h.raw_length_le
  have hle := h.line.length_le
  by_cases hline : r.line = []
  · have hstart : st.lineStartIndex = -1 := by rw [h.lineStart, if_pos hline]
    rw [ParseState.openLine, if_pos hstart]
    refine ⟨?_, by simp [hline], by simp [hline]⟩
    dsimp only
    rw [h.eventStart]
    by_cases hraw : r.raw = []
    · simp [hraw]
    · rw [if_neg hraw, if_neg (by omega)]
  · have hraw : r.raw ≠ [] := by
      intro hnil
      exact hline (List.suffix_nil.mp (hnil ▸ h.line))
    have hstart : st.lineStartIndex = (i : ℤ) - r.line.length := by
      rw [h.lineStart, if_neg hline]
    rw [ParseState.openLine, if_neg (by omega)]
    exact ⟨by rw [h.eventStart, if_neg hraw], hstart, h.valueStart hline⟩

theorem openLine_currentKey : (st.openLine i).currentKey = st.currentKey := by
  rw [ParseState.openLine]
  split
  · rfl
  · rfl

theorem openLine_currentEvent : (st.openLine i).currentEvent = st.currentEvent := by
  rw [ParseState.openLine]
  split
  · rfl
  · rfl

theorem openLine_events : (st.openLine i).events = st.events := by
  rw [ParseState.openLine]
  split
  · rfl
  · rfl

/-- The reader takes a byte of text, and the loop has set the value and the key. -/
theorem Sim.append (h : Sim body i st r) (hget : body[i]? = some ch) (value : ℤ) (key : GoString)
    (hvalue : value =
      if 58 ∈ r.line ++ [ch] then ((i + 1 : ℕ) : ℤ) - (valueOf (r.line ++ [ch])).length else -1)
    (hkey : key = if 58 ∈ r.line ++ [ch] then keyOf (r.line ++ [ch]) else []) :
    Sim body (i + 1) { st.openLine i with valueStartIndex := value, currentKey := key }
      { r with raw := r.raw ++ [ch], line := r.line ++ [ch] } := by
  obtain ⟨hevent, hline, -⟩ := h.openLine
  refine ⟨suffix_take_succ hget h.raw, ?_, ?_, ?_, fun _ => hvalue, hkey, ?_, ?_⟩
  · obtain ⟨a, ha⟩ := h.line
    exact ⟨a, by rw [← ha, List.append_assoc]⟩
  · simp [hevent] <;> omega
  · simp [hline] <;> omega
  · exact openLine_currentEvent.trans h.event
  · exact openLine_events.trans h.events

theorem sim_textByte (h : Sim body i st r) (hget : body[i]? = some ch) :
    ∃ st', st.textByte body i ch = some st' ∧
      Sim body (i + 1) st' { r with raw := r.raw ++ [ch], line := r.line ++ [ch] } := by
  have hi : i < body.length := (List.getElem?_eq_some_iff.mp hget).1
  obtain ⟨-, hline, hvalue⟩ := h.openLine
  have hkey : (st.openLine i).currentKey = _ := openLine_currentKey.trans h.key
  rw [ParseState.textByte]
  by_cases hcolon : 58 ∈ r.line
  · have hcolon' : 58 ∈ r.line ++ [ch] := List.mem_append_left _ hcolon
    rw [if_pos hcolon] at hvalue hkey
    rw [← keyOf_append hcolon ch] at hkey
    have hlen := (valueOf_suffix r.line).length_le.trans (h.line.length_le.trans h.raw_length_le)
    rw [if_neg (by omega)]
    by_cases hskip : (st.openLine i).valueStartIndex = i ∧ ch = 32
    · have hnil : valueOf r.line = [] := List.length_eq_zero_iff.mp (by omega)
      rw [if_pos hskip]
      refine ⟨_, rfl, h.append hget (i + 1) (st.openLine i).currentKey ?_ ?_⟩
      · rw [if_pos hcolon', valueOf_append hcolon, if_pos ⟨hnil, hskip.2⟩]
        simp
      · rw [if_pos hcolon', hkey]
    · have hnot : ¬ (valueOf r.line = [] ∧ ch = 32) := by
        rintro ⟨hnil, rfl⟩
        exact hskip ⟨by rw [hvalue, hnil]; simp, rfl⟩
      rw [if_neg hskip]
      refine ⟨_, rfl, h.append hget (st.openLine i).valueStartIndex (st.openLine i).currentKey
        ?_ ?_⟩
      · rw [if_pos hcolon', valueOf_append hcolon, if_neg hnot, hvalue, List.length_append]
        simp <;> omega
      · rw [if_pos hcolon', hkey]
  · rw [if_neg hcolon] at hvalue hkey
    rw [if_pos hvalue]
    by_cases hch : ch = 58
    · subst hch
      have hcolon' : 58 ∈ r.line ++ [58] := by simp
      have hslice : slice body (st.openLine i).lineStartIndex (i + 1) = some (r.line ++ [58]) := by
        rw [hline]
        exact slice_succ hget (h.line.trans h.raw)
      rw [if_pos rfl, hslice]
      refine ⟨_, rfl, h.append hget (i + 1) (r.line ++ [58]) ?_ ?_⟩
      · rw [if_pos hcolon', valueOf_append_colon hcolon]
        simp
      · rw [if_pos hcolon', keyOf_append_colon hcolon]
    · have hcolon' : 58 ∉ r.line ++ [ch] := by
        simp [hcolon, Ne.symm hch]
      rw [if_neg hch]
      refine ⟨_, rfl, h.append hget (st.openLine i).valueStartIndex (st.openLine i).currentKey
        ?_ ?_⟩
      · rw [if_neg hcolon', hvalue]
      · rw [if_neg hcolon', hkey]

theorem lineEnd_of_line (h : st.lineStartIndex ≠ -1) :
    st.lineEnd body i = (slice body st.valueStartIndex i).map fun value =>
      { st with
        lineStartIndex := -1
        valueStartIndex := -1
        currentKey := []
        currentEvent := st.currentEvent.setValue st.currentKey value } := by
  rw [ParseState.lineEnd, if_pos h, Option.map_map]
  rfl

theorem lineEnd_of_event (h : st.lineStartIndex = -1) (hevent : st.eventStartIndex ≠ -1) :
    st.lineEnd body i = (slice body st.eventStartIndex (i + 1)).map fun raw =>
      { events := st.events ++ [{ st.currentEvent with rawEvent := raw }] } := by
  rw [ParseState.lineEnd, if_neg (not_not.mpr h), if_pos hevent, Option.map_map]
  rfl

theorem lineEnd_of_none (h : st.lineStartIndex = -1) (hevent : st.eventStartIndex = -1) :
    st.lineEnd body i =
      some { st with lineStartIndex := -1, valueStartIndex := -1, currentKey := [] } := by
  rw [ParseState.lineEnd, if_neg (not_not.mpr h), if_neg (not_not.mpr hevent)]
  rfl

/-- A line without a colon has no value to slice. -/
theorem sim_lineEnd_none (h : Sim body i st r) (hline : r.line ≠ []) (hcolon : 58 ∉ r.line) :
    st.lineEnd body i = none := by
  have hlen := h.raw_length_le
  have hle := h.line.length_le
  have hstart : st.lineStartIndex ≠ -1 := by
    rw [h.lineStart, if_neg hline]
    omega
  rw [lineEnd_of_line hstart, h.valueStart hline, if_neg hcolon, slice, if_neg (by omega)]
  rfl

/-- The end of a line: the loop slices the value of the line, or the whole event. -/
theorem sim_lineEnd {r' : Reader} (h : Sim body i st r) (hget : body[i]? = some 10)
    (hread : r.read 10 = some r') :
    ∃ st', st.lineEnd body i = some st' ∧ Sim body (i + 1) st' r' := by
  have hi : i < body.length := (List.getElem?_eq_some_iff.mp hget).1
  have hlen := h.raw_length_le
  have hle := h.line.length_le
  rw [Reader.read, if_neg (by simp)] at hread
  split at hread
  · rename_i hline
    split at hread
    · rename_i hcolon
      obtain rfl := Option.some.inj hread
      have hstart : st.lineStartIndex ≠ -1 := by
        rw [h.lineStart, if_neg hline]
        omega
      have hraw : r.raw ≠ [] := fun hnil => hline (List.suffix_nil.mp (hnil ▸ h.line))
      have hslice := slice_of_suffix hi.le ((valueOf_suffix r.line).trans (h.line.trans h.raw))
      rw [lineEnd_of_line hstart, h.valueStart hline, if_pos hcolon, hslice]
      refine ⟨_, rfl, suffix_take_succ hget h.raw, List.nil_suffix, ?_, by simp, by simp,
        by simp, ?_, h.events⟩
      · simp [h.eventStart, hraw] <;> omega
      · simp [h.event, h.key, hcolon]
    · cases hread
  · rename_i hline
    have hline : r.line = [] := not_not.mp hline
    have hstart : st.lineStartIndex = -1 := by rw [h.lineStart, if_pos hline]
    split at hread
    · rename_i hraw
      obtain rfl := Option.some.inj hread
      have hevent : st.eventStartIndex ≠ -1 := by
        rw [h.eventStart, if_neg hraw]
        omega
      rw [lineEnd_of_event hstart hevent, h.eventStart, if_neg hraw, slice_succ hget h.raw]
      refine ⟨_, rfl, ?_⟩
      constructor <;> simp [h.event, h.events]
    · rename_i hraw
      obtain rfl := Option.some.inj hread
      have hraw : r.raw = [] := not_not.mp hraw
      have hevent : st.eventStartIndex = -1 := by rw [h.eventStart, if_pos hraw]
      rw [lineEnd_of_none hstart hevent]
      refine ⟨_, rfl, ?_⟩
      constructor <;> simp [h.event, h.events, hraw, hline, hevent]

/-- One byte of the loop and of the reader. -/
theorem sim_step (h : Sim body i st r) (hget : body[i]? = some ch) :
    (r.read ch = none → st.step body i = none) ∧
      ∀ r', r.read ch = some r' → ∃ st', st.step body i = some st' ∧ Sim body (i + 1) st' r' := by
  rw [ParseState.step, hget, Option.bind_some]
  by_cases hch : ch = 10
  · subst hch
    rw [if_neg (by simp)]
    refine ⟨fun hread => ?_, fun r' hread => sim_lineEnd h hget hread⟩
    rw [Reader.read, if_neg (by simp)] at hread
    split at hread
    · rename_i hline
      split at hread
      · cases hread
      · rename_i hcolon
        exact sim_lineEnd_none h hline hcolon
    · split at hread
      · cases hread
      · cases hread
  · rw [if_pos hch, Reader.read, if_pos hch]
    refine ⟨by simp, fun r' hread => ?_⟩
    obtain rfl := Option.some.inj hread
    exact sim_textByte h hget

end Sim

/-- The loop over the rest of the body. -/
theorem sim_loop {body rest : GoString} {i : ℕ} {st : ParseState} {r : Reader}
    (h : Sim body i st r) (hi : i ≤ body.length) (hrest : body.drop i = rest) :
    (rest.foldlM Reader.read r = none →
      (List.range' i rest.length).foldlM (ParseState.step body) st = none) ∧
    ∀ r', rest.foldlM Reader.read r = some r' →
      ∃ st', (List.range' i rest.length).foldlM (ParseState.step body) st = some st' ∧
        Sim body body.length st' r' := by
  induction rest generalizing i st r with
  | nil =>
      have hlen : body.length ≤ i := List.drop_eq_nil_iff.mp hrest
      obtain rfl : i = body.length := by omega
      refine ⟨by simp, fun r' hr' => ⟨st, rfl, ?_⟩⟩
      obtain rfl : r = r' := by simpa using hr'
      exact h
  | cons ch rest ih =>
      have hget : body[i]? = some ch := by
        rw [← List.head?_drop, hrest, List.head?_cons]
      have hnext : body.drop (i + 1) = rest := by
        rw [← List.tail_drop, hrest, List.tail_cons]
      have hi' : i + 1 ≤ body.length := (List.getElem?_eq_some_iff.mp hget).1
      obtain ⟨hnone, hsome⟩ := sim_step h hget
      rw [List.length_cons, List.range'_succ, List.foldlM_cons, List.foldlM_cons]
      cases hread : r.read ch with
      | none =>
          rw [hnone hread]
          exact ⟨fun _ => rfl, fun r' hr' => by cases hr'⟩
      | some r₁ =>
          obtain ⟨st₁, hst₁, hsim₁⟩ := hsome r₁ hread
          rw [hst₁]
          exact ih hsim₁ hi' hnext

/-- The line ends of a text become LF. -/
def normalize (s : GoString) : GoString := replaceCR (replaceCRLF s)

/-- What a callback returns and keeps. -/
def Reader.left (r : Reader) : List StreamEvent × Option GoString :=
  (r.events, if r.raw = [] then none else some r.raw)

theorem left_getD (r : Reader) : r.left.2.getD [] = r.raw := by
  rw [Reader.left]
  split
  · rename_i hnil
    exact hnil.symm
  · rfl

theorem extractStreamingEvents_eq (buffered : Option GoString) (chunk : GoString) :
    extractStreamingEvents buffered chunk =
      ((normalize (buffered.getD [] ++ chunk)).foldlM Reader.read {}).map Reader.left := by
  rw [extractStreamingEvents, ← normalize]
  generalize normalize (buffered.getD [] ++ chunk) = body
  have hstart : Sim body 0 {} {} := by
    constructor <;> simp
  obtain ⟨hnone, hsome⟩ := sim_loop hstart (Nat.zero_le _) (List.drop_zero)
  rw [List.range_eq_range']
  cases hread : body.foldlM Reader.read {} with
  | none =>
      rw [hnone hread]
      rfl
  | some r =>
      obtain ⟨st, hst, hsim⟩ := hsome r hread
      have hlen := hsim.raw_length_le
      rw [hst, Option.bind_some, hsim.eventStart, Option.map_some, Reader.left]
      by_cases hraw : r.raw = []
      · rw [if_pos hraw, if_neg (by omega), if_pos hraw, hsim.events]
      · have hpos : 0 < r.raw.length := List.length_pos_of_ne_nil hraw
        rw [if_neg hraw, if_pos (by omega), if_neg hraw,
          slice_of_suffix (Nat.le_refl _) hsim.raw, hsim.events]
        rfl

/-! ### The callbacks are one reader -/

/-- The reader with events that were extracted before. -/
def Reader.after (e : List StreamEvent) (r : Reader) : Reader := { r with events := e ++ r.events }

theorem read_after (e : List StreamEvent) (r : Reader) (ch : UInt8) :
    (r.after e).read ch = (r.read ch).map (Reader.after e) := by
  by_cases hch : ch = 10
  · subst hch
    by_cases hline : r.line = []
    · by_cases hraw : r.raw = []
      · rw [read_blank hline hraw]
        exact @read_blank (r.after e) hline hraw
      · rw [read_event hline hraw, @read_event (r.after e) hline hraw]
        simp [Reader.after]
    · by_cases hcolon : 58 ∈ r.line
      · rw [read_line hline hcolon]
        exact @read_line (r.after e) hline hcolon
      · rw [read_line_none hline hcolon]
        exact @read_line_none (r.after e) hline hcolon
  · rw [read_text hch, read_text hch]
    rfl

theorem foldlM_read_after (e : List StreamEvent) (r : Reader) (s : GoString) :
    s.foldlM Reader.read (r.after e) = (s.foldlM Reader.read r).map (Reader.after e) := by
  induction s generalizing r with
  | nil => rfl
  | cons ch s ih =>
      rw [List.foldlM_cons, List.foldlM_cons, read_after]
      cases r.read ch with
      | none => rfl
      | some r₁ => exact ih r₁

/-- To read again what was read of an event gives the same state. -/
structure Rereads (r : Reader) : Prop where
  reread : r.raw.foldlM Reader.read {} = some { r with events := [] }
  noCR : 13 ∉ r.raw

theorem Rereads.read {r r' : Reader} {ch : UInt8} (h : Rereads r) (hch : ch ≠ 13)
    (hread : r.read ch = some r') : Rereads r' := by
  have hnext : (r.raw ++ [ch]).foldlM Reader.read {} =
      ({ r with events := [] } : Reader).read ch := by
    rw [List.foldlM_append, h.reread]
    simp [List.foldlM_cons]
  by_cases hlf : ch = 10
  · subst hlf
    by_cases hline : r.line = []
    · by_cases hraw : r.raw = []
      · rw [read_blank hline hraw] at hread
        obtain rfl := Option.some.inj hread
        exact h
      · rw [read_event hline hraw] at hread
        obtain rfl := Option.some.inj hread
        exact ⟨rfl, by simp⟩
    · by_cases hcolon : 58 ∈ r.line
      · rw [read_line hline hcolon] at hread
        obtain rfl := Option.some.inj hread
        exact ⟨hnext.trans (read_line hline hcolon), by simp [h.noCR]⟩
      · rw [read_line_none hline hcolon] at hread
        cases hread
  · rw [read_text hlf] at hread
    obtain rfl := Option.some.inj hread
    exact ⟨hnext.trans (read_text hlf), by simp [h.noCR, Ne.symm hch]⟩

theorem Rereads.foldlM {r r' : Reader} {s : GoString} (h : Rereads r) (hs : 13 ∉ s)
    (hread : s.foldlM Reader.read r = some r') : Rereads r' := by
  induction s generalizing r with
  | nil =>
      obtain rfl : r = r' := by simpa using hread
      exact h
  | cons ch s ih =>
      obtain ⟨hch, hs⟩ := List.ne_and_not_mem_of_not_mem_cons hs
      obtain ⟨r₁, hr₁, hrest⟩ := Option.bind_eq_some_iff.mp hread
      exact ih (h.read hch.symm hr₁) hs hrest

theorem normalize_noCR (s : GoString) : 13 ∉ normalize s := by
  rw [normalize, replaceCR, List.mem_map]
  rintro ⟨b, -, hb⟩
  split at hb
  · cases hb
  · rename_i hne
    exact hne hb

theorem replaceCRLF_append {a : GoString} (ha : 13 ∉ a) (s : GoString) :
    replaceCRLF (a ++ s) = a ++ replaceCRLF s := by
  induction a with
  | nil => rfl
  | cons b a ih =>
      obtain ⟨hb, ha⟩ := List.ne_and_not_mem_of_not_mem_cons ha
      rw [List.cons_append, replaceCRLF, ih ha]
      · rfl
      · intro s' hb' _
        exact hb hb'.symm

theorem normalize_append {a : GoString} (ha : 13 ∉ a) (s : GoString) :
    normalize (a ++ s) = a ++ normalize s := by
  rw [normalize, replaceCRLF_append ha, replaceCR, List.map_append]
  have hsame : a.map (fun b => if b = 13 then 10 else b) = a.map id := by
    apply List.map_congr_left
    intro b hb
    have hne : b ≠ 13 := fun heq => ha (heq ▸ hb)
    simp [hne]
  rw [hsame, List.map_id]
  rfl

/-- What a callback leaves, and the next one, from a state that the reader is in. -/
theorem extract_left {r : Reader} (h : Rereads r) (chunk : GoString) :
    (extractStreamingEvents r.left.2 chunk).map (fun next => (r.left.1 ++ next.1, next.2)) =
      ((normalize chunk).foldlM Reader.read r).map Reader.left := by
  have hr : r = Reader.after r.events { r with events := [] } := by simp [Reader.after]
  rw [extractStreamingEvents_eq, left_getD, normalize_append h.noCR, List.foldlM_append, h.reread]
  conv_rhs => rw [hr, foldlM_read_after]
  simp only [Option.bind_eq_bind, Option.bind_some, Option.map_map]
  rfl

/-- All callbacks read as one reader does that is given each chunk with its line ends as LF. -/
theorem extractAll_eq (chunks : List GoString) :
    extractAll chunks = ((chunks.map normalize).flatten.foldlM Reader.read {}).map Reader.left := by
  have hall : ∀ r : Reader, Rereads r →
      chunks.foldlM (fun acc chunk => (extractStreamingEvents acc.2 chunk).map
        fun next => (acc.1 ++ next.1, next.2)) r.left =
      ((chunks.map normalize).flatten.foldlM Reader.read r).map Reader.left := by
    induction chunks with
    | nil => exact fun r _ => rfl
    | cons chunk chunks ih =>
        intro r hr
        rw [List.foldlM_cons, extract_left hr, List.map_cons, List.flatten_cons,
          List.foldlM_append]
        cases hread : (normalize chunk).foldlM Reader.read r with
        | none => rfl
        | some r₁ => exact ih r₁ (hr.foldlM (normalize_noCR chunk) hread)
  exact hall {} ⟨rfl, by simp⟩

/-! ### Where the loop stays in range -/

theorem normalize_crlf (s : GoString) : normalize (13 :: 10 :: s) = 10 :: normalize s := rfl

/-- A byte that is not the CR of a CRLF. -/
theorem normalize_cons {b : UInt8} {s : GoString} (h : ∀ s', b = 13 → s = 10 :: s' → False) :
    normalize (b :: s) = (if b = 13 then 10 else b) :: normalize s := by
  rw [normalize, replaceCRLF.eq_2 b s h]
  rfl

/-- The lines that have ended and are not blank, and what was read of the next one. -/
def lineStep (acc : List GoString × GoString) (b : UInt8) : List GoString × GoString :=
  if b = 10 ∨ b = 13 then if acc.2 = [] then acc else (acc.1 ++ [acc.2], [])
  else (acc.1, acc.2 ++ [b])

/-- The lines of a stream that have ended, with LF, CR or CRLF, and are not blank. -/
def nonBlankLines (s : GoString) : List GoString := (s.foldl lineStep ([], [])).1

/-- The LF of a CRLF is one blank line more. -/
theorem lineStep_crlf (acc : List GoString × GoString) :
    lineStep (lineStep acc 13) 10 = lineStep acc 10 := by
  by_cases hline : acc.2 = []
  · simp [lineStep, hline]
  · simp [lineStep, hline]

theorem foldl_lineStep_normalize (s : GoString) (acc : List GoString × GoString) :
    (normalize s).foldl lineStep acc = s.foldl lineStep acc := by
  induction s using replaceCRLF.induct generalizing acc with
  | case1 s ih => rw [normalize_crlf, List.foldl_cons, ih, List.foldl_cons, List.foldl_cons,
      lineStep_crlf]
  | case2 b s h ih =>
      rw [normalize_cons h, List.foldl_cons, List.foldl_cons, ih]
      by_cases hb : b = 13
      · subst hb
        rfl
      · rw [if_neg hb]
  | case3 => rfl

theorem lineStep_isPrefix (s : GoString) (acc : List GoString × GoString) :
    acc.1 <+: (s.foldl lineStep acc).1 := by
  induction s generalizing acc with
  | nil => exact List.prefix_rfl
  | cons b s ih =>
      refine List.IsPrefix.trans ?_ (ih _)
      rw [lineStep]
      split
      · split
        · exact List.prefix_rfl
        · exact List.prefix_append _ _
      · exact List.prefix_rfl

/-- The reader goes on as long as the lines that end have a colon. -/
theorem foldlM_read_isSome {s : GoString} (hs : 13 ∉ s) (r : Reader) (lines : List GoString)
    (hlines : ∀ line ∈ lines, 58 ∈ line) :
    (s.foldlM Reader.read r).isSome ↔ ∀ line ∈ (s.foldl lineStep (lines, r.line)).1, 58 ∈ line := by
  induction s generalizing r lines with
  | nil => simpa using hlines
  | cons ch s ih =>
      obtain ⟨hch, hrest⟩ := List.ne_and_not_mem_of_not_mem_cons hs
      rw [List.foldlM_cons, List.foldl_cons]
      by_cases hlf : ch = 10
      · subst hlf
        by_cases hline : r.line = []
        · have hstep : lineStep (lines, r.line) 10 = (lines, []) := by simp [lineStep, hline]
          rw [hstep]
          by_cases hraw : r.raw = []
          · rw [read_blank hline hraw]
            simpa [hline] using ih hrest r lines hlines
          · rw [read_event hline hraw]
            exact ih hrest _ lines hlines
        · have hstep : lineStep (lines, r.line) 10 = (lines ++ [r.line], []) := by
            simp [lineStep, hline]
          rw [hstep]
          by_cases hcolon : 58 ∈ r.line
          · rw [read_line hline hcolon]
            refine ih hrest _ (lines ++ [r.line]) ?_
            simpa [or_imp, forall_and, hcolon] using hlines
          · rw [read_line_none hline hcolon]
            refine ⟨by simp, fun hall => absurd (hall r.line ?_) hcolon⟩
            exact (lineStep_isPrefix s (lines ++ [r.line], [])).subset (by simp)
      · rw [read_text hlf]
        have hstep : lineStep (lines, r.line) ch = (lines, r.line ++ [ch]) := by
          simp [lineStep, hlf, Ne.symm hch]
        rw [hstep]
        exact ih hrest _ lines hlines

theorem foldl_lineStep_chunks (chunks : List GoString) (acc : List GoString × GoString) :
    (chunks.map normalize).flatten.foldl lineStep acc = chunks.flatten.foldl lineStep acc := by
  induction chunks generalizing acc with
  | nil => rfl
  | cons chunk chunks ih =>
      rw [List.map_cons, List.flatten_cons, List.flatten_cons, List.foldl_append,
        List.foldl_append, foldl_lineStep_normalize, ih]

/-- No callback leaves its buffer exactly if every line that has ended and is not blank has a
colon. -/
theorem extractAll_isSome_iff (chunks : List GoString) :
    (extractAll chunks).isSome ↔ ∀ line ∈ nonBlankLines chunks.flatten, 58 ∈ line := by
  have hcr : 13 ∉ (chunks.map normalize).flatten := by
    intro hmem
    obtain ⟨_, hs, hmem⟩ := List.mem_flatten.mp hmem
    obtain ⟨chunk, -, rfl⟩ := List.mem_map.mp hs
    exact normalize_noCR chunk hmem
  rw [extractAll_eq, Option.isSome_map, foldlM_read_isSome hcr {} [] (by simp),
    foldl_lineStep_chunks, nonBlankLines]

/-- A line without a colon. -/
theorem extractAll_no_colon : extractAll [bytes "abc\n"] = none := by decide

end Higress.AiProxy.StreamEvents
