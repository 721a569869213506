import Mathlib.Data.List.Basic

/-!
The event stream of the Rust plugins (`wasm-rust/src/event_stream.rs`). Pieces of
a `text/event-stream` body are put into a buffer, and `next` cuts the events out
of it at two line ends in a row, where a CRLF counts as two when no other line
end follows it in the buffer.
-/

namespace Higress.Wasm

/-- `EventStream`. -/
structure EventStream where
  buffer : List UInt8
  processedOffset : ℕ
  deriving DecidableEq

namespace EventStream

/-- `EventStream::default`. -/
def default : EventStream := ⟨[], 0⟩

/-! ### Operations -/

def cr : UInt8 := 13

def lf : UInt8 := 10

@[simp] theorem lf_ne_cr : lf ≠ cr := by decide

/-- `is_eol`. -/
def isEol (buffer : List UInt8) (i : ℕ) : Option ℕ :=
  if buffer[i]? = some cr ∧ buffer[i + 1]? = some lf then some 2
  else if buffer[i]? = some cr ∨ buffer[i]? = some lf then some 1
  else none

/-- `is_2eol`. -/
def is2eol (buffer : List UInt8) (i : ℕ) : Option ℕ :=
  match isEol buffer i with
  | none => none
  | some size1 =>
      if i + size1 < buffer.length then
        match isEol buffer (i + size1) with
        | none => if size1 = 2 then some 2 else none
        | some size2 => some (size1 + size2)
      else if size1 = 2 then some 2
      else none

/-- The loop of `next` from the position `i` on. -/
def nextFrom (s : EventStream) (i : ℕ) : Option (List UInt8 × EventStream) :=
  if i < s.buffer.length then
    match is2eol s.buffer i with
    | some size =>
        some ((s.buffer.drop s.processedOffset).take (i - s.processedOffset),
          { s with processedOffset := i + size })
    | none => nextFrom s (i + 1)
  else none
termination_by s.buffer.length - i

/-- `next`; without an event the stream stays as it is. -/
def next (s : EventStream) : Option (List UInt8 × EventStream) := s.nextFrom s.processedOffset

/-- `update`. -/
def update (s : EventStream) (data : List UInt8) : EventStream :=
  if s.processedOffset > 0 then ⟨s.buffer.drop s.processedOffset ++ data, 0⟩
  else ⟨s.buffer ++ data, s.processedOffset⟩

/-- `flush`. -/
def flush (s : EventStream) : Option (List UInt8) × EventStream :=
  if s.processedOffset < s.buffer.length then
    (some (s.buffer.drop s.processedOffset), { s with processedOffset := s.buffer.length })
  else (none, s)

/-! ### Terminators

The same tests on the part of the buffer that is not processed yet. -/

/-- `is_eol` at the start of a list. -/
def eolSize : List UInt8 → Option ℕ
  | [] => none
  | b :: bs =>
      if b = cr ∧ bs.head? = some lf then some 2
      else if b = cr ∨ b = lf then some 1
      else none

/-- `is_2eol` at the start of a list. -/
def terminatorSize (bs : List UInt8) : Option ℕ :=
  match eolSize bs with
  | none => none
  | some size1 =>
      match eolSize (bs.drop size1) with
      | none => if size1 = 2 then some 2 else none
      | some size2 => some (size1 + size2)

theorem isEol_eq (buffer : List UInt8) (i : ℕ) : isEol buffer i = eolSize (buffer.drop i) := by
  rw [isEol]
  cases hdrop : buffer.drop i with
  | nil =>
      have hlen : buffer.length ≤ i := List.drop_eq_nil_iff.mp hdrop
      simp [eolSize, List.getElem?_eq_none hlen]
  | cons b bs =>
      have hget : buffer[i]? = some b := by
        rw [← List.head?_drop, hdrop, List.head?_cons]
      have hnext : buffer[i + 1]? = bs.head? := by
        rw [← List.head?_drop, ← List.tail_drop, hdrop, List.tail_cons]
      simp [eolSize, hget, hnext]

theorem eolSize_pos {bs : List UInt8} {size : ℕ} (h : eolSize bs = some size) :
    size = 1 ∨ size = 2 := by
  cases bs with
  | nil => simp [eolSize] at h
  | cons b bs =>
      rw [eolSize] at h
      split at h
      · exact .inr (Option.some.inj h).symm
      · split at h
        · exact .inl (Option.some.inj h).symm
        · simp at h

theorem is2eol_eq (buffer : List UInt8) (i : ℕ) :
    is2eol buffer i = terminatorSize (buffer.drop i) := by
  rw [is2eol, terminatorSize, isEol_eq]
  cases eolSize (buffer.drop i) with
  | none => rfl
  | some size1 =>
      simp only [isEol_eq, List.drop_drop]
      by_cases hlt : i + size1 < buffer.length
      · rw [if_pos hlt]
      · have hdrop : buffer.drop (i + size1) = [] := List.drop_eq_nil_iff.mpr (by omega)
        simp [hlt, hdrop, eolSize]

theorem terminatorSize_two_le {bs : List UInt8} {size : ℕ} (h : terminatorSize bs = some size) :
    2 ≤ size := by
  rw [terminatorSize] at h
  cases h1 : eolSize bs with
  | none => simp [h1] at h
  | some size1 =>
      have hsize1 := eolSize_pos h1
      cases h2 : eolSize (bs.drop size1) with
      | none =>
          simp [h1, h2] at h
          omega
      | some size2 =>
          have hsize2 := eolSize_pos h2
          simp [h1, h2] at h
          omega

/-- The first event of a list of bytes and what is behind its terminator. -/
def firstEvent : List UInt8 → Option (List UInt8 × List UInt8)
  | [] => none
  | b :: bs =>
      match terminatorSize (b :: bs) with
      | some size => some ([], (b :: bs).drop size)
      | none => (firstEvent bs).map fun event => (b :: event.1, event.2)

theorem firstEvent_length {bs event rest : List UInt8} (h : firstEvent bs = some (event, rest)) :
    rest.length < bs.length := by
  induction bs generalizing event with
  | nil => simp [firstEvent] at h
  | cons b bs ih =>
      rw [firstEvent] at h
      cases hsize : terminatorSize (b :: bs) with
      | some size =>
          have hle := terminatorSize_two_le hsize
          simp only [hsize, Option.some.injEq, Prod.mk.injEq] at h
          rw [← h.2]
          simp only [List.length_drop, List.length_cons]
          omega
      | none =>
          simp only [hsize, Option.map_eq_some_iff, Prod.mk.injEq] at h
          obtain ⟨⟨event', rest'⟩, hfirst, -, rfl⟩ := h
          exact Nat.lt_succ_of_lt (ih hfirst)

/-- The bytes that `next` has not processed. -/
def rest (s : EventStream) : List UInt8 := s.buffer.drop s.processedOffset

theorem nextFrom_eq (s : EventStream) {i : ℕ} (hi : s.processedOffset ≤ i) :
    (s.nextFrom i).map (fun next => (next.1, next.2.rest)) =
      (firstEvent (s.buffer.drop i)).map fun event =>
        (s.rest.take (i - s.processedOffset) ++ event.1, event.2) := by
  induction hn : s.buffer.length - i using Nat.strongRecOn generalizing i with
  | ind n ih =>
      rw [nextFrom]
      by_cases hlt : i < s.buffer.length
      · have hcons : s.buffer.drop i = s.buffer[i] :: s.buffer.drop (i + 1) :=
          List.drop_eq_getElem_cons hlt
        rw [if_pos hlt, is2eol_eq, hcons, firstEvent]
        cases hsize : terminatorSize (s.buffer[i] :: s.buffer.drop (i + 1)) with
        | some size =>
            simp only [Option.map_some, rest, List.append_nil, Option.some.injEq, Prod.mk.injEq,
              true_and]
            rw [← hcons, List.drop_drop]
        | none =>
            have htake : s.rest.take (i + 1 - s.processedOffset) =
                s.rest.take (i - s.processedOffset) ++ [s.buffer[i]] := by
              rw [show i + 1 - s.processedOffset = i - s.processedOffset + 1 by omega,
                List.take_add_one, rest, List.getElem?_drop,
                show s.processedOffset + (i - s.processedOffset) = i by omega,
                List.getElem?_eq_getElem hlt]
              rfl
            simp only
            rw [ih _ (by omega) (by omega : s.processedOffset ≤ i + 1) rfl, htake, Option.map_map]
            congr 1
            funext event
            simp
      · have hdrop : s.buffer.drop i = [] := List.drop_eq_nil_iff.mpr (by omega)
        simp [hlt, hdrop, firstEvent]

/-- `next` on the bytes that are left. -/
theorem next_eq (s : EventStream) :
    s.next.map (fun next => (next.1, next.2.rest)) = firstEvent s.rest := by
  rw [next, nextFrom_eq s (Nat.le_refl _), ← rest]
  simp

theorem rest_update (s : EventStream) (data : List UInt8) :
    (s.update data).rest = s.rest ++ data := by
  rw [update]
  split
  · rfl
  · rename_i h
    have hzero : s.processedOffset = 0 := by omega
    simp [rest, hzero]

theorem flush_eq (s : EventStream) :
    s.flush.1 = if s.rest = [] then none else some s.rest := by
  rw [flush, rest]
  by_cases h : s.processedOffset < s.buffer.length
  · rw [if_pos h, if_neg (by rw [List.drop_eq_nil_iff]; omega)]
  · rw [if_neg h, if_pos (by rw [List.drop_eq_nil_iff]; omega)]

/-- Draining: `next` until there is no event. -/
def drain (s : EventStream) : List (List UInt8) × EventStream :=
  match _h : s.next with
  | none => ([], s)
  | some next => (next.1 :: next.2.drain.1, next.2.drain.2)
termination_by s.rest.length
decreasing_by
  all_goals
    have hmap := next_eq s
    rw [_h, Option.map_some] at hmap
    exact firstEvent_length hmap.symm

theorem drain_of_none {s : EventStream} (h : s.next = none) : s.drain = ([], s) := by
  rw [drain.eq_def]
  split
  · rfl
  · simp_all

theorem drain_of_some {s : EventStream} {next : List UInt8 × EventStream}
    (h : s.next = some next) : s.drain = (next.1 :: next.2.drain.1, next.2.drain.2) := by
  rw [drain.eq_def]
  split
  · simp_all
  · rename_i next' h'
    obtain rfl : next' = next := Option.some.inj (h'.symm.trans h)
    rfl

/-- The events of a stream that comes in pieces: each piece is put in with
`update` and drained, and `flush` ends the stream. -/
def events (s : EventStream) : List (List UInt8) → List (List UInt8)
  | [] => s.flush.1.toList
  | piece :: pieces => (s.update piece).drain.1 ++ events (s.update piece).drain.2 pieces

/-! ### Lines that end with LF -/

/-- A line: neither empty nor with a line end in it. -/
def IsLine (line : List UInt8) : Prop := line ≠ [] ∧ ∀ b ∈ line, b ≠ cr ∧ b ≠ lf

/-- A stream of events of one line each. -/
def linesStream (lines : List (List UInt8)) : List UInt8 := lines.flatMap fun l => l ++ [lf, lf]

theorem firstEvent_cons {b : UInt8} (hb : b ≠ cr ∧ b ≠ lf) (bs : List UInt8) :
    firstEvent (b :: bs) = (firstEvent bs).map fun event => (b :: event.1, event.2) := by
  have hsize : terminatorSize (b :: bs) = none := by
    simp [terminatorSize, eolSize, hb.1, hb.2]
  rw [firstEvent, hsize]

theorem firstEvent_line {line : List UInt8} (hline : ∀ b ∈ line, b ≠ cr ∧ b ≠ lf)
    (rest : List UInt8) : firstEvent (line ++ ([lf, lf] ++ rest)) = some (line, rest) := by
  induction line with
  | nil => simp [firstEvent, terminatorSize, eolSize]
  | cons b line ih =>
      rw [List.cons_append, firstEvent_cons (hline b (by simp)),
        ih fun c hc => hline c (List.mem_cons_of_mem b hc)]
      rfl

/-- Before the second LF of a line there is no event. -/
theorem firstEvent_of_take {line : List UInt8} (hline : ∀ b ∈ line, b ≠ cr ∧ b ≠ lf) {n : ℕ}
    (hn : n ≤ line.length + 1) : firstEvent ((line ++ [lf]).take n) = none := by
  induction line generalizing n with
  | nil =>
      obtain rfl | rfl : n = 0 ∨ n = 1 := by
        simp only [List.length_nil] at hn
        omega
      · rfl
      · simp [firstEvent, terminatorSize, eolSize]
  | cons b line ih =>
      cases n with
      | zero => rfl
      | succ n =>
          simp only [List.length_cons] at hn
          rw [List.cons_append, List.take_succ_cons, firstEvent_cons (hline b (by simp)),
            ih (fun c hc => hline c (List.mem_cons_of_mem b hc)) (by omega)]
          rfl

/-- Draining the first bytes of a stream of lines returns the lines that are
complete, wherever the bytes are cut. -/
theorem drain_lines {s : EventStream} {lines : List (List UInt8)} (hlines : ∀ l ∈ lines, IsLine l)
    {later : List UInt8} (h : s.rest ++ later = linesStream lines) :
    ∃ done todo, lines = done ++ todo ∧ s.drain.1 = done ∧
      s.drain.2.rest ++ later = linesStream todo ∧ firstEvent s.drain.2.rest = none := by
  induction lines generalizing s with
  | nil =>
      have hrest : s.rest = [] := (List.append_eq_nil_iff.mp h).1
      have hnext : s.next = none := by
        have hmap := next_eq s
        rwa [hrest, firstEvent, Option.map_eq_none_iff] at hmap
      rw [drain_of_none hnext]
      exact ⟨[], [], rfl, rfl, h, by rw [hrest, firstEvent]⟩
  | cons l lines ih =>
      have hl := hlines l (by simp)
      have hstream : linesStream (l :: lines) = l ++ ([lf, lf] ++ linesStream lines) := by
        simp [linesStream]
      by_cases hlen : l.length + 2 ≤ s.rest.length
      · obtain ⟨rest, hrest⟩ : ∃ rest, s.rest = l ++ ([lf, lf] ++ rest) := by
          have htake := congrArg (List.take (l.length + 2)) (h.trans hstream)
          rw [List.take_append_of_le_length hlen, ← List.append_assoc,
            List.take_left' (by simp)] at htake
          refine ⟨s.rest.drop (l.length + 2), ?_⟩
          rw [← List.append_assoc, ← htake, List.take_append_drop]
        have hfirst : firstEvent s.rest = some (l, rest) := by
          rw [hrest, firstEvent_line hl.2]
        have hmap := (next_eq s).trans hfirst
        obtain ⟨next, hnext, hpair⟩ := Option.map_eq_some_iff.mp hmap
        obtain ⟨hevent, hnextrest⟩ := Prod.mk.inj hpair
        have hlater : next.2.rest ++ later = linesStream lines := by
          rw [hnextrest]
          rw [hrest, hstream, List.append_assoc, List.append_assoc] at h
          exact List.append_cancel_left (List.append_cancel_left h)
        obtain ⟨done, todo, hlines', hdone, htodo, hnone⟩ :=
          ih (fun k hk => hlines k (List.mem_cons_of_mem l hk)) hlater
        rw [drain_of_some hnext]
        exact ⟨l :: done, todo, by rw [hlines', List.cons_append], by rw [hevent, hdone], htodo,
          hnone⟩
      · have hrest : s.rest = (l ++ [lf]).take s.rest.length := by
          have htake := congrArg (List.take s.rest.length) (h.trans hstream)
          rw [List.take_left, show l ++ ([lf, lf] ++ linesStream lines) =
            (l ++ [lf]) ++ ([lf] ++ linesStream lines) by simp,
            List.take_append_of_le_length (by simp; omega)] at htake
          exact htake
        have hnone : firstEvent s.rest = none := by
          rw [hrest]
          exact firstEvent_of_take hl.2 (by omega)
        have hnext : s.next = none := by
          have hmap := next_eq s
          rwa [hnone, Option.map_eq_none_iff] at hmap
        rw [drain_of_none hnext]
        exact ⟨[], l :: lines, rfl, rfl, h, hnone⟩

/-- Without a complete line there is no line at all, if nothing else comes. -/
theorem eq_nil_of_firstEvent {lines : List (List UInt8)} (hlines : ∀ l ∈ lines, IsLine l)
    (h : firstEvent (linesStream lines) = none) : lines = [] := by
  cases lines with
  | nil => rfl
  | cons l lines =>
      have hstream : linesStream (l :: lines) = l ++ ([lf, lf] ++ linesStream lines) := by
        simp [linesStream]
      rw [hstream, firstEvent_line (hlines l (by simp)).2] at h
      simp at h

/-! ### Bytes with cuts

A stream in pieces is a list of bytes with a mark on the last byte of each piece.
The marks matter at two places: behind a CRLF that starts a terminator, and
behind a CR that is its second line end. -/

/-- The bytes of a piece, the last one marked. -/
def mark : List UInt8 → List (UInt8 × Bool)
  | [] => []
  | [b] => [(b, true)]
  | b :: c :: bs => (b, false) :: mark (c :: bs)

/-- The bytes of a stream in pieces. -/
def marks (pieces : List (List UInt8)) : List (UInt8 × Bool) := pieces.flatMap mark

/-- The bytes of a part without a cut. -/
def unmarked (bs : List UInt8) : List (UInt8 × Bool) := bs.map fun b => (b, false)

/-- The second line end of a terminator; a CR at a cut is read alone. -/
def cutEolSize : List (UInt8 × Bool) → Option ℕ
  | [] => none
  | (b, cut) :: m => if b = cr ∧ cut then some 1 else eolSize (b :: m.map Prod.fst)

/-- The terminator that the pieces show; a CRLF at a cut is read alone. -/
def cutSize (m : List (UInt8 × Bool)) : Option ℕ :=
  match eolSize (m.map Prod.fst) with
  | none => none
  | some size1 =>
      if size1 = 2 ∧ m[1]?.map Prod.snd = some true then some 2
      else match cutEolSize (m.drop size1) with
        | none => if size1 = 2 then some 2 else none
        | some size2 => some (size1 + size2)

theorem map_fst_mark (bs : List UInt8) : (mark bs).map Prod.fst = bs := by
  induction bs with
  | nil => rfl
  | cons b bs ih =>
      cases bs with
      | nil => rfl
      | cons c bs => simpa [mark] using ih

theorem map_fst_unmarked (bs : List UInt8) : (unmarked bs).map Prod.fst = bs := by
  rw [unmarked, List.map_map]
  exact List.map_id bs

theorem mark_append (bs : List UInt8) {cs : List UInt8} (hcs : cs ≠ []) :
    mark (bs ++ cs) = unmarked bs ++ mark cs := by
  induction bs with
  | nil => rfl
  | cons b bs ih =>
      cases hcat : bs ++ cs with
      | nil => simp [hcs] at hcat
      | cons c ds =>
          rw [List.cons_append, hcat, mark, ← hcat, ih]
          rfl

theorem drop_mark {bs : List UInt8} {n : ℕ} (hn : n ≤ bs.length) (m : List (UInt8 × Bool)) :
    (mark bs ++ m).drop n = mark (bs.drop n) ++ m := by
  induction bs generalizing n with
  | nil =>
      obtain rfl : n = 0 := by simpa using hn
      rfl
  | cons b bs ih =>
      cases n with
      | zero => rfl
      | succ n =>
          have hle : n ≤ bs.length := by simpa using hn
          rw [List.drop_succ_cons, ← ih hle]
          cases bs with
          | nil => simp [mark]
          | cons c bs => simp [mark]

/-! ### Line ends and what follows them -/

/-- A byte of a line end. -/
def IsEolByte (b : UInt8) : Prop := b = cr ∨ b = lf

instance (b : UInt8) : Decidable (IsEolByte b) := inferInstanceAs (Decidable (_ ∨ _))

theorem eolSize_eq_none_iff {b : UInt8} {bs : List UInt8} :
    eolSize (b :: bs) = none ↔ ¬ IsEolByte b := by
  rw [eolSize, IsEolByte]
  by_cases h2 : b = cr ∧ bs.head? = some lf
  · simp [h2]
  · by_cases h1 : b = cr ∨ b = lf
    · simp [h1, h2]
    · simp [h1, h2]

/-- A line end reads one byte ahead at most. -/
theorem eolSize_append (b : UInt8) {bs : List UInt8} (cs : List UInt8)
    (h : bs ≠ [] ∨ cs.head? ≠ some lf) : eolSize (b :: (bs ++ cs)) = eolSize (b :: bs) := by
  have hhead : (bs ++ cs).head? = some lf ↔ bs.head? = some lf := by
    cases bs with
    | nil => simpa using h.resolve_left (by simp)
    | cons c bs => simp
  simp only [eolSize, hhead]

theorem eolSize_length {bs : List UInt8} {n : ℕ} (h : eolSize bs = some n) : n ≤ bs.length := by
  cases bs with
  | nil => simp [eolSize] at h
  | cons b bs =>
      rw [eolSize] at h
      split at h
      · rename_i htwo
        have : bs ≠ [] := by
          rintro rfl
          simp at htwo
        have := List.length_pos_iff.mpr this
        simp only [Option.some.injEq] at h
        simp only [List.length_cons]
        omega
      · split at h
        · simp only [Option.some.injEq] at h
          simp only [List.length_cons]
          omega
        · simp at h

theorem terminatorSize_length {bs : List UInt8} {n : ℕ} (h : terminatorSize bs = some n) :
    n ≤ bs.length := by
  rw [terminatorSize] at h
  cases h1 : eolSize bs with
  | none => simp [h1] at h
  | some size1 =>
      have hle1 := eolSize_length h1
      cases h2 : eolSize (bs.drop size1) with
      | none =>
          simp [h1, h2] at h
          omega
      | some size2 =>
          have hle2 := eolSize_length h2
          simp only [h1, h2, Option.some.injEq] at h
          rw [List.length_drop] at hle2
          omega

theorem cutEolSize_mark {bs : List UInt8} {n : ℕ} (h : eolSize bs = some n)
    (m : List (UInt8 × Bool)) : cutEolSize (mark bs ++ m) = some n := by
  cases bs with
  | nil => simp [eolSize] at h
  | cons b bs =>
      cases bs with
      | nil =>
          have hone : n = 1 := by
            have := eolSize_length h
            have := eolSize_pos h
            simp at *
            omega
          have heol : IsEolByte b := by
            by_contra hnot
            simp [eolSize_eq_none_iff.mpr hnot] at h
          by_cases hb : b = cr
          · simp [mark, cutEolSize, hb, hone]
          · have hlf : b = lf := heol.resolve_left hb
            simp [mark, cutEolSize, eolSize, hlf, hone]
      | cons c bs =>
          rw [mark, List.cons_append, cutEolSize, if_neg (by simp), List.map_append, map_fst_mark,
            eolSize_append _ _ (.inl (by simp)), h]

theorem cutEolSize_eq_none {b : UInt8} (hb : ¬ IsEolByte b) (cut : Bool)
    (m : List (UInt8 × Bool)) : cutEolSize ((b, cut) :: m) = none := by
  rw [cutEolSize, if_neg (fun h => hb (.inl h.1)), eolSize_eq_none_iff]
  exact hb

/-- The terminator at the start of the buffer is the one that the pieces show. -/
theorem cutSize_mark {bs : List UInt8} {n : ℕ} (h : terminatorSize bs = some n)
    (m : List (UInt8 × Bool)) : cutSize (mark bs ++ m) = some n := by
  have hlen := terminatorSize_length h
  have htwo := terminatorSize_two_le h
  obtain ⟨b, c, bs, rfl⟩ : ∃ b c cs, bs = b :: c :: cs := by
    match bs, hlen with
    | [], hlen => simp at hlen; omega
    | [b], hlen => simp at hlen; omega
    | b :: c :: cs, _ => exact ⟨b, c, cs, rfl⟩
  rw [terminatorSize] at h
  have heol : eolSize ((mark (b :: c :: bs) ++ m).map Prod.fst) = eolSize (b :: c :: bs) := by
    rw [List.map_append, map_fst_mark, List.cons_append, eolSize_append _ _ (.inl (by simp))]
  rw [cutSize, heol]
  cases h1 : eolSize (b :: c :: bs) with
  | none => simp [h1] at h
  | some size1 =>
      have hle := eolSize_length h1
      have hcut : (mark (b :: c :: bs) ++ m)[1]?.map Prod.snd = some true ↔ bs = [] := by
        cases bs <;> simp [mark]
      simp only [h1] at h
      simp only [drop_mark hle, hcut]
      cases h2 : eolSize ((b :: c :: bs).drop size1) with
      | some size2 =>
          -- behind a CRLF there is a line end in the same piece
          have hbehind : ¬ (size1 = 2 ∧ bs = []) := by
            rintro ⟨rfl, rfl⟩
            simp [eolSize] at h2
          rw [if_neg hbehind, cutEolSize_mark h2]
          simpa [h2] using h
      | none =>
          obtain ⟨rfl, rfl⟩ : size1 = 2 ∧ 2 = n := by simpa [h2] using h
          by_cases hbs : bs = []
          · simp [hbs]
          · obtain ⟨d, ds, rfl⟩ := List.exists_cons_of_ne_nil hbs
            have hd : ¬ IsEolByte d := eolSize_eq_none_iff.mp (by simpa using h2)
            have hnone : cutEolSize (mark (d :: ds) ++ m) = none := by
              cases ds <;> exact cutEolSize_eq_none hd _ _
            simp [hnone]

/-- Where the buffer shows no terminator and goes on, the pieces show none. -/
theorem cutSize_eq_none {b c : UInt8} {bs cs : List UInt8}
    (h : terminatorSize (b :: c :: bs) = none) {m : List (UInt8 × Bool)}
    (hm : m.map Prod.fst = b :: c :: (bs ++ cs)) : cutSize m = none := by
  have hlong : eolSize (b :: c :: (bs ++ cs)) = eolSize (b :: c :: bs) :=
    @eolSize_append b (c :: bs) cs (.inl (by simp))
  rw [terminatorSize] at h
  rw [cutSize, hm, hlong]
  cases h1 : eolSize (b :: c :: bs) with
  | none => rfl
  | some size1 =>
      rcases eolSize_pos h1 with rfl | rfl
      · cases h2 : eolSize (c :: bs) with
        | some size2 => simp [h1, h2] at h
        | none =>
            obtain ⟨x, y, m, rfl⟩ : ∃ x y m', m = x :: y :: m' := by
              match m, hm with
              | x :: y :: m', _ => exact ⟨x, y, m', rfl⟩
            simp only [List.map_cons, List.cons.injEq] at hm
            have hc : ¬ IsEolByte y.1 := hm.2.1 ▸ eolSize_eq_none_iff.mp h2
            simp [cutEolSize_eq_none hc]
      · cases h2 : eolSize bs <;> simp [h1, h2] at h

/-- The mark of the first byte does not matter. -/
theorem cutSize_cons (b : UInt8) (cut cut' : Bool) (m : List (UInt8 × Bool)) :
    cutSize ((b, cut) :: m) = cutSize ((b, cut') :: m) := by
  rw [cutSize, cutSize]
  cases h1 : eolSize (b :: m.map Prod.fst) with
  | none => simp [h1]
  | some size1 =>
      rcases eolSize_pos h1 with rfl | rfl <;> simp [h1]

theorem cutSize_two_le {m : List (UInt8 × Bool)} {n : ℕ} (h : cutSize m = some n) : 2 ≤ n := by
  rw [cutSize] at h
  cases h1 : eolSize (m.map Prod.fst) with
  | none => simp [h1] at h
  | some size1 =>
      have hsize1 := eolSize_pos h1
      simp only [h1] at h
      split at h
      · simp at h
        omega
      · cases h2 : cutEolSize (m.drop size1) with
        | none =>
            simp [h2] at h
            omega
        | some size2 =>
            have hsize2 : size2 = 1 ∨ size2 = 2 := by
              cases hdrop : m.drop size1 with
              | nil => simp [hdrop, cutEolSize] at h2
              | cons x m' =>
                  rw [hdrop, cutEolSize] at h2
                  split at h2
                  · simp at h2
                    omega
                  · exact eolSize_pos h2
            simp [h2] at h
            omega

/-- The events that the pieces show, behind the bytes `event`. -/
def cutEvents (event : List UInt8) : List (UInt8 × Bool) → List (List UInt8)
  | [] => if event = [] then [] else [event]
  | x :: m =>
      match _h : cutSize (x :: m) with
      | some n => event :: cutEvents [] ((x :: m).drop n)
      | none => cutEvents (event ++ [x.1]) m
termination_by m => m.length
decreasing_by
  · have := cutSize_two_le _h
    simp only [List.length_drop, List.length_cons]
    omega
  · simp

theorem cutEvents_of_some {event : List UInt8} {m : List (UInt8 × Bool)} {n : ℕ}
    (h : cutSize m = some n) : cutEvents event m = event :: cutEvents [] (m.drop n) := by
  cases m with
  | nil => simp [cutSize, eolSize] at h
  | cons x m =>
      rw [cutEvents]
      split
      · rename_i n' h'
        rw [Option.some.inj (h.symm.trans h')]
      · rename_i h'
        simp [h] at h'

theorem cutEvents_of_none {event : List UInt8} {x : UInt8 × Bool} {m : List (UInt8 × Bool)}
    (h : cutSize (x :: m) = none) : cutEvents event (x :: m) = cutEvents (event ++ [x.1]) m := by
  rw [cutEvents]
  split
  · rename_i h'
    simp [h] at h'
  · rfl

/-! ### The parser shows the events of the pieces -/

/-- An event of the buffer is an event of the pieces. -/
theorem cutEvents_mark {bs event rest : List UInt8} (h : firstEvent bs = some (event, rest))
    (before : List UInt8) (m : List (UInt8 × Bool)) :
    cutEvents before (mark bs ++ m) = (before ++ event) :: cutEvents [] (mark rest ++ m) := by
  induction bs generalizing before event with
  | nil => simp [firstEvent] at h
  | cons b bs ih =>
      rw [firstEvent] at h
      cases hsize : terminatorSize (b :: bs) with
      | some n =>
          obtain ⟨rfl, rfl⟩ : [] = event ∧ (b :: bs).drop n = rest := by simpa [hsize] using h
          rw [cutEvents_of_some (cutSize_mark hsize m), drop_mark (terminatorSize_length hsize),
            List.append_nil]
      | none =>
          simp only [hsize, Option.map_eq_some_iff, Prod.mk.injEq] at h
          obtain ⟨⟨event', rest'⟩, hfirst, rfl, rfl⟩ := h
          cases bs with
          | nil => simp [firstEvent] at hfirst
          | cons c bs =>
              have hnone : cutSize (mark (b :: c :: bs) ++ m) = none :=
                cutSize_eq_none hsize (by rw [List.map_append, map_fst_mark]; rfl)
              rw [mark, List.cons_append] at hnone ⊢
              rw [cutEvents_of_none hnone, ih hfirst]
              simp

/-- A cut behind bytes without an event does not matter. -/
theorem cutEvents_mark_of_none {bs : List UInt8} (h : firstEvent bs = none)
    (before : List UInt8) (m : List (UInt8 × Bool)) :
    cutEvents before (mark bs ++ m) = cutEvents before (unmarked bs ++ m) := by
  induction bs generalizing before with
  | nil => rfl
  | cons b bs ih =>
      rw [firstEvent] at h
      cases hsize : terminatorSize (b :: bs) with
      | some n => simp [hsize] at h
      | none =>
          have hrest : firstEvent bs = none := by simpa [hsize] using h
          cases bs with
          | nil =>
              change cutEvents before ((b, true) :: m) = cutEvents before ((b, false) :: m)
              have hfalse := cutSize_cons b false true m
              cases hcut : cutSize ((b, true) :: m) with
              | none => rw [cutEvents_of_none hcut, cutEvents_of_none (hfalse.trans hcut)]
              | some n =>
                  have hn := cutSize_two_le hcut
                  obtain ⟨k, rfl⟩ : ∃ k, n = k + 1 := ⟨n - 1, by omega⟩
                  rw [cutEvents_of_some hcut, cutEvents_of_some (hfalse.trans hcut)]
                  rfl
          | cons c bs =>
              have hnone : cutSize (mark (b :: c :: bs) ++ m) = none :=
                cutSize_eq_none hsize (by rw [List.map_append, map_fst_mark]; rfl)
              have hnone' : cutSize (unmarked (b :: c :: bs) ++ m) = none :=
                cutSize_eq_none hsize (by rw [List.map_append, map_fst_unmarked]; rfl)
              rw [mark, List.cons_append] at hnone ⊢
              rw [unmarked, List.map_cons, List.cons_append] at hnone' ⊢
              rw [cutEvents_of_none hnone, cutEvents_of_none hnone', ih hrest]
              rfl

theorem cutEvents_unmarked {bs : List UInt8} (h : firstEvent bs = none) (before : List UInt8) :
    cutEvents before (unmarked bs) = if before ++ bs = [] then [] else [before ++ bs] := by
  induction bs generalizing before with
  | nil => simp [unmarked, cutEvents]
  | cons b bs ih =>
      rw [firstEvent] at h
      cases hsize : terminatorSize (b :: bs) with
      | some n => simp [hsize] at h
      | none =>
          have hrest : firstEvent bs = none := by simpa [hsize] using h
          have hnone : cutSize (unmarked (b :: bs)) = none := by
            cases bs with
            | nil =>
                rw [cutSize]
                by_cases hb : IsEolByte b
                · have h1 : eolSize [b] = some 1 := by
                    rw [eolSize, if_neg (by simp)]
                    exact if_pos hb
                  simp [unmarked, h1, cutEolSize]
                · simp [unmarked, eolSize_eq_none_iff.mpr hb]
            | cons c bs =>
                exact @cutSize_eq_none _ _ _ [] hsize _ (by rw [map_fst_unmarked]; simp)
          rw [unmarked, List.map_cons] at hnone ⊢
          rw [cutEvents_of_none hnone]
          simpa [unmarked] using ih hrest (before ++ [b])

/-- Draining a buffer, with the pieces `m` that are still to come. -/
theorem drain_eq (s : EventStream) (m : List (UInt8 × Bool)) :
    cutEvents [] (mark s.rest ++ m) =
        s.drain.1 ++ cutEvents [] (unmarked s.drain.2.rest ++ m) ∧
      firstEvent s.drain.2.rest = none := by
  fun_induction drain s with
  | case1 s hnext =>
      have hnone : firstEvent s.rest = none := by rw [← next_eq, hnext, Option.map_none]
      exact ⟨cutEvents_mark_of_none hnone [] m, hnone⟩
  | case2 s next hnext ih =>
      have hfirst : firstEvent s.rest = some (next.1, next.2.rest) := by
        rw [← next_eq, hnext, Option.map_some]
      refine ⟨?_, ih.2⟩
      rw [cutEvents_mark hfirst, ih.1]
      rfl

/-- The parser returns the events that the pieces show. -/
theorem events_eq (s : EventStream) (h : firstEvent s.rest = none) (pieces : List (List UInt8)) :
    events s pieces = cutEvents [] (unmarked s.rest ++ marks pieces) := by
  induction pieces generalizing s with
  | nil =>
      rw [events, flush_eq, marks, List.flatMap_nil, List.append_nil, cutEvents_unmarked h]
      by_cases hrest : s.rest = [] <;> simp [hrest]
  | cons piece pieces ih =>
      have hmark : cutEvents [] (unmarked s.rest ++ marks (piece :: pieces)) =
          cutEvents [] (mark (s.rest ++ piece) ++ marks pieces) := by
        rw [marks, List.flatMap_cons, ← marks, ← List.append_assoc]
        by_cases hpiece : piece = []
        · subst hpiece
          rw [List.append_nil, cutEvents_mark_of_none h]
          simp [mark]
        · rw [mark_append _ hpiece]
      obtain ⟨hdrain, hnone⟩ := drain_eq (s.update piece) (marks pieces)
      rw [events, ih _ hnone, hmark, ← rest_update, hdrain]

/-! ### Runs of line ends -/

/-- A run of line ends and what stands behind it. -/
structure RunBefore (σ t : List (UInt8 × Bool)) : Prop where
  eol : ∀ x ∈ σ, IsEolByte x.1
  text : ∀ x ∈ t.head?, ¬ IsEolByte x.1

variable {σ t : List (UInt8 × Bool)}

theorem RunBefore.tail (h : RunBefore σ t) (n : ℕ) : RunBefore (σ.drop n) t :=
  ⟨fun x hx => h.eol x (List.mem_of_mem_drop hx), h.text⟩

theorem RunBefore.head?_ne_lf (h : RunBefore σ t) : (t.map Prod.fst).head? ≠ some lf := by
  cases t with
  | nil => simp
  | cons y t =>
      have hy := h.text y (by simp)
      intro hlf
      simp only [List.map_cons, List.head?_cons, Option.some.injEq] at hlf
      exact hy (.inr hlf)

theorem RunBefore.cutEolSize_append (h : RunBefore σ t) :
    cutEolSize (σ ++ t) = cutEolSize σ := by
  cases σ with
  | nil =>
      cases t with
      | nil => rfl
      | cons y t => exact cutEolSize_eq_none (h.text y (by simp)) y.2 t
  | cons x σ =>
      simp only [List.cons_append, cutEolSize, List.map_append]
      rw [eolSize_append _ _ (.inr h.head?_ne_lf)]

/-- The text behind a run is not a part of its terminators. -/
theorem RunBefore.cutSize_append (h : RunBefore σ t) (hσ : σ ≠ []) :
    cutSize (σ ++ t) = cutSize σ := by
  obtain ⟨x, σ, rfl⟩ := List.exists_cons_of_ne_nil hσ
  rw [cutSize, cutSize, List.map_append, List.map_cons, List.cons_append,
    eolSize_append _ _ (.inr h.head?_ne_lf)]
  cases h1 : eolSize (x.1 :: σ.map Prod.fst) with
  | none => rfl
  | some size1 =>
      have hle := eolSize_length h1
      simp only [List.length_cons, List.length_map] at hle
      have hdrop : cutEolSize ((x :: σ ++ t).drop size1) = cutEolSize ((x :: σ).drop size1) := by
        rw [List.drop_append_of_le_length (by simpa using hle), (h.tail size1).cutEolSize_append]
      have hmark : size1 = 2 ∧ (x :: σ ++ t)[1]?.map Prod.snd = some true ↔
          size1 = 2 ∧ (x :: σ)[1]?.map Prod.snd = some true := by
        refine and_congr_right ?_
        rintro rfl
        rw [List.getElem?_append_left (by simp; omega)]
      simp only [hdrop, hmark]

theorem cutEolSize_eq_some {b : UInt8} (hb : IsEolByte b) (cut : Bool)
    (m : List (UInt8 × Bool)) :
    ∃ n, cutEolSize ((b, cut) :: m) = some n ∧ n ≤ m.length + 1 := by
  rw [cutEolSize]
  split
  · exact ⟨1, rfl, by omega⟩
  · cases hsize : eolSize (b :: m.map Prod.fst) with
    | none => exact absurd hb (eolSize_eq_none_iff.mp hsize)
    | some n => exact ⟨n, rfl, by simpa using eolSize_length hsize⟩

/-- A run of two or more bytes starts with a terminator. -/
theorem exists_cutSize {x y : UInt8 × Bool} (h : ∀ z ∈ x :: y :: σ, IsEolByte z.1) :
    ∃ n, cutSize (x :: y :: σ) = some n ∧ n ≤ σ.length + 2 := by
  rw [cutSize]
  cases h1 : eolSize ((x :: y :: σ).map Prod.fst) with
  | none => exact absurd (h x (by simp)) (eolSize_eq_none_iff.mp h1)
  | some size1 =>
      by_cases hmark : size1 = 2 ∧ (x :: y :: σ)[1]?.map Prod.snd = some true
      · exact ⟨2, by simp only [if_pos hmark], by omega⟩
      · simp only [if_neg hmark]
        rcases eolSize_pos h1 with rfl | rfl
        · obtain ⟨n, hn, hle⟩ := cutEolSize_eq_some (h y (by simp)) y.2 σ
          exact ⟨1 + n, by simp [hn], by omega⟩
        · cases σ with
          | nil => exact ⟨2, by simp [cutEolSize], by omega⟩
          | cons z σ =>
              obtain ⟨n, hn, hle⟩ := cutEolSize_eq_some (h z (by simp)) z.2 σ
              exact ⟨2 + n, by simp [hn], by simp only [List.length_cons]; omega⟩

theorem cutSize_singleton (x : UInt8 × Bool) : cutSize [x] = none := by
  rw [cutSize]
  cases h1 : eolSize ([x].map Prod.fst) with
  | none => rfl
  | some size1 =>
      have hle := eolSize_length h1
      obtain rfl : size1 = 1 := by
        have := eolSize_pos h1
        simp at hle
        omega
      simp [cutEolSize]

/-- The bytes of a run of line ends that its terminators do not take. -/
def leftover : List (UInt8 × Bool) → List UInt8
  | [] => []
  | x :: m =>
      match _h : cutSize (x :: m) with
      | some n => leftover ((x :: m).drop n)
      | none => x.1 :: leftover m
termination_by m => m.length
decreasing_by
  · have := cutSize_two_le _h
    simp only [List.length_drop, List.length_cons]
    omega
  · simp

theorem leftover_of_some {n : ℕ} (h : cutSize σ = some n) : leftover σ = leftover (σ.drop n) := by
  cases σ with
  | nil => simp [cutSize, eolSize] at h
  | cons x σ =>
      rw [leftover]
      split
      · rename_i n' h'
        rw [Option.some.inj (h.symm.trans h')]
      · rename_i h'
        simp [h] at h'

theorem leftover_singleton (x : UInt8 × Bool) : leftover [x] = [x.1] := by
  rw [leftover]
  split
  · rename_i h
    simp [cutSize_singleton] at h
  · simp [leftover]

/-- The events that are not empty. -/
def nonempty (events : List (List UInt8)) : List (List UInt8) := events.filter (· ≠ [])

/-- Behind a terminator the rest of a run shows empty events only. -/
theorem RunBefore.nonempty_cutEvents_nil (h : RunBefore σ t) :
    nonempty (cutEvents [] (σ ++ t)) = nonempty (cutEvents (leftover σ) t) := by
  induction hn : σ.length using Nat.strongRecOn generalizing σ with
  | ind n ih =>
      match σ, h with
      | [], _ => simp [leftover]
      | [x], h =>
          have hnone : cutSize (x :: t) = none := by
            rw [← cutSize_singleton x, ← h.cutSize_append (by simp)]
            rfl
          rw [leftover_singleton, List.singleton_append, cutEvents_of_none hnone]
          rfl
      | x :: y :: σ, h =>
          obtain ⟨k, hk, hle⟩ := exists_cutSize h.eol
          have htwo := cutSize_two_le hk
          have hcut : cutSize (x :: y :: σ ++ t) = some k :=
            (h.cutSize_append (by simp)).trans hk
          have hle' : k ≤ (x :: y :: σ).length := by simpa using hle
          rw [cutEvents_of_some hcut, leftover_of_some hk, List.drop_append_of_le_length hle',
            nonempty, List.filter_cons_of_neg (by simp)]
          apply ih _ _ (h.tail k) rfl
          rw [← hn, List.length_drop]
          simp only [List.length_cons]
          omega

/-- What a run does to an event. -/
theorem RunBefore.nonempty_cutEvents (h : RunBefore σ t) {event : List UInt8}
    (hevent : event ≠ []) :
    nonempty (cutEvents event (σ ++ t)) =
      if 2 ≤ σ.length then event :: nonempty (cutEvents (leftover σ) t)
      else nonempty (cutEvents (event ++ leftover σ) t) := by
  match σ, h with
  | [], _ => simp [leftover]
  | [x], h =>
      have hnone : cutSize (x :: t) = none := by
        rw [← cutSize_singleton x, ← h.cutSize_append (by simp)]
        rfl
      rw [leftover_singleton, List.singleton_append, cutEvents_of_none hnone]
      rfl
  | x :: y :: σ, h =>
      obtain ⟨k, hk, hle⟩ := exists_cutSize h.eol
      have hcut : cutSize (x :: y :: σ ++ t) = some k := (h.cutSize_append (by simp)).trans hk
      have hle' : k ≤ (x :: y :: σ).length := by simpa using hle
      rw [cutEvents_of_some hcut, leftover_of_some hk, List.drop_append_of_le_length hle',
        nonempty, List.filter_cons_of_pos (by simpa using hevent), if_pos (by simp)]
      congr 1
      exact (h.tail k).nonempty_cutEvents_nil

/-! ### Chunk invariance -/

/-- The runs of line ends between the other bytes of a stream, in their order;
they may be empty. -/
def lineEndRuns (m : List (UInt8 × Bool)) : List (List (UInt8 × Bool)) :=
  m.splitOnP fun x => ¬ IsEolByte x.1

theorem lineEndRuns_run (h : ∀ x ∈ σ, IsEolByte x.1) : lineEndRuns σ = [σ] := by
  apply List.splitOnP_eq_singleton
  intro x hx
  simpa using h x hx

theorem lineEndRuns_append_cons (h : ∀ x ∈ σ, IsEolByte x.1) {y : UInt8 × Bool}
    (hy : ¬ IsEolByte y.1) (m : List (UInt8 × Bool)) :
    lineEndRuns (σ ++ y :: m) = σ :: lineEndRuns m := by
  apply List.splitOnP_append_cons_of_forall_mem
  · intro x hx
    simpa using h x hx
  · simpa using hy

theorem cutEvents_text {x : UInt8 × Bool} (hx : ¬ IsEolByte x.1) (event : List UInt8)
    (m : List (UInt8 × Bool)) : cutEvents event (x :: m) = cutEvents (event ++ [x.1]) m := by
  apply cutEvents_of_none
  simp [cutSize, eolSize_eq_none_iff.mpr hx]

theorem nonempty_cutEvents_end (event : List UInt8) :
    nonempty (cutEvents event []) = if event = [] then [] else [event] := by
  by_cases h : event = [] <;> simp [cutEvents, nonempty, h]

/-- A stream is a run of line ends, and then it is at its end or a byte of text
and another stream follow. -/
theorem exists_run (bs : List UInt8) :
    (∀ b ∈ bs, IsEolByte b) ∨
      ∃ ρ c cs, bs = ρ ++ c :: cs ∧ (∀ b ∈ ρ, IsEolByte b) ∧ ¬ IsEolByte c := by
  induction bs with
  | nil => simp
  | cons b bs ih =>
      by_cases hb : IsEolByte b
      · rcases ih with hall | ⟨ρ, c, cs, rfl, hρ, hc⟩
        · left
          simpa [hb] using hall
        · exact .inr ⟨b :: ρ, c, cs, rfl, by simpa [hb] using hρ, hc⟩
      · exact .inr ⟨[], b, bs, rfl, by simp, hb⟩

theorem forall_eol_of_map {m : List (UInt8 × Bool)} {bs : List UInt8} (hm : m.map Prod.fst = bs)
    (h : ∀ b ∈ bs, IsEolByte b) : ∀ x ∈ m, IsEolByte x.1 := by
  intro x hx
  exact h x.1 (hm ▸ List.mem_map_of_mem hx)

theorem nonempty_cutEvents_end_eq_iff {event event' : List UInt8} :
    nonempty (cutEvents event []) = nonempty (cutEvents event' []) ↔ event = event' := by
  rw [nonempty_cutEvents_end, nonempty_cutEvents_end]
  by_cases h : event = [] <;> by_cases h' : event' = [] <;> simp [h, h', eq_comm]

/-- One byte of a line end is a part of the event it stands in, wherever the cuts
are. -/
theorem leftover_of_length_lt (h : σ.length < 2) : leftover σ = σ.map Prod.fst := by
  match σ, h with
  | [], _ => simp [leftover]
  | [x], _ => simp [leftover_singleton]

/-- Two ways to cut one stream, in the middle of an event: the same events come
out if and only if the cuts leave the same bytes of every run of line ends. -/
theorem nonempty_cutEvents_eq_iff {bs : List UInt8} {m m' : List (UInt8 × Bool)}
    (hm : m.map Prod.fst = bs) (hm' : m'.map Prod.fst = bs) {event event' : List UInt8}
    (hevent : event ≠ []) (hevent' : event' ≠ []) :
    nonempty (cutEvents event m) = nonempty (cutEvents event' m') ↔
      event = event' ∧ (lineEndRuns m).map leftover = (lineEndRuns m').map leftover := by
  induction hn : bs.length using Nat.strongRecOn generalizing bs m m' event event' with
  | ind n ih =>
      rcases exists_run bs with hall | ⟨ρ, c, cs, rfl, hρ, hc⟩
      · have hσ := forall_eol_of_map hm hall
        have hσ' := forall_eol_of_map hm' hall
        have hlen : m.length = m'.length := by
          simpa using congrArg List.length (hm.trans hm'.symm)
        have hrun : RunBefore m [] := ⟨hσ, by simp⟩
        have hrun' : RunBefore m' [] := ⟨hσ', by simp⟩
        have hcut := hrun.nonempty_cutEvents hevent
        have hcut' := hrun'.nonempty_cutEvents hevent'
        rw [List.append_nil] at hcut hcut'
        rw [hcut, hcut', lineEndRuns_run hσ, lineEndRuns_run hσ', hlen]
        by_cases hlong : 2 ≤ m'.length
        · rw [if_pos hlong, if_pos hlong, List.cons.injEq, nonempty_cutEvents_end_eq_iff]
          simp
        · rw [if_neg hlong, if_neg hlong, nonempty_cutEvents_end_eq_iff,
            leftover_of_length_lt (by omega), leftover_of_length_lt (by omega), hm, hm']
          simp [leftover_of_length_lt (by omega : m.length < 2),
            leftover_of_length_lt (by omega : m'.length < 2), hm, hm']
      · obtain ⟨σ, t, rfl, hσρ, ht⟩ := List.map_eq_append_iff.mp hm
        obtain ⟨σ', t', rfl, hσρ', ht'⟩ := List.map_eq_append_iff.mp hm'
        obtain ⟨x, m, rfl, rfl, hmcs⟩ := List.map_eq_cons_iff.mp ht
        obtain ⟨x', m', rfl, hx', hmcs'⟩ := List.map_eq_cons_iff.mp ht'
        have hσ := forall_eol_of_map hσρ hρ
        have hσ' := forall_eol_of_map hσρ' hρ
        have hc' : ¬ IsEolByte x'.1 := hx' ▸ hc
        have hlen : σ.length = σ'.length := by
          simpa using congrArg List.length (hσρ.trans hσρ'.symm)
        have hrun : RunBefore σ (x :: m) := ⟨hσ, by simpa using hc⟩
        have hrun' : RunBefore σ' (x' :: m') := ⟨hσ', by simpa using hc'⟩
        have hlt : cs.length < n := by
          simp only [List.length_append, List.length_cons] at hn
          omega
        rw [hrun.nonempty_cutEvents hevent, hrun'.nonempty_cutEvents hevent',
          lineEndRuns_append_cons hσ hc, lineEndRuns_append_cons hσ' hc', hlen]
        simp only [cutEvents_text hc, cutEvents_text hc', hx', List.map_cons, List.cons.injEq]
        by_cases hlong : 2 ≤ σ'.length
        · rw [if_pos hlong, if_pos hlong, List.cons.injEq,
            ih _ hlt hmcs hmcs' (by simp) (by simp) rfl]
          simp
        · rw [if_neg hlong, if_neg hlong, ih _ hlt hmcs hmcs' (by simp) (by simp) rfl,
            leftover_of_length_lt (by omega : σ.length < 2),
            leftover_of_length_lt (by omega : σ'.length < 2), hσρ, hσρ']
          simp

/-- The same from the start of the stream. -/
theorem nonempty_cutEvents_nil_eq_iff {bs : List UInt8} {m m' : List (UInt8 × Bool)}
    (hm : m.map Prod.fst = bs) (hm' : m'.map Prod.fst = bs) :
    nonempty (cutEvents [] m) = nonempty (cutEvents [] m') ↔
      (lineEndRuns m).map leftover = (lineEndRuns m').map leftover := by
  rcases exists_run bs with hall | ⟨ρ, c, cs, rfl, hρ, hc⟩
  · have hσ := forall_eol_of_map hm hall
    have hσ' := forall_eol_of_map hm' hall
    have hrun : RunBefore m [] := ⟨hσ, by simp⟩
    have hrun' : RunBefore m' [] := ⟨hσ', by simp⟩
    have hcut := hrun.nonempty_cutEvents_nil
    have hcut' := hrun'.nonempty_cutEvents_nil
    rw [List.append_nil] at hcut hcut'
    rw [hcut, hcut', lineEndRuns_run hσ, lineEndRuns_run hσ', nonempty_cutEvents_end_eq_iff]
    simp
  · obtain ⟨σ, t, rfl, hσρ, ht⟩ := List.map_eq_append_iff.mp hm
    obtain ⟨σ', t', rfl, hσρ', ht'⟩ := List.map_eq_append_iff.mp hm'
    obtain ⟨x, m, rfl, rfl, hmcs⟩ := List.map_eq_cons_iff.mp ht
    obtain ⟨x', m', rfl, hx', hmcs'⟩ := List.map_eq_cons_iff.mp ht'
    have hσ := forall_eol_of_map hσρ hρ
    have hσ' := forall_eol_of_map hσρ' hρ
    have hc' : ¬ IsEolByte x'.1 := hx' ▸ hc
    have hrun : RunBefore σ (x :: m) := ⟨hσ, by simpa using hc⟩
    have hrun' : RunBefore σ' (x' :: m') := ⟨hσ', by simpa using hc'⟩
    rw [hrun.nonempty_cutEvents_nil, hrun'.nonempty_cutEvents_nil,
      lineEndRuns_append_cons hσ hc, lineEndRuns_append_cons hσ' hc', cutEvents_text hc,
      cutEvents_text hc', hx', nonempty_cutEvents_eq_iff hmcs hmcs' (by simp) (by simp)]
    simp

theorem map_fst_marks (pieces : List (List UInt8)) :
    (marks pieces).map Prod.fst = pieces.flatten := by
  rw [marks, List.map_flatMap]
  simp only [map_fst_mark]
  exact List.flatMap_id

theorem events_default (pieces : List (List UInt8)) :
    events default pieces = cutEvents [] (marks pieces) := by
  rw [events_eq _ (by simp [rest, default, firstEvent])]
  simp [rest, default, unmarked]

/-- A stream that comes in pieces has the events of the whole stream if and only
if the cuts leave the same bytes of every run of line ends behind the terminators
as there are without them. -/
theorem events_eq_whole_iff (pieces : List (List UInt8)) :
    nonempty (events default pieces) = nonempty (events default [pieces.flatten]) ↔
      (lineEndRuns (marks pieces)).map leftover =
        (lineEndRuns (marks [pieces.flatten])).map leftover := by
  rw [events_default, events_default]
  apply nonempty_cutEvents_nil_eq_iff (map_fst_marks pieces)
  rw [map_fst_marks, List.flatten_singleton]

/-- A cut between the CR and the LF of the second line end: the LF comes to the
start of the next event. -/
theorem events_ne_whole :
    nonempty (events default [[97, 10, 13], [10, 98]]) = [[97], [10, 98]] ∧
      nonempty (events default [[97, 10, 13, 10, 98]]) = [[97], [98]] ∧
      nonempty (events default [[97, 10, 13], [10, 98]]) ≠
        nonempty (events default [[97, 10, 13, 10, 98]]) := by
  decide +kernel

end EventStream

end Higress.Wasm
