import Mathlib.Data.List.Basic

/-!
The events of a `text/event-stream` body. A line ends with LF, CR or CRLF, and an event
ends with two line endings in a row. Events are kept with their line endings, so that
they and what is left behind the last of them are the whole body again.

A body that may still go on is open: a CR at its end is not a line ending yet, since an
LF may follow. The events of an open body stay the same when it goes on, and where the
next event ends can be told from what follows and the last two bytes.
-/

namespace Higress.Lib.EventSplit

/-- The size of the line ending at the start, if there is one. -/
def lineSize (closed : Bool) : List UInt8 → Option ℕ
  | [] => none
  | b :: s =>
      if b = 10 then some 1
      else if b = 13 then
        if s.head? = some 10 then some 2
        else if s = [] ∧ closed = false then none
        else some 1
      else none

theorem lineSize_bounds {closed : Bool} {s : List UInt8} {n : ℕ} (h : lineSize closed s = some n) :
    0 < n ∧ n ≤ s.length := by
  cases s with
  | nil => simp [lineSize] at h
  | cons b s =>
      rw [lineSize] at h
      split at h
      · obtain rfl := Option.some.inj h
        simp
      · split at h
        · split at h
          · rename_i hlf
            obtain rfl := Option.some.inj h
            cases s with
            | nil => simp at hlf
            | cons c s => simp
          · split at h
            · cases h
            · obtain rfl := Option.some.inj h
              simp
        · cases h

/-- In an open body, what is not a line ending is text or a CR at the end. -/
theorem text_or_cr_of_lineSize {b : UInt8} {s : List UInt8} (h : lineSize false (b :: s) = none) :
    (b ≠ 10 ∧ b ≠ 13) ∨ s = [] := by
  rw [lineSize] at h
  split at h
  · cases h
  · split at h
    · split at h
      · cases h
      · split at h
        · rename_i hnil
          exact .inr hnil.1
        · cases h
    · exact .inl ⟨‹_›, ‹_›⟩

/-- Where the first event ends. -/
def eventEnd (closed : Bool) : List UInt8 → Option ℕ
  | [] => none
  | b :: s =>
      match h : lineSize closed (b :: s) with
      | none => (eventEnd closed s).map (· + 1)
      | some n =>
          match lineSize closed ((b :: s).drop n) with
          | some m => some (n + m)
          | none => (eventEnd closed ((b :: s).drop n)).map (· + n)
termination_by s => s.length
decreasing_by
  · simp
  · have := lineSize_bounds h
    simp only [List.length_drop]
    omega

theorem eventEnd_cons (closed : Bool) (b : UInt8) (s : List UInt8) :
    eventEnd closed (b :: s) =
      (match lineSize closed (b :: s) with
      | none => (eventEnd closed s).map (· + 1)
      | some n =>
          match lineSize closed ((b :: s).drop n) with
          | some m => some (n + m)
          | none => (eventEnd closed ((b :: s).drop n)).map (· + n)) := by
  rw [eventEnd]
  cases lineSize closed (b :: s) <;> rfl

@[simp] theorem eventEnd_nil (closed : Bool) : eventEnd closed [] = none := by
  rw [eventEnd]

theorem eventEnd_text {closed : Bool} {b : UInt8} {s : List UInt8} (h : lineSize closed (b :: s) = none) :
    eventEnd closed (b :: s) = (eventEnd closed s).map (· + 1) := by
  rw [eventEnd_cons, h]

theorem eventEnd_two {closed : Bool} {s : List UInt8} {n m : ℕ} (h : lineSize closed s = some n)
    (h' : lineSize closed (s.drop n) = some m) : eventEnd closed s = some (n + m) := by
  cases s with
  | nil => simp [lineSize] at h
  | cons b s =>
      rw [eventEnd_cons, h]
      dsimp only
      rw [h']

theorem eventEnd_one {closed : Bool} {s : List UInt8} {n : ℕ} (h : lineSize closed s = some n)
    (h' : lineSize closed (s.drop n) = none) :
    eventEnd closed s = (eventEnd closed (s.drop n)).map (· + n) := by
  cases s with
  | nil => simp [lineSize] at h
  | cons b s =>
      rw [eventEnd_cons, h]
      dsimp only
      rw [h']

theorem eventEnd_singleton (closed : Bool) (b : UInt8) : eventEnd closed [b] = none := by
  rw [eventEnd_cons]
  cases hsize : lineSize closed [b] with
  | none => simp
  | some n =>
      have hn : n = 1 := by
        have := lineSize_bounds hsize
        simp only [List.length_singleton] at this
        omega
      subst hn
      simp [lineSize]

theorem eventEnd_bounds {closed : Bool} {s : List UInt8} {n : ℕ} (h : eventEnd closed s = some n) :
    0 < n ∧ n ≤ s.length := by
  induction hlen : s.length using Nat.strongRecOn generalizing s n with
  | _ len ih =>
      cases s with
      | nil => simp at h
      | cons b s =>
          rw [eventEnd_cons] at h
          cases hfirst : lineSize closed (b :: s) with
          | none =>
              rw [hfirst] at h
              obtain ⟨m, hm, rfl⟩ := Option.map_eq_some_iff.mp h
              have := ih s.length (by simp [← hlen]) hm rfl
              simp only [List.length_cons] at hlen
              omega
          | some k =>
              have hk := lineSize_bounds hfirst
              rw [hfirst] at h
              dsimp only at h
              cases hsecond : lineSize closed ((b :: s).drop k) with
              | some m =>
                  rw [hsecond] at h
                  obtain rfl := Option.some.inj h
                  have hm := lineSize_bounds hsecond
                  rw [List.length_drop] at hm
                  omega
              | none =>
                  rw [hsecond] at h
                  obtain ⟨m, hm, rfl⟩ := Option.map_eq_some_iff.mp h
                  have hlast := ih ((b :: s).drop k).length
                    (by rw [List.length_drop]; omega) hm rfl
                  rw [List.length_drop] at hlast
                  omega

/-- The events of a body, and what is left behind the last of them. -/
def splitEvents (closed : Bool) (s : List UInt8) : List (List UInt8) × List UInt8 :=
  match _h : eventEnd closed s with
  | none => ([], s)
  | some n =>
      let (events, rest) := splitEvents closed (s.drop n)
      (s.take n :: events, rest)
termination_by s.length
decreasing_by
  have := eventEnd_bounds _h
  rw [List.length_drop]
  omega

theorem splitEvents_of_none {closed : Bool} {s : List UInt8} (h : eventEnd closed s = none) :
    splitEvents closed s = ([], s) := by
  rw [splitEvents]
  split
  · rfl
  · rename_i hsome
    rw [h] at hsome
    cases hsome

theorem splitEvents_of_some {closed : Bool} {s : List UInt8} {n : ℕ} (h : eventEnd closed s = some n) :
    splitEvents closed s =
      (s.take n :: (splitEvents closed (s.drop n)).1, (splitEvents closed (s.drop n)).2) := by
  rw [splitEvents]
  split
  · rename_i hnone
    rw [h] at hnone
    cases hnone
  · rename_i m hsome
    obtain rfl : m = n := Option.some.inj (hsome.symm.trans h)
    rfl

/-- Induction over the events of a body. -/
theorem split_induction {closed : Bool} {P : List UInt8 → Prop}
    (hnone : ∀ s, eventEnd closed s = none → P s)
    (hsome : ∀ s n, eventEnd closed s = some n → P (s.drop n) → P s) (s : List UInt8) : P s := by
  induction hlen : s.length using Nat.strongRecOn generalizing s with
  | _ len ih =>
      cases hend : eventEnd closed s with
      | none => exact hnone s hend
      | some n =>
          have hn := eventEnd_bounds hend
          exact hsome s n hend (ih (s.drop n).length (by rw [List.length_drop]; omega) _ rfl)

theorem flatten_splitEvents (closed : Bool) (s : List UInt8) :
    (splitEvents closed s).1.flatten ++ (splitEvents closed s).2 = s := by
  refine @split_induction closed
    (fun s => (splitEvents closed s).1.flatten ++ (splitEvents closed s).2 = s) ?_ ?_ s
  · intro s h
    rw [splitEvents_of_none h]
    rfl
  · intro s n h ih
    rw [splitEvents_of_some h, List.flatten_cons, List.append_assoc, ih, List.take_append_drop]

theorem eventEnd_rest (closed : Bool) (s : List UInt8) :
    eventEnd closed (splitEvents closed s).2 = none := by
  refine @split_induction closed (fun s => eventEnd closed (splitEvents closed s).2 = none) ?_ ?_ s
  · intro s h
    rwa [splitEvents_of_none h]
  · intro s n h ih
    rwa [splitEvents_of_some h]

/-! ### What is known of the line endings so far -/

/-- What has been seen last of an open body: text, a CR of which it is not known yet what
it is, a line ending, or a line ending and then such a CR. -/
inductive Seen
  | text
  | cr
  | line
  | lineCr
  deriving DecidableEq

/-- The next byte, unless the event ends with it or before it. -/
def Seen.next : Seen → UInt8 → Seen
  | .text, b => if b = 10 then .line else if b = 13 then .cr else .text
  | .cr, b => if b = 10 then .line else if b = 13 then .lineCr else .text
  | .line, b => if b = 13 then .lineCr else .text
  | .lineCr, _ => .text

/-- Where the event ends. -/
def Seen.ends : Seen → List UInt8 → Option ℕ
  | _, [] => none
  | .line, b :: s => if b = 10 then some 1 else (Seen.ends (Seen.next .line b) s).map (· + 1)
  | .lineCr, b :: _ => if b = 10 then some 1 else some 0
  | .text, b :: s => (Seen.ends (Seen.next .text b) s).map (· + 1)
  | .cr, b :: s => (Seen.ends (Seen.next .cr b) s).map (· + 1)

/-- What has been seen last after some bytes in which the event does not end. -/
def Seen.after (seen : Seen) (s : List UInt8) : Seen := s.foldl Seen.next seen

namespace Seen

theorem ends_append (seen : Seen) (s t : List UInt8) :
    seen.ends (s ++ t) =
      (match seen.ends s with
      | some n => some n
      | none => ((seen.after s).ends t).map (· + s.length)) := by
  induction s generalizing seen with
  | nil => simp [ends, after]
  | cons b s ih =>
      have hmore : ((seen.next b).ends (s ++ t)).map (· + 1) =
          (match ((seen.next b).ends s).map (· + 1) with
          | some n => some n
          | none => (((seen.next b).after s).ends t).map (· + (b :: s).length)) := by
        rw [ih]
        cases hs : (seen.next b).ends s with
        | some n => rfl
        | none => simp [Function.comp_def, Nat.add_assoc]
      cases seen with
      | text => exact hmore
      | cr => exact hmore
      | line =>
          by_cases hb : b = 10
          · simp [ends, hb]
          · simp only [List.cons_append, ends, if_neg hb]
            exact hmore
      | lineCr =>
          by_cases hb : b = 10
          · simp [ends, hb]
          · simp [ends, hb]

/-- After two bytes it does not matter any more what was seen before them. -/
theorem after_pair (seen : Seen) {b c : UInt8} (h : seen.ends [b, c] = none) :
    seen.after [b, c] = Seen.text.after [b, c] ∧ Seen.text.ends [b, c] = none := by
  by_cases hb : b = 10
  · cases seen <;> by_cases hc : c = 10 <;> by_cases hc' : c = 13 <;>
      simp_all [ends, after, next]
  · by_cases hb' : b = 13
    · cases seen <;> by_cases hc : c = 10 <;> by_cases hc' : c = 13 <;>
        simp_all [ends, after, next]
    · cases seen <;> by_cases hc : c = 10 <;> by_cases hc' : c = 13 <;>
        simp_all [ends, after, next]

/-- From the third byte on as well. -/
theorem after_of_two_le (seen : Seen) {u : List UInt8} (hu : 2 ≤ u.length) (h : seen.ends u = none) :
    seen.after u = Seen.text.after u ∧ Seen.text.ends u = none := by
  obtain ⟨b, c, v, rfl⟩ : ∃ b c v, u = b :: c :: v := by
    cases u with
    | nil => simp at hu
    | cons b u =>
        cases u with
        | nil => simp at hu
        | cons c v => exact ⟨b, c, v, rfl⟩
  have hsplit : seen.ends ([b, c] ++ v) = none := h
  rw [ends_append] at hsplit
  cases hpair : seen.ends [b, c] with
  | some n =>
      rw [hpair] at hsplit
      cases hsplit
  | none =>
      obtain ⟨hafter, hends⟩ := after_pair seen hpair
      rw [hpair] at hsplit
      have hrest : (seen.after [b, c]).ends v = none := by simpa using hsplit
      constructor
      · exact congrArg (fun x : Seen => x.after v) hafter
      · show Seen.text.ends ([b, c] ++ v) = none
        rw [ends_append, hends, ← hafter, hrest]
        rfl

/-- After a line ending, the next one ends the event. -/
theorem ends_line (s : List UInt8) :
    Seen.line.ends s =
      (match lineSize false s with
      | some m => some m
      | none => Seen.text.ends s) := by
  cases s with
  | nil => rfl
  | cons b s =>
      by_cases hb : b = 10
      · simp [ends, lineSize, hb]
      · by_cases hb' : b = 13
        · cases s with
          | nil => simp [ends, lineSize, hb']
          | cons c s =>
              by_cases hc : c = 10
              · simp [ends, lineSize, hb', hc, next]
              · simp [ends, lineSize, hb', hc, next]
        · simp [ends, lineSize, hb, hb', next]

/-- A CR before anything but an LF is a line ending. -/
theorem ends_cr {c : UInt8} (hc : c ≠ 10) (s : List UInt8) :
    Seen.cr.ends (c :: s) = Seen.line.ends (c :: s) := by
  by_cases hc' : c = 13
  · simp [ends, hc', next]
  · simp [ends, hc, hc', next]

end Seen

theorem eventEnd_eq (s : List UInt8) : eventEnd false s = Seen.text.ends s := by
  induction hlen : s.length using Nat.strongRecOn generalizing s with
  | _ len ih =>
      have hdrop : ∀ {n}, 0 < n → n ≤ s.length →
          eventEnd false (s.drop n) = Seen.text.ends (s.drop n) := by
        intro n hn hle
        exact ih _ (by rw [List.length_drop]; omega) _ rfl
      cases s with
      | nil => simp [Seen.ends]
      | cons b s =>
          have htext : eventEnd false s = Seen.text.ends s := by
            simpa using @hdrop 1 (by omega) (by simp)
          rw [eventEnd_cons]
          by_cases hb : b = 10
          · have hsize : lineSize false (b :: s) = some 1 := by simp [lineSize, hb]
            rw [hsize]
            simp only [List.drop_succ_cons, List.drop_zero]
            rw [show Seen.text.ends (b :: s) = (Seen.line.ends s).map (· + 1) by
              simp [Seen.ends, Seen.next, hb], Seen.ends_line, htext]
            cases lineSize false s with
            | none => rfl
            | some m => simp [Nat.add_comm]
          · by_cases hb' : b = 13
            · cases s with
              | nil => simp [lineSize, hb', Seen.ends]
              | cons c s =>
                  by_cases hc : c = 10
                  · have hsize : lineSize false (b :: c :: s) = some 2 := by simp [lineSize, hb', hc]
                    have htext' : eventEnd false s = Seen.text.ends s := by
                      simpa using @hdrop 2 (by omega) (by simp)
                    rw [hsize]
                    simp only [List.drop_succ_cons, List.drop_zero]
                    rw [show Seen.text.ends (b :: c :: s) = (Seen.line.ends s).map (· + 2) by
                      simp [Seen.ends, Seen.next, hb', hc, Function.comp_def], Seen.ends_line, htext']
                    cases lineSize false s with
                    | none => rfl
                    | some m => simp [Nat.add_comm]
                  · have hsize : lineSize false (b :: c :: s) = some 1 := by simp [lineSize, hb', hc]
                    rw [hsize]
                    simp only [List.drop_succ_cons, List.drop_zero]
                    rw [show Seen.text.ends (b :: c :: s) = (Seen.cr.ends (c :: s)).map (· + 1) by
                      simp [Seen.ends, Seen.next, hb'], Seen.ends_cr hc, Seen.ends_line, htext]
                    cases lineSize false (c :: s) with
                    | none => rfl
                    | some m => simp [Nat.add_comm]
            · have hsize : lineSize false (b :: s) = none := by simp [lineSize, hb, hb']
              rw [hsize]
              simp [Seen.ends, Seen.next, hb, hb', htext]

/-! ### Open bodies -/

theorem eventEnd_append_of_some {s : List UInt8} {n : ℕ} (h : eventEnd false s = some n)
    (t : List UInt8) : eventEnd false (s ++ t) = some n := by
  rw [eventEnd_eq] at h ⊢
  rw [Seen.ends_append, h]

/-- The events of an open body are not changed by what follows. -/
theorem splitEvents_append (s t : List UInt8) :
    splitEvents false (s ++ t) =
      ((splitEvents false s).1 ++ (splitEvents false ((splitEvents false s).2 ++ t)).1,
        (splitEvents false ((splitEvents false s).2 ++ t)).2) := by
  refine @split_induction false (fun s => splitEvents false (s ++ t) =
    ((splitEvents false s).1 ++ (splitEvents false ((splitEvents false s).2 ++ t)).1,
      (splitEvents false ((splitEvents false s).2 ++ t)).2)) ?_ ?_ s
  · intro s h
    rw [splitEvents_of_none h, List.nil_append]
  · intro s n h ih
    have hle := (eventEnd_bounds h).2
    rw [splitEvents_of_some (eventEnd_append_of_some h t), splitEvents_of_some h,
      List.take_append_of_le_length hle, List.drop_append_of_le_length hle, ih]
    rfl

/-- Where the next event ends can be told from two bytes or more before. -/
theorem eventEnd_of_suffix {p u : List UInt8} (hu : 2 ≤ u.length) (h : eventEnd false (p ++ u) = none)
    (t : List UInt8) :
    eventEnd false u = none ∧
      eventEnd false (p ++ u ++ t) = (eventEnd false (u ++ t)).map (· + p.length) := by
  rw [eventEnd_eq, Seen.ends_append] at h
  cases hp : Seen.text.ends p with
  | some n => simp [hp] at h
  | none =>
      have hrest : (Seen.text.after p).ends u = none := by simpa [hp] using h
      obtain ⟨hafter, hends⟩ := Seen.after_of_two_le _ hu hrest
      refine ⟨by rw [eventEnd_eq, hends], ?_⟩
      rw [eventEnd_eq, eventEnd_eq, List.append_assoc, Seen.ends_append, hp]
      dsimp only
      rw [Seen.ends_append, Seen.ends_append, hrest, hends, hafter]

/-- An event that ends only with what follows does not end before. -/
theorem le_of_eventEnd_append {u t : List UInt8} {n : ℕ} (h : eventEnd false u = none)
    (hn : eventEnd false (u ++ t) = some n) : u.length ≤ n := by
  rw [eventEnd_eq] at h hn
  rw [Seen.ends_append, h] at hn
  obtain ⟨m, -, rfl⟩ := Option.map_eq_some_iff.mp hn
  omega

/-! ### Lines -/

/-- An event of one line. -/
theorem eventEnd_line {closed : Bool} {line : List UInt8} (h : ∀ b ∈ line, b ≠ 10 ∧ b ≠ 13)
    (rest : List UInt8) : eventEnd closed (line ++ 10 :: 10 :: rest) = some (line.length + 2) := by
  induction line with
  | nil => exact eventEnd_two (n := 1) (m := 1) rfl rfl
  | cons b line ih =>
      obtain ⟨hlf, hcr⟩ := h b List.mem_cons_self
      have hsize : lineSize closed (b :: (line ++ 10 :: 10 :: rest)) = none := by
        simp [lineSize, hlf, hcr]
      rw [List.cons_append, eventEnd_text hsize, ih fun b hb => h b (List.mem_cons_of_mem _ hb)]
      simp only [Option.map_some, List.length_cons]

/-- Events of one line each. -/
theorem splitEvents_lines {closed : Bool} {lines : List (List UInt8)}
    (h : ∀ line ∈ lines, ∀ b ∈ line, b ≠ 10 ∧ b ≠ 13) :
    splitEvents closed (lines.map (· ++ [10, 10])).flatten = (lines.map (· ++ [10, 10]), []) := by
  induction lines with
  | nil => exact splitEvents_of_none (eventEnd_nil closed)
  | cons line lines ih =>
      have hend := @eventEnd_line closed line (h line List.mem_cons_self)
        (lines.map (· ++ [10, 10])).flatten
      have hbody : ((line :: lines).map (· ++ [10, 10])).flatten =
          line ++ 10 :: 10 :: (lines.map (· ++ [10, 10])).flatten := by simp
      have hsplit : line ++ 10 :: 10 :: (lines.map (· ++ [10, 10])).flatten =
          (line ++ [10, 10]) ++ (lines.map (· ++ [10, 10])).flatten := by simp
      have hlen : (line ++ [10, 10]).length = line.length + 2 := by simp
      rw [hbody, splitEvents_of_some hend, hsplit, ← hlen, List.take_left, List.drop_left,
        ih fun line hline => h line (List.mem_cons_of_mem _ hline)]
      rfl

end Higress.Lib.EventSplit
