import Mathlib
import Higress.Lib.GoString

/-!
The reader of server-sent events in the proxy of MCP servers
(`sse_proxy.go`). Response chunks are appended to a buffer and
`ParseSSEMessage` is called on the buffer until it holds no complete message.
The parser scans lines with a `bufio.Scanner` and computes how much it has
consumed from the lengths of the lines, not from the scanner's position.
-/

namespace Higress.Mcp.Sse

open Higress.Lib

/-! ### Lines -/

/-- The lines of a text that end in a line feed, without it, and the
unterminated rest. -/
def splitLines : GoString → List GoString × GoString
  | [] => ([], [])
  | b :: s =>
      if b = 10 then ([] :: (splitLines s).1, (splitLines s).2)
      else match splitLines s with
        | ([], tail) => ([], b :: tail)
        | (l :: ls, tail) => ((b :: l) :: ls, tail)

/-- The text made of the given lines, each ended by a line feed. -/
def unlines (ls : List GoString) : GoString := ls.flatMap (· ++ [10])

@[simp] theorem unlines_nil : unlines [] = [] := rfl

@[simp] theorem unlines_cons (l : GoString) (ls : List GoString) :
    unlines (l :: ls) = l ++ 10 :: unlines ls := by
  simp [unlines]

@[simp] theorem unlines_append (ls ms : List GoString) :
    unlines (ls ++ ms) = unlines ls ++ unlines ms := by
  simp [unlines]

theorem unlines_splitLines (s : GoString) :
    unlines (splitLines s).1 ++ (splitLines s).2 = s := by
  induction s with
  | nil => rfl
  | cons b s ih =>
      rw [splitLines]
      split
      · rename_i hb
        simp [hb, ih]
      · split
        · rename_i heq
          rw [heq] at ih
          simpa using ih
        · rename_i heq
          rw [heq] at ih
          simpa using ih

/-- Whole lines in front of a text are split off it as they are. -/
theorem splitLines_unlines {ls : List GoString} (hls : ∀ l ∈ ls, (10 : UInt8) ∉ l)
    (s : GoString) :
    splitLines (unlines ls ++ s) = (ls ++ (splitLines s).1, (splitLines s).2) := by
  induction ls with
  | nil => simp
  | cons l ls ih =>
      have ih := ih fun m hm => hls m (List.mem_cons_of_mem _ hm)
      have hl : (10 : UInt8) ∉ l := hls l List.mem_cons_self
      rw [unlines_cons, List.append_assoc, List.cons_append]
      induction l with
      | nil => simp [splitLines, ih]
      | cons b l ihl =>
          simp only [List.mem_cons, not_or] at hl
          have hrest := ihl (by
            intro m hm
            rcases List.mem_cons.mp hm with rfl | hm
            · exact hl.2
            · exact hls m (List.mem_cons_of_mem _ hm)) hl.2
          rw [List.cons_append, splitLines, if_neg (Ne.symm hl.1), hrest]
          rfl

/-- A line of the input as the scanner sees it: its bytes without the line
feed, and whether there was one. -/
structure Line where
  raw : GoString
  terminated : Bool
  deriving DecidableEq

/-- The tokens of `bufio.ScanLines`: an unterminated last line counts unless
it is empty. -/
def scanLines (data : GoString) : List Line :=
  (splitLines data).1.map (⟨·, true⟩) ++
    (if (splitLines data).2 = [] then [] else [⟨(splitLines data).2, false⟩])

/-- `dropCR` of `bufio`: one trailing carriage return is not part of the line. -/
def dropCR (l : GoString) : GoString := if l.getLast? = some 13 then l.dropLast else l

theorem dropCR_length_le (l : GoString) : (dropCR l).length ≤ l.length := by
  rw [dropCR]
  split <;> simp

theorem dropCR_length_eq {l : GoString} :
    (dropCR l).length = l.length ↔ l.getLast? ≠ some 13 := by
  rw [dropCR]
  split
  · rename_i h
    have hne : l ≠ [] := by
      rintro rfl
      simp at h
    have := List.length_pos_of_ne_nil hne
    simp only [List.length_dropLast, h, ne_eq, not_true_eq_false, iff_false]
    omega
  · rename_i h
    simp [h]

/-! ### The parser -/

structure SSEMessage where
  Event : GoString
  Data : GoString
  ID : GoString
  deriving DecidableEq

def SSEMessage.empty : SSEMessage := ⟨[], [], []⟩

/-- A blank line ends a message only if one of the fields is set. -/
def SSEMessage.pending (msg : SSEMessage) : Bool :=
  msg.Event ≠ [] || msg.Data ≠ [] || msg.ID ≠ []

/-- The part of the loop body of `ParseSSEMessage` that reads a field. -/
def SSEMessage.addLine (msg : SSEMessage) (line : GoString) : SSEMessage :=
  -- comment lines
  if Strings.startsWith line (bytes ":") then msg
  else match Strings.index line (bytes ":") with
    | none => msg
    | some i =>
        let field := line.take i
        let value := Strings.trimSpace (line.drop (i + 1))
        if field = bytes "event" then { msg with Event := value }
        else if field = bytes "data" then
          { msg with Data := if msg.Data ≠ [] then msg.Data ++ [10] ++ value else value }
        else if field = bytes "id" then { msg with ID := value }
        else msg

def isBlank (line : GoString) : Bool := Strings.trimSpace line = []

/-- The scanner's `maxTokenSize`, 32MB. -/
def maxTokenSize : ℕ := 32 * 1024 * 1024

/-- What a call of `ParseSSEMessage` comes to. The last case is the run-time
panic of `data[lastPos:]`. -/
inductive Parsed where
  | message (msg : SSEMessage) (remaining : GoString)
  | incomplete (remaining : GoString)
  | tooLong
  | outOfRange
  deriving DecidableEq

/-- `return msg, data[lastPos:], nil`. -/
def slice (data : GoString) (msg : SSEMessage) (lastPos : ℕ) : Parsed :=
  if lastPos ≤ data.length then .message msg (data.drop lastPos) else .outOfRange

/-- The loop of `ParseSSEMessage` over the lines of `data`. The scanner fails
on a line whose first 32MB hold no line feed. -/
def parseLines (data : GoString) : SSEMessage → ℕ → List Line → Parsed
  | _, _, [] => .incomplete data
  | msg, lastPos, l :: ls =>
      if maxTokenSize ≤ l.raw.length then .tooLong
      else
        let line := dropCR l.raw
        let lastPos := lastPos + (line.length + 1)
        if isBlank line then
          if msg.pending then slice data msg lastPos
          else parseLines data msg lastPos ls
        else parseLines data (msg.addLine line) lastPos ls

def parseSSEMessage (data : GoString) : Parsed :=
  parseLines data SSEMessage.empty 0 (scanLines data)

/-! ### What a call should return -/

/-- The fields read from lines none of which ends a message or is too long. -/
def collect : SSEMessage → List GoString → Option SSEMessage
  | msg, [] => some msg
  | msg, raw :: ls =>
      if maxTokenSize ≤ raw.length then none
      else if isBlank (dropCR raw) then if msg.pending then none else collect msg ls
      else collect (msg.addLine (dropCR raw)) ls

/-- The line `l` after the lines `ls` is the blank line that ends the first
message, which is `msg`. -/
def Completes (msg : SSEMessage) (ls : List GoString) (l : GoString) : Prop :=
  collect SSEMessage.empty ls = some msg ∧ msg.pending = true ∧ l.length < maxTokenSize ∧
    isBlank (dropCR l) = true

instance (msg : SSEMessage) (ls : List GoString) (l : GoString) : Decidable (Completes msg ls l) :=
  inferInstanceAs (Decidable (_ ∧ _ ∧ _ ∧ _))

/-- The first message of `data` is `msg`, and `remaining` is the part of `data`
after the line terminator of the blank line that ends it. -/
def EndsAt (data : GoString) (msg : SSEMessage) (remaining : GoString) : Prop :=
  ∃ ls l, (∀ m ∈ ls ++ [l], (10 : UInt8) ∉ m) ∧ data = unlines (ls ++ [l]) ++ remaining ∧
    Completes msg ls l

/-- The call stays in range, and what it leaves is what follows the message. -/
def ExactConsumption (data : GoString) : Prop :=
  parseSSEMessage data ≠ .outOfRange ∧
    ∀ msg remaining, parseSSEMessage data = .message msg remaining → EndsAt data msg remaining

/-- Every line up to the end of the first message has a line feed as its
terminator and no carriage return before it. -/
def BareLineFeeds (data : GoString) : Prop :=
  ∀ msg ls l more, scanLines data = ls ++ l :: more →
    Completes msg (ls.map Line.raw) l.raw →
    ∀ m ∈ ls ++ [l], m.terminated = true ∧ m.raw.getLast? ≠ some 13

theorem collect_append (msg : SSEMessage) (ls ms : List GoString) :
    collect msg (ls ++ ms) = (collect msg ls).bind fun msg' => collect msg' ms := by
  induction ls generalizing msg with
  | nil => rfl
  | cons l ls ih =>
      rw [List.cons_append, collect, collect]
      split
      · rfl
      · split
        · split
          · rfl
          · exact ih _
        · exact ih _

/-- No line after the one that ends the message is looked at. -/
theorem Completes.collect_eq_none {msg : SSEMessage} {ls : List GoString} {l : GoString}
    (h : Completes msg ls l) (more : List GoString) :
    collect SSEMessage.empty (ls ++ l :: more) = none := by
  obtain ⟨hls, hmsg, hlen, hl⟩ := h
  rw [collect_append, hls, Option.bind_some, collect, if_neg (by omega), if_pos hl, if_pos hmsg]

theorem Completes.unique {msg msg' : SSEMessage} {ls ls' more more' : List GoString}
    {l l' : GoString} (h : Completes msg ls l) (h' : Completes msg' ls' l')
    (heq : ls ++ l :: more = ls' ++ l' :: more') : ls = ls' ∧ l = l' := by
  -- the longer of the two would have read over the end of the shorter
  rcases List.append_eq_append_iff.mp heq with ⟨as, rfl, has⟩ | ⟨as, rfl, has⟩
  · cases as with
    | nil => exact ⟨(List.append_nil ls).symm, (List.cons.inj has).1⟩
    | cons a as =>
        obtain ⟨rfl, -⟩ := List.cons.inj has
        exact absurd h'.1 (by simp [h.collect_eq_none])
  · cases as with
    | nil => exact ⟨List.append_nil ls', (List.cons.inj has).1.symm⟩
    | cons a as =>
        obtain ⟨rfl, -⟩ := List.cons.inj has
        exact absurd h.1 (by simp [h'.collect_eq_none])

/-- Where the lines end a message or are too long. -/
theorem collect_eq_none {msg : SSEMessage} {ls : List GoString} (h : collect msg ls = none) :
    ∃ as l bs msg', ls = as ++ l :: bs ∧ collect msg as = some msg' ∧
      (maxTokenSize ≤ l.length ∨
        msg'.pending = true ∧ l.length < maxTokenSize ∧ isBlank (dropCR l) = true) := by
  induction ls generalizing msg with
  | nil => simp [collect] at h
  | cons l ls ih =>
      by_cases hlen : maxTokenSize ≤ l.length
      · exact ⟨[], l, ls, msg, rfl, rfl, Or.inl hlen⟩
      by_cases hend : isBlank (dropCR l) = true ∧ msg.pending = true
      · exact ⟨[], l, ls, msg, rfl, rfl, Or.inr ⟨hend.2, by omega, hend.1⟩⟩
      have hstep : ∀ ms, collect msg (l :: ms) =
          collect (if isBlank (dropCR l) then msg else msg.addLine (dropCR l)) ms := by
        intro ms
        rw [collect, if_neg hlen]
        split
        · rename_i hb
          rw [if_neg fun hp => hend ⟨hb, hp⟩]
        · rfl
      rw [hstep] at h
      obtain ⟨as, m, bs, msg', rfl, has, hm⟩ := ih h
      exact ⟨l :: as, m, bs, msg', rfl, by rw [hstep, has], hm⟩

/-- What the loop adds to `lastPos` for the given lines. -/
def advance (ls : List Line) : ℕ := (ls.map fun l => (dropCR l.raw).length + 1).sum

@[simp] theorem advance_nil : advance [] = 0 := rfl

@[simp] theorem advance_cons (l : Line) (ls : List Line) :
    advance (l :: ls) = (dropCR l.raw).length + 1 + advance ls := rfl

/-- The loop over lines that end no message. -/
theorem parseLines_append (data : GoString) {msg msg' : SSEMessage} {ls : List Line}
    (h : collect msg (ls.map Line.raw) = some msg') (lastPos : ℕ) (more : List Line) :
    parseLines data msg lastPos (ls ++ more) =
      parseLines data msg' (lastPos + advance ls) more := by
  induction ls generalizing msg lastPos with
  | nil =>
      obtain rfl : msg = msg' := by simpa [collect] using h
      rfl
  | cons l ls ih =>
      rw [List.map_cons, collect] at h
      rw [List.cons_append, parseLines, advance_cons, ← Nat.add_assoc]
      split at h
      · simp at h
      · rename_i hlen
        rw [if_neg hlen]
        split at h
        · rename_i hb
          split at h
          · simp at h
          · rename_i hp
            simp only [hb, hp, if_true, if_false, Bool.false_eq_true]
            exact ih h _
        · rename_i hb
          simp only [hb, if_false, Bool.false_eq_true]
          exact ih h _

/-- The three ends of the loop. -/
theorem parseSSEMessage_cases (data : GoString) :
    (∃ msg ls l more, scanLines data = ls ++ l :: more ∧
      Completes msg (ls.map Line.raw) l.raw ∧
      parseSSEMessage data = slice data msg (advance (ls ++ [l]))) ∨
    (∃ msg, collect SSEMessage.empty ((scanLines data).map Line.raw) = some msg ∧
      parseSSEMessage data = .incomplete data) ∨
    (∃ msg ls l more, scanLines data = ls ++ l :: more ∧
      collect SSEMessage.empty (ls.map Line.raw) = some msg ∧ maxTokenSize ≤ l.raw.length ∧
      parseSSEMessage data = .tooLong) := by
  cases hc : collect SSEMessage.empty ((scanLines data).map Line.raw) with
  | some msg =>
      right; left
      refine ⟨msg, rfl, ?_⟩
      have := parseLines_append data hc 0 []
      rw [List.append_nil] at this
      rw [parseSSEMessage, this, parseLines]
  | none =>
      obtain ⟨as, raw, bs, msg, heq, has, hl⟩ := collect_eq_none hc
      obtain ⟨ls, rest, hscan, rfl, hrest⟩ := List.map_eq_append_iff.mp heq
      obtain ⟨l, more, rfl, rfl, rfl⟩ := List.map_eq_cons_iff.mp hrest
      have hparse : parseSSEMessage data =
          parseLines data msg (0 + advance ls) (l :: more) := by
        rw [parseSSEMessage, hscan, parseLines_append data has]
      rw [parseLines] at hparse
      rcases hl with hlong | ⟨hp, hlen, hb⟩
      · right; right
        refine ⟨msg, ls, l, more, hscan, has, hlong, ?_⟩
        rw [hparse, if_pos hlong]
      · left
        refine ⟨msg, ls, l, more, hscan, ⟨has, hp, hlen, hb⟩, ?_⟩
        rw [hparse, if_neg (by omega)]
        simp only [hb, hp, if_true]
        congr 1
        simp [advance]

theorem advance_le (ls : List Line) : advance ls ≤ (unlines (ls.map Line.raw)).length := by
  induction ls with
  | nil => simp
  | cons l ls ih =>
      have hl := dropCR_length_le l.raw
      rw [advance_cons, List.map_cons, unlines_cons, List.length_append, List.length_cons]
      omega

/-- The loop counts right exactly when it drops no carriage return. -/
theorem advance_eq_iff (ls : List Line) :
    advance ls = (unlines (ls.map Line.raw)).length ↔
      ∀ l ∈ ls, l.raw.getLast? ≠ some 13 := by
  induction ls with
  | nil => simp
  | cons l ls ih =>
      have hl := dropCR_length_le l.raw
      have hls := advance_le ls
      rw [List.forall_mem_cons, ← ih, ← dropCR_length_eq, advance_cons, List.map_cons,
        unlines_cons, List.length_append, List.length_cons]
      omega

theorem scanLines_unlines {ls : List GoString} (hls : ∀ l ∈ ls, (10 : UInt8) ∉ l)
    (s : GoString) : scanLines (unlines ls ++ s) = ls.map (⟨·, true⟩) ++ scanLines s := by
  simp [scanLines, splitLines_unlines hls]

theorem splitLines_lines (s : GoString) : ∀ l ∈ (splitLines s).1, (10 : UInt8) ∉ l := by
  induction s with
  | nil => simp [splitLines]
  | cons b s ih =>
      rw [splitLines]
      split
      · simpa using ih
      · rename_i hb
        split
        · simp
        · rename_i l ls tail heq
          rw [heq] at ih
          intro m hm
          rcases List.mem_cons.mp hm with rfl | hm
          · simpa [eq_comm, hb] using ih l List.mem_cons_self
          · exact ih m (List.mem_cons_of_mem _ hm)

@[simp] theorem map_raw_terminated (ls : List GoString) :
    (ls.map fun l => Line.mk l true).map Line.raw = ls := by
  rw [List.map_map]
  exact List.map_id ls

/-- Terminated lines at the front of the scan are the front of the text. -/
theorem exists_of_scanLines {data : GoString} {ls more : List Line}
    (h : scanLines data = ls ++ more) (hls : ∀ l ∈ ls, l.terminated = true) :
    (∀ l ∈ ls.map Line.raw, (10 : UInt8) ∉ l) ∧
      ∃ rest, data = unlines (ls.map Line.raw) ++ rest := by
  -- the unterminated line, if there is one, is not among `ls`
  obtain ⟨as, has⟩ : ∃ as, (splitLines data).1 = ls.map Line.raw ++ as := by
    rw [scanLines] at h
    rcases List.append_eq_append_iff.mp h with ⟨as, rfl, hmore⟩ | ⟨as, heq, -⟩
    · obtain rfl : as = [] := by
        rw [List.eq_nil_iff_forall_not_mem]
        intro a ha
        have hterm := hls a (List.mem_append_right _ ha)
        have hmem : a ∈ as ++ more := List.mem_append_left _ ha
        rw [← hmore] at hmem
        split at hmem
        · simp at hmem
        · rw [List.mem_singleton] at hmem
          simp [hmem] at hterm
      exact ⟨[], by rw [List.append_nil, List.append_nil, map_raw_terminated]⟩
    · refine ⟨as.map Line.raw, ?_⟩
      rw [← map_raw_terminated (splitLines data).1, heq, List.map_append]
  refine ⟨fun l hl => splitLines_lines data l (by rw [has]; exact List.mem_append_left _ hl), ?_⟩
  refine ⟨unlines as ++ (splitLines data).2, ?_⟩
  conv_lhs => rw [← unlines_splitLines data, has]
  simp

theorem slice_of_le {data : GoString} {msg : SSEMessage} {n : ℕ} (h : n ≤ data.length) :
    slice data msg n = .message msg (data.drop n) := if_pos h

/-- A call consumes its message exactly if the lines of the message are ended
by bare line feeds, and on no other data. -/
theorem exactConsumption_iff (data : GoString) : ExactConsumption data ↔ BareLineFeeds data := by
  constructor
  · rintro ⟨hrange, hmsg⟩ msg ls l more hscan hends
    have hparse : parseSSEMessage data = slice data msg (advance (ls ++ [l])) := by
      rw [parseSSEMessage, hscan, parseLines_append data hends.1, parseLines]
      obtain ⟨-, hp, hlen, hb⟩ := hends
      rw [if_neg (by omega)]
      simp [hb, hp, advance]
    have hle : advance (ls ++ [l]) ≤ data.length := by
      by_contra hgt
      exact hrange (by rw [hparse, slice, if_neg hgt])
    rw [slice_of_le hle] at hparse
    obtain ⟨ls', l', hfree, hdata, hends'⟩ := hmsg _ _ hparse
    have hscan' : scanLines data = (ls' ++ [l']).map (⟨·, true⟩) ++
        scanLines (data.drop (advance (ls ++ [l]))) := by
      conv_lhs => rw [hdata]
      exact scanLines_unlines hfree _
    have hfront : ls ++ [l] = (ls' ++ [l']).map (⟨·, true⟩) := by
      have heq : (ls ++ [l]) ++ more = scanLines data := by
        rw [hscan, List.append_assoc, List.singleton_append]
      rw [hscan'] at heq
      have hraw := congrArg (List.map Line.raw) heq
      simp only [List.map_append, map_raw_terminated, List.map_cons, List.map_nil,
        List.append_assoc, List.singleton_append] at hraw
      obtain ⟨hls, -⟩ := hends.unique hends' hraw
      refine (List.append_inj heq ?_).1
      simp [← hls]
    intro m hm
    refine ⟨?_, ?_⟩
    · rw [hfront] at hm
      obtain ⟨x, -, rfl⟩ := List.mem_map.mp hm
      rfl
    · refine (advance_eq_iff (ls ++ [l])).mp ?_ m hm
      have hlen := congrArg List.length hdata
      rw [List.length_append, List.length_drop, ← map_raw_terminated (ls' ++ [l']), ← hfront]
        at hlen
      have := advance_le (ls ++ [l])
      omega
  · intro hbare
    rcases parseSSEMessage_cases data with ⟨msg, ls, l, more, hscan, hends, hparse⟩ |
      ⟨msg, -, hparse⟩ | ⟨msg, ls, l, more, -, -, -, hparse⟩
    · have hlf := hbare msg ls l more hscan hends
      rw [← List.singleton_append, ← List.append_assoc] at hscan
      obtain ⟨hfree, rest, hdata⟩ := exists_of_scanLines hscan fun m hm => (hlf m hm).1
      have hadv := (advance_eq_iff (ls ++ [l])).mpr fun m hm => (hlf m hm).2
      have hrest : parseSSEMessage data = .message msg rest := by
        rw [hparse, slice_of_le, hadv]
        · conv_lhs => rw [hdata, List.drop_left]
        · rw [hadv, hdata]
          simp
      refine ⟨by rw [hrest]; simp, ?_⟩
      intro msg' rest' heq
      rw [hrest, Parsed.message.injEq] at heq
      obtain ⟨rfl, rfl⟩ := heq
      refine ⟨ls.map Line.raw, l.raw, ?_, ?_, hends⟩
      · simpa using hfree
      · simpa using hdata
    · exact ⟨by simp [hparse], by simp [hparse]⟩
    · exact ⟨by simp [hparse], by simp [hparse]⟩

/-- Text without carriage returns that stops at the end of a line. -/
theorem bareLineFeeds_unlines {ls : List GoString}
    (hls : ∀ l ∈ ls, (10 : UInt8) ∉ l ∧ l.getLast? ≠ some 13) : BareLineFeeds (unlines ls) := by
  intro msg as l more hscan _ m hm
  have hall := scanLines_unlines (fun l hl => (hls l hl).1) []
  rw [List.append_nil] at hall
  have hmem : m ∈ ls.map (⟨·, true⟩) ++ scanLines [] := by
    rw [← hall, hscan]
    simp only [List.mem_append, List.mem_cons, List.not_mem_nil, or_false] at hm ⊢
    tauto
  obtain ⟨x, hx, rfl⟩ : ∃ x ∈ ls, Line.mk x true = m := by simpa [scanLines, splitLines] using hmem
  exact ⟨rfl, (hls x hx).2⟩

/-! ### The messages of a stream -/

/-- The messages of a sequence of whole lines. Reading ends at a line that is
too long. -/
def messagesOf : SSEMessage → List GoString → List SSEMessage
  | _, [] => []
  | msg, raw :: ls =>
      if maxTokenSize ≤ raw.length then []
      else if isBlank (dropCR raw) then
        if msg.pending then msg :: messagesOf SSEMessage.empty ls else messagesOf msg ls
      else messagesOf (msg.addLine (dropCR raw)) ls

/-- The messages of a stream read at once: those that its terminated lines
complete. -/
def messages (stream : GoString) : List SSEMessage :=
  messagesOf SSEMessage.empty (splitLines stream).1

theorem messagesOf_append {msg msg' : SSEMessage} {ls : List GoString}
    (h : collect msg ls = some msg') (more : List GoString) :
    messagesOf msg (ls ++ more) = messagesOf msg' more := by
  induction ls generalizing msg with
  | nil =>
      obtain rfl : msg = msg' := by simpa [collect] using h
      rfl
  | cons l ls ih =>
      rw [collect] at h
      rw [List.cons_append, messagesOf]
      split at h
      · simp at h
      · rename_i hlen
        rw [if_neg hlen]
        split at h
        · rename_i hb
          split at h
          · simp at h
          · rename_i hp
            rw [if_pos hb, if_neg hp, ih h]
        · rename_i hb
          rw [if_neg hb, ih h]

theorem messagesOf_of_completes {msg : SSEMessage} {ls : List GoString} {l : GoString}
    (h : Completes msg ls l) (more : List GoString) :
    messagesOf SSEMessage.empty (ls ++ l :: more) = msg :: messagesOf SSEMessage.empty more := by
  obtain ⟨hls, hp, hlen, hb⟩ := h
  rw [messagesOf_append hls, messagesOf, if_neg (by omega), if_pos hb, if_pos hp]

/-- More lines only add messages. -/
theorem messagesOf_prefix_append (msg : SSEMessage) (ls more : List GoString) :
    messagesOf msg ls <+: messagesOf msg (ls ++ more) := by
  induction ls generalizing msg with
  | nil => simp [messagesOf]
  | cons l ls ih =>
      rw [List.cons_append, messagesOf, messagesOf]
      split
      · exact List.prefix_rfl
      · split
        · split
          · exact (List.prefix_cons_inj _).mpr (ih _)
          · exact ih _
        · exact ih _

/-- Splitting a text whose front is already split. -/
theorem splitLines_append (s t : GoString) :
    splitLines (s ++ t) = ((splitLines s).1 ++ (splitLines ((splitLines s).2 ++ t)).1,
      (splitLines ((splitLines s).2 ++ t)).2) := by
  conv_lhs => rw [← unlines_splitLines s, List.append_assoc]
  exact splitLines_unlines (splitLines_lines s) _

theorem messages_prefix_append (s t : GoString) : messages s <+: messages (s ++ t) := by
  rw [messages, messages, splitLines_append]
  exact messagesOf_prefix_append _ _ _

/-- Where a call finds no message, there is none. -/
theorem messages_eq_nil {data : GoString}
    (h : parseSSEMessage data = .incomplete data ∨ parseSSEMessage data = .tooLong) :
    messages data = [] := by
  have hscan : messagesOf SSEMessage.empty ((scanLines data).map Line.raw) = [] := by
    rcases parseSSEMessage_cases data with ⟨msg, ls, l, more, -, -, hparse⟩ |
      ⟨msg, hall, -⟩ | ⟨msg, ls, l, more, hscan, hls, hlong, -⟩
    · rw [hparse, slice] at h
      split at h <;> simp at h
    · simpa [messagesOf] using messagesOf_append hall []
    · rw [hscan, List.map_append, List.map_cons, messagesOf_append hls, messagesOf,
        if_pos hlong]
  rw [scanLines, List.map_append, map_raw_terminated] at hscan
  rw [← List.prefix_nil, ← hscan]
  exact messagesOf_prefix_append _ _ _

/-! ### The proxy -/

/-- The buffer size limit of 100MB. -/
def MaxSSEBufferSize : ℕ := 100 * 1024 * 1024

/-- The values of `CtxSSEProxyState`. -/
inductive SSEState where
  | waitingEndpoint
  | waitingInitResp
  | waitingNotifyResp
  | waitingToolResp
  | complete
  deriving DecidableEq

/-- The handlers' work on the data of a message: the decoding of replies and
the requests sent upstream. The result is the state the handler returns in;
`none` is a `continue` of its loop. -/
structure Handlers where
  isEventStream : Bool
  endpoint : GoString → SSEState
  initReply : GoString → Option SSEState
  toolReply : GoString → Option SSEState

/-- The event each handler waits for. -/
def Handlers.handle (h : Handlers) : SSEState → SSEMessage → Option SSEState
  | .waitingEndpoint, msg =>
      if msg.Event = bytes "endpoint" then some (h.endpoint msg.Data) else none
  | .waitingInitResp, msg => if msg.Event = bytes "message" then h.initReply msg.Data else none
  | .waitingToolResp, msg => if msg.Event = bytes "message" then h.toolReply msg.Data else none
  | _, _ => none

structure Proxy where
  state : SSEState
  firstChunk : Bool
  buffer : GoString
  /-- Control is at the head of the loop of a handler. -/
  inLoop : Bool
  panicked : Bool
  /-- The messages `ParseSSEMessage` has returned so far. -/
  received : List SSEMessage
  deriving DecidableEq

def Proxy.init : Proxy := ⟨.waitingEndpoint, true, [], false, false, []⟩

inductive Event where
  | chunk (data : GoString)
  | iterate
  | callback (state : SSEState)

/-- `handleSSEStreamingResponse` up to the call of the handler. The handler
of `waitingNotifyResp` has no loop. -/
def Proxy.receive (h : Handlers) (s : Proxy) (data : GoString) : Proxy :=
  if s.state = .complete then s
  else if s.firstChunk && !h.isEventStream then { s with firstChunk := false, state := .complete }
  else if (s.buffer ++ data).length > MaxSSEBufferSize then
    { s with firstChunk := false, state := .complete }
  else
    { s with
      firstChunk := false
      buffer := s.buffer ++ data
      inLoop := s.state ≠ .waitingNotifyResp }

/-- One iteration of the loop of a handler. -/
def Proxy.iterate (h : Handlers) (s : Proxy) : Proxy :=
  match parseSSEMessage s.buffer with
  | .outOfRange => { s with inLoop := false, panicked := true }
  | .tooLong => { s with inLoop := false, state := .complete }
  | .incomplete remaining => { s with inLoop := false, buffer := remaining }
  | .message msg remaining =>
      let s := { s with buffer := remaining, received := s.received ++ [msg] }
      match h.handle s.state msg with
      | none => s
      | some state => { s with inLoop := false, state := state }

/-- The callbacks of the requests sent upstream run between chunks: the one of
the notification sends the tool request, and any may fail. -/
def Proxy.allowsCallback (s : Proxy) (state : SSEState) : Bool :=
  state = .complete || s.state = .waitingNotifyResp && state = .waitingToolResp

def step (h : Handlers) (s : Proxy) : Event → Option Proxy
  | .chunk data => if s.inLoop || s.panicked then none else some (s.receive h data)
  | .iterate => if s.inLoop then some (s.iterate h) else none
  | .callback state =>
      if s.inLoop || s.panicked || !s.allowsCallback state then none
      else some { s with state := state }

def run (h : Handlers) (s : Proxy) (events : List Event) : Option Proxy :=
  events.foldlM (step h) s

/-- The bytes of the response, however they were cut. -/
def stream (events : List Event) : GoString :=
  events.flatMap fun
    | .chunk data => data
    | _ => []

theorem stream_cons (e : Event) (events : List Event) :
    stream (e :: events) = stream [e] ++ stream events := by
  simp [stream]

/-- Every call of `ParseSSEMessage` in the run meets `BareLineFeeds`. -/
def CallsBareLineFeeds (h : Handlers) : Proxy → List Event → Prop
  | _, [] => True
  | s, e :: events =>
      (e = .iterate → BareLineFeeds s.buffer) ∧
        ∀ s', step h s e = some s' → CallsBareLineFeeds h s' events

theorem CallsBareLineFeeds.cons {h : Handlers} {s t : Proxy} {e : Event} {events : List Event}
    (hbare : e = .iterate → BareLineFeeds s.buffer) (hstep : step h s e = some t)
    (hrest : CallsBareLineFeeds h t events) : CallsBareLineFeeds h s (e :: events) := by
  refine ⟨hbare, fun s' hs' => ?_⟩
  rw [hstep, Option.some.injEq] at hs'
  exact hs' ▸ hrest

/-- What has been consumed of the stream is a sequence of whole lines, and
they hold the messages received and nothing of a further one. -/
def Consumed (str : GoString) (s : Proxy) : Prop :=
  ∃ ls, (∀ l ∈ ls, (10 : UInt8) ∉ l) ∧ str = unlines ls ++ s.buffer ∧
    ∀ more, messagesOf SSEMessage.empty (ls ++ more) =
      s.received ++ messagesOf SSEMessage.empty more

structure Inv (str : GoString) (s : Proxy) : Prop where
  panicked : s.panicked = false
  inLoop : s.inLoop = true → s.state ≠ .complete
  received : s.received <+: messages str
  consumed : s.state ≠ .complete → Consumed str s

theorem Consumed.messages_eq {str : GoString} {s : Proxy} (h : Consumed str s) :
    messages str = s.received ++ messages s.buffer := by
  obtain ⟨ls, hls, rfl, hread⟩ := h
  rw [messages, splitLines_unlines hls]
  exact hread _

theorem Consumed.isInitial {str : GoString} {s : Proxy} (h : Consumed str s) :
    s.received <+: messages str := by
  rw [h.messages_eq]
  exact List.prefix_append _ _

theorem inv_init : Inv [] Proxy.init where
  panicked := rfl
  inLoop := by simp [Proxy.init]
  received := by simp [Proxy.init]
  consumed _ := ⟨[], by simp, rfl, fun more => rfl⟩

theorem Inv.receive {h : Handlers} {str : GoString} {s : Proxy} (hs : Inv str s)
    (hloop : s.inLoop = false) (data : GoString) : Inv (str ++ data) (s.receive h data) := by
  have hpre := hs.received.trans (messages_prefix_append str data)
  rw [Proxy.receive]
  split
  · rename_i hc
    exact ⟨hs.panicked, hs.inLoop, hpre, fun hne => absurd hc hne⟩
  · rename_i hc
    split
    · exact ⟨hs.panicked, by simp [hloop], hpre, by simp⟩
    · split
      · exact ⟨hs.panicked, by simp [hloop], hpre, by simp⟩
      · refine ⟨hs.panicked, fun _ => hc, hpre, fun _ => ?_⟩
        obtain ⟨ls, hls, hstr, hread⟩ := hs.consumed hc
        exact ⟨ls, hls, by simp [hstr], hread⟩

/-- A call that consumes exactly its message keeps the invariant. -/
theorem Inv.iterate {h : Handlers} {str : GoString} {s : Proxy} (hs : Inv str s)
    (hloop : s.inLoop = true) (hbare : BareLineFeeds s.buffer) : Inv str (s.iterate h) := by
  have hc := hs.inLoop hloop
  obtain ⟨hrange, hexact⟩ := (exactConsumption_iff s.buffer).mpr hbare
  rw [Proxy.iterate]
  split
  · rename_i heq
    exact absurd heq hrange
  · exact ⟨hs.panicked, by simp, hs.received, by simp⟩
  · rename_i remaining heq
    obtain rfl : s.buffer = remaining := by
      rcases parseSSEMessage_cases s.buffer with ⟨msg, ls, l, more, -, -, hparse⟩ |
        ⟨msg, -, hparse⟩ | ⟨msg, ls, l, more, -, -, -, hparse⟩
      · rw [hparse, slice] at heq
        split at heq <;> simp at heq
      · simpa [hparse] using heq
      · simp [hparse] at heq
    exact ⟨hs.panicked, by simp, hs.received, hs.consumed⟩
  · rename_i msg remaining heq
    obtain ⟨ls, l, hfree, hbuf, hends⟩ := hexact _ _ heq
    have hcons : ∀ state inLoop, Consumed str { s with
        buffer := remaining, received := s.received ++ [msg], state := state,
        inLoop := inLoop } := by
      intro state inLoop
      obtain ⟨cs, hcs, hstr, hread⟩ := hs.consumed hc
      refine ⟨cs ++ (ls ++ [l]), ?_, ?_, ?_⟩
      · intro m hm
        rcases List.mem_append.mp hm with hm | hm
        · exact hcs m hm
        · exact hfree m hm
      · rw [unlines_append, List.append_assoc, ← hbuf, hstr]
      · intro more
        rw [List.append_assoc, hread, List.append_assoc, List.singleton_append,
          messagesOf_of_completes hends, List.append_assoc, List.singleton_append]
    simp only
    split
    · exact ⟨hs.panicked, fun _ => hc, (hcons s.state s.inLoop).isInitial, fun _ => hcons _ _⟩
    · exact ⟨hs.panicked, by simp, (hcons s.state s.inLoop).isInitial, fun _ => hcons _ _⟩

theorem step_inv {h : Handlers} {str : GoString} {s s' : Proxy} {e : Event} (hs : Inv str s)
    (hbare : e = .iterate → BareLineFeeds s.buffer) (hstep : step h s e = some s') :
    Inv (str ++ stream [e]) s' := by
  cases e with
  | chunk data =>
      rw [step] at hstep
      split at hstep
      · simp at hstep
      · rename_i hb
        rw [Bool.or_eq_true, not_or] at hb
        obtain rfl := Option.some.inj hstep
        simpa [stream] using hs.receive (by simpa using hb.1) data
  | iterate =>
      rw [step] at hstep
      split at hstep
      · rename_i hloop
        obtain rfl := Option.some.inj hstep
        simpa [stream] using hs.iterate hloop (hbare rfl)
      · simp at hstep
  | callback state =>
      rw [step] at hstep
      split at hstep
      · simp at hstep
      · rename_i hb
        obtain rfl := Option.some.inj hstep
        simp only [Bool.or_eq_true, Bool.not_eq_true', not_or, Bool.not_eq_true,
          Bool.not_eq_false] at hb
        rw [Proxy.allowsCallback, Bool.or_eq_true, Bool.and_eq_true] at hb
        have hlive : state ≠ .complete → s.state ≠ .complete := by
          intro hne heq
          simp [hne, heq] at hb
        simp only [stream, List.flatMap_cons, List.flatMap_nil, List.append_nil]
        refine ⟨hs.panicked, by simp [hb.1.1], hs.received, fun hne => ?_⟩
        exact hs.consumed (hlive hne)

theorem run_inv {h : Handlers} {str : GoString} {s s' : Proxy} {events : List Event}
    (hs : Inv str s) (hbare : CallsBareLineFeeds h s events)
    (hrun : run h s events = some s') : Inv (str ++ stream events) s' := by
  induction events generalizing str s with
  | nil =>
      obtain rfl : s = s' := by simpa [run] using hrun
      simpa [stream] using hs
  | cons e events ih =>
      rw [run, List.foldlM_cons] at hrun
      obtain ⟨t, ht, hrun⟩ := Option.bind_eq_some_iff.mp hrun
      have := ih (step_inv hs hbare.1 ht) (hbare.2 t ht) hrun
      rwa [List.append_assoc, ← stream_cons] at this

/-- An iteration that goes on has shortened the buffer, so the loops of the
handlers end. -/
theorem iterate_shortens {h : Handlers} {s : Proxy} (hloop : (s.iterate h).inLoop = true) :
    (s.iterate h).buffer.length < s.buffer.length := by
  rcases parseSSEMessage_cases s.buffer with ⟨msg, ls, l, more, -, -, hparse⟩ |
    ⟨msg, -, hparse⟩ | ⟨msg, ls, l, more, -, -, -, hparse⟩
  · have hpos : 0 < advance (ls ++ [l]) := by
      simp only [advance, List.map_append, List.map_cons, List.map_nil, List.sum_append,
        List.sum_cons, List.sum_nil]
      omega
    rw [slice] at hparse
    split at hparse
    · rw [Proxy.iterate, hparse]
      simp only
      split <;> (simp only [List.length_drop]; omega)
    · simp [Proxy.iterate, hparse] at hloop
  · simp [Proxy.iterate, hparse] at hloop
  · simp [Proxy.iterate, hparse] at hloop

theorem loop_ends (h : Handlers) (s : Proxy) (hloop : s.inLoop = true) :
    ∃ n s', n ≤ s.buffer.length + 1 ∧
      run h s (List.replicate n .iterate) = some s' ∧ s'.inLoop = false := by
  induction hn : s.buffer.length using Nat.strongRecOn generalizing s with
  | _ n ih =>
      have hstep : step h s .iterate = some (s.iterate h) := if_pos hloop
      cases hnext : (s.iterate h).inLoop with
      | false => exact ⟨1, s.iterate h, by omega, by simp [run, hstep], hnext⟩
      | true =>
          have hlt := iterate_shortens hnext
          obtain ⟨m, s', hm, hrun, hs'⟩ := ih _ (hn ▸ hlt) (s.iterate h) hnext rfl
          refine ⟨m + 1, s', by omega, ?_, hs'⟩
          rw [List.replicate_succ, run, List.foldlM_cons, hstep]
          exact hrun

/-- A call consumes exactly its message if and only if the message's lines end
in bare line feeds. In every run whose calls are all such, no call fails, the
buffer is always what follows the messages received, and when no complete
message is left in it the messages received are those of the whole stream,
however it was cut. A completed exchange discards the rest of its stream. -/
theorem sseProxy_consumes_exactly (h : Handlers) :
    (∀ data, ExactConsumption data ↔ BareLineFeeds data) ∧
    ∀ (events : List Event) (s : Proxy),
      run h Proxy.init events = some s → CallsBareLineFeeds h Proxy.init events →
      s.panicked = false ∧ s.received <+: messages (stream events) ∧
      (s.state ≠ .complete →
        (∃ consumed, stream events = consumed ++ s.buffer ∧ messages consumed = s.received) ∧
        messages (stream events) = s.received ++ messages s.buffer ∧
        (parseSSEMessage s.buffer = .incomplete s.buffer →
          s.received = messages (stream events))) := by
  refine ⟨exactConsumption_iff, fun events s hrun hbare => ?_⟩
  have hinv : Inv (stream events) s := by simpa using run_inv inv_init hbare hrun
  refine ⟨hinv.panicked, hinv.received, fun hc => ⟨?_, (hinv.consumed hc).messages_eq, ?_⟩⟩
  · obtain ⟨ls, hls, hstr, hread⟩ := hinv.consumed hc
    refine ⟨unlines ls, hstr, ?_⟩
    have hlines := splitLines_unlines hls []
    rw [List.append_nil] at hlines
    rw [messages, hlines]
    simpa [splitLines, messagesOf] using hread []
  · intro hnone
    rw [(hinv.consumed hc).messages_eq, messages_eq_nil (Or.inl hnone), List.append_nil]

/-- Handlers that skip every message. -/
def skipping : Handlers := ⟨true, fun _ => .complete, fun _ => none, fun _ => none⟩

/-- A message cut between its data line and its blank line. -/
def cutMessage : List Event :=
  [.chunk (bytes "data: a\n"), .iterate, .chunk (bytes "\n"), .iterate, .iterate]

theorem cutMessage_bareLineFeeds : CallsBareLineFeeds skipping Proxy.init cutMessage := by
  have h₁ : BareLineFeeds (bytes "data: a\n") :=
    @bareLineFeeds_unlines [bytes "data: a"] (by decide)
  have h₂ : BareLineFeeds (bytes "data: a\n\n") :=
    @bareLineFeeds_unlines [bytes "data: a", []] (by decide)
  have h₃ : BareLineFeeds [] := @bareLineFeeds_unlines [] (by decide)
  apply CallsBareLineFeeds.cons (t := ⟨.waitingEndpoint, false, bytes "data: a\n", true, false, []⟩)
    (by simp) (by decide)
  apply CallsBareLineFeeds.cons (t := ⟨.waitingEndpoint, false, bytes "data: a\n", false, false, []⟩)
    (fun _ => h₁) (by decide)
  apply CallsBareLineFeeds.cons (t := ⟨.waitingEndpoint, false, bytes "data: a\n\n", true, false, []⟩)
    (by simp) (by decide)
  apply CallsBareLineFeeds.cons
    (t := ⟨.waitingEndpoint, false, [], true, false, [⟨[], bytes "a", []⟩]⟩) (fun _ => h₂) (by decide)
  apply CallsBareLineFeeds.cons
    (t := ⟨.waitingEndpoint, false, [], false, false, [⟨[], bytes "a", []⟩]⟩) (fun _ => h₃) (by decide)
  trivial

theorem sseProxy_consumes_cutMessage :
    ∃ s, run skipping Proxy.init cutMessage = some s ∧ s.received = [⟨[], bytes "a", []⟩] ∧
      s.received = messages (stream cutMessage) := by
  refine ⟨⟨.waitingEndpoint, false, [], false, false, [⟨[], bytes "a", []⟩]⟩, by decide, rfl, ?_⟩
  exact (((sseProxy_consumes_exactly skipping).2 cutMessage _ (by decide)
    cutMessage_bareLineFeeds).2.2 (by decide)).2.2 (by decide)

theorem loop_ends_cutMessage : ∃ n s', n ≤ (stream cutMessage).length + 1 ∧
    run skipping ⟨.waitingEndpoint, false, stream cutMessage, true, false, []⟩
      (List.replicate n .iterate) = some s' ∧ s'.inLoop = false :=
  loop_ends skipping ⟨.waitingEndpoint, false, stream cutMessage, true, false, []⟩ rfl

/-- With a carriage return in the line end the call leaves bytes it has read,
and a partial last line that is blank makes it leave the range of the data. -/
theorem parseSSEMessage_miscounts :
    ¬ExactConsumption (bytes "data: a\n ") ∧ ¬ExactConsumption (bytes "data: a\r\n\r\n") := by
  refine ⟨fun h => h.1 (by decide), fun h => ?_⟩
  have hlf := (exactConsumption_iff _).mp h ⟨[], bytes "a", []⟩ [⟨bytes "data: a\r", true⟩]
    ⟨bytes "\r", true⟩ [] (by decide) (by decide)
  exact (hlf ⟨bytes "\r", true⟩ (by decide)).2 (by decide)

end Higress.Mcp.Sse
