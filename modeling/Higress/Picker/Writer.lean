import Higress.Lib.Act
import Higress.Picker.Index
import Higress.Picker.JsonScan

/-!
The writers of `prefixcache/locality.go`. The text of a request is not built: it
is streamed into hashes, through writers that stop at a byte limit or count nodes.

A writer is what it does to its state. The state of a writer that wraps another
one holds the state of its target, and what several writers reach through a
pointer is passed on from one to the next.

`xxhash` is third-party code and a parameter, a function of the bytes that are
hashed.
-/

namespace Higress.Picker

open Lib

/-- `io.Writer`, with the methods that `locality.go` asks for by a type assertion.
The defaults stand for a writer that does not have the method: it has no cap, no
limit (`none`, for the largest `int`) and no nodes to count (`none`, for `-1`). -/
structure Writer (σ : Type) where
  write : GoString → Act LocalityError σ Unit
  semanticCapReached : σ → Bool := fun _ => false
  inputLimit : σ → Option ℕ := fun _ => none
  consumeCanonicalNodes : ℕ → σ → Option σ := fun _ s => some s
  canonicalNodesRemaining : σ → Option ℕ := fun _ => none

variable {σ : Type}

/-- `if semanticCapReached(writer) { return errSemanticCap }`. -/
def Writer.checkCap (w : Writer σ) : Act LocalityError σ Unit := do
  let reached ← Act.look w.semanticCapReached
  Act.onlyIf reached (Act.fail .semanticCap)

/-- `if !consumeCanonicalNodes(writer, count) { return errCanonicalComplexity }`. -/
def Writer.checkNodes (w : Writer σ) (count : ℕ) : Act LocalityError σ Unit := fun s =>
  match w.consumeCanonicalNodes count s with
  | none => (.error .canonicalComplexity, s)
  | some s => (.ok (), s)

/-! ### Decoded strings -/

/-- `isJSONString`. -/
def isJSONString (raw : GoString) : Bool :=
  let raw := Strings.trimSpace raw
  decide (2 ≤ raw.length) && raw.head? == some 34 && raw.getLast? == some 34

/-- `decodeUnicodeEscape`: the rune of an escape, from its `u` on, and the number of
bytes that spell it. -/
def decodeUnicodeEscape (data : GoString) : Except LocalityError (ℕ × ℕ) :=
  match Json.hex4 (data.drop 1) with
  | none => .error (.text "invalid unicode escape")
  | some first =>
      if first < 0xD800 ∨ 0xDFFF < first then .ok (first, 5)
      else if 0xDBFF < first ∨ (data.drop 5).take 2 ≠ [92, 117] then .ok (0xFFFD, 5)
      else match Json.hex4 (data.drop 7) with
        | none => .ok (0xFFFD, 5)
        | some second =>
            if second < 0xDC00 ∨ 0xDFFF < second then .ok (0xFFFD, 5)
            else .ok (0x10000 + (first - 0xD800) * 1024 + (second - 0xDC00), 11)

/-- What an escape stands for, from behind its backslash, and the number of bytes
that spell it. -/
def decodeEscape (data : GoString) : Except LocalityError (GoString × ℕ) :=
  match data with
  | [] => .error (.text "invalid string escape")
  | c :: _ =>
      if c = 117 then (decodeUnicodeEscape data).map fun r => (Json.encodeRune r.1, r.2)
      else match Json.simpleEscape c with
        | some x => .ok ([x], 1)
        | none => .error (.text "invalid string escape")

/-- The part of the contents of a string that a writer has room for. -/
def window (limit : Option ℕ) (data : GoString) : GoString :=
  match limit with
  | none => data
  | some n => data.take n

/-- The loop of `writeDecodedJSONString`. -/
def writeDecodedFrom (w : Writer σ) (data : GoString) : Act LocalityError σ Unit := do
  let limit ← Act.look w.inputLimit
  if _hdata : data = [] ∨ limit = some 0 then pure ()
  else match (window limit data).findIdx? (· == 92) with
    | none => do
        w.write (window limit data)
        writeDecodedFrom w (data.drop (window limit data).length)
    | some i => do
        Act.onlyIf (0 < i) (w.write (data.take i))
        let decoded ← Act.lift (decodeEscape (data.drop (i + 1)))
        w.write decoded.1
        writeDecodedFrom w ((data.drop (i + 1)).drop decoded.2)
termination_by data.length
decreasing_by
  · have hpos : 0 < data.length := List.length_pos_iff.mpr fun h => _hdata (.inl h)
    have hwindow : 0 < (window limit data).length := by
      match limit, _hdata with
      | none, _ => exact hpos
      | some n, hdata =>
          have : n ≠ 0 := fun h => hdata (.inr (by rw [h]))
          simp only [window, List.length_take]
          omega
    simp only [List.length_drop]
    omega
  · have hpos : 0 < data.length := List.length_pos_iff.mpr fun h => _hdata (.inl h)
    simp only [List.length_drop]
    omega

/-- `writeDecodedJSONString`. -/
def writeDecodedJSONString (w : Writer σ) (raw : GoString) : Act LocalityError σ Unit :=
  let raw := Strings.trimSpace raw
  if isJSONString raw then writeDecodedFrom w (raw.drop 1).dropLast
  else Act.fail (.text "expected JSON string")

/-! ### Canonical strings -/

/-- `canonicalRuneNeedsEscape`, for the bytes of the rune; a byte that is not part
of a rune is decoded to none. -/
def canonicalRuneNeedsEscape (rune : GoString) : Bool :=
  rune == [] || rune == [92] || rune == [34] || rune.any (· < 0x20) || rune == [60] ||
    rune == [62] || rune == [38] || rune == [0xE2, 0x80, 0xA8] || rune == [0xE2, 0x80, 0xA9]

/-- The bytes of the rune at the head of a text (`utf8.DecodeRune`), none if there
is no valid one. -/
def firstRune (data : GoString) : GoString := data.take (Json.runeLen data)

theorem length_firstRune (data : GoString) : (firstRune data).length = Json.runeLen data := by
  simp [firstRune, Json.runeLen_le_length]

/-- The number of bytes in front that are written as they are. -/
def canonicalRun (data : GoString) : ℕ :=
  if canonicalRuneNeedsEscape (firstRune data) then 0
  else (firstRune data).length + canonicalRun (data.drop (firstRune data).length)
termination_by data.length
decreasing_by
  rename_i hrune
  have hne : firstRune data ≠ [] := by
    intro hnil
    simp [canonicalRuneNeedsEscape, hnil] at hrune
  have hpos := List.length_pos_iff.mpr hne
  have hle := Json.runeLen_le_length data
  rw [length_firstRune] at hpos ⊢
  rw [List.length_drop]
  omega

/-- What is written for the first rune of a text if it is escaped: the replacement
character for a byte that is not part of a rune. -/
def canonicalEscape (data : GoString) : GoString :=
  if firstRune data = [] then [0xEF, 0xBF, 0xBD] else Json.escapeRune (firstRune data)

/-- `canonicalStringWriter.Write`. -/
def writeCanonicalFrom (w : Writer σ) (data : GoString) : Act LocalityError σ Unit :=
  if _hdata : data = [] then pure ()
  else do
    w.checkCap
    if _hrun : 0 < canonicalRun data then
      w.write (data.take (canonicalRun data))
      writeCanonicalFrom w (data.drop (canonicalRun data))
    else
      w.write (canonicalEscape data)
      writeCanonicalFrom w (data.drop (max 1 (firstRune data).length))
termination_by data.length
decreasing_by
  all_goals
    have hpos : 0 < data.length := List.length_pos_iff.mpr _hdata
    rw [List.length_drop]
    omega

/-- `canonicalStringWriter`. It has a limit of its own even if its target has none;
the largest `int` is no limit. -/
def canonicalStringWriter (w : Writer σ) : Writer σ where
  write := writeCanonicalFrom w
  semanticCapReached := w.semanticCapReached
  inputLimit := w.inputLimit

/-- `writeCanonicalJSONString`. -/
def writeCanonicalJSONString (w : Writer σ) (raw : GoString) : Act LocalityError σ Unit := do
  w.checkCap
  w.write [34]
  writeDecodedJSONString (canonicalStringWriter w) raw
  w.write [34]

/-! ### Counters, limits and hashes -/

/-- `xxhash.Digest`, as the bytes that have been written. -/
def hasher : Writer GoString where
  write data := Act.update (· ++ data)

/-- `countingWriter`. -/
def countingWriter : Writer ℕ where
  write data := Act.update (· + data.length)

/-- `identityLengthWriter`. -/
structure IdentityLength where
  remaining : ℕ
  written : ℕ

def identityLengthWriter : Writer IdentityLength where
  write data := do
    let remaining ← Act.look IdentityLength.remaining
    Act.onlyIf (data.length > remaining) (Act.fail .toolIdentityCap)
    Act.update fun s => ⟨s.remaining - data.length, s.written + data.length⟩
  inputLimit s := some (s.remaining + 1)

/-- `boundedWriter`. -/
structure Bounded (σ : Type) where
  target : σ
  remaining : ℕ
  written : ℕ

/-- The targets of a `boundedWriter` take all the data they are given. -/
def boundedWriter (w : Writer σ) : Writer (Bounded σ) where
  write data s :=
    if s.remaining = 0 then (.ok (), s)
    else
      let data := data.take s.remaining
      let result := w.write data s.target
      (result.1, ⟨result.2, s.remaining - data.length, s.written + data.length⟩)
  semanticCapReached s := s.remaining == 0
  inputLimit s := some s.remaining

/-- `canonicalBudgetWriter`. -/
structure CanonicalBudget (σ : Type) where
  target : σ
  remaining : ℕ

def canonicalBudgetWriter (w : Writer σ) : Writer (CanonicalBudget σ) where
  write data s :=
    let result := w.write data s.target
    (result.1, ⟨result.2, s.remaining⟩)
  semanticCapReached s := w.semanticCapReached s.target
  inputLimit s := w.inputLimit s.target
  consumeCanonicalNodes count s :=
    if count > s.remaining then none else some ⟨s.target, s.remaining - count⟩
  canonicalNodesRemaining s := some s.remaining

/-! ### Blocks -/

def maxSegmentTokens : ℕ := 1024

def maxPrefixTokens : ℕ := 131072

/-- `blockBudget`. -/
structure BlockBudget where
  remaining : ℕ
  blockSizeTokens : ℕ

namespace BlockBudget

def exhausted (budget : BlockBudget) : Bool := budget.remaining == 0

def consume (budget : BlockBudget) : BlockBudget := { budget with remaining := budget.remaining - 1 }

def blockTokens (budget : BlockBudget) : ℕ :=
  if budget.blockSizeTokens = 0 then maxSegmentTokens else budget.blockSizeTokens

def blockSizeBytes (budget : BlockBudget) : ℕ := budget.blockTokens * 4

def remainingBytes (budget : BlockBudget) (buffered : ℕ) : ℕ :=
  if budget.exhausted then 0 else budget.remaining * budget.blockSizeBytes - buffered

end BlockBudget

inductive SegmentKind
  | tools
  | message
  | completionText
  | completionTokens

def SegmentKind.code : SegmentKind → UInt8
  | .tools => 1
  | .message => 2
  | .completionText => 3
  | .completionTokens => 4

/-- `binary.LittleEndian.PutUint64`. -/
def putUint64 (n : UInt64) : GoString :=
  (List.range 8).map fun i => (n >>> UInt64.ofNat (8 * i)).toUInt8

/-- `binary.LittleEndian.PutUint32`. -/
def putUint32 (n : UInt32) : GoString :=
  (List.range 4).map fun i => (n >>> UInt32.ofNat (8 * i)).toUInt8

section

variable (sum64 : GoString → UInt64)

/-- `chainedHash`. -/
def chainedHash (kind : SegmentKind) (tokens : ℕ) (contentHash domain previous : UInt64) : UInt64 :=
  sum64 (kind.code :: (putUint64 (UInt64.ofNat tokens) ++ putUint64 contentHash ++
    putUint64 domain ++ putUint64 previous))

/-- What the segments of a request share: the chain, the hash and the number of
tokens it ends with, and the budget. -/
structure Progress where
  chain : List Block
  previous : UInt64
  totalTokens : ℕ
  budget : BlockBudget

/-- `segmentBuilder`; `buffered` is the length of the buffer. -/
structure SegmentBuilder where
  progress : Progress
  kind : SegmentKind
  domain : UInt64
  remaining : ℕ
  buffer : GoString

/-- `newSegmentBuilder`. -/
def newSegmentBuilder (progress : Progress) (kind : SegmentKind) (domain : UInt64) :
    SegmentBuilder :=
  ⟨progress, kind, domain, (maxPrefixTokens - progress.totalTokens) * 4, []⟩

namespace SegmentBuilder

def inputLimit (b : SegmentBuilder) : ℕ :=
  min b.remaining (b.progress.budget.remainingBytes b.buffer.length)

def flush (b : SegmentBuilder) : SegmentBuilder :=
  if b.buffer = [] ∨ b.progress.budget.exhausted then { b with buffer := [] }
  else
    let tokens := (b.buffer.length + 3) / 4
    let previous := chainedHash sum64 b.kind tokens (sum64 b.buffer) b.domain b.progress.previous
    { b with
      progress :=
        { chain := b.progress.chain ++ [⟨previous, Int64.ofNat tokens⟩]
          previous := previous
          totalTokens := b.progress.totalTokens + tokens
          budget := b.progress.budget.consume }
      buffer := [] }

/-- The loop of `Write`, which copies up to the end of a block at once. -/
def fill (b : SegmentBuilder) : GoString → SegmentBuilder
  | [] => b
  | x :: data =>
      let b := { b with buffer := b.buffer ++ [x] }
      if b.buffer.length = b.progress.budget.blockSizeBytes then
        if (b.flush sum64).progress.budget.exhausted then b.flush sum64
        else (b.flush sum64).fill data
      else b.fill data

/-- `finish`. -/
def finish (b : SegmentBuilder) : SegmentBuilder := b.flush sum64

end SegmentBuilder

/-- `segmentBuilder` as a writer. -/
def segmentWriter : Writer SegmentBuilder where
  write data := Act.update fun b =>
    let data := data.take b.inputLimit
    ({ b with remaining := b.remaining - data.length }).fill sum64 data
  semanticCapReached b := b.remaining == 0 || b.progress.budget.exhausted
  inputLimit b := some b.inputLimit

end

end Higress.Picker
