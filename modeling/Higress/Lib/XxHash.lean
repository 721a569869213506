import Higress.Lib.GoString

/-!
The hash function XXH64 with the seed zero, as its specification describes it. The
hash of a text is used through its being a function of the text; that it can be
computed is for concrete texts.
-/

namespace Higress.Lib.XxHash

def prime1 : UInt64 := 11400714785074694791

def prime2 : UInt64 := 14029467366897019727

def prime3 : UInt64 := 1609587929392839161

def prime4 : UInt64 := 9650029242287828579

def prime5 : UInt64 := 2870177450012600261

def rotl (x n : UInt64) : UInt64 := (x <<< n) ||| (x >>> (64 - n))

/-- The first `n` bytes of a text as a number, the lowest byte first. -/
def little (n : ℕ) (s : GoString) : UInt64 :=
  (s.take n).foldr (fun b acc => acc * 256 + b.toUInt64) 0

def round (acc input : UInt64) : UInt64 := rotl (acc + input * prime2) 31 * prime1

def mergeRound (acc lane : UInt64) : UInt64 := (acc ^^^ round 0 lane) * prime1 + prime4

/-- The four lanes over all stripes of 32 bytes, and what is left of the text. -/
def stripes : ℕ → List UInt64 → GoString → List UInt64 × GoString
  | 0, lanes, s => (lanes, s)
  | n + 1, lanes, s =>
      stripes n ((List.range 4).zipWith (fun i lane => round lane (little 8 (s.drop (8 * i)))) lanes)
        (s.drop 32)

/-- Where the lanes meet. -/
def converge (lanes : List UInt64) : UInt64 :=
  lanes.foldl mergeRound
    ((lanes.zipWith (fun lane n => rotl lane n) [1, 7, 12, 18]).foldl (· + ·) 0)

/-- Words of eight bytes. -/
def words : ℕ → UInt64 → GoString → UInt64
  | 0, h, _ => h
  | n + 1, h, s => words n (rotl (h ^^^ round 0 (little 8 s)) 27 * prime1 + prime4) (s.drop 8)

def halfWord (h : UInt64) (s : GoString) : UInt64 :=
  if s.length < 4 then h else rotl (h ^^^ little 4 s * prime1) 23 * prime2 + prime3

def lastBytes (h : UInt64) (s : GoString) : UInt64 :=
  s.foldl (fun h b => rotl (h ^^^ b.toUInt64 * prime5) 11 * prime1) h

def avalanche (h : UInt64) : UInt64 :=
  let h := (h ^^^ (h >>> 33)) * prime2
  let h := (h ^^^ (h >>> 29)) * prime3
  h ^^^ (h >>> 32)

/-- `xxhash.Sum64`. -/
def sum64 (s : GoString) : UInt64 :=
  let start :=
    if s.length < 32 then (prime5, s)
    else
      let last := stripes (s.length / 32) [prime1 + prime2, prime2, 0, 0 - prime1] s
      (converge last.1, last.2)
  let rest := start.2
  let h := words (rest.length / 8) (start.1 + UInt64.ofNat s.length) rest
  let rest := rest.drop (rest.length / 8 * 8)
  avalanche (lastBytes (halfWord h rest) (rest.drop (rest.length / 4 * 4)))

example : sum64 (bytes "Nobody inspects the spammish repetition") = 0xFBCEA83C8A378BF1 := by
  decide +kernel

example : sum64 (bytes "abc") = 0x44BC2CF5AD770999 := by decide +kernel

end Higress.Lib.XxHash
