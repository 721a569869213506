import Mathlib
import Higress.Lib.Decimal
import Higress.Lib.GoString

/-!
The ranges of the address file as CIDR blocks. From the first address on, the largest block is taken
that begins there and ends in the range, and the next one begins behind it. Addresses are of 32 bits:
behind the last one stands the first.
-/

namespace Higress.GeoIp

open Lib

def cidr2Mask : List UInt32 :=
  [0x00000000, 0x80000000, 0xC0000000, 0xE0000000, 0xF0000000, 0xF8000000,
    0xFC000000, 0xFE000000, 0xFF000000, 0xFF800000, 0xFFC00000, 0xFFE00000,
    0xFFF00000, 0xFFF80000, 0xFFFC0000, 0xFFFE0000, 0xFFFF0000, 0xFFFF8000,
    0xFFFFC000, 0xFFFFE000, 0xFFFFF000, 0xFFFFF800, 0xFFFFFC00, 0xFFFFFE00,
    0xFFFFFF00, 0xFFFFFF80, 0xFFFFFFC0, 0xFFFFFFE0, 0xFFFFFFF0, 0xFFFFFFF8,
    0xFFFFFFFC, 0xFFFFFFFE, 0xFFFFFFFF]

/-- One segment of an address, with the place of its bits. -/
def addSegment (acc : BitVec 64 × UInt64) (ipSeg : GoString) : BitVec 64 × UInt64 :=
  (acc.1 ||| (BitVec.ofInt 64 (atoi ipSeg).1 <<< acc.2.toNat), acc.2 - 8)

def ipToInt (ipStr : GoString) : BitVec 64 := ((ipStr.splitOn 46).foldl addSegment (0, 24)).1

/-- The last `n` segments of an address. -/
def ipSegs : ℕ → BitVec 64 → List GoString
  | 0, _ => []
  | n + 1, ipInt => ipSegs n (ipInt.sshiftRight 8) ++ [formatNat (ipInt &&& 0xFF).toNat]

def intToIP (ipInt : BitVec 64) : GoString := Strings.join (ipSegs 4 ipInt) [46]

/-- The loop over the masks: the address keeps its bits under all masks from the result on. -/
def maxSizeFrom (start : UInt32) : ℕ → ℕ
  | 0 => 0
  | maxSize + 1 =>
      if start &&& cidr2Mask.getD maxSize 0 ≠ start then maxSize + 1 else maxSizeFrom start maxSize

/-- The size of the next block. The range is not all of the address space, so that its length is a
positive number of 32 bits. -/
def blockSize (start stop : UInt32) : ℕ :=
  let maxSize := maxSizeFrom start 32
  let maxDiff := 32 - Nat.log2 (stop - start + 1).toNat
  if maxSize < maxDiff then maxDiff else maxSize

def cidrText (start : UInt32) (size : ℕ) : GoString :=
  intToIP (start.toBitVec.setWidth 64) ++ 47 :: formatNat size

/-- The loop of `range2cidrList`, for some number of rounds. -/
def cidrsFrom (beginStart stop : UInt32) : ℕ → UInt32 → Option (List GoString)
  | 0, _ => none
  | rounds + 1, start =>
      if start ≤ stop then
        let maxSize := blockSize start stop
        let next := start + UInt32.ofNat (2 ^ (32 - maxSize))
        -- avoid dead loop for 255.255.255.255
        if next < beginStart then some [cidrText start maxSize]
        else (cidrsFrom beginStart stop rounds next).map (cidrText start maxSize :: ·)
      else some []

def range2cidrList (rounds : ℕ) (startIp endIp : GoString) : Option (List GoString) :=
  let start : UInt32 := ⟨(ipToInt startIp).setWidth 32⟩
  let stop : UInt32 := ⟨(ipToInt endIp).setWidth 32⟩
  cidrsFrom start stop rounds start

/-- An address as it is written. -/
def dotted (a : UInt32) : GoString := intToIP (a.toBitVec.setWidth 64)

/-! ### Addresses -/

theorem ipSegs_toNat {n : ℕ} {x : BitVec 64} (hx : x.toNat < 2 ^ 63) :
    ipSegs (n + 1) x = ipSegs n (BitVec.ofNat 64 (x.toNat / 256)) ++ [formatNat (x.toNat % 256)] := by
  have hshift : x.sshiftRight 8 = BitVec.ofNat 64 (x.toNat / 256) := by
    have hmsb : x.msb = false := by
      rw [BitVec.msb_eq_decide]
      simpa using hx
    rw [BitVec.sshiftRight_eq_of_msb_false hmsb]
    apply BitVec.eq_of_toNat_eq
    rw [BitVec.toNat_ushiftRight, Nat.shiftRight_eq_div_pow, BitVec.toNat_ofNat]
    exact (Nat.mod_eq_of_lt (by omega)).symm
  have hand : (x &&& 0xFF).toNat = x.toNat % 256 := by
    rw [BitVec.toNat_and]
    exact Nat.and_two_pow_sub_one_eq_mod x.toNat 8
  rw [ipSegs, hshift, hand]

theorem ipSegs_eq (a : UInt32) : ipSegs 4 (a.toBitVec.setWidth 64) =
    [formatNat (a.toNat / 2 ^ 24 % 256), formatNat (a.toNat / 2 ^ 16 % 256),
      formatNat (a.toNat / 2 ^ 8 % 256), formatNat (a.toNat % 256)] := by
  have ha := a.toNat_lt
  have hnat : (a.toBitVec.setWidth 64).toNat = a.toNat := by
    rw [BitVec.toNat_setWidth]
    exact Nat.mod_eq_of_lt (by change a.toNat < _; omega)
  have hofNat (n : ℕ) (hn : n ≤ a.toNat) : (BitVec.ofNat 64 n).toNat = n := by
    rw [BitVec.toNat_ofNat]
    exact Nat.mod_eq_of_lt (by omega)
  rw [ipSegs_toNat (by rw [hnat]; omega), hnat, ipSegs_toNat (by rw [hofNat] <;> omega),
    hofNat _ (by omega), ipSegs_toNat (by rw [hofNat] <;> omega), hofNat _ (by omega),
    ipSegs_toNat (by rw [hofNat] <;> omega), hofNat _ (by omega), ipSegs]
  simp only [Nat.div_div_eq_div_mul, List.nil_append, List.cons_append]
  norm_num

theorem atoi_formatNat {n : ℕ} (hn : n < 256) : (atoi (formatNat n)).1 = n := by
  have hdecimal := isDecimal_of_isNumeral (isNumeral_formatNat n)
  have := integerValue_of_isDecimal hdecimal
  rw [decimalValue_formatNat] at this
  rw [atoi_of_integerValue this (by omega) (by omega)]

theorem notMem_formatNat (n : ℕ) : (46 : UInt8) ∉ formatNat n := by
  intro hmem
  have hdigit := (isDecimal_iff.mp (isDecimal_of_isNumeral (isNumeral_formatNat n))).2 46 hmem
  have h46 : (46 : UInt8).toNat = 46 := rfl
  omega

/-- Segments put behind each other. -/
theorem or_shiftLeft {high low : ℕ} (i : ℕ) (h : low < 2 ^ i) :
    high * 2 ^ i ||| low = high * 2 ^ i + low := by
  rw [← Nat.shiftLeft_eq, Nat.shiftLeft_add_eq_or_of_lt h]

theorem toNat_segment {n pos : ℕ} (hn : n < 256) (hpos : pos ≤ 24) :
    (BitVec.ofInt 64 (n : ℤ) <<< pos).toNat = n * 2 ^ pos := by
  have hle : 2 ^ pos ≤ 2 ^ 24 := Nat.pow_le_pow_right (by norm_num) hpos
  have hlt : n * 2 ^ pos < 2 ^ 64 := by
    calc n * 2 ^ pos ≤ 256 * 2 ^ 24 := Nat.mul_le_mul hn.le hle
      _ < 2 ^ 64 := by norm_num
  rw [BitVec.ofInt_natCast, BitVec.toNat_shiftLeft, BitVec.toNat_ofNat, Nat.shiftLeft_eq,
    Nat.mod_eq_of_lt (show n < 2 ^ 64 by omega), Nat.mod_eq_of_lt hlt]

/-- The four segments of a number. -/
theorem or_segments {n : ℕ} (hn : n < 2 ^ 32) :
    n / 2 ^ 24 % 256 * 2 ^ 24 ||| n / 2 ^ 16 % 256 * 2 ^ 16 ||| n / 2 ^ 8 % 256 * 2 ^ 8 |||
      n % 256 * 2 ^ 0 = n := by
  have h₁ : n / 2 ^ 24 % 256 * 2 ^ 24 ||| n / 2 ^ 16 % 256 * 2 ^ 16 = n / 2 ^ 16 * 2 ^ 16 := by
    rw [or_shiftLeft 24 (by omega)]
    omega
  have h₂ : n / 2 ^ 16 * 2 ^ 16 ||| n / 2 ^ 8 % 256 * 2 ^ 8 = n / 2 ^ 8 * 2 ^ 8 := by
    rw [or_shiftLeft 16 (by omega)]
    omega
  rw [h₁, h₂, or_shiftLeft 8 (by omega)]
  omega

/-- An address that was written is read back. -/
theorem ipToInt_dotted (a : UInt32) : (⟨(ipToInt (dotted a)).setWidth 32⟩ : UInt32) = a := by
  have ha := a.toNat_lt
  have hsplit : (dotted a).splitOn 46 =
      [formatNat (a.toNat / 2 ^ 24 % 256), formatNat (a.toNat / 2 ^ 16 % 256),
        formatNat (a.toNat / 2 ^ 8 % 256), formatNat (a.toNat % 256)] := by
    rw [dotted, intToIP, ipSegs_eq, Strings.join, List.splitOn_intercalate _ _ (by simp)]
    simp [notMem_formatNat]
  have hnat : (ipToInt (dotted a)).toNat = a.toNat := by
    have hmod (n : ℕ) : n % 256 < 256 := Nat.mod_lt _ (by norm_num)
    rw [ipToInt, hsplit]
    simp only [List.foldl_cons, List.foldl_nil, addSegment, atoi_formatNat (hmod _), BitVec.toNat_or]
    change ((0 ||| (BitVec.ofInt 64 _ <<< 24).toNat) ||| (BitVec.ofInt 64 _ <<< 16).toNat |||
      (BitVec.ofInt 64 _ <<< 8).toNat) ||| (BitVec.ofInt 64 _ <<< 0).toNat = _
    rw [toNat_segment (hmod _) (by norm_num), toNat_segment (hmod _) (by norm_num),
      toNat_segment (hmod _) (by norm_num), toNat_segment (hmod _) (by norm_num), Nat.zero_or]
    exact or_segments ha
  apply UInt32.toNat_inj.mp
  change ((ipToInt (dotted a)).setWidth 32).toNat = a.toNat
  rw [BitVec.toNat_setWidth, hnat]
  exact Nat.mod_eq_of_lt ha

/-! ### Blocks -/

/-- The addresses with the first `size` bits of `base`. -/
structure Block where
  base : UInt32
  size : ℕ

namespace Block

def count (b : Block) : ℕ := 2 ^ (32 - b.size)

def text (b : Block) : GoString := cidrText b.base b.size

/-- The block begins where a block of its size may begin. -/
def Aligned (b : Block) : Prop := b.size ≤ 32 ∧ b.count ∣ b.base.toNat

def Mem (x : UInt32) (b : Block) : Prop :=
  b.base.toNat ≤ x.toNat ∧ x.toNat < b.base.toNat + b.count

/-- The block stands before another, without a common address. -/
def Before (b c : Block) : Prop := b.base.toNat + b.count ≤ c.base.toNat

end Block

theorem dvd_of_mask {start : UInt32} {k : ℕ} (hk : k < 33)
    (h : start &&& cidr2Mask.getD k 0 = start) : 2 ^ (32 - k) ∣ start.toNat := by
  have hmask : ∀ k < 33, (cidr2Mask.getD k 0).toNat % 2 ^ (32 - k) = 0 := by decide
  apply Nat.dvd_of_mod_eq_zero
  rw [← h, UInt32.toNat_and, Nat.and_mod_two_pow, hmask k hk, Nat.and_zero]

theorem dvd_maxSizeFrom {start : UInt32} {k : ℕ} (hk : k ≤ 32) (h : 2 ^ (32 - k) ∣ start.toNat) :
    maxSizeFrom start k ≤ k ∧ 2 ^ (32 - maxSizeFrom start k) ∣ start.toNat := by
  induction k with
  | zero => exact ⟨le_rfl, h⟩
  | succ k ih =>
      rw [maxSizeFrom]
      split
      · exact ⟨le_rfl, h⟩
      · rename_i hmask
        obtain ⟨hle, hdvd⟩ := ih (by omega) (dvd_of_mask (by omega) (not_not.mp hmask))
        exact ⟨by omega, hdvd⟩

/-- The next block begins at its address, and it does not reach beyond the range. -/
theorem blockSize_spec {start stop : UInt32} (hle : start.toNat ≤ stop.toNat)
    (hwhole : stop.toNat - start.toNat + 1 < 2 ^ 32) :
    1 ≤ blockSize start stop ∧ blockSize start stop ≤ 32 ∧
      2 ^ (32 - blockSize start stop) ∣ start.toNat ∧
      start.toNat + 2 ^ (32 - blockSize start stop) ≤ stop.toNat + 1 := by
  obtain ⟨hsize, hdvd⟩ := @dvd_maxSizeFrom start 32 le_rfl (by simp)
  have hlen : (stop - start + 1).toNat = stop.toNat - start.toNat + 1 := by
    have hsub : (stop - start).toNat = stop.toNat - start.toNat :=
      UInt32.toNat_sub_of_le _ _ (UInt32.le_iff_toNat_le.mpr hle)
    rw [UInt32.toNat_add, hsub]
    exact Nat.mod_eq_of_lt hwhole
  have hlog : Nat.log2 (stop - start + 1).toNat < 32 := by
    rw [hlen, Nat.log2_lt (by omega)]
    exact hwhole
  have hpow : 2 ^ Nat.log2 (stop - start + 1).toNat ≤ stop.toNat - start.toNat + 1 := by
    rw [hlen]
    exact Nat.log2_self_le (by omega)
  have hmax : maxSizeFrom start 32 ≤ blockSize start stop ∧
      32 - Nat.log2 (stop - start + 1).toNat ≤ blockSize start stop ∧ blockSize start stop ≤ 32 := by
    simp only [blockSize]
    split <;> omega
  obtain ⟨hmask, hdiff, h32⟩ := hmax
  refine ⟨by omega, h32, (Nat.pow_dvd_pow 2 (by omega)).trans hdvd, ?_⟩
  have hcount : 2 ^ (32 - blockSize start stop) ≤ 2 ^ Nat.log2 (stop - start + 1).toNat :=
    Nat.pow_le_pow_right (by norm_num) (by omega)
  omega

/-- The blocks are aligned, stand one behind the other, and have the addresses of the range. -/
structure Covers (blocks : List Block) (start stop : UInt32) : Prop where
  aligned : ∀ b ∈ blocks, b.Aligned
  ascending : blocks.Pairwise Block.Before
  union : ∀ x, (∃ b ∈ blocks, b.Mem x) ↔ start ≤ x ∧ x ≤ stop

/-- A block that ends the range. -/
theorem Covers.single {b : Block} {stop : UInt32} (hb : b.Aligned)
    (hend : b.base.toNat + b.count = stop.toNat + 1) : Covers [b] b.base stop where
  aligned c hc := by rwa [List.mem_singleton.mp hc]
  ascending := List.pairwise_singleton _ _
  union x := by
    simp only [List.mem_singleton, exists_eq_left, Block.Mem, UInt32.le_iff_toNat_le]
    omega

/-- A block before the blocks of what is behind it. -/
theorem Covers.cons {b : Block} {blocks : List Block} {next stop : UInt32} (hb : b.Aligned)
    (hnext : next.toNat = b.base.toNat + b.count) (hle : next.toNat ≤ stop.toNat)
    (h : Covers blocks next stop) : Covers (b :: blocks) b.base stop where
  aligned c hc := by
    rcases List.mem_cons.mp hc with rfl | hc
    · exact hb
    · exact h.aligned c hc
  ascending := by
    refine List.pairwise_cons.mpr ⟨fun c hc => ?_, h.ascending⟩
    -- The base of a later block is an address of the rest.
    have hbase := (h.union c.base).mp ⟨c, hc, le_rfl, Nat.lt_add_of_pos_right (Nat.two_pow_pos _)⟩
    have hbase' := UInt32.le_iff_toNat_le.mp hbase.1
    rw [hnext] at hbase'
    exact hbase'
  union x := by
    have hpos : 0 < b.count := Nat.two_pow_pos _
    have hrest := h.union x
    simp only [List.mem_cons, exists_eq_or_imp, hrest]
    simp only [Block.Mem, UInt32.le_iff_toNat_le]
    omega

/-- From an address of the range on, the loop returns the blocks of the rest of the range. -/
theorem cidrsFrom_covers {beginStart stop : UInt32}
    (hwhole : ¬ (beginStart = 0 ∧ stop = 0xFFFFFFFF)) (n : ℕ) :
    ∀ start : UInt32, beginStart ≤ start → start ≤ stop → stop.toNat - start.toNat ≤ n →
      ∃ blocks, Covers blocks start stop ∧
        ∀ rounds, n + 2 ≤ rounds → cidrsFrom beginStart stop rounds start = some (blocks.map Block.text) := by
  induction n using Nat.strongRecOn with
  | ind n ih =>
      intro start hbegin hle hn
      rw [UInt32.le_iff_toNat_le] at hbegin hle
      have hstop := stop.toNat_lt
      have hlast : stop.toNat = 2 ^ 32 - 1 → 0 < beginStart.toNat := by
        intro htop
        by_contra hzero
        refine hwhole ⟨UInt32.toNat_inj.mp ?_, UInt32.toNat_inj.mp htop⟩
        change beginStart.toNat = 0
        omega
      obtain ⟨hone, h32, hdvd, hfits⟩ := blockSize_spec hle (by omega)
      have hcount : 2 ^ (32 - blockSize start stop) ≤ 2 ^ 31 :=
        Nat.pow_le_pow_right (by norm_num) (by omega)
      have hpos : 0 < 2 ^ (32 - blockSize start stop) := Nat.two_pow_pos _
      have haligned : Block.Aligned ⟨start, blockSize start stop⟩ := ⟨h32, hdvd⟩
      have hnext : (start + UInt32.ofNat (2 ^ (32 - blockSize start stop))).toNat =
          (start.toNat + 2 ^ (32 - blockSize start stop)) % 2 ^ 32 := by
        rw [UInt32.toNat_add, UInt32.toNat_ofNat', Nat.add_mod_mod]
      have hstep (rounds : ℕ) : cidrsFrom beginStart stop (rounds + 1) start =
          if start + UInt32.ofNat (2 ^ (32 - blockSize start stop)) < beginStart then
            some [cidrText start (blockSize start stop)]
          else (cidrsFrom beginStart stop rounds
            (start + UInt32.ofNat (2 ^ (32 - blockSize start stop)))).map
              (cidrText start (blockSize start stop) :: ·) := by
        rw [cidrsFrom, if_pos (UInt32.le_iff_toNat_le.mpr hle)]
      generalize hnextdef : start + UInt32.ofNat (2 ^ (32 - blockSize start stop)) = next at *
      rcases Nat.lt_or_ge (start.toNat + 2 ^ (32 - blockSize start stop)) (2 ^ 32) with hlt | hge
      · rw [Nat.mod_eq_of_lt hlt] at hnext
        have hgo : ¬ next < beginStart := by
          rw [UInt32.lt_iff_toNat_lt]
          omega
        rcases Nat.lt_or_ge stop.toNat next.toNat with hend | hmore
        · refine ⟨[⟨start, blockSize start stop⟩], Covers.single haligned ?_, fun rounds hrounds => ?_⟩
          · change start.toNat + 2 ^ (32 - blockSize start stop) = _
            omega
          · obtain ⟨rounds, rfl⟩ : ∃ k, rounds = k + 2 := ⟨rounds - 2, by omega⟩
            rw [hstep, if_neg hgo, cidrsFrom, if_neg]
            · rfl
            · rw [UInt32.le_iff_toNat_le]
              omega
        · obtain ⟨blocks, hcovers, hrun⟩ := ih (stop.toNat - next.toNat) (by omega) next
            (UInt32.le_iff_toNat_le.mpr (by omega)) (UInt32.le_iff_toNat_le.mpr hmore) le_rfl
          refine ⟨⟨start, blockSize start stop⟩ :: blocks, hcovers.cons haligned hnext hmore,
            fun rounds hrounds => ?_⟩
          obtain ⟨rounds, rfl⟩ : ∃ k, rounds = k + 1 := ⟨rounds - 1, by omega⟩
          rw [hstep, if_neg hgo, hrun rounds (by omega)]
          rfl
      · -- The block ends at 255.255.255.255, and the next address is 0.0.0.0.
        have hwrap : start.toNat + 2 ^ (32 - blockSize start stop) = 2 ^ 32 := by omega
        refine ⟨[⟨start, blockSize start stop⟩], Covers.single haligned ?_, fun rounds hrounds => ?_⟩
        · change start.toNat + 2 ^ (32 - blockSize start stop) = _
          omega
        · obtain ⟨rounds, rfl⟩ : ∃ k, rounds = k + 1 := ⟨rounds - 1, by omega⟩
          rw [hstep, if_pos]
          · rfl
          · rw [hwrap, Nat.mod_self] at hnext
            rw [UInt32.lt_iff_toNat_lt]
            have := hlast (by omega)
            omega

/-- A range other than the whole address space becomes aligned, disjoint and ascending blocks with
exactly its addresses. -/
theorem range2cidrList_covers (start stop : UInt32) (hle : start ≤ stop)
    (hwhole : ¬ (start = 0 ∧ stop = 0xFFFFFFFF)) :
    ∃ blocks, Covers blocks start stop ∧ ∃ enough, ∀ rounds, enough ≤ rounds →
      range2cidrList rounds (dotted start) (dotted stop) = some (blocks.map Block.text) := by
  obtain ⟨blocks, hcovers, hrun⟩ := cidrsFrom_covers hwhole _ start (UInt32.le_refl _) hle le_rfl
  refine ⟨blocks, hcovers, stop.toNat - start.toNat + 2, fun rounds hrounds => ?_⟩
  simp only [range2cidrList, ipToInt_dotted]
  exact hrun rounds hrounds

/-- The range from 255.255.255.1 to 255.255.255.255. -/
theorem range2cidrList_covers_last : (0xFFFFFF01 : UInt32) ≤ 0xFFFFFFFF ∧
    ∃ blocks, Covers blocks 0xFFFFFF01 0xFFFFFFFF ∧ ∃ enough, ∀ rounds, enough ≤ rounds →
      range2cidrList rounds (dotted 0xFFFFFF01) (dotted 0xFFFFFFFF) = some (blocks.map Block.text) :=
  ⟨by decide, range2cidrList_covers _ _ (by decide) (by decide)⟩

example : range2cidrList 5 (bytes "1.0.0.3") (bytes "1.0.0.8") =
    some [bytes "1.0.0.3/32", bytes "1.0.0.4/30", bytes "1.0.0.8/32"] := by
  decide +kernel

end Higress.GeoIp
