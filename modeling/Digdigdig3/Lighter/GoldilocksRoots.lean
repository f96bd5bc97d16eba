import Mathlib.Tactic
import Mathlib.Data.Nat.Bitwise
import Mathlib.NumberTheory.LegendreSymbol.Basic
import Digdigdig3.Lib.SquareRoot
import Digdigdig3.Lighter.GoldilocksField

/-!
# Comparisons, halves, the Legendre symbol and square roots of `GFp`

The rest of `crates/digdigdig3/src/l3/open/crypto/dex/lighter/crypto/goldilocks.rs`.

* `fromU64Checked_eq`, `equals_eq`, `iszero_eq`: what the masks say.
* `toField_half`, `toField_legendre`: the arithmetic.
* `sqrt_of_isSquare`, `sqrt_of_not_isSquare`: the mask of a square root is that of the squares.
* `exact_all`: all of the arithmetic in terms of the integers below `p`.
-/

namespace Digdigdig3.Lighter

namespace GFp

/-! ## Masks -/

/-- `iszero` (lines 260–262). -/
def iszero (x : GFp) : ℕ := (isZeroMask (BitVec.ofNat 64 x.mont)).toNat

/-- `equals` (lines 278–281). -/
def equals (x rhs : GFp) : ℕ := (isZeroMask (BitVec.ofNat 64 (x.mont ^^^ rhs.mont))).toNat

/-- `from_u64_checked` (lines 57–61). -/
def fromU64Checked (v : UInt64) : GFp × ℕ :=
  let z := v - 0xFFFFFFFF00000001
  let c := ((v &&& ~~~z) >>> 63) - 1
  (fromU64Reduce (v &&& c), c.toNat)

theorem toNat_isZeroMask {word : ℕ} (h : word < 2 ^ 64) :
    (isZeroMask (BitVec.ofNat 64 word)).toNat = if word = 0 then 2 ^ 64 - 1 else 0 := by
  have hiff : BitVec.ofNat 64 word = 0 ↔ word = 0 := by
    rw [← BitVec.toNat_inj, BitVec.toNat_ofNat, Nat.mod_eq_of_lt h]
    rfl
  rw [isZeroMask_eq]
  by_cases hword : word = 0
  · rw [if_pos (hiff.mpr hword), if_pos hword]
    rfl
  · rw [if_neg (mt hiff.mp hword), if_neg hword]
    rfl

theorem mont_eq_zero {x : GFp} : x.mont = 0 ↔ x = zero :=
  ⟨fun h => mont_injective (h.trans zero_mont.symm), fun h => h ▸ zero_mont⟩

theorem iszero_eq (x : GFp) : x.iszero = if x = zero then 2 ^ 64 - 1 else 0 := by
  rw [iszero, toNat_isZeroMask x.mont_lt_word]
  simp only [mont_eq_zero]

theorem mont_xor_eq_zero {x y : GFp} : x.mont ^^^ y.mont = 0 ↔ x = y := by
  refine ⟨fun h => ?_, fun h => by rw [h, Nat.xor_self]⟩
  exact (mont_injective (Nat.xor_right_injective (h.trans (Nat.xor_self _).symm))).symm

theorem equals_eq (x y : GFp) : x.equals y = if x = y then 2 ^ 64 - 1 else 0 := by
  rw [equals, toNat_isZeroMask (Nat.xor_lt_two_pow x.mont_lt_word y.mont_lt_word)]
  simp only [mont_xor_eq_zero]

/-- The top bit, alone. -/
theorem ushiftRight_63 (z : BitVec 64) : z >>> 63 = if z.msb then 1 else 0 := by
  apply BitVec.eq_of_toNat_eq
  rw [BitVec.toNat_ushiftRight, Nat.shiftRight_eq_div_pow, BitVec.msb_eq_decide]
  have hz := z.isLt
  by_cases h : 2 ^ 63 ≤ z.toNat
  · have hone : z.toNat / 2 ^ 63 = 1 := by omega
    rw [hone, decide_eq_true h]
    rfl
  · have hzero : z.toNat / 2 ^ 63 = 0 := by omega
    rw [hzero, decide_eq_false h]
    rfl

/-- Below `p` the difference has the top bit wherever the value has it. -/
theorem msb_checked (v : BitVec 64) :
    (v &&& ~~~(v - 0xFFFFFFFF00000001#64)).msb = decide (modulus ≤ v.toNat) := by
  have hv := v.isLt
  have hdiff : (v - 0xFFFFFFFF00000001#64).toNat =
      (2 ^ 64 - 0xFFFFFFFF00000001 + v.toNat) % 2 ^ 64 := BitVec.toNat_sub _ _
  rw [BitVec.msb_and, BitVec.msb_not, BitVec.msb_eq_decide, BitVec.msb_eq_decide, hdiff,
    Bool.eq_iff_iff]
  simp only [Bool.and_eq_true, Bool.not_eq_true', decide_eq_true_eq, decide_eq_false_iff_not]
  unfold modulus
  omega

theorem checked_mask (v : UInt64) :
    ((v &&& ~~~(v - 0xFFFFFFFF00000001)) >>> 63) - 1 =
      if v.toNat < modulus then 0xFFFFFFFFFFFFFFFF else 0 := by
  have hbits : ((v &&& ~~~(v - 0xFFFFFFFF00000001)) >>> 63).toBitVec =
      (v.toBitVec &&& ~~~(v.toBitVec - 0xFFFFFFFF00000001#64)) >>> 63 := rfl
  apply UInt64.toBitVec_inj.mp
  rw [UInt64.toBitVec_sub, hbits, ushiftRight_63, msb_checked]
  by_cases h : v.toNat < modulus
  · have hle : ¬modulus ≤ v.toBitVec.toNat := not_le.mpr h
    rw [decide_eq_false hle, if_pos h]
    rfl
  · have hle : modulus ≤ v.toBitVec.toNat := not_lt.mp h
    rw [decide_eq_true hle, if_neg h]
    rfl

theorem fromU64Checked_eq (v : UInt64) :
    fromU64Checked v =
      if v.toNat < modulus then (fromU64Reduce v, 2 ^ 64 - 1) else (zero, 0) := by
  unfold fromU64Checked
  simp only [checked_mask]
  split_ifs
  · have hall : v &&& 0xFFFFFFFFFFFFFFFF = v := UInt64.and_neg_one
    rw [hall]
    rfl
  · rw [UInt64.and_zero]
    rfl

/-! ## Halves -/

/-- The word by two, and half of `p + 1` for an odd one. -/
theorem half_word (x : GFp) :
    wrap (x.mont / 2 + (wrappingSub 0 (x.mont % 2) &&& 0x7FFFFFFF80000001)) < modulus ∧
      (2 * wrap (x.mont / 2 + (wrappingSub 0 (x.mont % 2) &&& 0x7FFFFFFF80000001)) = x.mont ∨
        2 * wrap (x.mont / 2 + (wrappingSub 0 (x.mont % 2) &&& 0x7FFFFFFF80000001)) =
          x.mont + modulus) := by
  have hx := x.mont_lt
  obtain hodd | hodd : x.mont % 2 = 0 ∨ x.mont % 2 = 1 := by omega
  · have hmask : wrappingSub 0 0 &&& 0x7FFFFFFF80000001 = 0 := by decide
    rw [hodd, hmask]
    unfold wrap modulus at *
    omega
  · have hmask : wrappingSub 0 1 &&& 0x7FFFFFFF80000001 = 0x7FFFFFFF80000001 := by decide
    rw [hodd, hmask]
    unfold wrap modulus at *
    omega

/-- `half` (lines 118–123). -/
def half (x : GFp) : GFp where
  mont := wrap (x.mont / 2 + (wrappingSub 0 (x.mont % 2) &&& 0x7FFFFFFF80000001))
  mont_lt := (half_word x).1

theorem two_mul_half (x : GFp) : 2 * x.half.toField = x.toField := by
  symm
  apply toField_eq_of_mont
  rw [mul_assoc, toField_mul_two_pow]
  have hcast : ((2 * x.half.mont : ℕ) : ZMod modulus) = x.mont := by
    obtain h | h := (half_word x).2
    · exact congrArg Nat.cast h
    · have hadd := congrArg (Nat.cast : ℕ → ZMod modulus) h
      rwa [Nat.cast_add, ZMod.natCast_self, add_zero] at hadd
  rw [← hcast, Nat.cast_mul, Nat.cast_ofNat]

/-! ## The Legendre symbol -/

/-- `isone` (lines 266–268). -/
def isone (x : GFp) : ℕ := x.equals one

/-- `MINUS_ONE` (line 25). -/
def minusOne : GFp := fromU64Reduce (0xFFFFFFFF00000001 - 1)

@[simp] theorem toField_minusOne : minusOne.toField = -1 := by
  have hsum : ((0xFFFFFFFF00000001 - 1 : UInt64).toNat : ZMod modulus) + 1 = 0 := by
    rw [← Nat.cast_one, ← Nat.cast_add]
    exact ZMod.natCast_self modulus
  rw [minusOne, toField_fromU64Reduce]
  exact eq_neg_of_add_eq_zero_left hsum

/-- `legendre` (lines 184–192). -/
def legendre (x : GFp) : GFp :=
  let x2 := x * x.square
  let x4 := x2 * x2.msquare 2
  let x8 := x4 * x4.msquare 4
  let x16 := x8 * x8.msquare 8
  let x32 := x16 * x16.msquare 16
  x32.msquare 31

theorem toField_legendre (x : GFp) : x.legendre.toField = x.toField ^ (modulus / 2) := by
  have hexp : modulus / 2 = (2 ^ 32 - 1) * 2 ^ 31 := by decide
  rw [hexp]
  simp only [legendre, toField_mul, toField_msquare, toField_square, ← pow_mul, ← pow_add,
    ← pow_succ']
  congr 1

theorem toField_eq_zero {x : GFp} : x.toField = 0 ↔ x = zero :=
  ⟨fun h => toField_injective (h.trans toField_zero.symm), fun h => h ▸ toField_zero⟩

/-- Zero, one or minus one. -/
theorem legendre_eq (x : GFp) : x.legendre =
    if x = zero then zero else if IsSquare x.toField then one else minusOne := by
  apply toField_injective
  rw [toField_legendre]
  split_ifs with hzero hsquare
  · rw [hzero, toField_zero]
    exact zero_pow (by decide)
  · rw [toField_one]
    exact (ZMod.euler_criterion modulus (mt toField_eq_zero.mp hzero)).mp hsquare
  · have hne : x.toField ≠ 0 := mt toField_eq_zero.mp hzero
    rw [toField_minusOne]
    exact (ZMod.pow_div_two_eq_neg_one_or_one modulus hne).resolve_left
      (mt (ZMod.euler_criterion modulus hne).mpr hsquare)

/-! ## Square roots -/

/-- The integers of `GG` (lines 197–230). -/
def rootWords : List UInt64 :=
  [1753635133440165772, 4614640910117430873, 9123114210336311365, 16116352524544190054,
    6414415596519834757, 1213594585890690845, 17096174751763063430, 5456943929260765144,
    9713644485405565297, 16905767614792059275, 5416168637041100469, 17654865857378133588,
    3511170319078647661, 18146160046829613826, 9306717745644682924, 12380578893860276750,
    6115771955107415310, 17776499369601055404, 16207902636198568418, 1532612707718625687,
    17492915097719143606, 455906449640507599, 11353340290879379826, 1803076106186727246,
    13797081185216407910, 17870292113338400769, 549755813888, 70368744161280,
    17293822564807737345, 18446744069397807105, 281474976710656, 18446744069414584320]

/-- `GG[i]`. -/
def gg (i : ℕ) : GFp := fromU64Reduce (rootWords.getD i 0)

/-- The loop of `sqrt` (lines 245–250), at `i`, …, `1`. -/
def sqrtLoop : ℕ → GFp × GFp → GFp × GFp
  | 0, (r, v) => (r, v)
  | i + 1, (r, v) =>
    let w := v.msquare i
    let cc := w.equals minusOne
    sqrtLoop i (select cc r (r * gg (30 - i)), select cc v (v * gg (31 - i)))

/-- `r` and `v` before the loop (lines 236–243): `x^(2^31)` and `x^(2^32 - 1)`. -/
def sqrtStart (x : GFp) : GFp × GFp :=
  let x2 := x * x.square
  let x4 := x2 * x2.msquare 2
  let x5 := x * x4.square
  let x10 := x5 * x5.msquare 5
  let x15 := x5 * x10.msquare 5
  let x16 := x * x15.square
  let x31 := x15 * x16.msquare 15
  (x * x31, x * x31.square)

/-- `sqrt` (lines 232–253). -/
def sqrt (x : GFp) : GFp × ℕ :=
  let p := sqrtLoop 31 x.sqrtStart
  let m := p.2.iszero ||| p.2.equals one
  (ofWord (p.1.mont &&& m), m)

/-- Each entry is the square of the one before it, and the last one is minus one. -/
theorem roots_gg : SquareRoot.Roots (fun i => (gg i).toField) 32 := by
  have hsq : ∀ j < 31, (gg j).square = gg (j + 1) := by decide +kernel
  have hlast : gg 31 = minusOne := by decide
  refine ⟨fun j hj => ?_, ?_⟩
  · rw [← toField_square, hsq j (by omega)]
  · show (gg 31).toField = -1
    rw [hlast, toField_minusOne]

/-- A pair of elements as a pair of the field. -/
def pairToField (p : GFp × GFp) : ZMod modulus × ZMod modulus := (p.1.toField, p.2.toField)

theorem pairToField_eq {p : GFp × GFp} {a b : ZMod modulus} (h : pairToField p = (a, b)) :
    p.1.toField = a ∧ p.2.toField = b := ⟨congrArg Prod.fst h, congrArg Prod.snd h⟩

theorem pairToField_sqrtLoop {i : ℕ} (hi : i < 32) (p : GFp × GFp) :
    pairToField (sqrtLoop i p) =
      SquareRoot.loop (fun i => (gg i).toField) 32 i (pairToField p) := by
  induction i generalizing p with
  | zero => rfl
  | succ i ih =>
    rw [sqrtLoop, ih (by omega), SquareRoot.loop]
    congr 1
    have hiff : p.2.msquare i = minusOne ↔ p.2.toField ^ 2 ^ i = -1 := by
      rw [← toField_msquare, ← toField_minusOne]
      exact ⟨congrArg _, toField_injective⟩
    unfold SquareRoot.turn
    rw [equals_eq]
    split_ifs with hw hpow hpow
    · rw [select_ones, select_ones]
      exact Prod.ext (toField_mul _ _) (toField_mul _ _)
    · exact absurd (hiff.mp hw) hpow
    · exact absurd (hiff.mpr hpow) hw
    · rw [select_zero, select_zero]

theorem pairToField_sqrtStart (x : GFp) :
    pairToField x.sqrtStart = (x.toField ^ 2 ^ 31, x.toField ^ (2 ^ 32 - 1)) := by
  unfold sqrtStart pairToField
  simp only [toField_mul, toField_msquare, toField_square, ← pow_mul, ← pow_add, ← pow_succ']
  congr 2

/-- The pair at the end of the loop. -/
theorem pairToField_end (x : GFp) :
    pairToField (sqrtLoop 31 x.sqrtStart) = SquareRoot.loop (fun i => (gg i).toField) 32 31
      (x.toField ^ 2 ^ 31, x.toField ^ (2 ^ 32 - 1)) := by
  rw [pairToField_sqrtLoop (by norm_num), pairToField_sqrtStart]

theorem and_ones (x : GFp) : ofWord (x.mont &&& (2 ^ 64 - 1)) = x := by
  rw [Nat.and_two_pow_sub_one_eq_mod, Nat.mod_eq_of_lt x.mont_lt_word, ofWord_mont]

theorem sqrt_of_end_one {x : GFp} (h : (sqrtLoop 31 x.sqrtStart).2 = one) :
    x.sqrt = ((sqrtLoop 31 x.sqrtStart).1, 2 ^ 64 - 1) := by
  have hmask : one.iszero ||| one.equals one = 2 ^ 64 - 1 := by decide
  unfold sqrt
  simp only [h, hmask, and_ones]

theorem sqrt_zero : zero.sqrt = (zero, 2 ^ 64 - 1) := by
  have hstart : (zero.toField ^ 2 ^ 31, zero.toField ^ (2 ^ 32 - 1)) = ((0, 0) : _ × _) := by
    rw [toField_zero, zero_pow (by norm_num), zero_pow (by norm_num)]
  have hend := pairToField_end zero
  rw [hstart, SquareRoot.loop_zero] at hend
  obtain ⟨hr, hv⟩ := pairToField_eq hend
  rw [toField_eq_zero] at hr hv
  have hmask : zero.iszero ||| zero.equals one = 2 ^ 64 - 1 := by decide
  unfold sqrt
  simp only [hr, hv, hmask, and_ones]

/-- The powers in front of the loop, in `x^((p - 1) / 2)`. -/
theorem start_pow (a : ZMod modulus) : (a ^ (2 ^ 32 - 1)) ^ 2 ^ 31 = a ^ (modulus / 2) := by
  have hexp : (2 ^ 32 - 1) * 2 ^ 31 = modulus / 2 := by decide
  rw [← pow_mul, hexp]

theorem start_sq (a : ZMod modulus) : (a ^ 2 ^ 31) ^ 2 = a * a ^ (2 ^ 32 - 1) := by
  have hexp : 2 ^ 31 * 2 = 2 ^ 32 - 1 + 1 := by norm_num
  rw [← pow_mul, hexp, pow_succ']

/-- A square has its root and the full mask. -/
theorem sqrt_of_isSquare {x : GFp} (h : IsSquare x.toField) :
    x.sqrt.2 = 2 ^ 64 - 1 ∧ x.sqrt.1.toField ^ 2 = x.toField := by
  by_cases hzero : x = zero
  · rw [hzero, sqrt_zero, toField_zero]
    exact ⟨rfl, zero_pow (by norm_num)⟩
  · have hpow := (ZMod.euler_criterion modulus (mt toField_eq_zero.mp hzero)).mp h
    have hloop := @SquareRoot.loop_root _ _ _ _ _ roots_gg 31 (by norm_num) x.toField
      (x.toField ^ 2 ^ 31, x.toField ^ (2 ^ 32 - 1)) (start_sq x.toField)
      ((start_pow x.toField).trans hpow)
    rw [← pairToField_end] at hloop
    have hv : (sqrtLoop 31 x.sqrtStart).2 = one :=
      toField_injective (hloop.2.trans toField_one.symm)
    rw [sqrt_of_end_one hv]
    exact ⟨rfl, hloop.1⟩

theorem sqrt_of_not_isSquare {x : GFp} (h : ¬IsSquare x.toField) : x.sqrt = (zero, 0) := by
  have hne : x.toField ≠ 0 := by
    intro hzero
    rw [hzero] at h
    exact h IsSquare.zero
  have hneg : x.toField ^ (modulus / 2) = -1 :=
    (ZMod.pow_div_two_eq_neg_one_or_one modulus hne).resolve_left
      (mt (ZMod.euler_criterion modulus hne).mpr h)
  have hloop := @SquareRoot.loop_keeps _ _ _ _ _ roots_gg 31 (by norm_num)
    (x.toField ^ 2 ^ 31, x.toField ^ (2 ^ 32 - 1)) ((start_pow x.toField).trans hneg)
  rw [← pairToField_end] at hloop
  have hkept : (sqrtLoop 31 x.sqrtStart).2.toField ^ 2 ^ 31 = minusOne.toField :=
    hloop.trans toField_minusOne.symm
  have hv : (sqrtLoop 31 x.sqrtStart).2 ≠ zero := by
    intro hend
    rw [hend, toField_zero, zero_pow (by norm_num)] at hkept
    exact absurd (toField_injective (toField_zero.trans hkept)) (by decide)
  have hv1 : (sqrtLoop 31 x.sqrtStart).2 ≠ one := by
    intro hend
    rw [hend, toField_one, one_pow] at hkept
    exact absurd (toField_injective (toField_one.trans hkept)) (by decide)
  unfold sqrt
  simp only [iszero_eq, equals_eq, if_neg hv, if_neg hv1, Nat.or_zero, Nat.and_zero]
  rfl

/-! ## All of it -/

theorem toNat_eq_of_toField {x : GFp} {n : ℕ} (h : x.toField = (n : ZMod modulus)) :
    x.toU64.toNat = n % modulus := by
  rw [toField, ZMod.natCast_eq_natCast_iff] at h
  rw [← h]
  exact (Nat.mod_eq_of_lt x.toU64_lt).symm

theorem toU64_injective {x y : GFp} (h : x.toU64 = y.toU64) : x = y := by
  rw [← x.fromU64Reduce_toU64, h, y.fromU64Reduce_toU64]

/-- The arithmetic is that of the integers modulo `p`, on words below `p`. -/
structure Exact (v : UInt64) (x y : GFp) (k : UInt32) : Prop where
  words : ∀ z ∈ [fromU64Reduce v, x + y, x - y, -x, x.half, x.double, x * y, x.square,
    x.mulSmall k, x.invert, x.legendre], z.mont < modulus
  from_u64_reduce : (fromU64Reduce v).toU64.toNat = v.toNat % modulus
  add : (x + y).toU64.toNat = (x.toU64.toNat + y.toU64.toNat) % modulus
  sub : (x - y).toU64.toNat = (x.toU64.toNat + (modulus - y.toU64.toNat)) % modulus
  neg : (-x).toU64.toNat = (modulus - x.toU64.toNat) % modulus
  half : 2 * x.half.toU64.toNat % modulus = x.toU64.toNat
  double : x.double.toU64.toNat = 2 * x.toU64.toNat % modulus
  mul : (x * y).toU64.toNat = x.toU64.toNat * y.toU64.toNat % modulus
  square : x.square.toU64.toNat = x.toU64.toNat ^ 2 % modulus
  mul_small : (x.mulSmall k).toU64.toNat = x.toU64.toNat * k.toNat % modulus
  invert : x.toU64 ≠ 0 → x.toU64.toNat * x.invert.toU64.toNat % modulus = 1
  invert_zero : x.toU64 = 0 → x.invert.toU64 = 0
  legendre_zero : x.toU64 = 0 → x.legendre.toU64 = 0
  legendre_square : x.toU64 ≠ 0 → (∃ r, r ^ 2 % modulus = x.toU64.toNat) → x.legendre.toU64 = 1
  legendre_not_square : (¬∃ r, r ^ 2 % modulus = x.toU64.toNat) →
    x.legendre.toU64.toNat = modulus - 1
  equals : x.equals y = if x.toU64 = y.toU64 then 2 ^ 64 - 1 else 0
  iszero : x.iszero = if x.toU64 = 0 then 2 ^ 64 - 1 else 0
  checked : v.toNat < modulus → (fromU64Checked v).2 = 2 ^ 64 - 1 ∧ (fromU64Checked v).1.toU64 = v
  rejected : modulus ≤ v.toNat → (fromU64Checked v).2 = 0

theorem toU64_zero : zero.toU64 = 0 := by decide

theorem toU64_eq_zero {x : GFp} : x.toU64 = 0 ↔ x = zero :=
  ⟨fun h => toU64_injective (h.trans toU64_zero.symm), fun h => h ▸ toU64_zero⟩

/-- Squares of the field and of the integers. -/
theorem isSquare_toField_iff (x : GFp) :
    IsSquare x.toField ↔ ∃ r, r ^ 2 % modulus = x.toU64.toNat := by
  constructor
  · rintro ⟨a, ha⟩
    refine ⟨a.val, (toNat_eq_of_toField ?_).symm⟩
    rw [ha, Nat.cast_pow, ZMod.natCast_zmod_val, sq]
  · rintro ⟨r, hr⟩
    refine ⟨(r : ZMod modulus), ?_⟩
    rw [toField, ← hr, ZMod.natCast_mod, Nat.cast_pow, sq]

theorem toU64_fromU64Reduce_of_lt {v : UInt64} (h : v.toNat < modulus) :
    (fromU64Reduce v).toU64 = v := by
  apply UInt64.toNat_inj.mp
  rw [toNat_eq_of_toField (toField_fromU64Reduce v), Nat.mod_eq_of_lt h]

/-- Every operation, on all words and all elements. -/
theorem exact_all (v : UInt64) (x y : GFp) (k : UInt32) : Exact v x y k where
  words := fun z _ => z.mont_lt
  from_u64_reduce := toNat_eq_of_toField (toField_fromU64Reduce v)
  add := toNat_eq_of_toField (by rw [toField_add, Nat.cast_add, toField, toField])
  sub := toNat_eq_of_toField (by
    rw [toField_sub, Nat.cast_add, Nat.cast_sub y.toU64_lt.le, ZMod.natCast_self, zero_sub,
      ← sub_eq_add_neg, toField, toField])
  neg := toNat_eq_of_toField (by
    rw [toField_neg, Nat.cast_sub x.toU64_lt.le, ZMod.natCast_self, zero_sub, toField])
  half := by
    symm
    apply toNat_eq_of_toField
    rw [Nat.cast_mul, Nat.cast_ofNat]
    exact (two_mul_half x).symm
  double := toNat_eq_of_toField (by rw [toField_double, Nat.cast_mul, Nat.cast_ofNat, toField])
  mul := toNat_eq_of_toField (by rw [toField_mul, Nat.cast_mul, toField, toField])
  square := toNat_eq_of_toField (by rw [toField_square, Nat.cast_pow, toField])
  mul_small := toNat_eq_of_toField (by rw [toField_mulSmall, Nat.cast_mul, toField])
  invert := by
    intro hx
    have hne : x.toField ≠ 0 := mt toField_eq_zero.mp (mt toU64_eq_zero.mpr hx)
    have hone : (x * x.invert).toU64.toNat = 1 % modulus := toNat_eq_of_toField (by
      rw [toField_mul, toField_invert, mul_inv_cancel₀ hne, Nat.cast_one])
    rw [← toNat_eq_of_toField (x := x * x.invert) (by rw [toField_mul, Nat.cast_mul]; rfl), hone]
    decide
  invert_zero := by
    rw [toU64_eq_zero, toU64_eq_zero]
    rintro rfl
    exact toField_eq_zero.mp (by rw [toField_invert, toField_zero, inv_zero])
  legendre_zero := by
    rw [toU64_eq_zero, toU64_eq_zero]
    intro hx
    rw [legendre_eq, if_pos hx]
  legendre_square := by
    intro hx hsquare
    rw [legendre_eq, if_neg (mt toU64_eq_zero.mpr hx),
      if_pos ((isSquare_toField_iff x).mpr hsquare)]
    decide
  legendre_not_square := by
    intro hsquare
    have hne : x ≠ zero := by
      rintro rfl
      exact hsquare ⟨0, by decide⟩
    rw [legendre_eq, if_neg hne, if_neg (mt (isSquare_toField_iff x).mp hsquare)]
    decide
  equals := by
    have hiff : x.toU64 = y.toU64 ↔ x = y := ⟨toU64_injective, congrArg toU64⟩
    rw [equals_eq]
    simp only [hiff]
  iszero := by
    rw [iszero_eq]
    simp only [toU64_eq_zero]
  checked := by
    intro hv
    rw [fromU64Checked_eq, if_pos hv]
    exact ⟨rfl, toU64_fromU64Reduce_of_lt hv⟩
  rejected := by
    intro hv
    rw [fromU64Checked_eq, if_neg (not_lt.mpr hv)]

end GFp

end Digdigdig3.Lighter
