import Mathlib.Tactic
import Digdigdig3.Lighter.GoldilocksField

/-!
# `GFp5`: five elements of `GFp`

`GFp5` of `crates/digdigdig3/src/l3/open/crypto/dex/lighter/crypto/gfp5.rs`, the polynomials
`c0 + c1 * z + c2 * z^2 + c3 * z^3 + c4 * z^4` with `z^5 = 3`. A coefficient of a product is five
products of words whose halves are added up apart and reduced together.

* `accumulate_lt`: the sum of the halves is in the range of `montyred`.
* `toField_accumulate`: what is reduced is the weighted sum of the products.
-/

namespace Digdigdig3.Lighter

/-- `GFp5` (line 12). -/
structure GFp5 where
  c0 : GFp
  c1 : GFp
  c2 : GFp
  c3 : GFp
  c4 : GFp
  deriving DecidableEq

/-! ## Accumulation -/

/-- The high halves of the products, with their weights. -/
def highHalves (terms : List (ℕ × GFp × GFp)) : ℕ :=
  (terms.map fun t => t.1 * (t.2.1.mont * t.2.2.mont / 2 ^ 64)).sum

/-- The low halves of the products, with their weights. -/
def lowHalves (terms : List (ℕ × GFp × GFp)) : ℕ :=
  (terms.map fun t => t.1 * wrap (t.2.1.mont * t.2.2.mont)).sum

/-- The weights. -/
def weight (terms : List (ℕ × GFp × GFp)) : ℕ := (terms.map Prod.fst).sum

theorem highHalves_le (terms : List (ℕ × GFp × GFp)) :
    highHalves terms ≤ weight terms * 2 ^ 64 := by
  induction terms with
  | nil => simp [highHalves, weight]
  | cons t terms ih =>
    have hprod : t.2.1.mont * t.2.2.mont < 2 ^ 64 * 2 ^ 64 :=
      Nat.mul_lt_mul'' t.2.1.mont_lt_word t.2.2.mont_lt_word
    have hhigh : t.2.1.mont * t.2.2.mont / 2 ^ 64 ≤ 2 ^ 64 := (Nat.div_lt_of_lt_mul hprod).le
    have hterm := Nat.mul_le_mul_left t.1 hhigh
    simp only [highHalves, weight, List.map_cons, List.sum_cons, Nat.add_mul] at ih ⊢
    exact Nat.add_le_add hterm ih

theorem lowHalves_le (terms : List (ℕ × GFp × GFp)) :
    lowHalves terms ≤ weight terms * 2 ^ 64 := by
  induction terms with
  | nil => simp [lowHalves, weight]
  | cons t terms ih =>
    have hlow : wrap (t.2.1.mont * t.2.2.mont) ≤ 2 ^ 64 := (Nat.mod_lt _ (by norm_num)).le
    have hterm := Nat.mul_le_mul_left t.1 hlow
    simp only [lowHalves, weight, List.map_cons, List.sum_cons, Nat.add_mul] at ih ⊢
    exact Nat.add_le_add hterm ih

/-- `zlo + (zhi << 32) - zhi` is in range, and the shift does not leave 128 bits. -/
theorem accumulate_lt {terms : List (ℕ × GFp × GFp)} (h : weight terms ≤ 16) :
    lowHalves terms + highHalves terms * 2 ^ 32 < 2 ^ 128 ∧
      lowHalves terms + highHalves terms * 2 ^ 32 - highHalves terms < modulus * 2 ^ 64 := by
  have hlow := lowHalves_le terms
  have hhigh := highHalves_le terms
  have hweight := Nat.mul_le_mul_right (2 ^ 64) h
  unfold modulus
  omega

/-- The end of `mul_to_k0` and its siblings: the halves reduced together. -/
def accumulate (terms : List (ℕ × GFp × GFp)) (h : weight terms ≤ 16) : GFp where
  mont := montyred (lowHalves terms + highHalves terms * 2 ^ 32 - highHalves terms)
  mont_lt := montyred_lt (accumulate_lt h).2

theorem cast_halves (terms : List (ℕ × GFp × GFp)) :
    (lowHalves terms : ZMod modulus) + highHalves terms * 2 ^ 64 =
      (terms.map fun t => (t.1 : ZMod modulus) * (t.2.1.toField * t.2.2.toField)).sum *
        (2 ^ 64 * 2 ^ 64) := by
  induction terms with
  | nil => simp [lowHalves, highHalves]
  | cons t terms ih =>
    have hsplit := congrArg (Nat.cast : ℕ → ZMod modulus)
      (Nat.mod_add_div (t.2.1.mont * t.2.2.mont) (2 ^ 64))
    rw [Nat.cast_add, Nat.cast_mul, GFp.cast_two_pow_64, Nat.cast_mul,
      ← GFp.toField_mul_two_pow, ← GFp.toField_mul_two_pow] at hsplit
    simp only [lowHalves, highHalves, List.map_cons, List.sum_cons, Nat.cast_add, Nat.cast_mul,
      wrap] at ih ⊢
    linear_combination (t.1 : ZMod modulus) * hsplit + ih

/-- The weighted sum of the products. -/
theorem toField_accumulate (terms : List (ℕ × GFp × GFp)) (h : weight terms ≤ 16) :
    (accumulate terms h).toField =
      (terms.map fun t => (t.1 : ZMod modulus) * (t.2.1.toField * t.2.2.toField)).sum := by
  apply GFp.toField_eq_of_mont
  have hred := montyred_mul (accumulate_lt h).2
  have hle : highHalves terms ≤ lowHalves terms + highHalves terms * 2 ^ 32 :=
    (Nat.le_mul_of_pos_right _ (by norm_num)).trans (Nat.le_add_left _ _)
  have hhalves := cast_halves terms
  rw [← ZMod.natCast_eq_natCast_iff, Nat.cast_mul, GFp.cast_two_pow_64, Nat.cast_sub hle,
    Nat.cast_add, Nat.cast_mul, Nat.cast_pow, Nat.cast_ofNat] at hred
  apply mul_right_cancel₀ GFp.two_pow_64_ne_zero
  have hpow := GFp.two_pow_64_eq
  refine hred.trans ?_
  linear_combination hhalves - (highHalves terms : ZMod modulus) * hpow

namespace GFp5

/-- `from_u64_reduce` (lines 23–31). -/
def fromU64Reduce (x0 x1 x2 x3 x4 : UInt64) : GFp5 :=
  ⟨Lighter.fromU64Reduce x0, Lighter.fromU64Reduce x1, Lighter.fromU64Reduce x2,
    Lighter.fromU64Reduce x3, Lighter.fromU64Reduce x4⟩

/-- `ZERO` (line 16). -/
def zero : GFp5 := ⟨.zero, .zero, .zero, .zero, .zero⟩

/-- `ONE` (line 19). -/
def one : GFp5 := ⟨.one, .zero, .zero, .zero, .zero⟩

/-- `to_basefield_array` (lines 74–82): the five canonical limbs. -/
def toBasefieldArray (x : GFp5) : List UInt64 :=
  [x.c0.toU64, x.c1.toU64, x.c2.toU64, x.c3.toU64, x.c4.toU64]

/-! ## Coefficient by coefficient -/

/-- `set_add` (lines 87–91). -/
instance : Add GFp5 :=
  ⟨fun x y => ⟨x.c0 + y.c0, x.c1 + y.c1, x.c2 + y.c2, x.c3 + y.c3, x.c4 + y.c4⟩⟩

/-- `set_sub` (lines 94–98). -/
instance : Sub GFp5 :=
  ⟨fun x y => ⟨x.c0 - y.c0, x.c1 - y.c1, x.c2 - y.c2, x.c3 - y.c3, x.c4 - y.c4⟩⟩

/-- `set_neg` (lines 101–105). -/
instance : Neg GFp5 := ⟨fun x => ⟨-x.c0, -x.c1, -x.c2, -x.c3, -x.c4⟩⟩

/-- `double` (lines 483–491). -/
def double (x : GFp5) : GFp5 :=
  ⟨x.c0.double, x.c1.double, x.c2.double, x.c3.double, x.c4.double⟩

/-- `mul_small` (lines 108–116). -/
def mulSmall (x : GFp5) (rhs : UInt32) : GFp5 :=
  ⟨x.c0.mulSmall rhs, x.c1.mulSmall rhs, x.c2.mulSmall rhs, x.c3.mulSmall rhs, x.c4.mulSmall rhs⟩

/-- `mul_k0` (lines 119–127). -/
def mulK0 (x : GFp5) (rhs : GFp) : GFp5 :=
  ⟨x.c0 * rhs, x.c1 * rhs, x.c2 * rhs, x.c3 * rhs, x.c4 * rhs⟩

/-- `mul_small_k1` (lines 131–139): by `rhs * z`. -/
def mulSmallK1 (x : GFp5) (rhs : UInt32) : GFp5 :=
  ⟨x.c4.mulSmall (rhs * 3), x.c0.mulSmall rhs, x.c1.mulSmall rhs, x.c2.mulSmall rhs,
    x.c3.mulSmall rhs⟩

/-! ## Products -/

/-- `mul_to_k0` (lines 146–161). -/
def mulToK0 (x y : GFp5) : GFp :=
  accumulate [(1, x.c0, y.c0), (3, x.c1, y.c4), (3, x.c2, y.c3), (3, x.c3, y.c2), (3, x.c4, y.c1)]
    (by simp [weight])

/-- `mul_to_k1` (lines 164–176). -/
def mulToK1 (x y : GFp5) : GFp :=
  accumulate [(1, x.c0, y.c1), (1, x.c1, y.c0), (3, x.c2, y.c4), (3, x.c3, y.c3), (3, x.c4, y.c2)]
    (by simp [weight])

/-- `mul_to_k2` (lines 179–195). -/
def mulToK2 (x y : GFp5) : GFp :=
  accumulate [(1, x.c0, y.c2), (1, x.c1, y.c1), (1, x.c2, y.c0), (3, x.c3, y.c4), (3, x.c4, y.c3)]
    (by simp [weight])

/-- `mul_to_k3` (lines 198–212). -/
def mulToK3 (x y : GFp5) : GFp :=
  accumulate [(1, x.c0, y.c3), (1, x.c1, y.c2), (1, x.c2, y.c1), (1, x.c3, y.c0), (3, x.c4, y.c4)]
    (by simp [weight])

/-- `mul_to_k4` (lines 215–229). -/
def mulToK4 (x y : GFp5) : GFp :=
  accumulate [(1, x.c0, y.c4), (1, x.c1, y.c3), (1, x.c2, y.c2), (1, x.c3, y.c1), (1, x.c4, y.c0)]
    (by simp [weight])

/-- `set_mul` (lines 232–243). -/
instance : Mul GFp5 :=
  ⟨fun x y => ⟨mulToK0 x y, mulToK1 x y, mulToK2 x y, mulToK3 x y, mulToK4 x y⟩⟩

/-- `square_to_k0` (lines 253–260). -/
def squareToK0 (x : GFp5) : GFp :=
  accumulate [(1, x.c0, x.c0), (6, x.c1, x.c4), (6, x.c2, x.c3)] (by simp [weight])

/-- `square_to_k1` (lines 263–271). -/
def squareToK1 (x : GFp5) : GFp :=
  accumulate [(2, x.c0, x.c1), (6, x.c2, x.c4), (3, x.c3, x.c3)] (by simp [weight])

/-- `square_to_k2` (lines 274–281). -/
def squareToK2 (x : GFp5) : GFp :=
  accumulate [(2, x.c0, x.c2), (1, x.c1, x.c1), (6, x.c3, x.c4)] (by simp [weight])

/-- `square_to_k3` (lines 284–292). -/
def squareToK3 (x : GFp5) : GFp :=
  accumulate [(2, x.c0, x.c3), (2, x.c1, x.c2), (3, x.c4, x.c4)] (by simp [weight])

/-- `square_to_k4` (lines 295–302). -/
def squareToK4 (x : GFp5) : GFp :=
  accumulate [(2, x.c0, x.c4), (2, x.c1, x.c3), (1, x.c2, x.c2)] (by simp [weight])

/-- `square` (lines 305–313). -/
def square (x : GFp5) : GFp5 :=
  ⟨squareToK0 x, squareToK1 x, squareToK2 x, squareToK3 x, squareToK4 x⟩

/-! ## Frobenius and inversion -/

/-- `set_frob1` (lines 327–332): the power `p`. -/
def frob1 (x : GFp5) : GFp5 :=
  ⟨x.c0, x.c1 * Lighter.fromU64Reduce 1041288259238279555,
    x.c2 * Lighter.fromU64Reduce 15820824984080659046,
    x.c3 * Lighter.fromU64Reduce 211587555138949697,
    x.c4 * Lighter.fromU64Reduce 1373043270956696022⟩

/-- `set_frob2` (lines 334–339): the power `p^2`. -/
def frob2 (x : GFp5) : GFp5 :=
  ⟨x.c0, x.c1 * Lighter.fromU64Reduce 15820824984080659046,
    x.c2 * Lighter.fromU64Reduce 1373043270956696022,
    x.c3 * Lighter.fromU64Reduce 1041288259238279555,
    x.c4 * Lighter.fromU64Reduce 211587555138949697⟩

/-- `x^(p + p^2 + p^3 + p^4)` (lines 351–358). -/
def conjugates (x : GFp5) : GFp5 :=
  let first := x.frob1
  let two := first * first.frob1
  two.frob2 * two

/-- `invert` (lines 343–362). -/
def invert (x : GFp5) : GFp5 :=
  x.conjugates.mulK0 (mulToK0 x.conjugates x).invert

/-! ## Masks -/

/-- `iszero` (lines 432–435). -/
def iszero (x : GFp5) : ℕ :=
  (isZeroMask (BitVec.ofNat 64
    (x.c0.mont ||| x.c1.mont ||| x.c2.mont ||| x.c3.mont ||| x.c4.mont))).toNat

/-- `select` (lines 450–458). -/
def select (c : ℕ) (x0 x1 : GFp5) : GFp5 :=
  ⟨.select c x0.c0 x1.c0, .select c x0.c1 x1.c1, .select c x0.c2 x1.c2, .select c x0.c3 x1.c3,
    .select c x0.c4 x1.c4⟩

/-- `set_partial_lookup` (lines 463–469). -/
def partialLookup (x y : GFp5) (c : ℕ) : GFp5 :=
  ⟨x.c0.partialLookup y.c0 c, x.c1.partialLookup y.c1 c, x.c2.partialLookup y.c2 c,
    x.c3.partialLookup y.c3 c, x.c4.partialLookup y.c4 c⟩

theorem select_zero (x0 x1 : GFp5) : select 0 x0 x1 = x0 := by
  simp only [select, GFp.select_zero]

theorem select_ones (x0 x1 : GFp5) : select (2 ^ 64 - 1) x0 x1 = x1 := by
  simp only [select, GFp.select_ones]

theorem partialLookup_zero (x y : GFp5) : partialLookup x y 0 = x := by
  simp only [partialLookup, GFp.partialLookup_zero]

theorem partialLookup_ones (y : GFp5) : partialLookup zero y (2 ^ 64 - 1) = y := by
  simp only [partialLookup, zero, GFp.partialLookup_ones]

theorem iszero_zero : zero.iszero = 2 ^ 64 - 1 := by decide

theorem iszero_of_ne {x : GFp5} (h : x ≠ zero) : x.iszero = 0 := by
  have hwords : x.c0.mont ||| x.c1.mont ||| x.c2.mont ||| x.c3.mont ||| x.c4.mont < 2 ^ 64 :=
    Nat.or_lt_two_pow (Nat.or_lt_two_pow (Nat.or_lt_two_pow (Nat.or_lt_two_pow x.c0.mont_lt_word
      x.c1.mont_lt_word) x.c2.mont_lt_word) x.c3.mont_lt_word) x.c4.mont_lt_word
  have hor : x.c0.mont ||| x.c1.mont ||| x.c2.mont ||| x.c3.mont ||| x.c4.mont ≠ 0 := by
    intro hzero
    apply h
    simp only [Nat.or_eq_zero_iff] at hzero
    obtain ⟨⟨⟨⟨h0, h1⟩, h2⟩, h3⟩, h4⟩ := hzero
    cases x
    simp only [zero, GFp5.mk.injEq]
    have hword : ∀ y : GFp, y.mont = 0 → y = .zero := fun y hy =>
      GFp.mont_injective (hy.trans GFp.zero_mont.symm)
    exact ⟨hword _ h0, hword _ h1, hword _ h2, hword _ h3, hword _ h4⟩
  have hbits : BitVec.ofNat 64 (x.c0.mont ||| x.c1.mont ||| x.c2.mont ||| x.c3.mont |||
      x.c4.mont) ≠ 0 := by
    intro hzero
    have hnat := congrArg BitVec.toNat hzero
    rw [BitVec.toNat_ofNat, Nat.mod_eq_of_lt hwords] at hnat
    exact hor hnat
  rw [iszero, isZeroMask_eq, if_neg hbits]
  rfl

end GFp5

end Digdigdig3.Lighter
