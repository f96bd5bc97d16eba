import Digdigdig3.Lighter.GoldilocksRoots
import Digdigdig3.Lighter.QuinticField

/-!
# Exact arithmetic, the Legendre symbol and square roots of `GFp5`

The rest of `crates/digdigdig3/src/l3/open/crypto/dex/lighter/crypto/gfp5.rs`.

* `quintic_exact`: the arithmetic is that of polynomials modulo `z^5 - 3`, and none of the sums of
  products leaves its range.
* `legendre_of_isSquare`, `legendre_of_not_isSquare`: the Legendre symbol, over the norm.
* `sqrt_of_isSquare`, `sqrt_of_not_isSquare`: the square root, over that of the norm.
-/

namespace Digdigdig3.Lighter

namespace GFp5

open Quintic

/-! ## Ranges -/

/-- The products and weights of `mul_to_k0`, …, `mul_to_k4` and `square_to_k0`, …, `square_to_k4`
    (lines 146–229 and 253–302). -/
def formulas (x y : GFp5) : List (List (ℕ × GFp × GFp)) :=
  [[(1, x.c0, y.c0), (3, x.c1, y.c4), (3, x.c2, y.c3), (3, x.c3, y.c2), (3, x.c4, y.c1)],
    [(1, x.c0, y.c1), (1, x.c1, y.c0), (3, x.c2, y.c4), (3, x.c3, y.c3), (3, x.c4, y.c2)],
    [(1, x.c0, y.c2), (1, x.c1, y.c1), (1, x.c2, y.c0), (3, x.c3, y.c4), (3, x.c4, y.c3)],
    [(1, x.c0, y.c3), (1, x.c1, y.c2), (1, x.c2, y.c1), (1, x.c3, y.c0), (3, x.c4, y.c4)],
    [(1, x.c0, y.c4), (1, x.c1, y.c3), (1, x.c2, y.c2), (1, x.c3, y.c1), (1, x.c4, y.c0)],
    [(1, x.c0, x.c0), (6, x.c1, x.c4), (6, x.c2, x.c3)],
    [(2, x.c0, x.c1), (6, x.c2, x.c4), (3, x.c3, x.c3)],
    [(2, x.c0, x.c2), (1, x.c1, x.c1), (6, x.c3, x.c4)],
    [(2, x.c0, x.c3), (2, x.c1, x.c2), (3, x.c4, x.c4)],
    [(2, x.c0, x.c4), (2, x.c1, x.c3), (1, x.c2, x.c2)]]

/-- `zlo + (zhi << 32) - zhi` of a formula. -/
def accumulated (terms : List (ℕ × GFp × GFp)) : ℕ :=
  lowHalves terms + highHalves terms * 2 ^ 32 - highHalves terms

/-- The coefficients are what `montyred` makes of the formulas. -/
theorem map_formulas (x y : GFp5) :
    (formulas x y).map (fun terms => montyred (accumulated terms)) =
      [(x * y).c0, (x * y).c1, (x * y).c2, (x * y).c3, (x * y).c4, x.square.c0, x.square.c1,
        x.square.c2, x.square.c3, x.square.c4].map GFp.mont := rfl

/-- No step of a formula leaves 128 bits in either direction, and `montyred` takes what comes
    out. -/
structure InRange (terms : List (ℕ × GFp × GFp)) : Prop where
  product : ∀ t ∈ terms, t.2.1.mont * t.2.2.mont < 2 ^ 128
  low : lowHalves terms < 2 ^ 128
  shifted : highHalves terms * 2 ^ 32 < 2 ^ 128
  sum : lowHalves terms + highHalves terms * 2 ^ 32 < 2 ^ 128
  difference : highHalves terms ≤ lowHalves terms + highHalves terms * 2 ^ 32
  accepted : accumulated terms < modulus * 2 ^ 64

theorem inRange_of_weight {terms : List (ℕ × GFp × GFp)} (h : weight terms ≤ 16) :
    InRange terms := by
  obtain ⟨hsum, haccepted⟩ := accumulate_lt h
  refine ⟨fun t _ => ?_, by omega, by omega, hsum, by omega, haccepted⟩
  have hprod := Nat.mul_lt_mul'' t.2.1.mont_lt_word t.2.2.mont_lt_word
  exact hprod.trans_eq (by norm_num)

/-- At most thirteen products come together. -/
theorem weight_formulas (x y : GFp5) : ∀ terms ∈ formulas x y, weight terms ≤ 16 := by
  simp [formulas, weight]

/-! ## All of the arithmetic -/

/-- The arithmetic is that of polynomials modulo `z^5 - 3`. The factor of `mul_small_k1` is one
    whose triple is an integer of 32 bits. -/
structure Exact (x y : GFp5) : Prop where
  mul : (x * y).toQuintic = x.toQuintic * y.toQuintic
  inRange : ∀ terms ∈ formulas x y, InRange terms
  square : x.square = x * x
  mul_small_k1 : ∀ v : UInt32, v.toNat * 3 < 2 ^ 32 →
    (x.mulSmallK1 v).toQuintic = x.toQuintic * (base v.toNat * z)
  frob1 : x.frob1.toQuintic = x.toQuintic ^ modulus
  frob2 : x.frob2.toQuintic = x.toQuintic ^ modulus ^ 2
  invert : x ≠ zero → x * x.invert = one
  invert_zero : zero.invert = zero

theorem toQuintic_eq_zero {x : GFp5} : x.toQuintic = 0 ↔ x = zero :=
  ⟨fun h => toQuintic_injective (h.trans toQuintic_zero.symm), fun h => h ▸ toQuintic_zero⟩

theorem square_eq (x : GFp5) : x.square = x * x :=
  toQuintic_injective (by rw [toQuintic_square, toQuintic_mul, sq])

/-- For all elements, whose limbs are words below `p`. -/
theorem quintic_exact (x y : GFp5) : Exact x y where
  mul := toQuintic_mul x y
  inRange := fun terms h => inRange_of_weight (weight_formulas x y terms h)
  square := square_eq x
  mul_small_k1 := fun _ h => toQuintic_mulSmallK1 x h
  frob1 := toQuintic_frob1 x
  frob2 := by
    rw [toQuintic_frob2, frobenius_def, frobenius_def, ← pow_mul, ← sq]
  invert := by
    intro hx
    apply toQuintic_injective
    rw [toQuintic_mul, toQuintic_invert, mul_inv_cancel₀ (mt toQuintic_eq_zero.mp hx),
      toQuintic_one]
  invert_zero := by
    rw [← toQuintic_eq_zero, toQuintic_invert, toQuintic_zero, inv_zero]

/-! ## Halves and comparisons -/

/-- `half` (lines 472–480). -/
def half (x : GFp5) : GFp5 := ⟨x.c0.half, x.c1.half, x.c2.half, x.c3.half, x.c4.half⟩

theorem two_mul_half (x : GFp5) : 2 * x.half.toQuintic = x.toQuintic := by
  have hbase : ∀ c : GFp, 2 * base c.half.toField = base c.toField := by
    intro c
    rw [← c.two_mul_half, map_mul, map_ofNat base 2]
  simp only [toQuintic_eq, half]
  linear_combination hbase x.c0 + hbase x.c1 * z + hbase x.c2 * z ^ 2 + hbase x.c3 * z ^ 3 +
    hbase x.c4 * z ^ 4

/-- `equals` (lines 439–446). -/
def equals (x rhs : GFp5) : ℕ :=
  (isZeroMask (BitVec.ofNat 64 ((x.c0.mont ^^^ rhs.c0.mont) ||| (x.c1.mont ^^^ rhs.c1.mont) |||
    (x.c2.mont ^^^ rhs.c2.mont) ||| (x.c3.mont ^^^ rhs.c3.mont) |||
    (x.c4.mont ^^^ rhs.c4.mont)))).toNat

theorem equals_eq (x y : GFp5) : x.equals y = if x = y then 2 ^ 64 - 1 else 0 := by
  have hlt : ∀ a b : GFp, a.mont ^^^ b.mont < 2 ^ 64 := fun a b =>
    Nat.xor_lt_two_pow a.mont_lt_word b.mont_lt_word
  rw [equals, GFp.toNat_isZeroMask (Nat.or_lt_two_pow (Nat.or_lt_two_pow (Nat.or_lt_two_pow
    (Nat.or_lt_two_pow (hlt _ _) (hlt _ _)) (hlt _ _)) (hlt _ _)) (hlt _ _))]
  have hiff : (x.c0 = y.c0 ∧ x.c1 = y.c1) ∧ x.c2 = y.c2 ∧ x.c3 = y.c3 ∧ x.c4 = y.c4 ↔ x = y := by
    cases x
    cases y
    simp only [GFp5.mk.injEq, and_assoc]
  simp only [Nat.or_eq_zero_iff, GFp.mont_xor_eq_zero, ← hiff, and_assoc]

theorem iszero_eq (x : GFp5) : x.iszero = if x = zero then 2 ^ 64 - 1 else 0 := by
  split_ifs with h
  · rw [h, iszero_zero]
  · exact iszero_of_ne h

/-! ## Squares -/

/-- `msquare` (lines 316–322). -/
def msquare (x : GFp5) : ℕ → GFp5
  | 0 => x
  | n + 1 => (msquare x n).square

@[simp] theorem toQuintic_msquare (x : GFp5) (n : ℕ) :
    (x.msquare n).toQuintic = x.toQuintic ^ 2 ^ n := by
  induction n with
  | zero => rw [msquare, pow_zero, pow_one]
  | succ n ih => rw [msquare, toQuintic_square, ih, ← pow_mul, pow_succ (2 : ℕ) n]

theorem toQuintic_surjective : Function.Surjective toQuintic := by
  intro k
  obtain ⟨a, rfl⟩ := of_surjective k
  have hlift : ∀ c : ZMod modulus,
      (Lighter.fromU64Reduce (UInt64.ofNat c.val)).toField = c := by
    intro c
    have hlt : c.val < 2 ^ 64 := (ZMod.val_lt c).trans (by decide)
    rw [GFp.toField_fromU64Reduce, UInt64.toNat_ofNat_of_lt' hlt, ZMod.natCast_zmod_val]
  refine ⟨⟨Lighter.fromU64Reduce (UInt64.ofNat (a 0).val),
    Lighter.fromU64Reduce (UInt64.ofNat (a 1).val), Lighter.fromU64Reduce (UInt64.ofNat (a 2).val),
    Lighter.fromU64Reduce (UInt64.ofNat (a 3).val),
    Lighter.fromU64Reduce (UInt64.ofNat (a 4).val)⟩, ?_⟩
  rw [toQuintic]
  simp only [hlift]
  congr 1
  funext i
  fin_cases i <;> rfl

/-- The squares of the field are those of the elements. -/
theorem isSquare_toQuintic_iff (x : GFp5) : IsSquare x.toQuintic ↔ ∃ r : GFp5, r * r = x := by
  constructor
  · rintro ⟨k, hk⟩
    obtain ⟨r, rfl⟩ := toQuintic_surjective k
    exact ⟨r, toQuintic_injective (by rw [toQuintic_mul, hk])⟩
  · rintro ⟨r, rfl⟩
    exact ⟨r.toQuintic, toQuintic_mul r r⟩

/-- `x` by an element that makes its norm, as `mul_to_k0` computes it. -/
theorem norm_eq_of_mul {x y : GFp5} (h : x.toQuintic * y.toQuintic = Quintic.norm x.toQuintic) :
    Quintic.norm x.toQuintic = base (mulToK0 x y).toField := by
  obtain ⟨c, hc⟩ := exists_norm_eq x.toQuintic
  have hmul : (x * y).toQuintic = base c := by rw [toQuintic_mul, h, hc]
  rw [base_eq, toQuintic] at hmul
  have hfirst : (mulToK0 x y).toField = c := congrFun (of_injective hmul) 0
  rw [hc, hfirst]

/-- `x^((p + 1) / 2)` in `set_sqrt` (lines 397–413). -/
def halfPower (x : GFp5) : GFp5 :=
  let t2 := x * x.square
  let t4 := t2 * t2.msquare 2
  let t8 := t4 * t4.msquare 4
  let t16 := t8 * t8.msquare 8
  let t32 := t16 * t16.msquare 16
  t32.msquare 31 * x

/-- `x^((r - 1) / 2)` in `set_sqrt` (lines 414–417). -/
def sqrtPower (x : GFp5) : GFp5 := (x.halfPower * x.halfPower.frob2).frob1

/-- `sqrt` and `set_sqrt` (lines 386–428). -/
def sqrt (x : GFp5) : GFp5 × ℕ :=
  let tmp := x.sqrtPower
  let y := tmp.square
  let a := mulToK0 x y
  let s := a.sqrt
  (tmp.invert.mulK0 s.1, s.2)

theorem toQuintic_halfPower (x : GFp5) :
    x.halfPower.toQuintic ^ 2 = x.toQuintic * frobenius Quintic modulus x.toQuintic := by
  have hexp : ((2 ^ 32 - 1) * 2 ^ 31 + 1) * 2 = modulus + 1 := by decide
  have hhalf : x.halfPower.toQuintic = x.toQuintic ^ ((2 ^ 32 - 1) * 2 ^ 31 + 1) := by
    simp only [halfPower, toQuintic_mul, toQuintic_msquare, toQuintic_square]
    generalize x.toQuintic = k
    ring
  rw [hhalf, ← pow_mul, hexp, frobenius_def, pow_succ' x.toQuintic modulus]

/-- Its square by `x` is the norm. -/
theorem toQuintic_sqrtPower (x : GFp5) :
    x.toQuintic * x.sqrtPower.toQuintic ^ 2 = Quintic.norm x.toQuintic := by
  have hpow := toQuintic_halfPower x
  have hfrob := congrArg (fun k => frobenius Quintic modulus (frobenius Quintic modulus k)) hpow
  simp only [map_mul, map_pow] at hfrob
  simp only [sqrtPower, toQuintic_frob1, toQuintic_frob2, toQuintic_mul, Quintic.norm, ← map_pow,
    mul_pow, hpow, hfrob]
  simp only [map_mul]
  ring

theorem norm_eq_zero {k : Quintic} : Quintic.norm k = 0 ↔ k = 0 := by
  constructor
  · intro h
    simp only [Quintic.norm, mul_eq_zero, map_eq_zero] at h
    tauto
  · rintro rfl
    rw [Quintic.norm, zero_mul, zero_mul, zero_mul, zero_mul]

/-- The norm as an element: what both `legendre` and `set_sqrt` look at. -/
theorem norm_sqrtPower (x : GFp5) :
    Quintic.norm x.toQuintic = base (mulToK0 x x.sqrtPower.square).toField :=
  norm_eq_of_mul (by rw [toQuintic_square, toQuintic_sqrtPower])

theorem sqrtPower_ne_zero {x : GFp5} (hx : x ≠ zero) : x.sqrtPower.toQuintic ≠ 0 := by
  intro hzero
  have hnorm := toQuintic_sqrtPower x
  rw [hzero, zero_pow two_ne_zero, mul_zero] at hnorm
  exact hx (toQuintic_eq_zero.mp (norm_eq_zero.mp hnorm.symm))

/-- A root of the norm, divided by the power, is a root of the element. -/
theorem root_of_norm (x : GFp5) {s : ZMod modulus}
    (h : Quintic.norm x.toQuintic = base (s ^ 2)) :
    ((x.sqrtPower.toQuintic)⁻¹ * base s) ^ 2 = x.toQuintic := by
  by_cases hx : x = zero
  · have hs : s = 0 := by
      have hpow : base (s ^ 2) = 0 := by rw [← h, hx, toQuintic_zero, norm_eq_zero]
      exact pow_eq_zero_iff two_ne_zero |>.mp ((map_eq_zero base).mp hpow)
    rw [hs, map_zero, mul_zero, zero_pow two_ne_zero, hx, toQuintic_zero]
  · have hne := sqrtPower_ne_zero hx
    rw [mul_pow, ← map_pow, ← h, ← toQuintic_sqrtPower]
    field_simp

/-- An element is a square just when its norm is. -/
theorem isSquare_iff_norm (x : GFp5) {c : ZMod modulus} (h : Quintic.norm x.toQuintic = base c) :
    IsSquare x.toQuintic ↔ IsSquare c := by
  constructor
  · intro hx
    exact isSquare_of_norm hx h
  · rintro ⟨s, rfl⟩
    rw [← sq] at h
    exact ⟨_, (root_of_norm x h).symm.trans (sq _)⟩

/-- A square has its root and the full mask. -/
theorem sqrt_of_isSquare {x : GFp5} (h : IsSquare x.toQuintic) :
    x.sqrt.2 = 2 ^ 64 - 1 ∧ x.sqrt.1.toQuintic ^ 2 = x.toQuintic := by
  have hnorm := norm_sqrtPower x
  obtain ⟨hmask, hroot⟩ := GFp.sqrt_of_isSquare ((isSquare_iff_norm x hnorm).mp h)
  refine ⟨hmask, ?_⟩
  show (x.sqrtPower.invert.mulK0 (mulToK0 x x.sqrtPower.square).sqrt.1).toQuintic ^ 2 = _
  rw [toQuintic_mulK0, toQuintic_invert]
  apply root_of_norm
  rw [hroot, hnorm]

/-- Any other element has zero and no mask. -/
theorem sqrt_of_not_isSquare {x : GFp5} (h : ¬IsSquare x.toQuintic) : x.sqrt = (zero, 0) := by
  have hnorm := norm_sqrtPower x
  have hsqrt := GFp.sqrt_of_not_isSquare (mt (isSquare_iff_norm x hnorm).mpr h)
  have hzero : (x.sqrtPower.invert.mulK0 .zero).toQuintic = 0 := by
    rw [toQuintic_mulK0, GFp.toField_zero, map_zero, mul_zero]
  refine Prod.ext ?_ ?_
  · show x.sqrtPower.invert.mulK0 (mulToK0 x x.sqrtPower.square).sqrt.1 = zero
    rw [hsqrt]
    exact toQuintic_eq_zero.mp hzero
  · show (mulToK0 x x.sqrtPower.square).sqrt.2 = 0
    rw [hsqrt]

/-! ## The Legendre symbol -/

/-- `legendre` (lines 372–385). -/
def legendre (x : GFp5) : GFp :=
  let t0 := x.frob1
  let t1 := t0 * t0.frob1
  (mulToK0 x (t1 * t1.frob2)).legendre

/-- It is the symbol of an element that is the norm. -/
theorem exists_legendre (x : GFp5) :
    ∃ c : GFp, x.legendre = c.legendre ∧ (c = .zero ↔ x = zero) ∧
      (IsSquare x.toQuintic ↔ IsSquare c.toField) := by
  have hnorm : Quintic.norm x.toQuintic =
      base (mulToK0 x (x.frob1 * x.frob1.frob1 * (x.frob1 * x.frob1.frob1).frob2)).toField := by
    apply norm_eq_of_mul
    simp only [toQuintic_mul, toQuintic_frob1, toQuintic_frob2, map_mul, Quintic.norm]
    ring
  refine ⟨_, rfl, ?_, isSquare_iff_norm x hnorm⟩
  rw [← GFp.toField_eq_zero, ← toQuintic_eq_zero, ← norm_eq_zero, hnorm, map_eq_zero]

theorem legendre_zero : zero.legendre = .zero := by
  obtain ⟨c, hc, hzero, -⟩ := exists_legendre zero
  rw [hc, GFp.legendre_eq, if_pos (hzero.mpr rfl)]

theorem legendre_of_isSquare {x : GFp5} (hx : x ≠ zero) (h : IsSquare x.toQuintic) :
    x.legendre = .one := by
  obtain ⟨c, hc, hzero, hsquare⟩ := exists_legendre x
  rw [hc, GFp.legendre_eq, if_neg (mt hzero.mp hx), if_pos (hsquare.mp h)]

theorem legendre_of_not_isSquare {x : GFp5} (h : ¬IsSquare x.toQuintic) :
    x.legendre = .minusOne := by
  obtain ⟨c, hc, hzero, hsquare⟩ := exists_legendre x
  have hx : x ≠ zero := by
    rintro rfl
    rw [toQuintic_zero] at h
    exact h IsSquare.zero
  rw [hc, GFp.legendre_eq, if_neg (mt hzero.mp hx), if_neg (mt hsquare.mpr h)]

end GFp5

end Digdigdig3.Lighter
