import Mathlib.Tactic
import Mathlib.FieldTheory.KummerExtension
import Mathlib.RingTheory.AdjoinRoot
import Mathlib.NumberTheory.LegendreSymbol.QuadraticChar.Basic
import Digdigdig3.Lib.DoubleOdd
import Digdigdig3.Lighter.GFp5

/-!
# `GFp5` is the field of `p^5` elements

The field that the operations of `Lighter/GFp5.lean` compute in: polynomials over `ZMod p` modulo
`X^5 - 3`.

* `toQuintic_mul`, `toQuintic_invert`: each operation is that of the field.
* `norm_eq`: the product of the five conjugates of an element lies in `ZMod p`.
* `suitable`: `263 * z` and `1 - 263 * z` are no squares, so the curve is double-odd.
-/

namespace Digdigdig3.Lighter

open Polynomial

/-- `GF(p^5)`. -/
abbrev Quintic := AdjoinRoot (X ^ 5 - C 3 : (ZMod modulus)[X])

/-- A fifth root of unity (line 324). -/
@[irreducible] def dthRoot : ZMod modulus := ((1041288259238279555 : ℕ) : ZMod modulus)

theorem three_pow_fifth : (3 : ZMod modulus) ^ ((modulus - 1) / 5) = dthRoot := by
  unfold dthRoot modulus
  norm_num1
  reduce_mod_char

theorem dthRoot_pow (i : ℕ) :
    dthRoot ^ i = ((1041288259238279555 ^ i : ℕ) : ZMod modulus) := by
  rw [dthRoot, Nat.cast_pow]

theorem dthRoot_pow_eq {i n : ℕ} (h : 1041288259238279555 ^ i ≡ n [MOD modulus]) :
    dthRoot ^ i = (n : ZMod modulus) := by
  rw [dthRoot_pow]
  exact (ZMod.natCast_eq_natCast_iff _ _ _).mpr h

theorem dthRoot_pow_five : dthRoot ^ 5 = 1 := by
  rw [dthRoot_pow_eq (n := 1) (by decide), Nat.cast_one]

theorem dthRoot_pow_ne_one (i : Fin 5) (hi : i ≠ 0) : dthRoot ^ (i : ℕ) ≠ 1 := by
  have hmod : ∀ i : Fin 5, i ≠ 0 → ¬1041288259238279555 ^ (i : ℕ) ≡ 1 [MOD modulus] := by decide
  rw [dthRoot_pow, ← Nat.cast_one, Ne, ZMod.natCast_eq_natCast_iff]
  exact hmod i hi

/-- Three is no fifth power. -/
theorem irreducible_quintic : Irreducible (X ^ 5 - C 3 : (ZMod modulus)[X]) := by
  apply X_pow_sub_C_irreducible_of_prime (by norm_num)
  intro a ha
  have hne : a ≠ 0 := by
    rintro rfl
    rw [zero_pow (by norm_num)] at ha
    exact absurd ha (by unfold modulus; decide)
  have hone : (3 : ZMod modulus) ^ ((modulus - 1) / 5) = 1 := by
    rw [← ha, ← pow_mul]
    exact ZMod.pow_card_sub_one_eq_one hne
  rw [three_pow_fifth, ← pow_one dthRoot] at hone
  exact dthRoot_pow_ne_one 1 (by decide) hone

instance fact_irreducible_quintic : Fact (Irreducible (X ^ 5 - C 3 : (ZMod modulus)[X])) :=
  ⟨irreducible_quintic⟩

namespace Quintic

/-- The element with these coefficients. -/
noncomputable def of (a : Fin 5 → ZMod modulus) : Quintic :=
  ∑ i, AdjoinRoot.of _ (a i) * AdjoinRoot.root _ ^ (i : ℕ)

/-- `z`. -/
noncomputable abbrev z : Quintic := AdjoinRoot.root _

/-- An element of `ZMod p`. -/
noncomputable abbrev base : ZMod modulus →+* Quintic := AdjoinRoot.of _

theorem z_pow_five : z ^ 5 = base 3 := by
  have h := AdjoinRoot.eval₂_root (X ^ 5 - C 3 : (ZMod modulus)[X])
  rw [eval₂_sub, eval₂_pow, eval₂_X, eval₂_C] at h
  exact sub_eq_zero.mp h

theorem natDegree_quintic : (X ^ 5 - C 3 : (ZMod modulus)[X]).natDegree = 5 :=
  natDegree_X_pow_sub_C

theorem of_eq_mk (a : Fin 5 → ZMod modulus) :
    of a = AdjoinRoot.mk _ (∑ i, C (a i) * X ^ (i : ℕ)) := by
  rw [of, map_sum]
  apply Finset.sum_congr rfl
  intro i _
  rw [map_mul, map_pow, AdjoinRoot.mk_C, AdjoinRoot.mk_X]

theorem of_surjective : Function.Surjective of := by
  intro k
  obtain ⟨g, rfl⟩ := AdjoinRoot.mk_surjective k
  have hmonic : (X ^ 5 - C 3 : (ZMod modulus)[X]).Monic := monic_X_pow_sub_C 3 (by norm_num)
  have hdegree : (g %ₘ (X ^ 5 - C 3)).natDegree < 5 := by
    have h := natDegree_modByMonic_lt g hmonic (by
      intro hone
      have := natDegree_quintic
      rw [hone, natDegree_one] at this
      omega)
    rwa [natDegree_quintic] at h
  refine ⟨fun i => (g %ₘ (X ^ 5 - C 3)).coeff i, ?_⟩
  have hsum := as_sum_range_C_mul_X_pow' _ hdegree
  rw [of_eq_mk, Fin.sum_univ_eq_sum_range
    (fun i => C ((g %ₘ (X ^ 5 - C 3)).coeff i) * X ^ i) 5, ← hsum]
  exact AdjoinRoot.mk_leftInverse hmonic (AdjoinRoot.mk _ g)

theorem of_injective : Function.Injective of := by
  intro a b h
  rw [of_eq_mk, of_eq_mk, ← sub_eq_zero, ← map_sub, ← Finset.sum_sub_distrib,
    AdjoinRoot.mk_eq_zero] at h
  simp only [← sub_mul, ← C_sub] at h
  have hdegree : degree (∑ i : Fin 5, C (a i - b i) * X ^ (i : ℕ)) <
      degree (X ^ 5 - C 3 : (ZMod modulus)[X]) := by
    rw [degree_X_pow_sub_C (by norm_num)]
    exact degree_sum_fin_lt fun i => a i - b i
  have hzero := eq_zero_of_dvd_of_degree_lt h hdegree
  funext i
  have hcoeff := congrArg (coeff · (i : ℕ)) hzero
  simp only [finsetSum_coeff, coeff_C_mul_X_pow, coeff_zero, Fin.val_inj, Finset.sum_ite_eq,
    Finset.mem_univ, if_true] at hcoeff
  exact sub_eq_zero.mp hcoeff

theorem base_eq (c : ZMod modulus) : base c = of ![c, 0, 0, 0, 0] := by
  simp [of, Fin.sum_univ_five]

/-! ## Frobenius -/

instance : CharP Quintic modulus :=
  charP_of_injective_algebraMap (algebraMap (ZMod modulus) Quintic).injective _

instance : ExpChar Quintic modulus := ExpChar.prime prime_modulus

theorem base_pow_modulus (c : ZMod modulus) : base c ^ modulus = base c := by
  rw [← map_pow, ZMod.pow_card]

theorem z_pow_modulus : z ^ modulus = base dthRoot * z := by
  calc z ^ modulus = z ^ (5 * ((modulus - 1) / 5) + 1) :=
        congrArg (fun e : ℕ => z ^ e) (by decide)
    _ = base dthRoot * z := by
        rw [pow_succ, pow_mul, z_pow_five, ← map_pow, three_pow_fifth]

/-- The power `p` multiplies the coefficients by a fifth root of unity. -/
theorem of_pow_modulus (a : Fin 5 → ZMod modulus) :
    of a ^ modulus = of fun i => a i * dthRoot ^ (i : ℕ) := by
  rw [of, sum_pow_char]
  apply Finset.sum_congr rfl
  intro i _
  rw [mul_pow, base_pow_modulus, pow_right_comm, z_pow_modulus, mul_pow, map_mul, map_pow,
    mul_assoc]

theorem frobenius_of (a : Fin 5 → ZMod modulus) :
    frobenius Quintic modulus (of a) = of fun i => a i * dthRoot ^ (i : ℕ) :=
  of_pow_modulus a

/-- Five times is once around. -/
theorem frobenius_five (k : Quintic) :
    frobenius Quintic modulus (frobenius Quintic modulus (frobenius Quintic modulus
      (frobenius Quintic modulus (frobenius Quintic modulus k)))) = k := by
  obtain ⟨a, rfl⟩ := of_surjective k
  simp only [frobenius_of]
  congr 1
  funext i
  have hone : (dthRoot ^ 5) ^ (i : ℕ) = 1 := by
    rw [dthRoot_pow_five, one_pow]
  rw [← pow_mul, mul_comm 5, pow_mul] at hone
  linear_combination a i * hone

/-- The product of the conjugates. -/
noncomputable def norm (k : Quintic) : Quintic :=
  let f := frobenius Quintic modulus
  k * f k * f (f k) * f (f (f k)) * f (f (f (f k)))

theorem norm_mul (k l : Quintic) : norm (k * l) = norm k * norm l := by
  simp only [norm, map_mul]
  ring

/-- It lies in `ZMod p`. -/
theorem exists_norm_eq (k : Quintic) : ∃ c, norm k = base c := by
  have hfixed : frobenius Quintic modulus (norm k) = norm k := by
    simp only [norm, map_mul]
    rw [frobenius_five]
    ring
  obtain ⟨a, ha⟩ := of_surjective (norm k)
  rw [← ha, frobenius_of] at hfixed
  have hcoeff := congrFun (of_injective hfixed)
  have hzero : ∀ i : Fin 5, i ≠ 0 → a i = 0 := by
    intro i hi
    have hi' := hcoeff i
    have hmul : a i * (dthRoot ^ (i : ℕ) - 1) = 0 := by linear_combination hi'
    exact (mul_eq_zero.mp hmul).resolve_right (sub_ne_zero.mpr (dthRoot_pow_ne_one i hi))
  refine ⟨a 0, ?_⟩
  rw [← ha, base_eq]
  congr 1
  funext i
  by_cases hi : i = 0
  · rw [hi]
    rfl
  · rw [hzero i hi]
    fin_cases i
    · exact absurd rfl hi
    all_goals rfl

/-- The norm of a square is one. -/
theorem isSquare_of_norm {k : Quintic} (h : IsSquare k) {c : ZMod modulus} (hc : norm k = base c) :
    IsSquare c := by
  obtain ⟨r, rfl⟩ := h
  obtain ⟨s, hs⟩ := exists_norm_eq r
  refine ⟨s, ?_⟩
  apply base.injective
  rw [← hc, norm_mul, hs, map_mul]

end Quintic

namespace GFp5

open Quintic

/-- The element of the field. -/
noncomputable def toQuintic (x : GFp5) : Quintic :=
  Quintic.of ![x.c0.toField, x.c1.toField, x.c2.toField, x.c3.toField, x.c4.toField]

theorem toQuintic_eq (x : GFp5) :
    x.toQuintic = base x.c0.toField + base x.c1.toField * z + base x.c2.toField * z ^ 2 +
      base x.c3.toField * z ^ 3 + base x.c4.toField * z ^ 4 := by
  simp [toQuintic, Quintic.of, Fin.sum_univ_five]

theorem toQuintic_injective {x y : GFp5} (h : x.toQuintic = y.toQuintic) : x = y := by
  have hcoeff := congrFun (of_injective h)
  have h0 := GFp.toField_injective (hcoeff 0)
  have h1 := GFp.toField_injective (hcoeff 1)
  have h2 := GFp.toField_injective (hcoeff 2)
  have h3 := GFp.toField_injective (hcoeff 3)
  have h4 := GFp.toField_injective (hcoeff 4)
  cases x
  cases y
  simp only at h0 h1 h2 h3 h4
  rw [h0, h1, h2, h3, h4]

@[simp] theorem toQuintic_zero : zero.toQuintic = 0 := by simp [toQuintic_eq, zero]

@[simp] theorem toQuintic_one : one.toQuintic = 1 := by simp [toQuintic_eq, one]

@[simp] theorem toQuintic_add (x y : GFp5) : (x + y).toQuintic = x.toQuintic + y.toQuintic := by
  have h : x + y = ⟨x.c0 + y.c0, x.c1 + y.c1, x.c2 + y.c2, x.c3 + y.c3, x.c4 + y.c4⟩ := rfl
  simp only [h, toQuintic_eq, GFp.toField_add, map_add]
  ring

@[simp] theorem toQuintic_sub (x y : GFp5) : (x - y).toQuintic = x.toQuintic - y.toQuintic := by
  have h : x - y = ⟨x.c0 - y.c0, x.c1 - y.c1, x.c2 - y.c2, x.c3 - y.c3, x.c4 - y.c4⟩ := rfl
  simp only [h, toQuintic_eq, GFp.toField_sub, map_sub]
  ring

@[simp] theorem toQuintic_neg (x : GFp5) : (-x).toQuintic = -x.toQuintic := by
  have h : -x = ⟨-x.c0, -x.c1, -x.c2, -x.c3, -x.c4⟩ := rfl
  simp only [h, toQuintic_eq, GFp.toField_neg, map_neg]
  ring

@[simp] theorem toQuintic_double (x : GFp5) : x.double.toQuintic = 2 * x.toQuintic := by
  simp only [double, toQuintic_eq, GFp.toField_double, map_mul, map_ofNat]
  ring

@[simp] theorem toQuintic_mulSmall (x : GFp5) (rhs : UInt32) :
    (x.mulSmall rhs).toQuintic = x.toQuintic * base rhs.toNat := by
  simp only [mulSmall, toQuintic_eq, GFp.toField_mulSmall, map_mul]
  ring

@[simp] theorem toQuintic_mulK0 (x : GFp5) (rhs : GFp) :
    (x.mulK0 rhs).toQuintic = x.toQuintic * base rhs.toField := by
  simp only [mulK0, toQuintic_eq, GFp.toField_mul, map_mul]
  ring

/-- The factor is below `2^32` by three, so the factor of the last coefficient does not wrap. -/
theorem toQuintic_mulSmallK1 (x : GFp5) {rhs : UInt32} (h : rhs.toNat * 3 < 2 ^ 32) :
    (x.mulSmallK1 rhs).toQuintic = x.toQuintic * (base rhs.toNat * z) := by
  have hmul : (rhs * 3).toNat = rhs.toNat * 3 := by
    rw [UInt32.toNat_mul]
    exact Nat.mod_eq_of_lt h
  have hz := z_pow_five
  simp only [mulSmallK1, toQuintic_eq, GFp.toField_mulSmall, map_mul, hmul, Nat.cast_mul,
    Nat.cast_ofNat]
  linear_combination -(base x.c4.toField * base rhs.toNat) * hz

@[simp] theorem toQuintic_mul (x y : GFp5) : (x * y).toQuintic = x.toQuintic * y.toQuintic := by
  have h : x * y = ⟨mulToK0 x y, mulToK1 x y, mulToK2 x y, mulToK3 x y, mulToK4 x y⟩ := rfl
  have hz := z_pow_five
  simp only [h, toQuintic_eq, mulToK0, mulToK1, mulToK2, mulToK3, mulToK4, toField_accumulate,
    List.map_cons, List.map_nil, List.sum_cons, List.sum_nil, Nat.cast_one, Nat.cast_ofNat,
    map_add, map_mul, map_zero, map_one]
  generalize base x.c0.toField = a0, base x.c1.toField = a1, base x.c2.toField = a2,
    base x.c3.toField = a3, base x.c4.toField = a4, base y.c0.toField = b0,
    base y.c1.toField = b1, base y.c2.toField = b2, base y.c3.toField = b3,
    base y.c4.toField = b4
  linear_combination -(a1 * b4 + a2 * b3 + a3 * b2 + a4 * b1 +
    (a2 * b4 + a3 * b3 + a4 * b2) * z + (a3 * b4 + a4 * b3) * z ^ 2 + a4 * b4 * z ^ 3) * hz

@[simp] theorem toQuintic_square (x : GFp5) : x.square.toQuintic = x.toQuintic ^ 2 := by
  have hz := z_pow_five
  simp only [square, toQuintic_eq, squareToK0, squareToK1, squareToK2, squareToK3, squareToK4,
    toField_accumulate, List.map_cons, List.map_nil, List.sum_cons, List.sum_nil, Nat.cast_one,
    Nat.cast_ofNat, map_add, map_mul, map_zero, map_one]
  have h6 : base 6 = 2 * base 3 := by
    rw [← map_ofNat base 2, ← map_mul]
    norm_num
  rw [h6, map_ofNat base 2]
  generalize base x.c0.toField = a0, base x.c1.toField = a1, base x.c2.toField = a2,
    base x.c3.toField = a3, base x.c4.toField = a4
  linear_combination -(2 * (a1 * a4 + a2 * a3) + (2 * (a2 * a4) + a3 ^ 2) * z +
    2 * (a3 * a4) * z ^ 2 + a4 ^ 2 * z ^ 3) * hz

/-! ## Inversion -/

/-- The constants of `set_frob1` and `set_frob2`: the powers of the root. -/
theorem toField_roots :
    (Lighter.fromU64Reduce 1041288259238279555).toField = dthRoot ∧
      (Lighter.fromU64Reduce 15820824984080659046).toField = dthRoot ^ 2 ∧
      (Lighter.fromU64Reduce 211587555138949697).toField = dthRoot ^ 3 ∧
      (Lighter.fromU64Reduce 1373043270956696022).toField = dthRoot ^ 4 := by
  rw [← pow_one dthRoot, ← pow_mul, ← pow_mul, ← pow_mul]
  simp only [GFp.toField_fromU64Reduce]
  exact ⟨(dthRoot_pow_eq (by decide)).symm, (dthRoot_pow_eq (by decide)).symm,
    (dthRoot_pow_eq (by decide)).symm, (dthRoot_pow_eq (by decide)).symm⟩

theorem frobenius_base (c : ZMod modulus) : frobenius Quintic modulus (base c) = base c :=
  base_pow_modulus c

theorem frobenius_z : frobenius Quintic modulus z = base dthRoot * z := z_pow_modulus

theorem toQuintic_frob1 (x : GFp5) :
    x.frob1.toQuintic = frobenius Quintic modulus x.toQuintic := by
  obtain ⟨h1, h2, h3, h4⟩ := toField_roots
  simp only [toQuintic_eq, frob1, GFp.toField_mul, h1, h2, h3, h4, map_add, map_mul, map_pow,
    frobenius_base, frobenius_z]
  ring

/-- The second power of Frobenius multiplies by the squares of the roots. -/
theorem toQuintic_frob2 (x : GFp5) :
    x.frob2.toQuintic = frobenius Quintic modulus (frobenius Quintic modulus x.toQuintic) := by
  obtain ⟨h1, h2, h3, h4⟩ := toField_roots
  have hroot : base dthRoot ^ 5 = 1 := by rw [← map_pow, dthRoot_pow_five, map_one]
  simp only [toQuintic_eq, frob2, GFp.toField_mul, h1, h2, h3, h4, map_add, map_mul, map_pow,
    frobenius_base, frobenius_z]
  linear_combination (-(base x.c3.toField) * base dthRoot * z ^ 3 -
    base x.c4.toField * base dthRoot ^ 3 * z ^ 4) * hroot

/-- The element by the product of its other conjugates is its norm. -/
theorem toQuintic_conjugates (x : GFp5) :
    x.conjugates.toQuintic * x.toQuintic = Quintic.norm x.toQuintic := by
  simp only [conjugates, toQuintic_mul, toQuintic_frob1, toQuintic_frob2, map_mul, Quintic.norm]
  ring

/-- Only the first coefficient of the norm is not zero, so `mul_to_k0` finds it. -/
theorem norm_eq (x : GFp5) :
    Quintic.norm x.toQuintic = base (mulToK0 x.conjugates x).toField := by
  obtain ⟨c, hc⟩ := exists_norm_eq x.toQuintic
  have hmul : (x.conjugates * x).toQuintic = base c := by
    rw [toQuintic_mul, toQuintic_conjugates, hc]
  rw [base_eq, toQuintic] at hmul
  have hfirst : (mulToK0 x.conjugates x).toField = c := congrFun (of_injective hmul) 0
  rw [hc, hfirst]

/-- The inverse of the field; zero has zero. -/
@[simp] theorem toQuintic_invert (x : GFp5) : x.invert.toQuintic = (x.toQuintic)⁻¹ := by
  have hnorm : x.conjugates.toQuintic * x.toQuintic =
      base (mulToK0 x.conjugates x).toField := by
    rw [toQuintic_conjugates, norm_eq]
  rw [invert, toQuintic_mulK0, GFp.toField_invert, map_inv₀, ← hnorm]
  by_cases hx : x.toQuintic = 0
  · rw [hx, mul_zero, inv_zero, mul_zero]
  · have hconj : x.conjugates.toQuintic ≠ 0 := by
      simp only [conjugates, toQuintic_mul, toQuintic_frob1, toQuintic_frob2]
      simp [hx]
    field_simp

end GFp5

/-! ## The curve -/

/-- `b = 263 * z` (`ecgfp5.rs` lines 5–6). -/
noncomputable def curveB : Quintic := Quintic.base 263 * Quintic.z

/-- An element whose norm is not a square is none. -/
theorem not_isSquare_toQuintic {x : GFp5} {c : ℕ}
    (hnorm : (GFp5.mulToK0 x.conjugates x).toU64.toNat = c)
    (hpow : (c : ZMod modulus) ^ (modulus / 2) ≠ 1) (hc : ¬modulus ∣ c) :
    ¬IsSquare x.toQuintic := by
  intro hsquare
  have h := Quintic.isSquare_of_norm hsquare (GFp5.norm_eq x)
  rw [GFp.toField, hnorm] at h
  have hc' : (c : ZMod modulus) ≠ 0 := by rwa [Ne, ZMod.natCast_eq_zero_iff]
  exact hpow ((ZMod.euler_criterion modulus hc').mp h)

theorem curveB_eq : curveB = (GFp5.fromU64Reduce 0 263 0 0 0).toQuintic := by
  simp [GFp5.toQuintic_eq, GFp5.fromU64Reduce, curveB]

theorem one_sub_curveB_eq :
    1 - curveB = (GFp5.one - GFp5.fromU64Reduce 0 263 0 0 0).toQuintic := by
  rw [GFp5.toQuintic_sub, GFp5.toQuintic_one, curveB_eq]

theorem curveB_not_square : ¬IsSquare curveB := by
  rw [curveB_eq]
  apply not_isSquare_toQuintic (c := 3774852592629)
  · decide +kernel
  · rw [Nat.cast_ofNat]
    unfold modulus
    norm_num1
    reduce_mod_char
    decide
  · decide

theorem one_sub_curveB_not_square : ¬IsSquare (1 - curveB) := by
  rw [one_sub_curveB_eq]
  apply not_isSquare_toQuintic (c := 18446740294561991693)
  · decide +kernel
  · rw [Nat.cast_ofNat]
    unfold modulus
    norm_num1
    reduce_mod_char
    decide
  · decide

instance finite_quintic : Finite Quintic := Finite.of_surjective _ Quintic.of_surjective

/-- In a finite field two numbers that are no squares make a square. -/
theorem isSquare_mul {F : Type*} [Field F] [Finite F] {x y : F} (hx : ¬IsSquare x)
    (hy : ¬IsSquare y) : IsSquare (x * y) := by
  classical
  have := Fintype.ofFinite F
  have hx' := quadraticChar_neg_one_iff_not_isSquare.mpr hx
  have hy' := quadraticChar_neg_one_iff_not_isSquare.mpr hy
  have hne : x * y ≠ 0 := mul_ne_zero (DoubleOdd.ne_zero_of_not_isSquare hx)
    (DoubleOdd.ne_zero_of_not_isSquare hy)
  rw [← quadraticChar_one_iff_isSquare hne, map_mul, hx', hy', neg_mul_neg, one_mul]

theorem two_ne_zero_quintic : (2 : Quintic) ≠ 0 := by
  have h2 : (2 : ZMod modulus) ≠ 0 := by
    rw [← Nat.cast_ofNat, Ne, ZMod.natCast_eq_zero_iff]
    decide
  rw [← map_ofNat Quintic.base 2]
  exact (map_ne_zero Quintic.base).mpr h2

/-- The curve is double-odd. -/
theorem suitable : DoubleOdd.Suitable curveB where
  two_ne_zero := two_ne_zero_quintic
  b_not_square := curveB_not_square
  one_sub_b_not_square := one_sub_curveB_not_square
  mul_square _ _ := isSquare_mul

end Digdigdig3.Lighter
