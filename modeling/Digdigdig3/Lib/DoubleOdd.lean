import Mathlib.Tactic
import Mathlib.AlgebraicGeometry.EllipticCurve.Affine.Point

/-!
# Double-odd curves in fractional coordinates

The curve `y^2 = x * (x^2 + 2 * x + b)` over a field, where `b` and `1 - b` are no squares. The
elements of the group are the points whose `x` is no square, with `N = (0, 0)` for the neutral one;
the sum of two elements is the sum on the curve plus `N`. An element is written with `x` and
`u = x / y`, each as a fraction.

* `Element.den_ne_zero`: the sum has no exceptional case.
* `value_add`: the formulas for the sum of two elements are the group law of the curve, shifted.
* `Fractions.value_add`, `Fractions.value_double`, `Fractions.value_neg`: the same on fractions.
* `Fractions.same_of_value_eq`: equal elements have equal fractions.
-/

namespace Digdigdig3.DoubleOdd

open WeierstrassCurve

variable {K : Type*} [Field K]

/-- `x^2 + 2 * x + b`. -/
def quad (b x : K) : K := x ^ 2 + 2 * x + b

/-- An element: `x` is no square, or the element is the neutral one. -/
def Element (b x u : K) : Prop := ¬IsSquare x ∧ u ^ 2 * quad b x = x ∨ x = 0 ∧ u = 0

/-- What the curve needs for its group. -/
structure Suitable (b : K) : Prop where
  two_ne_zero : (2 : K) ≠ 0
  b_not_square : ¬IsSquare b
  one_sub_b_not_square : ¬IsSquare (1 - b)
  mul_square : ∀ x y : K, ¬IsSquare x → ¬IsSquare y → IsSquare (x * y)

theorem element_neutral (b : K) : Element b 0 0 := Or.inr ⟨rfl, rfl⟩

theorem Element.equation {b x u : K} (h : Element b x u) : u ^ 2 * quad b x = x := by
  obtain ⟨-, heq⟩ | ⟨rfl, rfl⟩ := h
  · exact heq
  · ring

theorem Element.neg {b x u : K} (h : Element b x u) : Element b x (-u) := by
  obtain ⟨hx, heq⟩ | ⟨hx, hu⟩ := h
  · exact Or.inl ⟨hx, by rwa [neg_sq]⟩
  · exact Or.inr ⟨hx, by rw [hu, neg_zero]⟩

theorem ne_zero_of_not_isSquare {x : K} (h : ¬IsSquare x) : x ≠ 0 := by
  rintro rfl
  exact h (IsSquare.zero)

theorem u_ne_zero {b x u : K} (hx : x ≠ 0) (heq : u ^ 2 * quad b x = x) : u ≠ 0 := by
  rintro rfl
  apply hx
  rw [← heq]
  ring

theorem quad_ne_zero {b x u : K} (hx : x ≠ 0) (heq : u ^ 2 * quad b x = x) : quad b x ≠ 0 := by
  intro hq
  rw [hq, mul_zero] at heq
  exact hx heq.symm

/-! ## The formulas for a sum -/

section Formulas

variable (b x₁ u₁ x₂ u₂ : K)

def numX : K := b * ((1 + 2 * (u₁ * u₂)) * (x₁ + x₂ + (x₁ * x₂ + b)) - (x₁ * x₂ + b))

def denX : K := x₁ * x₂ + b - u₁ * u₂ * (2 * b * (x₁ + x₂) + 2 * (x₁ * x₂ + b))

def numU : K := (u₁ + u₂) * (b - x₁ * x₂)

def denU : K := x₁ * x₂ + b + u₁ * u₂ * (2 * b * (x₁ + x₂) + 2 * (x₁ * x₂ + b))

end Formulas

variable {b x₁ u₁ x₂ u₂ : K}

theorem quad_mul_quad (h₁ : u₁ ^ 2 * quad b x₁ = x₁) (h₂ : u₂ ^ 2 * quad b x₂ = x₂) :
    (u₁ * u₂) ^ 2 * (quad b x₁ * quad b x₂) = x₁ * x₂ := by
  linear_combination u₂ ^ 2 * quad b x₂ * h₁ + x₁ * h₂

/-- Both denominators vanish nowhere else than these two factors. -/
theorem denX_mul_denU (h₁ : u₁ ^ 2 * quad b x₁ = x₁) (h₂ : u₂ ^ 2 * quad b x₂ = x₂) :
    denX b x₁ u₁ x₂ u₂ * denU b x₁ u₁ x₂ u₂ * (quad b x₁ * quad b x₂) =
      (x₁ * x₂ - b) ^ 2 * ((x₁ * x₂ + b + (x₁ + x₂)) ^ 2 - (1 - b) * (x₁ + x₂) ^ 2) := by
  have hv := quad_mul_quad h₁ h₂
  unfold denX denU
  unfold quad at *
  linear_combination (-(2 * b * (x₁ + x₂) + 2 * (x₁ * x₂ + b)) ^ 2) * hv

/-- The `x` of a sum is `b * x₁ * x₂` times a square. -/
theorem numX_mul (h₁ : u₁ ^ 2 * quad b x₁ = x₁) (h₂ : u₂ ^ 2 * quad b x₂ = x₂) :
    numX b x₁ u₁ x₂ u₂ * (x₁ * x₂ * (x₁ * x₂ - b) ^ 2) =
      b * (x₁ * x₂) * ((u₁ + u₂) ^ 2 * (quad b x₁ * quad b x₂)) * denX b x₁ u₁ x₂ u₂ := by
  have hv := quad_mul_quad h₁ h₂
  have hu : (u₁ + u₂) ^ 2 * (quad b x₁ * quad b x₂) =
      x₁ * quad b x₂ + x₂ * quad b x₁ + 2 * (u₁ * u₂) * (quad b x₁ * quad b x₂) := by
    linear_combination quad b x₂ * h₁ + quad b x₁ * h₂
  rw [hu]
  unfold denX numX
  unfold quad at *
  linear_combination (4 * b * (x₁ * x₂) * (b * (x₁ + x₂) + (x₁ * x₂ + b))) * hv

/-- The chord through `(x₁, _)` and the point at `X`, where `X = b / x₂`: its third `x`. -/
theorem chord_x {slope X : K} (h₁ : u₁ ^ 2 * quad b x₁ = x₁) (h₂ : u₂ ^ 2 * quad b x₂ = x₂)
    (hX : X * x₂ = b) (hx : x₁ * x₂ ≠ 0) (hne : x₁ * x₂ - b ≠ 0)
    (hslope : slope * (u₁ * u₂ * (x₁ * x₂ - b)) = x₁ * x₂ * u₂ + b * u₁) :
    (slope ^ 2 - 2 - x₁ - X) * denX b x₁ u₁ x₂ u₂ = numX b x₁ u₁ x₂ u₂ := by
  have hv := quad_mul_quad h₁ h₂
  have hsq : slope ^ 2 * (x₁ * x₂ * (x₁ * x₂ - b) ^ 2) =
      (x₁ * x₂) ^ 2 * x₂ * quad b x₁ + b ^ 2 * x₁ * quad b x₂ +
        2 * (x₁ * x₂) * b * (u₁ * u₂) * (quad b x₁ * quad b x₂) := by
    linear_combination (-slope ^ 2 * (x₁ * x₂ - b) ^ 2) * hv +
      (quad b x₁ * quad b x₂ *
        (slope * (u₁ * u₂ * (x₁ * x₂ - b)) + (x₁ * x₂ * u₂ + b * u₁))) * hslope +
      (x₁ * x₂) ^ 2 * quad b x₁ * h₂ + b ^ 2 * quad b x₂ * h₁
  apply mul_right_cancel₀ (mul_ne_zero hx (pow_ne_zero 2 hne))
  unfold denX numX
  unfold quad at *
  linear_combination
    (x₁ * x₂ + b - u₁ * u₂ * (2 * b * (x₁ + x₂) + 2 * (x₁ * x₂ + b))) * hsq -
    (x₁ * x₂ + b - u₁ * u₂ * (2 * b * (x₁ + x₂) + 2 * (x₁ * x₂ + b))) * x₁ *
      (x₁ * x₂ - b) ^ 2 * hX -
    4 * (x₁ * x₂) * b * (b * (x₁ + x₂) + (x₁ * x₂ + b)) * hv

/-- The slope by `u₁ + u₂`, without a quotient. -/
theorem slope_mul {slope X : K} (h₁ : u₁ ^ 2 * quad b x₁ = x₁) (h₂ : u₂ ^ 2 * quad b x₂ = x₂)
    (hX : X * x₂ = b) (hu : u₁ * u₂ ≠ 0)
    (hslope : slope * (u₁ * u₂ * (x₁ * x₂ - b)) = x₁ * x₂ * u₂ + b * u₁) :
    slope * ((u₁ + u₂) * (x₁ * x₂ - b)) =
      u₁ * u₂ * (x₂ * quad b x₁ + X * quad b x₂) + (x₁ * x₂ + b) := by
  apply mul_right_cancel₀ hu
  linear_combination (u₁ + u₂) * hslope - u₂ ^ 2 * x₂ * h₁ - u₁ ^ 2 * X * h₂ - u₁ ^ 2 * hX

/-- The third `y` of the chord, by the fraction of `u`. -/
theorem chord_y {slope X x₃ y₁ : K} (h₁ : u₁ ^ 2 * quad b x₁ = x₁) (h₂ : u₂ ^ 2 * quad b x₂ = x₂)
    (hX : X * x₂ = b) (hx : x₁ * x₂ ≠ 0) (hu : u₁ * u₂ ≠ 0)
    (hslope : slope * (u₁ * u₂ * (x₁ * x₂ - b)) = x₁ * x₂ * u₂ + b * u₁)
    (hden : denX b x₁ u₁ x₂ u₂ ≠ 0)
    (hx₃ : x₃ * denX b x₁ u₁ x₂ u₂ = numX b x₁ u₁ x₂ u₂) (hy₁ : y₁ = u₁ * quad b x₁) :
    -(slope * (x₃ - x₁) + y₁) * numU b x₁ u₁ x₂ u₂ = x₃ * denU b x₁ u₁ x₂ u₂ := by
  have hv := quad_mul_quad h₁ h₂
  have hline := slope_mul h₁ h₂ hX hu hslope
  have hy : y₁ * (u₁ + u₂) = x₁ + u₁ * u₂ * quad b x₁ := by
    rw [hy₁]
    linear_combination h₁
  have hscale : x₂ * (quad b x₁ * quad b x₂) ≠ 0 :=
    mul_ne_zero (right_ne_zero_of_mul hx) (mul_ne_zero
      (quad_ne_zero (left_ne_zero_of_mul hx) h₁) (quad_ne_zero (right_ne_zero_of_mul hx) h₂))
  -- the slope and `y₁` are gone; what is left is a polynomial of degree two in `u₁ * u₂`
  have hgoal : ((x₃ - x₁) * (u₁ * u₂ * (x₂ * quad b x₁ + X * quad b x₂) + (x₁ * x₂ + b)) -
        (x₁ + u₁ * u₂ * quad b x₁) * (b - x₁ * x₂)) * denX b x₁ u₁ x₂ u₂ =
      numX b x₁ u₁ x₂ u₂ * denU b x₁ u₁ x₂ u₂ := by
    apply mul_right_cancel₀ hscale
    clear hline hy hy₁ hslope hden h₁ h₂ hscale
    unfold denX numX at hx₃
    unfold denX denU numX
    generalize hw : 2 * b * (x₁ + x₂) + 2 * (x₁ * x₂ + b) = w at *
    unfold quad at *
    subst hw
    linear_combination (u₁ * u₂ * (x₂ * (x₁ ^ 2 + 2 * x₁ + b) + X * (x₂ ^ 2 + 2 * x₂ + b)) +
        (x₁ * x₂ + b)) * (x₂ * ((x₁ ^ 2 + 2 * x₁ + b) * (x₂ ^ 2 + 2 * x₂ + b))) * hx₃ +
      ((b * ((1 + 2 * (u₁ * u₂)) * (x₁ + x₂ + (x₁ * x₂ + b)) - (x₁ * x₂ + b))) -
        x₁ * (x₁ * x₂ + b - u₁ * u₂ * (2 * b * (x₁ + x₂) + 2 * (x₁ * x₂ + b)))) * (u₁ * u₂) *
          (x₂ ^ 2 + 2 * x₂ + b) * ((x₁ ^ 2 + 2 * x₁ + b) * (x₂ ^ 2 + 2 * x₂ + b)) * hX +
      ((2 * b * (x₁ + x₂ + (x₁ * x₂ + b)) +
        x₁ * (2 * b * (x₁ + x₂) + 2 * (x₁ * x₂ + b))) *
          (x₂ ^ 2 * (x₁ ^ 2 + 2 * x₁ + b) + b * (x₂ ^ 2 + 2 * x₂ + b)) +
        x₂ * (x₁ ^ 2 + 2 * x₁ + b) * (2 * b * (x₁ + x₂) + 2 * (x₁ * x₂ + b)) * (b - x₁ * x₂) -
        x₂ * (2 * b * (x₁ + x₂ + (x₁ * x₂ + b))) *
          (2 * b * (x₁ + x₂) + 2 * (x₁ * x₂ + b))) * hv
  apply mul_right_cancel₀ hden
  unfold numU
  linear_combination hgoal + (x₃ - x₁) * denX b x₁ u₁ x₂ u₂ * hline -
    (b - x₁ * x₂) * denX b x₁ u₁ x₂ u₂ * hy - denU b x₁ u₁ x₂ u₂ * hx₃

/-! ## No exceptional case -/

theorem Suitable.b_ne_zero (hb : Suitable b) : b ≠ 0 := ne_zero_of_not_isSquare hb.b_not_square

theorem Suitable.mul_ne_b (hb : Suitable b) (h₁ : ¬IsSquare x₁) (h₂ : ¬IsSquare x₂) :
    x₁ * x₂ - b ≠ 0 := by
  intro heq
  apply hb.b_not_square
  rw [← sub_eq_zero.mp heq]
  exact hb.mul_square x₁ x₂ h₁ h₂

/-- The quadratic form `(v + s)^2 - (1 - b) * s^2` vanishes at zero only. -/
theorem Suitable.form_ne_zero (hb : Suitable b) {v s : K} (h : s ≠ 0 ∨ v ≠ 0) :
    (v + s) ^ 2 - (1 - b) * s ^ 2 ≠ 0 := by
  intro hzero
  by_cases hs : s = 0
  · obtain hne | hne := h
    · exact hne hs
    · rw [hs, add_zero, zero_pow (by norm_num), mul_zero, sub_zero] at hzero
      exact pow_ne_zero 2 hne hzero
  · apply hb.one_sub_b_not_square
    refine ⟨(v + s) / s, ?_⟩
    rw [div_mul_div_comm, eq_div_iff (mul_ne_zero hs hs)]
    linear_combination -hzero

/-- Neither denominator of a sum vanishes. -/
theorem Element.den_ne_zero (hb : Suitable b) (h₁ : Element b x₁ u₁) (h₂ : Element b x₂ u₂) :
    denX b x₁ u₁ x₂ u₂ ≠ 0 ∧ denU b x₁ u₁ x₂ u₂ ≠ 0 := by
  have hb0 := hb.b_ne_zero
  obtain ⟨hx₁, heq₁⟩ | ⟨rfl, rfl⟩ := h₁
  · obtain ⟨hx₂, heq₂⟩ | ⟨rfl, rfl⟩ := h₂
    · have hform : (x₁ * x₂ + b + (x₁ + x₂)) ^ 2 - (1 - b) * (x₁ + x₂) ^ 2 ≠ 0 := by
        apply hb.form_ne_zero
        -- otherwise `b` is the square of `x₁`
        by_contra hboth
        push Not at hboth
        apply hb.b_not_square
        refine ⟨x₁, ?_⟩
        linear_combination hboth.2 - x₁ * hboth.1
      have hprod := denX_mul_denU heq₁ heq₂
      have hne : denX b x₁ u₁ x₂ u₂ * denU b x₁ u₁ x₂ u₂ * (quad b x₁ * quad b x₂) ≠ 0 := by
        rw [hprod]
        exact mul_ne_zero (pow_ne_zero 2 (hb.mul_ne_b hx₁ hx₂)) hform
      have hden := left_ne_zero_of_mul hne
      exact ⟨left_ne_zero_of_mul hden, right_ne_zero_of_mul hden⟩
    · simpa [denX, denU] using hb0
  · simpa [denX, denU] using hb0

/-- The `x` of a sum is `b` times a square. -/
theorem numX_div (hb : Suitable b) (hx₁ : ¬IsSquare x₁) (hx₂ : ¬IsSquare x₂)
    (h₁ : u₁ ^ 2 * quad b x₁ = x₁) (h₂ : u₂ ^ 2 * quad b x₂ = x₂) :
    ∃ c : K, c ≠ 0 ∧
      numX b x₁ u₁ x₂ u₂ / denX b x₁ u₁ x₂ u₂ = b * ((u₁ + u₂) * c) ^ 2 := by
  have hden := (Element.den_ne_zero hb (Or.inl ⟨hx₁, h₁⟩) (Or.inl ⟨hx₂, h₂⟩)).1
  have hx := mul_ne_zero (ne_zero_of_not_isSquare hx₁) (ne_zero_of_not_isSquare hx₂)
  have hu := mul_ne_zero (u_ne_zero (left_ne_zero_of_mul hx) h₁)
    (u_ne_zero (right_ne_zero_of_mul hx) h₂)
  have hne := hb.mul_ne_b hx₁ hx₂
  obtain ⟨r, hr⟩ := hb.mul_square x₁ x₂ hx₁ hx₂
  have hr0 : r ≠ 0 := by
    rintro rfl
    exact hx (hr.trans (mul_zero 0))
  have hscale := mul_ne_zero hu hne
  refine ⟨r / (u₁ * u₂ * (x₁ * x₂ - b)), div_ne_zero hr0 hscale, ?_⟩
  have hv := quad_mul_quad h₁ h₂
  have hmul := numX_mul h₁ h₂
  rw [div_eq_iff hden, mul_div_assoc', div_pow, mul_div_assoc', div_mul_eq_mul_div,
    eq_div_iff (pow_ne_zero 2 hscale)]
  apply mul_right_cancel₀ hx
  linear_combination (u₁ * u₂) ^ 2 * hmul +
    b * (u₁ + u₂) ^ 2 * (x₁ * x₂) * denX b x₁ u₁ x₂ u₂ * (hv + hr)

/-! ## The curve -/

/-- `y^2 = x * (x^2 + 2 * x + b)`. -/
def curve (b : K) : WeierstrassCurve.Affine K := ⟨0, 2, 0, b, 0⟩

theorem equation_iff (x y : K) : (curve b).Equation x y ↔ y ^ 2 = x * quad b x := by
  rw [Affine.equation_iff]
  simp only [curve, quad]
  constructor <;> intro h <;> linear_combination h

theorem nonsingular_iff (hb : Suitable b) (x y : K) :
    (curve b).Nonsingular x y ↔ y ^ 2 = x * quad b x := by
  rw [← equation_iff, Affine.equation_iff_nonsingular_of_Δ_ne_zero]
  have hΔ : (curve b).Δ = 2 ^ 6 * (b ^ 2 * (1 - b)) := by
    simp only [WeierstrassCurve.Δ, WeierstrassCurve.b₂, WeierstrassCurve.b₄, WeierstrassCurve.b₆,
      WeierstrassCurve.b₈, curve]
    ring
  rw [hΔ]
  exact mul_ne_zero (pow_ne_zero 6 hb.two_ne_zero) (mul_ne_zero (pow_ne_zero 2 hb.b_ne_zero)
    (ne_zero_of_not_isSquare hb.one_sub_b_not_square))

theorem Element.nonsingular (hb : Suitable b) {x u : K} (h : Element b x u) :
    (curve b).Nonsingular x (x / u) := by
  rw [nonsingular_iff hb]
  obtain ⟨hx, heq⟩ | ⟨rfl, rfl⟩ := h
  · have hx0 := ne_zero_of_not_isSquare hx
    have hu := u_ne_zero hx0 heq
    rw [div_pow, div_eq_iff (pow_ne_zero 2 hu)]
    linear_combination -x * heq
  · simp

theorem some_congr {x y x' y' : K} (h : (curve b).Nonsingular x y) (hx : x = x') (hy : y = y') :
    ∃ h' : (curve b).Nonsingular x' y', Affine.Point.some x y h = .some x' y' h' := by
  subst hx hy
  exact ⟨h, rfl⟩

variable [DecidableEq K]

open Classical in
/-- The point `(x, y)` with `y = x / u`. -/
noncomputable def point (b x u : K) : (curve b).Point :=
  if h : (curve b).Nonsingular x (x / u) then .some x (x / u) h else 0

/-- An element on the curve: its point plus `N`. -/
noncomputable def group (b x u : K) : (curve b).Point := point b x u + point b 0 0

omit [DecidableEq K] in
theorem Element.point_eq (hb : Suitable b) {x u : K} (h : Element b x u) :
    point b x u = .some x (x / u) (h.nonsingular hb) := by
  rw [point, dif_pos]

omit [DecidableEq K] in
theorem point_neutral (hb : Suitable b) :
    point b 0 0 = .some 0 0 ((nonsingular_iff hb 0 0).mpr (by simp)) := by
  rw [(element_neutral b).point_eq hb]
  simp

theorem group_neutral (hb : Suitable b) : group b 0 0 = 0 := by
  rw [group, point_neutral hb]
  exact Affine.Point.add_self_of_Y_eq (by simp [curve])

theorem neg_point_neutral (hb : Suitable b) : -point b 0 0 = point b 0 0 :=
  neg_eq_of_add_eq_zero_left (group_neutral hb)

/-- Adding `N` inverts `x`, up to `b`. -/
theorem group_eq (hb : Suitable b) {x u : K} (hx : ¬IsSquare x) (heq : u ^ 2 * quad b x = x) :
    ∃ h : (curve b).Nonsingular (b / x) (-(b / (x * u))), group b x u = .some _ _ h := by
  have hx0 := ne_zero_of_not_isSquare hx
  have hu := u_ne_zero hx0 heq
  have hpoint := Element.point_eq hb (Or.inl ⟨hx, heq⟩)
  have hsum := @Affine.Point.add_of_X_ne _ _ (curve b) _ _ _ _ _
    (Element.nonsingular hb (Or.inl ⟨hx, heq⟩)) ((nonsingular_iff hb 0 0).mpr (by simp)) hx0
  rw [← hpoint, ← point_neutral hb] at hsum
  have hslope : (curve b).slope x 0 (x / u) 0 = 1 / u := by
    rw [Affine.slope_of_X_ne hx0]
    field_simp
    ring
  have haddX : (curve b).addX x 0 ((curve b).slope x 0 (x / u) 0) = b / x := by
    rw [hslope, Affine.addX]
    simp only [curve]
    field_simp
    unfold quad at heq
    linear_combination -heq
  have haddY : (curve b).addY x 0 (x / u) ((curve b).slope x 0 (x / u) 0) = -(b / (x * u)) := by
    rw [Affine.addY, Affine.negAddY, haddX, hslope, Affine.negY]
    simp only [curve]
    field_simp
    ring
  obtain ⟨h, hsome⟩ := some_congr _ haddX haddY
  exact ⟨h, hsum.trans hsome⟩

/-! ## The sum on the curve -/

/-- The chord through the point of one element and the sum of another with `N`. -/
theorem point_add (hb : Suitable b) (hx₁ : ¬IsSquare x₁) (hx₂ : ¬IsSquare x₂)
    (h₁ : u₁ ^ 2 * quad b x₁ = x₁) (h₂ : u₂ ^ 2 * quad b x₂ = x₂) :
    ∃ y₃, ∃ h : (curve b).Nonsingular (numX b x₁ u₁ x₂ u₂ / denX b x₁ u₁ x₂ u₂) y₃,
      point b x₁ u₁ + group b x₂ u₂ = .some _ _ h ∧
        y₃ * (numU b x₁ u₁ x₂ u₂ / denU b x₁ u₁ x₂ u₂) =
          numX b x₁ u₁ x₂ u₂ / denX b x₁ u₁ x₂ u₂ := by
  have hne := hb.mul_ne_b hx₁ hx₂
  obtain ⟨hdenX, hdenU⟩ := Element.den_ne_zero hb (Or.inl ⟨hx₁, h₁⟩) (Or.inl ⟨hx₂, h₂⟩)
  obtain ⟨hQ, hgroup⟩ := group_eq hb hx₂ h₂
  have hpoint := Element.point_eq hb (Or.inl ⟨hx₁, h₁⟩)
  have hx0₁ := ne_zero_of_not_isSquare hx₁
  have hx0₂ := ne_zero_of_not_isSquare hx₂
  have hu₁ := u_ne_zero hx0₁ h₁
  have hu₂ := u_ne_zero hx0₂ h₂
  have hdiff : x₁ ≠ b / x₂ := by
    intro heq
    rw [eq_div_iff hx0₂] at heq
    exact hne (sub_eq_zero.mpr heq)
  have hsum := @Affine.Point.add_of_X_ne _ _ (curve b) _ _ _ _ _
    (Element.nonsingular hb (Or.inl ⟨hx₁, h₁⟩)) hQ hdiff
  rw [← hpoint, ← hgroup] at hsum
  have hsub : x₁ - b / x₂ ≠ 0 := sub_ne_zero.mpr hdiff
  obtain ⟨slope, hdef⟩ : ∃ slope,
      (curve b).slope x₁ (b / x₂) (x₁ / u₁) (-(b / (x₂ * u₂))) = slope := ⟨_, rfl⟩
  have hslope : slope * (u₁ * u₂ * (x₁ * x₂ - b)) = x₁ * x₂ * u₂ + b * u₁ := by
    rw [← hdef, Affine.slope_of_X_ne hdiff, div_mul_eq_mul_div, div_eq_iff hsub]
    field_simp
    ring
  have hx₃ : (slope ^ 2 - 2 - x₁ - b / x₂) =
      numX b x₁ u₁ x₂ u₂ / denX b x₁ u₁ x₂ u₂ := by
    rw [eq_div_iff hdenX]
    exact chord_x h₁ h₂ (div_mul_cancel₀ b hx0₂) (mul_ne_zero hx0₁ hx0₂) hne hslope
  have haddX : (curve b).addX x₁ (b / x₂)
      ((curve b).slope x₁ (b / x₂) (x₁ / u₁) (-(b / (x₂ * u₂)))) =
        numX b x₁ u₁ x₂ u₂ / denX b x₁ u₁ x₂ u₂ := by
    rw [hdef, ← hx₃, Affine.addX]
    simp only [curve]
    ring
  have haddY : (curve b).addY x₁ (b / x₂) (x₁ / u₁)
      ((curve b).slope x₁ (b / x₂) (x₁ / u₁) (-(b / (x₂ * u₂)))) =
        -(slope * (numX b x₁ u₁ x₂ u₂ / denX b x₁ u₁ x₂ u₂ - x₁) + x₁ / u₁) := by
    rw [Affine.addY, Affine.negAddY, haddX, hdef, Affine.negY]
    simp only [curve]
    ring
  obtain ⟨h, hsome⟩ := some_congr _ haddX haddY
  refine ⟨_, h, hsum.trans hsome, ?_⟩
  rw [mul_div_assoc', div_eq_iff hdenU]
  refine chord_y h₁ h₂ (div_mul_cancel₀ b hx0₂) (mul_ne_zero hx0₁ hx0₂) (mul_ne_zero hu₁ hu₂) hslope
    hdenX (div_mul_cancel₀ _ hdenX) ?_
  rw [div_eq_iff hu₁]
  linear_combination -h₁

/-- The sum of two elements is an element, and on the curve it is the sum. -/
theorem Element.add (hb : Suitable b) (h₁ : Element b x₁ u₁) (h₂ : Element b x₂ u₂) :
    Element b (numX b x₁ u₁ x₂ u₂ / denX b x₁ u₁ x₂ u₂)
        (numU b x₁ u₁ x₂ u₂ / denU b x₁ u₁ x₂ u₂) ∧
      group b (numX b x₁ u₁ x₂ u₂ / denX b x₁ u₁ x₂ u₂)
        (numU b x₁ u₁ x₂ u₂ / denU b x₁ u₁ x₂ u₂) = group b x₁ u₁ + group b x₂ u₂ := by
  have hb0 := hb.b_ne_zero
  obtain ⟨hx₁, heq₁⟩ | ⟨rfl, rfl⟩ := id h₁
  · obtain ⟨hx₂, heq₂⟩ | ⟨rfl, rfl⟩ := id h₂
    · obtain ⟨y₃, hns, hsum, hy₃⟩ := point_add hb hx₁ hx₂ heq₁ heq₂
      obtain ⟨c, hc, hsquare⟩ := numX_div hb hx₁ hx₂ heq₁ heq₂
      have hcurve := (nonsingular_iff hb _ _).mp hns
      have hu : numU b x₁ u₁ x₂ u₂ / denU b x₁ u₁ x₂ u₂ = 0 ↔ u₁ + u₂ = 0 := by
        have hden := (Element.den_ne_zero hb h₁ h₂).2
        have hne := hb.mul_ne_b hx₁ hx₂
        rw [div_eq_zero_iff, or_iff_left hden, numU, mul_eq_zero, or_iff_left]
        intro hzero
        exact hne (by linear_combination -hzero)
      generalize numX b x₁ u₁ x₂ u₂ / denX b x₁ u₁ x₂ u₂ = x₃ at *
      generalize numU b x₁ u₁ x₂ u₂ / denU b x₁ u₁ x₂ u₂ = u₃ at *
      have helement : Element b x₃ u₃ := by
        by_cases hzero : u₁ + u₂ = 0
        · right
          exact ⟨by rw [hsquare, hzero]; ring, hu.mpr hzero⟩
        · left
          have hx₃ : ¬IsSquare x₃ := by
            rintro ⟨r, hr⟩
            apply hb.b_not_square
            have hscale := mul_ne_zero hzero hc
            refine ⟨r / ((u₁ + u₂) * c), ?_⟩
            rw [div_mul_div_comm, eq_div_iff (mul_ne_zero hscale hscale)]
            linear_combination hr - hsquare
          refine ⟨hx₃, ?_⟩
          apply mul_left_cancel₀ (ne_zero_of_not_isSquare hx₃)
          linear_combination -u₃ ^ 2 * hcurve + (y₃ * u₃ + x₃) * hy₃
      refine ⟨helement, ?_⟩
      have hpoint : point b x₃ u₃ = .some x₃ y₃ hns := by
        rw [helement.point_eq hb]
        refine (some_congr _ rfl ?_).choose_spec
        obtain ⟨hx₃, heq₃⟩ | ⟨rfl, rfl⟩ := helement
        · rw [div_eq_iff (u_ne_zero (ne_zero_of_not_isSquare hx₃) heq₃), hy₃]
        · rw [zero_mul] at hcurve
          rw [pow_eq_zero_iff two_ne_zero |>.mp hcurve, div_zero]
      rw [group, hpoint, ← hsum, add_right_comm]
      rfl
    · have hX : numX b x₁ u₁ 0 0 / denX b x₁ u₁ 0 0 = x₁ := by
        rw [div_eq_iff (Element.den_ne_zero hb h₁ h₂).1, numX, denX]
        ring
      have hU : numU b x₁ u₁ 0 0 / denU b x₁ u₁ 0 0 = u₁ := by
        rw [div_eq_iff (Element.den_ne_zero hb h₁ h₂).2, numU, denU]
        ring
      rw [hX, hU, group_neutral hb, add_zero]
      exact ⟨h₁, rfl⟩
  · have hX : numX b 0 0 x₂ u₂ / denX b 0 0 x₂ u₂ = x₂ := by
      rw [div_eq_iff (Element.den_ne_zero hb h₁ h₂).1, numX, denX]
      ring
    have hU : numU b 0 0 x₂ u₂ / denU b 0 0 x₂ u₂ = u₂ := by
      rw [div_eq_iff (Element.den_ne_zero hb h₁ h₂).2, numU, denU]
      ring
    rw [hX, hU, group_neutral hb, zero_add]
    exact ⟨h₂, rfl⟩

theorem Element.group_neg (hb : Suitable b) {x u : K} (h : Element b x u) :
    group b x (-u) = -group b x u := by
  have hpoint : point b x (-u) = -point b x u := by
    rw [h.neg.point_eq hb, h.point_eq hb, Affine.Point.neg_some]
    refine (some_congr _ rfl ?_).choose_spec
    simp [curve, div_neg]
  rw [group, group, hpoint, neg_add, neg_point_neutral hb]

/-- An element is told from its point. -/
theorem Element.eq_of_group_eq (hb : Suitable b) (h₁ : Element b x₁ u₁) (h₂ : Element b x₂ u₂)
    (heq : group b x₁ u₁ = group b x₂ u₂) : x₁ = x₂ ∧ u₁ = u₂ := by
  have hpoint : point b x₁ u₁ = point b x₂ u₂ := add_right_cancel heq
  rw [h₁.point_eq hb, h₂.point_eq hb, Affine.Point.some.injEq] at hpoint
  obtain ⟨rfl, hy⟩ := hpoint
  refine ⟨rfl, ?_⟩
  obtain ⟨hx, heq₁⟩ | ⟨rfl, rfl⟩ := h₁
  · have hx0 := ne_zero_of_not_isSquare hx
    have hu₁ := u_ne_zero hx0 heq₁
    have hu₂ := u_ne_zero hx0 h₂.equation
    rw [div_eq_div_iff hu₁ hu₂] at hy
    exact (mul_left_cancel₀ hx0 hy).symm
  · obtain ⟨hx, -⟩ | ⟨-, rfl⟩ := h₂
    · exact absurd IsSquare.zero hx
    · rfl

/-! ## Fractions -/

/-- `x = X / Z` and `u = U / T`. -/
structure Fractions (K : Type*) where
  X : K
  Z : K
  U : K
  T : K

namespace Fractions

section Formulas

variable {F : Type*} [Field F] (c : F)

def neutral : Fractions F := ⟨0, 1, 0, 1⟩

/-- The sum, with ten products. -/
def add (P Q : Fractions F) : Fractions F :=
  let t1 := P.X * Q.X
  let t2 := P.Z * Q.Z
  let t3 := P.U * Q.U
  let t4 := P.T * Q.T
  let t5 := (P.X + P.Z) * (Q.X + Q.Z) - t1 - t2
  let t6 := (P.U + P.T) * (Q.U + Q.T) - t3 - t4
  let t7 := t1 + c * t2
  let t8 := t4 * t7
  let t9 := t3 * (2 * c * t5 + 2 * t7)
  let t10 := (t4 + 2 * t3) * (t5 + t7)
  ⟨c * (t10 - t8), t8 - t9, t6 * (c * t2 - t1), t8 + t9⟩

/-- The double. -/
def double (P : Fractions F) : Fractions F :=
  let t1 := P.Z * P.T
  let t2 := t1 * P.T
  let x1 := t2 ^ 2
  let z1 := t1 * P.U
  let t3 := P.U ^ 2
  let w1 := t2 - 2 * (P.X + P.Z) * t3
  let t4 := z1 ^ 2
  ⟨4 * c * t4, w1 ^ 2, (w1 + z1) ^ 2 - t4 - w1 ^ 2, 2 * x1 - 4 * t4 - w1 ^ 2⟩

def neg (P : Fractions F) : Fractions F := { P with U := -P.U }

/-- The fractions are those of `x` and `u`. -/
structure Reads (P : Fractions F) (x u : F) : Prop where
  Z_ne_zero : P.Z ≠ 0
  T_ne_zero : P.T ≠ 0
  X_eq : P.X = x * P.Z
  U_eq : P.U = u * P.T

end Formulas

omit [DecidableEq K] in
theorem Reads.add (hb : Suitable b) {P Q : Fractions K} (hP : P.Reads x₁ u₁) (hQ : Q.Reads x₂ u₂)
    (h₁ : Element b x₁ u₁) (h₂ : Element b x₂ u₂) :
    (add b P Q).Reads (numX b x₁ u₁ x₂ u₂ / denX b x₁ u₁ x₂ u₂)
      (numU b x₁ u₁ x₂ u₂ / denU b x₁ u₁ x₂ u₂) := by
  obtain ⟨hdenX, hdenU⟩ := Element.den_ne_zero hb h₁ h₂
  have hscale : P.Z * Q.Z * (P.T * Q.T) ≠ 0 :=
    mul_ne_zero (mul_ne_zero hP.Z_ne_zero hQ.Z_ne_zero) (mul_ne_zero hP.T_ne_zero hQ.T_ne_zero)
  have hX : (Fractions.add b P Q).X = P.Z * Q.Z * (P.T * Q.T) * numX b x₁ u₁ x₂ u₂ := by
    simp only [Fractions.add, numX, hP.X_eq, hP.U_eq, hQ.X_eq, hQ.U_eq]
    ring
  have hZ : (Fractions.add b P Q).Z = P.Z * Q.Z * (P.T * Q.T) * denX b x₁ u₁ x₂ u₂ := by
    simp only [Fractions.add, denX, hP.X_eq, hP.U_eq, hQ.X_eq, hQ.U_eq]
    ring
  have hU : (Fractions.add b P Q).U = P.Z * Q.Z * (P.T * Q.T) * numU b x₁ u₁ x₂ u₂ := by
    simp only [Fractions.add, numU, hP.X_eq, hP.U_eq, hQ.X_eq, hQ.U_eq]
    ring
  have hT : (Fractions.add b P Q).T = P.Z * Q.Z * (P.T * Q.T) * denU b x₁ u₁ x₂ u₂ := by
    simp only [Fractions.add, denU, hP.X_eq, hP.U_eq, hQ.X_eq, hQ.U_eq]
    ring
  refine ⟨?_, ?_, ?_, ?_⟩
  · rw [hZ]
    exact mul_ne_zero hscale hdenX
  · rw [hT]
    exact mul_ne_zero hscale hdenU
  · rw [hX, hZ]
    field_simp
  · rw [hU, hT]
    field_simp

omit [DecidableEq K] in
/-- The double is the sum with itself. -/
theorem Reads.double (hb : Suitable b) {P : Fractions K} {x u : K} (hP : P.Reads x u)
    (h : Element b x u) :
    (double b P).Reads (numX b x u x u / denX b x u x u) (numU b x u x u / denU b x u x u) := by
  obtain ⟨hdenX, hdenU⟩ := Element.den_ne_zero hb h h
  have heq := h.equation
  obtain ⟨w, hw⟩ : ∃ w, w = 1 - 2 * (x + 1) * u ^ 2 := ⟨_, rfl⟩
  have hscale : (P.Z * P.T ^ 2) ^ 2 ≠ 0 :=
    pow_ne_zero 2 (mul_ne_zero hP.Z_ne_zero (pow_ne_zero 2 hP.T_ne_zero))
  have hX : (Fractions.double b P).X = (P.Z * P.T ^ 2) ^ 2 * (4 * b * u ^ 2) := by
    simp only [Fractions.double, hP.U_eq]
    ring
  have hZ : (Fractions.double b P).Z = (P.Z * P.T ^ 2) ^ 2 * w ^ 2 := by
    simp only [Fractions.double, hP.X_eq, hP.U_eq, hw]
    ring
  have hU : (Fractions.double b P).U = (P.Z * P.T ^ 2) ^ 2 * (2 * w * u) := by
    simp only [Fractions.double, hP.X_eq, hP.U_eq, hw]
    ring
  have hT : (Fractions.double b P).T = (P.Z * P.T ^ 2) ^ 2 * (2 - 4 * u ^ 2 - w ^ 2) := by
    simp only [Fractions.double, hP.X_eq, hP.U_eq, hw]
    ring
  have hfirst : numX b x u x u * w ^ 2 = 4 * b * u ^ 2 * denX b x u x u := by
    rw [hw]
    unfold numX denX
    unfold quad at heq
    linear_combination b * (2 * (1 - 2 * (x + 1) * u ^ 2) ^ 2 +
      4 * (u ^ 2 * (-4 * (x + 1) + 4 * (x + 1) ^ 2 * u ^ 2 + (4 * x + 2)) -
        (1 - 2 * (x + 1) * u ^ 2) ^ 2)) * heq
  have hsecond : numU b x u x u * (2 - 4 * u ^ 2 - w ^ 2) = 2 * w * u * denU b x u x u := by
    rw [hw]
    unfold numU denU
    unfold quad at heq
    linear_combination
      (2 * u * (2 * x + 4 * (x + b) * u ^ 2) - 8 * u ^ 3 * (b - x ^ 2)) * heq
  -- both denominators are one where `u` is zero
  have hwne : w ≠ 0 := by
    intro hzero
    rw [hzero, zero_pow two_ne_zero, mul_zero] at hfirst
    have hu : u = 0 := by
      have h4 : 4 * b * denX b x u x u ≠ 0 := by
        have : (4 : K) = 2 ^ 2 := by norm_num
        rw [this]
        exact mul_ne_zero (mul_ne_zero (pow_ne_zero 2 hb.two_ne_zero) hb.b_ne_zero) hdenX
      apply pow_eq_zero_iff two_ne_zero |>.mp
      apply mul_left_cancel₀ h4
      linear_combination -hfirst
    rw [hu] at hw
    apply (one_ne_zero : (1 : K) ≠ 0)
    linear_combination hzero - hw
  have hTne : 2 - 4 * u ^ 2 - w ^ 2 ≠ 0 := by
    intro hzero
    rw [hzero, mul_zero] at hsecond
    have hu : u = 0 := by
      have h2 : 2 * w * denU b x u x u ≠ 0 :=
        mul_ne_zero (mul_ne_zero hb.two_ne_zero hwne) hdenU
      apply mul_left_cancel₀ h2
      linear_combination -hsecond
    rw [hu] at hw hzero
    apply (one_ne_zero : (1 : K) ≠ 0)
    linear_combination hzero + (w + 1) * hw
  refine ⟨?_, ?_, ?_, ?_⟩
  · rw [hZ]
    exact mul_ne_zero hscale (pow_ne_zero 2 hwne)
  · rw [hT]
    exact mul_ne_zero hscale hTne
  · rw [hX, hZ, div_mul_eq_mul_div, eq_div_iff hdenX]
    linear_combination -(P.Z * P.T ^ 2) ^ 2 * hfirst
  · rw [hU, hT, div_mul_eq_mul_div, eq_div_iff hdenU]
    linear_combination -(P.Z * P.T ^ 2) ^ 2 * hsecond

omit [DecidableEq K] in
theorem Reads.neg {P : Fractions K} {x u : K} (hP : P.Reads x u) : P.neg.Reads x (-u) :=
  ⟨hP.Z_ne_zero, hP.T_ne_zero, hP.X_eq, by
    show -P.U = -u * P.T
    rw [hP.U_eq, neg_mul]⟩

/-! ## Fractions of an element of the group -/

/-- The fractions stand for the element whose point, shifted by `N`, is `g`. -/
def Denotes (b : K) (P : Fractions K) (g : (curve b).Point) : Prop :=
  ∃ x u, P.Reads x u ∧ Element b x u ∧ group b x u = g

theorem denotes_neutral (hb : Suitable b) : (neutral : Fractions K).Denotes b 0 :=
  ⟨0, 0, ⟨one_ne_zero, one_ne_zero, by simp [neutral], by simp [neutral]⟩, element_neutral b,
    group_neutral hb⟩

theorem Denotes.add (hb : Suitable b) {P Q : Fractions K} {g h : (curve b).Point}
    (hP : P.Denotes b g) (hQ : Q.Denotes b h) : (add b P Q).Denotes b (g + h) := by
  obtain ⟨x₁, u₁, hreads₁, helement₁, rfl⟩ := hP
  obtain ⟨x₂, u₂, hreads₂, helement₂, rfl⟩ := hQ
  obtain ⟨helement, hgroup⟩ := Element.add hb helement₁ helement₂
  exact ⟨_, _, hreads₁.add hb hreads₂ helement₁ helement₂, helement, hgroup⟩

theorem Denotes.double (hb : Suitable b) {P : Fractions K} {g : (curve b).Point}
    (hP : P.Denotes b g) : (double b P).Denotes b (g + g) := by
  obtain ⟨x, u, hreads, helement, rfl⟩ := hP
  obtain ⟨helement', hgroup⟩ := Element.add hb helement helement
  exact ⟨_, _, hreads.double hb helement, helement', hgroup⟩

theorem Denotes.neg (hb : Suitable b) {P : Fractions K} {g : (curve b).Point}
    (hP : P.Denotes b g) : P.neg.Denotes b (-g) := by
  obtain ⟨x, u, hreads, helement, rfl⟩ := hP
  exact ⟨x, -u, hreads.neg, helement.neg, helement.group_neg hb⟩

/-- Fractions of one element are equal as fractions. -/
theorem Denotes.same (hb : Suitable b) {P Q : Fractions K} {g : (curve b).Point}
    (hP : P.Denotes b g) (hQ : Q.Denotes b g) :
    P.X * Q.Z = Q.X * P.Z ∧ P.U * Q.T = Q.U * P.T := by
  obtain ⟨x₁, u₁, hreads₁, helement₁, rfl⟩ := hP
  obtain ⟨x₂, u₂, hreads₂, helement₂, heq⟩ := hQ
  obtain ⟨rfl, rfl⟩ := Element.eq_of_group_eq hb helement₂ helement₁ heq
  constructor
  · rw [hreads₁.X_eq, hreads₂.X_eq]
    ring
  · rw [hreads₁.U_eq, hreads₂.U_eq]
    ring

/-- Equal fractions stand for one element. -/
theorem Denotes.unique {P Q : Fractions K} {g h : (curve b).Point} (hP : P.Denotes b g)
    (hQ : Q.Denotes b h) (hx : P.X * Q.Z = Q.X * P.Z) (hu : P.U * Q.T = Q.U * P.T) : g = h := by
  obtain ⟨x₁, u₁, hreads₁, -, rfl⟩ := hP
  obtain ⟨x₂, u₂, hreads₂, -, rfl⟩ := hQ
  have hx' : x₁ = x₂ := by
    apply mul_right_cancel₀ (mul_ne_zero hreads₁.Z_ne_zero hreads₂.Z_ne_zero)
    rw [hreads₁.X_eq, hreads₂.X_eq] at hx
    linear_combination hx
  have hu' : u₁ = u₂ := by
    apply mul_right_cancel₀ (mul_ne_zero hreads₁.T_ne_zero hreads₂.T_ne_zero)
    rw [hreads₁.U_eq, hreads₂.U_eq] at hu
    linear_combination hu
  rw [hx', hu']

/-- The element of no `u` is the neutral one. -/
theorem Denotes.ne_zero (hb : Suitable b) {P : Fractions K} {g : (curve b).Point}
    (hP : P.Denotes b g) (hU : P.U ≠ 0) : g ≠ 0 := by
  obtain ⟨x, u, hreads, helement, rfl⟩ := hP
  intro hzero
  rw [← group_neutral hb] at hzero
  obtain ⟨-, rfl⟩ := Element.eq_of_group_eq hb helement (element_neutral b) hzero
  exact hU (by rw [hreads.U_eq, zero_mul])

/-- No element but the neutral one is its own inverse. -/
theorem Denotes.two_nsmul_ne_zero (hb : Suitable b) {P : Fractions K} {g : (curve b).Point}
    (hP : P.Denotes b g) (hg : g ≠ 0) : 2 • g ≠ 0 := by
  obtain ⟨x, u, hreads, helement, rfl⟩ := hP
  intro hzero
  have hneg : group b x (-u) = group b x u := by
    rw [helement.group_neg hb, neg_eq_iff_add_eq_zero, ← two_nsmul]
    exact hzero
  obtain ⟨-, hu⟩ := Element.eq_of_group_eq hb helement.neg helement hneg
  have hu0 : u = 0 := by
    apply mul_left_cancel₀ hb.two_ne_zero
    linear_combination -hu
  obtain ⟨hx, heq⟩ | ⟨rfl, rfl⟩ := helement
  · exact u_ne_zero (ne_zero_of_not_isSquare hx) heq hu0
  · exact hg (group_neutral hb)

end Fractions

end Digdigdig3.DoubleOdd
