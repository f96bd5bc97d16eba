import Digdigdig3.Lighter.Point
import Digdigdig3.Lighter.QuinticRoots

/-!
# Points as elements of `GFp5`

`encode`, `validate` and `decode` of
`crates/digdigdig3/src/l3/open/crypto/dex/lighter/crypto/ecgfp5.rs`: a point is written as
`w = y / x = 1 / u`, and read by a quadratic equation for `x`, whose two roots make `b`.

* `validate_eq`, `decode_of_isSquare`, `decode_of_not_isSquare`: what is accepted, and as what.
* `decode_encode`: every element of the group is read back.
-/

namespace Digdigdig3.Lighter

open DoubleOdd

/-! ## A quadratic equation -/

section Quadratic

variable {K : Type*} [Field K] {b : K}

/-- The discriminant of `x^2 - e x + b` is not zero, as `b` is no square. -/
theorem disc_ne_zero (hb : Suitable b) (e : K) : e ^ 2 - 4 * b ≠ 0 := by
  intro h
  apply hb.b_not_square
  refine ⟨e / 2, ?_⟩
  have h2 := hb.two_ne_zero
  field_simp
  linear_combination -h

/-- The roots of `x^2 - (w^2 - 2) x + b` that are no squares belong to elements with `u = 1 / w`. -/
theorem element_of_root {w x : K} (hw : w ≠ 0) (hx : ¬IsSquare x)
    (hroot : x ^ 2 - (w ^ 2 - 2) * x + b = 0) : Element b x w⁻¹ := by
  refine Or.inl ⟨hx, ?_⟩
  have hquad : quad b x = x * w ^ 2 := by
    unfold quad
    linear_combination hroot
  rw [hquad]
  field_simp

/-- An element that is not neutral solves the equation of its `w`. -/
theorem root_of_element {x u : K} (hx : x ≠ 0) (heq : u ^ 2 * quad b x = x) :
    x ^ 2 - ((u⁻¹) ^ 2 - 2) * x + b = 0 := by
  have hu := u_ne_zero hx heq
  have hquad : quad b x = x * (u⁻¹) ^ 2 := by
    field_simp
    linear_combination heq
  unfold quad at hquad
  linear_combination hquad

theorem disc_of_root {e x : K} (h : x ^ 2 - e * x + b = 0) : IsSquare (e ^ 2 - 4 * b) := by
  refine ⟨2 * x - e, ?_⟩
  linear_combination -4 * h

/-- Of two numbers that make `b`, one is a square. -/
theorem square_or_square (hb : Suitable b) {x y : K} (h : x * y = b) :
    IsSquare x ↔ ¬IsSquare y := by
  constructor
  · rintro hx hy
    exact hb.b_not_square (h ▸ hx.mul hy)
  · intro hy
    by_contra hx
    exact hb.b_not_square (h ▸ hb.mul_square x y hx hy)

/-- One root is no square. -/
theorem root_unique (hb : Suitable b) {e x y : K} (hx : ¬IsSquare x) (hy : ¬IsSquare y)
    (hxroot : x ^ 2 - e * x + b = 0) (hyroot : y ^ 2 - e * y + b = 0) : x = y := by
  by_contra hne
  have hsum : x + y = e := by
    apply mul_left_cancel₀ (sub_ne_zero.mpr hne)
    linear_combination hxroot - hyroot
  have hprod : x * y = b := by linear_combination x * hsum - hxroot
  exact hx ((square_or_square hb hprod).mpr hy)

end Quadratic

namespace Point

/-! ## Reading and writing -/

/-- `A` (line 29). -/
def a : GFp5 := .fromU64Reduce 2 0 0 0 0

/-- `B_MUL4` (line 36). -/
def bMul4 : GFp5 := .fromU64Reduce 0 (4 * 263) 0 0 0

/-- `encode` (lines 68–71). -/
def encode (P : Point) : GFp5 := P.T * P.U.invert

/-- `validate` (lines 75–80). -/
def validate (w : GFp5) : ℕ :=
  let e := w.square - a
  let delta := e.square - bMul4
  w.iszero ||| delta.legendre.isone

/-- `decode` (lines 84–98). -/
def decode (w : GFp5) : Point × ℕ :=
  let e := w.square - a
  let delta := e.square - bMul4
  let rc := delta.sqrt
  let x1 := (e + rc.1).half
  let x2 := (e - rc.1).half
  let x := GFp5.select x1.legendre.isone x1 x2
  (⟨.select rc.2 .zero x, .one, .select rc.2 .zero .one, .select rc.2 .one w⟩, rc.2 ||| w.iszero)

/-- `equals` (lines 257–260). -/
def equals (P rhs : Point) : ℕ := (P.U * rhs.T).equals (rhs.U * P.T)

/-! ## What is accepted -/

/-- `e` of `w`. -/
def trace (w : GFp5) : GFp5 := w.square - a

/-- `delta` of `w`. -/
def disc (w : GFp5) : GFp5 := (trace w).square - bMul4

theorem toQuintic_trace (w : GFp5) : (trace w).toQuintic = w.toQuintic ^ 2 - 2 := by
  have ha : a.toQuintic = Quintic.base 2 := by
    simp [a, GFp5.toQuintic_eq, GFp5.fromU64Reduce]
  rw [trace, GFp5.toQuintic_sub, GFp5.toQuintic_square, ha, base_ofNat]

theorem toQuintic_disc (w : GFp5) :
    (disc w).toQuintic = (w.toQuintic ^ 2 - 2) ^ 2 - 4 * curveB := by
  have hb : bMul4.toQuintic = Quintic.base (4 * 263 : ℕ) * Quintic.z := by
    simp [bMul4, GFp5.toQuintic_eq, GFp5.fromU64Reduce]
  have hmul : Quintic.base (4 * 263 : ℕ) * Quintic.z = 4 * curveB := by
    rw [curveB, Nat.cast_mul, map_mul, Nat.cast_ofNat, Nat.cast_ofNat, base_ofNat]
    ring
  rw [disc, GFp5.toQuintic_sub, GFp5.toQuintic_square, toQuintic_trace, hb, hmul]

theorem disc_ne (w : GFp5) : disc w ≠ .zero := by
  intro h
  apply disc_ne_zero suitable (w.toQuintic ^ 2 - 2)
  rw [← toQuintic_disc, h, GFp5.toQuintic_zero]

/-- For `w = 0` the discriminant is no square. -/
theorem ne_zero_of_disc {w : GFp5} (h : IsSquare (disc w).toQuintic) : w ≠ .zero := by
  rintro rfl
  rw [toQuintic_disc, GFp5.toQuintic_zero] at h
  apply suitable.one_sub_b_not_square
  obtain ⟨r, hr⟩ := h
  refine ⟨r / 2, ?_⟩
  have h2 := two_ne_zero_quintic
  field_simp
  linear_combination hr

theorem validate_of_isSquare {w : GFp5} (h : IsSquare (disc w).toQuintic) :
    validate w = 2 ^ 64 - 1 := by
  show w.iszero ||| (disc w).legendre.isone = _
  rw [GFp5.legendre_of_isSquare (disc_ne w) h, GFp5.iszero_of_ne (ne_zero_of_disc h), GFp.isone,
    GFp.equals_eq, if_pos rfl, Nat.zero_or]

theorem validate_of_not_isSquare {w : GFp5} (h : ¬IsSquare (disc w).toQuintic) :
    validate w = w.iszero := by
  have hne : GFp.minusOne ≠ GFp.one := by decide
  show w.iszero ||| (disc w).legendre.isone = _
  rw [GFp5.legendre_of_not_isSquare h, GFp.isone, GFp.equals_eq, if_neg hne, Nat.or_zero]

/-! ## What is read -/

theorem decode_eq (w : GFp5) :
    decode w = (⟨.select (disc w).sqrt.2 .zero (.select
      ((trace w + (disc w).sqrt.1).half.legendre.isone) (trace w + (disc w).sqrt.1).half
      (trace w - (disc w).sqrt.1).half), .one, .select (disc w).sqrt.2 .zero .one,
      .select (disc w).sqrt.2 .one w⟩, (disc w).sqrt.2 ||| w.iszero) := rfl

/-- The two roots that are made of a square root of the discriminant. -/
theorem half_roots {w r : GFp5}
    (hroot : r.toQuintic ^ 2 = (w.toQuintic ^ 2 - 2) ^ 2 - 4 * curveB) :
    (trace w + r).half.toQuintic * (trace w - r).half.toQuintic = curveB ∧
      (trace w + r).half.toQuintic + (trace w - r).half.toQuintic = w.toQuintic ^ 2 - 2 := by
  have hx1 := (trace w + r).two_mul_half
  have hx2 := (trace w - r).two_mul_half
  rw [GFp5.toQuintic_add, toQuintic_trace] at hx1
  rw [GFp5.toQuintic_sub, toQuintic_trace] at hx2
  have h4 : (4 : Quintic) ≠ 0 := by
    have hsplit : (4 : Quintic) = 2 * 2 := by norm_num
    rw [hsplit]
    exact mul_ne_zero two_ne_zero_quintic two_ne_zero_quintic
  constructor
  · apply mul_left_cancel₀ h4
    linear_combination 2 * (trace w - r).half.toQuintic * hx1 +
      (w.toQuintic ^ 2 - 2 + r.toQuintic) * hx2 - hroot
  · apply mul_left_cancel₀ two_ne_zero_quintic
    linear_combination hx1 + hx2

/-- The root that is no square, for a discriminant that is one. -/
theorem exists_root {w : GFp5} (h : IsSquare (disc w).toQuintic) :
    ∃ x : GFp5, decode w = (⟨x, .one, .one, w⟩, 2 ^ 64 - 1) ∧ ¬IsSquare x.toQuintic ∧
      x.toQuintic ^ 2 - (w.toQuintic ^ 2 - 2) * x.toQuintic + curveB = 0 := by
  obtain ⟨hmask, hroot⟩ := GFp5.sqrt_of_isSquare h
  rw [toQuintic_disc] at hroot
  obtain ⟨hprod, hsum⟩ := half_roots hroot
  rw [decode_eq, hmask, GFp5.select_ones, GFp5.select_ones, GFp5.select_ones,
    GFp5.iszero_of_ne (ne_zero_of_disc h), Nat.or_zero]
  generalize (trace w + (disc w).sqrt.1).half = x1 at *
  generalize (trace w - (disc w).sqrt.1).half = x2 at *
  have hne : x1 ≠ .zero := by
    rintro rfl
    rw [GFp5.toQuintic_zero, zero_mul] at hprod
    exact suitable.b_ne_zero hprod.symm
  by_cases hsquare : IsSquare x1.toQuintic
  · refine ⟨x2, ?_, ?_, ?_⟩
    · rw [GFp5.legendre_of_isSquare hne hsquare, GFp.isone, GFp.equals_eq, if_pos rfl,
        GFp5.select_ones]
    · exact (square_or_square suitable hprod).mp hsquare
    · linear_combination x2.toQuintic * hsum - hprod
  · have hminus : GFp.minusOne ≠ GFp.one := by decide
    refine ⟨x1, ?_, hsquare, ?_⟩
    · rw [GFp5.legendre_of_not_isSquare hsquare, GFp.isone, GFp.equals_eq, if_neg hminus,
        GFp5.select_zero]
    · linear_combination x1.toQuintic * hsum - hprod

theorem decode_of_not_isSquare {w : GFp5} (h : ¬IsSquare (disc w).toQuintic) :
    decode w = (neutral, w.iszero) := by
  rw [decode_eq, GFp5.sqrt_of_not_isSquare h, GFp5.select_zero, GFp5.select_zero, GFp5.select_zero,
    Nat.zero_or]
  rfl

theorem decode_zero : decode .zero = (neutral, 2 ^ 64 - 1) := by
  have hnot : ¬IsSquare (disc GFp5.zero).toQuintic := fun h => ne_zero_of_disc h rfl
  rw [decode_of_not_isSquare hnot, GFp5.iszero_zero]

/-! ## There and back -/

theorem toQuintic_encode (P : Point) :
    P.encode.toQuintic = P.T.toQuintic * (P.U.toQuintic)⁻¹ := by
  rw [encode, GFp5.toQuintic_mul, GFp5.toQuintic_invert]

theorem encode_neutral : neutral.encode = .zero := by
  apply GFp5.toQuintic_injective
  rw [toQuintic_encode, GFp5.toQuintic_zero]
  show _ * (GFp5.zero.toQuintic)⁻¹ = 0
  rw [GFp5.toQuintic_zero, inv_zero, mul_zero]

/-- Both ends of an accepted `w` with a root. -/
theorem decode_root {w x : GFp5} (h : decode w = (⟨x, .one, .one, w⟩, 2 ^ 64 - 1))
    (hw : w ≠ .zero) (hx : ¬IsSquare x.toQuintic)
    (hroot : x.toQuintic ^ 2 - (w.toQuintic ^ 2 - 2) * x.toQuintic + curveB = 0) :
    (decode w).1.Denotes (group curveB x.toQuintic (w.toQuintic)⁻¹) := by
  have hne : w.toQuintic ≠ 0 := mt GFp5.toQuintic_eq_zero.mp hw
  rw [h]
  refine ⟨x.toQuintic, (w.toQuintic)⁻¹, ⟨?_, hne, ?_, ?_⟩,
    element_of_root hne hx hroot, rfl⟩
  · show GFp5.one.toQuintic ≠ 0
    rw [GFp5.toQuintic_one]
    exact one_ne_zero
  · show x.toQuintic = x.toQuintic * GFp5.one.toQuintic
    rw [GFp5.toQuintic_one, mul_one]
  · show GFp5.one.toQuintic = (w.toQuintic)⁻¹ * w.toQuintic
    rw [GFp5.toQuintic_one, inv_mul_cancel₀ hne]

/-- Every element of the group is accepted, and read as itself. -/
theorem decode_encode {P : Point} {g : Group} (hP : P.Denotes g) :
    (decode P.encode).2 = 2 ^ 64 - 1 ∧ (decode P.encode).1.Denotes g := by
  obtain ⟨x, u, hreads, helement, rfl⟩ := hP
  have hencode : P.encode.toQuintic = u⁻¹ := by
    have hU : P.U.toQuintic = u * P.T.toQuintic := hreads.U_eq
    have hT : P.T.toQuintic ≠ 0 := hreads.T_ne_zero
    rw [toQuintic_encode, hU, mul_inv, mul_left_comm, mul_inv_cancel₀ hT, mul_one]
  obtain ⟨hx, heq⟩ | ⟨rfl, rfl⟩ := helement
  · have hroot := root_of_element (ne_zero_of_not_isSquare hx) heq
    rw [← hencode] at hroot
    have hsquare : IsSquare (disc P.encode).toQuintic := by
      rw [toQuintic_disc]
      exact disc_of_root hroot
    obtain ⟨x', hdecode, hx', hroot'⟩ := exists_root hsquare
    have hsame := root_unique suitable hx' hx hroot' hroot
    have hdenotes := decode_root hdecode (ne_zero_of_disc hsquare) hx' hroot'
    rw [hsame, hencode, inv_inv] at hdenotes
    exact ⟨congrArg Prod.snd hdecode, hdenotes⟩
  · have hzero : P.encode = .zero := by
      rw [← GFp5.toQuintic_eq_zero, hencode, inv_zero]
    rw [hzero, decode_zero, group_neutral suitable]
    exact ⟨rfl, denotes_neutral⟩

/-! ## All of it -/

/-- The square root of `x`, the reading of `w`, and the reading of every point. -/
structure Decodes (x w : GFp5) : Prop where
  sqrt_mask : x.sqrt.2 = 2 ^ 64 - 1 ↔ ∃ r : GFp5, r * r = x
  sqrt_root : (∃ r : GFp5, r * r = x) → x.sqrt.1 * x.sqrt.1 = x
  accepts : (decode w).2 = validate w
  mask : validate w = 2 ^ 64 - 1 ∨ validate w = 0
  neutral : w = .zero → validate w = 2 ^ 64 - 1 ∧ (decode w).1 = neutral
  element : validate w = 2 ^ 64 - 1 → (decode w).1.IsElement
  curve : validate w = 2 ^ 64 - 1 → w ≠ .zero →
    ∃ X : GFp5, (decode w).1 = ⟨X, .one, .one, w⟩ ∧ (¬∃ r : GFp5, r * r = X) ∧
      (w * X) * (w * X) = X * (X * X + X.double + .fromU64Reduce 0 263 0 0 0)
  encode : validate w = 2 ^ 64 - 1 → (decode w).1.encode = w
  decode_encode : ∀ P : Point, P.IsElement → (decode P.encode).2 = 2 ^ 64 - 1 ∧
    (decode P.encode).1.equals P = 2 ^ 64 - 1 ∧ (decode P.encode).1.Same P

theorem equals_of_same {P Q : Point} (h : P.Same Q) : P.equals Q = 2 ^ 64 - 1 := by
  rw [equals, GFp5.equals_eq, if_pos h.2]

theorem validate_eq_iff (w : GFp5) :
    validate w = 2 ^ 64 - 1 ↔ IsSquare (disc w).toQuintic ∨ w = .zero := by
  by_cases h : IsSquare (disc w).toQuintic
  · exact iff_of_true (validate_of_isSquare h) (Or.inl h)
  · rw [validate_of_not_isSquare h, GFp5.iszero_eq]
    constructor
    · intro hmask
      by_contra hw
      rw [if_neg fun hzero => hw (Or.inr hzero)] at hmask
      exact absurd hmask (by decide)
    · intro hw
      rw [if_pos (hw.resolve_left h)]

/-- The equation of the root is that of the curve. -/
theorem curve_of_root {w x : GFp5}
    (hroot : x.toQuintic ^ 2 - (w.toQuintic ^ 2 - 2) * x.toQuintic + curveB = 0) :
    (w * x) * (w * x) = x * (x * x + x.double + .fromU64Reduce 0 263 0 0 0) := by
  apply GFp5.toQuintic_injective
  simp only [GFp5.toQuintic_mul, GFp5.toQuintic_add, GFp5.toQuintic_double, ← curveB_eq]
  linear_combination -x.toQuintic * hroot

/-- For every element `x`, every `w` and every point. -/
theorem decodes_all (x w : GFp5) : Decodes x w where
  sqrt_mask := by
    rw [← GFp5.isSquare_toQuintic_iff]
    constructor
    · intro hmask
      by_contra h
      rw [GFp5.sqrt_of_not_isSquare h] at hmask
      exact absurd hmask (by decide)
    · exact fun h => (GFp5.sqrt_of_isSquare h).1
  sqrt_root := by
    rw [← GFp5.isSquare_toQuintic_iff]
    intro h
    apply GFp5.toQuintic_injective
    rw [GFp5.toQuintic_mul, ← sq, (GFp5.sqrt_of_isSquare h).2]
  accepts := by
    by_cases h : IsSquare (disc w).toQuintic
    · obtain ⟨X, hdecode, -⟩ := exists_root h
      rw [hdecode, validate_of_isSquare h]
    · rw [decode_of_not_isSquare h, validate_of_not_isSquare h]
  mask := by
    by_cases h : IsSquare (disc w).toQuintic
    · exact Or.inl (validate_of_isSquare h)
    · rw [validate_of_not_isSquare h, GFp5.iszero_eq]
      split_ifs
      · exact Or.inl rfl
      · exact Or.inr rfl
  neutral := by
    rintro rfl
    rw [validate_eq_iff, decode_zero]
    exact ⟨Or.inr rfl, rfl⟩
  element := by
    intro hvalid
    by_cases h : IsSquare (disc w).toQuintic
    · obtain ⟨X, hdecode, hX, hroot⟩ := exists_root h
      exact ⟨_, decode_root hdecode (ne_zero_of_disc h) hX hroot⟩
    · rw [decode_of_not_isSquare h]
      exact ⟨0, denotes_neutral⟩
  curve := by
    intro hvalid hw
    have h := ((validate_eq_iff w).mp hvalid).resolve_right hw
    obtain ⟨X, hdecode, hX, hroot⟩ := exists_root h
    exact ⟨X, congrArg Prod.fst hdecode, mt (GFp5.isSquare_toQuintic_iff X).mpr hX,
      curve_of_root hroot⟩
  encode := by
    intro hvalid
    by_cases h : IsSquare (disc w).toQuintic
    · obtain ⟨X, hdecode, -⟩ := exists_root h
      apply GFp5.toQuintic_injective
      rw [toQuintic_encode, hdecode]
      show w.toQuintic * (GFp5.one.toQuintic)⁻¹ = w.toQuintic
      rw [GFp5.toQuintic_one, inv_one, mul_one]
    · rw [decode_of_not_isSquare h, encode_neutral]
      exact (((validate_eq_iff w).mp hvalid).resolve_left h).symm
  decode_encode := by
    rintro P ⟨g, hP⟩
    obtain ⟨hmask, hdenotes⟩ := Point.decode_encode hP
    have hsame := hdenotes.same hP
    exact ⟨hmask, equals_of_same hsame, hsame⟩

end Point

end Digdigdig3.Lighter
