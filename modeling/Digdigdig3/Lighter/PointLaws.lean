import Digdigdig3.Lighter.WindowedMul
import Digdigdig3.Lighter.PointDecode

/-!
# The addition formulas together

`set_add`, `set_double`, `set_mdouble`, `set_add_affine` and `set_neg` of
`crates/digdigdig3/src/l3/open/crypto/dex/lighter/crypto/ecgfp5.rs`, compared with each other by
`equals` and the `x`-coordinate.

* `formulasAgree_iff`: they agree for all elements; `to_point` lifts the neutral element only.
-/

namespace Digdigdig3.Lighter

open DoubleOdd

/-- The affine coordinates are those of an element of the group. -/
def PointAffine.IsElement (p : PointAffine) : Prop := ∃ g, p.Denotes g

theorem PointAffine.eq_neutral {p : PointAffine} (hx : p.x = .zero) (hu : p.u = .zero) :
    p = PointAffine.neutral := by
  cases p
  simp only at hx hu
  rw [hx, hu]
  rfl

namespace Point

/-- `set_neg` (lines 141–143). -/
def setNeg (P : Point) : Point := { P with U := -P.U }

/-- Equal for `equals`, with one `x`-coordinate. -/
def Coincide (P Q : Point) : Prop := P.equals Q = 2 ^ 64 - 1 ∧ P.X * Q.Z = Q.X * P.Z

theorem coincide_iff_same {P Q : Point} : P.Coincide Q ↔ P.Same Q := by
  have hmask : P.equals Q = 2 ^ 64 - 1 ↔ P.U * Q.T = Q.U * P.T := by
    rw [equals, GFp5.equals_eq]
    split_ifs with h
    · exact iff_of_true rfl h
    · exact iff_of_false (by decide) h
  rw [Coincide, hmask, Same, and_comm]

theorem Denotes.coincide {P Q : Point} {g : Group} (hP : P.Denotes g) (hQ : Q.Denotes g) :
    P.Coincide Q := coincide_iff_same.mpr (hP.same hQ)

theorem Denotes.setNeg {P : Point} {g : Group} (hP : P.Denotes g) : P.setNeg.Denotes (-g) := by
  have hfractions : P.setNeg.fractions = P.fractions.neg := by
    simp [fractions, Point.setNeg, Fractions.neg]
  rw [Denotes, hfractions]
  exact Fractions.Denotes.neg suitable hP

/-- The affine coordinates with denominators of one. -/
def lift (p : PointAffine) : Point := ⟨p.x, .one, p.u, .one⟩

theorem lift_denotes {p : PointAffine} {g : Group} (hp : p.Denotes g) : (lift p).Denotes g := by
  have hone : GFp5.one.toQuintic ≠ 0 := by
    rw [GFp5.toQuintic_one]
    exact one_ne_zero
  refine ⟨_, _, ⟨hone, hone, ?_, ?_⟩, hp.1, hp.2⟩
  · show p.x.toQuintic = p.x.toQuintic * GFp5.one.toQuintic
    rw [GFp5.toQuintic_one, mul_one]
  · show p.u.toQuintic = p.u.toQuintic * GFp5.one.toQuintic
    rw [GFp5.toQuintic_one, mul_one]

/-- The formulas agree on `P`, `Q`, `p` and `n`, and the results are elements again. -/
structure FormulasAgree (P Q : Point) (p : PointAffine) (n : ℕ) : Prop where
  element : (P.setAdd Q).IsElement
  comm : (P.setAdd Q).Coincide (Q.setAdd P)
  identity : (P.setAdd neutral).Coincide P
  inverse : (P.setAdd P.setNeg).Coincide neutral
  double : P.setDouble.Coincide (P.setAdd P)
  affine : (P.setAddAffine p).Coincide (P.setAdd p.toPoint)
  mdouble : (P.setMdouble n).Coincide ((fun R : Point => R.setAdd R)^[n] P)

theorem iterate_add_self_denotes {P : Point} {g : Group} (hP : P.Denotes g) (n : ℕ) :
    ((fun R : Point => R.setAdd R)^[n] P).Denotes (2 ^ n • g) := by
  rw [← iterate_two_nsmul]
  induction n with
  | zero => exact hP
  | succ n ih =>
    rw [Function.iterate_succ_apply', Function.iterate_succ_apply', two_nsmul]
    exact ih.setAdd ih

/-- What is lifted is neutral, so the two sums agree where the affine entry is. -/
theorem affine_iff {P : Point} {p : PointAffine} {g h : Group} (hP : P.Denotes g)
    (hp : p.Denotes h) :
    (P.setAddAffine p).Coincide (P.setAdd p.toPoint) ↔ p = PointAffine.neutral := by
  have hlifted : (P.setAdd p.toPoint).Denotes (g + 0) := by
    rw [hp.toPoint_eq]
    exact hP.setAdd denotes_neutral
  constructor
  · intro hsame
    have hsum := (hP.setAddAffine hp).unique hlifted (coincide_iff_same.mp hsame)
    have hzero : h = 0 := add_left_cancel hsum
    obtain ⟨hx, hu⟩ := Element.eq_of_group_eq suitable hp.1 (element_neutral curveB)
      (hp.2.trans (hzero.trans (group_neutral suitable).symm))
    rw [GFp5.toQuintic_eq_zero] at hx hu
    exact PointAffine.eq_neutral hx hu
  · rintro rfl
    have hneutral : (P.setAddAffine PointAffine.neutral).Denotes (g + 0) :=
      hP.setAddAffine PointAffine.denotes_neutral
    exact hneutral.coincide hlifted

/-- For all elements the formulas agree; the affine sum is that with the lifted point `(x:1:u:1)`,
    and `to_point` makes this point of the neutral entry only. -/
theorem formulasAgree_iff {P Q : Point} {p : PointAffine} (hP : P.IsElement) (hQ : Q.IsElement)
    (hp : p.IsElement) (n : ℕ) :
    (FormulasAgree P Q p n ↔ p = PointAffine.neutral) ∧
      (P.setAddAffine p).Coincide (P.setAdd (lift p)) := by
  obtain ⟨g, hP⟩ := hP
  obtain ⟨h, hQ⟩ := hQ
  obtain ⟨k, hp⟩ := hp
  refine ⟨⟨fun hagree => (affine_iff hP hp).mp hagree.affine, fun hneutral => ?_⟩,
    (hP.setAddAffine hp).coincide (hP.setAdd (lift_denotes hp))⟩
  have hcomm := hQ.setAdd hP
  have hidentity := hP.setAdd denotes_neutral
  have hinverse := hP.setAdd hP.setNeg
  have hdouble := hP.setDouble
  rw [add_comm] at hcomm
  rw [add_zero] at hidentity
  rw [add_neg_cancel] at hinverse
  rw [two_nsmul] at hdouble
  exact ⟨⟨_, hP.setAdd hQ⟩, (hP.setAdd hQ).coincide hcomm, hidentity.coincide hP,
    hinverse.coincide denotes_neutral, hdouble.coincide (hP.setAdd hP),
    (affine_iff hP hp).mpr hneutral, (hP.setMdouble n).coincide (iterate_add_self_denotes hP n)⟩

/-- The generator in affine coordinates. -/
def generatorAffine : PointAffine := ⟨generator.X, generator.U⟩

theorem generatorAffine_denotes : ∃ g, generatorAffine.Denotes g :=
  ⟨_, Or.inl ⟨generator_not_square, generator_equation⟩, rfl⟩

theorem formulasAgree_generator :
    generator.IsElement ∧ generatorAffine.IsElement ∧
      (FormulasAgree generator generator generatorAffine 2 ↔
        generatorAffine = PointAffine.neutral) ∧
      (generator.setAddAffine generatorAffine).Coincide (generator.setAdd (lift generatorAffine)) :=
  ⟨exists_generator_denotes, generatorAffine_denotes,
    formulasAgree_iff exists_generator_denotes exists_generator_denotes generatorAffine_denotes 2⟩

/-- The generator, with itself as affine entry. -/
theorem not_formulasAgree : ¬FormulasAgree generator generator generatorAffine 2 := by
  intro h
  obtain ⟨g, hg⟩ := exists_generator_denotes
  obtain ⟨k, hk⟩ := generatorAffine_denotes
  have hneutral := (affine_iff hg hk).mp h.affine
  exact absurd (congrArg PointAffine.u hneutral) (by decide)

end Point

end Digdigdig3.Lighter
