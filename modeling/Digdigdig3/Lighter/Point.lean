import Mathlib.Tactic
import Digdigdig3.Lib.DoubleOdd
import Digdigdig3.Lighter.QuinticField

/-!
# `Point`: the group of the curve

`Point` of `crates/digdigdig3/src/l3/open/crypto/dex/lighter/crypto/ecgfp5.rs`: an element of the
double-odd curve `y^2 = x * (x^2 + 2 * x + 263 * z)` in fractional coordinates.

* `Denotes.setAdd`, `Denotes.setDouble`, `Denotes.setMdouble`, `Denotes.setAddAffine`: each
  operation is that of the group of the curve.
* `Denotes.same`, `Denotes.unique`: equal fractions are equal elements.
-/

namespace Digdigdig3.Lighter

open DoubleOdd

/-- `Point` (lines 21–26): `x = X / Z` and `u = U / T`. -/
structure Point where
  X : GFp5
  Z : GFp5
  U : GFp5
  T : GFp5

/-- `PointAffine` (lines 289–292). -/
structure PointAffine where
  x : GFp5
  u : GFp5

/-- The fractions in the field. -/
noncomputable def Point.fractions (P : Point) : Fractions Quintic :=
  ⟨P.X.toQuintic, P.Z.toQuintic, P.U.toQuintic, P.T.toQuintic⟩

/-- The curve of the group. -/
noncomputable abbrev Group := (curve curveB).Point

noncomputable instance : DecidableEq Quintic := Classical.decEq _

/-- The coordinates are those of this element of the group. -/
def Point.Denotes (P : Point) (g : Group) : Prop := P.fractions.Denotes curveB g

/-- The coordinates are those of an element of the group. -/
def Point.IsElement (P : Point) : Prop := ∃ g, P.Denotes g

/-- The affine coordinates are those of this element of the group. -/
def PointAffine.Denotes (p : PointAffine) (g : Group) : Prop :=
  Element curveB p.x.toQuintic p.u.toQuintic ∧ group curveB p.x.toQuintic p.u.toQuintic = g

/-- Equal `x` and equal `u`, as fractions. -/
def Point.Same (P Q : Point) : Prop := P.X * Q.Z = Q.X * P.Z ∧ P.U * Q.T = Q.U * P.T

/-! ## Operations -/

namespace Point

/-- `B1` (line 33). -/
def b1 : UInt32 := 263

/-- `NEUTRAL` (lines 39–44). -/
def neutral : Point := ⟨.zero, .one, .zero, .one⟩

/-- `set_add` (lines 101–118). -/
def setAdd (P rhs : Point) : Point :=
  let t1 := P.X * rhs.X
  let t2 := P.Z * rhs.Z
  let t3 := P.U * rhs.U
  let t4 := P.T * rhs.T
  let t5 := (P.X + P.Z) * (rhs.X + rhs.Z) - t1 - t2
  let t6 := (P.U + P.T) * (rhs.U + rhs.T) - t3 - t4
  let t7 := t1 + t2.mulSmallK1 b1
  let t8 := t4 * t7
  let t9 := t3 * (t5.mulSmallK1 (2 * b1) + t7.double)
  let t10 := (t4 + t3.double) * (t5 + t7)
  ⟨(t10 - t8).mulSmallK1 b1, t8 - t9, t6 * (t2.mulSmallK1 b1 - t1), t8 + t9⟩

/-- `set_add_affine` (lines 121–138). -/
def setAddAffine (P : Point) (rhs : PointAffine) : Point :=
  let t1 := P.X * rhs.x
  let t2 := P.Z
  let t3 := P.U * rhs.u
  let t4 := P.T
  let t5 := P.X + rhs.x * P.Z
  let t6 := P.U + rhs.u * P.T
  let t7 := t1 + t2.mulSmallK1 b1
  let t8 := t4 * t7
  let t9 := t3 * (t5.mulSmallK1 (2 * b1) + t7.double)
  let t10 := (t4 + t3.double) * (t5 + t7)
  ⟨(t10 - t8).mulSmallK1 b1, t8 - t9, t6 * (t2.mulSmallK1 b1 - t1), t8 + t9⟩

/-- `set_double` (lines 146–159). -/
def setDouble (P : Point) : Point :=
  let t1 := P.Z * P.T
  let t2 := t1 * P.T
  let x1 := t2.square
  let z1 := t1 * P.U
  let t3 := P.U.square
  let w1 := t2 - (P.X + P.Z).double * t3
  let t4 := z1.square
  let Z := w1.square
  ⟨t4.mulSmallK1 (4 * b1), Z, (w1 + z1).square - t4 - Z, x1.double - t4.mulSmall 4 - Z⟩

/-- `set_mdouble` (lines 168–180). -/
def setMdouble (P : Point) (n : ℕ) : Point := if n = 0 then P else setDouble^[n - 1] P.setDouble

end Point

/-! ## The operations in the field -/

theorem base_b1 : Quintic.base (Point.b1.toNat : ZMod modulus) * Quintic.z = curveB := by
  have h : Point.b1.toNat = 263 := by decide
  rw [h, curveB, Nat.cast_ofNat]

theorem base_ofNat (n : ℕ) [n.AtLeastTwo] :
    Quintic.base (OfNat.ofNat n : ZMod modulus) = OfNat.ofNat n := map_ofNat _ n

theorem toQuintic_mul_b1 (x : GFp5) :
    (x.mulSmallK1 Point.b1).toQuintic = curveB * x.toQuintic := by
  rw [GFp5.toQuintic_mulSmallK1 x (by decide), base_b1, mul_comm]

theorem toQuintic_mul_two_b1 (x : GFp5) :
    (x.mulSmallK1 (2 * Point.b1)).toQuintic = 2 * curveB * x.toQuintic := by
  have h : (2 * Point.b1).toNat = 2 * Point.b1.toNat := by decide
  rw [GFp5.toQuintic_mulSmallK1 x (by decide), ← base_b1, h, Nat.cast_mul, Nat.cast_ofNat, map_mul,
    base_ofNat]
  ring

theorem toQuintic_mul_four_b1 (x : GFp5) :
    (x.mulSmallK1 (4 * Point.b1)).toQuintic = 4 * curveB * x.toQuintic := by
  have h : (4 * Point.b1).toNat = 4 * Point.b1.toNat := by decide
  rw [GFp5.toQuintic_mulSmallK1 x (by decide), ← base_b1, h, Nat.cast_mul, Nat.cast_ofNat, map_mul,
    base_ofNat]
  ring

theorem toQuintic_mulSmall_four (x : GFp5) : (x.mulSmall 4).toQuintic = 4 * x.toQuintic := by
  have h : (4 : UInt32).toNat = 4 := by decide
  rw [GFp5.toQuintic_mulSmall, h, Nat.cast_ofNat, base_ofNat, mul_comm]

namespace Point

theorem fractions_neutral : neutral.fractions = Fractions.neutral := by
  simp [fractions, neutral, Fractions.neutral]

theorem fractions_setAdd (P Q : Point) :
    (P.setAdd Q).fractions = Fractions.add curveB P.fractions Q.fractions := by
  simp only [fractions, setAdd, Fractions.add, GFp5.toQuintic_add, GFp5.toQuintic_sub,
    GFp5.toQuintic_mul, GFp5.toQuintic_double, toQuintic_mul_b1, toQuintic_mul_two_b1]

/-- The affine addition is the addition with denominators of one. -/
theorem fractions_setAddAffine (P : Point) (p : PointAffine) :
    (P.setAddAffine p).fractions =
      Fractions.add curveB P.fractions ⟨p.x.toQuintic, 1, p.u.toQuintic, 1⟩ := by
  simp only [fractions, setAddAffine, Fractions.add, GFp5.toQuintic_add, GFp5.toQuintic_sub,
    GFp5.toQuintic_mul, GFp5.toQuintic_double, toQuintic_mul_b1, toQuintic_mul_two_b1,
    Fractions.mk.injEq]
  refine ⟨?_, ?_, ?_, ?_⟩ <;> ring

theorem fractions_setDouble (P : Point) :
    P.setDouble.fractions = Fractions.double curveB P.fractions := by
  simp only [fractions, setDouble, Fractions.double, GFp5.toQuintic_add, GFp5.toQuintic_sub,
    GFp5.toQuintic_mul, GFp5.toQuintic_double, GFp5.toQuintic_square, toQuintic_mul_four_b1,
    toQuintic_mulSmall_four]

/-! ## The operations in the group -/

theorem denotes_neutral : neutral.Denotes 0 := by
  rw [Denotes, fractions_neutral]
  exact Fractions.denotes_neutral suitable

theorem Denotes.setAdd {P Q : Point} {g h : Group} (hP : P.Denotes g) (hQ : Q.Denotes h) :
    (P.setAdd Q).Denotes (g + h) := by
  rw [Denotes, fractions_setAdd]
  exact Fractions.Denotes.add suitable hP hQ

theorem Denotes.setAddAffine {P : Point} {p : PointAffine} {g h : Group} (hP : P.Denotes g)
    (hp : p.Denotes h) : (P.setAddAffine p).Denotes (g + h) := by
  rw [Denotes, fractions_setAddAffine]
  refine Fractions.Denotes.add suitable hP ⟨_, _, ⟨one_ne_zero, one_ne_zero, ?_, ?_⟩, hp.1, hp.2⟩
  · exact (mul_one _).symm
  · exact (mul_one _).symm

theorem Denotes.setDouble {P : Point} {g : Group} (hP : P.Denotes g) :
    P.setDouble.Denotes (2 • g) := by
  rw [Denotes, fractions_setDouble, two_nsmul]
  exact Fractions.Denotes.double suitable hP

theorem iterate_two_nsmul {G : Type*} [AddCommGroup G] (n : ℕ) (g : G) :
    (fun g : G => 2 • g)^[n] g = 2 ^ n • g := by
  induction n with
  | zero => simp
  | succ n ih => rw [Function.iterate_succ_apply', ih, pow_succ', mul_nsmul']

theorem Denotes.iterate_setDouble {P : Point} {g : Group} (hP : P.Denotes g) (n : ℕ) :
    (Point.setDouble^[n] P).Denotes ((fun g : Group => 2 • g)^[n] g) := by
  induction n with
  | zero => exact hP
  | succ n ih =>
    rw [Function.iterate_succ_apply', Function.iterate_succ_apply']
    exact ih.setDouble

theorem Denotes.setMdouble {P : Point} {g : Group} (hP : P.Denotes g) (n : ℕ) :
    (P.setMdouble n).Denotes (2 ^ n • g) := by
  rw [← iterate_two_nsmul]
  cases n with
  | zero => exact hP
  | succ n => exact hP.iterate_setDouble (n + 1)

/-- One element has one pair of fractions. -/
theorem Denotes.same {P Q : Point} {g : Group} (hP : P.Denotes g) (hQ : Q.Denotes g) :
    P.Same Q := by
  obtain ⟨hx, hu⟩ := Fractions.Denotes.same suitable hP hQ
  constructor
  · apply GFp5.toQuintic_injective
    rw [GFp5.toQuintic_mul, GFp5.toQuintic_mul]
    exact hx
  · apply GFp5.toQuintic_injective
    rw [GFp5.toQuintic_mul, GFp5.toQuintic_mul]
    exact hu

/-- Equal fractions denote one element. -/
theorem Denotes.unique {P Q : Point} {g h : Group} (hP : P.Denotes g) (hQ : Q.Denotes h)
    (hsame : P.Same Q) : g = h := by
  have hx := congrArg GFp5.toQuintic hsame.1
  have hu := congrArg GFp5.toQuintic hsame.2
  rw [GFp5.toQuintic_mul, GFp5.toQuintic_mul] at hx hu
  exact Fractions.Denotes.unique hP hQ hx hu

end Point

end Digdigdig3.Lighter
