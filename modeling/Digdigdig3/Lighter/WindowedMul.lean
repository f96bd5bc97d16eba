import Mathlib.Tactic
import Digdigdig3.Lighter.Point
import Digdigdig3.Lighter.Recode

/-!
# Windowed scalar multiplication

`Point::mul` of `crates/digdigdig3/src/l3/open/crypto/dex/lighter/crypto/ecgfp5.rs`, from the
window of sixteen multiples and the signed digits of the scalar, beside plain double-and-add.

* `winLookup_denotes`: the window has the multiple for each digit.
* `toPoint_denotes`: `to_point` has its two cases the wrong way round and always gives the neutral
  element, so the highest digit is lost.
* `mul_denotes`: the product is that of the scalar without its highest digit.
-/

namespace Digdigdig3.Lighter

open DoubleOdd

/-! ## The window -/

namespace PointAffine

/-- `NEUTRAL` (lines 295–298). -/
def neutral : PointAffine := ⟨.zero, .zero⟩

/-- `to_point` (lines 300–309). -/
def toPoint (p : PointAffine) : Point :=
  let isNeutral := p.u.iszero
  ⟨GFp5.select isNeutral .zero p.x, .one, GFp5.select isNeutral .zero p.u, .one⟩

/-- The loop of `win_lookup` (lines 210–214), from entry `i` on. -/
def lookupFrom (idx : ℕ) : ℕ → List PointAffine → PointAffine → PointAffine
  | _, [], r => r
  | i, w :: win, r =>
    let mask := wrappingSub 0 (if i + 1 = idx then 1 else 0)
    lookupFrom idx (i + 1) win ⟨r.x.partialLookup w.x mask, r.u.partialLookup w.u mask⟩

/-- `win_lookup` (lines 206–219). -/
def winLookup (win : List PointAffine) (k : ℤ) : PointAffine :=
  let r := lookupFrom k.natAbs 0 win neutral
  if k < 0 then { r with u := -r.u } else r

end PointAffine

namespace Point

/-- `x` and `u` by two inversions (lines 186–191 and 195–200). -/
def affine (P : Point) : PointAffine := ⟨P.X * P.Z.invert, P.U * P.T.invert⟩

/-- The multiples from `cur` on. -/
def windowFrom (P : Point) : ℕ → Point → List PointAffine
  | 0, _ => []
  | n + 1, cur => cur.affine :: windowFrom P n (cur.setAdd P)

/-- `make_window_affine` (lines 183–203). -/
def makeWindowAffine (P : Point) (size : ℕ) : List PointAffine := windowFrom P size P

/-- `mul` (lines 223–241). -/
def mul (P : Point) (s : Scalar) : Point :=
  let win := P.makeWindowAffine 16
  let ss := s.recodeSigned 64
  let start := (PointAffine.winLookup win (ss.getD 63 0)).toPoint
  (ss.take 63).foldr (fun d p => (p.setMdouble 5).setAddAffine (PointAffine.winLookup win d)) start

/-- Plain double-and-add, from the highest bit down. -/
def doubleAndAdd (P : Point) (s : ℕ) : Point :=
  (Nat.digits 2 s).foldr
    (fun bit p => if bit = 0 then p.setDouble else p.setDouble.setAdd P) neutral

end Point

/-! ## Lookup -/

namespace PointAffine

theorem denotes_neutral : neutral.Denotes 0 := by
  rw [Denotes, neutral, GFp5.toQuintic_zero]
  exact ⟨element_neutral curveB, group_neutral suitable⟩

theorem Denotes.neg {p : PointAffine} {g : Group} (hp : p.Denotes g) :
    ({ p with u := -p.u } : PointAffine).Denotes (-g) := by
  obtain ⟨helement, rfl⟩ := hp
  rw [Denotes, GFp5.toQuintic_neg]
  exact ⟨helement.neg, helement.group_neg suitable⟩

/-- Entries that are not asked for leave the result. -/
theorem lookupFrom_of_not_mem {idx i : ℕ} {win : List PointAffine} {r : PointAffine}
    (h : idx ≤ i ∨ i + win.length < idx) : lookupFrom idx i win r = r := by
  induction win generalizing i r with
  | nil => rfl
  | cons w win ih =>
    rw [List.length_cons] at h
    have hmask : wrappingSub 0 (if i + 1 = idx then 1 else 0) = 0 := by
      rw [if_neg (by omega)]
      rfl
    rw [lookupFrom, hmask, GFp5.partialLookup_zero, GFp5.partialLookup_zero]
    exact ih (by omega)

/-- The entry asked for is or-ed into the neutral one. -/
theorem lookupFrom_neutral {i j : ℕ} {win : List PointAffine} {w : PointAffine}
    (h : win[j]? = some w) : lookupFrom (i + j + 1) i win neutral = w := by
  induction win generalizing i j with
  | nil => cases h
  | cons v win ih =>
    cases j with
    | zero =>
      cases h
      have hmask : wrappingSub 0 (if i + 1 = i + 0 + 1 then 1 else 0) = 2 ^ 64 - 1 := by
        rw [if_pos rfl]
        decide
      rw [lookupFrom, hmask, neutral, GFp5.partialLookup_ones, GFp5.partialLookup_ones]
      exact lookupFrom_of_not_mem (by omega)
    | succ j =>
      have hmask : wrappingSub 0 (if i + 1 = i + (j + 1) + 1 then 1 else 0) = 0 := by
        rw [if_neg (by omega)]
        rfl
      rw [lookupFrom, hmask, GFp5.partialLookup_zero, GFp5.partialLookup_zero]
      have hidx : i + (j + 1) + 1 = i + 1 + j + 1 := by omega
      rw [hidx]
      exact ih h

end PointAffine

namespace Point

theorem Denotes.affine {P : Point} {g : Group} (hP : P.Denotes g) : P.affine.Denotes g := by
  obtain ⟨x, u, hreads, helement, hgroup⟩ := hP
  have hx : (P.X * P.Z.invert).toQuintic = x := by
    rw [GFp5.toQuintic_mul, GFp5.toQuintic_invert, ← div_eq_mul_inv]
    exact (div_eq_iff hreads.Z_ne_zero).mpr hreads.X_eq
  have hu : (P.U * P.T.invert).toQuintic = u := by
    rw [GFp5.toQuintic_mul, GFp5.toQuintic_invert, ← div_eq_mul_inv]
    exact (div_eq_iff hreads.T_ne_zero).mpr hreads.U_eq
  rw [Point.affine, PointAffine.Denotes, hx, hu]
  exact ⟨helement, hgroup⟩

theorem windowFrom_denotes {P : Point} {g : Group} (hP : P.Denotes g) {cur : Point} {h : Group}
    (hcur : cur.Denotes h) {n i : ℕ} (hi : i < n) :
    ∃ p, (windowFrom P n cur)[i]? = some p ∧ p.Denotes (h + i • g) := by
  induction n generalizing cur h i with
  | zero => omega
  | succ n ih =>
    cases i with
    | zero => exact ⟨cur.affine, rfl, by rw [zero_nsmul, add_zero]; exact hcur.affine⟩
    | succ i =>
      obtain ⟨p, hentry, hp⟩ := ih (hcur.setAdd hP) (Nat.lt_of_succ_lt_succ hi)
      refine ⟨p, hentry, ?_⟩
      rwa [succ_nsmul', ← add_assoc]

/-- The window has the multiple for each digit. -/
theorem winLookup_denotes {P : Point} {g : Group} (hP : P.Denotes g) {k : ℤ} (hk : k.natAbs ≤ 16) :
    (PointAffine.winLookup (P.makeWindowAffine 16) k).Denotes (k • g) := by
  have hlookup : (PointAffine.lookupFrom k.natAbs 0 (P.makeWindowAffine 16)
      PointAffine.neutral).Denotes (k.natAbs • g) := by
    generalize k.natAbs = idx at hk
    cases idx with
    | zero =>
      rw [zero_nsmul, PointAffine.lookupFrom_of_not_mem (Or.inl le_rfl)]
      exact PointAffine.denotes_neutral
    | succ j =>
      obtain ⟨p, hentry, hp⟩ := windowFrom_denotes hP hP (Nat.lt_of_succ_le hk)
      have hfound : PointAffine.lookupFrom (j + 1) 0 (P.makeWindowAffine 16)
          PointAffine.neutral = p := by
        rw [← Nat.zero_add j]
        exact PointAffine.lookupFrom_neutral hentry
      rw [hfound, succ_nsmul']
      exact hp
  rw [PointAffine.winLookup]
  split_ifs with hneg
  · have habs : k • g = -(k.natAbs • g) := by
      rw [← natCast_zsmul, ← neg_zsmul]
      congr 1
      omega
    rw [habs]
    exact hlookup.neg
  · have habs : k • g = k.natAbs • g := by
      rw [← natCast_zsmul]
      congr 1
      omega
    rw [habs]
    exact hlookup

end Point

/-! ## The product -/

/-- `select` takes the second value where the mask is all ones, so an element that is not neutral
    is given the zeros. -/
theorem PointAffine.Denotes.toPoint_eq {p : PointAffine} {g : Group} (hp : p.Denotes g) :
    p.toPoint = Point.neutral := by
  by_cases hu : p.u = .zero
  · have hx : p.x = .zero := by
      apply GFp5.toQuintic_injective
      rw [GFp5.toQuintic_zero, ← hp.1.equation, hu, GFp5.toQuintic_zero]
      ring
    rw [toPoint, hu, GFp5.iszero_zero, GFp5.select_ones, GFp5.select_ones, hx]
    rfl
  · rw [toPoint, GFp5.iszero_of_ne hu, GFp5.select_zero, GFp5.select_zero]
    rfl

namespace Point

/-- Each digit after the first: five doublings and an entry of the window. -/
theorem foldr_denotes {P start : Point} {g : Group} (hP : P.Denotes g) (hstart : start.Denotes 0)
    {ds : List ℤ} (hds : ∀ d ∈ ds, -16 ≤ d ∧ d ≤ 15) :
    (ds.foldr (fun d p => (p.setMdouble 5).setAddAffine
      (PointAffine.winLookup (P.makeWindowAffine 16) d)) start).Denotes
        (Scalar.digitSum ds • g) := by
  induction ds with
  | nil => rwa [Scalar.digitSum, zero_zsmul]
  | cons d ds ih =>
    obtain ⟨hd, hrest⟩ := List.forall_mem_cons.mp hds
    have hlookup := winLookup_denotes hP (show d.natAbs ≤ 16 by omega)
    have hsum : Scalar.digitSum (d :: ds) • g = 2 ^ 5 • Scalar.digitSum ds • g + d • g := by
      rw [Scalar.digitSum, add_comm, add_zsmul, mul_zsmul, ← natCast_zsmul]
      rfl
    rw [hsum]
    exact ((ih hrest).setMdouble 5).setAddAffine hlookup

/-- The highest digit is lost. -/
theorem mul_denotes {P : Point} {g : Group} (hP : P.Denotes g) (s : Scalar) :
    (P.mul s).Denotes (Scalar.digitSum (s.recodeSigned 63) • g) := by
  have hdigits := Scalar.recodeSigned_digit 64 s
  have htake : (s.recodeSigned 64).take 63 = s.recodeSigned 63 := by
    rw [Scalar.recodeSigned_succ, List.take_left' (Scalar.length_recodeSigned 63 s)]
  have htop : -16 ≤ (s.recodeSigned 64).getD 63 0 ∧ (s.recodeSigned 64).getD 63 0 ≤ 15 := by
    have hlen : 63 < (s.recodeSigned 64).length := by
      rw [Scalar.length_recodeSigned]
      norm_num
    rw [List.getD_eq_getElem?_getD, List.getElem?_eq_getElem hlen]
    exact hdigits _ (List.getElem_mem hlen)
  have hstart := winLookup_denotes hP
    (show ((s.recodeSigned 64).getD 63 0).natAbs ≤ 16 by omega)
  rw [mul, hstart.toPoint_eq, htake]
  exact foldr_denotes hP denotes_neutral (Scalar.recodeSigned_digit 63 s)

theorem doubleAndAdd_denotes {P : Point} {g : Group} (hP : P.Denotes g) (s : ℕ) :
    (P.doubleAndAdd s).Denotes (s • g) := by
  have hbits : ∀ bits : List ℕ, (∀ bit ∈ bits, bit < 2) →
      (bits.foldr (fun bit p => if bit = 0 then p.setDouble else p.setDouble.setAdd P)
        neutral).Denotes (Nat.ofDigits 2 bits • g) := by
    intro bits
    induction bits with
    | nil =>
      intro _
      rw [Nat.ofDigits_nil, zero_nsmul]
      exact denotes_neutral
    | cons bit bits ih =>
      intro h
      obtain ⟨hbit, hrest⟩ := List.forall_mem_cons.mp h
      rw [List.foldr_cons, Nat.ofDigits_cons, add_nsmul, mul_nsmul', add_comm]
      split_ifs with hzero
      · rw [hzero, zero_nsmul, add_zero]
        exact (ih hrest).setDouble
      · have hone : bit = 1 := by omega
        rw [hone, one_nsmul]
        exact (ih hrest).setDouble.setAdd hP
  have h := hbits (Nat.digits 2 s) fun bit hbit => Nat.digits_lt_base (by norm_num) hbit
  rwa [Nat.ofDigits_digits] at h

/-! ## The generator -/

/-- `GENERATOR` (lines 48–59). -/
def generator : Point :=
  ⟨.fromU64Reduce 0xB2CA178ECF4453A1 0x3C757788836D3EA4 0x48D7F28A26DAFD0B 0x1E0F15C7FD44C28E
      0x21FA7FFCC8252211, .one, .fromU64Reduce 0xBFFFFFFF40000001 0 0 0 0, .one⟩

theorem generator_not_square : ¬IsSquare generator.X.toQuintic := by
  apply not_isSquare_toQuintic (c := 6115507812596397268)
  · decide +kernel
  · rw [Nat.cast_ofNat]
    unfold modulus
    norm_num1
    reduce_mod_char
    decide
  · decide

theorem generator_equation :
    generator.U.toQuintic ^ 2 * quad curveB generator.X.toQuintic = generator.X.toQuintic := by
  have hcode : generator.U.square * (generator.X.square + generator.X.double +
      .fromU64Reduce 0 263 0 0 0) = generator.X := by decide +kernel
  have h := congrArg GFp5.toQuintic hcode
  rw [GFp5.toQuintic_mul, GFp5.toQuintic_square, GFp5.toQuintic_add, GFp5.toQuintic_add,
    GFp5.toQuintic_square, GFp5.toQuintic_double, ← curveB_eq] at h
  exact h

theorem exists_generator_denotes : ∃ g : Group, generator.Denotes g := by
  refine ⟨_, generator.X.toQuintic, generator.U.toQuintic, ⟨?_, ?_, ?_, ?_⟩,
    Or.inl ⟨generator_not_square, generator_equation⟩, rfl⟩
  · exact ne_of_eq_of_ne GFp5.toQuintic_one one_ne_zero
  · exact ne_of_eq_of_ne GFp5.toQuintic_one one_ne_zero
  · exact ((congrArg _ GFp5.toQuintic_one).trans (mul_one _)).symm
  · exact ((congrArg _ GFp5.toQuintic_one).trans (mul_one _)).symm

theorem iterate_setAdd_denotes {P : Point} {g : Group} (hP : P.Denotes g) (n : ℕ) :
    ((fun Q : Point => Q.setAdd P)^[n] P).Denotes ((n + 1) • g) := by
  induction n with
  | zero =>
    rw [Nat.zero_add, one_nsmul]
    exact hP
  | succ n ih =>
    rw [Function.iterate_succ_apply', succ_nsmul]
    exact ih.setAdd hP

/-- The first fifteen multiples of the generator are not neutral. -/
theorem generator_nsmul_ne_zero {g : Group} (hg : generator.Denotes g) {k : ℕ} (hk : k < 15) :
    (k + 1) • g ≠ 0 := by
  have hcode : ∀ k < 15,
      ((fun Q : Point => Q.setAdd generator)^[k] generator).U ≠ .zero := by decide +kernel
  apply Fractions.Denotes.ne_zero suitable (iterate_setAdd_denotes hg k)
  intro hzero
  exact hcode k hk (GFp5.toQuintic_injective (hzero.trans GFp5.toQuintic_zero.symm))

/-- Doubling an element that is not neutral never makes it neutral. -/
theorem Denotes.two_pow_nsmul_ne_zero {P : Point} {g : Group} (hP : P.Denotes g) (hg : g ≠ 0)
    (n : ℕ) : 2 ^ n • g ≠ 0 := by
  induction n with
  | zero => rwa [pow_zero (2 : ℕ), one_nsmul]
  | succ n ih =>
    have hdouble := Fractions.Denotes.two_nsmul_ne_zero suitable (hP.setMdouble n) ih
    rwa [← mul_nsmul', ← pow_succ' (2 : ℕ) n] at hdouble

/-! ## Against double-and-add -/

/-- The digits are those of the scalar, and the product is that of double-and-add. -/
structure MulCorrect (s : Scalar) : Prop where
  length : (s.recodeSigned 64).length = 64
  digits : ∀ d ∈ s.recodeSigned 64, -16 ≤ d ∧ d ≤ 16
  sum : Scalar.digitSum (s.recodeSigned 64) = s.toNat
  product : ∀ P : Point, P.IsElement →
    (P.mul s).IsElement ∧ (P.mul s).Same (P.doubleAndAdd s.toNat)

theorem canonical_room {s : Scalar} (hs : s.Canonical) : 2 * s.toNat < (2 ^ 64) ^ 5 := by
  have horder := Scalar.two_order_lt
  have hlt : s.toNat < Scalar.order.toNat := hs
  omega

/-- Were the highest digit not zero, the product of the generator would miss it. -/
theorem rest_eq_zero {s : Scalar} (h : MulCorrect s) (hs : s.Canonical) :
    (s.rest 63).toNat = 0 := by
  have hsum := Scalar.digitSum_recodeSigned 63 (canonical_room hs)
  have htop := h.sum
  rw [Scalar.recodeSigned_succ, Scalar.digitSum_concat, Scalar.length_recodeSigned] at htop
  have hdigit : ((s.rest 63).toNat : ℤ) = (s.rest 63).digit := by
    apply mul_left_cancel₀ (show (32 : ℤ) ^ 63 ≠ 0 by norm_num)
    linear_combination -hsum - htop
  have hbounds := Scalar.digit_bounds (s.rest 63)
  by_contra hne
  obtain ⟨k, hk⟩ := Nat.exists_eq_succ_of_ne_zero hne
  obtain ⟨g, hg⟩ := exists_generator_denotes
  have heq := (mul_denotes hg s).unique (doubleAndAdd_denotes hg s.toNat)
    (h.product generator ⟨g, hg⟩).2
  have hlost : 2 ^ (5 * 63) • (k + 1) • g = 0 := by
    have hpow : ((2 ^ (5 * 63) * (k + 1) : ℕ) : ℤ) =
        s.toNat - Scalar.digitSum (s.recodeSigned 63) := by
      rw [pow_mul (2 : ℕ) 5 63, hsum, hk, Nat.cast_mul, Nat.cast_pow, Nat.cast_pow]
      push_cast
      ring
    rw [← mul_nsmul', ← natCast_zsmul, hpow, sub_zsmul, natCast_zsmul, ← heq, ← sub_eq_add_neg,
      sub_self]
  exact Denotes.two_pow_nsmul_ne_zero (iterate_setAdd_denotes hg k)
    (generator_nsmul_ne_zero hg (by omega)) (5 * 63) hlost

/-- Where the highest digit is zero the product is right. -/
theorem mulCorrect_of_rest {s : Scalar} (hs : s.Canonical) (hrest : (s.rest 63).toNat = 0) :
    MulCorrect s := by
  have hsum := Scalar.digitSum_recodeSigned 63 (canonical_room hs)
  rw [hrest, Nat.cast_zero, mul_zero, add_zero] at hsum
  have hdigit : (s.rest 63).digit = 0 := by
    rw [Scalar.digit_eq, hrest]
    rfl
  refine ⟨Scalar.length_recodeSigned 64 s, fun d hd => ?_, ?_, ?_⟩
  · have hbounds := Scalar.recodeSigned_digit 64 s d hd
    omega
  · rw [Scalar.recodeSigned_succ, Scalar.digitSum_concat, hdigit, mul_zero, add_zero, hsum]
  · rintro P ⟨g, hP⟩
    have hmul := mul_denotes hP s
    rw [← hsum, natCast_zsmul] at hmul
    exact ⟨⟨_, hmul⟩, hmul.same (doubleAndAdd_denotes hP s.toNat)⟩

/-- The windowed product is right for the scalars of 63 digits. Beyond them the highest digit is
    dropped by `to_point`, and beyond those of 64 digits the last carry by `recode_signed`. -/
theorem mulCorrect_iff {s : Scalar} (hs : s.Canonical) :
    MulCorrect s ↔ 31 * (s.toNat : ℤ) ≤ 15 * (32 ^ 63 - 1) := by
  rw [← Scalar.rest_eq_zero_iff 63 (canonical_room hs)]
  exact ⟨fun h => rest_eq_zero h hs, mulCorrect_of_rest hs⟩

theorem mulCorrect_iff_one :
    (Scalar.single 1).Canonical ∧
      (MulCorrect (.single 1) ↔ 31 * ((Scalar.single 1).toNat : ℤ) ≤ 15 * (32 ^ 63 - 1)) :=
  ⟨Scalar.single_lt 1, mulCorrect_iff (Scalar.single_lt 1)⟩

/-- `2^315` has one digit, the highest; the carry of `n - 1` is lost. -/
theorem not_mulCorrect :
    ¬MulCorrect ⟨[0, 0, 0, 0, 2 ^ 59], rfl, by decide⟩ ∧
      Scalar.digitSum ((Scalar.neg (.single 1)).recodeSigned 64) ≠
        (Scalar.neg (.single 1)).toNat := by
  constructor
  · intro h
    have hzero := rest_eq_zero h (by
      show Scalar.toNat _ < _
      decide +kernel)
    exact absurd hzero (by decide +kernel)
  · decide +kernel

end Point

end Digdigdig3.Lighter
