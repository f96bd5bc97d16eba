import Mathlib.Tactic
import Digdigdig3.Lib.Bytes
import Digdigdig3.Lib.Limbs
import Digdigdig3.Lighter.GFp5

/-!
# `Scalar`: integers modulo the order of the curve

`Scalar` of `crates/digdigdig3/src/l3/open/crypto/dex/lighter/crypto/scalar.rs`: five words of
64 bits, low first, and the arithmetic modulo `n` over them.

* `toNat_add`, `toNat_sub`, `toNat_mul`: the arithmetic on canonical scalars.
* `toNat_fromGfp5`: the five limbs of an element of `GF(p^5)`, modulo `n`.
* `toNat_fromRandomBytes`: `n` is taken off once, which is enough below `2n` only.
* `accepted_decode`: `decode` reads the first 40 bytes, whatever stands behind them.
-/

namespace Digdigdig3.Lighter

open Limbs

/-- `Scalar` (line 13): five words, low first. -/
structure Scalar where
  limbs : List ℕ
  length_limbs : limbs.length = 5
  words_limbs : Words (2 ^ 64) limbs
  deriving DecidableEq

namespace Scalar

/-- The integer of 320 bits. -/
def toNat (s : Scalar) : ℕ := value (2 ^ 64) s.limbs

/-- `ZERO` (line 17). -/
def zero : Scalar := ⟨[0, 0, 0, 0, 0], rfl, by decide⟩

/-- The order of the group, `N` (lines 21–27). -/
@[irreducible] def order : Scalar :=
  ⟨[0xE80FD996948BFFE1, 0xE8885C39D724A09C, 0x7FFFFFE6CFB80639, 0x7FFFFFF100000016,
    0x7FFFFFFD80000007], rfl, by decide⟩

/-- `N0I` (line 30): `-1 / N[0]` modulo `2^64`. -/
def n0i : ℕ := 0xD78BEF72057B7BDF

/-- `R2` (lines 33–39): `2^640` modulo `n`. -/
def r2 : Scalar :=
  ⟨[0xA01001DCE33DC739, 0x6C3228D33F62ACCF, 0xD1D796CC91CF8525, 0xAADFFF5D1574C1D8,
    0x4ACA13B28CA251F5], rfl, by decide⟩

/-! ## Five words -/

/-- `add_inner` (lines 52–62). The last carry is dropped. -/
def addInner (s a : Scalar) : Scalar where
  limbs := (addCarry (2 ^ 64) 0 s.limbs a.limbs).1
  length_limbs := by
    rw [length_addCarry 0 (s.length_limbs.trans a.length_limbs.symm), s.length_limbs]
  words_limbs := words_addCarry (by norm_num) _ _ _

/-- `sub_inner` (lines 65–77): the difference, and the last borrow as a mask. -/
def subInner (s a : Scalar) : Scalar × ℕ :=
  (⟨(subBorrow (2 ^ 64) 0 s.limbs a.limbs).1,
    (subBorrow_spec (by norm_num) (Nat.zero_le 1) s.words_limbs a.words_limbs
      (s.length_limbs.trans a.length_limbs.symm)).2.2.2.trans s.length_limbs,
    (subBorrow_spec (by norm_num) (Nat.zero_le 1) s.words_limbs a.words_limbs
      (s.length_limbs.trans a.length_limbs.symm)).2.2.1⟩,
    wrappingSub 0 (subBorrow (2 ^ 64) 0 s.limbs a.limbs).2)

/-- `select` (lines 80–86). -/
def select (c : ℕ) (a0 a1 : Scalar) : Scalar where
  limbs := (a0.limbs.zip a1.limbs).map fun x => selectWord c x.1 x.2
  length_limbs := by
    rw [List.length_map, List.length_zip, a0.length_limbs, a1.length_limbs, Nat.min_self]
  words_limbs := by
    intro x hx
    obtain ⟨⟨x0, x1⟩, hmem, rfl⟩ := List.mem_map.mp hx
    have hx0 := a0.words_limbs x0 (List.of_mem_zip hmem).1
    have hx1 := a1.words_limbs x1 (List.of_mem_zip hmem).2
    exact Nat.xor_lt_two_pow hx0 (Nat.and_lt_two_pow c (Nat.xor_lt_two_pow hx0 hx1))

/-! ## Arithmetic modulo `n` -/

/-- `add` (lines 91–95). -/
def add (s rhs : Scalar) : Scalar :=
  let r0 := s.addInner rhs
  let r1 := r0.subInner order
  select r1.2 r1.1 r0

/-- `sub` (lines 98–102). -/
def sub (s rhs : Scalar) : Scalar :=
  let r0 := s.subInner rhs
  let r1 := r0.1.addInner order
  select r0.2 r0.1 r1

/-- `neg` (lines 105–107). -/
def neg (s : Scalar) : Scalar := zero.sub s

/-- The ten words of a product (lines 112–124). -/
def product (s rhs : Scalar) : List ℕ :=
  schoolbook (2 ^ 64) rhs.limbs s.limbs (List.replicate 10 0)

theorem product_spec (s rhs : Scalar) :
    value (2 ^ 64) (product s rhs) = s.toNat * rhs.toNat ∧ Words (2 ^ 64) (product s rhs) ∧
      (product s rhs).length = 10 := by
  have hzeros : ∀ x ∈ List.replicate 10 0, x = 0 := fun x hx => List.eq_of_mem_replicate hx
  have hwords : Words (2 ^ 64) (List.replicate 10 0) := by decide
  obtain ⟨hvalue, hproduct, hlen⟩ := schoolbook_spec (by norm_num) rhs.words_limbs s.words_limbs
    hwords (by rw [rhs.length_limbs, s.length_limbs, List.length_replicate])
    fun x hx => hzeros x (List.mem_of_mem_drop hx)
  rw [value_zeros hzeros, Nat.zero_add] at hvalue
  exact ⟨hvalue, hproduct, hlen⟩

theorem length_product (s rhs : Scalar) : (product s rhs).length = order.limbs.length + 5 := by
  rw [(product_spec s rhs).2.2, order.length_limbs]

/-- The product divided by `2^320` modulo `n`, up to `n` too much (lines 126–154). -/
def montReduce (s rhs : Scalar) : Scalar where
  limbs := reduce (2 ^ 64) order.limbs n0i 5 (product s rhs)
  length_limbs := (reduce_shape (by norm_num) order.words_limbs n0i 5 (product_spec s rhs).2.1
    (length_product s rhs)).2.trans order.length_limbs
  words_limbs := (reduce_shape (by norm_num) order.words_limbs n0i 5 (product_spec s rhs).2.1
    (length_product s rhs)).1

/-- `montymul` (lines 111–161). -/
def montymul (s rhs : Scalar) : Scalar :=
  let result := montReduce s rhs
  let reduced := result.subInner order
  select reduced.2 reduced.1 result

/-- `mul` (lines 164–166). -/
def mul (s rhs : Scalar) : Scalar := (s.montymul r2).montymul rhs

/-! ## Bytes and elements -/

/-- Five words of eight bytes (lines 174–177). -/
def ofBytes (buf : Bytes) : Scalar :=
  ⟨Limbs.ofBytes 8 5 buf, length_ofBytes 8 5 buf, words_ofBytes 8 5 buf⟩

/-- `decode` (lines 170–184), with the mask. -/
def decode (buf : Bytes) : Scalar × ℕ :=
  if buf.length < 40 then (zero, 0)
  else
    let s := ofBytes buf
    (s, (s.subInner order).2)

/-- `encode` (lines 265–271). -/
def encode (s : Scalar) : Bytes := toBytes 8 s.limbs

/-- `from_random_bytes` (lines 291–300). -/
def fromRandomBytes (buf : Bytes) : Scalar :=
  let s := ofBytes buf
  let r1 := s.subInner order
  select r1.2 r1.1 s

/-- One limb alone, as `Self([limbs[4], 0, 0, 0, 0])`. -/
def single (limb : UInt64) : Scalar where
  limbs := [limb.toNat, 0, 0, 0, 0]
  length_limbs := rfl
  words_limbs := words_cons.mpr ⟨limb.toNat_lt, by decide⟩

/-- `pow64` (line 254). -/
def pow64 : Scalar := ⟨[0, 1, 0, 0, 0], rfl, by decide⟩

/-- `from_gfp5` (lines 244–262): from the highest limb down. -/
def fromGfp5 (x : GFp5) : Scalar :=
  let limbs := x.toBasefieldArray
  (limbs.take 4).foldr (fun limb acc => (acc.mul pow64).add (single limb))
    (single (limbs.getD 4 0))

/-! ## The integers of five words -/

theorem toNat_lt (s : Scalar) : s.toNat < (2 ^ 64) ^ 5 := by
  have h := value_lt s.words_limbs
  rwa [s.length_limbs] at h

theorem toNat_injective {s t : Scalar} (h : s.toNat = t.toNat) : s = t := by
  have hlimbs : s.limbs = t.limbs :=
    value_injective s.words_limbs t.words_limbs (s.length_limbs.trans t.length_limbs.symm) h
  cases s
  cases t
  cases hlimbs
  rfl

theorem toNat_order : order.toNat =
    0x7FFFFFFD800000077FFFFFF1000000167FFFFFE6CFB80639E8885C39D724A09CE80FD996948BFFE1 := by
  unfold order
  rfl

theorem order_pos : 0 < order.toNat := by
  rw [toNat_order]
  norm_num

/-- The order has 319 bits. -/
theorem two_order_lt : 2 * order.toNat < (2 ^ 64) ^ 5 := by
  rw [toNat_order]
  norm_num

theorem toNat_addInner (s a : Scalar) :
    (s.addInner a).toNat = (s.toNat + a.toNat) % (2 ^ 64) ^ 5 := by
  have hsum := value_addCarry (B := 2 ^ 64) 0 (s.length_limbs.trans a.length_limbs.symm)
  rw [s.length_limbs, Nat.add_zero] at hsum
  rw [← Nat.mod_eq_of_lt (s.addInner a).toNat_lt]
  calc (s.addInner a).toNat % (2 ^ 64) ^ 5 =
        ((s.addInner a).toNat + (2 ^ 64) ^ 5 * (addCarry (2 ^ 64) 0 s.limbs a.limbs).2) %
          (2 ^ 64) ^ 5 := (Nat.add_mul_mod_self_left _ _ _).symm
    _ = (s.toNat + a.toNat) % (2 ^ 64) ^ 5 := congrArg (· % (2 ^ 64) ^ 5) hsum

/-- The mask says whether there was a borrow. -/
theorem subInner_spec (s a : Scalar) :
    (s.toNat < a.toNat ∧ (s.subInner a).2 = 2 ^ 64 - 1 ∧
        (s.subInner a).1.toNat + a.toNat = s.toNat + (2 ^ 64) ^ 5) ∨
      (a.toNat ≤ s.toNat ∧ (s.subInner a).2 = 0 ∧
        (s.subInner a).1.toNat + a.toNat = s.toNat) := by
  obtain ⟨hdiff, hone, -, -⟩ := subBorrow_spec (B := 2 ^ 64) (by norm_num) (Nat.zero_le 1)
    s.words_limbs a.words_limbs (s.length_limbs.trans a.length_limbs.symm)
  have hlt := (s.subInner a).1.toNat_lt
  change (s.subInner a).1.toNat + a.toNat + 0 = s.toNat + (2 ^ 64) ^ s.limbs.length * _ at hdiff
  have hmask : (s.subInner a).2 = wrappingSub 0 (subBorrow (2 ^ 64) 0 s.limbs a.limbs).2 := rfl
  rw [s.length_limbs, Nat.add_zero] at hdiff
  generalize (subBorrow (2 ^ 64) 0 s.limbs a.limbs).2 = borrow at *
  obtain rfl | rfl : borrow = 0 ∨ borrow = 1 := by omega
  · rw [Nat.mul_zero, Nat.add_zero] at hdiff
    exact Or.inr ⟨by omega, hmask, hdiff⟩
  · rw [Nat.mul_one] at hdiff
    exact Or.inl ⟨by omega, hmask, hdiff⟩

theorem select_zero (a0 a1 : Scalar) : select 0 a0 a1 = a0 := by
  have hlimbs : (select 0 a0 a1).limbs = a0.limbs := by
    have hfst : (a0.limbs.zip a1.limbs).map Prod.fst = a0.limbs :=
      List.map_fst_zip (by rw [a0.length_limbs, a1.length_limbs])
    conv_rhs => rw [← hfst]
    exact List.map_congr_left fun x _ => selectWord_zero x.1 x.2
  exact toNat_injective (congrArg (value (2 ^ 64)) hlimbs)

theorem select_ones (a0 a1 : Scalar) : select (2 ^ 64 - 1) a0 a1 = a1 := by
  have hlimbs : (select (2 ^ 64 - 1) a0 a1).limbs = a1.limbs := by
    have hsnd : (a0.limbs.zip a1.limbs).map Prod.snd = a1.limbs :=
      List.map_snd_zip (by rw [a0.length_limbs, a1.length_limbs])
    conv_rhs => rw [← hsnd]
    apply List.map_congr_left
    intro x hx
    exact selectWord_ones (a0.words_limbs _ (List.of_mem_zip hx).1)
      (a1.words_limbs _ (List.of_mem_zip hx).2)
  exact toNat_injective (congrArg (value (2 ^ 64)) hlimbs)

/-- The order taken off once, where it can be. -/
theorem toNat_select_subInner (s : Scalar) :
    (select (s.subInner order).2 (s.subInner order).1 s).toNat =
      if s.toNat < order.toNat then s.toNat else s.toNat - order.toNat := by
  obtain ⟨hlt, hmask, -⟩ | ⟨hle, hmask, hdiff⟩ := subInner_spec s order
  · rw [hmask, select_ones, if_pos hlt]
  · rw [hmask, select_zero, if_neg (not_lt.mpr hle)]
    omega

theorem select_subInner_modEq (s : Scalar) :
    (select (s.subInner order).2 (s.subInner order).1 s).toNat ≡ s.toNat [MOD order.toNat] := by
  rw [toNat_select_subInner]
  split_ifs with h
  · rfl
  · have hsplit := Nat.sub_add_cancel (not_lt.mp h)
    conv_rhs => rw [← hsplit]
    exact (Nat.add_modEq_right).symm

theorem select_subInner_lt_iff (s : Scalar) :
    (select (s.subInner order).2 (s.subInner order).1 s).toNat < order.toNat ↔
      s.toNat < 2 * order.toNat := by
  rw [toNat_select_subInner]
  split_ifs with h <;> omega

/-! ## Sums and differences -/

theorem toNat_add {a b : Scalar} (ha : a.toNat < order.toNat) (hb : b.toNat < order.toNat) :
    (a.add b).toNat = (a.toNat + b.toNat) % order.toNat := by
  have hsum : (a.addInner b).toNat = a.toNat + b.toNat := by
    rw [toNat_addInner, Nat.mod_eq_of_lt]
    have := two_order_lt
    omega
  have hmod := select_subInner_modEq (a.addInner b)
  have hlt := (select_subInner_lt_iff (a.addInner b)).mpr (by omega)
  rw [hsum] at hmod
  rw [← hmod]
  exact (Nat.mod_eq_of_lt hlt).symm

/-- The order is added where the difference is negative. -/
theorem toNat_sub_eq (a : Scalar) {b : Scalar} (hb : b.toNat < order.toNat) :
    (a.sub b).toNat =
      if b.toNat ≤ a.toNat then a.toNat - b.toNat else a.toNat + order.toNat - b.toNat := by
  have hcap := two_order_lt
  obtain ⟨hlt, hmask, hdiff⟩ | ⟨hle, hmask, hdiff⟩ := subInner_spec a b
  · have hmore : (a.subInner b).1.toNat + order.toNat =
        a.toNat + order.toNat - b.toNat + (2 ^ 64) ^ 5 := by omega
    rw [sub, hmask, select_ones, toNat_addInner, hmore, Nat.add_mod_right,
      Nat.mod_eq_of_lt (by omega), if_neg (not_le.mpr hlt)]
  · rw [sub, hmask, select_zero, if_pos hle]
    omega

theorem toNat_sub {a b : Scalar} (ha : a.toNat < order.toNat) (hb : b.toNat < order.toNat) :
    ((a.sub b).toNat : ℤ) = ((a.toNat : ℤ) - b.toNat) % order.toNat := by
  rw [toNat_sub_eq a hb]
  split_ifs with hle
  · rw [Int.emod_eq_of_lt (by omega) (by omega)]
    omega
  · have hshift : ((a.toNat : ℤ) - b.toNat) % order.toNat =
        ((a.toNat : ℤ) - b.toNat + order.toNat) % order.toNat := (Int.add_emod_right _ _).symm
    rw [hshift, Int.emod_eq_of_lt (by omega) (by omega)]
    omega

theorem toNat_neg {a : Scalar} (ha : a.toNat < order.toNat) :
    ((a.neg).toNat : ℤ) = -(a.toNat : ℤ) % order.toNat := by
  have hzero : zero.toNat = 0 := rfl
  have h := toNat_sub (a := zero) (hzero ▸ order_pos) ha
  rwa [hzero, Nat.cast_zero, Int.zero_sub] at h

/-! ## Products -/

theorem coprime_order : Nat.gcd order.toNat ((2 ^ 64) ^ 5) = 1 := by
  rw [toNat_order]
  norm_num

theorem order_ne_nil : order.limbs ≠ [] := by
  intro hnil
  exact absurd (hnil ▸ order.length_limbs) (by decide)

theorem order_n0i : (order.limbs.headD 0 * n0i + 1) % 2 ^ 64 = 0 := by
  unfold order
  rfl

theorem toNat_r2 : r2.toNat =
    0x4ACA13B28CA251F5AADFFF5D1574C1D8D1D796CC91CF85256C3228D33F62ACCFA01001DCE33DC739 := rfl

theorem r2_modEq : r2.toNat ≡ (2 ^ 64) ^ 5 * (2 ^ 64) ^ 5 [MOD order.toNat] := by
  rw [toNat_order, toNat_r2, Nat.ModEq]
  norm_num

/-- Before the last subtraction: less than `2n`, and the product divided by `2^320`. -/
theorem montReduce_spec {a : Scalar} (ha : a.toNat < order.toNat) (b : Scalar) :
    (montReduce a b).toNat < 2 * order.toNat ∧
      (montReduce a b).toNat * (2 ^ 64) ^ 5 ≡ a.toNat * b.toNat [MOD order.toNat] := by
  obtain ⟨hvalue, hwords, hlen⟩ := product_spec a b
  have hcap := two_order_lt
  have hprod : a.toNat * b.toNat < order.toNat * (2 ^ 64) ^ 5 := Nat.mul_lt_mul'' ha b.toNat_lt
  have hcapacity : 0 < (2 ^ 64) ^ 5 := by norm_num
  have hroom : value (2 ^ 64) (product a b) + (2 ^ 64) ^ 5 * value (2 ^ 64) order.limbs <
      (2 ^ 64) ^ (product a b).length + value (2 ^ 64) order.limbs := by
    rw [← toNat, hvalue, hlen, pow_add (2 ^ 64) 5 5]
    generalize (2 ^ 64) ^ 5 = capacity at *
    generalize order.toNat = n at *
    nlinarith
  obtain ⟨m, hm, hdiv⟩ := reduce_spec (by norm_num) order.words_limbs order_ne_nil order_n0i 5
    hwords (length_product a b) hroom
  have hreduce : value (2 ^ 64) (reduce (2 ^ 64) order.limbs n0i 5 (product a b)) =
      (montReduce a b).toNat := rfl
  rw [hvalue, hreduce, ← toNat] at hdiv
  constructor
  · clear hroom hreduce
    generalize (2 ^ 64) ^ 5 = capacity at *
    generalize order.toNat = n at *
    by_contra hge
    nlinarith
  · rw [hdiv]
    exact Nat.add_mul_mod_self_right _ _ _

theorem montymul_spec {a : Scalar} (ha : a.toNat < order.toNat) (b : Scalar) :
    (a.montymul b).toNat < order.toNat ∧
      (a.montymul b).toNat * (2 ^ 64) ^ 5 ≡ a.toNat * b.toNat [MOD order.toNat] := by
  obtain ⟨hlt, hmod⟩ := montReduce_spec ha b
  exact ⟨(select_subInner_lt_iff _).mpr hlt, ((select_subInner_modEq _).mul_right _).trans hmod⟩

/-- The second factor need not be canonical. -/
theorem toNat_mul {a : Scalar} (ha : a.toNat < order.toNat) (b : Scalar) :
    (a.mul b).toNat = a.toNat * b.toNat % order.toNat := by
  obtain ⟨hfirst, hmont⟩ := montymul_spec ha r2
  obtain ⟨hsecond, hmul⟩ := montymul_spec hfirst b
  have hlift : (a.montymul r2).toNat ≡ a.toNat * (2 ^ 64) ^ 5 [MOD order.toNat] := by
    apply Nat.ModEq.cancel_right_of_coprime coprime_order
    rw [mul_assoc]
    exact hmont.trans (r2_modEq.mul_left _)
  have hprod : (a.mul b).toNat ≡ a.toNat * b.toNat [MOD order.toNat] := by
    apply Nat.ModEq.cancel_right_of_coprime coprime_order
    have hswap : a.toNat * (2 ^ 64) ^ 5 * b.toNat = a.toNat * b.toNat * (2 ^ 64) ^ 5 :=
      mul_right_comm _ _ _
    rw [← hswap]
    exact hmul.trans (hlift.mul_right _)
  rw [← hprod]
  exact (Nat.mod_eq_of_lt hsecond).symm

/-! ## Elements -/

theorem two_pow_64_lt : (2 ^ 64) ^ 2 < order.toNat := by
  rw [toNat_order]
  norm_num

theorem toNat_single (limb : UInt64) : (single limb).toNat = limb.toNat := rfl

theorem single_lt (limb : UInt64) : (single limb).toNat < order.toNat := by
  have hlimb := limb.toNat_lt
  have horder := two_pow_64_lt
  rw [toNat_single]
  omega

theorem toNat_pow64 : pow64.toNat = 2 ^ 64 := rfl

/-- The limbs are taken in from the highest one down. -/
theorem toNat_foldr (limbs : List UInt64) {top : Scalar} (htop : top.toNat < order.toNat) :
    (limbs.foldr (fun limb acc => (acc.mul pow64).add (single limb)) top).toNat =
      (value (2 ^ 64) (limbs.map UInt64.toNat) + (2 ^ 64) ^ limbs.length * top.toNat) %
        order.toNat := by
  induction limbs with
  | nil => simp [Nat.mod_eq_of_lt htop]
  | cons limb limbs ih =>
    have hrest := Nat.mod_lt (value (2 ^ 64) (limbs.map UInt64.toNat) +
      (2 ^ 64) ^ limbs.length * top.toNat) order_pos
    rw [← ih] at hrest
    have hmul := toNat_mul hrest pow64
    have hshifted := Nat.mod_lt ((limbs.foldr (fun limb acc => (acc.mul pow64).add (single limb))
      top).toNat * pow64.toNat) order_pos
    rw [← hmul] at hshifted
    rw [List.foldr_cons, toNat_add hshifted (single_lt limb), hmul, ih, toNat_pow64, toNat_single,
      Nat.mod_add_mod, List.map_cons, value_cons, List.length_cons]
    have hshift : (value (2 ^ 64) (limbs.map UInt64.toNat) + (2 ^ 64) ^ limbs.length * top.toNat) %
        order.toNat * 2 ^ 64 + limb.toNat ≡ (value (2 ^ 64) (limbs.map UInt64.toNat) +
          (2 ^ 64) ^ limbs.length * top.toNat) * 2 ^ 64 + limb.toNat [MOD order.toNat] :=
      ((Nat.mod_modEq _ _).mul_right _).add_right _
    refine hshift.trans (congrArg (· % order.toNat) ?_)
    rw [pow_succ]
    ring

theorem toNat_fromGfp5 (x : GFp5) :
    (fromGfp5 x).toNat =
      value (2 ^ 64) (x.toBasefieldArray.map UInt64.toNat) % order.toNat := by
  have hsplit : x.toBasefieldArray =
      x.toBasefieldArray.take 4 ++ [x.toBasefieldArray.getD 4 0] := rfl
  have hlen : (x.toBasefieldArray.take 4).length = 4 := rfl
  rw [fromGfp5, toNat_foldr _ (single_lt _), toNat_single, hlen]
  conv_rhs => rw [hsplit, List.map_append, value_append, List.length_map, hlen, List.map_singleton,
    value_cons, value_nil, Nat.mul_zero, Nat.add_zero]

/-! ## Bytes -/

theorem toNat_ofBytes {buf : Bytes} (h : 40 ≤ buf.length) :
    (ofBytes buf).toNat = ofLe (buf.take 40) :=
  value_ofBytes (w := 8) (k := 5) h

theorem toNat_ofBytes_of_length {buf : Bytes} (h : buf.length = 40) :
    (ofBytes buf).toNat = ofLe buf := by
  rw [toNat_ofBytes h.ge, List.take_of_length_le h.le]

@[simp] theorem length_encode (s : Scalar) : s.encode.length = 40 := by
  rw [encode, length_toBytes, s.length_limbs]

theorem ofLe_encode (s : Scalar) : ofLe s.encode = s.toNat := ofLe_toBytes (w := 8) s.words_limbs

theorem toNat_fromRandomBytes {buf : Bytes} (h : buf.length = 40) :
    (fromRandomBytes buf).toNat ≡ ofLe buf [MOD order.toNat] ∧
      ((fromRandomBytes buf).toNat < order.toNat ↔ ofLe buf < 2 * order.toNat) := by
  have hread := toNat_ofBytes_of_length h
  constructor
  · exact hread ▸ select_subInner_modEq (ofBytes buf)
  · exact hread ▸ select_subInner_lt_iff (ofBytes buf)

/-- `decode` accepts: the mask is all ones. -/
def Accepted (buf : Bytes) : Prop := (decode buf).2 = 2 ^ 64 - 1

/-- `decode` looks at the first 40 bytes. -/
theorem accepted_iff (buf : Bytes) :
    Accepted buf ↔ 40 ≤ buf.length ∧ ofLe (buf.take 40) < order.toNat := by
  unfold Accepted decode
  split_ifs with h
  · exact ⟨fun hmask => absurd hmask (by decide), fun hbuf => absurd hbuf.1 (by omega)⟩
  · have hlen : 40 ≤ buf.length := not_lt.mp h
    have hread := toNat_ofBytes hlen
    obtain ⟨hlt, hmask, -⟩ | ⟨hle, hmask, -⟩ := subInner_spec (ofBytes buf) order
    · rw [hread] at hlt
      exact iff_of_true hmask ⟨hlen, hlt⟩
    · rw [hread] at hle
      refine iff_of_false ?_ fun hbuf => absurd hbuf.2 (not_lt.mpr hle)
      show ((ofBytes buf).subInner order).2 ≠ 2 ^ 64 - 1
      rw [hmask]
      decide

theorem decode_eq {buf : Bytes} (h : 40 ≤ buf.length) : (decode buf).1 = ofBytes buf := by
  rw [decode, if_neg (not_lt.mpr h)]

theorem ofBytes_encode (s : Scalar) : ofBytes s.encode = s := by
  apply toNat_injective
  rw [toNat_ofBytes_of_length (length_encode s), ofLe_encode]

theorem encode_ofBytes {buf : Bytes} (h : buf.length = 40) : (ofBytes buf).encode = buf := by
  have hvalue : ofLe (ofBytes buf).encode = ofLe buf := by
    rw [ofLe_encode, toNat_ofBytes_of_length h]
  calc (ofBytes buf).encode = toLe 40 (ofLe (ofBytes buf).encode) :=
        (toLe_ofLe (length_encode _)).symm
    _ = toLe 40 (ofLe buf) := by rw [hvalue]
    _ = buf := toLe_ofLe h

/-! ## All of it -/

/-- Canonical: below `n`. -/
def Canonical (s : Scalar) : Prop := s.toNat < order.toNat

/-- The arithmetic is that of integers modulo `n`, and the encodings are those below `n`. -/
structure Correct (a b : Scalar) (x : GFp5) (random buf : Bytes) : Prop where
  add : (a.add b).toNat = (a.toNat + b.toNat) % order.toNat
  sub : ((a.sub b).toNat : ℤ) = ((a.toNat : ℤ) - b.toNat) % order.toNat
  neg : (a.neg.toNat : ℤ) = -(a.toNat : ℤ) % order.toNat
  mul : (a.mul b).toNat = a.toNat * b.toNat % order.toNat
  from_gfp5 :
    (fromGfp5 x).toNat = value (2 ^ 64) (x.toBasefieldArray.map UInt64.toNat) % order.toNat
  random_canonical : (fromRandomBytes random).Canonical
  random_congruent : (fromRandomBytes random).toNat ≡ ofLe random [MOD order.toNat]
  accepts : Accepted buf ↔ ∃ s : Scalar, s.Canonical ∧ buf = s.encode
  encode_decode : Accepted buf → (decode buf).1.encode = buf
  decode_encode : decode a.encode = (a, 2 ^ 64 - 1)

theorem decode_encode {a : Scalar} (ha : a.Canonical) : decode a.encode = (a, 2 ^ 64 - 1) := by
  have haccepted : Accepted a.encode := by
    rw [accepted_iff, List.take_of_length_le (length_encode a).le, ofLe_encode]
    exact ⟨(length_encode a).ge, ha⟩
  have hfst : (decode a.encode).1 = a := by
    rw [decode_eq (length_encode a).ge, ofBytes_encode]
  exact Prod.ext hfst haccepted

/-- The canonical encodings have 40 bytes and read as less than `n`. -/
theorem exists_encode_iff (buf : Bytes) :
    (∃ s : Scalar, s.Canonical ∧ buf = s.encode) ↔ buf.length = 40 ∧ ofLe buf < order.toNat := by
  constructor
  · rintro ⟨s, hs, rfl⟩
    exact ⟨length_encode s, by rwa [ofLe_encode]⟩
  · rintro ⟨hlen, hlt⟩
    refine ⟨ofBytes buf, ?_, (encode_ofBytes hlen).symm⟩
    show (ofBytes buf).toNat < order.toNat
    rwa [toNat_ofBytes_of_length hlen]

/-- `decode` accepts the canonical encodings and what begins with one. -/
theorem accepts_iff (buf : Bytes) :
    (Accepted buf ↔ ∃ s : Scalar, s.Canonical ∧ buf = s.encode) ↔
      buf.length ≤ 40 ∨ order.toNat ≤ ofLe (buf.take 40) := by
  rw [accepted_iff, exists_encode_iff]
  constructor
  · intro h
    by_contra hlong
    push Not at hlong
    have := (h.mp ⟨hlong.1.le, hlong.2⟩).1
    omega
  · rintro (hshort | hlarge)
    · have hread : buf.take 40 = buf := List.take_of_length_le hshort
      rw [hread]
      exact and_congr_left' ⟨fun h => by omega, fun h => by omega⟩
    · refine iff_of_false (fun h => absurd h.2 (by omega)) ?_
      rintro ⟨hlen, hlt⟩
      rw [List.take_of_length_le hlen.le] at hlarge
      omega

/-- The arithmetic is right for all canonical scalars. The order is taken off random bytes once
    only, and `decode` does not look behind the first 40 bytes. -/
theorem correct_iff {a b : Scalar} (ha : a.Canonical) (hb : b.Canonical) (x : GFp5)
    {random : Bytes} (hrandom : random.length = 40) (buf : Bytes) :
    Correct a b x random buf ↔
      ofLe random < 2 * order.toNat ∧ (buf.length ≤ 40 ∨ order.toNat ≤ ofLe (buf.take 40)) := by
  obtain ⟨hcongruent, hcanonical⟩ := toNat_fromRandomBytes hrandom
  constructor
  · intro h
    exact ⟨hcanonical.mp h.random_canonical, (accepts_iff buf).mp h.accepts⟩
  · rintro ⟨hsmall, hbuf⟩
    have haccepts := (accepts_iff buf).mpr hbuf
    refine ⟨toNat_add ha hb, toNat_sub ha hb, toNat_neg ha, toNat_mul ha b, toNat_fromGfp5 x,
      hcanonical.mpr hsmall, hcongruent, haccepts, ?_, decode_encode ha⟩
    intro haccepted
    obtain ⟨s, hs, rfl⟩ := haccepts.mp haccepted
    rw [decode_encode hs]

/-- One and two, the element zero and the encoding of zero. -/
theorem correct_one_two :
    (single 1).Canonical ∧ (single 2).Canonical ∧ (zero.encode.length = 40 ∧
      (Correct (single 1) (single 2) GFp5.zero zero.encode zero.encode ↔
        ofLe zero.encode < 2 * order.toNat ∧
          (zero.encode.length ≤ 40 ∨ order.toNat ≤ ofLe (zero.encode.take 40)))) :=
  ⟨single_lt 1, single_lt 2, length_encode zero,
    correct_iff (single_lt 1) (single_lt 2) GFp5.zero (length_encode zero)
      zero.encode⟩

/-- Random bytes of all ones are not reduced, and a byte behind an encoding is not seen. -/
theorem not_correct :
    ¬Correct zero zero GFp5.zero (List.replicate 40 255) [] ∧
      ¬Correct zero zero GFp5.zero (List.replicate 40 0)
        (List.replicate 41 0) := by
  constructor
  · intro h
    have hcanonical : (fromRandomBytes (List.replicate 40 255)).toNat < order.toNat :=
      h.random_canonical
    exact absurd hcanonical (by decide +kernel)
  · intro h
    have haccepted : Accepted (List.replicate 41 0) := by
      unfold Accepted
      decide +kernel
    obtain ⟨s, -, henc⟩ := h.accepts.mp haccepted
    have hlen := congrArg List.length henc
    rw [length_encode, List.length_replicate] at hlen
    omega

end Scalar

end Digdigdig3.Lighter
