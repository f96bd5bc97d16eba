import Mathlib.Tactic
import Mathlib.FieldTheory.Finite.Basic
import Mathlib.NumberTheory.LucasPrimality
import Digdigdig3.Lighter.Goldilocks

/-!
# `GFp` is the field of `p` elements

The arithmetic of `GFp` (`crates/digdigdig3/src/l3/open/crypto/dex/lighter/crypto/goldilocks.rs`)
and the field `ZMod p` it computes in.

* `prime_modulus`: `p` is a prime.
* `toField_add`, `toField_sub`, `toField_mul`, `toField_mulSmall`, `toField_invert`: each operation
  is that of the field on the integers that the elements stand for.
-/

namespace Digdigdig3.Lighter

theorem prime_modulus : Nat.Prime modulus := by
  unfold modulus
  apply lucas_primality _ 7
  · norm_num1
    reduce_mod_char
  · intro q hq hdvd
    have hfactors : 18446744069414584321 - 1 = 2 ^ 32 * (3 * (5 * (17 * (257 * 65537)))) := by
      norm_num
    have hcases : q = 2 ∨ q = 3 ∨ q = 5 ∨ q = 17 ∨ q = 257 ∨ q = 65537 := by
      rw [hfactors] at hdvd
      simp only [hq.dvd_mul] at hdvd
      obtain h | h | h | h | h | h := hdvd
      · exact Or.inl ((Nat.prime_dvd_prime_iff_eq hq (by norm_num)).mp (hq.dvd_of_dvd_pow h))
      all_goals
        have := (Nat.prime_dvd_prime_iff_eq hq (by norm_num)).mp h
        tauto
    obtain rfl | rfl | rfl | rfl | rfl | rfl := hcases <;> norm_num1 <;> reduce_mod_char <;> decide

instance fact_prime_modulus : Fact (Nat.Prime modulus) := ⟨prime_modulus⟩

namespace GFp

/-- The element of the field that the word stands for. -/
def toField (x : GFp) : ZMod modulus := (x.toU64.toNat : ZMod modulus)

theorem cast_two_pow_64 : ((2 ^ 64 : ℕ) : ZMod modulus) = 2 ^ 64 := by
  rw [Nat.cast_pow, Nat.cast_ofNat]

theorem two_pow_64_ne_zero : (2 ^ 64 : ZMod modulus) ≠ 0 := by
  rw [← cast_two_pow_64, Ne, ZMod.natCast_eq_zero_iff]
  decide

/-- The word is the element by `2^64`. -/
theorem toField_mul_two_pow (x : GFp) : x.toField * 2 ^ 64 = (x.mont : ZMod modulus) := by
  have h := montyred_mul x.mont_lt_mul
  rwa [← ZMod.natCast_eq_natCast_iff, ← x.toNat_toU64, Nat.cast_mul, cast_two_pow_64] at h

theorem toField_eq_of_mont {x : GFp} {a : ZMod modulus} (h : (x.mont : ZMod modulus) = a * 2 ^ 64) :
    x.toField = a :=
  mul_right_cancel₀ two_pow_64_ne_zero (x.toField_mul_two_pow.trans h)

theorem toField_injective {x y : GFp} (h : x.toField = y.toField) : x = y := by
  have hmont : (x.mont : ZMod modulus) = y.mont := by
    rw [← toField_mul_two_pow, ← toField_mul_two_pow, h]
  rw [ZMod.natCast_eq_natCast_iff] at hmont
  exact mont_injective (hmont.eq_of_lt_of_lt x.mont_lt y.mont_lt)

@[simp] theorem toField_fromU64Reduce (v : UInt64) :
    (fromU64Reduce v).toField = (v.toNat : ZMod modulus) := by
  apply toField_eq_of_mont
  have h := mont_fromU64Reduce v
  rwa [← ZMod.natCast_eq_natCast_iff, Nat.cast_mul, cast_two_pow_64] at h

/-! ## Constants -/

/-- `ZERO` (line 19). -/
def zero : GFp := fromU64Reduce 0

/-- `ONE` (line 22). -/
def one : GFp := fromU64Reduce 1

@[simp] theorem toField_zero : zero.toField = 0 := by simp [zero]

@[simp] theorem toField_one : one.toField = 1 := by simp [one]

/-! ## Sums and differences -/

theorem mont_lt_word (x : GFp) : x.mont < 2 ^ 64 := x.mont_lt.trans (by decide)

/-- The subtraction of a word, and of `2^32 - 1` where it borrows. -/
theorem cast_borrow {x b : ℕ} (hx : x < 2 ^ 64) (hb : b ≤ modulus) (hfits : x < b + modulus) :
    wrappingSub (wrappingSub x b) (if x < b then 2 ^ 32 - 1 else 0) < modulus ∧
      ((wrappingSub (wrappingSub x b) (if x < b then 2 ^ 32 - 1 else 0) : ℕ) : ZMod modulus) =
        (x : ZMod modulus) - b := by
  rw [wrappingSub_borrow hx hb]
  split_ifs with h
  · refine ⟨by omega, ?_⟩
    rw [Nat.cast_sub (by omega), Nat.cast_add, ZMod.natCast_self, add_zero]
  · exact ⟨by omega, Nat.cast_sub (not_lt.mp h)⟩

/-- `add` (lines 93–101). -/
def add (x rhs : GFp) : GFp where
  mont := wrappingSub (wrappingSub x.mont (modulus - rhs.mont))
    (if x.mont < modulus - rhs.mont then 2 ^ 32 - 1 else 0)
  mont_lt := (cast_borrow x.mont_lt_word (Nat.sub_le _ _) (x.mont_lt.trans_le le_add_self)).1

/-- `sub` (lines 104–109). -/
def sub (x rhs : GFp) : GFp where
  mont := wrappingSub (wrappingSub x.mont rhs.mont) (if x.mont < rhs.mont then 2 ^ 32 - 1 else 0)
  mont_lt := (cast_borrow x.mont_lt_word rhs.mont_lt.le (x.mont_lt.trans_le le_add_self)).1

instance : Add GFp := ⟨add⟩
instance : Sub GFp := ⟨sub⟩

/-- `neg` (lines 112–115). -/
instance : Neg GFp := ⟨fun x => zero - x⟩

/-- `double` (lines 126–129). -/
def double (x : GFp) : GFp := x + x

@[simp] theorem toField_add (x y : GFp) : (x + y).toField = x.toField + y.toField := by
  apply toField_eq_of_mont
  have h := (cast_borrow x.mont_lt_word (Nat.sub_le modulus y.mont)
    (x.mont_lt.trans_le le_add_self)).2
  rw [Nat.cast_sub y.mont_lt.le, ZMod.natCast_self, zero_sub, sub_neg_eq_add] at h
  rw [add_mul, toField_mul_two_pow, toField_mul_two_pow]
  exact h

@[simp] theorem toField_sub (x y : GFp) : (x - y).toField = x.toField - y.toField := by
  apply toField_eq_of_mont
  rw [sub_mul, toField_mul_two_pow, toField_mul_two_pow]
  exact (cast_borrow x.mont_lt_word y.mont_lt.le (x.mont_lt.trans_le le_add_self)).2

@[simp] theorem toField_neg (x : GFp) : (-x).toField = -x.toField := by
  have h : (-x).toField = (zero - x).toField := rfl
  rw [h, toField_sub, toField_zero, zero_sub]

@[simp] theorem toField_double (x : GFp) : x.double.toField = 2 * x.toField := by
  rw [double, toField_add, two_mul]

/-! ## Products -/

/-- `mul` (lines 143–146). -/
def mul (x rhs : GFp) : GFp where
  mont := montyred (x.mont * rhs.mont)
  mont_lt := montyred_lt (Nat.mul_lt_mul'' x.mont_lt rhs.mont_lt_word)

instance : Mul GFp := ⟨mul⟩

/-- `square` (lines 149–152). -/
def square (x : GFp) : GFp := x * x

/-- `msquare` (lines 155–161). -/
def msquare (x : GFp) : ℕ → GFp
  | 0 => x
  | n + 1 => (msquare x n).square

@[simp] theorem toField_mul (x y : GFp) : (x * y).toField = x.toField * y.toField := by
  apply toField_eq_of_mont
  have h := montyred_mul (Nat.mul_lt_mul'' x.mont_lt y.mont_lt_word)
  rw [← ZMod.natCast_eq_natCast_iff, Nat.cast_mul, cast_two_pow_64, Nat.cast_mul,
    ← toField_mul_two_pow, ← toField_mul_two_pow] at h
  apply mul_right_cancel₀ two_pow_64_ne_zero
  exact h.trans (by ring)

@[simp] theorem toField_square (x : GFp) : x.square.toField = x.toField ^ 2 := by
  rw [square, toField_mul, sq]

@[simp] theorem toField_msquare (x : GFp) (n : ℕ) : (x.msquare n).toField = x.toField ^ 2 ^ n := by
  induction n with
  | zero => rw [msquare, pow_zero, pow_one]
  | succ n ih => rw [msquare, toField_square, ih, ← pow_mul, pow_succ]

/-- The high half of `x * rhs`, by `2^32 - 1`: what it is modulo `p`. -/
def mulHigh (x : GFp) (rhs : UInt32) : ℕ :=
  let xh := x.mont * rhs.toNat / 2 ^ 64
  xh * 2 ^ 32 - xh

theorem mulHigh_add_le (x : GFp) (rhs : UInt32) :
    mulHigh x rhs ≤ modulus ∧ mulHigh x rhs + 2 ^ 64 ≤ 2 * modulus := by
  have hprod : x.mont * rhs.toNat < 2 ^ 64 * 2 ^ 32 := Nat.mul_lt_mul'' x.mont_lt_word rhs.toNat_lt
  have hhigh : x.mont * rhs.toNat / 2 ^ 64 < 2 ^ 32 := Nat.div_lt_of_lt_mul hprod
  simp only [mulHigh, modulus]
  omega

theorem borrow_mulHigh (x : GFp) (rhs : UInt32) :
    wrap (x.mont * rhs.toNat) < 2 ^ 64 ∧ modulus - mulHigh x rhs ≤ modulus ∧
      wrap (x.mont * rhs.toNat) < modulus - mulHigh x rhs + modulus := by
  have hbound := mulHigh_add_le x rhs
  have hlow : wrap (x.mont * rhs.toNat) < 2 ^ 64 := Nat.mod_lt _ (by norm_num)
  omega

/-- `mul_small` (lines 132–140). -/
def mulSmall (x : GFp) (rhs : UInt32) : GFp where
  mont := wrappingSub (wrappingSub (wrap (x.mont * rhs.toNat)) (modulus - mulHigh x rhs))
    (if wrap (x.mont * rhs.toNat) < modulus - mulHigh x rhs then 2 ^ 32 - 1 else 0)
  mont_lt :=
    (cast_borrow (borrow_mulHigh x rhs).1 (borrow_mulHigh x rhs).2.1 (borrow_mulHigh x rhs).2.2).1

/-- `2^64` is `2^32 - 1` modulo `p`. -/
theorem two_pow_64_eq : (2 ^ 64 : ZMod modulus) = 2 ^ 32 - 1 := by
  have hsplit : modulus + 2 ^ 32 = 2 ^ 64 + 1 := by decide
  have hcast := congrArg (Nat.cast : ℕ → ZMod modulus) hsplit
  rw [Nat.cast_add, Nat.cast_add, ZMod.natCast_self, Nat.cast_pow, Nat.cast_pow, Nat.cast_ofNat,
    Nat.cast_one] at hcast
  linear_combination -hcast

theorem cast_mulHigh (x : GFp) (rhs : UInt32) :
    (wrap (x.mont * rhs.toNat) : ZMod modulus) + mulHigh x rhs =
      (x.mont : ZMod modulus) * rhs.toNat := by
  have hsplit := Nat.mod_add_div (x.mont * rhs.toNat) (2 ^ 64)
  have hcast := congrArg (Nat.cast : ℕ → ZMod modulus) hsplit
  rw [Nat.cast_add, Nat.cast_mul, cast_two_pow_64, two_pow_64_eq, Nat.cast_mul] at hcast
  rw [mulHigh, Nat.cast_sub (Nat.le_mul_of_pos_right _ (by norm_num)), Nat.cast_mul, Nat.cast_pow,
    Nat.cast_ofNat, wrap, ← hcast]
  ring

@[simp] theorem toField_mulSmall (x : GFp) (rhs : UInt32) :
    (x.mulSmall rhs).toField = x.toField * rhs.toNat := by
  apply toField_eq_of_mont
  have h := (cast_borrow (borrow_mulHigh x rhs).1 (borrow_mulHigh x rhs).2.1
    (borrow_mulHigh x rhs).2.2).2
  rw [Nat.cast_sub (mulHigh_add_le x rhs).1, ZMod.natCast_self, zero_sub, sub_neg_eq_add,
    cast_mulHigh, ← toField_mul_two_pow] at h
  exact h.trans (mul_right_comm _ _ _)

/-! ## Inversion -/

/-- `invert` (lines 166–179): the power `p - 2`, by a chain. -/
def invert (x : GFp) : GFp :=
  let x2 := x * x.square
  let x4 := x2 * x2.msquare 2
  let x5 := x * x4.square
  let x10 := x5 * x5.msquare 5
  let x15 := x5 * x10.msquare 5
  let x16 := x * x15.square
  let x31 := x15 * x16.msquare 15
  let x32 := x * x31.square
  x32 * x31.msquare 33

theorem toField_invert_pow (x : GFp) : x.invert.toField = x.toField ^ (modulus - 2) := by
  have hexp : modulus - 2 = 2 ^ 64 - 2 ^ 32 - 1 := by decide
  rw [hexp]
  simp only [invert, toField_mul, toField_msquare, toField_square, ← pow_mul, ← pow_add,
    ← pow_succ']
  congr 1

/-- The inverse of the field; zero has zero. -/
@[simp] theorem toField_invert (x : GFp) : x.invert.toField = (x.toField)⁻¹ := by
  rw [toField_invert_pow]
  by_cases hx : x.toField = 0
  · rw [hx, inv_zero]
    exact zero_pow (by decide)
  · apply eq_inv_of_mul_eq_one_left
    rw [← pow_succ]
    exact ZMod.pow_card_sub_one_eq_one hx

end GFp

/-! ## Masks -/

/-- A word of `select`: all bits of one or of the other. -/
def selectWord (c x0 x1 : ℕ) : ℕ := x0 ^^^ (c &&& (x0 ^^^ x1))

theorem selectWord_zero (x0 x1 : ℕ) : selectWord 0 x0 x1 = x0 := by simp [selectWord]

theorem selectWord_ones {x0 x1 : ℕ} (h0 : x0 < 2 ^ 64) (h1 : x1 < 2 ^ 64) :
    selectWord (2 ^ 64 - 1) x0 x1 = x1 := by
  rw [selectWord, Nat.and_comm, Nat.and_two_pow_sub_one_eq_mod,
    Nat.mod_eq_of_lt (Nat.xor_lt_two_pow h0 h1), ← Nat.xor_assoc, Nat.xor_self, Nat.zero_xor]

/-- `!((((z | z.wrapping_neg()) as i64) >> 63) as u64)`: all ones for zero. -/
def isZeroMask (z : BitVec 64) : BitVec 64 := ~~~((z ||| -z).sshiftRight 63)

theorem ushiftRight_eq_zero {z : BitVec 64} (h : z.msb = false) : z >>> 63 = 0 := by
  apply BitVec.eq_of_toNat_eq
  rw [BitVec.toNat_ushiftRight, Nat.shiftRight_eq_div_pow]
  have hlt := BitVec.msb_eq_false_iff_two_mul_lt.mp h
  exact Nat.div_eq_of_lt (by omega)

/-- The sign over all bits. -/
theorem sshiftRight_eq (z : BitVec 64) :
    z.sshiftRight 63 = if z.msb then BitVec.allOnes 64 else 0 := by
  cases h : z.msb
  · rw [BitVec.sshiftRight_eq_of_msb_false h, ushiftRight_eq_zero h]
    rfl
  · have hnot : (~~~z).msb = false := by
      rw [BitVec.msb_not, h]
      rfl
    rw [BitVec.sshiftRight_eq_of_msb_true h, ushiftRight_eq_zero hnot]
    rfl

theorem isZeroMask_eq (z : BitVec 64) :
    isZeroMask z = if z = 0 then BitVec.allOnes 64 else 0 := by
  unfold isZeroMask
  rw [sshiftRight_eq, BitVec.msb_or, BitVec.msb_neg]
  by_cases hz : z = 0
  · subst hz
    decide
  · have hmsb : (z.msb || ((z != 0#64 && z != BitVec.intMin 64) ^^ z.msb)) = true := by
      cases h : z.msb
      · have hmin : z ≠ BitVec.intMin 64 := by
          rintro rfl
          exact absurd h (by decide)
        simpa [hmin] using hz
      · rfl
    rw [hmsb, if_pos rfl, if_neg hz]
    decide
namespace GFp

theorem zero_mont : zero.mont = 0 := by decide

/-- A word as an element. The masks below only make words that are elements. -/
def ofWord (word : ℕ) : GFp := if h : word < modulus then ⟨word, h⟩ else zero

theorem ofWord_mont (x : GFp) : ofWord x.mont = x := dif_pos x.mont_lt

/-- `select` (lines 285–287). -/
def select (c : ℕ) (x0 x1 : GFp) : GFp := ofWord (selectWord c x0.mont x1.mont)

theorem select_zero (x0 x1 : GFp) : select 0 x0 x1 = x0 := by
  rw [select, selectWord_zero, ofWord_mont]

theorem select_ones (x0 x1 : GFp) : select (2 ^ 64 - 1) x0 x1 = x1 := by
  rw [select, selectWord_ones x0.mont_lt_word x1.mont_lt_word, ofWord_mont]

/-- A line of `set_partial_lookup` (`gfp5.rs` line 464): the word is or-ed in under the mask. -/
def partialLookup (x y : GFp) (c : ℕ) : GFp := ofWord (x.mont ||| (c &&& y.mont))

theorem partialLookup_zero (x y : GFp) : partialLookup x y 0 = x := by
  rw [partialLookup, Nat.zero_and, Nat.or_zero, ofWord_mont]

theorem partialLookup_ones (y : GFp) : partialLookup zero y (2 ^ 64 - 1) = y := by
  rw [partialLookup, zero_mont, Nat.zero_or, Nat.and_comm, Nat.and_two_pow_sub_one_eq_mod,
    Nat.mod_eq_of_lt y.mont_lt_word, ofWord_mont]

end GFp

end Digdigdig3.Lighter
