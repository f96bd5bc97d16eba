import Mathlib.Tactic
import Mathlib.Data.List.Basic

/-!
# Little-endian integers in byte strings

A byte string is a `List Byte` with `Byte = Fin 256`. `toLe w n` is the `w`-byte
little-endian encoding of `n` (the low `8w` bits are kept, as an `as u32` cast
does), `ofLe` the value of a byte string read the same way.
-/

namespace Digdigdig3

abbrev Byte := Fin 256
abbrev Bytes := List Byte

/-- `n.to_le_bytes()` for an unsigned integer of `w` bytes. -/
def toLe : ℕ → ℕ → Bytes
  | 0, _ => []
  | w + 1, n => ⟨n % 256, Nat.mod_lt _ (by norm_num)⟩ :: toLe w (n / 256)

/-- `from_le_bytes(bs)`, at any width. -/
def ofLe : Bytes → ℕ
  | [] => 0
  | b :: bs => b.val + 256 * ofLe bs

@[simp] theorem length_toLe (w n : ℕ) : (toLe w n).length = w := by
  induction w generalizing n with
  | zero => rfl
  | succ w ih => simp [toLe, ih]

theorem ofLe_toLe (w n : ℕ) : ofLe (toLe w n) = n % 256 ^ w := by
  induction w generalizing n with
  | zero => simp [toLe, ofLe, Nat.mod_one]
  | succ w ih =>
    rw [toLe, ofLe, ih, pow_succ, mul_comm (256 ^ w) 256, Nat.mod_mul]

theorem ofLe_toLe_of_lt {w n : ℕ} (h : n < 256 ^ w) : ofLe (toLe w n) = n := by
  rw [ofLe_toLe, Nat.mod_eq_of_lt h]

theorem ofLe_lt (bs : Bytes) : ofLe bs < 256 ^ bs.length := by
  induction bs with
  | nil => simp [ofLe]
  | cons b bs ih =>
    have hb := b.isLt
    rw [ofLe, List.length_cons, pow_succ]
    omega

theorem toLe_ofLe {w : ℕ} {bs : Bytes} (h : bs.length = w) : toLe w (ofLe bs) = bs := by
  induction w generalizing bs with
  | zero => simpa [toLe] using (List.length_eq_zero_iff.mp h).symm
  | succ w ih =>
    cases bs with
    | nil => simp at h
    | cons b bs =>
      have hb := b.isLt
      have hdiv : (b.val + 256 * ofLe bs) / 256 = ofLe bs := by omega
      have hmod : (b.val + 256 * ofLe bs) % 256 = b.val := by omega
      rw [ofLe, toLe, hdiv, ih (by simpa using h)]
      congr 1
      exact Fin.ext hmod

/-! ## Signed 64-bit integers -/

/-- `x.to_le_bytes()` for an `i64`. -/
def i64ToLe (x : Int64) : Bytes := toLe 8 x.toBitVec.toNat

/-- `i64::from_le_bytes(bs)`. -/
def i64OfLe (bs : Bytes) : Int64 := Int64.ofBitVec (BitVec.ofNat 64 (ofLe bs))

@[simp] theorem length_i64ToLe (x : Int64) : (i64ToLe x).length = 8 := length_toLe _ _

@[simp] theorem i64OfLe_i64ToLe (x : Int64) : i64OfLe (i64ToLe x) = x := by
  have h : x.toBitVec.toNat < 256 ^ 8 := x.toBitVec.isLt
  rw [i64OfLe, i64ToLe, ofLe_toLe_of_lt h, BitVec.ofNat_toNat, BitVec.setWidth_eq,
    Int64.ofBitVec_toBitVec]

theorem i64ToLe_i64OfLe {bs : Bytes} (h : bs.length = 8) : i64ToLe (i64OfLe bs) = bs := by
  have hlt : ofLe bs < 2 ^ 64 := by have := ofLe_lt bs; rw [h] at this; omega
  rw [i64ToLe, i64OfLe, Int64.toBitVec_ofBitVec, BitVec.toNat_ofNat, Nat.mod_eq_of_lt hlt,
    toLe_ofLe h]

/-! ## Slices -/

/-- `bs[off..off + len]`. -/
def slice (bs : Bytes) (off len : ℕ) : Bytes := (bs.drop off).take len

/-- A slice that lies inside the first part of a longer string is unchanged. -/
theorem slice_append_left {a b : Bytes} {off len : ℕ} (h : off + len ≤ a.length) :
    slice (a ++ b) off len = slice a off len := by
  unfold slice
  rw [List.drop_append_of_le_length (by omega), List.take_append_of_le_length (by simp; omega)]

theorem slice_append_mid (a x b : Bytes) : slice (a ++ (x ++ b)) a.length x.length = x := by
  simp [slice]

/-- Writing `x` over `bs` at `off`: `bs[off..off + x.len()].copy_from_slice(x)`. -/
def patch (bs : Bytes) (off : ℕ) (x : Bytes) : Bytes :=
  bs.take off ++ x ++ bs.drop (off + x.length)

theorem length_patch {bs x : Bytes} {off : ℕ} (h : off + x.length ≤ bs.length) :
    (patch bs off x).length = bs.length := by
  simp [patch]; omega

theorem slice_patch {bs x : Bytes} {off : ℕ} (h : off + x.length ≤ bs.length) :
    slice (patch bs off x) off x.length = x := by
  have hlen : (bs.take off).length = off := by simp; omega
  have := slice_append_mid (bs.take off) x (bs.drop (off + x.length))
  rwa [hlen, ← List.append_assoc] at this

/-! ## Reading from the front -/

/-- `read_exact` of `n` bytes; `none` is `UnexpectedEof`. -/
def readExact (n : ℕ) (bs : Bytes) : Option (Bytes × Bytes) :=
  if n ≤ bs.length then some (bs.take n, bs.drop n) else none

theorem readExact_append {x : Bytes} {n : ℕ} (h : x.length = n) (rest : Bytes) :
    readExact n (x ++ rest) = some (x, rest) := by
  subst h; simp [readExact]

theorem readExact_eq_some {n : ℕ} {bs x rest : Bytes} (h : readExact n bs = some (x, rest)) :
    bs = x ++ rest ∧ x.length = n := by
  unfold readExact at h
  split_ifs at h with hn
  cases h
  exact ⟨(List.take_append_drop n bs).symm, by simp; omega⟩

end Digdigdig3
