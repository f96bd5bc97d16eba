import Mathlib.Data.Rat.Floor
import Mathlib.Tactic

/-!
# Decimals of 96 bits

Non-negative decimals with a mantissa below `2 ^ 96` and at most 28 digits after the point. A number
that is not one of them is rounded to as many digits after the point as its mantissa leaves room
for, by some way of rounding to an integer.

* `IsNearest`: rounding to one of the nearest integers; `roundEven`, `roundUp`.
* `fit_of_fits`: the decimals are not changed.
* `fit_mono`, `fits_of_fit`: rounding is monotone, and gives decimals.
-/

namespace Digdigdig3.Decimal96

/-! ## Rounding to an integer -/

/-- `rnd` rounds to one of the nearest integers. -/
def IsNearest (rnd : ℚ → ℕ) : Prop := ∀ q, 0 ≤ q → q - 1 / 2 ≤ rnd q ∧ (rnd q : ℚ) ≤ q + 1 / 2

/-- A half is rounded to the even neighbour. -/
def roundEven (q : ℚ) : ℕ :=
  if q - ⌊q⌋₊ < 1 / 2 then ⌊q⌋₊
  else if 1 / 2 < q - ⌊q⌋₊ then ⌊q⌋₊ + 1
  else if ⌊q⌋₊ % 2 = 0 then ⌊q⌋₊
  else ⌊q⌋₊ + 1

/-- A half is rounded up. -/
def roundUp (q : ℚ) : ℕ := ⌊q + 1 / 2⌋₊

theorem isNearest_roundEven : IsNearest roundEven := by
  intro q hq
  have hle := Nat.floor_le hq
  have hlt := Nat.lt_floor_add_one q
  rw [roundEven]
  split_ifs with hlow hhigh heven <;> push_cast <;> constructor <;> linarith

theorem isNearest_roundUp : IsNearest roundUp := by
  intro q hq
  have hle := Nat.floor_le (show 0 ≤ q + 1 / 2 by linarith)
  have hlt := Nat.lt_floor_add_one (q + 1 / 2)
  rw [roundUp]
  constructor <;> linarith

variable {rnd : ℚ → ℕ}

theorem IsNearest.mono (h : IsNearest rnd) {a b : ℚ} (ha : 0 ≤ a) (hab : a ≤ b) :
    rnd a ≤ rnd b := by
  rcases hab.eq_or_lt with rfl | hlt
  · exact le_rfl
  · have hup := (h a ha).2
    have hlow := (h b (ha.trans hab)).1
    have hcast : (rnd a : ℚ) < rnd b + 1 := by linarith
    exact Nat.lt_succ_iff.mp (by exact_mod_cast hcast)

/-- An integer is not changed. -/
theorem IsNearest.natCast (h : IsNearest rnd) (n : ℕ) : rnd n = n := by
  obtain ⟨hlow, hup⟩ := h n (Nat.cast_nonneg n)
  have hle : (rnd n : ℚ) < n + 1 := by linarith
  have hge : (n : ℚ) < rnd n + 1 := by linarith
  have hle' : rnd n < n + 1 := by exact_mod_cast hle
  have hge' : n < rnd n + 1 := by exact_mod_cast hge
  omega

/-- Rounding to even gives the nearest integer, and at half way the even one. -/
theorem roundEven_eq_iff {q : ℚ} (hq : 0 ≤ q) {n : ℕ} :
    roundEven q = n ↔ |q - n| ≤ 1 / 2 ∧ (|q - n| = 1 / 2 → n % 2 = 0) := by
  have hle := Nat.floor_le hq
  have hlt := Nat.lt_floor_add_one q
  rw [abs_le]
  constructor
  · rintro rfl
    obtain ⟨hlow, hup⟩ := isNearest_roundEven q hq
    refine ⟨⟨by linarith, by linarith⟩, fun htie => ?_⟩
    rw [roundEven] at htie ⊢
    split_ifs at htie ⊢ with hbelow habove heven
    · -- the part behind the point is less than a half
      rw [abs_of_nonneg (by linarith)] at htie
      linarith
    · push_cast at htie
      rw [abs_of_nonpos (by linarith)] at htie
      linarith
    · exact heven
    · omega
  · rintro ⟨⟨hlow, hup⟩, htie⟩
    have hcast : (⌊q⌋₊ : ℚ) < n + 1 := by linarith
    have hcast' : (n : ℚ) < ⌊q⌋₊ + 2 := by linarith
    have hge : ⌊q⌋₊ < n + 1 := by exact_mod_cast hcast
    have hlt' : n < ⌊q⌋₊ + 2 := by exact_mod_cast hcast'
    have hcases : n = ⌊q⌋₊ ∨ n = ⌊q⌋₊ + 1 := by omega
    rw [roundEven]
    rcases hcases with rfl | rfl
    · rw [abs_of_nonneg (by linarith)] at htie
      split_ifs with hbelow habove heven
      · rfl
      · linarith
      · rfl
      · exact absurd (htie (by linarith)) heven
    · push_cast at hlow hup htie
      rw [abs_of_nonpos (by linarith)] at htie
      split_ifs with hbelow habove heven
      · linarith
      · rfl
      · have := htie (by linarith)
        omega
      · rfl

/-! ## Decimals -/

/-- `q` is a decimal of 96 bits. -/
def Fits (q : ℚ) : Prop := ∃ m e : ℕ, m < 2 ^ 96 ∧ e ≤ 28 ∧ q = m / 10 ^ e

theorem Fits.nonneg {q : ℚ} (h : Fits q) : 0 ≤ q := by
  obtain ⟨m, e, -, -, rfl⟩ := h
  positivity

theorem fits_natCast {n : ℕ} (h : n < 2 ^ 96) : Fits n := ⟨n, 0, h, by decide, by simp⟩

theorem fits_zero : Fits 0 := ⟨0, 0, by decide, by decide, by simp⟩

theorem fits_one : Fits 1 := ⟨1, 0, by decide, by decide, by simp⟩

theorem Fits.le {q : ℚ} (h : Fits q) : q ≤ 2 ^ 96 - 1 := by
  obtain ⟨m, e, hm, -, rfl⟩ := h
  have hmantissa : (m : ℚ) ≤ 2 ^ 96 - 1 := by
    have hle : m + 1 ≤ 2 ^ 96 := hm
    have hcast : (m : ℚ) + 1 ≤ 2 ^ 96 := by exact_mod_cast hle
    linarith
  exact (div_le_self (Nat.cast_nonneg m) (one_le_pow₀ (by norm_num))).trans hmantissa

/-- A decimal is a multiple of the last of the 28 digits. -/
theorem Fits.exists_nat {q : ℚ} (h : Fits q) : ∃ n : ℕ, q * 10 ^ 28 = n := by
  obtain ⟨m, e, -, he, rfl⟩ := h
  refine ⟨m * 10 ^ (28 - e), ?_⟩
  have hpow : (10 : ℚ) ^ 28 = 10 ^ e * 10 ^ (28 - e) := by
    rw [← pow_add]
    congr 1
    omega
  push_cast
  rw [hpow]
  field_simp

/-- The rounding with at most `e` digits after the point. -/
def fitFrom (rnd : ℚ → ℕ) (q : ℚ) : ℕ → Option ℚ
  | 0 => if rnd q < 2 ^ 96 then some (rnd q) else none
  | e + 1 =>
    if rnd (q * 10 ^ (e + 1)) < 2 ^ 96 then some (rnd (q * 10 ^ (e + 1)) / 10 ^ (e + 1))
    else fitFrom rnd q e

/-- The decimal that `q` is rounded to, if it is not too large. -/
def fit (rnd : ℚ → ℕ) (q : ℚ) : Option ℚ := fitFrom rnd q 28

/-- `v` is `q`, rounded to `e` digits after the point, for which there is room, though not for
    more. -/
structure IsFit (rnd : ℚ → ℕ) (q v : ℚ) (e : ℕ) : Prop where
  le : e ≤ 28
  lt : rnd (q * 10 ^ e) < 2 ^ 96
  eq : v = rnd (q * 10 ^ e) / 10 ^ e
  full : e < 28 → 2 ^ 96 ≤ rnd (q * 10 ^ (e + 1))

theorem isFit_of_fitFrom {q v : ℚ} {n : ℕ} (h : fitFrom rnd q n = some v) (hn : n ≤ 28)
    (hfull : n < 28 → 2 ^ 96 ≤ rnd (q * 10 ^ (n + 1))) : ∃ e, IsFit rnd q v e := by
  induction n with
  | zero =>
    rw [fitFrom] at h
    split_ifs at h with hlt
    refine ⟨0, by omega, by simpa using hlt, ?_, hfull⟩
    rw [← Option.some.inj h]
    simp
  | succ n ih =>
    rw [fitFrom] at h
    split_ifs at h with hlt
    · exact ⟨n + 1, hn, hlt, (Option.some.inj h).symm, hfull⟩
    · exact ih h (by omega) fun _ => not_lt.mp hlt

theorem exists_isFit {q v : ℚ} (h : fit rnd q = some v) : ∃ e, IsFit rnd q v e :=
  isFit_of_fitFrom h le_rfl fun hlt => absurd hlt (lt_irrefl 28)

theorem fit_of_lt {q : ℚ} (h : rnd (q * 10 ^ 28) < 2 ^ 96) :
    fit rnd q = some ((rnd (q * 10 ^ 28) : ℚ) / 10 ^ 28) :=
  if_pos h

theorem exists_fit {q : ℚ} (h : rnd q < 2 ^ 96) : ∃ v, fit rnd q = some v := by
  have hfrom : ∀ n, ∃ v, fitFrom rnd q n = some v := by
    intro n
    induction n with
    | zero => exact ⟨_, if_pos h⟩
    | succ n ih =>
      rw [fitFrom]
      split_ifs
      · exact ⟨_, rfl⟩
      · exact ih
  exact hfrom 28

/-- What is rounded gives a decimal. -/
theorem fits_of_fit {q v : ℚ} (h : fit rnd q = some v) : Fits v := by
  obtain ⟨e, he⟩ := exists_isFit h
  exact ⟨_, e, he.lt, he.le, he.eq⟩

variable (hrnd : IsNearest rnd)
include hrnd

/-- More digits make a larger mantissa. -/
theorem mantissa_mono {q : ℚ} (hq : 0 ≤ q) {e e' : ℕ} (h : e ≤ e') :
    rnd (q * 10 ^ e) ≤ rnd (q * 10 ^ e') := by
  apply hrnd.mono (by positivity)
  apply mul_le_mul_of_nonneg_left _ hq
  exact pow_le_pow_right₀ (by norm_num) h

/-- A number that there is no room for is large. -/
theorem le_of_fit_eq_none {q : ℚ} (hq : 0 ≤ q) (h : fit rnd q = none) : 2 ^ 96 - 1 / 2 ≤ q := by
  have hle : 2 ^ 96 ≤ rnd q := by
    by_contra hlt
    obtain ⟨v, hv⟩ := exists_fit (not_le.mp hlt)
    rw [hv] at h
    cases h
  have hcast : (2 ^ 96 : ℚ) ≤ rnd q := by exact_mod_cast hle
  have hup := (hrnd q hq).2
  linarith

theorem rnd_lt_of_fit {q v : ℚ} (hq : 0 ≤ q) (h : fit rnd q = some v) : rnd q < 2 ^ 96 := by
  obtain ⟨e, he⟩ := exists_isFit h
  have hmono := mantissa_mono hrnd hq (Nat.zero_le e)
  rw [pow_zero, mul_one] at hmono
  exact hmono.trans_lt he.lt

/-- A decimal is not changed. -/
theorem fit_of_fits {q : ℚ} (h : Fits q) : fit rnd q = some q := by
  obtain ⟨m, e₀, hm, he₀, hq⟩ := h
  have hnonneg : 0 ≤ q := by rw [hq]; positivity
  have hmantissa : q * 10 ^ e₀ = m := by
    rw [hq]
    field_simp
  have hsmall : rnd q < 2 ^ 96 := by
    have hmono := mantissa_mono hrnd hnonneg (Nat.zero_le e₀)
    rw [pow_zero, mul_one, hmantissa, hrnd.natCast] at hmono
    omega
  obtain ⟨v, hv⟩ := exists_fit hsmall
  obtain ⟨e, he⟩ := exists_isFit hv
  have hle : e₀ ≤ e := by
    by_contra hlt
    have hmono := mantissa_mono hrnd hnonneg (show e + 1 ≤ e₀ by omega)
    rw [hmantissa, hrnd.natCast] at hmono
    have := he.full (by omega)
    omega
  have hint : q * 10 ^ e = ((m * 10 ^ (e - e₀) : ℕ) : ℚ) := by
    push_cast
    rw [← hmantissa, mul_assoc, ← pow_add]
    congr 2
    omega
  have heq := he.eq
  rw [hint, hrnd.natCast, ← hint] at heq
  rw [hv, heq]
  congr 1
  field_simp

/-- Rounding is monotone. -/
theorem fit_mono {a b a' b' : ℚ} (ha : 0 ≤ a) (hab : a ≤ b) (hfa : fit rnd a = some a')
    (hfb : fit rnd b = some b') : a' ≤ b' := by
  have hb : 0 ≤ b := ha.trans hab
  obtain ⟨e, he⟩ := exists_isFit hfa
  obtain ⟨e', he'⟩ := exists_isFit hfb
  have hscale : ∀ k : ℕ, rnd (a * 10 ^ k) ≤ rnd (b * 10 ^ k) := by
    intro k
    apply hrnd.mono (by positivity)
    exact mul_le_mul_of_nonneg_right hab (by positivity)
  rcases Nat.lt_trichotomy e e' with hlt | rfl | hgt
  · -- the smaller number has no more room than the larger one
    have hfull := he.full (hlt.trans_le he'.le)
    have hle := (hscale (e + 1)).trans (mantissa_mono hrnd hb (show e + 1 ≤ e' by omega))
    have := he'.lt
    omega
  · rw [he.eq, he'.eq]
    apply div_le_div_of_nonneg_right _ (by positivity)
    exact_mod_cast hscale e
  · -- the larger number is above all mantissas with one digit more
    have hfull := he'.full (hgt.trans_le he.le)
    have hbig : (2 ^ 96 - 1 / 2 : ℚ) ≤ b * 10 ^ (e' + 1) := by
      have hup := (hrnd (b * 10 ^ (e' + 1)) (by positivity)).2
      have hcast : ((2 ^ 96 : ℕ) : ℚ) ≤ rnd (b * 10 ^ (e' + 1)) := by exact_mod_cast hfull
      push_cast at hcast
      linarith
    have hten : b * 10 ^ (e' + 1) = b * 10 ^ e' * 10 := by ring
    have hlow := (hrnd (b * 10 ^ e') (by positivity)).1
    have hmantissa : 7922816251426433759354395034 ≤ rnd (b * 10 ^ e') := by
      have hcast : (7922816251426433759354395033 : ℚ) < rnd (b * 10 ^ e') := by
        rw [hten] at hbig
        norm_num at hbig
        linarith
      have hlt : 7922816251426433759354395033 < rnd (b * 10 ^ e') := by exact_mod_cast hcast
      omega
    have hmantissa' : (7922816251426433759354395034 : ℚ) ≤ rnd (b * 10 ^ e') := by
      exact_mod_cast hmantissa
    have hsmall : (rnd (a * 10 ^ e) : ℚ) ≤ 2 ^ 96 - 1 := by
      have hlt : rnd (a * 10 ^ e) ≤ 2 ^ 96 - 1 := Nat.le_sub_one_of_lt he.lt
      have hcast : ((rnd (a * 10 ^ e) : ℕ) : ℚ) ≤ ((2 ^ 96 - 1 : ℕ) : ℚ) := by exact_mod_cast hlt
      norm_num at hcast ⊢
      exact hcast
    rw [he.eq, he'.eq]
    calc (rnd (a * 10 ^ e) : ℚ) / 10 ^ e
        ≤ (2 ^ 96 - 1) / 10 ^ e := div_le_div_of_nonneg_right hsmall (by positivity)
      _ ≤ (2 ^ 96 - 1) / 10 ^ (e' + 1) := by
        apply div_le_div_of_nonneg_left (by norm_num) (by positivity)
        exact pow_le_pow_right₀ (by norm_num) hgt
      _ ≤ rnd (b * 10 ^ e') / 10 ^ e' := by
        rw [div_le_div_iff₀ (by positivity) (by positivity), pow_succ]
        have hpos : (0 : ℚ) < 10 ^ e' := by positivity
        nlinarith

theorem fit_le_of_fits {q v c : ℚ} (hq : 0 ≤ q) (h : fit rnd q = some v) (hc : Fits c)
    (hle : q ≤ c) : v ≤ c :=
  fit_mono hrnd hq hle h (fit_of_fits hrnd hc)

end Digdigdig3.Decimal96
