import Digdigdig3.Lib.Decimal96
import Digdigdig3.Lib.DoubleText

/-!
# Prices and quantities as text

`crates/digdigdig3/src/core/utils/precision.rs`: a double is written as text, read as a `Decimal`,
divided by the tick, rounded to whole ticks and written again. `Decimal` is a number of 96 bits with
28 digits after the point; operations that leave these bounds round half to even, and overflow is an
error of `from_str` and a panic of the operators.

* `steps_unique`: if a product is right, so is the number of ticks.
* `writes_iff`: when the documented multiple is written, and kept when it is read again.
* `safe_iff_within`, `exists_not_safe`: the ticks and values for which the four functions do what
  is documented.

The value of a double is the shortest decimal that stands for it, as the module's documentation has
it. `Decimal::round` rounds half to even, the documentation half up.
-/

namespace Digdigdig3.Precision

open Decimal96 Float64

/-! ## Model -/

/-- `Decimal::from_str`; `none` is an error. Digits beyond the bounds are rounded half up. -/
def fromStr (text : DecimalText) : Option ℚ := fit roundUp text.value

/-- `normalize().to_string()`. -/
def normalize (v : ℚ) : DecimalText := strip ⌊v * 10 ^ 28⌋₊ 28

/-- `format!("{:.prec$}", v)`, of a `Decimal` with at most `prec` places. -/
def fixed (prec : ℕ) (v : ℚ) : DecimalText := ⟨⌊v * 10 ^ prec⌋₊, prec⟩

/-- `decimal_places` (lines 148–150). -/
def decimalPlaces (s : DecimalText) : ℕ := s.places

/-- The body of the four functions: `steps` rounds the quotient, `write` writes the result, and
    `none` is a panic of an operator. -/
def snap (steps : ℚ → ℕ) (write : ℚ → DecimalText) (x : ℚ) (tickSize : DecimalText) :
    Option DecimalText :=
  let d := (fromStr (display x)).getD 0
  let tick := (fromStr tickSize).getD 1
  if tick = 0 then some (normalize d)
  else
    (fit roundEven (d / tick)).bind fun quotient =>
      (fit roundEven (steps quotient * tick)).map write

/-- `safe_price` (lines 52–61). -/
def safePrice (price : ℚ) (tickSize : DecimalText) : Option DecimalText :=
  snap roundEven normalize price tickSize

/-- `safe_qty` (lines 79–88). -/
def safeQty (qty : ℚ) (stepSize : DecimalText) : Option DecimalText :=
  snap Nat.floor normalize qty stepSize

/-- `format_price` (lines 106–116). -/
def formatPrice (price : ℚ) (tickSize : DecimalText) : Option DecimalText :=
  snap roundEven (fixed (decimalPlaces tickSize)) price tickSize

/-- `format_qty` (lines 130–140). -/
def formatQty (qty : ℚ) (stepSize : DecimalText) : Option DecimalText :=
  snap Nat.floor (fixed (decimalPlaces stepSize)) qty stepSize

/-- `precision_to_tick` (lines 155–165). -/
def precisionToTick (digits : UInt8) : DecimalText := ⟨1, digits.toNat⟩

/-- The fields of `SymbolInfo` that `load_from_symbols` reads. -/
structure SymbolInfo where
  symbol : String
  pricePrecision : UInt8
  quantityPrecision : UInt8
  tickSize : Option ℚ
  stepSize : Option ℚ

/-- `PrecisionInfo` (lines 173–178). -/
structure PrecisionInfo where
  tickSize : DecimalText
  stepSize : DecimalText

/-- The text of a size, or that of a number of digits (lines 214–221). -/
def sizeText (size : Option ℚ) (precision : UInt8) : DecimalText :=
  match size with
  | some t => if 0 < t then display t else precisionToTick precision
  | none => precisionToTick precision

/-- The texts of a symbol (lines 214–225). -/
def precisionInfo (s : SymbolInfo) : PrecisionInfo where
  tickSize := sizeText s.tickSize s.pricePrecision
  stepSize := sizeText s.stepSize s.quantityPrecision

/-- `load_from_symbols` (lines 211–227). -/
def loadFromSymbols (cache : String → Option PrecisionInfo) :
    List SymbolInfo → String → Option PrecisionInfo
  | [] => cache
  | s :: symbols =>
    loadFromSymbols (Function.update cache s.symbol (some (precisionInfo s))) symbols

/-- `str::parse::<f64>` of a result. -/
def parse (text : DecimalText) : ℚ := nearest text.value

/-! ## Ticks -/

/-- A text that a `SymbolInfo` can have a size written as. -/
inductive IsTick : DecimalText → Prop
  | size {t : ℚ} : IsPositiveDouble t → IsTick (display t)
  | digits (precision : UInt8) : IsTick (precisionToTick precision)

theorem IsTick.pos {tick : DecimalText} (h : IsTick tick) : 0 < tick.value := by
  cases h with
  | size ht => exact display_pos ht.pos
  | digits precision => exact DecimalText.value_pos Nat.one_pos

/-- The sizes of a symbol are finite doubles. -/
def SymbolInfo.Finite (s : SymbolInfo) : Prop :=
  (∀ t, s.tickSize = some t → 0 < t → IsPositiveDouble t) ∧
    ∀ t, s.stepSize = some t → 0 < t → IsPositiveDouble t

theorem isTick_sizeText {size : Option ℚ} (h : ∀ t, size = some t → 0 < t → IsPositiveDouble t)
    (precision : UInt8) : IsTick (sizeText size precision) := by
  cases size with
  | none => exact .digits precision
  | some t =>
    rw [sizeText]
    split_ifs with hpos
    · exact .size (h t rfl hpos)
    · exact .digits precision

/-- The cache holds ticks. -/
theorem loadFromSymbols_isTick {symbols : List SymbolInfo} {cache : String → Option PrecisionInfo}
    (hsymbols : ∀ s ∈ symbols, s.Finite)
    (hcache : ∀ symbol info, cache symbol = some info → IsTick info.tickSize ∧ IsTick info.stepSize)
    (symbol : String) (info : PrecisionInfo)
    (h : loadFromSymbols cache symbols symbol = some info) :
    IsTick info.tickSize ∧ IsTick info.stepSize := by
  induction symbols generalizing cache with
  | nil => exact hcache symbol info h
  | cons s symbols ih =>
    obtain ⟨hs, hsymbols⟩ := List.forall_mem_cons.mp hsymbols
    refine ih hsymbols (fun symbol' info' h' => ?_) h
    by_cases hsymbol : symbol' = s.symbol
    · subst hsymbol
      rw [Function.update_self] at h'
      cases h'
      exact ⟨isTick_sizeText hs.1 _, isTick_sizeText hs.2 _⟩
    · rw [Function.update_of_ne hsymbol] at h'
      exact hcache symbol' info' h'

/-! ## Reading and writing -/

theorem value_normalize {v : ℚ} (h : Fits v) : (normalize v).value = v := by
  obtain ⟨n, hn⟩ := h.exists_nat
  rw [normalize, value_strip, hn, Nat.floor_natCast, ← hn]
  field_simp

theorem normalize_places_le (v : ℚ) : (normalize v).places ≤ 28 := strip_places_le _ _

theorem normalize_inj {v v' : ℚ} (h : Fits v) (h' : Fits v') (heq : normalize v = normalize v') :
    v = v' := by
  rw [← value_normalize h, heq, value_normalize h']

/-- A multiple of the tick has no more places than the tick. -/
theorem value_fixed (tick : DecimalText) (n : ℕ) :
    (fixed (decimalPlaces tick) (n * tick.value)).value = n * tick.value := by
  have hint : n * tick.value * 10 ^ tick.places = ((n * tick.digits : ℕ) : ℚ) := by
    rw [DecimalText.value]
    push_cast
    field_simp
  rw [fixed, DecimalText.value, decimalPlaces]
  simp only
  rw [hint, Nat.floor_natCast, ← hint]
  field_simp

/-- A short decimal is read exactly, or it is small. -/
theorem fromStr_short {x d : ℚ} (h : fromStr (display x) = some d) : IsShort d ∨ d ≤ 1 := by
  obtain ⟨digits, exponent, hdigits, hvalue⟩ := isShort_display x
  have hnonneg := (display x).value_nonneg
  rw [fromStr] at h
  have hexact : Fits (display x).value → IsShort d := by
    intro hfits
    rw [fit_of_fits isNearest_roundUp hfits] at h
    obtain rfl := Option.some.inj h
    exact ⟨digits, exponent, hdigits, hvalue⟩
  by_cases hpos : 0 ≤ exponent
  · -- an integer that is not too large
    obtain ⟨n, rfl⟩ := Int.eq_ofNat_of_zero_le hpos
    have hint : (display x).value = ((digits * 10 ^ n : ℕ) : ℚ) := by
      rw [hvalue]
      push_cast
      rfl
    refine .inl (hexact ?_)
    have hlt := rnd_lt_of_fit isNearest_roundUp hnonneg h
    rw [hint, isNearest_roundUp.natCast] at hlt
    rw [hint]
    exact fits_natCast hlt
  · obtain ⟨n, rfl⟩ := Int.exists_eq_neg_ofNat (not_le.mp hpos).le
    rw [zpow_neg, zpow_natCast, ← div_eq_mul_inv] at hvalue
    by_cases hplaces : n ≤ 28
    · exact .inl (hexact ⟨digits, n, hdigits.trans_lt (by decide), hplaces, hvalue⟩)
    · right
      refine fit_le_of_fits isNearest_roundUp hnonneg h fits_one ?_
      have hpow : (10 : ℚ) ^ 17 ≤ 10 ^ n := pow_le_pow_right₀ (by norm_num) (by omega)
      rw [hvalue, div_le_one (by positivity)]
      calc (digits : ℚ) ≤ ((10 ^ 17 : ℕ) : ℚ) := by exact_mod_cast hdigits
        _ ≤ 10 ^ n := by
          push_cast
          exact hpow

/-- With as many places as leave more than 27 digits, what is read is an integer. -/
theorem scaled_natCast {d : ℚ} (h : IsShort d ∨ d ≤ 1) {e : ℕ} (he : e < 28)
    (hlarge : 10 ^ 27 < d * 10 ^ e) : ∃ j : ℕ, d * 10 ^ e = j := by
  rcases h with ⟨digits, exponent, hdigits, rfl⟩ | hone
  · have hscale : (digits * 10 ^ exponent * 10 ^ e : ℚ) = digits * 10 ^ (exponent + e) := by
      rw [mul_assoc, ← zpow_natCast, ← zpow_add₀ (by norm_num)]
    rw [hscale] at hlarge ⊢
    by_cases hpos : 0 ≤ exponent + e
    · obtain ⟨n, hn⟩ := Int.eq_ofNat_of_zero_le hpos
      refine ⟨digits * 10 ^ n, ?_⟩
      rw [hn, zpow_natCast]
      push_cast
      rfl
    · have hle : (10 : ℚ) ^ (exponent + e) ≤ 1 :=
        zpow_le_one_of_nonpos₀ (by norm_num) (by omega)
      have hdigits' : (digits : ℚ) ≤ 10 ^ 17 := by exact_mod_cast hdigits
      have hprod : (digits : ℚ) * 10 ^ (exponent + e) ≤ digits * 1 :=
        mul_le_mul_of_nonneg_left hle (Nat.cast_nonneg _)
      linarith
  · have hpow : (10 : ℚ) ^ e ≤ 10 ^ 27 := pow_le_pow_right₀ (by norm_num) (by omega)
    have hprod : d * 10 ^ e ≤ 1 * 10 ^ e := mul_le_mul_of_nonneg_right hone (by positivity)
    linarith

/-! ## The number of ticks -/

variable {T d q : ℚ} {k N : ℕ}

/-- A product that is rounded to another multiple of the tick has digits that are smaller than
    the tick. -/
theorem product_rounded (hT : 0 < T) (hfits : Fits T) (hv : fit roundEven (k * T) = some (N * T))
    (hne : k ≠ N) : ∃ e < 28, ∃ r : ℕ, N * T * 10 ^ e = r ∧ |k * T * 10 ^ e - r| ≤ 1 / 2 ∧
      T * 10 ^ e ≤ 1 / 2 ∧ 2 ^ 96 - 1 / 2 ≤ k * T * 10 ^ e * 10 := by
  obtain ⟨e, he⟩ := exists_isFit hv
  obtain ⟨hlow, hup⟩ := isNearest_roundEven (k * T * 10 ^ e) (by positivity)
  have hr : N * T * 10 ^ e = roundEven (k * T * 10 ^ e) := by
    rw [he.eq]
    field_simp
  have hlt : e < 28 := by
    by_contra hge
    have heq : e = 28 := le_antisymm he.le (not_lt.mp hge)
    subst heq
    -- the product has no more places than the tick
    obtain ⟨a, ha⟩ := hfits.exists_nat
    have hint : (k : ℚ) * T * 10 ^ 28 = ((k * a : ℕ) : ℚ) := by
      push_cast
      rw [mul_assoc, ha]
    rw [hint, isNearest_roundEven.natCast, ← hint] at hr
    have hcancel := mul_right_cancel₀ (by positivity : (10 : ℚ) ^ 28 ≠ 0) hr
    have := mul_right_cancel₀ hT.ne' hcancel
    exact hne (by exact_mod_cast this.symm)
  refine ⟨e, hlt, _, hr, abs_le.mpr ⟨by linarith, by linarith⟩, ?_, ?_⟩
  · rw [← hr] at hlow hup
    have hunit : 0 < T * 10 ^ e := by positivity
    rcases Nat.lt_or_gt_of_ne hne with hlt' | hgt
    · have hcast : (k : ℚ) + 1 ≤ N := by exact_mod_cast hlt'
      nlinarith
    · have hcast : (N : ℚ) + 1 ≤ k := by exact_mod_cast hgt
      nlinarith
  · have hfull : ((2 ^ 96 : ℕ) : ℚ) ≤ roundEven (k * T * 10 ^ (e + 1)) := by
      exact_mod_cast he.full hlt
    have hnear := (isNearest_roundEven (k * T * 10 ^ (e + 1)) (by positivity)).2
    have hten : (k : ℚ) * T * 10 ^ (e + 1) = k * T * 10 ^ e * 10 := by ring
    rw [hten] at hnear hfull
    push_cast at hfull
    linarith

/-- A quotient that is so large has no digits after the point. -/
theorem quotient_natCast (hq : fit roundEven (d / T) = some q)
    (hlarge : 2 ^ 96 / 10 ≤ q) : q = roundEven (d / T) := by
  obtain ⟨e, he⟩ := exists_isFit hq
  cases e with
  | zero => simpa using he.eq
  | succ e =>
    have hlt : ((roundEven (d / T * 10 ^ (e + 1)) : ℕ) : ℚ) < ((2 ^ 96 : ℕ) : ℚ) := by
      exact_mod_cast he.lt
    have hpow : (10 : ℚ) ^ 1 ≤ 10 ^ (e + 1) := pow_le_pow_right₀ (by norm_num) (by omega)
    have heq := he.eq
    rw [eq_div_iff (by positivity)] at heq
    push_cast at hlt
    nlinarith

/-- **Key lemma.** If the product is right, so is the number of ticks. -/
theorem steps_unique (hT : 0 < T) (hfits : Fits T) (hd : 0 ≤ d) (hshort : IsShort d ∨ d ≤ 1)
    (hq : fit roundEven (d / T) = some q) (hle : (k : ℚ) ≤ q + 1 / 2)
    (hint : ∀ j : ℕ, q = j → k = j) (hv : fit roundEven (k * T) = some (N * T)) : k = N := by
  by_contra hne
  obtain ⟨e, he, r, hr, hnear, htick, hlarge⟩ := product_rounded hT hfits hv hne
  have hquotient : 0 ≤ d / T := by positivity
  have hpow : (0 : ℚ) < 10 ^ e := by positivity
  have hk : 2 ^ 96 / 10 + 1 / 2 ≤ (k : ℚ) := by
    have hprod : (k : ℚ) * (T * 10 ^ e) ≤ k * (1 / 2) :=
      mul_le_mul_of_nonneg_left htick (Nat.cast_nonneg _)
    norm_num at hlarge ⊢
    linarith
  have heq := quotient_natCast hq (by linarith)
  have hkq := hint _ heq
  -- the decimal is as close to the product as half a tick
  obtain ⟨hlow, hup⟩ := isNearest_roundEven (d / T) hquotient
  rw [← hkq] at hlow hup
  have hdu : d * 10 ^ e = d / T * (T * 10 ^ e) := by field_simp
  have hclose : |k * T * 10 ^ e - d * 10 ^ e| ≤ 1 / 4 := by
    have hunit : 0 < T * 10 ^ e := by positivity
    rw [hdu, abs_le]
    constructor <;> nlinarith
  obtain ⟨hlow', hup'⟩ := abs_le.mp hclose
  obtain ⟨j, hj⟩ := scaled_natCast hshort he (by norm_num at hlarge ⊢; linarith)
  rw [hj] at hlow' hup'
  obtain ⟨hlow'', hup''⟩ := abs_le.mp hnear
  have hrj : r = j := by
    have h₁ : (r : ℚ) < j + 1 := by linarith
    have h₂ : (j : ℚ) < r + 1 := by linarith
    have h₁' : r < j + 1 := by exact_mod_cast h₁
    have h₂' : j < r + 1 := by exact_mod_cast h₂
    omega
  have hdN : d = N * T := by
    rw [hrj, ← hj] at hr
    exact (mul_right_cancel₀ hpow.ne' hr).symm
  rw [hdN, mul_div_assoc, div_self hT.ne', mul_one, isNearest_roundEven.natCast] at hkq
  exact hne hkq

/-! ## Specification -/

/-- `v` is the multiple of `T` next to `D`; half way between two of them, the larger one. -/
structure IsNearestUp (D T v : ℚ) : Prop where
  multiple : ∃ n : ℕ, v = n * T
  le : v - T / 2 ≤ D
  lt : D < v + T / 2

/-- `v` is the largest multiple of `T` that is not above `D`. -/
structure IsLargestBelow (D T v : ℚ) : Prop where
  multiple : ∃ n : ℕ, v = n * T
  le : v ≤ D
  largest : ∀ n : ℕ, n * T ≤ D → n * T ≤ v

/-- Both texts stand for the number that is asked for, the second one with the decimals of the
    tick, and neither is changed by formatting it again. -/
def Writes (IsResult : ℚ → Prop) (safe format : ℚ → DecimalText → Option DecimalText) (x : ℚ)
    (tick : DecimalText) : Prop :=
  ∃ s f, safe x tick = some s ∧ format x tick = some f ∧ IsResult s.value ∧ f.value = s.value ∧
    f.places = decimalPlaces tick ∧ safe (parse s) tick = some s ∧ format (parse f) tick = some f

/-- What is documented of the four functions, at `x` and `tick`. -/
structure Safe (x : ℚ) (tick : DecimalText) : Prop where
  price : Writes (IsNearestUp (display x).value tick.value) safePrice formatPrice x tick
  qty : Writes (IsLargestBelow (display x).value tick.value) safeQty formatQty x tick

/-- `D / T` in decimals of 96 bits. -/
def quotient (D T : ℚ) : Option ℚ := (fit roundUp D).bind fun d => fit roundEven (d / T)

/-- `n` is the integer next to `q`, and even if `q` is half way to another one. -/
def IsNextEven (q : ℚ) (n : ℕ) : Prop := |q - n| ≤ 1 / 2 ∧ (|q - n| = 1 / 2 → n % 2 = 0)

/-- `n` is the integer part of `q`. -/
def IsWhole (q : ℚ) (n : ℕ) : Prop := (n : ℚ) ≤ q ∧ q < n + 1

/-- The multiple `n * T` is a decimal of 96 bits, and it is next to the quotients of `D` and of the
    double that it is read as. -/
structure Kept (IsNext : ℚ → ℕ → Prop) (D T : ℚ) (n : ℕ) : Prop where
  fits : Fits (n * T)
  next : ∃ q, quotient D T = some q ∧ IsNext q n
  again : ∃ q, quotient (display (nearest (n * T))).value T = some q ∧ IsNext q n

/-- The arithmetic of 96 bits keeps the documented multiples. -/
structure Within (x : ℚ) (tick : DecimalText) : Prop where
  price : Kept IsNextEven (display x).value tick.value
    ⌊(display x).value / tick.value + 1 / 2⌋₊
  qty : Kept IsWhole (display x).value tick.value ⌊(display x).value / tick.value⌋₊

theorem isNearestUp_iff {D v : ℚ} (hT : 0 < T) (hD : 0 ≤ D) :
    IsNearestUp D T v ↔ v = ⌊D / T + 1 / 2⌋₊ * T := by
  have hquotient : D = D / T * T := by field_simp
  have hnonneg : 0 ≤ D / T + 1 / 2 := by positivity
  constructor
  · rintro ⟨⟨n, rfl⟩, hle, hlt⟩
    have hn : ⌊D / T + 1 / 2⌋₊ = n := by
      rw [Nat.floor_eq_iff hnonneg]
      constructor
      · have : (n : ℚ) - 1 / 2 ≤ D / T := by
          rw [le_div_iff₀ hT]
          linarith
        linarith
      · have : D / T < n + 1 / 2 := by
          rw [div_lt_iff₀ hT]
          linarith
        linarith
    rw [hn]
  · rintro rfl
    have hle := Nat.floor_le hnonneg
    have hlt := Nat.lt_floor_add_one (D / T + 1 / 2)
    refine ⟨⟨_, rfl⟩, ?_, ?_⟩
    · nlinarith
    · nlinarith

theorem isLargestBelow_iff {D v : ℚ} (hT : 0 < T) (hD : 0 ≤ D) :
    IsLargestBelow D T v ↔ v = ⌊D / T⌋₊ * T := by
  have hnonneg : 0 ≤ D / T := by positivity
  have hle : ⌊D / T⌋₊ * T ≤ D := (le_div_iff₀ hT).mp (Nat.floor_le hnonneg)
  have hmax : ∀ n : ℕ, n * T ≤ D → n * T ≤ ⌊D / T⌋₊ * T := by
    intro n hn
    have hfloor : n ≤ ⌊D / T⌋₊ := Nat.le_floor ((le_div_iff₀ hT).mpr hn)
    have hcast : (n : ℚ) ≤ ⌊D / T⌋₊ := by exact_mod_cast hfloor
    exact mul_le_mul_of_nonneg_right hcast hT.le
  constructor
  · rintro ⟨⟨n, rfl⟩, hbelow, hlargest⟩
    exact le_antisymm (hmax n hbelow) (hlargest _ hle)
  · rintro rfl
    exact ⟨⟨_, rfl⟩, hle, hmax⟩

/-! ## Exact quotients -/

/-- A quotient of decimals that is a decimal is not rounded. -/
theorem quotient_exact {D : ℚ} (hD : Fits D) (hquotient : Fits (D / T)) :
    quotient D T = some (D / T) := by
  rw [quotient, fit_of_fits isNearest_roundUp hD, Option.bind_some,
    fit_of_fits isNearest_roundEven hquotient]

theorem isWhole_floor (hq : 0 ≤ q) : IsWhole q ⌊q⌋₊ := ⟨Nat.floor_le hq, Nat.lt_floor_add_one q⟩

/-- Then the only difference is at half way, where the larger multiple has to be the even one. -/
theorem isNextEven_iff (hq : 0 ≤ q) :
    IsNextEven q ⌊q + 1 / 2⌋₊ ↔ (q + 1 / 2 = ⌊q + 1 / 2⌋₊ → ⌊q + 1 / 2⌋₊ % 2 = 0) := by
  have hle := Nat.floor_le (show 0 ≤ q + 1 / 2 by linarith)
  have hlt := Nat.lt_floor_add_one (q + 1 / 2)
  constructor
  · rintro ⟨-, htie⟩ hhalf
    apply htie
    rw [← hhalf, abs_of_nonpos (by linarith)]
    ring
  · refine fun htie => ⟨abs_le.mpr ⟨by linarith, by linarith⟩, fun hhalf => htie ?_⟩
    rcases (abs_eq (by norm_num)).mp hhalf with h | h
    · linarith
    · linarith

/-! ## The four functions -/

/-- `steps` rounds a quotient by a half at most, to the integer that `IsNext` is about. -/
structure Rounds (steps : ℚ → ℕ) (IsNext : ℚ → ℕ → Prop) : Prop where
  eq_iff : ∀ {q : ℚ}, 0 ≤ q → ∀ {n : ℕ}, steps q = n ↔ IsNext q n
  le : ∀ {q : ℚ}, 0 ≤ q → (steps q : ℚ) ≤ q + 1 / 2
  natCast : ∀ n : ℕ, steps n = n

theorem rounds_roundEven : Rounds roundEven IsNextEven where
  eq_iff hq _ := roundEven_eq_iff hq
  le hq := (isNearest_roundEven _ hq).2
  natCast := isNearest_roundEven.natCast

theorem rounds_floor : Rounds Nat.floor IsWhole where
  eq_iff hq _ := Nat.floor_eq_iff hq
  le hq := (Nat.floor_le hq).trans (by linarith)
  natCast := Nat.floor_natCast

theorem fromStr_fits {text : DecimalText} (h : fromStr text = some d) : Fits d := fits_of_fit h

theorem kept_exact {steps : ℚ → ℕ} {IsNext : ℚ → ℕ → Prop} (hround : Rounds steps IsNext) {D : ℚ}
    {n : ℕ} (hT : 0 < T) (hD : Fits D) (hquotient : Fits (D / T)) (hn : n < 2 ^ 96)
    (hfits : Fits (n * T)) (hsame : (display (nearest (n * T))).value = n * T) :
    Kept IsNext D T n ↔ IsNext (D / T) n := by
  have hcancel : n * T / T = n := by field_simp
  have hagain : quotient (n * T) T = some (n : ℚ) := by
    rw [quotient_exact hfits (by rw [hcancel]; exact fits_natCast hn), hcancel]
  constructor
  · rintro ⟨-, ⟨q, hq, hnext⟩, -⟩
    rw [quotient_exact hD hquotient] at hq
    rwa [Option.some.inj hq]
  · intro hnext
    refine ⟨hfits, ⟨_, quotient_exact hD hquotient, hnext⟩, n, by rw [hsame, hagain], ?_⟩
    exact (hround.eq_iff (Nat.cast_nonneg n)).mp (hround.natCast n)

/-- Where everything is exact, prices are kept except at half way to an odd multiple. -/
theorem price_kept_iff {D : ℚ} (hT : 0 < T) (hD : Fits D) (hquotient : Fits (D / T))
    (hfits : Fits (⌊D / T + 1 / 2⌋₊ * T))
    (hsame : (display (nearest (⌊D / T + 1 / 2⌋₊ * T))).value = ⌊D / T + 1 / 2⌋₊ * T) :
    Kept IsNextEven D T ⌊D / T + 1 / 2⌋₊ ↔
      (D / T + 1 / 2 = ⌊D / T + 1 / 2⌋₊ → ⌊D / T + 1 / 2⌋₊ % 2 = 0) := by
  have hlt : ⌊D / T + 1 / 2⌋₊ < 2 ^ 96 := by
    have hle := hquotient.le
    rw [Nat.floor_lt (by linarith [hquotient.nonneg])]
    push_cast
    linarith
  exact (kept_exact rounds_roundEven hT hD hquotient hlt hfits hsame).trans
    (isNextEven_iff hquotient.nonneg)

/-- Where everything is exact, quantities are kept. -/
theorem qty_kept {D : ℚ} (hT : 0 < T) (hD : Fits D) (hquotient : Fits (D / T))
    (hfits : Fits (⌊D / T⌋₊ * T))
    (hsame : (display (nearest (⌊D / T⌋₊ * T))).value = ⌊D / T⌋₊ * T) :
    Kept IsWhole D T ⌊D / T⌋₊ := by
  have hlt : ⌊D / T⌋₊ < 2 ^ 96 := by
    have hle := hquotient.le
    rw [Nat.floor_lt hquotient.nonneg]
    push_cast
    linarith
  exact (kept_exact rounds_floor hT hD hquotient hlt hfits hsame).mpr
    (isWhole_floor hquotient.nonneg)

section Snap

variable {steps : ℚ → ℕ} {IsNext : ℚ → ℕ → Prop} {write : ℚ → DecimalText} {x : ℚ}
  {tick : DecimalText} {n : ℕ}

/-- What is written is a decimal of 96 bits. -/
theorem exists_of_snap {s : DecimalText} (h : snap steps normalize x tick = some s) :
    ∃ v, Fits v ∧ s = normalize v := by
  rw [snap] at h
  split_ifs at h
  · cases hread : fromStr (display x) with
    | none =>
      rw [hread] at h
      exact ⟨0, fits_zero, (Option.some.inj h).symm⟩
    | some d =>
      rw [hread] at h
      exact ⟨d, fromStr_fits hread, (Option.some.inj h).symm⟩
  · obtain ⟨q, -, h⟩ := Option.bind_eq_some_iff.mp h
    obtain ⟨v, hv, hs⟩ := Option.map_eq_some_iff.mp h
    exact ⟨v, fits_of_fit hv, hs.symm⟩

variable (hT : 0 < tick.value) (hfits : Fits tick.value)
include hT hfits

theorem snap_eq : snap steps write x tick =
    (fit roundEven ((fromStr (display x)).getD 0 / tick.value)).bind fun q =>
      (fit roundEven (steps q * tick.value)).map write := by
  have htick : fromStr tick = some tick.value := fit_of_fits isNearest_roundUp hfits
  rw [snap, htick]
  exact if_neg hT.ne'

/-- The documented multiple is written. -/
theorem snap_of_next (hround : Rounds steps IsNext) (hn : Fits (n * tick.value))
    (h : ∃ q, quotient (display x).value tick.value = some q ∧ IsNext q n) :
    snap steps write x tick = some (write (n * tick.value)) := by
  obtain ⟨q, hq, hnext⟩ := h
  obtain ⟨d, hd, hq⟩ := Option.bind_eq_some_iff.mp hq
  have hread : fromStr (display x) = some d := hd
  have hnonneg : 0 ≤ q := (fits_of_fit hq).nonneg
  rw [snap_eq hT hfits, hread, Option.getD_some, hq, Option.bind_some,
    (hround.eq_iff hnonneg).mpr hnext, fit_of_fits isNearest_roundEven hn, Option.map_some]

/-- If what is written is the documented multiple, it is next to the quotient. -/
theorem next_of_snap (hround : Rounds steps IsNext) {s : DecimalText}
    (h : snap steps write x tick = some s) : ∃ v, Fits v ∧ s = write v ∧
      (v = n * tick.value → (n = 0 → (display x).value < tick.value) →
        ∃ q, quotient (display x).value tick.value = some q ∧ IsNext q n) := by
  rw [snap_eq hT hfits] at h
  obtain ⟨q, hq, h⟩ := Option.bind_eq_some_iff.mp h
  obtain ⟨v, hv, hs⟩ := Option.map_eq_some_iff.mp h
  refine ⟨v, fits_of_fit hv, hs.symm, fun hvalue hzero => ?_⟩
  subst hvalue
  cases hread : fromStr (display x) with
  | none =>
    -- the value is larger than any decimal, and the default is zero
    rw [hread, Option.getD_none, zero_div, fit_of_fits isNearest_roundEven fits_zero] at hq
    obtain rfl := Option.some.inj hq
    have hsteps : steps 0 = 0 := by exact_mod_cast hround.natCast 0
    rw [hsteps, Nat.cast_zero, zero_mul, fit_of_fits isNearest_roundEven fits_zero] at hv
    have hprod : (n : ℚ) * tick.value = 0 := (Option.some.inj hv).symm
    have hn : n = 0 := by
      rcases mul_eq_zero.mp hprod with hn | hn
      · exact_mod_cast hn
      · exact absurd hn hT.ne'
    have hlt := hzero hn
    have hlow := le_of_fit_eq_none isNearest_roundUp (display x).value_nonneg hread
    have hup := hfits.le
    linarith
  | some d =>
    rw [hread, Option.getD_some] at hq
    have hnonneg : 0 ≤ q := (fits_of_fit hq).nonneg
    have hk := steps_unique hT hfits (fromStr_fits hread).nonneg (fromStr_short hread) hq
      (hround.le hnonneg) (fun j hj => by rw [hj, hround.natCast]) hv
    refine ⟨q, ?_, (hround.eq_iff hnonneg).mp hk⟩
    rw [quotient]
    exact Option.bind_eq_some_iff.mpr ⟨d, hread, hq⟩

/-- The documented results are written exactly when the multiple is kept. -/
theorem writes_iff (hround : Rounds steps IsNext) {IsResult : ℚ → Prop}
    (hresult : ∀ v, IsResult v ↔ v = n * tick.value)
    (hzero : n = 0 → (display x).value < tick.value) :
    Writes IsResult (snap steps normalize)
        (fun x tick => snap steps (fixed (decimalPlaces tick)) x tick) x tick ↔
      Kept IsNext (display x).value tick.value n := by
  constructor
  · rintro ⟨s, f, hs, -, hvalue, -, -, hagain, -⟩
    obtain ⟨v, hv, hnormal, hnext⟩ := next_of_snap hT hfits hround hs
    rw [hnormal, value_normalize hv, hresult] at hvalue
    rw [hnormal, parse, value_normalize hv, hvalue] at hagain
    obtain ⟨v', hv', hnormal', hnext'⟩ := next_of_snap hT hfits hround hagain
    refine ⟨hvalue ▸ hv, hnext hvalue hzero, hnext' ?_ ?_⟩
    · exact (normalize_inj (hvalue ▸ hv) hv' hnormal').symm
    · rintro rfl
      rw [Nat.cast_zero, zero_mul, nearest_zero]
      simpa [display, DecimalText.value] using hT
  · rintro ⟨hn, hnext, hagain⟩
    have hvalue := value_normalize hn
    have hfixed := value_fixed tick n
    refine ⟨_, _, snap_of_next hT hfits hround hn hnext, snap_of_next hT hfits hround hn hnext,
      (hresult _).mpr hvalue, hfixed.trans hvalue.symm, rfl, ?_, ?_⟩
    · rw [parse, hvalue]
      exact snap_of_next hT hfits hround hn hagain
    · rw [parse, hfixed]
      exact snap_of_next hT hfits hround hn hagain

end Snap

/-- The functions are safe exactly where 96 bits are enough. -/
theorem safe_iff_within {x : ℚ} {tick : DecimalText} (hT : 0 < tick.value)
    (hfits : Fits tick.value) : Safe x tick ↔ Within x tick := by
  have hD := (display x).value_nonneg
  have hprice := writes_iff hT hfits rounds_roundEven (fun v => isNearestUp_iff hT hD)
    (fun hzero => by
      have := Nat.floor_eq_zero.mp hzero
      rw [← lt_sub_iff_add_lt, div_lt_iff₀ hT] at this
      linarith)
  have hqty := writes_iff hT hfits rounds_floor (fun v => isLargestBelow_iff hT hD)
    (fun hzero => by simpa [div_lt_one hT] using Nat.floor_eq_zero.mp hzero)
  exact ⟨fun h => ⟨hprice.mp h.price, hqty.mp h.qty⟩,
    fun h => ⟨hprice.mpr h.price, hqty.mpr h.qty⟩⟩

example : safePrice (nearest (100055 / 1000)) ⟨1, 2⟩ = some ⟨10006, 2⟩ := by decide +kernel

example : safeQty (nearest (999 / 1000)) ⟨1, 2⟩ = some ⟨99, 2⟩ := by decide +kernel

theorem fromStr_precisionToTick {precision : UInt8} (h : 28 < precision.toNat) :
    fromStr (precisionToTick precision) = some 0 := by
  have hpow : (10 : ℚ) ^ 29 ≤ 10 ^ precision.toNat := pow_le_pow_right₀ (by norm_num) h
  have hsmall : ((1 : ℕ) : ℚ) / 10 ^ precision.toNat * 10 ^ 28 ≤ 1 / 10 := by
    rw [Nat.cast_one, div_mul_eq_mul_div, div_le_div_iff₀ (by positivity) (by norm_num)]
    linarith
  have hround : roundUp ((precisionToTick precision).value * 10 ^ 28) = 0 := by
    rw [roundUp, Nat.floor_eq_zero, precisionToTick, DecimalText.value]
    linarith
  rw [fromStr, fit_of_lt (by rw [hround]; decide), hround, Nat.cast_zero, zero_div]

/-- A tick with more digits than that is not kept at every value. -/
theorem exists_not_safe {tick : DecimalText} (h : IsTick tick) (hfits : ¬Fits tick.value) :
    ∃ x, (x = 0 ∨ IsPositiveDouble x) ∧ ¬Safe x tick := by
  have hpos := h.pos
  cases h with
  | @size t ht =>
    -- the tick itself is not written
    refine ⟨t, .inr ht, fun hsafe => hfits ?_⟩
    obtain ⟨s, -, hs, -, hvalue, -⟩ := hsafe.price
    obtain ⟨v, hv, rfl⟩ := exists_of_snap hs
    rw [value_normalize hv, isNearestUp_iff hpos hpos.le, div_self hpos.ne'] at hvalue
    have hone : ⌊(1 : ℚ) + 1 / 2⌋₊ = 1 := by norm_num [Nat.floor_eq_iff]
    rw [hone, Nat.cast_one, one_mul] at hvalue
    rwa [← hvalue]
  | digits precision =>
    -- the tick is read as zero, and its places are not written
    have hplaces : 28 < precision.toNat := by
      by_contra hle
      exact hfits ⟨1, precision.toNat, by decide, not_lt.mp hle, rfl⟩
    refine ⟨0, .inl rfl, fun hsafe => ?_⟩
    obtain ⟨-, f, -, hf, -, -, hfixed, -⟩ := hsafe.price
    rw [formatPrice, snap, fromStr_precisionToTick hplaces, Option.getD_some, if_pos rfl] at hf
    have hle := normalize_places_le ((fromStr (display 0)).getD 0)
    rw [Option.some.inj hf, hfixed] at hle
    exact absurd hle (not_le.mpr hplaces)

/-- **Main theorem.** At a tick of 96 bits the functions are safe exactly where 96 bits are enough
    for the quotients and products; at other ticks they are not safe. -/
theorem safe_iff {tick : DecimalText} (h : IsTick tick) :
    (Fits tick.value → ∀ x, Safe x tick ↔ Within x tick) ∧
      (¬Fits tick.value → ∃ x, (x = 0 ∨ IsPositiveDouble x) ∧ ¬Safe x tick) :=
  ⟨fun hfits _ => safe_iff_within h.pos hfits, exists_not_safe h⟩

theorem fits_cents : Fits (precisionToTick 2).value := ⟨1, 2, by decide, by decide, rfl⟩

/-- One, in cents. -/
theorem safe_one_cents : Safe 1 (precisionToTick 2) := by
  have htext : display 1 = ⟨1, 0⟩ := by decide +kernel
  have hone : (display 1).value = 1 := by rw [htext]; decide +kernel
  have hcent : (precisionToTick 2).value = 1 / 100 := by decide +kernel
  have hnearest : ⌊(1 : ℚ) / (1 / 100) + 1 / 2⌋₊ = 100 := by decide +kernel
  have hwhole : ⌊(1 : ℚ) / (1 / 100)⌋₊ = 100 := by decide +kernel
  have hquotient : Fits ((1 : ℚ) / (1 / 100)) := ⟨100, 0, by decide, by decide, by norm_num⟩
  have hsame : (display (nearest ((100 : ℕ) * (1 / 100)))).value = (100 : ℕ) * (1 / 100) := by
    decide +kernel
  have hmultiple : Fits ((100 : ℕ) * (1 / 100)) := ⟨1, 0, by decide, by decide, by norm_num⟩
  refine ((safe_iff (.digits 2)).1 fits_cents 1).mpr ⟨?_, ?_⟩
  · rw [hone, hcent]
    rw [price_kept_iff (by norm_num) fits_one hquotient (by rwa [hnearest]) (by rwa [hnearest]),
      hnearest]
    exact fun _ => by decide
  · rw [hone, hcent]
    exact qty_kept (by norm_num) fits_one hquotient (by rwa [hwhole]) (by rwa [hwhole])

theorem isPositiveDouble_half : IsPositiveDouble (1 / 2) :=
  ⟨1022 * 2 ^ 52, by decide, by decide, by decide +kernel⟩

/-- A half is half way between the multiples 0 and 1 of the tick 1, and is rounded down. -/
theorem half_not_safe : ¬∀ x tick, (x = 0 ∨ IsPositiveDouble x) → IsTick tick → Safe x tick := by
  intro h
  obtain ⟨s, -, hs, -, hresult, -⟩ :=
    (h (1 / 2) (precisionToTick 0) (.inr isPositiveDouble_half) (.digits 0)).price
  have hdown : safePrice (1 / 2) (precisionToTick 0) = some ⟨0, 0⟩ := by decide +kernel
  have htext : display (1 / 2) = ⟨5, 1⟩ := by decide +kernel
  rw [hdown] at hs
  obtain rfl := Option.some.inj hs
  have hlt := hresult.lt
  rw [htext] at hlt
  norm_num [DecimalText.value, precisionToTick] at hlt

end Digdigdig3.Precision
