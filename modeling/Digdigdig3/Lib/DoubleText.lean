import Digdigdig3.Lib.Float64

/-!
# Doubles as decimal text

A decimal text without exponent is its digits and how many of them stand after the point. `nearest`
is the double that a number is read as, `display` the shortest text that is read as a double, and
the closest one of that length.

* `value_strip`: zeros at the end do not matter.
* `nearest_of_isDouble`: a double is read as itself.
* `isShort_display`: a double is written with at most 17 digits.
-/

namespace Digdigdig3.Float64

/-! ## Texts -/

/-- A decimal text: `digits` with a point before the last `places` of them. -/
structure DecimalText where
  digits : ℕ
  places : ℕ
  deriving DecidableEq

def DecimalText.value (t : DecimalText) : ℚ := t.digits / 10 ^ t.places

theorem DecimalText.value_nonneg (t : DecimalText) : 0 ≤ t.value := by
  rw [value]
  positivity

theorem DecimalText.value_pos {t : DecimalText} (h : 0 < t.digits) : 0 < t.value := by
  rw [value]
  positivity

/-- The text without zeros at the end of its fraction. -/
def strip : ℕ → ℕ → DecimalText
  | digits, 0 => ⟨digits, 0⟩
  | digits, places + 1 =>
    if digits % 10 = 0 then strip (digits / 10) places else ⟨digits, places + 1⟩

/-- Zeros at the end do not matter. -/
theorem value_strip (digits places : ℕ) :
    (strip digits places).value = digits / 10 ^ places := by
  induction places generalizing digits with
  | zero => rfl
  | succ places ih =>
    rw [strip]
    split_ifs with hzero
    · have hdigits : digits = digits / 10 * 10 := by omega
      rw [ih]
      nth_rewrite 2 [hdigits]
      push_cast
      rw [pow_succ, mul_div_mul_right _ _ (by norm_num)]
    · rfl

theorem strip_places_le (digits places : ℕ) : (strip digits places).places ≤ places := by
  induction places generalizing digits with
  | zero => exact le_rfl
  | succ places ih =>
    rw [strip]
    split_ifs
    · exact (ih _).trans (Nat.le_succ places)
    · exact le_rfl

/-- The text of `digits * 10 ^ exponent`. -/
def ofScientific (digits : ℕ) (exponent : ℤ) : DecimalText :=
  if 0 ≤ exponent then ⟨digits * 10 ^ exponent.toNat, 0⟩ else strip digits (-exponent).toNat

theorem value_ofScientific (digits : ℕ) (exponent : ℤ) :
    (ofScientific digits exponent).value = digits * 10 ^ exponent := by
  rw [ofScientific]
  split_ifs with h
  · obtain ⟨n, rfl⟩ := Int.eq_ofNat_of_zero_le h
    rw [DecimalText.value]
    simp
  · obtain ⟨n, hn⟩ := Int.exists_eq_neg_ofNat (not_le.mp h).le
    rw [value_strip, hn, neg_neg, Int.toNat_natCast, zpow_neg, zpow_natCast, div_eq_mul_inv]

/-! ## Reading -/

/-- The double nearest to `q`, the one with an even bit pattern if there are two. -/
def nearest (q : ℚ) : ℚ :=
  let low := ofBits (toBits q)
  let high := ofBits (toBits q + 1)
  if q - low < high - q then low
  else if high - q < q - low then high
  else if toBits q % 2 = 0 then low
  else high

/-- What is above a double by less than half of the gap is read as it. -/
theorem nearest_above {bits : ℕ} {q : ℚ} (hle : ofBits bits ≤ q)
    (hlt : q < ofBits bits + (ofBits (bits + 1) - ofBits bits) / 2) :
    nearest q = ofBits bits := by
  have hgap := strictMono_ofBits (Nat.lt_succ_self bits)
  have hbits : toBits q = bits := toBits_eq hle (by linarith)
  rw [nearest, hbits]
  exact if_pos (by linarith)

theorem nearest_ofBits (bits : ℕ) : nearest (ofBits bits) = ofBits bits := by
  have hgap := strictMono_ofBits (Nat.lt_succ_self bits)
  exact nearest_above le_rfl (by linarith)

/-- What is below a double by less than half of the gap is read as it. -/
theorem nearest_below {bits : ℕ} {q : ℚ}
    (hlt : ofBits (bits + 1) - (ofBits (bits + 1) - ofBits bits) / 2 < q)
    (hle : q ≤ ofBits (bits + 1)) : nearest q = ofBits (bits + 1) := by
  rcases hle.eq_or_lt with rfl | hbelow
  · exact nearest_ofBits _
  · have hgap := strictMono_ofBits (Nat.lt_succ_self bits)
    have hbits : toBits q = bits := toBits_eq (by linarith) hbelow
    rw [nearest, hbits, if_neg (by linarith), if_pos (by linarith)]

/-- A double is read as itself. -/
theorem nearest_of_isDouble {q : ℚ} (h : IsPositiveDouble q) : nearest q = q := by
  obtain ⟨bits, -, -, rfl⟩ := h
  exact nearest_ofBits bits

theorem nearest_zero : nearest 0 = 0 := by
  rw [← ofBits_zero]
  exact nearest_ofBits 0

/-! ## Writing -/

/-- The exponent of a decimal of `n` digits at the size of `x`. -/
def exponentOf (x : ℚ) (n : ℕ) : ℤ := Int.log 10 x + 1 - n

/-- The `n` digits just below `x`. -/
def digitsBelow (x : ℚ) (n : ℕ) : ℕ := ⌊x / 10 ^ exponentOf x n⌋₊

/-- The closest decimal of `n` digits that is read as `x`. -/
def shortestOf (x : ℚ) (n : ℕ) : Option (ℕ × ℤ) :=
  let exponent := exponentOf x n
  let below : ℚ := digitsBelow x n * 10 ^ exponent
  let above : ℚ := (digitsBelow x n + 1 : ℕ) * 10 ^ exponent
  if nearest below = x ∧ (nearest above ≠ x ∨ x - below ≤ above - x) then
    some (digitsBelow x n, exponent)
  else if nearest above = x then some (digitsBelow x n + 1, exponent)
  else none

/-- The first length with a decimal that is read as `x`; 17 digits are enough. -/
def shortest (x : ℚ) : ℕ × ℤ :=
  ((List.range 17).findSome? fun k => shortestOf x (k + 1)).getD
    (digitsBelow x 17, exponentOf x 17)

/-- `f64::to_string` of a finite number that is not negative. -/
def display (x : ℚ) : DecimalText :=
  if x = 0 then ⟨0, 0⟩ else ofScientific (shortest x).1 (shortest x).2

/-- `q` has at most 17 digits, or is the power of ten after them. -/
def IsShort (q : ℚ) : Prop := ∃ (digits : ℕ) (exponent : ℤ), digits ≤ 10 ^ 17 ∧
  q = digits * 10 ^ exponent

theorem digitsBelow_lt (x : ℚ) (n : ℕ) : digitsBelow x n < 10 ^ n := by
  have hlt : x / 10 ^ exponentOf x n < ((10 ^ n : ℕ) : ℚ) := by
    rw [div_lt_iff₀ (by positivity)]
    have hlog := Int.lt_zpow_succ_log_self (show 1 < 10 by decide) x
    calc x < ((10 : ℕ) : ℚ) ^ (Int.log 10 x + 1) := hlog
      _ = ((10 ^ n : ℕ) : ℚ) * 10 ^ exponentOf x n := by
        push_cast
        rw [← zpow_natCast, ← zpow_add₀ (by norm_num), exponentOf]
        congr 1
        ring
  exact (Nat.floor_lt' (by positivity)).mpr hlt

theorem shortestOf_le {x : ℚ} {n : ℕ} {c : ℕ × ℤ} (h : shortestOf x n = some c) :
    c.1 ≤ 10 ^ n := by
  have hlt := digitsBelow_lt x n
  rw [shortestOf] at h
  split_ifs at h
  · cases h
    exact hlt.le
  · cases h
    exact hlt

theorem shortest_le (x : ℚ) : (shortest x).1 ≤ 10 ^ 17 := by
  rw [shortest]
  cases hfind : (List.range 17).findSome? fun k => shortestOf x (k + 1) with
  | none => exact (digitsBelow_lt x 17).le
  | some c =>
    obtain ⟨k, hk, hc⟩ := List.exists_of_findSome?_eq_some hfind
    exact (shortestOf_le hc).trans (Nat.pow_le_pow_right (by decide) (List.mem_range.mp hk))

/-- A double is written with at most 17 digits. -/
theorem isShort_display (x : ℚ) : IsShort (display x).value := by
  rw [display]
  split_ifs with hzero
  · exact ⟨0, 0, by decide, by simp [DecimalText.value]⟩
  · exact ⟨_, _, shortest_le x, value_ofScientific _ _⟩

theorem digitsBelow_pos {x : ℚ} (hx : 0 < x) {n : ℕ} (hn : 0 < n) : 0 < digitsBelow x n := by
  rw [digitsBelow, Nat.floor_pos, one_le_div (by positivity)]
  calc (10 : ℚ) ^ exponentOf x n ≤ 10 ^ Int.log 10 x := by
        apply zpow_le_zpow_right₀ (by norm_num)
        rw [exponentOf]
        omega
    _ ≤ x := by
        have := Int.zpow_log_le_self (show 1 < 10 by decide) hx
        exact_mod_cast this

/-- The text of a positive number is not zero. -/
theorem display_pos {x : ℚ} (hx : 0 < x) : 0 < (display x).value := by
  have hpos : 0 < (shortest x).1 := by
    rw [shortest]
    cases hfind : (List.range 17).findSome? fun k => shortestOf x (k + 1) with
    | none => exact digitsBelow_pos hx (by decide)
    | some c =>
      obtain ⟨k, -, hc⟩ := List.exists_of_findSome?_eq_some hfind
      have := digitsBelow_pos hx (Nat.succ_pos k)
      rw [shortestOf] at hc
      split_ifs at hc
      · cases hc
        exact this
      · cases hc
        exact Nat.succ_pos _
  rw [display, if_neg hx.ne', value_ofScientific]
  positivity

/-! ## Written and read -/

/-- The decimals of 17 digits are closer together than the doubles. -/
theorem spacing_lt {x gap : ℚ} (hx : 0 < x) (hgap : x ≤ 2 ^ 53 * gap) :
    (10 : ℚ) ^ exponentOf x 17 < gap := by
  have hlog := Int.zpow_log_le_self (show 1 < 10 by decide) hx
  have hsplit : (10 : ℚ) ^ exponentOf x 17 = 10 ^ Int.log 10 x / 10 ^ 16 := by
    rw [exponentOf, div_eq_mul_inv, ← zpow_natCast, ← zpow_neg, ← zpow_add₀ (by norm_num)]
    congr 1
    push_cast
    ring
  push_cast at hlog
  rw [hsplit, div_lt_iff₀ (by norm_num)]
  linarith

/-- One of the two decimals of 17 digits around a double is read as it. -/
theorem shortestOf_ne_none {x : ℚ} (hx : IsPositiveDouble x) : shortestOf x 17 ≠ none := by
  have hpos := hx.pos
  obtain ⟨bits, hbits, -, rfl⟩ := hx
  obtain ⟨bits, rfl⟩ := Nat.exists_eq_succ_of_ne_zero hbits.ne'
  have hlow := spacing_lt hpos (ofBits_succ_le bits)
  have hup : (10 : ℚ) ^ exponentOf (ofBits (bits + 1)) 17 <
      ofBits (bits + 1 + 1) - ofBits (bits + 1) := by
    have hmono := strictMono_ofBits (Nat.lt_succ_self (bits + 1))
    exact spacing_lt hpos (hmono.le.trans (ofBits_succ_le (bits + 1)))
  have hunit : (0 : ℚ) < 10 ^ exponentOf (ofBits (bits + 1)) 17 := by positivity
  have hbelow : digitsBelow (ofBits (bits + 1)) 17 * 10 ^ exponentOf (ofBits (bits + 1)) 17 ≤
      ofBits (bits + 1) :=
    (le_div_iff₀ hunit).mp (Nat.floor_le (by positivity))
  have habove : ofBits (bits + 1) < (digitsBelow (ofBits (bits + 1)) 17 + 1) *
      10 ^ exponentOf (ofBits (bits + 1)) 17 :=
    (div_lt_iff₀ hunit).mp (Nat.lt_floor_add_one _)
  intro h
  rw [shortestOf] at h
  simp only [Nat.succ_eq_add_one, Nat.cast_add_one] at h
  split_ifs at h with hnotBelow hnotAbove
  -- a double is at most half of a gap away from one of them
  have hcase : nearest (digitsBelow (ofBits (bits + 1)) 17 *
      10 ^ exponentOf (ofBits (bits + 1)) 17) ≠ ofBits (bits + 1) :=
    fun heq => hnotBelow ⟨heq, .inl hnotAbove⟩
  by_cases hclose : ofBits (bits + 1) - (ofBits (bits + 1) - ofBits bits) / 2 <
      digitsBelow (ofBits (bits + 1)) 17 * 10 ^ exponentOf (ofBits (bits + 1)) 17
  · exact hcase (nearest_below hclose hbelow)
  · refine hnotAbove (nearest_above habove.le ?_)
    linarith

theorem nearest_of_shortestOf {x : ℚ} {n : ℕ} {c : ℕ × ℤ} (h : shortestOf x n = some c) :
    nearest (c.1 * 10 ^ c.2) = x := by
  rw [shortestOf] at h
  split_ifs at h with hbelow habove
  · cases h
    exact hbelow.1
  · cases h
    exact habove

/-- The text of a double is read as the double. -/
theorem nearest_display {x : ℚ} (hx : IsPositiveDouble x) : nearest (display x).value = x := by
  rw [display, if_neg hx.pos.ne', value_ofScientific, shortest]
  cases hfind : (List.range 17).findSome? fun k => shortestOf x (k + 1) with
  | none =>
    have hnone := List.findSome?_eq_none_iff.mp hfind 16 (List.mem_range.mpr (by decide))
    exact absurd hnone (shortestOf_ne_none hx)
  | some c =>
    obtain ⟨k, -, hc⟩ := List.exists_of_findSome?_eq_some hfind
    exact nearest_of_shortestOf hc

end Digdigdig3.Float64
