import Mathlib.Data.List.DropRight
import Digdigdig3.BarAlign.ResampleMulti
import Digdigdig3.Derived.Basic

/-!
# Bar alignment ends

`interval_millis` and the loops of `resample` and `resample_multi`
(`crates/digdigdig3-station/src/bar_align.rs`) with the arithmetic of `i64`: a value that does not
fit is a fault, and so are a division by zero and a text that is cut inside a character. A loop is
given fuel.

* `walkChecked_eq`: with a positive step, and room above the end of the grid, a walk ends.
* `not_ok_walkChecked`: without that room it does not.
* `barAlign_terminates_iff`: the intervals for which both loops end.
-/

namespace Digdigdig3.BarAlign

open Grid
open Derived (parseI64)

/-! ## Model -/

/-- Why a computation has no value. -/
inductive Fault
  | charBoundary
  | divisionByZero
  | overflow
  | outOfFuel
  deriving DecidableEq

/-- A value of `i64`. -/
def checkedI64 (n : ℤ) : Except Fault ℤ :=
  if -2 ^ 63 ≤ n ∧ n < 2 ^ 63 then .ok n else .error .overflow

/-- The characters that `str::trim` removes. -/
def isWhiteSpace (c : Char) : Bool :=
  (9 ≤ c.toNat && c.toNat ≤ 13) || (0x2000 ≤ c.toNat && c.toNat ≤ 0x200A) ||
    [0x20, 0x85, 0xA0, 0x1680, 0x2028, 0x2029, 0x202F, 0x205F, 0x3000].contains c.toNat

/-- `str::trim`. -/
def trim (iv : List Char) : List Char := (iv.dropWhile isWhiteSpace).rdropWhile isWhiteSpace

/-- The factor of a unit (lines 98–104). -/
def unitMillis (unit : Char) : Option ℤ :=
  if unit = 'm' then some 60000
  else if unit = 'h' then some 3600000
  else if unit = 'd' ∨ unit = 'D' then some 86400000
  else if unit = 'w' ∨ unit = 'W' then some 604800000
  else none

/-- The text ends in a character of several bytes. -/
def endsInWideChar (iv : List Char) : Bool := iv.getLast?.any fun c => 128 ≤ c.toNat

/-- The number and the factor of the unit (lines 97–104). -/
def numberAndFactor (iv : List Char) : Option (ℤ × ℤ) := do
  let n ← parseI64 iv.dropLast
  let per ← iv.getLast?.bind unitMillis
  pure (n, per)

/-- `interval_millis` (lines 94–106): `split_at` takes off the last byte, which must be a
    character. -/
def intervalMillis (interval : String) : Except Fault (Option ℤ) :=
  let iv := trim interval.toList
  if endsInWideChar iv then .error .charBoundary
  else
    match numberAndFactor iv with
    | none => .ok none
    | some (n, per) => (checkedI64 (n * per)).map some

section Loops

variable {O σ B : Type}

/-- The loop over the bars: `t + step` is computed for the close of the bar and for the next
    one. -/
def walkChecked (W : Walker O σ B) (stop step : ℤ) :
    ℕ → ℤ → List (ℤ × O) → σ → Except Fault (List B)
  | 0, _, _, _ => .error .outOfFuel
  | fuel + 1, t, src, s =>
    if t < stop then do
      let close ← checkedI64 (t + step)
      let (src, s) := consume (W.body t) close src (W.enter s)
      let bars ← walkChecked W stop step fuel close src s
      pure ((W.emit t s).toList ++ bars)
    else pure []

/-- `start.div_euclid(step) * step` (lines 120 and 538). -/
def firstBarChecked (start step : ℤ) : Except Fault ℤ := do
  if step = 0 then throw .divisionByZero
  let quotient ← checkedI64 (start / step)
  checkedI64 (quotient * step)

/-- A walk from the first bar of the grid. -/
def walkGridChecked (W : Walker O σ B) (fuel : ℕ) (start stop step : ℤ) (src : List (ℤ × O))
    (s : σ) : Except Fault (List B) := do
  let first ← firstBarChecked start step
  walkChecked W stop step fuel first src s

end Loops

/-- `resample` (lines 118–162). -/
def resampleChecked (fuel : ℕ) (src : List (ℤ × ℚ)) (start stop step : ℤ) (policy : FillPolicy) :
    Except Fault (List ScalarBar) :=
  let src := sortByKey Prod.fst src
  match policy with
  | .forwardFill =>
    walkGridChecked forwardFill fuel start stop step src { last := none, fresh := false }
  | .zeroFlow => walkGridChecked zeroFlow fuel start stop step src 0

/-- `resample_multi` (lines 529–594). -/
def resampleMultiChecked (lanes : List String) (fuel : ℕ) (src : List (ℤ × Lanes))
    (start stop step : ℤ) (policy : FillPolicy) : Except Fault (List MultiScalarBar) :=
  let src := sortByKey Prod.fst src
  match policy with
  | .forwardFill =>
    walkGridChecked (multiForwardFill lanes) fuel start stop step src { last := ∅, fresh := false }
  | .zeroFlow => walkGridChecked (multiZeroFlow lanes) fuel start stop step src ∅

/-- `bar_align_points` (lines 178–201): a series, or the message of an error. -/
def barAlignPoints {T : Type} (timestampMs : T → ℤ) (project : T → ℚ) (fuel : ℕ) (points : List T)
    (start stop : ℤ) (interval : String) (policy : FillPolicy) :
    Except Fault (Except String (List ScalarBar)) := do
  match ← intervalMillis interval with
  | none => pure (.error s!"interval {interval} has no fixed ms width for resample")
  | some step =>
    let src := (points.filter fun p => start ≤ timestampMs p ∧ timestampMs p < stop).map
      fun p => (timestampMs p, project p)
    let bars ← resampleChecked fuel src start stop step policy
    pure (.ok bars)

/-! ## Specification -/

/-- With enough fuel there is no fault. -/
def Finishes {α : Type} (run : ℕ → Except Fault α) : Prop := ∃ fuel a, run fuel = .ok a

/-- The interval gives an error or a positive step, with which every loop ends. -/
structure Terminates (interval : String) (start stop : ℤ) : Prop where
  step_pos : ∃ step?, intervalMillis interval = .ok step? ∧ ∀ step, step? = some step → 0 < step
  points : ∀ (T : Type) (timestampMs : T → ℤ) (project : T → ℚ) (points : List T)
    (policy : FillPolicy), Finishes fun fuel =>
      barAlignPoints timestampMs project fuel points start stop interval policy
  scalar : ∀ step, intervalMillis interval = .ok (some step) → ∀ src policy,
    Finishes fun fuel => resampleChecked fuel src start stop step policy
  multi : ∀ step, intervalMillis interval = .ok (some step) → ∀ lanes src policy,
    Finishes fun fuel => resampleMultiChecked lanes fuel src start stop step policy

/-- The first multiple of the step at or after the end of the grid. -/
def lastClose (stop step : ℤ) : ℤ := -(-stop / step) * step

/-- The trimmed text does not end in a character of several bytes, and if it is a number and a
    unit, the number is positive, the product fits, and so do the multiples of it that enclose
    the range. -/
def Representable (interval : String) (start stop : ℤ) : Prop :=
  endsInWideChar (trim interval.toList) = false ∧
    ∀ n per, numberAndFactor (trim interval.toList) = some (n, per) →
      0 < n ∧ n * per < 2 ^ 63 ∧ -2 ^ 63 ≤ firstBar start (n * per) ∧
        lastClose stop (n * per) < 2 ^ 63

/-! ## Checked values -/

theorem checkedI64_eq_ok_iff {n m : ℤ} :
    checkedI64 n = .ok m ↔ (-2 ^ 63 ≤ n ∧ n < 2 ^ 63) ∧ n = m := by
  unfold checkedI64
  split_ifs with h
  · exact ⟨fun heq => ⟨h, Except.ok.inj heq⟩, fun heq => congrArg _ heq.2⟩
  · exact ⟨fun heq => absurd heq (by simp), fun heq => absurd heq.1 h⟩

theorem checkedI64_of_fits {n : ℤ} (hlow : -2 ^ 63 ≤ n) (hhigh : n < 2 ^ 63) :
    checkedI64 n = .ok n := checkedI64_eq_ok_iff.mpr ⟨⟨hlow, hhigh⟩, rfl⟩

theorem unitMillis_pos {unit : Char} {per : ℤ} (h : unitMillis unit = some per) : 0 < per := by
  unfold unitMillis at h
  split_ifs at h <;> cases h <;> norm_num

/-! ## The grid -/

section Grid

variable {start stop step : ℤ}

theorem le_lastClose (stop : ℤ) (hstep : 0 < step) : stop ≤ lastClose stop step := by
  have h := Int.ediv_mul_le (-stop) hstep.ne'
  rw [lastClose, neg_mul]
  omega

/-- A bar before the end closes at or before the last close. -/
theorem close_le_lastClose (hstep : 0 < step) {t : ℤ} (hdvd : step ∣ t) (hlt : t < stop) :
    t + step ≤ lastClose stop step := by
  obtain ⟨k, rfl⟩ := hdvd
  have hlast := le_lastClose stop hstep
  have hk : k < -(-stop / step) := by
    refine lt_of_mul_lt_mul_right ?_ hstep.le
    rw [mul_comm k step]
    exact lt_of_lt_of_le hlt hlast
  calc step * k + step = (k + 1) * step := by ring
    _ ≤ -(-stop / step) * step := mul_le_mul_of_nonneg_right (by omega) hstep.le

/-- The last close is the first multiple of the step at or after the end. -/
theorem lastClose_le (hstep : 0 < step) {t : ℤ} (hdvd : step ∣ t) (hle : stop ≤ t) :
    lastClose stop step ≤ t := by
  obtain ⟨k, rfl⟩ := hdvd
  have hk : -k ≤ -stop / step := by
    rw [Int.le_ediv_iff_mul_le hstep]
    linarith
  calc -(-stop / step) * step ≤ k * step := mul_le_mul_of_nonneg_right (by omega) hstep.le
    _ = step * k := mul_comm _ _

theorem firstBar_le (start : ℤ) (hstep : 0 < step) : firstBar start step ≤ start :=
  Int.ediv_mul_le start hstep.ne'

theorem dvd_firstBar (start step : ℤ) : step ∣ firstBar start step := Dvd.intro_left _ rfl

theorem firstBarChecked_eq_ok_iff (hstep : 0 < step) {first : ℤ} :
    firstBarChecked start step = .ok first ↔
      (-2 ^ 63 ≤ firstBar start step ∧ firstBar start step < 2 ^ 63) ∧
        firstBar start step = first := by
  unfold firstBarChecked
  rw [if_neg hstep.ne']
  constructor
  · intro h
    rcases hq : checkedI64 (start / step) with fault | quotient
    · rw [hq] at h
      cases h
    · rw [hq] at h
      obtain ⟨-, rfl⟩ := checkedI64_eq_ok_iff.mp hq
      exact checkedI64_eq_ok_iff.mp h
  · rintro ⟨hfits, rfl⟩
    -- the quotient is no further from zero than the product
    have hquotient : -2 ^ 63 ≤ start / step ∧ start / step < 2 ^ 63 := by
      have hfirst : firstBar start step = start / step * step := rfl
      rcases le_or_gt 0 (start / step) with hpos | hneg
      · have hle : start / step * 1 ≤ start / step * step :=
          mul_le_mul_of_nonneg_left (by omega) hpos
        omega
      · have hle : start / step * step ≤ start / step * 1 :=
          mul_le_mul_of_nonpos_left (by omega) hneg.le
        omega
    have hq := checkedI64_of_fits hquotient.1 hquotient.2
    show (do let quotient ← checkedI64 (start / step); checkedI64 (quotient * step)) = _
    rw [hq]
    exact checkedI64_eq_ok_iff.mpr ⟨hfits, rfl⟩

end Grid

/-! ## The loops -/

section Loops

variable {O σ B : Type} (W : Walker O σ B) {start stop step : ℤ}

/-- With room up to the last close the checked walk is the walk. -/
theorem walkChecked_eq (hstep : 0 < step) (hlast : lastClose stop step < 2 ^ 63) (fuel : ℕ) {t : ℤ}
    (hdvd : step ∣ t) (hlow : -2 ^ 63 ≤ t) (hfuel : (stop - t).toNat ≤ fuel)
    (src : List (ℤ × O)) (s : σ) :
    walkChecked W stop step (fuel + 1) t src s = .ok (walk W stop step fuel t src s) := by
  induction fuel generalizing t src s with
  | zero =>
    rw [walkChecked, if_neg (by omega)]
    rfl
  | succ fuel ih =>
    rw [walkChecked, walk]
    by_cases hstop : t < stop
    · have hclose := close_le_lastClose hstep hdvd hstop
      rw [if_pos hstop, if_pos hstop, checkedI64_of_fits (by omega) (by omega)]
      have hnext := ih ((dvd_add_right hdvd).mpr dvd_rfl) (by omega) (by omega)
      rcases hconsume : consume (W.body t) (t + step) src (W.enter s) with ⟨rest, s'⟩
      show (do
        let bars ← walkChecked W stop step (fuel + 1) (t + step) _ _
        pure ((W.emit t _).toList ++ bars)) = _
      rw [hconsume, hnext rest s']
      rfl
    · rw [if_neg hstop, if_neg hstop]
      rfl

/-- Where the last close does not fit, no amount of fuel is enough. -/
theorem not_ok_walkChecked (hstep : 0 < step) (hlast : 2 ^ 63 ≤ lastClose stop step) (fuel : ℕ)
    {t : ℤ} (hdvd : step ∣ t) (hstop : t < stop) (src : List (ℤ × O)) (s : σ) {bars : List B} :
    walkChecked W stop step fuel t src s ≠ .ok bars := by
  induction fuel generalizing t src s bars with
  | zero =>
    intro h
    cases h
  | succ fuel ih =>
    intro h
    rw [walkChecked, if_pos hstop] at h
    rcases hclose : checkedI64 (t + step) with fault | close
    · rw [hclose] at h
      cases h
    · rw [hclose] at h
      obtain ⟨hfits, rfl⟩ := checkedI64_eq_ok_iff.mp hclose
      have hnext : step ∣ t + step := (dvd_add_right hdvd).mpr dvd_rfl
      have hmore : t + step < stop := by
        by_contra hend
        have := lastClose_le hstep hnext (not_lt.mp hend)
        omega
      rcases hconsume : consume (W.body t) (t + step) src (W.enter s) with ⟨rest, s'⟩
      replace h : (do
        let bars ← walkChecked W stop step fuel (t + step)
          (consume (W.body t) (t + step) src (W.enter s)).1
          (consume (W.body t) (t + step) src (W.enter s)).2
        pure ((W.emit t (consume (W.body t) (t + step) src (W.enter s)).2).toList ++ bars)) =
          Except.ok bars := h
      rw [hconsume] at h
      rcases hrest : walkChecked W stop step fuel (t + step) rest s' with fault | tail
      · rw [hrest] at h
        cases h
      · exact ih hnext hmore rest s' hrest

/-- The walk over the grid ends, and as the walk over all integers does. -/
theorem walkGridChecked_eq (hstep : 0 < step) (hfirst : -2 ^ 63 ≤ firstBar start step)
    (hlast : lastClose stop step < 2 ^ 63) (hle : start ≤ stop) (src : List (ℤ × O)) (s : σ) :
    walkGridChecked W ((stop - firstBar start step).toNat + 1) start stop step src s =
      .ok (walkGrid W start stop step src s) := by
  have hbar := firstBar_le start hstep
  have hend := le_lastClose stop hstep
  have hchecked := (firstBarChecked_eq_ok_iff hstep).mpr
    ⟨⟨hfirst, show firstBar start step < 2 ^ 63 by omega⟩, rfl⟩
  rw [walkGridChecked, hchecked]
  exact walkChecked_eq W hstep hlast _ (dvd_firstBar _ _) hfirst le_rfl src s

/-- A walk over the grid that ends had room on both sides. -/
theorem fits_of_walkGridChecked (hstep : 0 < step) {fuel : ℕ}
    {src : List (ℤ × O)} {s : σ} {bars : List B}
    (h : walkGridChecked W fuel start stop step src s = .ok bars) :
    -2 ^ 63 ≤ firstBar start step ∧ lastClose stop step < 2 ^ 63 := by
  rw [walkGridChecked] at h
  rcases hchecked : firstBarChecked start step with fault | first
  · rw [hchecked] at h
    cases h
  · rw [hchecked] at h
    obtain ⟨hfits, rfl⟩ := (firstBarChecked_eq_ok_iff hstep).mp hchecked
    refine ⟨hfits.1, ?_⟩
    by_contra hlast
    by_cases hstop : firstBar start step < stop
    · exact not_ok_walkChecked W hstep (not_lt.mp hlast) fuel (dvd_firstBar _ _) hstop src s h
    · -- no bar: the end itself is on the grid
      have := lastClose_le hstep (dvd_firstBar start step) (not_lt.mp hstop)
      omega

end Loops

/-! ## The functions -/

section Functions

variable {start stop step : ℤ}

theorem resampleChecked_eq (hstep : 0 < step) (hfirst : -2 ^ 63 ≤ firstBar start step)
    (hlast : lastClose stop step < 2 ^ 63) (hle : start ≤ stop) (src : List (ℤ × ℚ))
    (policy : FillPolicy) :
    resampleChecked ((stop - firstBar start step).toNat + 1) src start stop step policy =
      .ok (resample src start stop step policy) := by
  cases policy with
  | forwardFill => exact walkGridChecked_eq forwardFill hstep hfirst hlast hle _ _
  | zeroFlow => exact walkGridChecked_eq zeroFlow hstep hfirst hlast hle _ _

theorem resampleMultiChecked_eq (hstep : 0 < step) (hfirst : -2 ^ 63 ≤ firstBar start step)
    (hlast : lastClose stop step < 2 ^ 63) (hle : start ≤ stop) (lanes : List String)
    (src : List (ℤ × Lanes)) (policy : FillPolicy) :
    resampleMultiChecked lanes ((stop - firstBar start step).toNat + 1) src start stop step policy =
      .ok (resampleMulti lanes src start stop step policy) := by
  cases policy with
  | forwardFill => exact walkGridChecked_eq (multiForwardFill lanes) hstep hfirst hlast hle _ _
  | zeroFlow => exact walkGridChecked_eq (multiZeroFlow lanes) hstep hfirst hlast hle _ _

theorem factor_pos {iv : List Char} {n per : ℤ} (h : numberAndFactor iv = some (n, per)) :
    0 < per := by
  obtain ⟨m, -, hper⟩ := Option.bind_eq_some_iff.mp h
  obtain ⟨factor, hfactor, heq⟩ := Option.bind_eq_some_iff.mp hper
  obtain ⟨unit, -, hunit⟩ := Option.bind_eq_some_iff.mp hfactor
  cases heq
  exact unitMillis_pos hunit

theorem intervalMillis_of_number {interval : String} {n per : ℤ}
    (hnarrow : endsInWideChar (trim interval.toList) = false)
    (hnum : numberAndFactor (trim interval.toList) = some (n, per)) :
    intervalMillis interval = (checkedI64 (n * per)).map some := by
  unfold intervalMillis
  simp only [hnarrow, hnum, Bool.false_eq_true, if_false]

theorem intervalMillis_of_other {interval : String}
    (hnarrow : endsInWideChar (trim interval.toList) = false)
    (hnum : numberAndFactor (trim interval.toList) = none) :
    intervalMillis interval = .ok none := by
  unfold intervalMillis
  simp only [hnarrow, hnum, Bool.false_eq_true, if_false]

theorem narrow_of_intervalMillis {interval : String} {step? : Option ℤ}
    (h : intervalMillis interval = .ok step?) :
    endsInWideChar (trim interval.toList) = false := by
  by_contra hwide
  unfold intervalMillis at h
  simp only [eq_true_of_ne_false hwide, if_true] at h
  cases h

theorem map_some_checkedI64 {n : ℤ} {step? : Option ℤ} :
    (checkedI64 n).map some = .ok step? ↔ (-2 ^ 63 ≤ n ∧ n < 2 ^ 63) ∧ some n = step? := by
  unfold checkedI64
  split_ifs with h
  · exact ⟨fun heq => ⟨h, Except.ok.inj heq⟩, fun heq => congrArg Except.ok heq.2⟩
  · exact ⟨fun heq => absurd heq (by simp [Except.map]), fun heq => absurd heq.1 h⟩

/-- A text of a number and a unit gives a step when the product fits. -/
theorem intervalMillis_eq_some_iff {interval : String} {step : ℤ} :
    intervalMillis interval = .ok (some step) ↔
      endsInWideChar (trim interval.toList) = false ∧
        ∃ n per, numberAndFactor (trim interval.toList) = some (n, per) ∧
          (-2 ^ 63 ≤ n * per ∧ n * per < 2 ^ 63) ∧ n * per = step := by
  constructor
  · intro h
    have hnarrow := narrow_of_intervalMillis h
    refine ⟨hnarrow, ?_⟩
    rcases hnum : numberAndFactor (trim interval.toList) with _ | ⟨n, per⟩
    · rw [intervalMillis_of_other hnarrow hnum] at h
      cases h
    · rw [intervalMillis_of_number hnarrow hnum] at h
      obtain ⟨hfits, hstep⟩ := map_some_checkedI64.mp h
      exact ⟨n, per, rfl, hfits, Option.some.inj hstep⟩
  · rintro ⟨hnarrow, n, per, hnum, hfits, rfl⟩
    rw [intervalMillis_of_number hnarrow hnum]
    exact map_some_checkedI64.mpr ⟨hfits, rfl⟩

/-- Any other text that ends in a narrow character gives no step. -/
theorem numberAndFactor_of_none {interval : String} (h : intervalMillis interval = .ok none) :
    numberAndFactor (trim interval.toList) = none := by
  rcases hnum : numberAndFactor (trim interval.toList) with _ | ⟨n, per⟩
  · rfl
  · rw [intervalMillis_of_number (narrow_of_intervalMillis h) hnum] at h
    obtain ⟨-, hnone⟩ := map_some_checkedI64.mp h
    cases hnone

/-- `bar_align_points` ends if `resample` does on the step of the interval. -/
theorem finishes_barAlignPoints {interval : String} {T : Type} (timestampMs : T → ℤ)
    (project : T → ℚ) (points : List T) (policy : FillPolicy) {step? : Option ℤ}
    (hinterval : intervalMillis interval = .ok step?)
    (hloop : ∀ step, step? = some step → ∀ src, Finishes fun fuel =>
      resampleChecked fuel src start stop step policy) :
    Finishes fun fuel =>
      barAlignPoints timestampMs project fuel points start stop interval policy := by
  unfold barAlignPoints
  rw [hinterval]
  cases step? with
  | none => exact ⟨0, _, rfl⟩
  | some step =>
    obtain ⟨fuel, bars, hbars⟩ := hloop step rfl
      ((points.filter fun p => start ≤ timestampMs p ∧ timestampMs p < stop).map
        fun p => (timestampMs p, project p))
    refine ⟨fuel, .ok bars, ?_⟩
    replace hbars : resampleChecked fuel _ start stop step policy = .ok bars := hbars
    show (do
      let bars ← resampleChecked fuel _ start stop step policy
      pure (.ok bars)) = Except.ok (Except.ok bars)
    rw [hbars]
    rfl

end Functions

/-- **Main theorem.** Bar alignment ends without a fault exactly for the intervals that are no
    number and unit, or a positive one that fits and leaves room around the range. -/
theorem barAlign_terminates_iff (interval : String) (start stop : ℤ) (hle : start ≤ stop) :
    Terminates interval start stop ↔ Representable interval start stop := by
  constructor
  · intro h
    obtain ⟨step?, hinterval, hpos⟩ := h.step_pos
    cases step? with
    | none =>
      refine ⟨narrow_of_intervalMillis hinterval, fun n per hnum => ?_⟩
      rw [numberAndFactor_of_none hinterval] at hnum
      cases hnum
    | some step =>
      obtain ⟨hnarrow, n, per, hnum, hfits, rfl⟩ := intervalMillis_eq_some_iff.mp hinterval
      refine ⟨hnarrow, fun n' per' hnum' => ?_⟩
      rw [hnum] at hnum'
      cases hnum'
      have hstep := hpos _ rfl
      obtain ⟨fuel, bars, hbars⟩ := h.scalar _ hinterval [] .zeroFlow
      have hroom := fits_of_walkGridChecked zeroFlow hstep hbars
      exact ⟨(pos_iff_pos_of_mul_pos hstep).mpr (factor_pos hnum), hfits.2, hroom⟩
  · rintro ⟨hnarrow, hnumber⟩
    have hstep : ∀ step, intervalMillis interval = .ok (some step) →
        0 < step ∧ -2 ^ 63 ≤ firstBar start step ∧ lastClose stop step < 2 ^ 63 := by
      intro step hinterval
      obtain ⟨-, n, per, hnum, -, rfl⟩ := intervalMillis_eq_some_iff.mp hinterval
      obtain ⟨hn, -, hroom⟩ := hnumber n per hnum
      exact ⟨mul_pos hn (factor_pos hnum), hroom⟩
    have hscalar : ∀ step, intervalMillis interval = .ok (some step) → ∀ src policy,
        Finishes fun fuel => resampleChecked fuel src start stop step policy := by
      intro step hinterval src policy
      obtain ⟨hpos, hfirst, hlast⟩ := hstep step hinterval
      exact ⟨_, _, resampleChecked_eq hpos hfirst hlast hle src policy⟩
    obtain ⟨step?, hinterval⟩ : ∃ step?, intervalMillis interval = .ok step? := by
      rcases hnum : numberAndFactor (trim interval.toList) with _ | ⟨n, per⟩
      · exact ⟨none, intervalMillis_of_other hnarrow hnum⟩
      · obtain ⟨hn, hfits, -⟩ := hnumber n per hnum
        have hpos := mul_pos hn (factor_pos hnum)
        exact ⟨some (n * per), intervalMillis_eq_some_iff.mpr
          ⟨hnarrow, n, per, hnum, ⟨by omega, hfits⟩, rfl⟩⟩
    refine ⟨⟨step?, hinterval, ?_⟩, ?_, hscalar, ?_⟩
    · rintro step rfl
      exact (hstep step hinterval).1
    · intro T timestampMs project points policy
      apply finishes_barAlignPoints timestampMs project points policy hinterval
      rintro step rfl src
      exact hscalar step hinterval src policy
    · intro step hstep' lanes src policy
      obtain ⟨hpos, hfirst, hlast⟩ := hstep step hstep'
      exact ⟨_, _, resampleMultiChecked_eq hpos hfirst hlast hle lanes src policy⟩

/-- A day of hours. -/
theorem terminates_hour : Terminates "1h" 0 86400000 :=
  (barAlign_terminates_iff "1h" 0 86400000 (by decide)).mpr
    ⟨by decide, fun n per h => by
      have hnum : numberAndFactor (trim "1h".toList) = some (1, 3600000) := by decide
      rw [hnum] at h
      cases h
      decide⟩

/-- A step of zero divides by zero. -/
theorem zero_minutes_divide_by_zero :
    ¬∀ interval start stop, start ≤ stop → Terminates interval start stop := by
  intro h
  obtain ⟨step?, hinterval, hpos⟩ := (h "0m" 0 1 (by decide)).step_pos
  have hzero : intervalMillis "0m" = .ok (some 0) := by decide
  rw [hzero] at hinterval
  cases hinterval
  exact lt_irrefl 0 (hpos 0 rfl)

end Digdigdig3.BarAlign
