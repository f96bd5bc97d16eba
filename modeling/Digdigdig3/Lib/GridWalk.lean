import Mathlib.Tactic
import Mathlib.Data.List.Basic

/-!
# Walks over a time grid

A grid of bars of width `step` and one cursor into a list of timed observations: each bar
consumes the observations before its close, and the state may be carried into the next bar.

* `mem_grid_iff`, `pairwise_grid`: the bars of a grid, in order.
* `existsUnique_bar`: a time on the grid lies in one bar.
* `walk_eq_filterMap`: if what a bar emits follows from what was consumed before and in it,
  the walk emits that for the bars of the grid.
-/

namespace Digdigdig3.Grid

/-! ## Bars -/

/-- The bars that start at `t`, `t + step` and so on before `stop`, `fuel` at most. -/
def bars (stop step : ℤ) : ℕ → ℤ → List ℤ
  | 0, _ => []
  | fuel + 1, t => if t < stop then t :: bars stop step fuel (t + step) else []

/-- The start of the bar that `start` lies in. -/
def firstBar (start step : ℤ) : ℤ := start / step * step

/-- The bars of the grid from `start` to `stop`. -/
def grid (start stop step : ℤ) : List ℤ :=
  bars stop step (stop - firstBar start step).toNat (firstBar start step)

variable {start stop step : ℤ}

theorem mem_bars_iff (hstep : 0 < step) {fuel : ℕ} {first t : ℤ}
    (hfuel : (stop - first).toNat ≤ fuel) :
    t ∈ bars stop step fuel first ↔ step ∣ t - first ∧ first ≤ t ∧ t < stop := by
  induction fuel generalizing first with
  | zero =>
    rw [bars]
    refine ⟨fun h => absurd h List.not_mem_nil, fun ⟨_, hle, hlt⟩ => ?_⟩
    omega
  | succ fuel ih =>
    rw [bars]
    by_cases hstop : first < stop
    · rw [if_pos hstop, List.mem_cons, ih (by omega)]
      constructor
      · rintro (rfl | ⟨hdvd, hle, hlt⟩)
        · exact ⟨by simp, le_rfl, hstop⟩
        · refine ⟨?_, by omega, hlt⟩
          have hsum := dvd_add hdvd (dvd_refl step)
          rwa [show t - (first + step) + step = t - first by ring] at hsum
      · rintro ⟨hdvd, hle, hlt⟩
        rcases hle.eq_or_lt with rfl | hless
        · exact Or.inl rfl
        · have hge := Int.le_of_dvd (by omega) hdvd
          refine Or.inr ⟨?_, by omega, hlt⟩
          have hdiff := dvd_sub hdvd (dvd_refl step)
          rwa [show t - first - step = t - (first + step) by ring] at hdiff
    · rw [if_neg hstop]
      refine ⟨fun h => absurd h List.not_mem_nil, fun ⟨_, hle, hlt⟩ => ?_⟩
      omega

/-- The bars of a grid are the multiples of the step from the first bar to the end. -/
theorem mem_grid_iff (hstep : 0 < step) {t : ℤ} :
    t ∈ grid start stop step ↔ step ∣ t ∧ firstBar start step ≤ t ∧ t < stop := by
  rw [grid, mem_bars_iff hstep le_rfl]
  have hfirst : step ∣ firstBar start step := Dvd.intro_left _ rfl
  rw [dvd_sub_left hfirst]

theorem pairwise_bars (hstep : 0 < step) (fuel : ℕ) (first : ℤ) :
    (bars stop step fuel first).Pairwise (· < ·) ∧ ∀ t ∈ bars stop step fuel first, first ≤ t := by
  induction fuel generalizing first with
  | zero => exact ⟨List.Pairwise.nil, by simp [bars]⟩
  | succ fuel ih =>
    obtain ⟨hpair, hle⟩ := ih (first + step)
    rw [bars]
    split_ifs
    · refine ⟨List.pairwise_cons.mpr ⟨fun t ht => ?_, hpair⟩, fun t ht => ?_⟩
      · have hge := hle t ht
        omega
      · rcases List.mem_cons.mp ht with rfl | ht
        · exact le_rfl
        · have hge := hle t ht
          omega
    · exact ⟨List.Pairwise.nil, by simp⟩

/-- The bars of a grid ascend. -/
theorem pairwise_grid (hstep : 0 < step) : (grid start stop step).Pairwise (· < ·) :=
  (pairwise_bars hstep _ _).1

/-- Two bars with a common time are one bar. -/
theorem eq_of_mem_bar (hstep : 0 < step) {t t' x : ℤ} (ht : step ∣ t) (ht' : step ∣ t')
    (h : t ≤ x ∧ x < t + step) (h' : t' ≤ x ∧ x < t' + step) : t = t' := by
  obtain ⟨k, rfl⟩ := ht
  obtain ⟨k', rfl⟩ := ht'
  have hk : k < k' + 1 := by
    refine lt_of_mul_lt_mul_left ?_ hstep.le
    rw [mul_add, mul_one]
    exact lt_of_le_of_lt h.1 h'.2
  have hk' : k' < k + 1 := by
    refine lt_of_mul_lt_mul_left ?_ hstep.le
    rw [mul_add, mul_one]
    exact lt_of_le_of_lt h'.1 h.2
  have hkk : k = k' := by omega
  rw [hkk]

/-- A time on the grid lies in one bar. -/
theorem existsUnique_bar (hstep : 0 < step) {x : ℤ} (hfirst : firstBar start step ≤ x)
    (hlast : ∃ t ∈ grid start stop step, x < t + step) :
    ∃! t, t ∈ grid start stop step ∧ t ≤ x ∧ x < t + step := by
  obtain ⟨last, hmem, hlt⟩ := hlast
  rw [mem_grid_iff hstep] at hmem
  have hle : firstBar x step ≤ x := Int.ediv_mul_le x hstep.ne'
  have hclose : x < firstBar x step + step := by
    have h := Int.lt_ediv_add_one_mul_self x hstep
    rwa [add_mul, one_mul] at h
  have hbar : firstBar x step ∈ grid start stop step := by
    rw [mem_grid_iff hstep]
    refine ⟨Dvd.intro_left _ rfl, ?_, ?_⟩
    · have hdiv : start / step ≤ x / step := by
        rw [Int.le_ediv_iff_mul_le hstep]
        exact hfirst
      exact mul_le_mul_of_nonneg_right hdiv hstep.le
    · obtain ⟨k, rfl⟩ := hmem.1
      have hdiv : x / step ≤ k := by
        have h : x / step < k + 1 := by
          rw [Int.ediv_lt_iff_lt_mul hstep, add_mul, one_mul, mul_comm]
          exact hlt
        omega
      have hmul := mul_le_mul_of_nonneg_right hdiv hstep.le
      rw [mul_comm step k] at hmem
      exact lt_of_le_of_lt hmul hmem.2.2
  refine ⟨firstBar x step, ⟨hbar, hle, hclose⟩, fun t ht => ?_⟩
  have hdvd := ((mem_grid_iff hstep).mp ht.1).1
  exact eq_of_mem_bar hstep hdvd (Dvd.intro_left _ rfl) ht.2 ⟨hle, hclose⟩

/-! ## The cursor -/

variable {O σ B : Type*}

/-- The inner loop: the observations before `close` go through `body`. -/
def consume (body : σ → ℤ × O → σ) (close : ℤ) : List (ℤ × O) → σ → List (ℤ × O) × σ
  | [], s => ([], s)
  | o :: src, s => if o.1 < close then consume body close src (body s o) else (o :: src, s)

/-- What a bar does to the state at its open and for each observation, and what it emits. -/
structure Walker (O σ B : Type*) where
  enter : σ → σ
  body : ℤ → σ → ℤ × O → σ
  emit : ℤ → σ → Option B

/-- The outer loop. -/
def walk (W : Walker O σ B) (stop step : ℤ) : ℕ → ℤ → List (ℤ × O) → σ → List B
  | 0, _, _, _ => []
  | fuel + 1, t, src, s =>
    if t < stop then
      let (src, s) := consume (W.body t) (t + step) src (W.enter s)
      (W.emit t s).toList ++ walk W stop step fuel (t + step) src s
    else []

/-- The whole walk over a grid. -/
def walkGrid (W : Walker O σ B) (start stop step : ℤ) (src : List (ℤ × O)) (s : σ) : List B :=
  walk W stop step (stop - firstBar start step).toNat (firstBar start step) src s

/-- A sorted list is cut at the close of the bar. -/
theorem consume_spec (body : σ → ℤ × O → σ) (close : ℤ) {src : List (ℤ × O)}
    (hsorted : src.Pairwise fun a b => a.1 ≤ b.1) (s : σ) :
    ∃ new rest, src = new ++ rest ∧ (∀ o ∈ new, o.1 < close) ∧ (∀ o ∈ rest, close ≤ o.1) ∧
      consume body close src s = (rest, new.foldl body s) := by
  induction src generalizing s with
  | nil => exact ⟨[], [], rfl, by simp, by simp, rfl⟩
  | cons o src ih =>
    obtain ⟨ho, hsrc⟩ := List.pairwise_cons.mp hsorted
    rw [consume]
    by_cases hlt : o.1 < close
    · obtain ⟨new, rest, rfl, hnew, hrest, hconsume⟩ := ih hsrc (body s o)
      refine ⟨o :: new, rest, rfl, List.forall_mem_cons.mpr ⟨hlt, hnew⟩, hrest, ?_⟩
      rw [if_pos hlt, hconsume, List.foldl_cons]
    · refine ⟨[], o :: src, rfl, by simp, fun p hp => ?_, if_neg hlt⟩
      rcases List.mem_cons.mp hp with rfl | hp
      · exact not_lt.mp hlt
      · exact (not_lt.mp hlt).trans (ho p hp)

/-- What was consumed up to the close of a bar is before it. -/
theorem lt_close (hstep : 0 < step) {t : ℤ} {done new : List (ℤ × O)}
    (hdone : ∀ o ∈ done, o.1 < t) (hnew : ∀ o ∈ new, o.1 < t + step) :
    ∀ o ∈ done ++ new, o.1 < t + step := by
  intro o ho
  rcases List.mem_append.mp ho with ho | ho
  · exact (hdone o ho).trans (by omega)
  · exact hnew o ho

section Walk

variable {W : Walker O σ B} {all : List (ℤ × O)} {R : List (ℤ × O) → σ → Prop}
  {out : ℤ → Option B}

/-- A bar at `t` behind the observations `done` consumes `new`: it keeps the relation between
    what was consumed and the state, and emits `out t`. -/
def BarOk (W : Walker O σ B) (step : ℤ) (all : List (ℤ × O)) (R : List (ℤ × O) → σ → Prop)
    (out : ℤ → Option B) : Prop :=
  ∀ t done new rest s, all = done ++ new ++ rest → (∀ o ∈ done, o.1 < t) →
    (∀ o ∈ new, o.1 < t + step) → (∀ o ∈ rest, t + step ≤ o.1) → R done s →
    R (done ++ new) (new.foldl (W.body t) (W.enter s)) ∧
      W.emit t (new.foldl (W.body t) (W.enter s)) = out t

theorem walk_eq_filterMap_bars (hsorted : all.Pairwise fun a b => a.1 ≤ b.1) (hstep : 0 < step)
    (hok : BarOk W step all R out) (fuel : ℕ) {t : ℤ} {done src : List (ℤ × O)} {s : σ}
    (hall : all = done ++ src) (hdone : ∀ o ∈ done, o.1 < t) (hR : R done s) :
    walk W stop step fuel t src s = (bars stop step fuel t).filterMap out := by
  induction fuel generalizing t done src s with
  | zero => rfl
  | succ fuel ih =>
    rw [walk, bars]
    by_cases hstop : t < stop
    · have hsrc : src.Pairwise fun a b => a.1 ≤ b.1 :=
        (List.pairwise_append.mp (hall ▸ hsorted)).2.1
      obtain ⟨new, rest, rfl, hnew, hrest, hconsume⟩ :=
        consume_spec (W.body t) (t + step) hsrc (W.enter s)
      rw [← List.append_assoc] at hall
      obtain ⟨hR', hemit⟩ := hok t done new rest s hall hdone hnew hrest hR
      have hdone' := lt_close hstep hdone hnew
      rw [if_pos hstop, if_pos hstop, hconsume]
      show (W.emit t _).toList ++ walk W stop step fuel (t + step) rest _ = _
      rw [ih hall hdone' hR', hemit, List.filterMap_cons]
      cases out t <;> rfl
    · rw [if_neg hstop, if_neg hstop]
      rfl

/-- The walk over a grid emits what each bar emits. -/
theorem walk_eq_filterMap (hsorted : all.Pairwise fun a b => a.1 ≤ b.1) (hstep : 0 < step)
    (hok : BarOk W step all R out) {s : σ} (hR : R [] s) :
    walkGrid W start stop step all s = (grid start stop step).filterMap out :=
  walk_eq_filterMap_bars hsorted hstep hok _ rfl (by simp) hR

end Walk

end Digdigdig3.Grid
