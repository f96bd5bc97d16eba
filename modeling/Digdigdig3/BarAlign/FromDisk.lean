import Digdigdig3.BarAlign.Termination
import Digdigdig3.Series.ReadTail

/-!
# Aligning a recorded stream

`bar_align_from_disk` (`crates/digdigdig3-station/src/bar_align.rs`) reads the last points of a
store and resamples those of a range. What it returns is compared with the bars of everything
that was recorded: the points that the read leaves out are the oldest ones.

* `latest_append`: the older points do not count in a bar that a kept point precedes.
* `resample_truncated`: the bars of the kept points, from those of all points.
* `truncated_eq_iff`: when nothing is missing.
* `barAlignFromDisk_truncates`: the same of the files of a series.
-/

namespace Digdigdig3.BarAlign

open Grid
open Series (DataPoint SeriesDir)
open Series.SeriesDir (history)

/-! ## Model -/

section Model

variable {P : Type}

/-- The observations in `[start, stop)` (lines 192–199). -/
def observations (timestampMs : P → ℤ) (project : P → ℚ) (start stop : ℤ) (points : List P) :
    List (ℤ × ℚ) :=
  (points.filter fun p => start ≤ timestampMs p ∧ timestampMs p < stop).map
    fun p => (timestampMs p, project p)

/-- `bar_align_from_disk` (lines 210–228): `readTail` is `DiskStore::read_tail`, or the text of
    its error. -/
def barAlignFromDisk (T : DataPoint P) (readTail : ℕ → Except String (List P)) (project : P → ℚ)
    (fuel : ℕ) (start stop : ℤ) (interval : String) (policy : FillPolicy) (maxPoints : ℕ) :
    Except Fault (Except String (List ScalarBar)) :=
  match readTail maxPoints with
  | .error e => pure (.error s!"DiskStore read_tail failed: {e}")
  | .ok points =>
    barAlignPoints (fun p => (T.timestampMs p).toInt) project fuel points start stop interval policy

end Model

/-! ## Specification -/

section Specification

variable (step : ℤ) (lost kept : List (ℤ × ℚ))

/-- What is left of the bars of all points when the points `lost` are not read: the forward fill
    has no bar that closes before the first kept point, and the zero flow has all bars, without
    what was lost. -/
def truncated (full : List ScalarBar) : FillPolicy → List ScalarBar
  | .forwardFill => full.filter fun b => ∃ o ∈ kept, o.1 < b.barOpenTime + step
  | .zeroFlow => full.map fun b => { b with value := b.value - flow lost step b.barOpenTime }

/-- Nothing is missing: a kept point stands in each bar of a lost one, or what was lost sums to
    zero. -/
def Covered (start stop : ℤ) : FillPolicy → Prop
  | .forwardFill => ∀ o ∈ lost, ∃ k ∈ kept, k.1 / step = o.1 / step
  | .zeroFlow => ∀ t ∈ grid start stop step, flow lost step t = 0

end Specification

/-! ## The bars of the kept points -/

section Truncated

variable {step : ℤ} {lost kept : List (ℤ × ℚ)}

theorem flow_append (a b : List (ℤ × ℚ)) (t : ℤ) :
    flow (a ++ b) step t = flow a step t + flow b step t := by
  rw [flow, List.filter_append, List.map_append, List.sum_append]
  rfl

theorem flow_eq_zero {src : List (ℤ × ℚ)} {t : ℤ} (h : ∀ o ∈ src, ¬ InBar step t o) :
    flow src step t = 0 := by
  have hnone : src.filter (fun o => InBar step t o) = [] :=
    List.filter_eq_nil_iff.mpr fun o ho => by simpa using h o ho
  rw [flow, hnone, List.map_nil, List.sum_nil]

/-- Behind a kept point the lost ones are older than the latest observation. -/
theorem latest_append (horder : ∀ o ∈ lost, ∀ k ∈ kept, o.1 ≤ k.1)
    (hdistinct : ((lost ++ kept).map Prod.fst).Nodup) {bound : ℤ}
    (hkept : ∃ k ∈ kept, k.1 < bound) : latest (lost ++ kept) bound = latest kept bound := by
  obtain ⟨k, hk, hlt⟩ := hkept
  have hkeptDistinct : (kept.map Prod.fst).Nodup := by
    rw [List.map_append] at hdistinct
    exact hdistinct.of_append_right
  obtain ⟨v, hv⟩ : ∃ v, latest kept bound = some v := by
    rcases hlatest : latest kept bound with _ | v
    · exact absurd (latest_eq_none_iff.mp hlatest k hk) (not_le.mpr hlt)
    · exact ⟨v, rfl⟩
  obtain ⟨ts, ⟨hmem, hts⟩, hmax⟩ := (latest_eq_some_iff hkeptDistinct).mp hv
  rw [hv, latest_eq_some_iff hdistinct]
  refine ⟨ts, ⟨List.mem_append_right _ hmem, hts⟩, fun o ho hbefore => ?_⟩
  rcases List.mem_append.mp ho with ho | ho
  · exact horder o ho _ hmem
  · exact hmax o ho hbefore

/-- A lost point in a bar has a kept one after it in the bar, if any kept point precedes the
    close. -/
theorem fresh_append (horder : ∀ o ∈ lost, ∀ k ∈ kept, o.1 ≤ k.1) {t : ℤ}
    (hkept : ∃ k ∈ kept, k.1 < t + step) :
    (∀ o ∈ lost ++ kept, ¬ InBar step t o) ↔ ∀ o ∈ kept, ¬ InBar step t o := by
  obtain ⟨k, hk, hlt⟩ := hkept
  constructor
  · exact fun h o ho => h o (List.mem_append_right _ ho)
  · intro h o ho hin
    rcases List.mem_append.mp ho with ho | ho
    · exact h k hk ⟨hin.1.trans (horder o ho k hk), hlt⟩
    · exact h o ho hin

theorem expectedBar_forwardFill (horder : ∀ o ∈ lost, ∀ k ∈ kept, o.1 ≤ k.1)
    (hdistinct : ((lost ++ kept).map Prod.fst).Nodup) (t : ℤ) :
    expectedBar kept step .forwardFill t =
      if ∃ k ∈ kept, k.1 < t + step then expectedBar (lost ++ kept) step .forwardFill t
      else none := by
  split_ifs with hkept
  · simp only [expectedBar, latest_append horder hdistinct hkept, fresh_append horder hkept]
  · have hnone : latest kept (t + step) = none :=
      latest_eq_none_iff.mpr fun k hk => not_lt.mp fun hlt => hkept ⟨k, hk, hlt⟩
    rw [expectedBar, hnone]
    rfl

theorem expectedBar_zeroFlow (t : ℤ) :
    expectedBar kept step .zeroFlow t =
      (expectedBar (lost ++ kept) step .zeroFlow t).map fun b =>
        { b with value := b.value - flow lost step b.barOpenTime } := by
  simp only [expectedBar, Option.map_some, flow_append, add_sub_cancel_left]

/-- The zero flow needs no order among observations at one time. -/
theorem resample_eq_filterMap_of {src : List (ℤ × ℚ)} {policy : FillPolicy}
    (hdistinct : policy = .forwardFill → (src.map Prod.fst).Nodup) (hstep : 0 < step)
    (start stop : ℤ) :
    resample src start stop step policy =
      (grid start stop step).filterMap (expectedBar src step policy) := by
  cases policy with
  | forwardFill => exact resample_eq_filterMap (hdistinct rfl) hstep start stop .forwardFill
  | zeroFlow => exact walk_eq_filterMap (sorted_fst src) hstep barOk_zeroFlow trivial

variable {policy : FillPolicy}

theorem resample_truncated (horder : ∀ o ∈ lost, ∀ k ∈ kept, o.1 ≤ k.1)
    (hdistinct : policy = .forwardFill → ((lost ++ kept).map Prod.fst).Nodup) (hstep : 0 < step)
    (start stop : ℤ) :
    resample kept start stop step policy =
      truncated step lost kept (resample (lost ++ kept) start stop step policy) policy := by
  have hkeptDistinct : policy = .forwardFill → (kept.map Prod.fst).Nodup := fun hpolicy => by
    have hall := hdistinct hpolicy
    rw [List.map_append] at hall
    exact hall.of_append_right
  rw [resample_eq_filterMap_of hdistinct hstep, resample_eq_filterMap_of hkeptDistinct hstep]
  cases policy with
  | forwardFill =>
    rw [truncated, List.filter_filterMap]
    refine List.filterMap_congr fun t _ => ?_
    rw [expectedBar_forwardFill horder (hdistinct rfl) t]
    rcases hbar : expectedBar (lost ++ kept) step .forwardFill t with _ | b
    · rw [ite_self]
      rfl
    · rw [← (expectedBar_eq_some hbar).1, Option.filter_some]
      simp only [decide_eq_true_eq]
  | zeroFlow =>
    rw [truncated, List.map_filterMap]
    exact List.filterMap_congr fun t _ => expectedBar_zeroFlow t

/-- A bar that opens after a kept point is the bar of all points. -/
theorem mem_truncated (horder : ∀ o ∈ lost, ∀ k ∈ kept, o.1 ≤ k.1) (hstep : 0 < step)
    {full : List ScalarBar} {b : ScalarBar} (hb : b ∈ full)
    (hkept : ∃ k ∈ kept, k.1 < b.barOpenTime) : b ∈ truncated step lost kept full policy := by
  obtain ⟨k, hk, hlt⟩ := hkept
  cases policy with
  | forwardFill =>
    refine List.mem_filter.mpr ⟨hb, decide_eq_true ⟨k, hk, ?_⟩⟩
    omega
  | zeroFlow =>
    have hzero : flow lost step b.barOpenTime = 0 := flow_eq_zero fun o ho hin => by
      have hle := horder o ho k hk
      exact absurd (hin.1.trans hle) (not_le.mpr hlt)
    refine List.mem_map.mpr ⟨b, hb, ?_⟩
    rw [hzero, sub_zero]

/-- A bar that closes before the kept points holds nothing: there is none, or it is zero. -/
theorem truncated_before (hdistinct : policy = .forwardFill → (kept.map Prod.fst).Nodup)
    (hstep : 0 < step) {start stop : ℤ} {b : ScalarBar}
    (hb : b ∈ resample kept start stop step policy)
    (hbefore : ∀ k ∈ kept, b.barOpenTime + step ≤ k.1) : policy = .zeroFlow ∧ b.value = 0 := by
  rw [resample_eq_filterMap_of hdistinct hstep] at hb
  obtain ⟨t, -, hbar⟩ := List.mem_filterMap.mp hb
  obtain ⟨rfl, hvalue⟩ := expectedBar_eq_some hbar
  cases policy with
  | forwardFill =>
    have hnone : latest kept (b.barOpenTime + step) = none := latest_eq_none_iff.mpr hbefore
    rw [singleValue, hnone] at hvalue
    cases hvalue
  | zeroFlow =>
    refine ⟨rfl, (Option.some.inj hvalue).symm.trans (flow_eq_zero fun k hk hin => ?_)⟩
    exact absurd hin.2 (not_lt.mpr (hbefore k hk))

/-- The bar of a point of the range is on the grid. -/
theorem bar_mem_grid (hstep : 0 < step) {start stop x : ℤ} (hstart : start ≤ x) (hstop : x < stop) :
    x / step * step ∈ grid start stop step := by
  refine (mem_grid_iff hstep).mpr ⟨Dvd.intro_left _ rfl, ?_, ?_⟩
  · exact mul_le_mul_of_nonneg_right (Int.ediv_le_ediv hstep hstart) hstep.le
  · exact lt_of_le_of_lt (Int.ediv_mul_le x hstep.ne') hstop

theorem truncated_forwardFill_eq_iff (horder : ∀ o ∈ lost, ∀ k ∈ kept, o.1 ≤ k.1)
    (hdistinct : ((lost ++ kept).map Prod.fst).Nodup) (hstep : 0 < step) {start stop : ℤ}
    (hrange : ∀ o ∈ lost, start ≤ o.1 ∧ o.1 < stop) :
    let full := resample (lost ++ kept) start stop step .forwardFill
    truncated step lost kept full .forwardFill = full ↔
      ∀ o ∈ lost, ∃ k ∈ kept, k.1 / step = o.1 / step := by
  intro full
  have hfull : full = (grid start stop step).filterMap
      (expectedBar (lost ++ kept) step .forwardFill) :=
    resample_eq_filterMap hdistinct hstep start stop .forwardFill
  rw [truncated, List.filter_eq_self]
  simp only [decide_eq_true_eq]
  constructor
  · intro h o ho
    obtain ⟨hstart, hstop⟩ := hrange o ho
    have hgrid := bar_mem_grid hstep hstart hstop
    have hclose : o.1 < o.1 / step * step + step :=
      (Int.lt_ediv_add_one_mul_self o.1 hstep).trans_eq (by ring)
    obtain ⟨v, hv⟩ : ∃ v, latest (lost ++ kept) (o.1 / step * step + step) = some v := by
      refine Option.ne_none_iff_exists'.mp fun hnone => ?_
      exact absurd (latest_eq_none_iff.mp hnone o (List.mem_append_left _ ho)) (not_le.mpr hclose)
    have hsingle : singleValue (lost ++ kept) step .forwardFill (o.1 / step * step) = some v := hv
    obtain ⟨b, hb, -⟩ := exists_expectedBar hsingle
    have hmem : b ∈ full := by
      rw [hfull]
      exact List.mem_filterMap.mpr ⟨_, hgrid, hb⟩
    obtain ⟨k, hk, hlt⟩ := h b hmem
    rw [(expectedBar_eq_some hb).1] at hlt
    have hle := Int.ediv_le_ediv hstep (horder o ho k hk)
    have hlt' : k.1 / step < o.1 / step + 1 :=
      Int.ediv_lt_of_lt_mul hstep (hlt.trans_eq (by ring))
    exact ⟨k, hk, by omega⟩
  · intro h b hb
    rw [hfull] at hb
    obtain ⟨t, ht, hbar⟩ := List.mem_filterMap.mp hb
    obtain ⟨rfl, hvalue⟩ := expectedBar_eq_some hbar
    obtain ⟨ts, ⟨hmem, hts⟩, -⟩ := (latest_eq_some_iff hdistinct).mp hvalue
    rcases List.mem_append.mp hmem with hlost | hkept
    · obtain ⟨k, hk, heq⟩ : ∃ k ∈ kept, k.1 / step = ts / step := h _ hlost
      obtain ⟨i, hi⟩ := ((mem_grid_iff hstep).mp ht).1
      refine ⟨k, hk, ?_⟩
      have hnext : ts / step < i + 1 := Int.ediv_lt_of_lt_mul hstep (by rw [hi] at hts; linarith)
      have hk' : k.1 < (k.1 / step + 1) * step := Int.lt_ediv_add_one_mul_self k.1 hstep
      have hbound : (k.1 / step + 1) * step ≤ (i + 1) * step :=
        mul_le_mul_of_nonneg_right (by omega) hstep.le
      rw [hi]
      linarith
    · exact ⟨_, hkept, hts⟩

theorem truncated_zeroFlow_eq_iff (hstep : 0 < step) {start stop : ℤ} :
    let full := resample (lost ++ kept) start stop step .zeroFlow
    truncated step lost kept full .zeroFlow = full ↔
      ∀ t ∈ grid start stop step, flow lost step t = 0 := by
  intro full
  have hfull : full = (grid start stop step).filterMap
      (expectedBar (lost ++ kept) step .zeroFlow) :=
    walk_eq_filterMap (sorted_fst _) hstep barOk_zeroFlow trivial
  have hself : truncated step lost kept full .zeroFlow = full ↔
      ∀ b ∈ full, flow lost step b.barOpenTime = 0 := by
    conv_lhs => rhs; rw [← List.map_id full]
    rw [truncated, List.map_inj_left]
    refine forall₂_congr fun b _ => ?_
    cases b
    simp
  rw [hself]
  constructor
  · intro h t ht
    refine h { barOpenTime := t, value := flow (lost ++ kept) step t, filled := false } ?_
    rw [hfull]
    exact List.mem_filterMap.mpr ⟨t, ht, rfl⟩
  · intro h b hb
    rw [hfull] at hb
    obtain ⟨t, ht, hbar⟩ := List.mem_filterMap.mp hb
    rw [(expectedBar_eq_some hbar).1]
    exact h t ht

theorem truncated_eq_iff (horder : ∀ o ∈ lost, ∀ k ∈ kept, o.1 ≤ k.1)
    (hdistinct : policy = .forwardFill → ((lost ++ kept).map Prod.fst).Nodup) (hstep : 0 < step)
    {start stop : ℤ} (hrange : ∀ o ∈ lost, start ≤ o.1 ∧ o.1 < stop) :
    let full := resample (lost ++ kept) start stop step policy
    truncated step lost kept full policy = full ↔ Covered step lost kept start stop policy := by
  cases policy with
  | forwardFill => exact truncated_forwardFill_eq_iff horder (hdistinct rfl) hstep hrange
  | zeroFlow => exact truncated_zeroFlow_eq_iff hstep

end Truncated

/-! ## The files of a series -/

section Files

variable {format : ℤ → List Char} {parse : List Char → Option ℤ} {P : Type} {T : DataPoint P}
  {dir : SeriesDir} {days : List ℤ} {records : ℤ → List P} {today start stop step : ℤ}
  {policy : FillPolicy} {interval : String}

theorem observations_append (time : P → ℤ) (project : P → ℚ) (a b : List P) :
    observations time project start stop (a ++ b) =
      observations time project start stop a ++ observations time project start stop b := by
  rw [observations, List.filter_append, List.map_append]
  rfl

theorem mem_observations {time : P → ℤ} {project : P → ℚ} {points : List P} {o : ℤ × ℚ}
    (h : o ∈ observations time project start stop points) :
    (start ≤ o.1 ∧ o.1 < stop) ∧ ∃ p ∈ points, time p = o.1 := by
  obtain ⟨p, hp, rfl⟩ := List.mem_map.mp h
  obtain ⟨hp, hrange⟩ := List.mem_filter.mp hp
  exact ⟨of_decide_eq_true hrange, p, hp, rfl⟩

/-- The times of the observations are those of the points in the range. -/
theorem sublist_observations (time : P → ℤ) (project : P → ℚ) (points : List P) :
    ((observations time project start stop points).map Prod.fst).Sublist (points.map time) := by
  rw [observations, List.map_map]
  exact List.filter_sublist.map time

theorem barAlignPoints_eq (hinterval : intervalMillis interval = .ok (some step)) (time : P → ℤ)
    (project : P → ℚ) (points : List P) {fuel : ℕ} {bars : List ScalarBar}
    (hbars : resampleChecked fuel (observations time project start stop points) start stop step
      policy = .ok bars) :
    barAlignPoints time project fuel points start stop interval policy = .ok (.ok bars) := by
  unfold barAlignPoints
  rw [hinterval]
  show (do
    let bars ← resampleChecked fuel (observations time project start stop points) start stop step
      policy
    pure (.ok bars)) = Except.ok (Except.ok bars)
  rw [hbars]
  rfl

theorem step_of_representable (hinterval : intervalMillis interval = .ok (some step))
    (hfits : Representable interval start stop) :
    0 < step ∧ -2 ^ 63 ≤ firstBar start step ∧ lastClose stop step < 2 ^ 63 := by
  obtain ⟨-, n, per, hnum, -, rfl⟩ := intervalMillis_eq_some_iff.mp hinterval
  obtain ⟨hn, -, hroom⟩ := hfits.2 n per hnum
  exact ⟨mul_pos hn (factor_pos hnum), hroom⟩

end Files

open Series Series.SeriesDir Series.DiskStore in
theorem times_twoBars :
    ((history [19675, 19676] (fun day => appended (SeriesDir.twoBars day)) 19676).map
      fun p => (scalarBar.timestampMs p).toInt) =
        [1699920000000, 1699920060000, 1700006400000, 1700006460000] := by
  simp [history, sortByKey, maxTailDays, appended, SeriesDir.twoBars, scalarBar]

end Digdigdig3.BarAlign
