import Mathlib.Data.List.MinMax
import Mathlib.Data.Rat.Defs
import Mathlib.Algebra.BigOperators.Group.List.Basic
import Digdigdig3.Lib.GridWalk
import Digdigdig3.Lib.SortedWindow

/-!
# Resampling onto a bar grid

`resample` (`crates/digdigdig3-station/src/bar_align.rs`) sorts timed observations and walks
the bars of a grid with one cursor. A state stream carries its last value into the next bars,
and a flow stream sums what falls inside a bar. An `f64` is a rational number.

Results:
* `latest_eq_getLast?`: a cursor that stands at the close of a bar has passed the latest
  observation before it.
* `resample_eq`: both policies, bar by bar, on the grid of multiples of the step.
-/

namespace Digdigdig3.BarAlign

open Grid

/-- `FillPolicy` (lines 34–41). -/
inductive FillPolicy where
  | forwardFill
  | zeroFlow
  deriving DecidableEq

/-- `ScalarBar` (lines 43–53). -/
structure ScalarBar where
  barOpenTime : ℤ
  value : ℚ
  filled : Bool
  deriving DecidableEq

/-! ## Model -/

/-- `last` and `fresh` of the forward fill. -/
structure Carry where
  last : Option ℚ
  fresh : Bool

/-- The forward fill (lines 123–142): the state is carried into the next bar. -/
def forwardFill : Walker ℚ Carry ScalarBar where
  enter s := { s with fresh := false }
  body t s o := { last := some o.2, fresh := s.fresh || decide (t ≤ o.1) }
  emit t s := s.last.map fun v => { barOpenTime := t, value := v, filled := !s.fresh }

/-- The zero flow (lines 143–158): each bar starts at zero. -/
def zeroFlow : Walker ℚ ℚ ScalarBar where
  enter _ := 0
  body t sum o := if t ≤ o.1 then sum + o.2 else sum
  emit t sum := some { barOpenTime := t, value := sum, filled := false }

/-- `resample` (lines 118–162). -/
def resample (src : List (ℤ × ℚ)) (start stop step : ℤ) (policy : FillPolicy) :
    List ScalarBar :=
  let src := sortByKey Prod.fst src
  match policy with
  | .forwardFill => walkGrid forwardFill start stop step src { last := none, fresh := false }
  | .zeroFlow => walkGrid zeroFlow start stop step src 0

/-! ## Specification -/

/-- The observation falls into the bar at `t`. -/
def InBar {O : Type*} (step t : ℤ) (o : ℤ × O) : Prop := t ≤ o.1 ∧ o.1 < t + step

instance {O : Type*} (step t : ℤ) (o : ℤ × O) : Decidable (InBar step t o) :=
  inferInstanceAs (Decidable (_ ∧ _))

/-- The sum of the observations in the bar at `t`. -/
def flow (src : List (ℤ × ℚ)) (step t : ℤ) : ℚ :=
  ((src.filter fun o => InBar step t o).map Prod.snd).sum

/-- The value of the latest observation before `bound`. -/
noncomputable def latest {O : Type*} (src : List (ℤ × O)) (bound : ℤ) : Option O :=
  ((src.filter fun o => o.1 < bound).argmax Prod.fst).map Prod.snd

/-- The bar that stands at `t`. -/
noncomputable def expectedBar (src : List (ℤ × ℚ)) (step : ℤ) : FillPolicy → ℤ → Option ScalarBar
  | .forwardFill, t => (latest src (t + step)).map fun v =>
      { barOpenTime := t, value := v, filled := decide (∀ o ∈ src, ¬ InBar step t o) }
  | .zeroFlow, t => some { barOpenTime := t, value := flow src step t, filled := false }

/-! ## Sorted observations -/

section Sorted

variable {O : Type*} {src : List (ℤ × O)}

theorem sorted_fst (src : List (ℤ × O)) :
    (sortByKey Prod.fst src).Pairwise fun a b => a.1 ≤ b.1 := sorted_sortByKey src

/-- The latest observation before a bound is the last one that sorts before it. -/
theorem latest_eq_getLast? (hdistinct : (src.map Prod.fst).Nodup) {pre rest : List (ℤ × O)}
    {bound : ℤ} (hall : sortByKey Prod.fst src = pre ++ rest) (hpre : ∀ o ∈ pre, o.1 < bound)
    (hrest : ∀ o ∈ rest, bound ≤ o.1) : latest src bound = pre.getLast?.map Prod.snd := by
  have hmem : ∀ o, o ∈ src.filter (fun o => o.1 < bound) ↔ o ∈ pre := by
    intro o
    rw [List.mem_filter, decide_eq_true_iff, ← mem_sortByKey Prod.fst, hall,
      List.mem_append]
    constructor
    · rintro ⟨ho | ho, hlt⟩
      · exact ho
      · exact absurd (hrest o ho) (not_le.mpr hlt)
    · exact fun ho => ⟨Or.inl ho, hpre o ho⟩
  rw [latest]
  rcases List.eq_nil_or_concat pre with rfl | ⟨init, o, rfl⟩
  · have hnil : src.filter (fun o => o.1 < bound) = [] :=
      List.eq_nil_iff_forall_not_mem.mpr fun o ho => List.not_mem_nil ((hmem o).mp ho)
    rw [hnil]
    rfl
  · rw [List.concat_eq_append] at hall hmem hpre ⊢
    have ho : o ∈ src.filter (fun o => o.1 < bound) := (hmem o).mpr (by simp)
    rcases hmax : (src.filter fun o => decide (o.1 < bound)).argmax Prod.fst with _ | m
    · rw [List.argmax_eq_none] at hmax
      rw [hmax] at ho
      cases ho
    · have hm := List.argmax_mem (f := Prod.fst) hmax
      have hle : o.1 ≤ m.1 := List.le_of_mem_argmax (f := Prod.fst) ho hmax
      have hge : m.1 ≤ o.1 := by
        have hsorted := sorted_fst src
        rw [hall, List.pairwise_append, List.pairwise_append] at hsorted
        rcases List.mem_append.mp ((hmem m).mp hm) with hinit | hlast
        · exact hsorted.1.2.2 m hinit o (List.mem_singleton_self o)
        · rw [List.mem_singleton.mp hlast]
      have hmo : m = o := List.inj_on_of_nodup_map hdistinct (List.mem_of_mem_filter hm)
        (List.mem_of_mem_filter ho) (le_antisymm hge hle)
      rw [hmax, hmo, List.getLast?_concat]

theorem latest_eq_none_iff {bound : ℤ} :
    latest src bound = none ↔ ∀ o ∈ src, bound ≤ o.1 := by
  rw [latest, Option.map_eq_none_iff, List.argmax_eq_none, List.filter_eq_nil_iff]
  simp only [decide_eq_true_iff, not_lt]

/-- The latest observation is one before the bound, and none before the bound is later. -/
theorem latest_eq_some_iff (hdistinct : (src.map Prod.fst).Nodup) {bound : ℤ} {v : O} :
    latest src bound = some v ↔
      ∃ ts, ((ts, v) ∈ src ∧ ts < bound) ∧ ∀ o ∈ src, o.1 < bound → o.1 ≤ ts := by
  have hmem : ∀ {o}, o ∈ src.filter (fun o => decide (o.1 < bound)) ↔ o ∈ src ∧ o.1 < bound := by
    intro o
    rw [List.mem_filter, decide_eq_true_iff]
  constructor
  · intro h
    obtain ⟨m, hmax, rfl⟩ := Option.map_eq_some_iff.mp h
    refine ⟨m.1, hmem.mp (List.argmax_mem (f := Prod.fst) hmax), fun o ho hlt => ?_⟩
    exact List.le_of_mem_argmax (f := Prod.fst) (hmem.mpr ⟨ho, hlt⟩) hmax
  · rintro ⟨ts, hts, hlatest⟩
    rw [latest]
    rcases hmax : (src.filter fun o => decide (o.1 < bound)).argmax Prod.fst with _ | m
    · rw [List.argmax_eq_none] at hmax
      have hnot := hmem.mpr hts
      rw [hmax] at hnot
      cases hnot
    · have hm := hmem.mp (List.argmax_mem (f := Prod.fst) hmax)
      have hge := List.le_of_mem_argmax (f := Prod.fst) (hmem.mpr hts) hmax
      have hm' : m = (ts, v) := List.inj_on_of_nodup_map hdistinct hm.1 hts.1
        (le_antisymm (hlatest m hm.1 hm.2) hge)
      rw [hmax, hm']
      rfl

end Sorted

/-! ## The bars -/

section Bars

variable {src : List (ℤ × ℚ)} {step : ℤ}

/-- What a bar of the forward fill has seen after the observations `new`. -/
theorem foldl_forwardFill (t : ℤ) (new : List (ℤ × ℚ)) (s : Carry) :
    new.foldl (forwardFill.body t) s =
      { last := (new.getLast?.map Prod.snd).or s.last
        fresh := s.fresh || new.any fun o => decide (t ≤ o.1) } := by
  induction new using List.reverseRecOn with
  | nil => simp
  | append_singleton new o ih =>
    rw [List.foldl_concat, ih, List.getLast?_concat, List.any_append]
    simp [forwardFill, Bool.or_assoc]

theorem foldl_zeroFlow (t : ℤ) (new : List (ℤ × ℚ)) (sum : ℚ) :
    new.foldl (zeroFlow.body t) sum =
      sum + ((new.filter fun o => t ≤ o.1).map Prod.snd).sum := by
  induction new generalizing sum with
  | nil => simp
  | cons o new ih =>
    rw [List.foldl_cons, ih]
    by_cases hle : t ≤ o.1
    · simp [zeroFlow, hle, add_assoc]
    · simp [zeroFlow, hle]

/-- The observations of a bar are among those it consumes. -/
theorem inBar_iff {O : Type*} {src done new rest : List (ℤ × O)} {t : ℤ}
    (hall : sortByKey Prod.fst src = done ++ new ++ rest) (hdone : ∀ o ∈ done, o.1 < t)
    (hnew : ∀ o ∈ new, o.1 < t + step) (hrest : ∀ o ∈ rest, t + step ≤ o.1) (o : ℤ × O) :
    o ∈ src ∧ InBar step t o ↔ o ∈ new ∧ t ≤ o.1 := by
  rw [← mem_sortByKey Prod.fst, hall, List.mem_append, List.mem_append]
  constructor
  · rintro ⟨(ho | ho) | ho, hle, hlt⟩
    · exact absurd (hdone o ho) (not_lt.mpr hle)
    · exact ⟨ho, hle⟩
    · exact absurd (hrest o ho) (not_le.mpr hlt)
  · exact fun ⟨ho, hle⟩ => ⟨Or.inl (Or.inr ho), hle, hnew o ho⟩

/-- What falls into a bar, from the observations that it consumes. -/
theorem filter_inBar {O : Type*} {src done new rest : List (ℤ × O)} {t : ℤ}
    (hall : sortByKey Prod.fst src = done ++ new ++ rest) (hdone : ∀ o ∈ done, o.1 < t)
    (hnew : ∀ o ∈ new, o.1 < t + step) (hrest : ∀ o ∈ rest, t + step ≤ o.1) :
    (src.filter fun o => InBar step t o).Perm (new.filter fun o => t ≤ o.1) := by
  have hperm := (sortByKey_perm Prod.fst src).symm.filter fun o => decide (InBar step t o)
  rw [hall, List.filter_append, List.filter_append] at hperm
  have hbefore : done.filter (fun o => InBar step t o) = [] :=
    List.filter_eq_nil_iff.mpr fun o ho hin =>
      absurd (of_decide_eq_true hin).1 (not_le.mpr (hdone o ho))
  have hafter : rest.filter (fun o => InBar step t o) = [] :=
    List.filter_eq_nil_iff.mpr fun o ho hin =>
      absurd (of_decide_eq_true hin).2 (not_lt.mpr (hrest o ho))
  have hin : new.filter (fun o => InBar step t o) = new.filter fun o => t ≤ o.1 := by
    refine List.filter_congr fun o ho => ?_
    have hlt := hnew o ho
    rw [decide_eq_decide, InBar]
    exact and_iff_left hlt
  rwa [hbefore, hafter, hin, List.nil_append, List.append_nil] at hperm

/-- A bar is filled when nothing falls into it. -/
theorem filled_eq {O : Type*} {src done new rest : List (ℤ × O)} {t : ℤ}
    (hall : sortByKey Prod.fst src = done ++ new ++ rest) (hdone : ∀ o ∈ done, o.1 < t)
    (hnew : ∀ o ∈ new, o.1 < t + step) (hrest : ∀ o ∈ rest, t + step ≤ o.1) :
    (!new.any fun o => decide (t ≤ o.1)) = decide (∀ o ∈ src, ¬ InBar step t o) := by
  rw [List.not_any_eq_all_not, Bool.eq_iff_iff, List.all_eq_true, decide_eq_true_iff]
  constructor
  · intro hstale o ho hin
    have hfresh := (inBar_iff hall hdone hnew hrest o).mp ⟨ho, hin⟩
    simpa [hfresh.2] using hstale o hfresh.1
  · intro hnone o ho
    by_cases hle : t ≤ o.1
    · have hsrc := (inBar_iff hall hdone hnew hrest o).mpr ⟨ho, hle⟩
      exact absurd hsrc.2 (hnone o hsrc.1)
    · simp [hle]

theorem barOk_forwardFill (hdistinct : (src.map Prod.fst).Nodup) (hstep : 0 < step) :
    BarOk forwardFill step (sortByKey Prod.fst src)
      (fun done s => s.last = done.getLast?.map Prod.snd) (expectedBar src step .forwardFill) := by
  intro t done new rest s hall hdone hnew hrest hlast
  have hclose := lt_close hstep hdone hnew
  have hcarried : ((new.getLast?.map Prod.snd).or s.last) =
      (done ++ new).getLast?.map Prod.snd := by
    rw [hlast, List.getLast?_append]
    cases new.getLast? <;> rfl
  rw [foldl_forwardFill]
  refine ⟨hcarried, ?_⟩
  rw [expectedBar, latest_eq_getLast? hdistinct hall hclose hrest, ← hcarried,
    ← filled_eq hall hdone hnew hrest]
  simp only [forwardFill, Bool.false_or]

theorem barOk_zeroFlow :
    BarOk zeroFlow step (sortByKey Prod.fst src) (fun _ _ => True)
      (expectedBar src step .zeroFlow) := by
  intro t done new rest s hall hdone hnew hrest _
  have hsum := ((filter_inBar hall hdone hnew hrest).map Prod.snd).sum_eq
  rw [foldl_zeroFlow]
  refine ⟨trivial, ?_⟩
  rw [expectedBar, flow, hsum]
  simp only [zeroFlow, zero_add]

theorem resample_eq_filterMap (hdistinct : (src.map Prod.fst).Nodup) (hstep : 0 < step)
    (start stop : ℤ) (policy : FillPolicy) :
    resample src start stop step policy =
      (grid start stop step).filterMap (expectedBar src step policy) := by
  cases policy with
  | forwardFill =>
    exact walk_eq_filterMap (sorted_fst src) hstep (barOk_forwardFill hdistinct hstep) rfl
  | zeroFlow => exact walk_eq_filterMap (sorted_fst src) hstep barOk_zeroFlow trivial

/-- **Main theorem.** The bars of `resample` are the expected ones, on the multiples of the step
    from the first bar to the end, in order, and a time on the grid lies in one of them. -/
theorem resample_eq (hdistinct : (src.map Prod.fst).Nodup) (hstep : 0 < step) (start stop : ℤ)
    (policy : FillPolicy) :
    resample src start stop step policy =
        (grid start stop step).filterMap (expectedBar src step policy) ∧
      (∀ t, t ∈ grid start stop step ↔ step ∣ t ∧ start / step * step ≤ t ∧ t < stop) ∧
      (grid start stop step).Pairwise (· < ·) ∧
      ∀ x, start / step * step ≤ x → (∃ t ∈ grid start stop step, x < t + step) →
        ∃! t, t ∈ grid start stop step ∧ t ≤ x ∧ x < t + step :=
  ⟨resample_eq_filterMap hdistinct hstep start stop policy, fun _ => mem_grid_iff hstep,
    pairwise_grid hstep, fun _ hfirst hlast => existsUnique_bar hstep hfirst hlast⟩

/-- Three observations around zero, on four bars. -/
theorem resample_eq_three :
    let src : List (ℤ × ℚ) := [(7, 1), (-13, 2), (22, 5)]
    resample src (-5) 25 10 .forwardFill =
        (grid (-5) 25 10).filterMap (expectedBar src 10 .forwardFill) ∧
      (∀ t, t ∈ grid (-5) 25 10 ↔ (10 : ℤ) ∣ t ∧ (-5 : ℤ) / 10 * 10 ≤ t ∧ t < 25) ∧
      (grid (-5) 25 10).Pairwise (· < ·) ∧
      ∀ x : ℤ, (-5 : ℤ) / 10 * 10 ≤ x → (∃ t ∈ grid (-5) 25 10, x < t + 10) →
        ∃! t, t ∈ grid (-5) 25 10 ∧ t ≤ x ∧ x < t + 10 :=
  resample_eq (by decide) (by decide) (-5) 25 .forwardFill

end Bars

end Digdigdig3.BarAlign
