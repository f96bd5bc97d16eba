import Std.Data.ExtTreeMap
import Mathlib.Logic.Function.Iterate
import Digdigdig3.BarAlign.Resample

/-!
# Resampling several lanes at once

`resample_multi` (`crates/digdigdig3-station/src/bar_align.rs`) walks the grid once for all
lanes of a source. A lane of an observation may be missing from its map or be `NAN`; the zero
flow skips a `NAN`, but the forward fill stores it over the value that it carries. An `f64` is a
rational number, or none for `NAN`.

Results:
* `getElem?_foldl_lanes`: a loop over the lanes, lane by lane.
* `resampleMulti_eq`: the bars of all lanes, from the observations of each lane.
* `resampleMulti_lawful_iff`: the sources for which each lane is resampled as if alone.
-/

namespace Digdigdig3.BarAlign

open Grid

/-- The lanes of an observation or a bar. -/
abbrev Lanes := Std.ExtTreeMap String (Option ℚ)

/-- `MultiScalarBar` (lines 496–504). -/
structure MultiScalarBar where
  barOpenTime : ℤ
  lanes : Lanes
  filled : Bool

/-! ## Model -/

/-- `last` and `fresh` of the forward fill. -/
structure MultiCarry where
  last : Lanes
  fresh : Bool

section Model

variable (lanes : List String)

/-- The loop over the lanes of an observation in the forward fill (lines 551–555). -/
def carryLanes (last obs : Lanes) : Lanes :=
  lanes.foldl (fun last lane =>
    match obs[lane]? with
    | some v => last.insert lane v
    | none => last) last

/-- The loop over the lanes of an observation in the zero flow (lines 579–585). -/
def addLanes (sums obs : Lanes) : Lanes :=
  lanes.foldl (fun sums lane =>
    match obs[lane]? with
    | some (some v) => sums.insert lane ((sums[lane]?.getD (some 0)).map (· + v))
    | _ => sums) sums

/-- The map of a bar: the lanes with the values of `f`. -/
def laneMap (f : String → Option ℚ) : Lanes :=
  lanes.foldl (fun bar lane => bar.insert lane (f lane)) ∅

/-- The forward fill (lines 542–569). -/
def multiForwardFill : Walker Lanes MultiCarry MultiScalarBar where
  enter s := { s with fresh := false }
  body t s o := { last := carryLanes lanes s.last o.2, fresh := s.fresh || decide (t ≤ o.1) }
  emit t s :=
    if s.last.isEmpty then none
    else some { barOpenTime := t, lanes := laneMap lanes fun lane => s.last[lane]?.getD none
                filled := !s.fresh }

/-- The zero flow (lines 570–591). -/
def multiZeroFlow : Walker Lanes Lanes MultiScalarBar where
  enter _ := laneMap lanes fun _ => some 0
  body t sums o := if t ≤ o.1 then addLanes lanes sums o.2 else sums
  emit t sums := some { barOpenTime := t, lanes := sums, filled := false }

/-- `resample_multi` (lines 529–594). -/
def resampleMulti (src : List (ℤ × Lanes)) (start stop step : ℤ) (policy : FillPolicy) :
    List MultiScalarBar :=
  let src := sortByKey Prod.fst src
  match policy with
  | .forwardFill =>
    walkGrid (multiForwardFill lanes) start stop step src { last := ∅, fresh := false }
  | .zeroFlow => walkGrid (multiZeroFlow lanes) start stop step src ∅

end Model

/-! ## Specification -/

/-- The observations of a source for which `g` has a value. -/
def obsOf {O : Type*} (g : Lanes → Option O) (src : List (ℤ × Lanes)) : List (ℤ × O) :=
  src.filterMap fun o => (g o.2).map fun v => (o.1, v)

/-- The observations with a value for the lane, which may be `NAN`. -/
def presentObs (lane : String) (src : List (ℤ × Lanes)) : List (ℤ × Option ℚ) :=
  obsOf (fun m => m[lane]?) src

/-- The observations with a number for the lane. -/
def realObs (lane : String) (src : List (ℤ × Lanes)) : List (ℤ × ℚ) :=
  obsOf (fun m => m[lane]?.join) src

/-- In each bar each lane has the value that the lane resampled alone has in it, and `NAN`
    where that has no bar, which happens only before the first number of a state stream; and no
    bar of the lane is left out. -/
def Lawful (lanes : List String) (src : List (ℤ × Lanes)) (start stop step : ℤ)
    (policy : FillPolicy) : Prop :=
  ∀ lane ∈ lanes,
    (∀ b ∈ resampleMulti lanes src start stop step policy, ∃ v, b.lanes[lane]? = some v ∧
      (∀ x, v = some x ↔ ∃ r ∈ resample (realObs lane src) start stop step policy,
        r.barOpenTime = b.barOpenTime ∧ r.value = x) ∧
      (v = none ↔ policy = .forwardFill ∧
        ∀ o ∈ realObs lane src, b.barOpenTime + step ≤ o.1)) ∧
    ∀ r ∈ resample (realObs lane src) start stop step policy,
      ∃ b ∈ resampleMulti lanes src start stop step policy, b.barOpenTime = r.barOpenTime

/-- Forward fill: a lane whose latest value is `NAN` at the close of a bar had no number before.
    Zero flow: a lane that is listed twice sums to zero in each bar. -/
def Clean (lanes : List String) (src : List (ℤ × Lanes)) (start stop step : ℤ) :
    FillPolicy → Prop
  | .forwardFill => ∀ lane ∈ lanes, ∀ t ∈ grid start stop step,
      latest (presentObs lane src) (t + step) = some none →
        ∀ o ∈ realObs lane src, t + step ≤ o.1
  | .zeroFlow => ∀ lane ∈ lanes, 1 < lanes.count lane →
      ∀ t ∈ grid start stop step, flow (realObs lane src) step t = 0

/-! ## The observations of a lane -/

section ObsOf

variable {O : Type*} (g : Lanes → Option O) {src : List (ℤ × Lanes)}

theorem obsOf_append (a b : List (ℤ × Lanes)) : obsOf g (a ++ b) = obsOf g a ++ obsOf g b :=
  List.filterMap_append

theorem mem_obsOf {o : ℤ × O} : o ∈ obsOf g src ↔ ∃ m, (o.1, m) ∈ src ∧ g m = some o.2 := by
  rw [obsOf, List.mem_filterMap]
  constructor
  · rintro ⟨⟨ts, m⟩, hm, ho⟩
    obtain ⟨v, hv, rfl⟩ := Option.map_eq_some_iff.mp ho
    exact ⟨m, hm, hv⟩
  · rintro ⟨m, hm, hv⟩
    exact ⟨(o.1, m), hm, by rw [hv]; rfl⟩

/-- The timestamps of a lane are among those of the source. -/
theorem sublist_obsOf : ((obsOf g src).map Prod.fst).Sublist (src.map Prod.fst) := by
  induction src with
  | nil => exact List.Sublist.refl _
  | cons o src ih =>
    rw [obsOf, List.filterMap_cons]
    cases g o.2 with
    | none => exact ih.cons _
    | some v => exact ih.cons_cons _

theorem nodup_obsOf (h : (src.map Prod.fst).Nodup) : ((obsOf g src).map Prod.fst).Nodup :=
  h.sublist (sublist_obsOf g)

/-- The observations of a lane sort as those of the source do. -/
theorem sortByKey_obsOf (h : (src.map Prod.fst).Nodup) :
    sortByKey Prod.fst (obsOf g src) = obsOf g (sortByKey Prod.fst src) := by
  have hperm : (sortByKey Prod.fst (obsOf g src)).Perm (obsOf g (sortByKey Prod.fst src)) :=
    (sortByKey_perm Prod.fst _).trans ((sortByKey_perm Prod.fst src).symm.filterMap _)
  have hsorted : ((obsOf g (sortByKey Prod.fst src)).map Prod.fst).Pairwise (· ≤ ·) :=
    (List.pairwise_map.mpr (sorted_fst src)).sublist (sublist_obsOf g)
  refine hperm.eq_of_pairwise ?_ (sorted_fst _) (List.pairwise_map.mp hsorted)
  intro a b ha hb hab hba
  rw [mem_sortByKey] at ha
  have hb' : b ∈ obsOf g src := by
    rw [mem_obsOf] at hb ⊢
    obtain ⟨m, hm, hv⟩ := hb
    exact ⟨m, (mem_sortByKey Prod.fst).mp hm, hv⟩
  exact List.inj_on_of_nodup_map (nodup_obsOf g h) ha hb' (le_antisymm hab hba)

end ObsOf

/-! ## The loops over the lanes -/

/-- A loop over the lanes that updates one lane at a time. -/
theorem getElem?_foldl_lanes {update : Lanes → String → Lanes}
    {g : String → Option (Option ℚ) → Option (Option ℚ)}
    (hupdate : ∀ m lane l, (update m lane)[l]? = if lane = l then g l m[l]? else m[l]?)
    (lanes : List String) (m : Lanes) (l : String) :
    (lanes.foldl update m)[l]? = (g l)^[lanes.count l] m[l]? := by
  induction lanes generalizing m with
  | nil => rfl
  | cons lane lanes ih =>
    rw [List.foldl_cons, ih, hupdate, List.count_cons]
    by_cases heq : lane = l
    · subst heq
      rw [if_pos rfl, beq_self_eq_true, if_pos rfl, Function.iterate_succ_apply]
    · rw [if_neg heq, if_neg (by simpa using heq), Nat.add_zero]

theorem getElem?_insert_lane (m : Lanes) (lane l : String) (v : Option ℚ) :
    (m.insert lane v)[l]? = if lane = l then some v else m[l]? := by
  rw [Std.ExtTreeMap.getElem?_insert]
  by_cases heq : lane = l
  · simp [heq]
  · simp [heq]

theorem iterate_of_idempotent {α : Type*} {f : α → α} (hf : ∀ x, f (f x) = f x) (n : ℕ) (x : α) :
    f^[n] x = if n = 0 then x else f x := by
  cases n with
  | zero => rfl
  | succ n =>
    rw [if_neg n.succ_ne_zero, Function.iterate_succ_apply]
    induction n with
    | zero => rfl
    | succ n ih => rw [Function.iterate_succ_apply, hf, ih]

theorem getElem?_laneMap (lanes : List String) (f : String → Option ℚ) (l : String) :
    (laneMap lanes f)[l]? = if l ∈ lanes then some (f l) else none := by
  rw [laneMap, getElem?_foldl_lanes (g := fun l _ => some (f l)), iterate_of_idempotent]
  · simp only [List.count_eq_zero, Std.ExtTreeMap.getElem?_empty, ite_not]
  · exact fun _ => rfl
  · intro m lane l
    rw [getElem?_insert_lane]
    split_ifs with heq
    · rw [heq]
    · rfl

theorem getElem?_carryLanes (lanes : List String) (last obs : Lanes) (l : String) :
    (carryLanes lanes last obs)[l]? = if l ∈ lanes then obs[l]?.or last[l]? else last[l]? := by
  rw [carryLanes, getElem?_foldl_lanes (g := fun l x => obs[l]?.or x), iterate_of_idempotent]
  · simp only [List.count_eq_zero, ite_not]
  · intro x
    cases obs[l]? <;> rfl
  · intro m lane l
    by_cases heq : lane = l
    · subst heq
      rw [if_pos rfl]
      cases obs[lane]? with
      | none => rfl
      | some v => rw [getElem?_insert_lane, if_pos rfl]; rfl
    · rw [if_neg heq]
      cases obs[lane]? with
      | none => rfl
      | some v => rw [getElem?_insert_lane, if_neg heq]

/-- What an observation with the value `v` for a lane does to the sum of the lane. -/
def addLane (v sum : Option (Option ℚ)) : Option (Option ℚ) :=
  match v with
  | some (some v) => some ((sum.getD (some 0)).map (· + v))
  | _ => sum

theorem iterate_addLane (v : Option (Option ℚ)) (n : ℕ) (q : ℚ) :
    (addLane v)^[n] (some (some q)) = some (some (q + n * (v.join).getD 0)) := by
  induction n generalizing q with
  | zero => simp
  | succ n ih =>
    have hone : addLane v (some (some q)) = some (some (q + (v.join).getD 0)) := by
      rcases v with _ | _ | v
      · simp [addLane]
      · simp [addLane]
      · rfl
    rw [Function.iterate_succ_apply, hone, ih]
    push_cast
    ring_nf

/-- Each time that a lane is listed, its number is added. -/
theorem getElem?_addLanes (lanes : List String) (sums obs : Lanes) (l : String) :
    (addLanes lanes sums obs)[l]? = (addLane obs[l]?)^[lanes.count l] sums[l]? := by
  rw [addLanes, getElem?_foldl_lanes (g := fun l => addLane obs[l]?)]
  intro m lane l
  by_cases heq : lane = l
  · subst heq
    rw [if_pos rfl]
    rcases obs[lane]? with _ | _ | v
    · rfl
    · rfl
    · rw [getElem?_insert_lane, if_pos rfl]
      rfl
  · rw [if_neg heq]
    rcases obs[lane]? with _ | _ | v
    · rfl
    · rfl
    · rw [getElem?_insert_lane, if_neg heq]

/-! ## The bars -/

/-- The bar that stands at `t`. -/
noncomputable def expectedMulti (lanes : List String) (src : List (ℤ × Lanes)) (step : ℤ) :
    FillPolicy → ℤ → Option MultiScalarBar
  | .forwardFill, t =>
    if ∀ lane ∈ lanes, latest (presentObs lane src) (t + step) = none then none
    else some
      { barOpenTime := t
        lanes := laneMap lanes fun lane => (latest (presentObs lane src) (t + step)).join
        filled := decide (∀ o ∈ src, ¬ InBar step t o) }
  | .zeroFlow, t => some
      { barOpenTime := t
        lanes := laneMap lanes fun lane =>
          some (lanes.count lane * flow (realObs lane src) step t)
        filled := false }

section Bars

variable {lanes : List String} {src : List (ℤ × Lanes)} {step : ℤ}

/-- The map of the forward fill has the last value of each lane. -/
def Carries (lanes : List String) (done : List (ℤ × Lanes)) (s : MultiCarry) : Prop :=
  ∀ l, s.last[l]? = if l ∈ lanes then (presentObs l done).getLast?.map Prod.snd else none

theorem presentObs_append (l : String) (a b : List (ℤ × Lanes)) :
    presentObs l (a ++ b) = presentObs l a ++ presentObs l b := obsOf_append _ a b

theorem Carries.observe {done : List (ℤ × Lanes)} {s : MultiCarry} (h : Carries lanes done s)
    (t : ℤ) (o : ℤ × Lanes) :
    Carries lanes (done ++ [o]) ((multiForwardFill lanes).body t s o) := by
  intro l
  show (carryLanes lanes s.last o.2)[l]? = _
  rw [getElem?_carryLanes, h l]
  by_cases hl : l ∈ lanes
  · have hone : (presentObs l [o]).getLast?.map Prod.snd = o.2[l]? := by
      rw [presentObs, obsOf, List.filterMap_cons, List.filterMap_nil]
      cases o.2[l]? <;> rfl
    rw [if_pos hl, if_pos hl, if_pos hl, presentObs_append, List.getLast?_append, ← hone]
    cases (presentObs l [o]).getLast? <;> rfl
  · rw [if_neg hl, if_neg hl, if_neg hl]

theorem Carries.foldl {done : List (ℤ × Lanes)} {s : MultiCarry} (h : Carries lanes done s)
    (t : ℤ) (new : List (ℤ × Lanes)) :
    Carries lanes (done ++ new) (new.foldl ((multiForwardFill lanes).body t) s) ∧
      (new.foldl ((multiForwardFill lanes).body t) s).fresh =
        (s.fresh || new.any fun o => decide (t ≤ o.1)) := by
  induction new generalizing done s with
  | nil => simpa using h
  | cons o new ih =>
    obtain ⟨hcarries, hfresh⟩ := ih (h.observe t o)
    rw [List.foldl_cons, List.append_cons]
    refine ⟨hcarries, hfresh.trans ?_⟩
    rw [List.any_cons, ← Bool.or_assoc]
    rfl

theorem forall_obsOf {O : Type*} {g : Lanes → Option O} {p : ℤ → Prop} (h : ∀ o ∈ src, p o.1) :
    ∀ o ∈ obsOf g src, p o.1 := by
  intro o ho
  obtain ⟨m, hm, -⟩ := (mem_obsOf g).mp ho
  exact h _ hm

theorem barOk_multiForwardFill (hdistinct : (src.map Prod.fst).Nodup) (hstep : 0 < step) :
    BarOk (multiForwardFill lanes) step (sortByKey Prod.fst src) (Carries lanes)
      (expectedMulti lanes src step .forwardFill) := by
  intro t done new rest s hall hdone hnew hrest hcarries
  have hclose := lt_close hstep hdone hnew
  have henter : Carries lanes done ((multiForwardFill lanes).enter s) := hcarries
  obtain ⟨hlast, hfresh⟩ := henter.foldl t new
  have hlatest : ∀ l, latest (presentObs l src) (t + step) =
      (presentObs l (done ++ new)).getLast?.map Prod.snd := by
    intro l
    have hsplit : sortByKey Prod.fst (presentObs l src) =
        presentObs l (done ++ new) ++ presentObs l rest := by
      rw [presentObs, sortByKey_obsOf _ hdistinct, hall, obsOf_append]
      rfl
    exact latest_eq_getLast? (nodup_obsOf _ hdistinct) hsplit
      (forall_obsOf (p := fun ts => ts < t + step) hclose)
      (forall_obsOf (p := fun ts => t + step ≤ ts) hrest)
  refine ⟨hlast, ?_⟩
  generalize hs : new.foldl ((multiForwardFill lanes).body t)
    ((multiForwardFill lanes).enter s) = s' at hlast hfresh ⊢
  have hlane : ∀ l, s'.last[l]? =
      if l ∈ lanes then latest (presentObs l src) (t + step) else none := by
    intro l
    rw [hlast l, hlatest l]
  have hempty : s'.last.isEmpty = true ↔
      ∀ lane ∈ lanes, latest (presentObs lane src) (t + step) = none := by
    rw [Std.ExtTreeMap.isEmpty_iff]
    constructor
    · intro hnil lane hmem
      have h := hlane lane
      rw [if_pos hmem, hnil, Std.ExtTreeMap.getElem?_empty] at h
      exact h.symm
    · intro hnone
      refine Std.ExtTreeMap.ext_getElem? fun l => ?_
      rw [hlane l, Std.ExtTreeMap.getElem?_empty]
      split_ifs with hmem
      · exact hnone l hmem
      · rfl
  have hmap : (laneMap lanes fun lane => s'.last[lane]?.getD none) =
      laneMap lanes fun lane => (latest (presentObs lane src) (t + step)).join := by
    refine Std.ExtTreeMap.ext_getElem? fun l => ?_
    rw [getElem?_laneMap, getElem?_laneMap]
    split_ifs with hmem
    · rw [hlane l, if_pos hmem]
      cases latest (presentObs l src) (t + step) <;> rfl
    · rfl
  have hfilled : (!s'.fresh) = decide (∀ o ∈ src, ¬ InBar step t o) := by
    rw [hfresh, ← filled_eq hall hdone hnew hrest]
    rfl
  show (if s'.last.isEmpty then none else some _) = _
  rw [expectedMulti, hmap, hfilled]
  exact if_congr hempty rfl rfl

theorem realObs_append (l : String) (a b : List (ℤ × Lanes)) :
    realObs l (a ++ b) = realObs l a ++ realObs l b := obsOf_append _ a b

/-- The sum of a lane over the observations that a bar consumes. -/
theorem foldl_multiZeroFlow (t : ℤ) (new : List (ℤ × Lanes)) {sums : Lanes} {l : String} {q : ℚ}
    (hq : sums[l]? = some (some q)) :
    (new.foldl ((multiZeroFlow lanes).body t) sums)[l]? = some (some (q + lanes.count l *
      (((realObs l new).filter fun o => t ≤ o.1).map Prod.snd).sum)) := by
  induction new generalizing sums q with
  | nil => simpa [realObs, obsOf] using hq
  | cons o new ih =>
    have hsplit : realObs l (o :: new) = realObs l [o] ++ realObs l new := realObs_append l [o] new
    have hone : (((realObs l [o]).filter fun o => t ≤ o.1).map Prod.snd).sum =
        if t ≤ o.1 then (o.2[l]?.join).getD 0 else 0 := by
      rw [realObs, obsOf, List.filterMap_cons, List.filterMap_nil]
      cases o.2[l]?.join <;> by_cases hle : t ≤ o.1 <;> simp [hle]
    rw [List.foldl_cons, hsplit, List.filter_append, List.map_append, List.sum_append, hone]
    by_cases hle : t ≤ o.1
    · have hadd : ((multiZeroFlow lanes).body t sums o)[l]? =
          some (some (q + lanes.count l * (o.2[l]?.join).getD 0)) := by
        show (if t ≤ o.1 then addLanes lanes sums o.2 else sums)[l]? = _
        rw [if_pos hle, getElem?_addLanes, hq, iterate_addLane]
      rw [ih hadd, if_pos hle, mul_add, add_assoc]
    · have hsame : ((multiZeroFlow lanes).body t sums o)[l]? = some (some q) := by
        show (if t ≤ o.1 then addLanes lanes sums o.2 else sums)[l]? = _
        rw [if_neg hle, hq]
      rw [ih hsame, if_neg hle, zero_add]

theorem foldl_multiZeroFlow_of_not_mem (t : ℤ) (new : List (ℤ × Lanes)) {sums : Lanes} {l : String}
    (hl : l ∉ lanes) :
    (new.foldl ((multiZeroFlow lanes).body t) sums)[l]? = sums[l]? := by
  induction new generalizing sums with
  | nil => rfl
  | cons o new ih =>
    rw [List.foldl_cons, ih]
    show (if t ≤ o.1 then addLanes lanes sums o.2 else sums)[l]? = _
    split_ifs
    · rw [getElem?_addLanes, List.count_eq_zero.mpr hl]
      rfl
    · rfl

theorem barOk_multiZeroFlow (hdistinct : (src.map Prod.fst).Nodup) :
    BarOk (multiZeroFlow lanes) step (sortByKey Prod.fst src) (fun _ _ => True)
      (expectedMulti lanes src step .zeroFlow) := by
  intro t done new rest s hall hdone hnew hrest _
  refine ⟨trivial, ?_⟩
  have hflow : ∀ l, flow (realObs l src) step t =
      (((realObs l new).filter fun o => t ≤ o.1).map Prod.snd).sum := by
    intro l
    have hsplit : sortByKey Prod.fst (realObs l src) =
        realObs l done ++ realObs l new ++ realObs l rest := by
      rw [realObs, sortByKey_obsOf _ hdistinct, hall, obsOf_append, obsOf_append]
      rfl
    have hperm := filter_inBar hsplit (forall_obsOf (p := fun ts => ts < t) hdone)
      (forall_obsOf (p := fun ts => ts < t + step) hnew)
      (forall_obsOf (p := fun ts => t + step ≤ ts) hrest)
    exact (hperm.map Prod.snd).sum_eq
  have hmap : new.foldl ((multiZeroFlow lanes).body t) ((multiZeroFlow lanes).enter s) =
      laneMap lanes fun lane => some (lanes.count lane * flow (realObs lane src) step t) := by
    refine Std.ExtTreeMap.ext_getElem? fun l => ?_
    have henter : ((multiZeroFlow lanes).enter s)[l]? =
        if l ∈ lanes then some (some 0) else none := getElem?_laneMap lanes (fun _ => some 0) l
    rw [getElem?_laneMap]
    by_cases hl : l ∈ lanes
    · rw [if_pos hl] at henter
      rw [if_pos hl, foldl_multiZeroFlow t new henter, zero_add, hflow]
    · rw [if_neg hl] at henter
      rw [if_neg hl, foldl_multiZeroFlow_of_not_mem t new hl, henter]
  rw [hmap]
  rfl

theorem resampleMulti_eq (hdistinct : (src.map Prod.fst).Nodup) (hstep : 0 < step)
    (start stop : ℤ) (policy : FillPolicy) :
    resampleMulti lanes src start stop step policy =
      (grid start stop step).filterMap (expectedMulti lanes src step policy) := by
  have hnone : Carries lanes [] { last := ∅, fresh := false } := by
    intro l
    rw [Std.ExtTreeMap.getElem?_empty]
    split_ifs <;> rfl
  cases policy with
  | forwardFill =>
    exact walk_eq_filterMap (sorted_fst src) hstep (barOk_multiForwardFill hdistinct hstep) hnone
  | zeroFlow =>
    exact walk_eq_filterMap (sorted_fst src) hstep (barOk_multiZeroFlow hdistinct) trivial

end Bars

/-! ## Lane by lane -/

/-- The value of a stream in the bar at `t`, if it has a bar there. -/
noncomputable def singleValue (src : List (ℤ × ℚ)) (step : ℤ) : FillPolicy → ℤ → Option ℚ
  | .forwardFill, t => latest src (t + step)
  | .zeroFlow, t => some (flow src step t)

/-- The value of a lane in the bar at `t`; none is `NAN`. -/
noncomputable def laneValue (lanes : List String) (src : List (ℤ × Lanes)) (step : ℤ)
    (lane : String) : FillPolicy → ℤ → Option ℚ
  | .forwardFill, t => (latest (presentObs lane src) (t + step)).join
  | .zeroFlow, t => some (lanes.count lane * flow (realObs lane src) step t)

section Single

variable {src : List (ℤ × ℚ)} {step : ℤ} {policy : FillPolicy}

theorem expectedBar_eq_some {t : ℤ} {r : ScalarBar} (h : expectedBar src step policy t = some r) :
    r.barOpenTime = t ∧ singleValue src step policy t = some r.value := by
  cases policy with
  | forwardFill =>
    obtain ⟨v, hv, rfl⟩ := Option.map_eq_some_iff.mp h
    exact ⟨rfl, hv⟩
  | zeroFlow =>
    obtain rfl := Option.some.inj h
    exact ⟨rfl, rfl⟩

theorem exists_expectedBar {t : ℤ} {x : ℚ} (h : singleValue src step policy t = some x) :
    ∃ r, expectedBar src step policy t = some r ∧ r.value = x := by
  cases policy with
  | forwardFill =>
    have h : latest src (t + step) = some x := h
    exact ⟨_, by rw [expectedBar, h]; rfl, rfl⟩
  | zeroFlow =>
    have h : flow src step t = x := Option.some.inj h
    exact ⟨_, rfl, h⟩

/-- The values of the bars of a stream. -/
theorem exists_bar_iff (hdistinct : (src.map Prod.fst).Nodup) (hstep : 0 < step)
    {start stop t : ℤ} {x : ℚ} :
    (∃ r ∈ resample src start stop step policy, r.barOpenTime = t ∧ r.value = x) ↔
      t ∈ grid start stop step ∧ singleValue src step policy t = some x := by
  rw [resample_eq_filterMap hdistinct hstep]
  constructor
  · rintro ⟨r, hr, rfl, rfl⟩
    obtain ⟨t, ht, hbar⟩ := List.mem_filterMap.mp hr
    obtain ⟨htime, hvalue⟩ := expectedBar_eq_some hbar
    rw [htime]
    exact ⟨ht, hvalue⟩
  · rintro ⟨ht, hvalue⟩
    obtain ⟨r, hbar, hx⟩ := exists_expectedBar hvalue
    exact ⟨r, List.mem_filterMap.mpr ⟨t, ht, hbar⟩, (expectedBar_eq_some hbar).1, hx⟩

end Single

section Multi

variable {lanes : List String} {src : List (ℤ × Lanes)} {step : ℤ} {policy : FillPolicy}

theorem expectedMulti_eq_some {t : ℤ} {b : MultiScalarBar}
    (h : expectedMulti lanes src step policy t = some b) :
    b.barOpenTime = t ∧
      ∀ lane ∈ lanes, b.lanes[lane]? = some (laneValue lanes src step lane policy t) := by
  cases policy with
  | forwardFill =>
    rw [expectedMulti] at h
    split_ifs at h
    obtain rfl := Option.some.inj h
    refine ⟨rfl, fun lane hlane => ?_⟩
    rw [getElem?_laneMap, if_pos hlane]
    rfl
  | zeroFlow =>
    obtain rfl := Option.some.inj h
    refine ⟨rfl, fun lane hlane => ?_⟩
    rw [getElem?_laneMap, if_pos hlane]
    rfl

/-- The forward fill leaves a bar out only when no lane has a value yet. -/
theorem exists_expectedMulti {t : ℤ} {lane : String} (hlane : lane ∈ lanes)
    (h : policy = .forwardFill → latest (presentObs lane src) (t + step) ≠ none) :
    ∃ b, expectedMulti lanes src step policy t = some b := by
  cases policy with
  | forwardFill => exact ⟨_, if_neg fun hnone => h rfl (hnone lane hlane)⟩
  | zeroFlow => exact ⟨_, rfl⟩

theorem mem_realObs_iff {lane : String} {ts : ℤ} {v : ℚ} :
    (ts, v) ∈ realObs lane src ↔ (ts, some v) ∈ presentObs lane src := by
  rw [realObs, presentObs, mem_obsOf, mem_obsOf]
  simp only [Option.join_eq_some_iff]

/-- A lane that has no value yet has no number yet. -/
theorem latest_realObs_of_none {lane : String} {bound : ℤ}
    (h : latest (presentObs lane src) bound = none) : latest (realObs lane src) bound = none := by
  rw [latest_eq_none_iff] at h ⊢
  exact fun o ho => h _ (mem_realObs_iff.mp ho)

/-- A latest value that is a number is the latest number. -/
theorem latest_realObs_of_some (hdistinct : (src.map Prod.fst).Nodup) {lane : String} {bound : ℤ}
    {v : ℚ} (h : latest (presentObs lane src) bound = some (some v)) :
    latest (realObs lane src) bound = some v := by
  rw [presentObs, latest_eq_some_iff (nodup_obsOf _ hdistinct), ← presentObs] at h
  rw [realObs, latest_eq_some_iff (nodup_obsOf _ hdistinct), ← realObs]
  obtain ⟨ts, ⟨hts, hlt⟩, hlatest⟩ := h
  exact ⟨ts, ⟨mem_realObs_iff.mpr hts, hlt⟩, fun o ho => hlatest _ (mem_realObs_iff.mp ho)⟩

/-- In a clean source a lane has the value that it has alone. -/
theorem Clean.laneValue_eq (hdistinct : (src.map Prod.fst).Nodup) {start stop : ℤ}
    (h : Clean lanes src start stop step policy) {lane : String} (hlane : lane ∈ lanes) {t : ℤ}
    (ht : t ∈ grid start stop step) :
    laneValue lanes src step lane policy t = singleValue (realObs lane src) step policy t := by
  cases policy with
  | forwardFill =>
    rw [laneValue, singleValue]
    rcases hlatest : latest (presentObs lane src) (t + step) with _ | _ | v
    · rw [latest_realObs_of_none hlatest]
      rfl
    · rw [latest_eq_none_iff.mpr (h lane hlane t ht hlatest)]
      rfl
    · rw [latest_realObs_of_some hdistinct hlatest]
      rfl
  | zeroFlow =>
    rw [laneValue, singleValue]
    by_cases htwice : 1 < lanes.count lane
    · rw [h lane hlane htwice t ht, mul_zero]
    · have hpos := List.count_pos_iff.mpr hlane
      have hone : lanes.count lane = 1 := by omega
      rw [hone, Nat.cast_one, one_mul]

theorem Clean.lawful (hdistinct : (src.map Prod.fst).Nodup) (hstep : 0 < step) {start stop : ℤ}
    (h : Clean lanes src start stop step policy) : Lawful lanes src start stop step policy := by
  intro lane hlane
  have hbar := @exists_bar_iff (realObs lane src) step policy (nodup_obsOf _ hdistinct) hstep
    start stop
  rw [resampleMulti_eq hdistinct hstep]
  constructor
  · intro b hb
    obtain ⟨t, ht, hexpected⟩ := List.mem_filterMap.mp hb
    obtain ⟨rfl, hlanes⟩ := expectedMulti_eq_some hexpected
    have hvalue := h.laneValue_eq hdistinct hlane ht
    refine ⟨_, hlanes lane hlane, fun x => ?_, ?_⟩
    · rw [hbar, hvalue]
      exact (and_iff_right ht).symm
    · rw [hvalue]
      cases policy with
      | forwardFill =>
        rw [singleValue, latest_eq_none_iff]
        exact (and_iff_right rfl).symm
      | zeroFlow => exact iff_of_false nofun fun hpolicy => nomatch hpolicy.1
  · intro r hr
    obtain ⟨ht, hvalue⟩ := hbar.mp ⟨r, hr, rfl, rfl⟩
    have hemitted : policy = .forwardFill →
        latest (presentObs lane src) (r.barOpenTime + step) ≠ none := by
      rintro rfl hnone
      have hvalue : latest (realObs lane src) (r.barOpenTime + step) = some r.value := hvalue
      rw [latest_realObs_of_none hnone] at hvalue
      cases hvalue
    obtain ⟨b, hb⟩ := exists_expectedMulti hlane hemitted
    exact ⟨b, List.mem_filterMap.mpr ⟨_, ht, hb⟩, (expectedMulti_eq_some hb).1⟩

theorem Lawful.clean (hdistinct : (src.map Prod.fst).Nodup) (hstep : 0 < step) {start stop : ℤ}
    (h : Lawful lanes src start stop step policy) : Clean lanes src start stop step policy := by
  cases policy with
  | forwardFill =>
    intro lane hlane t ht hnan
    have hemitted : (FillPolicy.forwardFill = .forwardFill →
        latest (presentObs lane src) (t + step) ≠ none) := fun _ => by
      rw [hnan]
      exact nofun
    obtain ⟨b, hb⟩ := exists_expectedMulti hlane hemitted
    obtain ⟨rfl, hlanes⟩ := expectedMulti_eq_some hb
    have hmem := List.mem_filterMap.mpr ⟨_, ht, hb⟩
    rw [← resampleMulti_eq hdistinct hstep] at hmem
    obtain ⟨v, hv, -, hnone⟩ := (h lane hlane).1 b hmem
    rw [hlanes lane hlane, laneValue, hnan] at hv
    exact (hnone.mp (Option.some.inj hv).symm).2
  | zeroFlow =>
    intro lane hlane htwice t ht
    obtain ⟨b, hb⟩ : ∃ b, expectedMulti lanes src step .zeroFlow t = some b :=
      exists_expectedMulti hlane nofun
    obtain ⟨rfl, hlanes⟩ := expectedMulti_eq_some hb
    have hmem := List.mem_filterMap.mpr ⟨_, ht, hb⟩
    rw [← resampleMulti_eq hdistinct hstep] at hmem
    obtain ⟨v, hv, hvalue, -⟩ := (h lane hlane).1 b hmem
    have hflow : v = some (flow (realObs lane src) step b.barOpenTime) :=
      (hvalue _).mpr ((exists_bar_iff (nodup_obsOf _ hdistinct) hstep).mpr ⟨ht, rfl⟩)
    rw [hlanes lane hlane, laneValue, hflow, Option.some_inj, Option.some_inj] at hv
    by_contra hne
    have hone : (lanes.count lane : ℚ) = 1 := mul_right_cancel₀ hne (hv.trans (one_mul _).symm)
    have hcount : lanes.count lane = 1 := by exact_mod_cast hone
    omega

/-- **Main theorem.** Each lane is resampled as if alone exactly when no `NAN` stands at the close
    of a bar over an earlier number, and no lane is summed twice. -/
theorem resampleMulti_lawful_iff (hdistinct : (src.map Prod.fst).Nodup) (hstep : 0 < step)
    (start stop : ℤ) :
    Lawful lanes src start stop step policy ↔ Clean lanes src start stop step policy :=
  ⟨Lawful.clean hdistinct hstep, Clean.lawful hdistinct hstep⟩

end Multi

/-! ## A wire-absent value behind a number -/

/-- A rate, and an observation without one. -/
def absentRate : List (ℤ × Lanes) :=
  [(0, (∅ : Lanes).insert "rate" (some 5)), (60, (∅ : Lanes).insert "rate" none)]

theorem resampleMulti_lawful_iff_absent_rate :
    Lawful ["rate"] absentRate 0 120 60 .forwardFill ↔
      Clean ["rate"] absentRate 0 120 60 .forwardFill :=
  resampleMulti_lawful_iff (by decide) (by decide) 0 120

/-- The second bar has `NAN`, where the rate alone carries the five. -/
theorem not_lawful_of_absent_rate : ¬ Lawful ["rate"] absentRate 0 120 60 .forwardFill := by
  intro h
  have hclean := h.clean (by decide) (by decide)
  have hnan : latest (presentObs "rate" absentRate) (60 + 60) = some none := by
    rw [presentObs, latest_eq_some_iff (nodup_obsOf _ (by decide))]
    exact ⟨60, by decide, by decide⟩
  have hfive := hclean "rate" (List.mem_singleton_self _) 60
    ((mem_grid_iff (by decide)).mpr (by decide)) hnan (0, 5)
  exact absurd (hfive (by decide)) (by decide)

end Digdigdig3.BarAlign
