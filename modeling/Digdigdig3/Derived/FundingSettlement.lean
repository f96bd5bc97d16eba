import Digdigdig3.Derived.Basic

/-!
# `FundingSettlementDerived`: one report per funding settlement

`FundingSettlementDerived` (`derived.rs` lines 1775–1859) remembers the last
announced settlement boundary and reports it when a frame whose clock has passed it
announces a different one. The comparison is `!=`, so a frame that moves the boundary
back re-arms one that was already reported.

Results:
* `settlementTimes_eq_crossings`: the reported settlement times are the boundaries
  that two successive frames cross.
* `settlements_reported_once`: runs in which no frame announces a crossed boundary
  again report every settlement once, and only those can be continued safely.
* `settledRate_of_step`, `settlementTime_le_tsMs`: the data of one report.
-/

namespace Digdigdig3.Derived

/-- `FundingSettlementPoint` (`data/funding_settlement.rs` lines 9–13). -/
structure FundingSettlementPoint where
  tsMs : ℤ
  settledRate : ℚ
  settlementTime : ℤ
  deriving DecidableEq

/-- `FundingSettlementDerived` (lines 1800–1806). `lastNextFundingTime = 0` means that
    no boundary has been seen. -/
structure FundingSettlementDerived where
  lastNextFundingTime : ℤ
  lastRate : ℚ
  deriving DecidableEq

namespace FundingSettlementDerived

/-- `new_for_key` (lines 1814–1819). -/
def newForKey : FundingSettlementDerived := { lastNextFundingTime := 0, lastRate := 0 }

/-- `on_upstream_event` on a `FundingRate` frame (lines 1824–1858). -/
def onFundingRate (s : FundingSettlementDerived) (point : FundingRatePoint) :
    FundingSettlementDerived × Option FundingSettlementPoint :=
  let newNft := point.nextFundingTimeMs
  let newRate := point.rate
  let nowMs := point.tsMs
  if newNft = 0 then ({ s with lastRate := newRate }, none)
  else if s.lastNextFundingTime = 0 then
    ({ lastNextFundingTime := newNft, lastRate := newRate }, none)
  else
    let output :=
      if s.lastNextFundingTime ≤ nowMs ∧ newNft ≠ s.lastNextFundingTime then
        some { tsMs := nowMs, settledRate := s.lastRate,
               settlementTime := s.lastNextFundingTime }
      else none
    ({ lastNextFundingTime := newNft, lastRate := newRate }, output)

/-- `on_upstream_event` (lines 1821–1859). -/
def onUpstreamEvent (s : FundingSettlementDerived) (ev : Event) :
    FundingSettlementDerived × Option FundingSettlementPoint :=
  match ev with
  | .fundingRate _ _ point => s.onFundingRate point
  | _ => (s, none)

/-- The derived stream as a machine. -/
def machine : Mealy FundingSettlementDerived Event FundingSettlementPoint := ⟨onUpstreamEvent⟩

/-! ## What one frame does -/

variable {s : FundingSettlementDerived} {point : FundingRatePoint} {o : FundingSettlementPoint}

theorem onFundingRate_of_zero (h : point.nextFundingTimeMs = 0) :
    s.onFundingRate point = ({ s with lastRate := point.rate }, none) := by
  simp only [onFundingRate, if_pos h]

theorem onFundingRate_of_first (h : point.nextFundingTimeMs ≠ 0)
    (hs : s.lastNextFundingTime = 0) :
    s.onFundingRate point = (⟨point.nextFundingTimeMs, point.rate⟩, none) := by
  simp only [onFundingRate, if_neg h, if_pos hs]

theorem onFundingRate_of_next (h : point.nextFundingTimeMs ≠ 0)
    (hs : s.lastNextFundingTime ≠ 0) :
    s.onFundingRate point = (⟨point.nextFundingTimeMs, point.rate⟩,
      if s.lastNextFundingTime ≤ point.tsMs ∧ point.nextFundingTimeMs ≠ s.lastNextFundingTime then
        some ⟨point.tsMs, s.lastRate, s.lastNextFundingTime⟩ else none) := by
  simp only [onFundingRate, if_neg h, if_neg hs]

theorem lastRate_onFundingRate : (s.onFundingRate point).1.lastRate = point.rate := by
  by_cases hz : point.nextFundingTimeMs = 0
  · rw [onFundingRate_of_zero hz]
  by_cases hs : s.lastNextFundingTime = 0
  · rw [onFundingRate_of_first hz hs]
  · rw [onFundingRate_of_next hz hs]

/-- A report carries the remembered boundary and rate, and a clock past the boundary. -/
theorem onFundingRate_eq_some (h : (s.onFundingRate point).2 = some o) :
    s.lastNextFundingTime ≠ 0 ∧ s.lastNextFundingTime ≤ point.tsMs ∧
      o = ⟨point.tsMs, s.lastRate, s.lastNextFundingTime⟩ := by
  by_cases hz : point.nextFundingTimeMs = 0
  · simp [onFundingRate_of_zero hz] at h
  by_cases hs : s.lastNextFundingTime = 0
  · simp [onFundingRate_of_first hz hs] at h
  rw [onFundingRate_of_next hz hs] at h
  split_ifs at h with hc
  exact ⟨hs, hc.1, (Option.some.inj h).symm⟩

/-! ## Crossings -/

/-- The funding-rate frames of a run that name a settlement boundary. -/
def frames (evs : List Event) : List FundingRatePoint :=
  evs.filterMap fun ev =>
    match ev with
    | .fundingRate _ _ point => if point.nextFundingTimeMs = 0 then none else some point
    | _ => none

/-- The boundaries that are crossed by the frame after the one that announced them. -/
def crossings : List FundingRatePoint → List ℤ
  | x :: y :: rest =>
    if x.nextFundingTimeMs ≤ y.tsMs ∧ y.nextFundingTimeMs ≠ x.nextFundingTimeMs then
      x.nextFundingTimeMs :: crossings (y :: rest)
    else crossings (y :: rest)
  | _ => []

/-- Once a frame has crossed a boundary, neither it nor a later frame announces a
    boundary at or before that one. -/
def FramesAdvance : List FundingRatePoint → Prop
  | x :: y :: rest =>
    (x.nextFundingTimeMs ≤ y.tsMs → y.nextFundingTimeMs ≠ x.nextFundingTimeMs →
      ∀ z ∈ y :: rest, x.nextFundingTimeMs < z.nextFundingTimeMs) ∧ FramesAdvance (y :: rest)
  | _ => True

theorem frames_append (evs evs' : List Event) :
    frames (evs ++ evs') = frames evs ++ frames evs' := List.filterMap_append

theorem frames_cons (ev : Event) (evs : List Event) :
    frames (ev :: evs) = frames [ev] ++ frames evs := frames_append [ev] evs

/-- An event is a frame that names a boundary, or it leaves the boundary alone and
    reports nothing. -/
theorem step_cases (ev : Event) :
    (frames [ev] = [] ∧ ∀ s : FundingSettlementDerived,
      (machine.step s ev).1.lastNextFundingTime = s.lastNextFundingTime ∧
        (machine.step s ev).2 = none) ∨
    (∃ p, p.nextFundingTimeMs ≠ 0 ∧ frames [ev] = [p] ∧
      ∀ s : FundingSettlementDerived, machine.step s ev = s.onFundingRate p) := by
  rcases ev with _ | _ | ⟨ex, sym, p⟩ | _
  · exact Or.inl ⟨rfl, fun s => ⟨rfl, rfl⟩⟩
  · exact Or.inl ⟨rfl, fun s => ⟨rfl, rfl⟩⟩
  · by_cases hp : p.nextFundingTimeMs = 0
    · refine Or.inl ⟨by simp [frames, hp], fun s => ?_⟩
      show (s.onFundingRate p).1.lastNextFundingTime = _ ∧ (s.onFundingRate p).2 = _
      rw [onFundingRate_of_zero hp]
      exact ⟨rfl, rfl⟩
    · exact Or.inr ⟨p, hp, by simp [frames, hp], fun s => rfl⟩
  · exact Or.inl ⟨rfl, fun s => ⟨rfl, rfl⟩⟩

/-- From a state that remembers the boundary of frame `x`, a run reports the crossings
    of `x` and its own frames. -/
theorem map_emitted_eq_crossings (evs : List Event) (x : FundingRatePoint)
    (hx : x.nextFundingTimeMs ≠ 0) (hs : s.lastNextFundingTime = x.nextFundingTimeMs) :
    (machine.emitted s evs).map (·.settlementTime) = crossings (x :: frames evs) := by
  induction evs generalizing s x with
  | nil => rfl
  | cons ev evs ih =>
    rw [Mealy.emitted_cons, List.map_append, frames_cons]
    obtain ⟨hframe, hstep⟩ | ⟨p, hp, hframe, hstep⟩ := step_cases ev
    · rw [hframe, (hstep s).2]
      exact ih x hx ((hstep s).1.trans hs)
    · rw [hframe, hstep, onFundingRate_of_next hp (by rw [hs]; exact hx), ih p hp rfl,
        List.singleton_append, crossings, hs]
      split_ifs <;> rfl

/-- The reported settlement times are the crossed boundaries. -/
theorem settlementTimes_eq_crossings (evs : List Event) :
    (machine.emitted newForKey evs).map (·.settlementTime) = crossings (frames evs) := by
  suffices h : ∀ t : FundingSettlementDerived, t.lastNextFundingTime = 0 →
      (machine.emitted t evs).map (·.settlementTime) = crossings (frames evs) from h _ rfl
  induction evs with
  | nil => intro t _; rfl
  | cons ev evs ih =>
    intro t ht
    rw [Mealy.emitted_cons, List.map_append, frames_cons]
    obtain ⟨hframe, hstep⟩ | ⟨p, hp, hframe, hstep⟩ := step_cases ev
    · rw [hframe, (hstep t).2]
      exact ih _ ((hstep t).1.trans ht)
    · rw [hframe, hstep, onFundingRate_of_first hp ht]
      exact map_emitted_eq_crossings evs p hp rfl

/-! ## Runs that report every settlement once -/

theorem exists_frame_of_mem_crossings {fs : List FundingRatePoint} {t : ℤ}
    (h : t ∈ crossings fs) : ∃ z ∈ fs, z.nextFundingTimeMs = t := by
  induction fs with
  | nil => simp [crossings] at h
  | cons x fs ih =>
    cases fs with
    | nil => simp [crossings] at h
    | cons y rest =>
      rw [crossings] at h
      split_ifs at h
      · rcases List.mem_cons.mp h with rfl | h
        · exact ⟨x, by simp, rfl⟩
        · obtain ⟨z, hz, rfl⟩ := ih h
          exact ⟨z, List.mem_cons_of_mem x hz, rfl⟩
      · obtain ⟨z, hz, rfl⟩ := ih h
        exact ⟨z, List.mem_cons_of_mem x hz, rfl⟩

theorem pairwise_crossings {fs : List FundingRatePoint} (h : FramesAdvance fs) :
    (crossings fs).Pairwise (· < ·) := by
  induction fs with
  | nil => simp [crossings]
  | cons x fs ih =>
    cases fs with
    | nil => simp [crossings]
    | cons y rest =>
      rw [crossings]
      split_ifs with hc
      · refine List.pairwise_cons.mpr ⟨fun t ht => ?_, ih h.2⟩
        obtain ⟨z, hz, rfl⟩ := exists_frame_of_mem_crossings ht
        exact h.1 hc.1 hc.2 z hz
      · exact ih h.2

/-- A frame whose clock stands at the boundary of `z` and that announces another one. -/
def probe (z : FundingRatePoint) : FundingRatePoint :=
  { tsMs := z.nextFundingTimeMs, rate := 0,
    nextFundingTimeMs := if z.nextFundingTimeMs = -1 then 1 else z.nextFundingTimeMs + 1 }

theorem probe_ne (z : FundingRatePoint) :
    (probe z).nextFundingTimeMs ≠ z.nextFundingTimeMs ∧ (probe z).nextFundingTimeMs ≠ 0 := by
  unfold probe
  split_ifs <;> constructor <;> simp only <;> omega

theorem mem_crossings_probe (fs : List FundingRatePoint) (z : FundingRatePoint) :
    z.nextFundingTimeMs ∈ crossings (fs ++ [z, probe z]) := by
  induction fs with
  | nil => simpa [crossings, probe] using (probe_ne z).1
  | cons x fs ih =>
    obtain ⟨y, rest, hy⟩ : ∃ y rest, fs ++ [z, probe z] = y :: rest :=
      List.exists_cons_of_ne_nil (by simp)
    rw [List.cons_append, hy, crossings, ← hy]
    split_ifs
    · exact List.mem_cons_of_mem _ ih
    · exact ih

theorem framesAdvance_of_pairwise {fs : List FundingRatePoint}
    (h : ∀ pre z, pre ++ [z] <+: fs → (crossings (pre ++ [z, probe z])).Pairwise (· < ·)) :
    FramesAdvance fs := by
  induction fs with
  | nil => trivial
  | cons x fs ih =>
    cases fs with
    | nil => trivial
    | cons y rest =>
      refine ⟨fun hts hne z hz => ?_, ih fun pre z hpre => ?_⟩
      · obtain ⟨as, bs, hsplit⟩ := List.append_of_mem hz
        have hpre : (x :: as) ++ [z] <+: x :: y :: rest := by
          rw [hsplit]; exact ⟨bs, by simp⟩
        have hpw := h (x :: as) z hpre
        obtain ⟨tail, htail⟩ : ∃ tail, as ++ [z, probe z] = y :: tail := by
          cases as with
          | nil => exact ⟨[probe z], by simp at hsplit; simp [hsplit.1]⟩
          | cons a as => exact ⟨as ++ [z, probe z], by simp at hsplit; simp [hsplit.1]⟩
        rw [List.cons_append, htail, crossings, if_pos ⟨hts, hne⟩, ← htail] at hpw
        exact (List.pairwise_cons.mp hpw).1 _ (mem_crossings_probe as z)
      · have hpw := h (x :: pre) z (List.cons_prefix_cons.mpr ⟨rfl, hpre⟩)
        obtain ⟨y', tail, hy⟩ : ∃ y' tail, pre ++ [z, probe z] = y' :: tail :=
          List.exists_cons_of_ne_nil (by simp)
        rw [List.cons_append, hy, crossings, ← hy] at hpw
        split_ifs at hpw
        · exact (List.pairwise_cons.mp hpw).2
        · exact hpw

/-! ## The data of a report -/

/-- Every funding-rate frame of a run. -/
def ratePoints (evs : List Event) : List FundingRatePoint :=
  evs.filterMap fun ev =>
    match ev with
    | .fundingRate _ _ point => some point
    | _ => none

/-- Once a boundary is remembered, so is the rate of an earlier frame. -/
theorem lastRate_mem (evs : List Event)
    (h : (machine.final newForKey evs).lastNextFundingTime ≠ 0) :
    ∃ p ∈ ratePoints evs, p.rate = (machine.final newForKey evs).lastRate := by
  revert h
  refine machine.run_invariant (P := fun evs s _ => s.lastNextFundingTime ≠ 0 →
    ∃ p ∈ ratePoints evs, p.rate = s.lastRate) (by simp [newForKey]) ?_ evs
  intro evs s _ ev ih h
  have happend : ratePoints (evs ++ [ev]) = ratePoints evs ++ ratePoints [ev] :=
    List.filterMap_append
  rw [happend]
  have hkeep : s.lastNextFundingTime ≠ 0 →
      ∃ p ∈ ratePoints evs ++ ratePoints [ev], p.rate = s.lastRate := fun hs => by
    obtain ⟨p, hp, hr⟩ := ih hs
    exact ⟨p, List.mem_append_left _ hp, hr⟩
  rcases ev with _ | _ | ⟨_, _, q⟩ | _
  · exact hkeep h
  · exact hkeep h
  · exact ⟨q, by simp [ratePoints], lastRate_onFundingRate.symm⟩
  · exact hkeep h

/-- What a run must satisfy: the reported settlement times increase strictly, so none
    is reported twice; a report is not earlier than its settlement; and its rate is that
    of a frame received before the one that advanced the boundary. -/
structure ReportedOnce (evs : List Event) : Prop where
  increasing : ((machine.emitted newForKey evs).map (·.settlementTime)).Pairwise (· < ·)
  nodup : ((machine.emitted newForKey evs).map (·.settlementTime)).Nodup
  notBefore : ∀ o ∈ machine.emitted newForKey evs, o.settlementTime ≤ o.tsMs
  rateBefore : ∀ pre ev post o, evs = pre ++ ev :: post →
    (machine.step (machine.final newForKey pre) ev).2 = some o →
      ∃ p ∈ ratePoints pre, p.rate = o.settledRate

theorem settlementTime_le_tsMs (evs : List Event) :
    ∀ o ∈ machine.emitted newForKey evs, o.settlementTime ≤ o.tsMs := by
  refine machine.run_invariant (P := fun _ _ os => ∀ o ∈ os, o.settlementTime ≤ o.tsMs)
    (by simp) ?_ evs
  intro _ s os ev ih o ho
  rcases List.mem_append.mp ho with ho | ho
  · exact ih o ho
  · obtain ⟨-, hstep⟩ | ⟨p, -, -, hstep⟩ := step_cases ev
    · rw [(hstep s).2] at ho
      simp at ho
    · rw [hstep, Option.mem_toList] at ho
      obtain ⟨-, hle, rfl⟩ := onFundingRate_eq_some ho
      exact hle

theorem settledRate_of_step {pre : List Event} {ev : Event} {o : FundingSettlementPoint}
    (h : (machine.step (machine.final newForKey pre) ev).2 = some o) :
    ∃ p ∈ ratePoints pre, p.rate = o.settledRate := by
  obtain ⟨-, hstep⟩ | ⟨p, -, -, hstep⟩ := step_cases ev
  · rw [(hstep _).2] at h
    cases h
  · rw [hstep] at h
    obtain ⟨hne, -, rfl⟩ := onFundingRate_eq_some h
    exact lastRate_mem pre hne

theorem reportedOnce_of_pairwise {evs : List Event}
    (h : (crossings (frames evs)).Pairwise (· < ·)) : ReportedOnce evs where
  increasing := by rw [settlementTimes_eq_crossings]; exact h
  nodup := by
    rw [settlementTimes_eq_crossings]
    exact h.imp fun hlt => ne_of_lt hlt
  notBefore := settlementTime_le_tsMs evs
  rateBefore := by
    rintro pre ev post o - ho
    exact settledRate_of_step ho

/-- **Main theorem.** A run in which no frame announces a boundary at or before one
    that was already crossed reports every settlement once. Any other run passes through
    a state from which one more frame breaks that. -/
theorem settlements_reported_once (evs : List Event) :
    (FramesAdvance (frames evs) → ReportedOnce evs) ∧
      (¬ FramesAdvance (frames evs) → ∃ pre ev, pre <+: evs ∧ ¬ ReportedOnce (pre ++ [ev])) := by
  refine ⟨fun h => reportedOnce_of_pairwise (pairwise_crossings h), fun h => ?_⟩
  by_contra hall
  push Not at hall
  refine h (framesAdvance_of_pairwise fun fpre z hpre => ?_)
  obtain ⟨suffix, hsuffix⟩ := hpre
  obtain ⟨pre, post, rfl, hframes, -⟩ := List.filterMap_eq_append_iff.mp hsuffix.symm
  have hprobe : frames [.fundingRate .binance "" (probe z)] = [probe z] := by
    simp [frames, (probe_ne z).2]
  have honce := (hall pre (.fundingRate .binance "" (probe z)) (List.prefix_append _ _)).increasing
  rw [settlementTimes_eq_crossings, frames_append, hprobe] at honce
  have hpre : frames pre = fpre ++ [z] := hframes
  rw [hpre, List.append_assoc] at honce
  exact honce

/-- A late frame at clock `100` re-announces the boundary `100` that the frame before it
    crossed; the next frame reports `100` again. -/
theorem not_reportedOnce_of_late_frame :
    ¬ ReportedOnce
      [.fundingRate .binance "BTCUSDT" ⟨50, 1, 100⟩, .fundingRate .binance "BTCUSDT" ⟨100, 2, 200⟩,
       .fundingRate .binance "BTCUSDT" ⟨100, 1, 100⟩,
       .fundingRate .binance "BTCUSDT" ⟨101, 2, 200⟩] := by
  intro h
  have := h.increasing
  rw [settlementTimes_eq_crossings] at this
  revert this
  decide

end FundingSettlementDerived

end Digdigdig3.Derived
