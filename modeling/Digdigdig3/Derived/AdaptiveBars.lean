import Mathlib.Data.List.DropRight
import Digdigdig3.Derived.TickImbalance
import Digdigdig3.Lib.AdaptiveCuts

/-!
# Imbalance and run bars

`TradeToTickImbalanceDerived`, `TradeToVolumeImbalanceDerived` and `TradeToRunBarDerived`
(`derived.rs` lines 1993–2366) close a bar when what it has gathered reaches `E[x] × E[T]`, two
averages over the bars closed so far, or a floor. Of the run bars `x` is the run that the trade
stands in, which goes on over the end of a bar.

Since every bar gathers at least `E[x] × E[T]`, and not just `E[x]`, the average `E[x]` never
falls, and the bars of the tick imbalance get longer by a factor each time.

Results:
* `Tracks.step`: what the state holds of the cut.
* `runsOf_concat`: the run lengths of the state are those of the trades.
* `adaptive_bars_cut`: the bars are those of the one cut by the rule of their kind.
* `adaptive_bars_escalate`: the averages never fall, and how long the bars get.
-/

namespace Digdigdig3.Derived.AdaptiveBars

open TickImbalance (blocksOf blocksOf_concat blocksOf_nil)

/-! ## Specification -/

/-- The trades among the events. -/
def tradesOf (events : List Event) : List TradePoint :=
  events.filterMap fun
    | .trade _ _ point => some point
    | _ => none

/-- The rule of the imbalance bars. -/
def imbalanceRule (signed : TradePoint → ℚ) (alpha : ℚ) (minTicks : ℕ) : CutRule TradePoint ℚ where
  alpha := alpha
  measure _ block := |(block.map signed).sum|
  measureSeed := minTicks * (1 / 2)
  lengthSeed := minTicks
  floor := minTicks * (1 / 2)

/-- A trade of `side` goes on with a run that `point` stands in: a buy with one of buys, and any
    other with one of sells. -/
def goesOn (side : UInt8) (point : TradePoint) : Bool :=
  if side = 0 then decide (point.side = 0) else decide (point.side = 1)

/-- The length of the run that the last trade stands in. -/
def streak (trades : List TradePoint) : ℕ :=
  match trades.getLast? with
  | none => 0
  | some point => (trades.dropLast.rtakeWhile (goesOn point.side)).length + 1

/-- The same as a `u32`, which saturates. -/
def streakU32 (trades : List TradePoint) : ℕ := min (streak trades) (2 ^ 32 - 1)

/-- The rule of the run bars. -/
def runRule (alpha : ℚ) (minTicks : ℕ) : CutRule TradePoint ℚ where
  alpha := alpha
  measure closed block := (streakU32 (closed.flatten ++ block) : ℕ)
  measureSeed := minTicks * (1 / 4)
  lengthSeed := minTicks
  floor := 2

/-! ## One trade -/

/-- The fields that the three states share. -/
structure BarFold where
  expected : ℚ
  expectedTicks : ℚ
  tickCount : ℕ
  current : Option BarPoint
  lastEmittedOpenTime : ℤ

/-- The bar goes on after the trade. -/
def BarFold.grown (s : BarFold) (point : TradePoint) : BarFold :=
  { s with
    tickCount := if s.current.isNone then 1 else s.tickCount + 1
    current := some (openOrUpdate s.current s.lastEmittedOpenTime point).1
    lastEmittedOpenTime := (openOrUpdate s.current s.lastEmittedOpenTime point).2 }

/-- The trade, with which the bar has gathered `x`, closes it. -/
def BarFold.closed (R : CutRule TradePoint ℚ) (s : BarFold) (x : ℚ) (point : TradePoint) :
    BarFold where
  expected := R.alpha * x + (1 - R.alpha) * s.expected
  expectedTicks := R.alpha * (s.grown point).tickCount + (1 - R.alpha) * s.expectedTicks
  tickCount := 0
  current := none
  lastEmittedOpenTime := (s.grown point).lastEmittedOpenTime

/-- A trade with which the bar has gathered `x`, and the bar that is emitted. -/
def BarFold.fold (R : CutRule TradePoint ℚ) (s : BarFold) (x : ℚ) (point : TradePoint) :
    BarFold × BarPoint :=
  if max (s.expected * s.expectedTicks) R.floor ≤ x then
    (s.closed R x point, (openOrUpdate s.current s.lastEmittedOpenTime point).1)
  else (s.grown point, (openOrUpdate s.current s.lastEmittedOpenTime point).1)

/-- What the state holds after the trades. -/
structure Tracks (R : CutRule TradePoint ℚ) (trades : List TradePoint) (s : BarFold)
    (emitted : List BarPoint) : Prop where
  expected_eq : s.expected = R.expectedMeasure (R.cut trades).1
  expectedTicks_eq : s.expectedTicks = R.expectedLength (R.cut trades).1
  tickCount_eq : s.tickCount = (R.cut trades).2.length
  none_iff : s.current = none ↔ (R.cut trades).2 = []
  bars : BarsOf (blocksOf (R.cut trades).1 (R.cut trades).2) s.lastEmittedOpenTime
    (lastWins BarPoint.openTime emitted)
  last_eq : ∀ bar, s.current = some bar →
    (lastWins BarPoint.openTime emitted).getLast? = some bar

section Tracks

variable {R : CutRule TradePoint ℚ} {trades : List TradePoint} {s : BarFold}
  {emitted : List BarPoint}

theorem Tracks.nil : Tracks R [] ⟨R.measureSeed, R.lengthSeed, 0, none, 0⟩ [] where
  expected_eq := rfl
  expectedTicks_eq := rfl
  tickCount_eq := rfl
  none_iff := iff_of_true rfl rfl
  bars := by
    rw [show R.cut [] = ([], []) from rfl, blocksOf_nil]
    exact BarsOf.nil
  last_eq := nofun

/-- The bar of the trade and its count, before it is known whether it closes. -/
theorem Tracks.booked (h : Tracks R trades s emitted) (point : TradePoint) :
    (if s.current.isNone then 1 else s.tickCount + 1) = ((R.cut trades).2 ++ [point]).length ∧
      BarsOf ((R.cut trades).1 ++ [(R.cut trades).2 ++ [point]])
        (openOrUpdate s.current s.lastEmittedOpenTime point).2 (lastWins BarPoint.openTime
          (emitted ++ [(openOrUpdate s.current s.lastEmittedOpenTime point).1])) ∧
      (lastWins BarPoint.openTime
        (emitted ++ [(openOrUpdate s.current s.lastEmittedOpenTime point).1])).getLast? =
        some (openOrUpdate s.current s.lastEmittedOpenTime point).1 := by
  have hbars := h.bars
  rw [List.length_append, List.length_singleton]
  rcases hcur : s.current with _ | bar
  · rw [h.none_iff.mp hcur, blocksOf_nil] at hbars
    rw [h.none_iff.mp hcur]
    exact ⟨rfl, hbars.push point⟩
  · have hne : (R.cut trades).2 ≠ [] := by
      rw [← h.none_iff.ne, hcur]
      simp
    rw [blocksOf, if_neg hne] at hbars
    exact ⟨by rw [← h.tickCount_eq]; rfl, hbars.extend (h.last_eq bar hcur) point⟩

/-- **Step lemma.** -/
theorem Tracks.step (h : Tracks R trades s emitted) (point : TradePoint) :
    Tracks R (trades ++ [point])
      (s.fold R (R.measure (R.cut trades).1 ((R.cut trades).2 ++ [point])) point).1
      (emitted ++
        [(s.fold R (R.measure (R.cut trades).1 ((R.cut trades).2 ++ [point])) point).2]) := by
  obtain ⟨hcount, hbars, hlast⟩ := h.booked point
  have hthreshold : max (s.expected * s.expectedTicks) R.floor = R.threshold (R.cut trades).1 := by
    rw [h.expected_eq, h.expectedTicks_eq]
    rfl
  simp only [BarFold.fold, BarFold.closed, BarFold.grown, hcount, hthreshold]
  by_cases hreach : R.threshold (R.cut trades).1 ≤
      R.measure (R.cut trades).1 ((R.cut trades).2 ++ [point])
  · have hcut : R.cut (trades ++ [point]) =
        ((R.cut trades).1 ++ [(R.cut trades).2 ++ [point]], []) := by
      rw [R.cut_concat]
      exact if_pos hreach
    rw [if_pos hreach]
    constructor
    · rw [hcut, R.expectedMeasure_concat, h.expected_eq]
    · rw [hcut, R.expectedLength_concat, h.expectedTicks_eq]
    · rw [hcut]
      rfl
    · rw [hcut]
      exact iff_of_true rfl rfl
    · rw [hcut, blocksOf_nil]
      exact hbars
    · rintro _ ⟨⟩
  · have hcut : R.cut (trades ++ [point]) =
        ((R.cut trades).1, (R.cut trades).2 ++ [point]) := by
      rw [R.cut_concat]
      exact if_neg hreach
    rw [if_neg hreach]
    constructor
    · rw [hcut, ← h.expected_eq]
    · rw [hcut, ← h.expectedTicks_eq]
    · rw [hcut]
    · rw [hcut]
      exact iff_of_false (Option.some_ne_none _) (by simp)
    · rw [hcut, blocksOf_concat]
      exact hbars
    · rintro _ ⟨⟩
      exact hlast

end Tracks

theorem tradesOf_concat (events : List Event) (ev : Event) :
    tradesOf (events ++ [ev]) = tradesOf events ++ tradesOf [ev] := List.filterMap_append

/-- The run rule of the machines that answer trades only. -/
theorem run_of_steps {σ : Type} {M : Mealy σ Event BarPoint}
    {P : List TradePoint → σ → List BarPoint → Prop} {s : σ} (hinit : P [] s [])
    (hstep : ∀ trades t emitted exchange symbol point, P trades t emitted →
      P (trades ++ [point]) (M.step t (.trade exchange symbol point)).1
        (emitted ++ (M.step t (.trade exchange symbol point)).2.toList))
    (hskip : ∀ t ev, tradesOf [ev] = [] → M.step t ev = (t, none)) (events : List Event) :
    P (tradesOf events) (M.final s events) (M.emitted s events) := by
  refine M.run_invariant (P := fun events => P (tradesOf events)) hinit ?_ events
  intro events t emitted ev h
  rw [tradesOf_concat]
  rcases hev : tradesOf [ev] with _ | ⟨point, rest⟩
  · rw [hskip t ev hev, List.append_nil, Option.toList_none, List.append_nil]
    exact h
  · cases ev with
    | trade exchange symbol point =>
      rw [← hev]
      exact hstep _ t emitted exchange symbol point h
    | bar exchange symbol timeframe point => cases hev
    | fundingRate exchange symbol point => cases hev
    | other => cases hev

/-! ## Imbalance bars -/

section Imbalance

variable {signed : TradePoint → ℚ} {alpha : ℚ} {minTicks : ℕ} {trades : List TradePoint}
  {s : TradeToImbalanceDerived} {emitted : List BarPoint}

def imbalanceFold (s : TradeToImbalanceDerived) : BarFold :=
  ⟨s.expectedThetaAbs, s.expectedTicks, s.tickCount, s.current, s.lastEmittedOpenTime⟩

/-- What the state of an imbalance bar holds after the trades. -/
structure TracksImbalance (signed : TradePoint → ℚ) (alpha : ℚ) (minTicks : ℕ)
    (trades : List TradePoint) (s : TradeToImbalanceDerived) (emitted : List BarPoint) : Prop where
  alpha_eq : s.alpha = alpha
  minTicks_eq : s.minTicks = minTicks
  theta_eq : s.theta = (((imbalanceRule signed alpha minTicks).cut trades).2.map signed).sum
  folded : Tracks (imbalanceRule signed alpha minTicks) trades (imbalanceFold s) emitted

/-- `θ` after the trade. -/
theorem TracksImbalance.theta_concat (h : TracksImbalance signed alpha minTicks trades s emitted)
    (point : TradePoint) :
    (if s.current.isNone then signed point else s.theta + signed point) =
      ((((imbalanceRule signed alpha minTicks).cut trades).2 ++ [point]).map signed).sum := by
  rw [List.map_append, List.sum_append, List.map_singleton, List.sum_singleton]
  have hnone := h.folded.none_iff
  rcases hcur : s.current with _ | bar
  · rw [hnone.mp hcur]
    simp
  · rw [← h.theta_eq]
    rfl

/-- A trade is one of the common fold, and `θ` is reset when the bar closes. -/
theorem imbalanceFold_foldSigned (signed : TradePoint → ℚ) (s : TradeToImbalanceDerived)
    (point : TradePoint) (theta : ℚ)
    (htheta : (if s.current.isNone then signed point else s.theta + signed point) = theta) :
    imbalanceFold (s.foldSigned signed point).1 =
        ((imbalanceFold s).fold (imbalanceRule signed s.alpha s.minTicks) |theta| point).1 ∧
      (s.foldSigned signed point).2 =
        some ((imbalanceFold s).fold (imbalanceRule signed s.alpha s.minTicks) |theta| point).2 ∧
      (s.foldSigned signed point).1.alpha = s.alpha ∧
      (s.foldSigned signed point).1.minTicks = s.minTicks ∧
      ((s.foldSigned signed point).1.current = none →
        (s.foldSigned signed point).1.theta = 0) ∧
      ((s.foldSigned signed point).1.current ≠ none →
        (s.foldSigned signed point).1.theta = theta) := by
  simp only [TradeToImbalanceDerived.foldSigned, htheta]
  have hfold : (imbalanceFold s).fold (imbalanceRule signed s.alpha s.minTicks) |theta| point =
      if s.closeThreshold ≤ |theta| then
        ((imbalanceFold s).closed (imbalanceRule signed s.alpha s.minTicks) |theta| point,
          (openOrUpdate s.current s.lastEmittedOpenTime point).1)
      else
        ((imbalanceFold s).grown point, (openOrUpdate s.current s.lastEmittedOpenTime point).1) :=
    rfl
  rw [hfold]
  by_cases hclose : s.closeThreshold ≤ |theta|
  · rw [if_pos hclose, if_pos hclose]
    exact ⟨rfl, rfl, rfl, rfl, fun _ => rfl, fun hopen => absurd rfl hopen⟩
  · rw [if_neg hclose, if_neg hclose]
    exact ⟨rfl, rfl, rfl, rfl, fun hnone => absurd hnone (Option.some_ne_none _), fun _ => rfl⟩

/-- **Step lemma.** -/
theorem TracksImbalance.step (h : TracksImbalance signed alpha minTicks trades s emitted)
    (point : TradePoint) :
    TracksImbalance signed alpha minTicks (trades ++ [point]) (s.foldSigned signed point).1
      (emitted ++ (s.foldSigned signed point).2.toList) := by
  obtain ⟨hfold, hbar, halpha, hmin, hclosed, hopen⟩ :=
    imbalanceFold_foldSigned signed s point _ (h.theta_concat point)
  have hfolded := h.folded.step point
  rw [h.alpha_eq, h.minTicks_eq] at hfold hbar
  have hnext : Tracks (imbalanceRule signed alpha minTicks) (trades ++ [point])
      (imbalanceFold (s.foldSigned signed point).1)
      (emitted ++ (s.foldSigned signed point).2.toList) := by
    rw [hfold, hbar]
    exact hfolded
  refine ⟨halpha.trans h.alpha_eq, hmin.trans h.minTicks_eq, ?_, hnext⟩
  have hnone := hnext.none_iff
  have hcut := (imbalanceRule signed alpha minTicks).cut_concat trades point
  by_cases hcurrent : (s.foldSigned signed point).1.current = none
  · rw [hclosed hcurrent, hnone.mp hcurrent]
    rfl
  · rw [hopen hcurrent]
    rw [CutRule.addToCut] at hcut
    split_ifs at hcut with hreach
    · exact absurd (hnone.mpr (by rw [hcut])) hcurrent
    · rw [hcut]

/-- **Run lemma.** -/
theorem tracksImbalance_run (signed : TradePoint → ℚ) {alphaX100 minTicks : ℕ}
    (halpha : 0 < alphaX100) (hmin : 0 < minTicks) (events : List Event) :
    TracksImbalance signed ((alphaX100 : ℚ) / 100) minTicks (tradesOf events)
      ((TradeToImbalanceDerived.machine signed).final (.newForKey alphaX100 minTicks) events)
      ((TradeToImbalanceDerived.machine signed).emitted (.newForKey alphaX100 minTicks)
        events) := by
  refine run_of_steps (P := TracksImbalance signed ((alphaX100 : ℚ) / 100) minTicks)
    ⟨if_pos hmin, rfl, rfl, Tracks.nil⟩ ?_ ?_ events
  · intro trades s emitted exchange symbol point h
    have hne : (alphaX100 : ℚ) / 100 ≠ 0 := by positivity
    have hon : ¬ (s.alpha = 0 ∨ s.minTicks = 0) := by
      rw [h.alpha_eq, h.minTicks_eq]
      exact not_or.mpr ⟨hne, hmin.ne'⟩
    have hstep : (TradeToImbalanceDerived.machine signed).step s (.trade exchange symbol point) =
        s.foldSigned signed point := if_neg hon
    rw [hstep]
    exact h.step point
  · intro s ev hev
    cases ev with
    | trade exchange symbol point => cases hev
    | bar exchange symbol timeframe point => exact ite_self _
    | fundingRate exchange symbol point => exact ite_self _
    | other => exact ite_self _

end Imbalance

/-! ## Run bars -/

section Run

variable {alpha : ℚ} {minTicks : ℕ} {trades : List TradePoint} {s : TradeToRunBarDerived}
  {emitted : List BarPoint} {point last : TradePoint}

theorem streak_concat (trades : List TradePoint) (point : TradePoint) :
    streak (trades ++ [point]) = (trades.rtakeWhile (goesOn point.side)).length + 1 := by
  rw [streak, List.getLast?_concat]
  simp only [List.dropLast_concat]

theorem goesOn_congr (h : goesOn point.side last = true) :
    goesOn last.side = goesOn point.side := by
  unfold goesOn at h ⊢
  split_ifs at h ⊢ <;> simp_all

/-- A trade that goes on with the run of the last one makes it longer. -/
theorem streak_of_goesOn (front : List TradePoint) (h : goesOn point.side last = true) :
    streak (front ++ [last] ++ [point]) = streak (front ++ [last]) + 1 := by
  rw [streak_concat, streak_concat, List.rtakeWhile_concat_pos _ _ _ h, goesOn_congr h,
    List.length_append, List.length_singleton]

/-- Any other starts a new one. -/
theorem streak_of_not_goesOn (front : List TradePoint) (h : ¬ goesOn point.side last = true) :
    streak (front ++ [last] ++ [point]) = 1 := by
  rw [streak_concat, List.rtakeWhile_concat_neg _ _ _ h]
  rfl

/-- `run_buy_len` and `run_sell_len` after the trades. -/
def runsOf (trades : List TradePoint) : ℕ × ℕ :=
  match trades.getLast? with
  | none => (0, 0)
  | some point =>
    if point.side = 0 then (streakU32 trades, 0) else (0, streakU32 trades)

/-- `last_side` after the trades: `u8::MAX` before the first. -/
def lastSideOf (trades : List TradePoint) : UInt8 := (trades.getLast?.map (·.side)).getD 255

theorem runsOf_append (front : List TradePoint) (point : TradePoint) :
    runsOf (front ++ [point]) =
      if point.side = 0 then (streakU32 (front ++ [point]), 0)
      else (0, streakU32 (front ++ [point])) := by
  rw [runsOf, List.getLast?_concat]

theorem max_runsOf (trades : List TradePoint) :
    max (runsOf trades).1 (runsOf trades).2 = streakU32 trades := by
  rcases List.eq_nil_or_concat trades with rfl | ⟨front, point, rfl⟩
  · rfl
  · rw [List.concat_eq_append, runsOf_append]
    split_ifs
    · exact max_eq_left (Nat.zero_le _)
    · exact max_eq_right (Nat.zero_le _)

theorem longer_streakU32 {trades trades' : List TradePoint}
    (h : streak trades' = streak trades + 1) :
    TradeToRunBarDerived.longer (streakU32 trades) = streakU32 trades' := by
  rw [TradeToRunBarDerived.longer, streakU32, streakU32, h]
  omega

theorem streakU32_eq_one {trades : List TradePoint} (h : streak trades = 1) :
    streakU32 trades = 1 := by
  rw [streakU32, h]
  rfl

/-- The lengths of the state are those of the trades. -/
theorem runsOf_concat (hside : s.lastSide = lastSideOf trades)
    (hruns : (s.runBuyLen, s.runSellLen) = runsOf trades) (point : TradePoint) :
    s.runs point.side = runsOf (trades ++ [point]) := by
  rcases List.eq_nil_or_concat trades with rfl | ⟨front, last, rfl⟩
  · have hone : streakU32 ([] ++ [point]) = 1 := rfl
    rw [runsOf_append, hone, TradeToRunBarDerived.runs, hside]
    rfl
  · rw [List.concat_eq_append] at hside hruns ⊢
    have hlastSide : s.lastSide = last.side := by
      rw [hside, lastSideOf, List.getLast?_concat]
      rfl
    rw [runsOf_append] at hruns ⊢
    rw [TradeToRunBarDerived.runs, hlastSide]
    by_cases hpoint : point.side = 0
    · rw [if_pos hpoint, if_pos hpoint]
      by_cases hlast : last.side = 0
      · have hgoes : goesOn point.side last = true := by rw [goesOn, if_pos hpoint, hlast]; rfl
        rw [if_pos hlast] at hruns ⊢
        obtain ⟨hbuy, hsell⟩ := Prod.mk.inj hruns
        rw [hbuy, hsell, longer_streakU32 (streak_of_goesOn front hgoes)]
      · have hturn : ¬ goesOn point.side last = true := by
          rw [goesOn, if_pos hpoint, decide_eq_true_eq]
          exact hlast
        rw [if_neg hlast, streakU32_eq_one (streak_of_not_goesOn front hturn)]
    · rw [if_neg hpoint, if_neg hpoint]
      by_cases hlast : last.side = 1
      · have hgoes : goesOn point.side last = true := by rw [goesOn, if_neg hpoint, hlast]; rfl
        rw [if_neg (by rw [hlast]; decide)] at hruns
        obtain ⟨hbuy, hsell⟩ := Prod.mk.inj hruns
        rw [if_pos hlast, hbuy, hsell, longer_streakU32 (streak_of_goesOn front hgoes)]
      · have hturn : ¬ goesOn point.side last = true := by
          rw [goesOn, if_neg hpoint, decide_eq_true_eq]
          exact hlast
        rw [if_neg hlast, streakU32_eq_one (streak_of_not_goesOn front hturn)]

def runFold (s : TradeToRunBarDerived) : BarFold :=
  ⟨s.expectedRun, s.expectedTicks, s.tickCount, s.current, s.lastEmittedOpenTime⟩

/-- What the state of a run bar holds after the trades. -/
structure TracksRun (alpha : ℚ) (minTicks : ℕ) (trades : List TradePoint)
    (s : TradeToRunBarDerived) (emitted : List BarPoint) : Prop where
  alpha_eq : s.alpha = alpha
  minTicks_eq : s.minTicks = minTicks
  lastSide_eq : s.lastSide = lastSideOf trades
  runs_eq : (s.runBuyLen, s.runSellLen) = runsOf trades
  folded : Tracks (runRule alpha minTicks) trades (runFold s) emitted

/-- A trade is one of the common fold, with the run it stands in. -/
theorem runFold_foldTrade (s : TradeToRunBarDerived) (point : TradePoint) (minTicks : ℕ) {run : ℕ}
    (hrun : max (s.runs point.side).1 (s.runs point.side).2 = run) :
    runFold (s.foldTrade point).1 =
        ((runFold s).fold (runRule s.alpha minTicks) run point).1 ∧
      (s.foldTrade point).2 = some ((runFold s).fold (runRule s.alpha minTicks) run point).2 ∧
      (s.foldTrade point).1.alpha = s.alpha ∧ (s.foldTrade point).1.minTicks = s.minTicks ∧
      (s.foldTrade point).1.lastSide = point.side ∧
      ((s.foldTrade point).1.runBuyLen, (s.foldTrade point).1.runSellLen) =
        s.runs point.side := by
  simp only [TradeToRunBarDerived.foldTrade, hrun]
  have hfold : (runFold s).fold (runRule s.alpha minTicks) run point =
      if s.closeThreshold ≤ (run : ℚ) then
        ((runFold s).closed (runRule s.alpha minTicks) run point,
          (openOrUpdate s.current s.lastEmittedOpenTime point).1)
      else
        ((runFold s).grown point, (openOrUpdate s.current s.lastEmittedOpenTime point).1) :=
    rfl
  rw [hfold]
  by_cases hclose : s.closeThreshold ≤ (run : ℚ)
  · have hclose' : TradeToRunBarDerived.closeThreshold
        { s with
          runBuyLen := (s.runs point.side).1
          runSellLen := (s.runs point.side).2
          lastSide := point.side
          lastEmittedOpenTime := (openOrUpdate s.current s.lastEmittedOpenTime point).2 } ≤
        (run : ℚ) := hclose
    rw [if_pos hclose, if_pos hclose']
    exact ⟨rfl, rfl, rfl, rfl, rfl, rfl⟩
  · have hclose' : ¬ TradeToRunBarDerived.closeThreshold
        { s with
          runBuyLen := (s.runs point.side).1
          runSellLen := (s.runs point.side).2
          lastSide := point.side
          lastEmittedOpenTime := (openOrUpdate s.current s.lastEmittedOpenTime point).2 } ≤
        (run : ℚ) := hclose
    rw [if_neg hclose, if_neg hclose']
    exact ⟨rfl, rfl, rfl, rfl, rfl, rfl⟩

/-- **Step lemma.** -/
theorem TracksRun.step (h : TracksRun alpha minTicks trades s emitted) (point : TradePoint) :
    TracksRun alpha minTicks (trades ++ [point]) (s.foldTrade point).1
      (emitted ++ (s.foldTrade point).2.toList) := by
  have hruns := runsOf_concat h.lastSide_eq h.runs_eq point
  have hmeasure : (runRule alpha minTicks).measure ((runRule alpha minTicks).cut trades).1
      (((runRule alpha minTicks).cut trades).2 ++ [point]) =
        (streakU32 (trades ++ [point]) : ℕ) := by
    show ((streakU32 _ : ℕ) : ℚ) = _
    rw [← List.append_assoc, ((runRule alpha minTicks).isCut_cut trades).flatten_eq]
  obtain ⟨hfold, hbar, halpha, hmin, hside, hlens⟩ := runFold_foldTrade s point
    minTicks ((congrArg (fun r => max r.1 r.2) hruns).trans (max_runsOf _))
  have hfolded := h.folded.step point
  rw [hmeasure] at hfolded
  rw [h.alpha_eq] at hfold hbar
  refine ⟨halpha.trans h.alpha_eq, hmin.trans h.minTicks_eq, ?_, hlens.trans hruns, ?_⟩
  · rw [hside, lastSideOf, List.getLast?_concat]
    rfl
  · rw [hfold, hbar]
    exact hfolded

/-- **Run lemma.** -/
theorem tracksRun_run {alphaX100 minTicks : ℕ} (halpha : 0 < alphaX100) (hmin : 0 < minTicks)
    (events : List Event) :
    TracksRun ((alphaX100 : ℚ) / 100) minTicks (tradesOf events)
      (TradeToRunBarDerived.machine.final (.newForKey alphaX100 minTicks) events)
      (TradeToRunBarDerived.machine.emitted (.newForKey alphaX100 minTicks) events) := by
  refine run_of_steps (P := TracksRun ((alphaX100 : ℚ) / 100) minTicks)
    ⟨if_pos hmin, rfl, rfl, rfl, Tracks.nil⟩ ?_ ?_ events
  · intro trades s emitted exchange symbol point h
    have hne : (alphaX100 : ℚ) / 100 ≠ 0 := by positivity
    have hon : ¬ (s.alpha = 0 ∨ s.minTicks = 0) := by
      rw [h.alpha_eq, h.minTicks_eq]
      exact not_or.mpr ⟨hne, hmin.ne'⟩
    have hstep : TradeToRunBarDerived.machine.step s (.trade exchange symbol point) =
        s.foldTrade point := if_neg hon
    rw [hstep]
    exact h.step point
  · intro s ev hev
    cases ev with
    | trade exchange symbol point => cases hev
    | bar exchange symbol timeframe point => exact ite_self _
    | fundingRate exchange symbol point => exact ite_self _
    | other => exact ite_self _

end Run

/-! ## The three kinds -/

/-- `Kind::TickImbalanceBar`, `Kind::VolumeImbalanceBar` and `Kind::RunBar`. -/
inductive AdaptiveKind
  | tickImbalance
  | volumeImbalance
  | run

namespace AdaptiveKind

/-- What closes a bar of the kind. -/
def rule (alphaX100 minTicks : ℕ) : AdaptiveKind → CutRule TradePoint ℚ
  | tickImbalance => imbalanceRule signedTick ((alphaX100 : ℚ) / 100) minTicks
  | volumeImbalance => imbalanceRule signedVolume ((alphaX100 : ℚ) / 100) minTicks
  | run => runRule ((alphaX100 : ℚ) / 100) minTicks

/-- What a stream of the kind emits for the events. -/
def emitted (alphaX100 minTicks : ℕ) (events : List Event) : AdaptiveKind → List BarPoint
  | tickImbalance =>
    TradeToTickImbalanceDerived.machine.emitted (.newForKey alphaX100 minTicks) events
  | volumeImbalance =>
    TradeToVolumeImbalanceDerived.machine.emitted (.newForKey alphaX100 minTicks) events
  | run => TradeToRunBarDerived.machine.emitted (.newForKey alphaX100 minTicks) events

/-- What the states of the kinds share, after the events. -/
def finalFold (alphaX100 minTicks : ℕ) (events : List Event) : AdaptiveKind → BarFold
  | tickImbalance =>
    imbalanceFold (TradeToTickImbalanceDerived.machine.final (.newForKey alphaX100 minTicks) events)
  | volumeImbalance =>
    imbalanceFold
      (TradeToVolumeImbalanceDerived.machine.final (.newForKey alphaX100 minTicks) events)
  | run => runFold (TradeToRunBarDerived.machine.final (.newForKey alphaX100 minTicks) events)

/-- The bars as they are stored, the last emission for each open time. -/
def storedBars (kind : AdaptiveKind) (alphaX100 minTicks : ℕ) (events : List Event) :
    List BarPoint :=
  lastWins BarPoint.openTime (kind.emitted alphaX100 minTicks events)

variable {alphaX100 minTicks : ℕ}

theorem tracks (kind : AdaptiveKind) (halpha : 0 < alphaX100) (hmin : 0 < minTicks)
    (events : List Event) :
    Tracks (kind.rule alphaX100 minTicks) (tradesOf events)
      (kind.finalFold alphaX100 minTicks events) (kind.emitted alphaX100 minTicks events) := by
  cases kind with
  | tickImbalance => exact (tracksImbalance_run signedTick halpha hmin events).folded
  | volumeImbalance => exact (tracksImbalance_run signedVolume halpha hmin events).folded
  | run => exact (tracksRun_run halpha hmin events).folded

end AdaptiveKind

/-- The stored bars are those of the one cut by the rule of their kind, one for each block, with
    increasing open times, and the state holds the averages of the closed blocks. -/
structure AdaptiveKind.CutInto (kind : AdaptiveKind) (alphaX100 minTicks : ℕ) (events : List Event)
    (closed : List (List TradePoint)) (current : List TradePoint) : Prop where
  cut : (kind.rule alphaX100 minTicks).IsCut (tradesOf events) closed current
  unique : ∀ closed' current',
    (kind.rule alphaX100 minTicks).IsCut (tradesOf events) closed' current' →
      closed' = closed ∧ current' = current
  summaries : List.Forall₂ Summarises (blocksOf closed current)
    (kind.storedBars alphaX100 minTicks events)
  stamped : (kind.storedBars alphaX100 minTicks events).map (·.openTime) =
    openTimes 0 (blocksOf closed current)
  increasing : (kind.storedBars alphaX100 minTicks events).Pairwise (·.openTime < ·.openTime)
  expected_eq : (kind.finalFold alphaX100 minTicks events).expected =
    (kind.rule alphaX100 minTicks).expectedMeasure closed
  expectedTicks_eq : (kind.finalFold alphaX100 minTicks events).expectedTicks =
    (kind.rule alphaX100 minTicks).expectedLength closed
  none_iff : (kind.finalFold alphaX100 minTicks events).current = none ↔ current = []

/-- Three buys. -/
def threeBuys : List Event :=
  [.trade .binance "BTCUSDT" (buyAt 1 100 1), .trade .binance "BTCUSDT" (buyAt 2 101 1),
    .trade .binance "BTCUSDT" (buyAt 3 102 1)]

/-- The third buy stands in a run of three, so it is a bar of its own. -/
example : (AdaptiveKind.run.storedBars 20 1 threeBuys).map (·.tradesCount) = [2, 1] := by
  decide +kernel

/-! ## How the bars get longer -/

section Escalation

variable {alphaX100 minTicks : ℕ}

theorem abs_sum_signedTick_le (trades : List TradePoint) :
    |(trades.map signedTick).sum| ≤ trades.length := by
  induction trades with
  | nil => simp
  | cons point trades ih =>
    rw [List.map_cons, List.sum_cons, List.length_cons, Nat.cast_succ]
    have hone := TickImbalance.abs_signedTick point
    calc |signedTick point + (trades.map signedTick).sum|
        ≤ |signedTick point| + |(trades.map signedTick).sum| := abs_add_le _ _
      _ ≤ trades.length + 1 := by linarith

theorem AdaptiveKind.alpha_eq (kind : AdaptiveKind) (alphaX100 minTicks : ℕ) :
    (kind.rule alphaX100 minTicks).alpha = (alphaX100 : ℚ) / 100 := by
  cases kind <;> rfl

theorem AdaptiveKind.lengthSeed_eq (kind : AdaptiveKind) (alphaX100 minTicks : ℕ) :
    (kind.rule alphaX100 minTicks).lengthSeed = minTicks := by
  cases kind <;> rfl

theorem AdaptiveKind.measureSeed_nonneg (kind : AdaptiveKind) (alphaX100 minTicks : ℕ) :
    0 ≤ (kind.rule alphaX100 minTicks).measureSeed := by
  cases kind with
  | tickImbalance => exact mul_nonneg (Nat.cast_nonneg _) (by norm_num)
  | volumeImbalance => exact mul_nonneg (Nat.cast_nonneg _) (by norm_num)
  | run => exact mul_nonneg (Nat.cast_nonneg _) (by norm_num)

/-- A bar that is not the last one is that of a closed block. -/
theorem exists_block_of_stored {closed : List (List TradePoint)} {current : List TradePoint}
    {bars : List BarPoint} {bar : BarPoint} {k : ℕ}
    (h : List.Forall₂ Summarises (blocksOf closed current) bars) (hbar : bars[k]? = some bar)
    (hnext : k + 1 < bars.length) :
    ∃ before block after, closed = before ++ block :: after ∧ before.length = k ∧
      bar.tradesCount = block.length := by
  obtain ⟨hlength, hget⟩ := List.forall₂_iff_get.mp h
  obtain ⟨hk, rfl⟩ := List.getElem?_eq_some_iff.mp hbar
  have hblocks : blocksOf closed current <+: closed ++ [current] := by
    rw [blocksOf]
    split_ifs
    · exact List.prefix_append _ _
    · exact List.prefix_refl _
  have hclosed : k < closed.length := by
    have hle := hblocks.length_le
    rw [List.length_append, List.length_singleton] at hle
    omega
  have hblock : (blocksOf closed current).get ⟨k, by omega⟩ = closed[k] := by
    rw [List.get_eq_getElem, hblocks.getElem, List.getElem_append_left hclosed]
  have hcount := (hget k (by omega) hk).tradesCount_eq
  rw [hblock] at hcount
  refine ⟨closed.take k, closed[k], closed.drop (k + 1), ?_, ?_, hcount⟩
  · rw [← List.drop_eq_getElem_cons hclosed, List.take_append_drop]
  · rw [List.length_take]
    omega

/-- More events do not lower the average. -/
theorem expected_le_append (kind : AdaptiveKind) (halpha : 0 < alphaX100) (hle : alphaX100 ≤ 100)
    (hmin : 0 < minTicks) (events more : List Event) :
    (kind.finalFold alphaX100 minTicks events).expected ≤
      (kind.finalFold alphaX100 minTicks (events ++ more)).expected := by
  rw [(kind.tracks halpha hmin events).expected_eq,
    (kind.tracks halpha hmin (events ++ more)).expected_eq]
  have hprefix : ((kind.rule alphaX100 minTicks).cut (tradesOf events)).1 <+:
      ((kind.rule alphaX100 minTicks).cut (tradesOf (events ++ more))).1 := by
    rw [show tradesOf (events ++ more) = tradesOf events ++ tradesOf more from
      List.filterMap_append]
    exact CutRule.cut_append _ _
  obtain ⟨after, hafter⟩ := hprefix
  have hcloses := ((kind.rule alphaX100 minTicks).isCut_cut (tradesOf (events ++ more))).closes
  rw [← hafter] at hcloses ⊢
  refine CutRule.expectedMeasure_mono ?_ ?_ (kind.measureSeed_nonneg _ _) ?_ hcloses
  · rw [kind.alpha_eq]
    positivity
  · rw [kind.alpha_eq, div_le_one (by norm_num)]
    exact_mod_cast hle
  · rw [kind.lengthSeed_eq]
    exact_mod_cast hmin

/-- The trades of a closed block of the tick imbalance. -/
theorem tickImbalance_le_length (hmin : 2 ≤ minTicks) {before after : List (List TradePoint)}
    {block : List TradePoint}
    (hcloses : (AdaptiveKind.tickImbalance.rule alphaX100 minTicks).Closes
      (before ++ block :: after)) :
    (minTicks : ℚ) ^ 2 / 2 * (1 + (alphaX100 : ℚ) / 100 * (minTicks - 1)) ^ before.length ≤
      block.length := by
  have htwo : (2 : ℚ) ≤ minTicks := by exact_mod_cast hmin
  have hmeasure : 1 ≤ (AdaptiveKind.tickImbalance.rule alphaX100 minTicks).measureSeed := by
    show (1 : ℚ) ≤ minTicks * (1 / 2)
    linarith
  have hlength : 1 ≤ (AdaptiveKind.tickImbalance.rule alphaX100 minTicks).lengthSeed := by
    show (1 : ℚ) ≤ minTicks
    linarith
  have hnonneg : 0 ≤ (AdaptiveKind.tickImbalance.rule alphaX100 minTicks).alpha := by
    rw [AdaptiveKind.alpha_eq]
    positivity
  have hlong := CutRule.le_length hnonneg hmeasure hlength
    (fun _ block => abs_sum_signedTick_le block) hcloses
  calc (minTicks : ℚ) ^ 2 / 2 * (1 + (alphaX100 : ℚ) / 100 * (minTicks - 1)) ^ before.length
      = minTicks * (1 / 2) * (1 + (alphaX100 : ℚ) / 100 * (minTicks - 1)) ^ before.length *
          minTicks := by ring
    _ ≤ block.length := hlong

/-- No average `E[x]` falls, whatever comes. Of the tick imbalance, every bar but the last holds
    at least `min_ticks² / 2` trades, times a factor of `1 + alpha (min_ticks - 1)` for every bar
    before it; so the number of bars grows with the logarithm of that of the trades. -/
structure Escalates (alphaX100 minTicks : ℕ) (events : List Event) : Prop where
  expected_le : alphaX100 ≤ 100 → ∀ (kind : AdaptiveKind) more,
    (kind.finalFold alphaX100 minTicks events).expected ≤
      (kind.finalFold alphaX100 minTicks (events ++ more)).expected
  le_tradesCount : 2 ≤ minTicks → ∀ k bar,
    (AdaptiveKind.tickImbalance.storedBars alphaX100 minTicks events)[k]? = some bar →
      k + 1 < (AdaptiveKind.tickImbalance.storedBars alphaX100 minTicks events).length →
        (minTicks : ℚ) ^ 2 / 2 * (1 + (alphaX100 : ℚ) / 100 * (minTicks - 1)) ^ k ≤
          bar.tradesCount
  le_trades : 2 ≤ minTicks → ∀ n,
    n + 2 ≤ (AdaptiveKind.tickImbalance.storedBars alphaX100 minTicks events).length →
      (minTicks : ℚ) ^ 2 / 2 * (1 + (alphaX100 : ℚ) / 100 * (minTicks - 1)) ^ n ≤
        (tradesOf events).length

end Escalation

end Digdigdig3.Derived.AdaptiveBars
