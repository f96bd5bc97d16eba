import Digdigdig3.Derived.Stamps
import Digdigdig3.Series.Key
import Digdigdig3.Station.RewarmSplice

/-!
# A deeper history in front of any derived ring

`rewarm_derived` and the functions for its kinds
(`crates/digdigdig3-station/src/station.rs` lines 723–1229). A window of klines or trades is
folded in a new state machine, and the result is put in front of the ring of the series, which may
have gone on in the meantime. The kinds that `rewarm_derived` refuses are left out.

The columns of a Point-and-Figure fold have ids that start again from the placeholder of
`preset_grid`, which is emitted like any other column; the ids of the ring start from one.

* `clocked_prepends`: the kinds whose fold stamps by a clock.
* `prependsPnf_iff`, `prependsTpo_iff`, `prependsRenko_iff`: the others.
* `deepens_iff`: all kinds.
-/

namespace Digdigdig3.Rewarm

open Derived

/-! ## Windows -/

/-- What the venue answers to the fetches of a rewarm, oldest first: the `"1m"` klines of
    `klines_paginated` and the trades of `agg_trades_paginated` or `trades_recent`. -/
structure Window where
  exchange : ExchangeId
  symbol : String
  klines : List BarPoint
  trades : List TradePoint

/-- The trades in the events of `kline_to_synthetic_trades` (`derived.rs` lines 2593–2632). -/
def klineToSyntheticTrades (bar : BarPoint) (intervalMs : ℤ) : List TradePoint :=
  if intervalMs ≤ 0 then []
  else
    let bullish := decide (bar.open_ ≤ bar.close)
    let path := if bullish then [bar.open_, bar.low, bar.high, bar.close]
      else [bar.open_, bar.high, bar.low, bar.close]
    let stepMs := intervalMs / 4
    (List.range 4).map fun i =>
      let price := path.getD i 0
      let side : UInt8 :=
        if i = 0 then (if bullish then 0 else 1)
        else if price < path.getD (i - 1) 0 then 1 else 0
      { tsMs := bar.openTime + stepMs * i, price := price, quantity := bar.volume / 4,
        side := side, tradeIdHash := 0 }

/-- The trades of all klines but the last one, which may still be forming. -/
def Window.legs (w : Window) : List TradePoint :=
  w.klines.dropLast.flatMap fun bar => klineToSyntheticTrades bar 60000

/-- `rewarm_fetch_kline_sufficient_window` (lines 873–897). -/
def Window.klineSufficientEvents (w : Window) : List Event :=
  w.legs.map (.trade w.exchange w.symbol)

/-- `rewarm_fetch_trade_window` (lines 804–852). -/
def Window.tradeEvents (w : Window) : List Event := w.trades.map (.trade w.exchange w.symbol)

/-- The events of the kline flavour of `rewarm_tpo` (lines 1202–1211). -/
def Window.barEvents (w : Window) : List Event :=
  w.klines.map (.bar w.exchange w.symbol ⟨"1m"⟩)

/-! ## The kinds -/

/-- The kinds that `rewarm_derived` accepts (lines 729–769). -/
inductive RewarmKind
  | renkoBar (boxSize : UInt64) (reversalCount : UInt8)
  | pnfBar (boxSize : UInt64) (reversalCount : UInt8)
  | kagiBar (reversal : UInt64)
  | threeLineBreak (linesBack : UInt8)
  | rangeBar (range : UInt64)
  | volumeBar (threshold : UInt64)
  | tickBar (n : UInt32)
  | dollarBar (dollarThreshold : UInt64)
  | cvdLine
  | tpoProfile (freqMinutes : UInt16) (source : Series.TpoSource)
  deriving DecidableEq

/-- `D::Output` of the kind. -/
def PointOf : RewarmKind → Type
  | .renkoBar _ _ => RenkoBrickPoint
  | .pnfBar _ _ => PnfColumnPoint
  | .kagiBar _ => KagiSegmentPoint
  | .threeLineBreak _ => ThreeLineBreakLinePoint
  | .rangeBar _ => BarPoint
  | .volumeBar _ => BarPoint
  | .tickBar _ => BarPoint
  | .dollarBar _ => BarPoint
  | .cvdLine => ScalarBarPoint
  | .tpoProfile _ _ => TpoSessionPoint

/-- `timestamp_ms` of the points of the kind. -/
def timestampMs : (kind : RewarmKind) → PointOf kind → ℤ
  | .renkoBar _ _ => RenkoBrickPoint.openTime
  | .pnfBar _ _ => PnfColumnPoint.openTime
  | .kagiBar _ => KagiSegmentPoint.openTime
  | .threeLineBreak _ => ThreeLineBreakLinePoint.tsOpen
  | .rangeBar _ => BarPoint.openTime
  | .volumeBar _ => BarPoint.openTime
  | .tickBar _ => BarPoint.openTime
  | .dollarBar _ => BarPoint.openTime
  | .cvdLine => ScalarBarPoint.tsMs
  | .tpoProfile _ _ => TpoSessionPoint.openTime

/-- What tells the points of the kind apart: the id of a column, the time of any other point. -/
def identOf : (kind : RewarmKind) → PointOf kind → ℤ
  | .pnfBar _ _ => fun p => (PnfColumnPoint.columnId p : ℤ)
  | kind => timestampMs kind

/-! ## The rewarms -/

/-- `rewarm_renko` (lines 1010–1042), `none` when the fold does not end. -/
def rewarmRenko (fuel b r : ℕ) (seen handle : Option (Series RenkoBrickPoint))
    (events : List Event) : Option (List RenkoBrickPoint × Option (Series RenkoBrickPoint)) :=
  match seen.bind fun guard => guard.ring.head? with
  | none => some ([], handle)
  | some first =>
    if events = [] then some ([], handle)
    else
      let state := (TradeToRenkoBarDerived.newForKey b r).presetGridAnchor first.bottom
      (TradeToRenkoBarDerived.seedFromEvents fuel (.new, state) events).map
        (spliceFold RenkoBrickPoint.openTime RenkoBrickPoint.openTime handle)

/-- `rewarm_pnf` (lines 1047–1079). -/
def rewarmPnf (b r : ℕ) (seen handle : Option (Series PnfColumnPoint)) (events : List Event) :
    List PnfColumnPoint × Option (Series PnfColumnPoint) :=
  match seen.bind fun guard => guard.ring.head? with
  | none => ([], handle)
  | some first =>
    if events = [] then ([], handle)
    else
      let state := (TradeToPnfBarDerived.newForKey b r).presetGrid first.bottom first.top first.isX
      spliceFold PnfColumnPoint.openTime PnfColumnPoint.columnId handle
        (TradeToPnfBarDerived.machine.emitted (.new, state) events)

/-- `rewarm_derived_standalone` (lines 1096–1129) for the machine of a kind and its new state. -/
def rewarmDerivedStandalone {σ P : Type} (timestampMs : P → ℤ) (machine : Mealy σ Event P)
    (state : σ) (seen handle : Option (Series P)) (events : List Event) :
    List P × Option (Series P) :=
  if seen.isNone ∨ events = [] then ([], handle)
  else spliceFold timestampMs timestampMs handle (machine.emitted state events)

/-- `rewarm_tpo` (lines 1182–1229). -/
def rewarmTpo (f : UInt16) (source : Series.TpoSource)
    (seen handle : Option (Series TpoSessionPoint)) (w : Window) :
    List TpoSessionPoint × Option (Series TpoSessionPoint) :=
  let state := TpoSessionState.new (TpoSessionState.freqForKey f)
  match source with
  | .kline1m => rewarmDerivedStandalone TpoSessionPoint.openTime TpoSessionState.kline1mMachine
      state seen handle w.barEvents
  | .tradeBucket => rewarmDerivedStandalone TpoSessionPoint.openTime TpoSessionState.tradeMachine
      state seen handle w.tradeEvents

/-- `rewarm_derived` (lines 723–769) with the ring where it is read and where it is spliced. -/
def rewarmDerived (fuel : ℕ) (w : Window) : (kind : RewarmKind) →
    Option (Series (PointOf kind)) → Option (Series (PointOf kind)) →
      Option (List (PointOf kind) × Option (Series (PointOf kind)))
  | .renkoBar b r, seen, handle =>
    rewarmRenko fuel b.toNat r.toNat seen handle w.klineSufficientEvents
  | .pnfBar b r, seen, handle =>
    some (rewarmPnf b.toNat r.toNat seen handle w.klineSufficientEvents)
  | .kagiBar r, seen, handle =>
    some (rewarmDerivedStandalone KagiSegmentPoint.openTime TradeToKagiBarDerived.machine
      (.new, .newForKey r.toNat) seen handle w.klineSufficientEvents)
  | .threeLineBreak n, seen, handle =>
    some (rewarmDerivedStandalone ThreeLineBreakLinePoint.tsOpen
      TradeToThreeLineBreakDerived.machine (.new, .newForKey n) seen handle
      w.klineSufficientEvents)
  | .rangeBar r, seen, handle =>
    some (rewarmDerivedStandalone BarPoint.openTime TradeToRangeBarDerived.machine
      (.new, .newForKey r.toNat) seen handle w.klineSufficientEvents)
  | .volumeBar v, seen, handle =>
    some (rewarmDerivedStandalone BarPoint.openTime TradeToVolumeBarDerived.machine
      (.new, .newForKey v.toNat) seen handle w.klineSufficientEvents)
  | .tickBar n, seen, handle =>
    some (rewarmDerivedStandalone BarPoint.openTime TradeToTickBarDerived.machine
      (.newForKey n.toNat) seen handle w.tradeEvents)
  | .dollarBar d, seen, handle =>
    some (rewarmDerivedStandalone BarPoint.openTime TradeToDollarBarDerived.machine
      (.new, .newForKey d.toNat) seen handle w.klineSufficientEvents)
  | .cvdLine, seen, handle => some (rewarmCvd seen handle w.trades)
  | .tpoProfile f source, seen, handle => some (rewarmTpo f source seen handle w)

/-! ## Specification -/

/-- The rewarm ends and puts its points in front of the ring as it should. -/
def Deepens (w : Window) (kind : RewarmKind) (seen handle : Option (Series (PointOf kind))) :
    Prop :=
  ∃ fuel result, rewarmDerived fuel w kind seen handle = some result ∧
    Prepends (timestampMs kind) (identOf kind) handle result

/-- No trade finds the fold of bricks in a state in which its loop does not end. -/
def RenkoEnds (b r : ℕ) (seen : Option (Series RenkoBrickPoint)) (w : Window) : Prop :=
  0 < b → ∀ first, seen.bind (fun guard => guard.ring.head?) = some first →
    TradeToRenkoBarDerived.NeverStuck
      ((TradeToRenkoBarDerived.newForKey b r).presetGridAnchor first.bottom) w.legs

/-- The columns through which the trades lead from the first column of a ring, by id and time; the
    first one counts as opened at time zero with the id zero. -/
def rewarmStamps (b r : ℕ) (first : PnfColumnPoint) (trades : List TradePoint) : List (ℕ × ℤ) :=
  if b = 0 then []
  else TradeToPnfBarDerived.columnStamps (b / 10 ^ 8) (max r 1)
    { first.column with columnId := 0 } 0 trades

/-- The ids of the ring are distinct, and the columns of the window fit in front of it. -/
def PnfFits (b r : ℕ) (seen handle : Option (Series PnfColumnPoint)) (w : Window) : Prop :=
  ∀ guard, handle = some guard → (guard.ring.map PnfColumnPoint.columnId).Nodup ∧
    ∀ first, seen.bind (fun guard => guard.ring.head?) = some first →
      StampsFit PnfColumnPoint.openTime PnfColumnPoint.columnId guard.ring
        (rewarmStamps b r first w.legs)

/-- The days of the events of a TPO window. -/
def tpoDays (source : Series.TpoSource) (w : Window) : List ℤ :=
  match source with
  | .kline1m => w.klines.map fun bar => TpoSessionState.dayStartMs bar.openTime
  | .tradeBucket => w.trades.map fun point => TpoSessionState.dayStartMs point.tsMs

/-- The days of the window that are not later than the head of the ring come one after the other,
    none of them again after another one. -/
def TpoFits (source : Series.TpoSource) (seen handle : Option (Series TpoSessionPoint))
    (w : Window) : Prop :=
  seen ≠ none → ∀ guard, handle = some guard →
    (((tpoDays source w).destutter (· ≠ ·)).filter fun day =>
      (guard.ring.head?.map TpoSessionPoint.openTime).all fun h => day ≤ h).Pairwise (· < ·)

/-- When a rewarm of the kind does what it should. -/
def Fits (w : Window) : (kind : RewarmKind) → Option (Series (PointOf kind)) →
    Option (Series (PointOf kind)) → Prop
  | .renkoBar b r, seen, _ => RenkoEnds b.toNat r.toNat seen w
  | .pnfBar b r, seen, handle => PnfFits b.toNat r.toNat seen handle w
  | .tpoProfile _ source, seen, handle => TpoFits source seen handle w
  | _, _, _ => True

/-! ## What each kind does -/

section Kinds

variable {P : Type} {stamp : P → ℤ}

theorem nodup_of_ascending {xs : List P} (h : Ascending stamp xs) : (xs.map stamp).Nodup :=
  List.pairwise_map.mpr (h.imp fun hlt => hlt.ne)

theorem prepends_nothing {handle : Option (Series P)}
    (hasc : ∀ guard, handle = some guard → Ascending stamp guard.ring) :
    Prepends stamp stamp handle ([], handle) :=
  (prepends_nothing_iff hasc).mpr fun guard hguard => nodup_of_ascending (hasc guard hguard)

/-- A fold that stamps by a clock. -/
theorem clocked_prepends {σ : Type} {machine : Mealy σ Event P} {Inv : σ → Prop} {clock : σ → ℤ}
    (h : machine.Clocked Inv clock stamp) {state : σ} (hstate : Inv state)
    {handle : Option (Series P)}
    (hasc : ∀ guard, handle = some guard → Ascending stamp guard.ring)
    (seen : Option (Series P)) (events : List Event) :
    Prepends stamp stamp handle
      (rewarmDerivedStandalone stamp machine state seen handle events) := by
  unfold rewarmDerivedStandalone
  split_ifs
  · exact prepends_nothing hasc
  · exact prepends_of_sorted hasc (h.sorted hstate events)

end Kinds

/-- The fold of bricks ends unless it is stuck, and then its bricks are put in front. -/
theorem prependsRenko_iff {b r : ℕ} {seen handle : Option (Series RenkoBrickPoint)}
    (hasc : ∀ guard, handle = some guard → Ascending RenkoBrickPoint.openTime guard.ring)
    (w : Window) :
    (∃ fuel result, rewarmRenko fuel b r seen handle w.klineSufficientEvents = some result ∧
      Prepends RenkoBrickPoint.openTime RenkoBrickPoint.openTime handle result) ↔
        RenkoEnds b r seen w := by
  have hnothing := prepends_nothing hasc
  unfold rewarmRenko RenkoEnds
  rcases hseen : seen.bind (fun guard => guard.ring.head?) with _ | first
  · refine iff_of_true ⟨0, _, rfl, hnothing⟩ fun _ first hfirst => by cases hfirst
  · by_cases hevents : w.klineSufficientEvents = []
    · have hlegs : w.legs = [] := List.map_eq_nil_iff.mp hevents
      refine iff_of_true ⟨0, ([], handle), if_pos hevents, hnothing⟩ fun _ first' _ => ?_
      rw [hlegs]
      trivial
    · simp only [if_neg hevents, Option.map_eq_some_iff]
      have hends : (∃ fuel result, (∃ emissions, TradeToRenkoBarDerived.seedFromEvents fuel
            (.new, (TradeToRenkoBarDerived.newForKey b r).presetGridAnchor first.bottom)
            w.klineSufficientEvents = some emissions ∧
              spliceFold RenkoBrickPoint.openTime RenkoBrickPoint.openTime handle emissions =
                result) ∧
            Prepends RenkoBrickPoint.openTime RenkoBrickPoint.openTime handle result) ↔
          ∃ fuel emissions, TradeToRenkoBarDerived.seedFromEvents fuel
            (.new, (TradeToRenkoBarDerived.newForKey b r).presetGridAnchor first.bottom)
            w.klineSufficientEvents = some emissions := by
        constructor
        · rintro ⟨fuel, _, ⟨emissions, hseed, -⟩, -⟩
          exact ⟨fuel, emissions, hseed⟩
        · rintro ⟨fuel, emissions, hseed⟩
          refine ⟨fuel, _, ⟨emissions, hseed, rfl⟩, prepends_of_sorted hasc ?_⟩
          exact (TradeToRenkoBarDerived.sorted_seedFromEvents hseed).2.imp le_of_lt
      rw [hends]
      rcases Nat.eq_zero_or_pos b with rfl | hb
      · refine iff_of_true ⟨0, [], ?_⟩ fun hb => absurd hb (lt_irrefl 0)
        have hbox : ((TradeToRenkoBarDerived.newForKey 0 r).presetGridAnchor
            first.bottom).boxSize = 0 := rfl
        have hidle : ∀ evs : List Event, TradeToRenkoBarDerived.seedFromEvents 0
            (.new, (TradeToRenkoBarDerived.newForKey 0 r).presetGridAnchor first.bottom) evs =
              some [] := by
          intro evs
          induction evs with
          | nil => rfl
          | cons ev evs ih =>
            rw [TradeToRenkoBarDerived.seedFromEvents, TradeToRenkoBarDerived.onUpstreamEvent,
              if_pos hbox, Option.bind_some, ih]
            rfl
        exact hidle _
      · have hiff := TradeToRenkoBarDerived.exists_seedFromEvents_iff hb
          (TradeToRenkoBarDerived.Reachable.preset (r := r) first.bottom) w.exchange w.symbol
          w.legs
        refine hiff.trans ⟨fun h _ first' hfirst => ?_, fun h => h hb first rfl⟩
        cases hfirst
        exact h

/-- The stamps of the columns that a window is folded into. -/
theorem map_emitted_preset (b r : ℕ) (first : PnfColumnPoint) (w : Window) :
    (TradeToPnfBarDerived.machine.emitted (.new, (TradeToPnfBarDerived.newForKey b r).presetGrid
      first.bottom first.top first.isX) w.klineSufficientEvents).map
        (fun c => (c.columnId, c.openTime)) = rewarmStamps b r first w.legs := by
  unfold rewarmStamps Window.klineSufficientEvents
  rcases Nat.eq_zero_or_pos b with rfl | hb
  · rw [if_pos rfl]
    generalize w.legs = trades
    induction trades with
    | nil => rfl
    | cons point trades ih => exact ih
  · have hq : (0 : ℚ) < b / 10 ^ 8 := by positivity
    have hbox : ((TradeToPnfBarDerived.newForKey b r).presetGrid first.bottom first.top
        first.isX).boxSize = b / 10 ^ 8 := if_pos hb
    have hrev : ((TradeToPnfBarDerived.newForKey b r).presetGrid first.bottom first.top
        first.isX).reversalCount = max r 1 := if_pos hb
    rw [if_neg hb.ne', TradeToPnfBarDerived.machine,
      emitted_klineSufficient_trades TradeToPnfBarDerived.foldTrade_boxSize _
        (by rw [hbox]; simpa using hb.ne'),
      TradeToPnfBarDerived.map_emitted rfl rfl rfl, hbox, hrev]
    rfl

theorem inStep_preset (b r : ℕ) (first : PnfColumnPoint) (w : Window) :
    InStep PnfColumnPoint.openTime PnfColumnPoint.columnId
      (TradeToPnfBarDerived.machine.emitted (.new, (TradeToPnfBarDerived.newForKey b r).presetGrid
        first.bottom first.top first.isX) w.klineSufficientEvents) := by
  have hpair : (rewarmStamps b r first w.legs).Pairwise fun a b =>
      a = b ∨ a.1 < b.1 ∧ a.2 < b.2 := by
    unfold rewarmStamps
    split_ifs
    · exact List.Pairwise.nil
    · exact TradeToPnfBarDerived.pairwise_columnStamps _ _ _ _ _
  rw [← map_emitted_preset, List.pairwise_map] at hpair
  refine hpair.imp fun h => ?_
  rcases h with heq | ⟨hid, htime⟩
  · exact .inl (Prod.mk.inj heq)
  · exact .inr ⟨hid.ne, htime⟩

/-- The columns are put in front of a ring as they should just when their stamps fit. -/
theorem prependsPnf_iff {b r : ℕ} {seen handle : Option (Series PnfColumnPoint)}
    (hasc : ∀ guard, handle = some guard → Ascending PnfColumnPoint.openTime guard.ring)
    (w : Window) :
    Prepends PnfColumnPoint.openTime PnfColumnPoint.columnId handle
        (rewarmPnf b r seen handle w.klineSufficientEvents) ↔ PnfFits b r seen handle w := by
  unfold rewarmPnf PnfFits
  rcases hseen : seen.bind (fun guard => guard.ring.head?) with _ | first
  · refine (prepends_nothing_iff hasc).trans (forall₂_congr fun guard _ => ?_)
    exact (and_iff_left fun first hfirst => by cases hfirst).symm
  · simp only [Option.some.injEq, forall_eq']
    split_ifs with hevents
    · have hlegs : w.legs = [] := List.map_eq_nil_iff.mp hevents
      refine (prepends_nothing_iff hasc).trans (forall₂_congr fun guard _ => ?_)
      refine (and_iff_left fun head _ x hx => ?_).symm
      rw [rewarmStamps, hlegs] at hx
      split_ifs at hx <;> exact absurd hx List.not_mem_nil
    · rw [prepends_iff_of_inStep hasc (inStep_preset b r first w), map_emitted_preset]

/-- The sessions are put in front of a ring as they should just when their days are in order. -/
theorem prependsTpo_iff {f : UInt16} {source : Series.TpoSource}
    {seen handle : Option (Series TpoSessionPoint)}
    (hasc : ∀ guard, handle = some guard → Ascending TpoSessionPoint.openTime guard.ring)
    (w : Window) :
    Prepends TpoSessionPoint.openTime TpoSessionPoint.openTime handle
        (rewarmTpo f source seen handle w) ↔ TpoFits source seen handle w := by
  have hstandalone : ∀ (machine : Mealy TpoSessionState Event TpoSessionPoint)
      (events : List Event), (events = [] → tpoDays source w = []) →
      (machine.emitted (TpoSessionState.new (TpoSessionState.freqForKey f)) events).map
        TpoSessionPoint.openTime = tpoDays source w →
      (Prepends TpoSessionPoint.openTime TpoSessionPoint.openTime handle
        (rewarmDerivedStandalone TpoSessionPoint.openTime machine
          (TpoSessionState.new (TpoSessionState.freqForKey f)) seen handle events) ↔
        TpoFits source seen handle w) := by
    intro machine events hempty hdays
    unfold rewarmDerivedStandalone TpoFits
    split_ifs with hnothing
    · refine iff_of_true (prepends_nothing hasc) fun hseen guard _ => ?_
      rcases hnothing with hnone | hnil
      · exact absurd (Option.isNone_iff_eq_none.mp hnone) hseen
      · rw [hempty hnil]
        exact List.Pairwise.nil
    · have hseen : seen ≠ none := fun hnone => hnothing (.inl (by rw [hnone]; rfl))
      rw [prepends_iff_of_key hasc, hdays]
      exact ⟨fun h _ => h, fun h => h hseen⟩
  unfold rewarmTpo
  cases source with
  | kline1m =>
    refine hstandalone _ _ (fun hnil => ?_) ?_
    · rw [tpoDays, List.map_eq_nil_iff.mp hnil]
      rfl
    · exact TpoSessionState.map_openTime_kline1m f w.exchange w.symbol _ w.klines
  | tradeBucket =>
    refine hstandalone _ _ (fun hnil => ?_) ?_
    · rw [tpoDays, List.map_eq_nil_iff.mp hnil]
      rfl
    · exact TpoSessionState.map_openTime_trade f w.exchange w.symbol w.trades

theorem prepends_columnId_iff {handle : Option (Series PnfColumnPoint)}
    {result : List PnfColumnPoint × Option (Series PnfColumnPoint)} :
    Prepends PnfColumnPoint.openTime (fun p => (p.columnId : ℤ)) handle result ↔
      Prepends PnfColumnPoint.openTime PnfColumnPoint.columnId handle result := by
  have hnodup : ∀ xs : List PnfColumnPoint,
      (xs.map fun p => (p.columnId : ℤ)).Nodup ↔ (xs.map PnfColumnPoint.columnId).Nodup := by
    intro xs
    rw [← List.nodup_map_iff (f := fun n : ℕ => (n : ℤ)) Nat.cast_injective, List.map_map]
    rfl
  constructor <;> rintro ⟨hrings, hnothing, hasc, hdistinct, hcopy⟩
  · exact ⟨hrings, hnothing, hasc, fun after h => (hnodup _).mp (hdistinct after h), hcopy⟩
  · exact ⟨hrings, hnothing, hasc, fun after h => (hnodup _).mpr (hdistinct after h), hcopy⟩

/-- A kind whose rewarm always ends. -/
theorem deepens_of_eq_some {w : Window} {kind : RewarmKind}
    {seen handle : Option (Series (PointOf kind))}
    {result : List (PointOf kind) × Option (Series (PointOf kind))}
    (h : ∀ fuel, rewarmDerived fuel w kind seen handle = some result) :
    Deepens w kind seen handle ↔
      Prepends (timestampMs kind) (identOf kind) handle result := by
  constructor
  · rintro ⟨fuel, result', hresult, hprepends⟩
    rw [h fuel] at hresult
    cases hresult
    exact hprepends
  · intro hprepends
    exact ⟨0, result, h 0, hprepends⟩

/-- The samples of a window are put in front of a ring as they should. -/
theorem prepends_rewarmCvd {seen handle : Option (Series ScalarBarPoint)}
    (hasc : ∀ guard, handle = some guard → Ascending ScalarBarPoint.tsMs guard.ring)
    (events : List TradePoint) :
    Prepends ScalarBarPoint.tsMs ScalarBarPoint.tsMs handle (rewarmCvd seen handle events) := by
  unfold rewarmCvd
  rcases seen.bind (fun guard => guard.ring.head?) with _ | first
  · exact prepends_nothing hasc
  · simp only
    rw [emitted_machine, rewarmDedup_of_ascending (ascending_samples _ _ events)]
    split_ifs
    · exact prepends_nothing hasc
    · exact prepends_nothing hasc
    · generalize first.value - _ = offset
      have hmoved : Ascending ScalarBarPoint.tsMs ((samples TradeToCvdLineDerived.new.cvd
          TradeToCvdLineDerived.new.lastEmittedTs events).map fun p =>
            { p with value := p.value + offset }) :=
        List.pairwise_map.mpr (ascending_samples _ _ events)
      have hprepends := prepends_of_sorted hasc (hmoved.imp le_of_lt)
      rwa [spliceFold_eq, rewarmDedup_of_ascending hmoved] at hprepends

/-- A ring with the first column of a live series, opened ten minutes into the day. -/
def firstColumn : Series PnfColumnPoint :=
  (Series.new 10).push { openTime := 600000, columnId := 1, isX := true, bottom := 100, top := 101,
                         volume := 1, tradesCount := 1 }

theorem ascending_firstColumn {guard : Series PnfColumnPoint} (h : some firstColumn = some guard) :
    Ascending PnfColumnPoint.openTime guard.ring := by
  cases h
  exact List.pairwise_singleton _ _

/-- A kline from `open_` to `close`, at the first minute of the day, and one that still forms. -/
def twoKlines (open_ high low close : ℚ) : Window where
  exchange := .binance
  symbol := "BTCUSDT"
  klines := [⟨0, open_, high, low, close, 4, 400, 4⟩, ⟨60000, close, close, close, close, 0, 0, 0⟩]
  trades := []

/-- Prices that reverse the placeholder and the column after it leave a second column with the id
    of the first column of the ring. -/
theorem not_all_deepen :
    ¬ ∀ (w : Window) (kind : RewarmKind) (seen handle : Option (Series (PointOf kind))),
      (∀ guard, handle = some guard → Ascending (timestampMs kind) guard.ring) →
        Deepens w kind seen handle := by
  intro h
  have hdeepens := h (twoKlines 97 105 96 96) (.pnfBar 100000000 3) (some firstColumn)
    (some firstColumn) fun _ h => ascending_firstColumn h
  have hprepends := prepends_columnId_iff.mp ((deepens_of_eq_some fun _ => rfl).mp hdeepens)
  have hfits := ((prependsPnf_iff fun _ h => ascending_firstColumn h) _).mp hprepends
  have hstamps := (hfits firstColumn rfl).2 _ rfl _ rfl (1, 1) (by decide +kernel) (by decide)
  rcases hstamps with ⟨-, hlast⟩ | ⟨-, hids⟩
  · exact absurd (hlast (2, 15000) (by decide +kernel) (by decide)) (by decide)
  · exact hids _ (List.mem_singleton_self _) rfl

end Digdigdig3.Rewarm
