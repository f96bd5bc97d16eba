import Digdigdig3.Derived.ThresholdBars

/-!
# Time, footprint, imbalance and run bars

The other bars that `derived.rs` folds out of trades, and what all of them do with the volume of
a trade: it goes into the current bar or into the bar that the trade opens.

* `Books.volume_le`: the bars of a machine that books volume so hold no more than it was fed.
* `volume_bars_le`: every bar of the trade-dependent kinds is of that sort.
-/

namespace Digdigdig3.Derived

/-! ## Time bars -/

/-- The start of the bucket of `tsMs`: `(ts_ms / interval_ms) * interval_ms`, the division
    truncating. -/
def bucketStart (intervalMs tsMs : ℤ) : ℤ := tsMs.tdiv intervalMs * intervalMs

/-- `TradeToBarDerived` (lines 396–403). `intervalMs = 0` means disabled. -/
structure TradeToBarDerived where
  intervalMs : ℤ
  current : Option BarPoint
  currentBucketStart : ℤ

namespace TradeToBarDerived

/-- `new_for_key` for `Kind::Kline(iv)` (lines 412–418). -/
def newForKey (interval : KlineInterval) : TradeToBarDerived :=
  { intervalMs := (intervalToMs interval.text).getD 0, current := none, currentBucketStart := 0 }

/-- The trade branch of `on_upstream_event` (lines 427–453). -/
def foldTrade (s : TradeToBarDerived) (point : TradePoint) :
    TradeToBarDerived × Option BarPoint :=
  match s.current with
  | none =>
    let bar := openBar (bucketStart s.intervalMs point.tsMs) point
    ({ s with current := some bar, currentBucketStart := bar.openTime }, some bar)
  | some bar =>
    if s.currentBucketStart < bucketStart s.intervalMs point.tsMs then
      let bar := openBar (bucketStart s.intervalMs point.tsMs) point
      ({ s with current := some bar, currentBucketStart := bar.openTime }, some bar)
    else
      ({ s with current := some (bar.addTrade point) }, some (bar.addTrade point))

/-- `on_upstream_event` (lines 420–454). -/
def machine : Mealy TradeToBarDerived Event BarPoint :=
  ⟨fun s ev =>
    if s.intervalMs = 0 then (s, none)
    else
      match ev with
      | .trade _ _ point => s.foldTrade point
      | _ => (s, none)⟩

end TradeToBarDerived

/-! ## Footprints -/

/-- A level of a footprint: a price with what was bought and sold at it. -/
structure FootprintLevel where
  price : ℚ
  buyVol : ℚ
  sellVol : ℚ
  deriving DecidableEq

/-- `FootprintPoint` (`data/footprint.rs` lines 29–43). -/
structure FootprintPoint where
  openTime : ℤ
  open_ : ℚ
  high : ℚ
  low : ℚ
  close : ℚ
  volume : ℚ
  levels : List FootprintLevel
  deriving DecidableEq

/-- `levels.entry(bits).or_insert((0.0, 0.0))` and the addition to its side (lines 869–871 and
    883–885): the map is the list of its entries, by ascending price. -/
def addToLevel (point : TradePoint) : List FootprintLevel → List FootprintLevel
  | [] => [⟨point.price, if point.side = 0 then point.quantity else 0,
      if point.side = 0 then 0 else point.quantity⟩]
  | level :: levels =>
    if point.price < level.price then
      ⟨point.price, if point.side = 0 then point.quantity else 0,
        if point.side = 0 then 0 else point.quantity⟩ :: level :: levels
    else if point.price = level.price then
      { level with
        buyVol := if point.side = 0 then level.buyVol + point.quantity else level.buyVol
        sellVol := if point.side = 0 then level.sellVol else level.sellVol + point.quantity }
        :: levels
    else level :: addToLevel point levels

/-- `TradeToFootprintDerived` (lines 803–812): `current_ohlcv` and `levels` are those of
    `current`, the point that `build_point` makes of them. `intervalMs = 0` means disabled. -/
structure TradeToFootprintDerived where
  intervalMs : ℤ
  current : Option FootprintPoint

namespace TradeToFootprintDerived

/-- `new_for_key` for `Kind::Footprint(iv)` (lines 835–846). -/
def newForKey (interval : KlineInterval) : TradeToFootprintDerived :=
  { intervalMs := (intervalToMs interval.text).getD 0, current := none }

/-- The footprint of a new bucket (lines 862–871). -/
def rolled (intervalMs : ℤ) (point : TradePoint) : FootprintPoint :=
  { openTime := bucketStart intervalMs point.tsMs, open_ := point.price, high := point.price,
    low := point.price, close := point.price, volume := point.quantity,
    levels := addToLevel point [] }

/-- The update of the current bucket (lines 877–885). -/
def updated (p : FootprintPoint) (point : TradePoint) : FootprintPoint :=
  { p with
    high := if p.high < point.price then point.price else p.high
    low := if point.price < p.low then point.price else p.low
    close := point.price
    volume := p.volume + point.quantity
    levels := addToLevel point p.levels }

/-- The trade branch of `on_upstream_event` (lines 858–896). -/
def foldTrade (s : TradeToFootprintDerived) (point : TradePoint) :
    TradeToFootprintDerived × Option FootprintPoint :=
  match s.current with
  | none =>
    ({ s with current := some (rolled s.intervalMs point) }, some (rolled s.intervalMs point))
  | some p =>
    if p.openTime < bucketStart s.intervalMs point.tsMs then
      ({ s with current := some (rolled s.intervalMs point) }, some (rolled s.intervalMs point))
    else ({ s with current := some (updated p point) }, some (updated p point))

/-- `on_upstream_event` (lines 848–897). -/
def machine : Mealy TradeToFootprintDerived Event FootprintPoint :=
  ⟨fun s ev =>
    if s.intervalMs = 0 then (s, none)
    else
      match ev with
      | .trade _ _ point => s.foldTrade point
      | _ => (s, none)⟩

end TradeToFootprintDerived

/-! ## Imbalance bars -/

/-- `TradeToTickImbalanceDerived` and `TradeToVolumeImbalanceDerived` (lines 2015–2032 and
    2135–2145), which have the same fields. `alpha = 0` or `minTicks = 0` means disabled. -/
structure TradeToImbalanceDerived where
  alpha : ℚ
  minTicks : ℕ
  theta : ℚ
  tickCount : ℕ
  expectedThetaAbs : ℚ
  expectedTicks : ℚ
  current : Option BarPoint
  lastEmittedOpenTime : ℤ

namespace TradeToImbalanceDerived

/-- `new_for_key` (lines 2047–2063 and 2159–2175). -/
def newForKey (alphaX100 minTicks : ℕ) : TradeToImbalanceDerived :=
  { alpha := if 0 < minTicks then (alphaX100 : ℚ) / 100 else 0
    minTicks := minTicks
    theta := 0
    tickCount := 0
    expectedThetaAbs := minTicks * (1 / 2)
    expectedTicks := minTicks
    current := none
    lastEmittedOpenTime := 0 }

/-- `close_threshold` (lines 2036–2039 and 2148–2151). -/
def closeThreshold (s : TradeToImbalanceDerived) : ℚ :=
  max (s.expectedThetaAbs * s.expectedTicks) (s.minTicks * (1 / 2))

/-- The trade branch of `on_upstream_event` (lines 2069–2119 and 2181–2231), `signed` being the
    signed tick or the signed volume of the trade. -/
def foldSigned (signed : TradePoint → ℚ) (s : TradeToImbalanceDerived) (point : TradePoint) :
    TradeToImbalanceDerived × Option BarPoint :=
  let theta := if s.current.isNone then signed point else s.theta + signed point
  let tickCount := if s.current.isNone then 1 else s.tickCount + 1
  let (bar, lastEmittedOpenTime) := openOrUpdate s.current s.lastEmittedOpenTime point
  if s.closeThreshold ≤ |theta| then
    ({ s with
        theta := 0
        tickCount := 0
        expectedTicks := s.alpha * tickCount + (1 - s.alpha) * s.expectedTicks
        expectedThetaAbs := s.alpha * |theta| + (1 - s.alpha) * s.expectedThetaAbs
        current := none
        lastEmittedOpenTime := lastEmittedOpenTime }, some bar)
  else
    ({ s with
        theta := theta
        tickCount := tickCount
        current := some bar
        lastEmittedOpenTime := lastEmittedOpenTime }, some bar)

/-- `on_upstream_event` of either kind. -/
def machine (signed : TradePoint → ℚ) : Mealy TradeToImbalanceDerived Event BarPoint :=
  ⟨fun s ev =>
    if s.alpha = 0 ∨ s.minTicks = 0 then (s, none)
    else
      match ev with
      | .trade _ _ point => s.foldSigned signed point
      | _ => (s, none)⟩

end TradeToImbalanceDerived

/-- `b_t` of the tick imbalance (line 2070). -/
def signedTick (point : TradePoint) : ℚ := if point.side = 0 then 1 else -1

/-- The signed volume of the volume imbalance (line 2181). -/
def signedVolume (point : TradePoint) : ℚ :=
  if point.side = 0 then point.quantity else -point.quantity

/-- `TradeToTickImbalanceDerived` (lines 2065–2120). -/
def TradeToTickImbalanceDerived.machine : Mealy TradeToImbalanceDerived Event BarPoint :=
  TradeToImbalanceDerived.machine signedTick

/-- `TradeToVolumeImbalanceDerived` (lines 2177–2232). -/
def TradeToVolumeImbalanceDerived.machine : Mealy TradeToImbalanceDerived Event BarPoint :=
  TradeToImbalanceDerived.machine signedVolume

/-! ## Run bars -/

/-- `TradeToRunBarDerived` (lines 2252–2270). `alpha = 0` or `minTicks = 0` means disabled. -/
structure TradeToRunBarDerived where
  alpha : ℚ
  minTicks : ℕ
  runBuyLen : ℕ
  runSellLen : ℕ
  lastSide : UInt8
  expectedRun : ℚ
  expectedTicks : ℚ
  tickCount : ℕ
  current : Option BarPoint
  lastEmittedOpenTime : ℤ

namespace TradeToRunBarDerived

/-- `new_for_key` for `Kind::RunBar` (lines 2284–2299). -/
def newForKey (alphaX100 minTicks : ℕ) : TradeToRunBarDerived :=
  { alpha := if 0 < minTicks then (alphaX100 : ℚ) / 100 else 0
    minTicks := minTicks
    runBuyLen := 0
    runSellLen := 0
    lastSide := 255
    expectedRun := minTicks * (1 / 4)
    expectedTicks := minTicks
    tickCount := 0
    current := none
    lastEmittedOpenTime := 0 }

/-- `close_threshold` (lines 2273–2277). -/
def closeThreshold (s : TradeToRunBarDerived) : ℚ := max (s.expectedRun * s.expectedTicks) 2

/-- `saturating_add(1)` on a `u32`. -/
def longer (len : ℕ) : ℕ := min (len + 1) (2 ^ 32 - 1)

/-- The run lengths after a trade (lines 2305–2323). -/
def runs (s : TradeToRunBarDerived) (side : UInt8) : ℕ × ℕ :=
  if side = 0 then
    if s.lastSide = 0 then (longer s.runBuyLen, s.runSellLen) else (1, 0)
  else if s.lastSide = 1 then (s.runBuyLen, longer s.runSellLen) else (0, 1)

/-- The trade branch of `on_upstream_event` (lines 2305–2365): the runs go on over the end of a
    bar. -/
def foldTrade (s : TradeToRunBarDerived) (point : TradePoint) :
    TradeToRunBarDerived × Option BarPoint :=
  let (runBuyLen, runSellLen) := s.runs point.side
  let tickCount := if s.current.isNone then 1 else s.tickCount + 1
  let (bar, lastEmittedOpenTime) := openOrUpdate s.current s.lastEmittedOpenTime point
  let maxRun : ℚ := (max runBuyLen runSellLen : ℕ)
  let s := { s with
    runBuyLen := runBuyLen
    runSellLen := runSellLen
    lastSide := point.side
    lastEmittedOpenTime := lastEmittedOpenTime }
  if s.closeThreshold ≤ maxRun then
    ({ s with
        expectedTicks := s.alpha * tickCount + (1 - s.alpha) * s.expectedTicks
        expectedRun := s.alpha * maxRun + (1 - s.alpha) * s.expectedRun
        current := none
        tickCount := 0 }, some bar)
  else ({ s with current := some bar, tickCount := tickCount }, some bar)

/-- `on_upstream_event` (lines 2301–2366). -/
def machine : Mealy TradeToRunBarDerived Event BarPoint :=
  ⟨fun s ev =>
    if s.alpha = 0 ∨ s.minTicks = 0 then (s, none)
    else
      match ev with
      | .trade _ _ point => s.foldTrade point
      | _ => (s, none)⟩

end TradeToRunBarDerived

/-! ## Volume is booked once -/

section Books

variable {σ ο : Type} {M : Mealy σ Event ο} {entry : ο → ℤ × ℚ}

/-- The open time and the volume of the bar last emitted are `last`; a trade is booked on that
    bar, or on a later one that it opens. -/
structure Books (M : Mealy σ Event ο) (entry : ο → ℤ × ℚ) (R : σ → Option (ℤ × ℚ) → Prop) :
    Prop where
  silent : ∀ {s last exchange symbol point}, R s last →
    (M.step s (.trade exchange symbol point)).2 = none →
      R (M.step s (.trade exchange symbol point)).1 last
  booked : ∀ {s last exchange symbol point e}, R s last →
    (M.step s (.trade exchange symbol point)).2 = some e →
      R (M.step s (.trade exchange symbol point)).1 (some (entry e)) ∧
        ((∃ b, last = some b ∧ entry e = (b.1, b.2 + point.quantity)) ∨
          (∀ b, last = some b → b.1 < (entry e).1) ∧ (entry e).2 = point.quantity)

/-- The bars stored so far: their last one is the last emission, the others opened before it,
    and together they hold at most the volume of the trades. -/
structure Booked (R : σ → Option (ℤ × ℚ) → Prop) (trades : List TradePoint) (s : σ)
    (bars : List (ℤ × ℚ)) : Prop where
  state : R s bars.getLast?
  opened : ∀ b ∈ bars.getLast?, ∀ b' ∈ bars, b'.1 ≤ b.1
  volume_le : (bars.map Prod.snd).sum ≤ (trades.map TradePoint.quantity).sum

/-- **Step lemma.** The trade is booked once, if at all. -/
theorem Booked.step {R : σ → Option (ℤ × ℚ) → Prop} (hbooks : Books M entry R)
    {trades : List TradePoint} {s : σ} {emitted : List ο} {point : TradePoint}
    (h : Booked R trades s (lastWins Prod.fst (emitted.map entry)))
    (hquantity : 0 ≤ point.quantity) (exchange : ExchangeId) (symbol : String) :
    Booked R (trades ++ [point]) (M.step s (.trade exchange symbol point)).1
      (lastWins Prod.fst
        ((emitted ++ (M.step s (.trade exchange symbol point)).2.toList).map entry)) := by
  obtain ⟨hstate, hopened, hvolume⟩ := h
  generalize hbars : lastWins Prod.fst (emitted.map entry) = bars at hstate hopened hvolume
  have hsum : ((trades ++ [point]).map TradePoint.quantity).sum =
      (trades.map TradePoint.quantity).sum + point.quantity := by
    rw [List.map_append, List.sum_append, List.map_singleton, List.sum_singleton]
  cases hout : (M.step s (.trade exchange symbol point)).2 with
  | none =>
    rw [Option.toList_none, List.append_nil, hbars]
    refine ⟨hbooks.silent hstate hout, hopened, ?_⟩
    rw [hsum]
    linarith
  | some e =>
    obtain ⟨hnext, hcases⟩ := hbooks.booked hstate hout
    rw [Option.toList_some, List.map_append, List.map_singleton, lastWins_concat, hbars]
    obtain ⟨b, hlast, hentry⟩ | ⟨hlater, hentry⟩ := hcases
    · obtain ⟨front, rfl⟩ := List.getLast?_eq_some_iff.mp hlast
      have hfront := hopened b hlast
      rw [upsertBy_of_last Prod.fst (by rw [hentry])]
      refine ⟨by rwa [List.getLast?_concat], ?_, ?_⟩
      · intro b' hb' b'' hb''
        rw [List.getLast?_concat, Option.mem_some_iff] at hb'
        subst hb'
        rcases List.mem_append.mp hb'' with hb'' | hb''
        · rw [hentry]
          exact hfront b'' (List.mem_append_left _ hb'')
        · rw [List.mem_singleton.mp hb'']
      · rw [List.map_append, List.sum_append, List.map_singleton, List.sum_singleton] at hvolume ⊢
        rw [hsum, hentry]
        show (front.map Prod.snd).sum + (b.2 + point.quantity) ≤ _
        linarith
    · have hall : ∀ b' ∈ bars, b'.1 < (entry e).1 := by
        intro b' hb'
        obtain ⟨b, hb⟩ : ∃ b, bars.getLast? = some b :=
          ⟨_, List.getLast?_eq_getLast_of_ne_nil (List.ne_nil_of_mem hb')⟩
        exact (hopened b hb b' hb').trans_lt (hlater b hb)
      rw [upsertBy_of_new Prod.fst fun b' hb' => (hall b' hb').ne]
      refine ⟨by rwa [List.getLast?_concat], ?_, ?_⟩
      · intro b' hb' b'' hb''
        rw [List.getLast?_concat, Option.mem_some_iff] at hb'
        subst hb'
        rcases List.mem_append.mp hb'' with hb'' | hb''
        · exact (hall b'' hb'').le
        · rw [List.mem_singleton.mp hb'']
      · rw [List.map_append, List.sum_append, List.map_singleton, List.sum_singleton, hsum, hentry]
        linarith

/-- **Run lemma.** The bars of a machine that books volume so hold no more than it was fed. -/
theorem Books.volume_le {R : σ → Option (ℤ × ℚ) → Prop} (hbooks : Books M entry R) {s : σ}
    (hinit : R s none) (exchange : ExchangeId) (symbol : String) {trades : List TradePoint}
    (hquantity : ∀ p ∈ trades, 0 ≤ p.quantity) :
    ((lastWins Prod.fst ((M.emitted s (trades.map (.trade exchange symbol))).map entry)).map
      Prod.snd).sum ≤ (trades.map TradePoint.quantity).sum := by
  have hrun : Booked R trades (M.final s (trades.map (.trade exchange symbol)))
      (lastWins Prod.fst ((M.emitted s (trades.map (.trade exchange symbol))).map entry)) := by
    induction trades using List.reverseRecOn with
    | nil => exact ⟨hinit, nofun, le_refl _⟩
    | append_singleton trades point ih =>
      rw [List.map_append, List.map_singleton, Mealy.final_concat, Mealy.emitted_concat]
      have hbefore := ih fun p hp => hquantity p (List.mem_append_left _ hp)
      exact hbefore.step hbooks (hquantity point (by simp)) exchange symbol
  exact hrun.volume_le

end Books

/-! ## The kinds -/

/-- What the consumers of a bar key on, and its volume. -/
def BarPoint.entry (bar : BarPoint) : ℤ × ℚ := (bar.openTime, bar.volume)

/-- What the consumers of a footprint key on, and its volume. -/
def FootprintPoint.entry (p : FootprintPoint) : ℤ × ℚ := (p.openTime, p.volume)

/-- The current bar is the last emission, and no bar was opened after `lastEmittedOpenTime`. -/
def CurrentIs (current : Option BarPoint) (lastEmittedOpenTime : ℤ) (last : Option (ℤ × ℚ)) :
    Prop :=
  (∀ bar, current = some bar → last = some bar.entry) ∧
    ∀ b, last = some b → b.1 ≤ lastEmittedOpenTime

/-- A machine whose bars come from `openOrUpdate`, and are then kept or closed, books volume. -/
theorem books_of_openOrUpdate {σ : Type} {M : Mealy σ Event BarPoint}
    (current : σ → Option BarPoint) (lastEmittedOpenTime : σ → ℤ)
    (hstep : ∀ s exchange symbol point, M.step s (.trade exchange symbol point) = (s, none) ∨
      ∃ s', M.step s (.trade exchange symbol point) =
          (s', some (openOrUpdate (current s) (lastEmittedOpenTime s) point).1) ∧
        lastEmittedOpenTime s' = (openOrUpdate (current s) (lastEmittedOpenTime s) point).2 ∧
        (current s' = none ∨
          current s' = some (openOrUpdate (current s) (lastEmittedOpenTime s) point).1)) :
    Books M BarPoint.entry fun s last => CurrentIs (current s) (lastEmittedOpenTime s) last where
  silent := by
    intro s last exchange symbol point h hout
    rcases hstep s exchange symbol point with heq | ⟨s', heq, -⟩
    · rwa [heq]
    · rw [heq] at hout
      cases hout
  booked := by
    intro s last exchange symbol point e h hout
    rcases hstep s exchange symbol point with heq | ⟨s', heq, hlast, hcur⟩
    · rw [heq] at hout
      cases hout
    · rw [heq] at hout ⊢
      obtain rfl := Option.some.inj hout
      have hbar : ∀ bar, current s' = some bar →
          bar = (openOrUpdate (current s) (lastEmittedOpenTime s) point).1 := by
        intro bar hbar
        rcases hcur with hcur | hcur
        · rw [hcur] at hbar
          cases hbar
        · exact Option.some.inj (hbar.symm.trans hcur)
      cases hbefore : current s with
      | none =>
        simp only [hbefore, openOrUpdate] at hlast hbar ⊢
        refine ⟨⟨fun bar h' => by rw [hbar bar h'], ?_⟩, Or.inr ⟨fun b hb => ?_, rfl⟩⟩
        · rintro b ⟨⟩
          exact hlast.ge
        · exact (h.2 b hb).trans_lt (lt_openTimeAfter _ _)
      | some bar₀ =>
        have hcurrent := h.1 bar₀ hbefore
        simp only [hbefore, openOrUpdate] at hlast hbar ⊢
        refine ⟨⟨fun bar h' => by rw [hbar bar h'], ?_⟩, Or.inl ⟨bar₀.entry, hcurrent, rfl⟩⟩
        rintro b ⟨⟩
        exact (h.2 bar₀.entry hcurrent).trans hlast.ge

theorem TradeToTickBarDerived.books : Books TradeToTickBarDerived.machine BarPoint.entry
    fun s last => CurrentIs s.current s.lastEmittedOpenTime last := by
  apply books_of_openOrUpdate
  intro s exchange symbol point
  by_cases hoff : s.n = 0
  · exact Or.inl (if_pos hoff)
  · have hstep : TradeToTickBarDerived.machine.step s (.trade exchange symbol point) =
        s.foldTrade point := if_neg hoff
    rw [hstep, TradeToTickBarDerived.foldTrade]
    right
    dsimp only
    split_ifs
    · exact ⟨_, rfl, rfl, Or.inl rfl⟩
    · exact ⟨_, rfl, rfl, Or.inr rfl⟩
    · exact ⟨_, rfl, rfl, Or.inl rfl⟩
    · exact ⟨_, rfl, rfl, Or.inr rfl⟩

theorem TradeToImbalanceDerived.books (signed : TradePoint → ℚ) :
    Books (TradeToImbalanceDerived.machine signed) BarPoint.entry
      fun s last => CurrentIs s.current s.lastEmittedOpenTime last := by
  apply books_of_openOrUpdate
  intro s exchange symbol point
  by_cases hoff : s.alpha = 0 ∨ s.minTicks = 0
  · exact Or.inl (if_pos hoff)
  · have hstep : (TradeToImbalanceDerived.machine signed).step s (.trade exchange symbol point) =
        s.foldSigned signed point := if_neg hoff
    rw [hstep, TradeToImbalanceDerived.foldSigned]
    right
    dsimp only
    by_cases hclose : s.closeThreshold ≤
        |if s.current.isNone then signed point else s.theta + signed point|
    · rw [if_pos hclose]
      exact ⟨_, rfl, rfl, Or.inl rfl⟩
    · rw [if_neg hclose]
      exact ⟨_, rfl, rfl, Or.inr rfl⟩

theorem TradeToRunBarDerived.books : Books TradeToRunBarDerived.machine BarPoint.entry
    fun s last => CurrentIs s.current s.lastEmittedOpenTime last := by
  apply books_of_openOrUpdate
  intro s exchange symbol point
  by_cases hoff : s.alpha = 0 ∨ s.minTicks = 0
  · exact Or.inl (if_pos hoff)
  · have hstep : TradeToRunBarDerived.machine.step s (.trade exchange symbol point) =
        s.foldTrade point := if_neg hoff
    rw [hstep, TradeToRunBarDerived.foldTrade]
    right
    dsimp only
    by_cases hclose : max (s.expectedRun * s.expectedTicks) 2 ≤
        ((max (s.runs point.side).1 (s.runs point.side).2 : ℕ) : ℚ)
    · rw [closeThreshold, if_pos hclose]
      exact ⟨_, rfl, rfl, Or.inl rfl⟩
    · rw [closeThreshold, if_neg hclose]
      exact ⟨_, rfl, rfl, Or.inr rfl⟩

theorem TradeToBarDerived.books : Books TradeToBarDerived.machine BarPoint.entry fun s last =>
    (s.current = none → last = none) ∧ ∀ bar, s.current = some bar →
      last = some bar.entry ∧ bar.openTime = s.currentBucketStart where
  silent := by
    intro s last exchange symbol point h hout
    by_cases hoff : s.intervalMs = 0
    · have hstep : TradeToBarDerived.machine.step s (.trade exchange symbol point) = (s, none) :=
        if_pos hoff
      rwa [hstep]
    · have hstep : TradeToBarDerived.machine.step s (.trade exchange symbol point) =
          s.foldTrade point := if_neg hoff
      rw [hstep, TradeToBarDerived.foldTrade] at hout
      cases hcur : s.current with
      | none => simp only [hcur, reduceCtorEq] at hout
      | some bar =>
        simp only [hcur] at hout
        split_ifs at hout
  booked := by
    intro s last exchange symbol point e h hout
    by_cases hoff : s.intervalMs = 0
    · have hstep : TradeToBarDerived.machine.step s (.trade exchange symbol point) = (s, none) :=
        if_pos hoff
      rw [hstep] at hout
      cases hout
    · have hstep : TradeToBarDerived.machine.step s (.trade exchange symbol point) =
          s.foldTrade point := if_neg hoff
      rw [hstep, TradeToBarDerived.foldTrade] at hout ⊢
      cases hcur : s.current with
      | none =>
        simp only [hcur] at hout ⊢
        obtain rfl := Option.some.inj hout
        refine ⟨⟨nofun, ?_⟩, Or.inr ⟨fun b hb => ?_, rfl⟩⟩
        · rintro bar ⟨⟩
          exact ⟨rfl, rfl⟩
        · rw [h.1 hcur] at hb
          cases hb
      | some bar =>
        obtain ⟨hlast, htime⟩ := h.2 bar hcur
        simp only [hcur] at hout ⊢
        by_cases hroll : s.currentBucketStart < bucketStart s.intervalMs point.tsMs
        · rw [if_pos hroll] at hout ⊢
          obtain rfl := Option.some.inj hout
          refine ⟨⟨nofun, ?_⟩, Or.inr ⟨fun b hb => ?_, rfl⟩⟩
          · rintro bar ⟨⟩
            exact ⟨rfl, rfl⟩
          · obtain rfl := Option.some.inj (hlast.symm.trans hb)
            exact htime.trans_lt hroll
        · rw [if_neg hroll] at hout ⊢
          obtain rfl := Option.some.inj hout
          refine ⟨⟨nofun, ?_⟩, Or.inl ⟨bar.entry, hlast, rfl⟩⟩
          rintro bar' ⟨⟩
          exact ⟨rfl, htime⟩

theorem TradeToFootprintDerived.books : Books TradeToFootprintDerived.machine FootprintPoint.entry
    fun s last => last = s.current.map FootprintPoint.entry where
  silent := by
    intro s last exchange symbol point h hout
    by_cases hoff : s.intervalMs = 0
    · have hstep : TradeToFootprintDerived.machine.step s (.trade exchange symbol point) =
          (s, none) := if_pos hoff
      rwa [hstep]
    · have hstep : TradeToFootprintDerived.machine.step s (.trade exchange symbol point) =
          s.foldTrade point := if_neg hoff
      rw [hstep, TradeToFootprintDerived.foldTrade] at hout
      cases hcur : s.current with
      | none => simp only [hcur, reduceCtorEq] at hout
      | some p =>
        simp only [hcur] at hout
        split_ifs at hout
  booked := by
    intro s last exchange symbol point e h hout
    by_cases hoff : s.intervalMs = 0
    · have hstep : TradeToFootprintDerived.machine.step s (.trade exchange symbol point) =
          (s, none) := if_pos hoff
      rw [hstep] at hout
      cases hout
    · have hstep : TradeToFootprintDerived.machine.step s (.trade exchange symbol point) =
          s.foldTrade point := if_neg hoff
      rw [hstep, TradeToFootprintDerived.foldTrade] at hout ⊢
      cases hcur : s.current with
      | none =>
        simp only [hcur] at hout h ⊢
        obtain rfl := Option.some.inj hout
        refine ⟨rfl, Or.inr ⟨fun b hb => ?_, rfl⟩⟩
        rw [h] at hb
        cases hb
      | some p =>
        simp only [hcur] at hout h ⊢
        by_cases hroll : p.openTime < bucketStart s.intervalMs point.tsMs
        · rw [if_pos hroll] at hout ⊢
          obtain rfl := Option.some.inj hout
          refine ⟨rfl, Or.inr ⟨fun b hb => ?_, rfl⟩⟩
          obtain rfl := Option.some.inj (h.symm.trans hb)
          exact hroll
        · rw [if_neg hroll] at hout ⊢
          obtain rfl := Option.some.inj hout
          exact ⟨rfl, Or.inl ⟨p.entry, h, rfl⟩⟩

/-- The trade-dependent kinds whose points are bars with a volume. -/
inductive TradeBarKind
  | kline (interval : KlineInterval)
  | tickBar (n : ℕ)
  | footprint (interval : KlineInterval)
  | tickImbalanceBar (alphaX100 minTicks : ℕ)
  | volumeImbalanceBar (alphaX100 minTicks : ℕ)
  | runBar (alphaX100 minTicks : ℕ)

/-- The open time and the volume of every point that the kind emits for the trades. -/
def TradeBarKind.emitted (exchange : ExchangeId) (symbol : String) (trades : List TradePoint) :
    TradeBarKind → List (ℤ × ℚ)
  | .kline interval =>
    (TradeToBarDerived.machine.emitted (.newForKey interval)
      (trades.map (.trade exchange symbol))).map BarPoint.entry
  | .tickBar n =>
    (TradeToTickBarDerived.machine.emitted (.newForKey n)
      (trades.map (.trade exchange symbol))).map BarPoint.entry
  | .footprint interval =>
    (TradeToFootprintDerived.machine.emitted (.newForKey interval)
      (trades.map (.trade exchange symbol))).map FootprintPoint.entry
  | .tickImbalanceBar alphaX100 minTicks =>
    (TradeToTickImbalanceDerived.machine.emitted (.newForKey alphaX100 minTicks)
      (trades.map (.trade exchange symbol))).map BarPoint.entry
  | .volumeImbalanceBar alphaX100 minTicks =>
    (TradeToVolumeImbalanceDerived.machine.emitted (.newForKey alphaX100 minTicks)
      (trades.map (.trade exchange symbol))).map BarPoint.entry
  | .runBar alphaX100 minTicks =>
    (TradeToRunBarDerived.machine.emitted (.newForKey alphaX100 minTicks)
      (trades.map (.trade exchange symbol))).map BarPoint.entry

/-- The volume of all bars, each as it was emitted last. -/
def TradeBarKind.volume (exchange : ExchangeId) (symbol : String) (trades : List TradePoint)
    (kind : TradeBarKind) : ℚ :=
  ((lastWins Prod.fst (kind.emitted exchange symbol trades)).map Prod.snd).sum

/-- **Main theorem.** No kind shows more volume than it was fed. -/
theorem volume_bars_le (exchange : ExchangeId) (symbol : String) {trades : List TradePoint}
    (hquantity : ∀ p ∈ trades, 0 ≤ p.quantity) (kind : TradeBarKind) :
    kind.volume exchange symbol trades ≤ (trades.map TradePoint.quantity).sum := by
  have hcurrent : CurrentIs none 0 none := ⟨nofun, nofun⟩
  cases kind with
  | kline interval =>
    have hcur : (TradeToBarDerived.newForKey interval).current = none := rfl
    refine TradeToBarDerived.books.volume_le ⟨fun _ => rfl, fun bar hbar => ?_⟩ exchange symbol
      hquantity
    cases hcur.symm.trans hbar
  | tickBar n => exact TradeToTickBarDerived.books.volume_le hcurrent exchange symbol hquantity
  | footprint interval =>
    exact TradeToFootprintDerived.books.volume_le rfl exchange symbol hquantity
  | tickImbalanceBar alphaX100 minTicks =>
    exact (TradeToImbalanceDerived.books signedTick).volume_le hcurrent exchange symbol hquantity
  | volumeImbalanceBar alphaX100 minTicks =>
    exact (TradeToImbalanceDerived.books signedVolume).volume_le hcurrent exchange symbol hquantity
  | runBar alphaX100 minTicks =>
    exact TradeToRunBarDerived.books.volume_le hcurrent exchange symbol hquantity

end Digdigdig3.Derived
