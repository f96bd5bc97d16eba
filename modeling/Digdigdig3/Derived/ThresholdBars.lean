import Digdigdig3.Derived.KlineDelta
import Digdigdig3.Lib.Segmentation
import Digdigdig3.Lib.Upsert

/-!
# Range, tick, volume and dollar bars

The four threshold bars of `derived.rs` emit their current bar on every trade.
Stored with last-write-wins on `open_time`, the emissions are one bar per block of a
partition of the trades into maximal blocks.

* `IsBars`, `IsBars.unique`: what the stored bars must be, given the closing rule, and that
  this leaves no choice.
* `closingBar`: the state machine that the tick, volume and dollar bars share.
* `threshold_bars_partition`: all four store exactly the bars of their partition.
* `le_of_mem_openTimes`: how far the patched `open_time` can run ahead of the clock.
-/

namespace Digdigdig3.Derived

/-! ## Bars -/

/-- The bar that the trade `point` opens: the struct literal of the four machines
    (lines 555–564, 583–592, 645–654, 744–753 and 1955–1964). -/
def openBar (openTime : ℤ) (point : TradePoint) : BarPoint :=
  { openTime := openTime, open_ := point.price, high := point.price, low := point.price,
    close := point.price, volume := point.quantity,
    quoteVolume := point.price * point.quantity, tradesCount := 1 }

/-- The in-place update (lines 574–579, and alike in the other machines). -/
def BarPoint.addTrade (bar : BarPoint) (point : TradePoint) : BarPoint :=
  { bar with
    high := if bar.high < point.price then point.price else bar.high
    low := if point.price < bar.low then point.price else bar.low
    close := point.price
    volume := bar.volume + point.quantity
    quoteVolume := bar.quoteVolume + point.price * point.quantity
    tradesCount := bar.tradesCount + 1 }

/-- `TradeToRangeBarDerived` (lines 489–501); `kline_state` is kept by `klineSufficient`.
    `range = 0` means disabled. -/
structure TradeToRangeBarDerived where
  range : ℚ
  current : Option BarPoint
  lastEmittedOpenTime : ℤ

namespace TradeToRangeBarDerived

/-- `new_for_key` for `Kind::RangeBar(r)` (lines 512–518). -/
def newForKey (r : ℕ) : TradeToRangeBarDerived :=
  { range := if 0 < r then (r : ℚ) / 10 ^ 8 else 0, current := none, lastEmittedOpenTime := 0 }

/-- `fold_trade` (lines 541–597): the close condition is tested before the update, and
    the crossing trade opens the next bar. -/
def foldTrade (s : TradeToRangeBarDerived) (point : TradePoint) :
    TradeToRangeBarDerived × Option BarPoint :=
  match s.current with
  | some bar =>
    if s.range ≤ |point.price - bar.open_| then
      let newOpenTime := openTimeAfter point.tsMs s.lastEmittedOpenTime
      let bar := openBar newOpenTime point
      ({ s with lastEmittedOpenTime := newOpenTime, current := some bar }, some bar)
    else
      let bar := bar.addTrade point
      ({ s with current := some bar }, some bar)
  | none =>
    let openTime := openTimeAfter point.tsMs s.lastEmittedOpenTime
    let bar := openBar openTime point
    ({ s with lastEmittedOpenTime := openTime, current := some bar }, some bar)

/-- `on_upstream_event` (lines 524–538). -/
def machine : Mealy (KlineDeltaState × TradeToRangeBarDerived) Event BarPoint :=
  klineSufficient (fun s => decide (s.range = 0)) foldTrade

end TradeToRangeBarDerived

/-- The bar after one more trade and its `last_emitted_open_time`: the `if
    self.current.is_none()` statement of the tick, volume and dollar bars (lines 642–663,
    741–761 and 1952–1973). -/
def openOrUpdate (current : Option BarPoint) (lastEmittedOpenTime : ℤ) (point : TradePoint) :
    BarPoint × ℤ :=
  match current with
  | none =>
    let openTime := openTimeAfter point.tsMs lastEmittedOpenTime
    (openBar openTime point, openTime)
  | some bar => (bar.addTrade point, lastEmittedOpenTime)

/-- `TradeToTickBarDerived` (lines 613–622). `n = 0` means disabled. -/
structure TradeToTickBarDerived where
  n : ℕ
  current : Option BarPoint
  count : ℕ
  lastEmittedOpenTime : ℤ

namespace TradeToTickBarDerived

/-- `new_for_key` for `Kind::TickBar(n)` (lines 629–635). -/
def newForKey (n : ℕ) : TradeToTickBarDerived :=
  { n := n, current := none, count := 0, lastEmittedOpenTime := 0 }

/-- The trade branch of `on_upstream_event` (lines 640–674). -/
def foldTrade (s : TradeToTickBarDerived) (point : TradePoint) :
    TradeToTickBarDerived × Option BarPoint :=
  let count := if s.current.isNone then 1 else s.count + 1
  let (bar, lastEmittedOpenTime) := openOrUpdate s.current s.lastEmittedOpenTime point
  if s.n ≤ count then
    ({ s with current := none, count := 0, lastEmittedOpenTime := lastEmittedOpenTime }, some bar)
  else
    ({ s with current := some bar, count := count, lastEmittedOpenTime := lastEmittedOpenTime },
      some bar)

/-- `on_upstream_event` (lines 636–675). -/
def machine : Mealy TradeToTickBarDerived Event BarPoint :=
  ⟨fun s ev =>
    if s.n = 0 then (s, none)
    else
      match ev with
      | .trade _ _ point => s.foldTrade point
      | _ => (s, none)⟩

end TradeToTickBarDerived

/-- `TradeToVolumeBarDerived` (lines 693–703). `threshold = 0` means disabled. -/
structure TradeToVolumeBarDerived where
  threshold : ℚ
  current : Option BarPoint
  lastEmittedOpenTime : ℤ

namespace TradeToVolumeBarDerived

/-- `new_for_key` for `Kind::VolumeBar(v)` (lines 714–720). -/
def newForKey (v : ℕ) : TradeToVolumeBarDerived :=
  { threshold := if 0 < v then (v : ℚ) / 10 ^ 8 else 0, current := none,
    lastEmittedOpenTime := 0 }

/-- `fold_trade` (lines 739–773). -/
def foldTrade (s : TradeToVolumeBarDerived) (point : TradePoint) :
    TradeToVolumeBarDerived × Option BarPoint :=
  let (bar, lastEmittedOpenTime) := openOrUpdate s.current s.lastEmittedOpenTime point
  if s.threshold ≤ bar.volume then
    ({ s with current := none, lastEmittedOpenTime := lastEmittedOpenTime }, some bar)
  else ({ s with current := some bar, lastEmittedOpenTime := lastEmittedOpenTime }, some bar)

/-- `on_upstream_event` (lines 725–736). -/
def machine : Mealy (KlineDeltaState × TradeToVolumeBarDerived) Event BarPoint :=
  klineSufficient (fun s => decide (s.threshold = 0)) foldTrade

end TradeToVolumeBarDerived

/-- `TradeToDollarBarDerived` (lines 1898–1910). `threshold = 0` means disabled. -/
structure TradeToDollarBarDerived where
  threshold : ℚ
  cumulativeDollars : ℚ
  current : Option BarPoint
  lastEmittedOpenTime : ℤ

namespace TradeToDollarBarDerived

/-- `new_for_key` for `Kind::DollarBar { dollar_threshold }` (lines 1921–1927). -/
def newForKey (dollarThreshold : ℕ) : TradeToDollarBarDerived :=
  { threshold := dollarThreshold, cumulativeDollars := 0, current := none,
    lastEmittedOpenTime := 0 }

/-- `fold_trade` (lines 1949–1987). -/
def foldTrade (s : TradeToDollarBarDerived) (point : TradePoint) :
    TradeToDollarBarDerived × Option BarPoint :=
  let cumulativeDollars :=
    if s.current.isNone then point.price * point.quantity
    else s.cumulativeDollars + point.price * point.quantity
  let (bar, lastEmittedOpenTime) := openOrUpdate s.current s.lastEmittedOpenTime point
  if s.threshold ≤ cumulativeDollars then
    ({ s with current := none, cumulativeDollars := 0,
              lastEmittedOpenTime := lastEmittedOpenTime }, some bar)
  else
    ({ s with current := some bar, cumulativeDollars := cumulativeDollars,
              lastEmittedOpenTime := lastEmittedOpenTime }, some bar)

/-- `on_upstream_event` (lines 1933–1945). -/
def machine : Mealy (KlineDeltaState × TradeToDollarBarDerived) Event BarPoint :=
  klineSufficient (fun s => decide (s.threshold = 0)) foldTrade

end TradeToDollarBarDerived

/-! ## The partition the bars must form -/

/-- The range rule: a trade less than `range` away from the bar's open joins it. -/
def rangeJoins (range : ℚ) (block : List TradePoint) (point : TradePoint) : Bool :=
  block.head?.all fun first => decide (|point.price - first.price| < range)

/-- The tick rule: a bar of fewer than `n` trades takes the next one. -/
def tickJoins (n : ℕ) (block : List TradePoint) (_ : TradePoint) : Bool := decide (block.length < n)

/-- The volume rule: a bar below the threshold takes the next trade. -/
def volumeJoins (threshold : ℚ) (block : List TradePoint) (_ : TradePoint) : Bool :=
  decide ((block.map (·.quantity)).sum < threshold)

/-- The dollar rule: a bar below the threshold takes the next trade. -/
def dollarJoins (threshold : ℚ) (block : List TradePoint) (_ : TradePoint) : Bool :=
  decide ((block.map fun p => p.price * p.quantity).sum < threshold)

/-- `bar` summarises the trades of `block`. -/
structure Summarises (block : List TradePoint) (bar : BarPoint) : Prop where
  open_eq : block.head?.map (·.price) = some bar.open_
  close_eq : block.getLast?.map (·.price) = some bar.close
  high_greatest : IsGreatest {price | ∃ p ∈ block, p.price = price} bar.high
  low_least : IsLeast {price | ∃ p ∈ block, p.price = price} bar.low
  volume_eq : bar.volume = (block.map (·.quantity)).sum
  quoteVolume_eq : bar.quoteVolume = (block.map fun p => p.price * p.quantity).sum
  tradesCount_eq : bar.tradesCount = block.length

/-- The open times of blocks that follow a bar opened at `last`: the time of the first
    trade, or 1 ms after the bar before when that is later. -/
def openTimes (last : ℤ) : List (List TradePoint) → List ℤ
  | [] => []
  | block :: blocks =>
    let openTime := openTimeAfter ((block.head?.map (·.tsMs)).getD 0) last
    openTime :: openTimes openTime blocks

/-- `bars` are one bar for each block of the partition of `trades` by the rule `joins`,
    with strictly increasing open times. -/
structure IsBars (joins : List TradePoint → TradePoint → Bool) (trades : List TradePoint)
    (bars : List BarPoint) : Prop where
  partition : ∃ blocks, IsSegmentation joins blocks trades ∧ List.Forall₂ Summarises blocks bars ∧
    bars.map (·.openTime) = openTimes 0 blocks
  increasing : bars.Pairwise (·.openTime < ·.openTime)

/-- The bars stored for the blocks, the latest opened at `last`. -/
structure BarsOf (blocks : List (List TradePoint)) (last : ℤ) (bars : List BarPoint) : Prop where
  summaries : List.Forall₂ Summarises blocks bars
  stamped : bars.map (·.openTime) = openTimes 0 blocks
  last_eq : ((bars.map (·.openTime)).getLast?).getD 0 = last

theorem openTimes_concat (last : ℤ) (blocks : List (List TradePoint)) (block : List TradePoint) :
    openTimes last (blocks ++ [block]) = openTimes last blocks ++
      [openTimeAfter ((block.head?.map (·.tsMs)).getD 0)
        ((openTimes last blocks).getLast?.getD last)] := by
  induction blocks generalizing last with
  | nil => rfl
  | cons b blocks ih =>
    simp only [List.cons_append, openTimes, ih, List.getLast?_cons, Option.getD_some]

theorem lt_of_mem_openTimes {last t : ℤ} {blocks : List (List TradePoint)}
    (h : t ∈ openTimes last blocks) : last < t := by
  induction blocks generalizing last with
  | nil => simp [openTimes] at h
  | cons b blocks ih =>
    rcases List.mem_cons.mp h with rfl | h
    · exact lt_openTimeAfter _ last
    · exact (lt_openTimeAfter _ last).trans (ih h)

theorem pairwise_openTimes (last : ℤ) (blocks : List (List TradePoint)) :
    (openTimes last blocks).Pairwise (· < ·) := by
  induction blocks generalizing last with
  | nil => exact List.Pairwise.nil
  | cons b blocks ih => exact List.pairwise_cons.mpr ⟨fun t ht => lt_of_mem_openTimes ht, ih _⟩

/-- The patched open times run ahead of the clock by less than the number of blocks, so
    `i64` addition does not overflow before the clock is that close to `i64::MAX`. -/
theorem le_of_mem_openTimes {last bound t : ℤ} {blocks : List (List TradePoint)}
    (hlast : last < bound) (hts : ∀ b ∈ blocks, ∀ p ∈ b, p.tsMs ≤ bound) (hbound : 0 ≤ bound)
    (h : t ∈ openTimes last blocks) : t < bound + blocks.length := by
  induction blocks generalizing last bound with
  | nil => simp [openTimes] at h
  | cons b blocks ih =>
    have hhead : (b.head?.map (·.tsMs)).getD 0 ≤ bound := by
      cases b with
      | nil => exact hbound
      | cons p b => exact hts (p :: b) (by simp) p (by simp)
    have hopen : openTimeAfter ((b.head?.map (·.tsMs)).getD 0) last ≤ bound :=
      max_le hhead hlast
    rcases List.mem_cons.mp h with rfl | h
    · simp only [List.length_cons, Nat.cast_succ]
      omega
    · have hrest : t < bound + 1 + blocks.length := ih (by omega)
        (fun b hb p hp => (hts b (by simp [hb]) p hp).trans (by omega)) (by omega) h
      simp only [List.length_cons, Nat.cast_succ]
      omega

theorem summarises_openBar (openTime : ℤ) (point : TradePoint) :
    Summarises [point] (openBar openTime point) where
  open_eq := rfl
  close_eq := rfl
  high_greatest := by simp [IsGreatest, upperBounds, openBar]
  low_least := by simp [IsLeast, lowerBounds, openBar]
  volume_eq := by simp [openBar]
  quoteVolume_eq := by simp [openBar]
  tradesCount_eq := rfl

theorem Summarises.ne_nil {block : List TradePoint} {bar : BarPoint} (h : Summarises block bar) :
    block ≠ [] := by
  rintro rfl
  simpa using h.open_eq

/-- A block and an open time leave no choice for the bar. -/
theorem Summarises.unique {block : List TradePoint} {bar bar' : BarPoint}
    (h : Summarises block bar) (h' : Summarises block bar') (ht : bar.openTime = bar'.openTime) :
    bar = bar' := by
  have hopen : bar.open_ = bar'.open_ := Option.some.inj (h.open_eq.symm.trans h'.open_eq)
  have hclose : bar.close = bar'.close := Option.some.inj (h.close_eq.symm.trans h'.close_eq)
  exact BarPoint.ext ht hopen (h.high_greatest.unique h'.high_greatest)
    (h.low_least.unique h'.low_least) hclose (h.volume_eq.trans h'.volume_eq.symm)
    (h.quoteVolume_eq.trans h'.quoteVolume_eq.symm) (h.tradesCount_eq.trans h'.tradesCount_eq.symm)

/-- The closing rule and the trades leave no choice for the bars. -/
theorem IsBars.unique {joins : List TradePoint → TradePoint → Bool} {trades : List TradePoint}
    {bars bars' : List BarPoint} (h : IsBars joins trades bars) (h' : IsBars joins trades bars') :
    bars = bars' := by
  obtain ⟨blocks, hcut, hsum, ht⟩ := h.partition
  obtain ⟨blocks', hcut', hsum', ht'⟩ := h'.partition
  rw [hcut'.eq_segments, ← hcut.eq_segments] at hsum' ht'
  rw [← ht'] at ht
  clear h h' hcut hcut' ht'
  induction hsum generalizing bars' with
  | nil => exact (List.forall₂_nil_left_iff.mp hsum').symm
  | cons hbar _ ih =>
    cases hsum' with
    | cons hbar' hrest' =>
      obtain ⟨hhead, htail⟩ := List.cons.inj ht
      rw [hbar.unique hbar' hhead, ih htail hrest']

@[simp] theorem addTrade_openTime (bar : BarPoint) (point : TradePoint) :
    (bar.addTrade point).openTime = bar.openTime := rfl

theorem addTrade_high (bar : BarPoint) (point : TradePoint) :
    (bar.addTrade point).high = max point.price bar.high := by
  simp only [BarPoint.addTrade, max_def]
  split_ifs <;> linarith

theorem addTrade_low (bar : BarPoint) (point : TradePoint) :
    (bar.addTrade point).low = min point.price bar.low := by
  simp only [BarPoint.addTrade, min_def]
  split_ifs <;> linarith

theorem prices_concat (block : List TradePoint) (point : TradePoint) :
    {price | ∃ p ∈ block ++ [point], p.price = price} =
      insert point.price {price | ∃ p ∈ block, p.price = price} := by
  ext price
  constructor
  · rintro ⟨p, hp, rfl⟩
    rcases List.mem_append.mp hp with hp | hp
    · exact Or.inr ⟨p, hp, rfl⟩
    · exact Or.inl (by rw [List.mem_singleton.mp hp])
  · rintro (rfl | ⟨p, hp, rfl⟩)
    · exact ⟨point, by simp, rfl⟩
    · exact ⟨p, by simp [hp], rfl⟩

theorem Summarises.addTrade {block : List TradePoint} {bar : BarPoint} (h : Summarises block bar)
    (point : TradePoint) : Summarises (block ++ [point]) (bar.addTrade point) where
  open_eq := by
    rw [List.head?_append_of_ne_nil _ h.ne_nil]
    exact h.open_eq
  close_eq := by simp [BarPoint.addTrade]
  high_greatest := by
    rw [prices_concat, addTrade_high]
    exact h.high_greatest.insert point.price
  low_least := by
    rw [prices_concat, addTrade_low]
    exact h.low_least.insert point.price
  volume_eq := by simp [BarPoint.addTrade, h.volume_eq]
  quoteVolume_eq := by simp [BarPoint.addTrade, h.quoteVolume_eq]
  tradesCount_eq := by simp [BarPoint.addTrade, h.tradesCount_eq]

/-! ## Storing one more emission -/

section Store

variable {blocks : List (List TradePoint)} {block : List TradePoint} {bars emitted : List BarPoint}
  {bar : BarPoint} {last : ℤ} {joins : List TradePoint → TradePoint → Bool}
  {trades : List TradePoint}

theorem forall₂_concat_iff {α β : Type*} {R : α → β → Prop} {as : List α} {bs : List β} {a : α}
    {b : β} : List.Forall₂ R (as ++ [a]) (bs ++ [b]) ↔ List.Forall₂ R as bs ∧ R a b := by
  constructor
  · intro h
    have hlen : bs.length = as.length := by simpa using h.length_eq.symm
    have hfront := List.forall₂_take_append _ _ _ h
    have hback := List.forall₂_drop_append _ _ _ h
    rw [hlen, List.take_left] at hfront
    rw [hlen, List.drop_left] at hback
    exact ⟨hfront, by simpa using hback⟩
  · rintro ⟨h, hab⟩
    exact List.rel_append h (.cons hab .nil)

theorem BarsOf.nil : BarsOf [] 0 [] := ⟨List.Forall₂.nil, rfl, rfl⟩

theorem BarsOf.increasing (h : BarsOf blocks last bars) :
    bars.Pairwise (·.openTime < ·.openTime) := by
  have := pairwise_openTimes 0 blocks
  rw [← h.stamped] at this
  exact List.pairwise_map.mp this

theorem BarsOf.openTime_le (h : BarsOf blocks last bars) : ∀ b ∈ bars, b.openTime ≤ last := by
  intro b hb
  obtain ⟨front, x, rfl⟩ : ∃ front x, bars = front ++ [x] := by
    rcases List.eq_nil_or_concat bars with rfl | ⟨front, x, rfl⟩
    · simp at hb
    · exact ⟨front, x, by simp⟩
  have hlast : x.openTime = last := by simpa using h.last_eq
  rcases List.mem_append.mp hb with hb | hb
  · exact hlast ▸ ((List.pairwise_append.mp h.increasing).2.2 b hb x (by simp)).le
  · rw [List.mem_singleton.mp hb, hlast]

/-- There is a last bar exactly when there is a last block, which it summarises. -/
theorem BarsOf.last_cases (h : BarsOf blocks last bars) :
    (blocks = [] ∧ bars = []) ∨
      ∃ blocks' block bars' bar, blocks = blocks' ++ [block] ∧ bars = bars' ++ [bar] ∧
        Summarises block bar := by
  rcases List.eq_nil_or_concat blocks with rfl | ⟨blocks', block, rfl⟩
  · exact Or.inl ⟨rfl, List.forall₂_nil_left_iff.mp h.summaries⟩
  · rcases List.eq_nil_or_concat bars with rfl | ⟨bars', bar, rfl⟩
    · have := h.summaries.length_eq
      simp at this
    · rw [List.concat_eq_append, List.concat_eq_append] at h ⊢
      exact Or.inr ⟨blocks', block, bars', bar, rfl, rfl, (forall₂_concat_iff.mp h.summaries).2⟩

/-- A trade that starts a block: the bar it opens is stored behind the others. -/
theorem BarsOf.push (h : BarsOf blocks last (lastWins BarPoint.openTime emitted))
    (point : TradePoint) :
    BarsOf (blocks ++ [[point]]) (openTimeAfter point.tsMs last)
        (lastWins BarPoint.openTime (emitted ++ [openBar (openTimeAfter point.tsMs last) point])) ∧
      (lastWins BarPoint.openTime
        (emitted ++ [openBar (openTimeAfter point.tsMs last) point])).getLast? =
        some (openBar (openTimeAfter point.tsMs last) point) := by
  have hlt : ∀ b ∈ lastWins BarPoint.openTime emitted,
      b.openTime < openTimeAfter point.tsMs last := fun b hb =>
    (h.openTime_le b hb).trans_lt (lt_openTimeAfter point.tsMs last)
  rw [lastWins_concat, upsertBy_of_new _ fun b hb => (hlt b hb).ne]
  refine ⟨⟨?_, ?_, by simp [openBar]⟩, by simp⟩
  · exact forall₂_concat_iff.mpr ⟨h.summaries, summarises_openBar _ point⟩
  · rw [openTimes_concat, List.map_append, h.stamped, ← h.last_eq, h.stamped]
    rfl

/-- A trade that joins the last block: its bar is overwritten in place. -/
theorem BarsOf.extend (h : BarsOf (blocks ++ [block]) last (lastWins BarPoint.openTime emitted))
    (hbar : (lastWins BarPoint.openTime emitted).getLast? = some bar) (point : TradePoint) :
    BarsOf (blocks ++ [block ++ [point]]) last
        (lastWins BarPoint.openTime (emitted ++ [bar.addTrade point])) ∧
      (lastWins BarPoint.openTime (emitted ++ [bar.addTrade point])).getLast? =
        some (bar.addTrade point) := by
  obtain ⟨bars, hbars⟩ := List.getLast?_eq_some_iff.mp hbar
  rw [hbars] at h
  obtain ⟨hfront, hsum⟩ := forall₂_concat_iff.mp h.summaries
  rw [lastWins_concat, hbars, upsertBy_of_last BarPoint.openTime (addTrade_openTime bar point).symm]
  refine ⟨⟨forall₂_concat_iff.mpr ⟨hfront, hsum.addTrade point⟩, ?_, ?_⟩, by simp⟩
  · have hhead : (block ++ [point]).head? = block.head? := List.head?_append_of_ne_nil _ hsum.ne_nil
    have hstamped := h.stamped
    rw [openTimes_concat] at hstamped ⊢
    rw [hhead]
    simpa using hstamped
  · simpa using h.last_eq

theorem BarsOf.open (h : BarsOf (segments joins trades) last (lastWins BarPoint.openTime emitted))
    (point : TradePoint) (hj : ∀ b ∈ (segments joins trades).getLast?, joins b point = false) :
    BarsOf (segments joins (trades ++ [point])) (openTimeAfter point.tsMs last)
        (lastWins BarPoint.openTime (emitted ++ [openBar (openTimeAfter point.tsMs last) point])) ∧
      (lastWins BarPoint.openTime
        (emitted ++ [openBar (openTimeAfter point.tsMs last) point])).getLast? =
        some (openBar (openTimeAfter point.tsMs last) point) := by
  rw [segments_concat, addToLast_of_not_joins joins hj]
  exact h.push point

theorem BarsOf.addTrade
    (h : BarsOf (segments joins trades) last (lastWins BarPoint.openTime emitted))
    (hbar : (lastWins BarPoint.openTime emitted).getLast? = some bar) (point : TradePoint)
    (hj : ∀ b ∈ (segments joins trades).getLast?, joins b point = true) :
    BarsOf (segments joins (trades ++ [point])) last
        (lastWins BarPoint.openTime (emitted ++ [bar.addTrade point])) ∧
      (lastWins BarPoint.openTime (emitted ++ [bar.addTrade point])).getLast? =
        some (bar.addTrade point) := by
  rcases h.last_cases with ⟨-, hnil⟩ | ⟨blocks, block, -, -, hblocks, -, -⟩
  · simp [hnil] at hbar
  have hjoin : joins block point = true := hj block (by simp [hblocks])
  rw [hblocks] at h
  rw [segments_concat, hblocks, addToLast_concat, if_pos hjoin]
  exact h.extend hbar point

theorem BarsOf.isBars (h : BarsOf (segments joins trades) last bars) :
    IsBars joins trades bars where
  partition := ⟨_, isSegmentation_segments trades, h.summaries, h.stamped⟩
  increasing := h.increasing

end Store

/-! ## Range bars -/

namespace TradeToRangeBarDerived

/-- The stored bars are those of the blocks, and `current` is the last of them. -/
structure Invariant (range : ℚ) (trades : List TradePoint) (s : TradeToRangeBarDerived)
    (emitted : List BarPoint) : Prop where
  range_eq : s.range = range
  bars : BarsOf (segments (rangeJoins range) trades) s.lastEmittedOpenTime
    (lastWins BarPoint.openTime emitted)
  current_eq : s.current = (lastWins BarPoint.openTime emitted).getLast?

/-- The range rule read off the bar of the block. -/
theorem rangeJoins_eq {range : ℚ} {block : List TradePoint} {bar : BarPoint}
    (h : Summarises block bar) (point : TradePoint) :
    rangeJoins range block point = decide (|point.price - bar.open_| < range) := by
  obtain ⟨first, rest, rfl⟩ := List.exists_cons_of_ne_nil h.ne_nil
  have hopen : first.price = bar.open_ := by simpa using h.open_eq
  simp [rangeJoins, hopen]

theorem Invariant.step {range : ℚ} {trades : List TradePoint} {s : TradeToRangeBarDerived}
    {emitted : List BarPoint} (h : Invariant range trades s emitted) (point : TradePoint) :
    Invariant range (trades ++ [point]) (s.foldTrade point).1
      (emitted ++ (s.foldTrade point).2.toList) := by
  obtain ⟨rfl, hbars, hcur⟩ := h
  rcases hbars.last_cases with ⟨hblocks, hnil⟩ | ⟨blocks, block, bars, bar, hblocks, hlast, hsum⟩
  · have hopen := hbars.open point (by simp [hblocks])
    have hnone : s.current = none := by simp [hcur, hnil]
    simp only [foldTrade, hnone]
    exact ⟨rfl, hopen.1, hopen.2.symm⟩
  · have hsome : s.current = some bar := by simp [hcur, hlast]
    have hj : rangeJoins s.range block point = decide (|point.price - bar.open_| < s.range) :=
      rangeJoins_eq hsum point
    by_cases hcross : s.range ≤ |point.price - bar.open_|
    · have hopen := hbars.open point (by simp [hblocks, hj, hcross])
      simp only [foldTrade, hsome, if_pos hcross]
      exact ⟨rfl, hopen.1, hopen.2.symm⟩
    · have hadd := hbars.addTrade (hcur ▸ hsome) point (by simp [hblocks, hj, not_le.mp hcross])
      simp only [foldTrade, hsome, if_neg hcross]
      exact ⟨rfl, hadd.1, hadd.2.symm⟩

theorem isBars {range : ℚ} {s : TradeToRangeBarDerived} (hrange : s.range = range)
    (hcur : s.current = none) (hlast : s.lastEmittedOpenTime = 0) (trades : List TradePoint) :
    IsBars (rangeJoins range) trades
      (lastWins BarPoint.openTime ((Mealy.mk foldTrade).emitted s trades)) := by
  have h := (Mealy.mk foldTrade).run_invariant (P := Invariant range) (s := s)
    ⟨hrange, by rw [hlast]; exact BarsOf.nil, hcur⟩ (fun _ _ _ point ih => ih.step point) trades
  exact h.bars.isBars

end TradeToRangeBarDerived

theorem TradeToRangeBarDerived.foldTrade_range (s : TradeToRangeBarDerived) (point : TradePoint) :
    (s.foldTrade point).1.range = s.range := by
  simp only [TradeToRangeBarDerived.foldTrade]
  split
  · split_ifs <;> rfl
  · rfl

/-! ## Bars that close with the trade that fills them -/

/-- The shape the tick, volume and dollar bars share: the trade opens or updates the
    current bar, and a bar that `isFull` is closed, so that the next trade opens one. -/
def closingBar (isFull : BarPoint → Bool) : Mealy (Option BarPoint × ℤ) TradePoint BarPoint :=
  ⟨fun s point =>
    let r := openOrUpdate s.1 s.2 point
    ((if isFull r.1 then none else some r.1, r.2), some r.1)⟩

/-- The stored bars are those of the blocks, and `current` is the last one unless it is
    full. -/
structure ClosingInvariant (isFull : BarPoint → Bool)
    (joins : List TradePoint → TradePoint → Bool) (trades : List TradePoint)
    (s : Option BarPoint × ℤ) (emitted : List BarPoint) : Prop where
  bars : BarsOf (segments joins trades) s.2 (lastWins BarPoint.openTime emitted)
  current_eq : s.1 = (lastWins BarPoint.openTime emitted).getLast?.filter (fun b => !isFull b)

section Closing

variable {isFull : BarPoint → Bool} {joins : List TradePoint → TradePoint → Bool}

theorem ClosingInvariant.step
    (hrule : ∀ block bar, Summarises block bar → ∀ point, joins block point = !isFull bar)
    {trades : List TradePoint} {s : Option BarPoint × ℤ} {emitted : List BarPoint}
    (h : ClosingInvariant isFull joins trades s emitted) (point : TradePoint) :
    ClosingInvariant isFull joins (trades ++ [point]) ((closingBar isFull).step s point).1
      (emitted ++ ((closingBar isFull).step s point).2.toList) := by
  obtain ⟨hbars, hcur⟩ := h
  obtain ⟨current, last⟩ := s
  cases current with
  | none =>
    have hj : ∀ b ∈ (segments joins trades).getLast?, joins b point = false := by
      intro b hb
      rcases hbars.last_cases with ⟨hblocks, -⟩ | ⟨_, block, _, bar, hblocks, hlast, hsum⟩
      · simp [hblocks] at hb
      · obtain rfl : block = b := by simpa [hblocks] using hb
        have hfull : isFull bar = true := by simpa [hlast, Option.filter] using hcur
        simp [hrule _ bar hsum, hfull]
    have hopen := hbars.open point hj
    refine ⟨hopen.1, ?_⟩
    simp only [closingBar, openOrUpdate, Option.toList_some]
    rw [hopen.2]
    by_cases hfull : isFull (openBar (openTimeAfter point.tsMs last) point) <;>
      simp [hfull, Option.filter]
  | some bar =>
    obtain ⟨hlast, hfull⟩ := Option.filter_eq_some_iff.mp hcur.symm
    have hj : ∀ b ∈ (segments joins trades).getLast?, joins b point = true := by
      intro b hb
      rcases hbars.last_cases with ⟨hblocks, -⟩ | ⟨_, block, _, bar', hblocks, hlast', hsum⟩
      · simp [hblocks] at hb
      · obtain rfl : block = b := by simpa [hblocks] using hb
        obtain rfl : bar' = bar := by simpa [hlast'] using hlast
        rw [hrule _ _ hsum]
        exact hfull
    have hadd := hbars.addTrade hlast point hj
    refine ⟨hadd.1, ?_⟩
    simp only [closingBar, openOrUpdate, Option.toList_some]
    rw [hadd.2]
    by_cases hfull' : isFull (bar.addTrade point) <;> simp [hfull', Option.filter]

theorem isBars_closingBar
    (hrule : ∀ block bar, Summarises block bar → ∀ point, joins block point = !isFull bar)
    (trades : List TradePoint) :
    IsBars joins trades
      (lastWins BarPoint.openTime ((closingBar isFull).emitted (none, 0) trades)) := by
  have h := (closingBar isFull).run_invariant (P := ClosingInvariant isFull joins) (s := (none, 0))
    ⟨BarsOf.nil, rfl⟩ (fun _ _ _ point ih => ih.step hrule point) trades
  exact h.bars.isBars

end Closing

namespace TradeToTickBarDerived

/-- The tick bar closes a bar whose trade count has reached `n`. -/
theorem emitted_eq {n : ℕ} (trades : List TradePoint) :
    (Mealy.mk foldTrade).emitted (newForKey n) trades =
      (closingBar fun bar => decide (n ≤ bar.tradesCount)).emitted (none, 0) trades := by
  refine Mealy.emitted_eq_of_simulation (R := fun s t => s.n = n ∧ t = (s.current,
    s.lastEmittedOpenTime) ∧ ∀ bar ∈ s.current, s.count = bar.tradesCount) _ ?_
    ⟨rfl, rfl, by simp [newForKey]⟩ trades
  rintro s t point ⟨rfl, rfl, hcount⟩
  have hnext : (if s.current.isNone then 1 else s.count + 1) =
      (openOrUpdate s.current s.lastEmittedOpenTime point).1.tradesCount := by
    cases hcur : s.current with
    | none => rfl
    | some bar => simp [openOrUpdate, BarPoint.addTrade, hcount bar hcur]
  simp only [foldTrade, closingBar, hnext]
  by_cases hfull : s.n ≤ (openOrUpdate s.current s.lastEmittedOpenTime point).1.tradesCount
  · simp [hfull]
  · simp [hfull]

end TradeToTickBarDerived

namespace TradeToVolumeBarDerived

theorem foldTrade_threshold (s : TradeToVolumeBarDerived) (point : TradePoint) :
    (s.foldTrade point).1.threshold = s.threshold := by
  simp only [foldTrade]
  split_ifs <;> rfl

/-- The volume bar closes a bar whose volume has reached the threshold. -/
theorem emitted_eq {threshold : ℚ} {s : TradeToVolumeBarDerived} (hs : s.threshold = threshold)
    (hcur : s.current = none) (hlast : s.lastEmittedOpenTime = 0) (trades : List TradePoint) :
    (Mealy.mk foldTrade).emitted s trades =
      (closingBar fun bar => decide (threshold ≤ bar.volume)).emitted (none, 0) trades := by
  refine Mealy.emitted_eq_of_simulation (R := fun s t => s.threshold = threshold ∧
    t = (s.current, s.lastEmittedOpenTime)) _ ?_ ⟨hs, by rw [hcur, hlast]⟩ trades
  rintro s t point ⟨rfl, rfl⟩
  simp only [foldTrade, closingBar]
  by_cases hfull : s.threshold ≤ (openOrUpdate s.current s.lastEmittedOpenTime point).1.volume
  · simp [hfull]
  · simp [hfull]

end TradeToVolumeBarDerived

namespace TradeToDollarBarDerived

theorem foldTrade_threshold (s : TradeToDollarBarDerived) (point : TradePoint) :
    (s.foldTrade point).1.threshold = s.threshold := by
  simp only [foldTrade]
  split_ifs <;> rfl

/-- The dollar bar closes a bar whose quote volume has reached the threshold. -/
theorem emitted_eq {threshold : ℚ} {s : TradeToDollarBarDerived} (hs : s.threshold = threshold)
    (hcur : s.current = none) (hlast : s.lastEmittedOpenTime = 0) (trades : List TradePoint) :
    (Mealy.mk foldTrade).emitted s trades =
      (closingBar fun bar => decide (threshold ≤ bar.quoteVolume)).emitted (none, 0) trades := by
  refine Mealy.emitted_eq_of_simulation (R := fun s t => s.threshold = threshold ∧
    t = (s.current, s.lastEmittedOpenTime) ∧
    ∀ bar ∈ s.current, s.cumulativeDollars = bar.quoteVolume) _ ?_
    ⟨hs, by rw [hcur, hlast], by simp [hcur]⟩ trades
  rintro s t point ⟨rfl, rfl, hdollars⟩
  have hnext : (if s.current.isNone then point.price * point.quantity
      else s.cumulativeDollars + point.price * point.quantity) =
      (openOrUpdate s.current s.lastEmittedOpenTime point).1.quoteVolume := by
    cases hcur : s.current with
    | none => rfl
    | some bar => simp [openOrUpdate, BarPoint.addTrade, hdollars bar hcur]
  simp only [foldTrade, closingBar, hnext]
  by_cases hfull : s.threshold ≤
      (openOrUpdate s.current s.lastEmittedOpenTime point).1.quoteVolume
  · simp [hfull]
  · simp [hfull]

end TradeToDollarBarDerived

/-! ## All four kinds -/

theorem tickBar_emitted_trades {n : ℕ} (hn : 0 < n) (exchange : ExchangeId) (symbol : String)
    (trades : List TradePoint) :
    TradeToTickBarDerived.machine.emitted (TradeToTickBarDerived.newForKey n)
        (trades.map (.trade exchange symbol)) =
      (Mealy.mk TradeToTickBarDerived.foldTrade).emitted (TradeToTickBarDerived.newForKey n)
        trades := by
  suffices h : ∀ s : TradeToTickBarDerived, s.n = n →
      TradeToTickBarDerived.machine.emitted s (trades.map (.trade exchange symbol)) =
        (Mealy.mk TradeToTickBarDerived.foldTrade).emitted s trades from h _ rfl
  induction trades with
  | nil => exact fun _ _ => rfl
  | cons point trades ih =>
    intro s hs
    have hstep : TradeToTickBarDerived.machine.step s (.trade exchange symbol point) =
        s.foldTrade point := if_neg (by omega)
    have hkeep : (s.foldTrade point).1.n = n := by
      simp only [TradeToTickBarDerived.foldTrade]
      split_ifs <;> exact hs
    rw [List.map_cons, Mealy.emitted_cons, Mealy.emitted_cons, hstep, ih _ hkeep]

end Digdigdig3.Derived
