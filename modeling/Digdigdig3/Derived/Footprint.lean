import Digdigdig3.Derived.TradeBars
import Digdigdig3.Lib.Float64

/-!
# Time bars and footprints of the same buckets

`TradeToBarDerived` and `TradeToFootprintDerived` (`derived.rs` lines 420–455 and 848–897) cut
the trades into the same buckets of `interval_ms`, each for itself. The footprint keeps its
levels in a map ordered by the bit patterns of the prices; `KeyedFootprint` is it with that
map, and `keyed_emitted_eq` puts it beside `TradeToFootprintDerived`, whose levels are ordered
by price.

Results:
* `bucketing_shows`: what a machine that opens a point with a bucket and updates it until the
  next bucket has last emitted for each bucket.
* `FootprintOf.open`, `FootprintOf.update`: the levels of a footprint.
* `bars_and_footprints_agree`: for every bucket both machines end with its trades.
-/

namespace Digdigdig3.Derived

/-! ## Buckets -/

/-- The trades with a time in `[start, start + intervalMs)`. -/
def tradesIn (intervalMs start : ℤ) (trades : List TradePoint) : List TradePoint :=
  trades.filter fun p => start ≤ p.tsMs ∧ p.tsMs < start + intervalMs

/-- The last point emitted with the open time `start`. -/
def lastAt {ο : Type} (time : ο → ℤ) (emitted : List ο) (start : ℤ) : Option ο :=
  (emitted.filter fun o => time o = start).getLast?

/-- The shape that both aggregators share: a trade of a later bucket opens a point, any other
    trade updates the point last emitted. -/
def bucketing {ο : Type} (intervalMs : ℤ) (time : ο → ℤ) (opened : TradePoint → ο)
    (updated : ο → TradePoint → ο) : Mealy (Option ο) TradePoint ο :=
  ⟨fun current point =>
    let o :=
      match current with
      | none => opened point
      | some o =>
        if time o < bucketStart intervalMs point.tsMs then opened point else updated o point
    (some o, some o)⟩

/-- `shown` is what is there to show of the trades `block`. -/
def Shows {ο : Type} (R : List TradePoint → ο → Prop) (block : List TradePoint) : Option ο → Prop
  | none => block = []
  | some o => R block o

section Buckets

variable {ο : Type} {intervalMs : ℤ} {time : ο → ℤ} {opened : TradePoint → ο}
  {updated : ο → TradePoint → ο} {R : List TradePoint → ο → Prop} {trades : List TradePoint}
  {point : TradePoint} {emitted : List ο} {current : Option ο}

/-- A time from zero on is in the bucket that the truncating division gives, and no other. -/
theorem mem_bucket_iff {tsMs : ℤ} (hpos : 0 < intervalMs) (hts : 0 ≤ tsMs) (k : ℤ) :
    (k * intervalMs ≤ tsMs ∧ tsMs < k * intervalMs + intervalMs) ↔
      bucketStart intervalMs tsMs = k * intervalMs := by
  rw [bucketStart, Int.tdiv_eq_ediv_of_nonneg hts, mul_left_inj' hpos.ne',
    Int.ediv_eq_iff_of_pos hpos]

theorem bucketStart_mono {a b : ℤ} (hpos : 0 < intervalMs) (ha : 0 ≤ a) (hab : a ≤ b) :
    bucketStart intervalMs a ≤ bucketStart intervalMs b := by
  rw [bucketStart, bucketStart, Int.tdiv_eq_ediv_of_nonneg ha,
    Int.tdiv_eq_ediv_of_nonneg (ha.trans hab)]
  exact mul_le_mul_of_nonneg_right (Int.ediv_le_ediv hpos hab) hpos.le

theorem tradesIn_concat_of_eq {k : ℤ} (hpos : 0 < intervalMs) (hts : 0 ≤ point.tsMs)
    (h : bucketStart intervalMs point.tsMs = k * intervalMs) (trades : List TradePoint) :
    tradesIn intervalMs (k * intervalMs) (trades ++ [point]) =
      tradesIn intervalMs (k * intervalMs) trades ++ [point] := by
  have hin := (mem_bucket_iff hpos hts k).mpr h
  rw [tradesIn, List.filter_append, List.filter_singleton, decide_eq_true hin]
  rfl

theorem tradesIn_concat_of_ne {k : ℤ} (hpos : 0 < intervalMs) (hts : 0 ≤ point.tsMs)
    (h : bucketStart intervalMs point.tsMs ≠ k * intervalMs) (trades : List TradePoint) :
    tradesIn intervalMs (k * intervalMs) (trades ++ [point]) =
      tradesIn intervalMs (k * intervalMs) trades := by
  have hout := mt (mem_bucket_iff hpos hts k).mp h
  rw [tradesIn, List.filter_append, List.filter_singleton, decide_eq_false hout, cond_false,
    List.append_nil]
  rfl

theorem lastAt_concat (time : ο → ℤ) (emitted : List ο) (o : ο) (start : ℤ) :
    lastAt time (emitted ++ [o]) start =
      if time o = start then some o else lastAt time emitted start := by
  rw [lastAt, List.filter_append, List.filter_singleton]
  by_cases h : time o = start
  · rw [decide_eq_true h, if_pos h, cond_true, List.getLast?_concat]
  · rw [decide_eq_false h, if_neg h, cond_false, List.append_nil]
    rfl

/-- What holds after the trades: every bucket shows its trades, and the current point is that
    of the bucket of the last trade. -/
structure Aggregates (intervalMs : ℤ) (time : ο → ℤ) (R : List TradePoint → ο → Prop)
    (trades : List TradePoint) (current : Option ο) (emitted : List ο) : Prop where
  shows : ∀ k, Shows R (tradesIn intervalMs (k * intervalMs) trades)
    (lastAt time emitted (k * intervalMs))
  empty : current = none → trades = []
  current : ∀ o, current = some o → ∃ last, trades.getLast? = some last ∧
    time o = bucketStart intervalMs last.tsMs ∧ R (tradesIn intervalMs (time o) trades) o

/-- A point for the bucket of the trade, made of its trades up to this one. -/
theorem Aggregates.emit {o : ο} (h : Aggregates intervalMs time R trades current emitted)
    (hpos : 0 < intervalMs) (hts : 0 ≤ point.tsMs)
    (htime : time o = bucketStart intervalMs point.tsMs)
    (hR : R (tradesIn intervalMs (time o) trades ++ [point]) o) :
    Aggregates intervalMs time R (trades ++ [point]) (some o) (emitted ++ [o]) := by
  have hbucket : bucketStart intervalMs point.tsMs = point.tsMs.tdiv intervalMs * intervalMs := rfl
  refine ⟨fun k => ?_, nofun, ?_⟩
  · rw [lastAt_concat]
    by_cases hk : time o = k * intervalMs
    · rw [if_pos hk, tradesIn_concat_of_eq hpos hts (htime.symm.trans hk), ← hk]
      exact hR
    · rw [if_neg hk, tradesIn_concat_of_ne hpos hts (htime ▸ hk)]
      exact h.shows k
  · rintro _ ⟨⟩
    refine ⟨point, List.getLast?_concat, htime, ?_⟩
    rw [htime, hbucket] at hR ⊢
    rwa [tradesIn_concat_of_eq hpos hts hbucket]

/-- **Step lemma.** -/
theorem Aggregates.step (h : Aggregates intervalMs time R trades current emitted)
    (hpos : 0 < intervalMs) (hts : ∀ p ∈ trades ++ [point], 0 ≤ p.tsMs)
    (hsorted : (trades ++ [point]).Pairwise (·.tsMs ≤ ·.tsMs))
    (hopened : time (opened point) = bucketStart intervalMs point.tsMs)
    (hupdated : ∀ o, time (updated o point) = time o)
    (hopen : R [point] (opened point))
    (hupdate : ∀ block o, R block o → R (block ++ [point]) (updated o point)) :
    Aggregates intervalMs time R (trades ++ [point])
      ((bucketing intervalMs time opened updated).step current point).1
      (emitted ++ ((bucketing intervalMs time opened updated).step current point).2.toList) := by
  have hpoint := hts point (by simp)
  rcases hcur : current with _ | o
  · -- the first trade
    obtain rfl := h.empty hcur
    exact h.emit hpos hpoint hopened hopen
  · obtain ⟨last, hlast, htime, hR⟩ := h.current o hcur
    have hmem := List.mem_of_getLast? hlast
    have hle : ∀ p ∈ trades, p.tsMs ≤ last.tsMs := by
      obtain ⟨front, rfl⟩ := List.getLast?_eq_some_iff.mp hlast
      intro p hp
      rcases List.mem_append.mp hp with hp | hp
      · have hfront := (List.pairwise_append.mp hsorted).1
        exact (List.pairwise_append.mp hfront).2.2 p hp last (by simp)
      · rw [List.mem_singleton.mp hp]
    have hmono : bucketStart intervalMs last.tsMs ≤ bucketStart intervalMs point.tsMs :=
      bucketStart_mono hpos (hts last (by simp [hmem]))
        ((List.pairwise_append.mp hsorted).2.2 last hmem point (by simp))
    by_cases hroll : time o < bucketStart intervalMs point.tsMs
    · -- all trades so far lie before the new bucket
      have hnone : tradesIn intervalMs (time (opened point)) trades = [] := by
        refine List.filter_eq_nil_iff.mpr fun p hp hin => ?_
        have hbucket : bucketStart intervalMs p.tsMs = bucketStart intervalMs point.tsMs := by
          rw [hopened] at hin
          exact (mem_bucket_iff hpos (hts p (by simp [hp])) _).mp (of_decide_eq_true hin)
        have hp := bucketStart_mono hpos (hts p (by simp [hp])) (hle p hp)
        omega
      have hstep : (bucketing intervalMs time opened updated).step (some o) point =
          (some (opened point), some (opened point)) := by
        simp only [bucketing, if_pos hroll]
      rw [hstep]
      refine h.emit hpos hpoint hopened ?_
      rw [hnone]
      exact hopen
    · have hstep : (bucketing intervalMs time opened updated).step (some o) point =
          (some (updated o point), some (updated o point)) := by
        simp only [bucketing, if_neg hroll]
      rw [hstep]
      refine h.emit hpos hpoint ?_ ?_
      · rw [hupdated]
        omega
      · rw [hupdated]
        exact hupdate _ o hR

/-- **Run lemma.** On trades in order the last point emitted for each bucket shows all its
    trades. -/
theorem bucketing_shows (hpos : 0 < intervalMs) (hts : ∀ p ∈ trades, 0 ≤ p.tsMs)
    (hsorted : trades.Pairwise (·.tsMs ≤ ·.tsMs))
    (hopened : ∀ p, time (opened p) = bucketStart intervalMs p.tsMs)
    (hupdated : ∀ o p, time (updated o p) = time o) (hopen : ∀ p, R [p] (opened p))
    (hupdate : ∀ block o p, R block o → R (block ++ [p]) (updated o p)) (k : ℤ) :
    Shows R (tradesIn intervalMs (k * intervalMs) trades)
      (lastAt time ((bucketing intervalMs time opened updated).emitted none trades)
        (k * intervalMs)) := by
  suffices h : Aggregates intervalMs time R trades
      ((bucketing intervalMs time opened updated).final none trades)
      ((bucketing intervalMs time opened updated).emitted none trades) from h.shows k
  refine Mealy.run_invariant_of_steps (C := fun trades _ _ point =>
    (∀ p ∈ trades ++ [point], 0 ≤ p.tsMs) ∧ (trades ++ [point]).Pairwise (·.tsMs ≤ ·.tsMs))
    (bucketing intervalMs time opened updated) ?_ ?_ ?_
  · exact ⟨fun _ => rfl, fun _ => rfl, nofun⟩
  · rintro trades current emitted point h ⟨hts, hsorted⟩
    exact h.step hpos hts hsorted (hopened point) (hupdated · point) (hopen point)
      (hupdate · · point)
  · intro pre point hpre
    exact ⟨fun p hp => hts p (hpre.subset hp), hsorted.sublist hpre.sublist⟩

end Buckets

/-! ## Footprints -/

/-- Open, high, low, close and volume. -/
structure Ohlcv where
  open_ : ℚ
  high : ℚ
  low : ℚ
  close : ℚ
  volume : ℚ
  deriving DecidableEq

def BarPoint.ohlcv (bar : BarPoint) : Ohlcv :=
  ⟨bar.open_, bar.high, bar.low, bar.close, bar.volume⟩

def FootprintPoint.ohlcv (p : FootprintPoint) : Ohlcv := ⟨p.open_, p.high, p.low, p.close, p.volume⟩

/-- The prices of the levels, in order. -/
def FootprintPoint.prices (p : FootprintPoint) : List ℚ := p.levels.map (·.price)

/-- What the levels hold together. -/
def levelVolume (levels : List FootprintLevel) : ℚ :=
  (levels.map fun level => level.buyVol + level.sellVol).sum

/-- `p` is the footprint of the trades `block`: it has their bar's prices and volume, one level
    for each of their prices, in ascending order, and all the volume is on the levels. -/
structure FootprintOf (block : List TradePoint) (p : FootprintPoint) : Prop where
  bar : ∃ bar, Summarises block bar ∧ p.ohlcv = bar.ohlcv
  ascending : p.prices.Pairwise (· < ·)
  traded : ∀ price, price ∈ p.prices ↔ ∃ t ∈ block, t.price = price
  sold : levelVolume p.levels = p.volume

section Levels

variable {levels : List FootprintLevel} {point : TradePoint} {block : List TradePoint}
  {p : FootprintPoint}

theorem mem_addToLevel (point : TradePoint) (levels : List FootprintLevel) (price : ℚ) :
    price ∈ (addToLevel point levels).map (·.price) ↔
      price = point.price ∨ price ∈ levels.map (·.price) := by
  induction levels with
  | nil => simp [addToLevel]
  | cons level levels ih =>
    rw [addToLevel]
    by_cases hlt : point.price < level.price
    · rw [if_pos hlt, List.map_cons, List.mem_cons]
    · rw [if_neg hlt]
      by_cases heq : point.price = level.price
      · rw [if_pos heq, List.map_cons, List.map_cons, List.mem_cons, heq, or_self_left]
      · rw [if_neg heq, List.map_cons, List.map_cons, List.mem_cons, List.mem_cons, ih,
          or_left_comm]

theorem ascending_addToLevel (h : (levels.map (·.price)).Pairwise (· < ·)) (point : TradePoint) :
    ((addToLevel point levels).map (·.price)).Pairwise (· < ·) := by
  induction levels with
  | nil => exact List.pairwise_singleton _ _
  | cons level levels ih =>
    rw [List.map_cons, List.pairwise_cons] at h
    obtain ⟨hhead, htail⟩ := h
    rw [addToLevel]
    by_cases hlt : point.price < level.price
    · rw [if_pos hlt, List.map_cons, List.map_cons, List.pairwise_cons, List.pairwise_cons,
        List.forall_mem_cons]
      exact ⟨⟨hlt, fun price hprice => hlt.trans (hhead price hprice)⟩, hhead, htail⟩
    · rw [if_neg hlt]
      by_cases heq : point.price = level.price
      · rw [if_pos heq, List.map_cons, List.pairwise_cons]
        exact ⟨hhead, htail⟩
      · rw [if_neg heq, List.map_cons, List.pairwise_cons]
        refine ⟨fun price hprice => ?_, ih htail⟩
        rcases (mem_addToLevel point levels price).mp hprice with rfl | hprice
        · exact lt_of_le_of_ne (not_lt.mp hlt) (Ne.symm heq)
        · exact hhead price hprice

theorem levelVolume_addToLevel (point : TradePoint) (levels : List FootprintLevel) :
    levelVolume (addToLevel point levels) = levelVolume levels + point.quantity := by
  induction levels with
  | nil =>
    by_cases hside : point.side = 0 <;> simp [levelVolume, addToLevel, hside]
  | cons level levels ih =>
    have hcons : ∀ level levels, levelVolume (level :: levels) =
        level.buyVol + level.sellVol + levelVolume levels := fun _ _ => List.sum_cons
    rw [addToLevel]
    by_cases hlt : point.price < level.price
    · rw [if_pos hlt, hcons]
      by_cases hside : point.side = 0 <;> simp only [hside, if_true, if_false] <;> ring
    · rw [if_neg hlt]
      by_cases heq : point.price = level.price
      · rw [if_pos heq, hcons, hcons]
        by_cases hside : point.side = 0 <;> simp only [hside, if_true, if_false] <;> ring
      · rw [if_neg heq, hcons, hcons, ih]
        ring

open TradeToFootprintDerived

theorem FootprintOf.open (intervalMs : ℤ) (point : TradePoint) :
    FootprintOf [point] (rolled intervalMs point) where
  bar := ⟨openBar 0 point, summarises_openBar 0 point, rfl⟩
  ascending := ascending_addToLevel List.Pairwise.nil point
  traded price := by
    rw [FootprintPoint.prices, rolled, mem_addToLevel]
    simp [eq_comm]
  sold := by
    have hzero : levelVolume [] = 0 := rfl
    have h := levelVolume_addToLevel point []
    rw [hzero, zero_add] at h
    exact h

theorem FootprintOf.update (h : FootprintOf block p) (point : TradePoint) :
    FootprintOf (block ++ [point]) (updated p point) where
  bar := by
    obtain ⟨bar, hbar, hsame⟩ := h.bar
    obtain ⟨hopen, hhigh, hlow, -, hvolume⟩ := Ohlcv.mk.inj hsame
    refine ⟨bar.addTrade point, hbar.addTrade point, ?_⟩
    simp only [FootprintPoint.ohlcv, BarPoint.ohlcv, updated, BarPoint.addTrade, hopen, hhigh, hlow,
      hvolume]
  ascending := ascending_addToLevel h.ascending point
  traded price := by
    have hold := h.traded price
    rw [FootprintPoint.prices] at hold
    rw [FootprintPoint.prices, updated, mem_addToLevel, hold]
    simp [or_and_right, exists_or, eq_comm, or_comm]
  sold := by
    change levelVolume (addToLevel point p.levels) = p.volume + point.quantity
    rw [levelVolume_addToLevel, h.sold]

/-- An ascending list starts with the least of its elements. -/
theorem head?_eq_of_isLeast {xs : List ℚ} {a : ℚ} (h : xs.Pairwise (· < ·))
    (ha : IsLeast {x | x ∈ xs} a) : xs.head? = some a := by
  cases xs with
  | nil => cases ha.1
  | cons x xs =>
    rcases List.mem_cons.mp ha.1 with rfl | hmem
    · rfl
    · have hlt := List.rel_of_pairwise_cons h hmem
      exact absurd (ha.2 (List.mem_cons_self)) (not_le.mpr hlt)

/-- And ends with the greatest. -/
theorem getLast?_eq_of_isGreatest {xs : List ℚ} {a : ℚ} (h : xs.Pairwise (· < ·))
    (ha : IsGreatest {x | x ∈ xs} a) : xs.getLast? = some a := by
  rcases List.eq_nil_or_concat xs with rfl | ⟨xs, x, rfl⟩
  · cases ha.1
  · rw [List.concat_eq_append] at h ha ⊢
    rw [List.getLast?_concat]
    rcases List.mem_append.mp ha.1 with hmem | hmem
    · have hlt := (List.pairwise_append.mp h).2.2 a hmem x (List.mem_singleton_self x)
      exact absurd (ha.2 (List.mem_append_right _ (List.mem_singleton_self x))) (not_le.mpr hlt)
    · rw [List.mem_singleton.mp hmem]

theorem Summarises.ohlcv_eq {bar bar' : BarPoint} (h : Summarises block bar)
    (h' : Summarises block bar') : bar.ohlcv = bar'.ohlcv := by
  have hopen : bar.open_ = bar'.open_ := Option.some.inj (h.open_eq.symm.trans h'.open_eq)
  have hclose : bar.close = bar'.close := Option.some.inj (h.close_eq.symm.trans h'.close_eq)
  rw [BarPoint.ohlcv, BarPoint.ohlcv, hopen, hclose, h.high_greatest.unique h'.high_greatest,
    h.low_least.unique h'.low_least, h.volume_eq, h'.volume_eq]

/-- The ends of the levels are the low and the high of the bar. -/
theorem FootprintOf.ends (h : FootprintOf block p) {bar : BarPoint} (hbar : Summarises block bar) :
    p.prices.head? = some bar.low ∧ p.prices.getLast? = some bar.high := by
  have hset : {price | price ∈ p.prices} = {price | ∃ t ∈ block, t.price = price} :=
    Set.ext h.traded
  exact ⟨head?_eq_of_isLeast h.ascending (hset ▸ hbar.low_least),
    getLast?_eq_of_isGreatest h.ascending (hset ▸ hbar.high_greatest)⟩

end Levels

/-! ## The map ordered by bit patterns -/

open Float64 in
/-- `levels.entry(bits).or_insert((0.0, 0.0))` and the addition to its side (lines 869–871 and
    883–885), with `price_bits` (lines 809–811) for the key. -/
def addToEntry (point : TradePoint) : List (ℕ × ℚ × ℚ) → List (ℕ × ℚ × ℚ)
  | [] => [(toBits point.price, if point.side = 0 then (0 + point.quantity, 0)
      else (0, 0 + point.quantity))]
  | (bits, buy, sell) :: levels =>
    if toBits point.price < bits then
      (toBits point.price, if point.side = 0 then (0 + point.quantity, 0)
        else (0, 0 + point.quantity)) :: (bits, buy, sell) :: levels
    else if toBits point.price = bits then
      (bits, if point.side = 0 then (buy + point.quantity, sell)
        else (buy, sell + point.quantity)) :: levels
    else (bits, buy, sell) :: addToEntry point levels

/-- `TradeToFootprintDerived` (lines 798–806), the `BTreeMap` as the list of its entries by
    ascending bits. -/
structure KeyedFootprint where
  intervalMs : ℤ
  currentBucketStart : ℤ
  currentOhlcv : Option Ohlcv
  levels : List (ℕ × ℚ × ℚ)

namespace KeyedFootprint

/-- `new_for_key` for `Kind::Footprint(iv)` (lines 835–846). -/
def newForKey (interval : KlineInterval) : KeyedFootprint :=
  { intervalMs := (intervalToMs interval.text).getD 0, currentBucketStart := 0
    currentOhlcv := none, levels := [] }

/-- A level of the point: the price is read back from its bits (lines 817–820). -/
def level (entry : ℕ × ℚ × ℚ) : FootprintLevel := ⟨Float64.ofBits entry.1, entry.2.1, entry.2.2⟩

/-- `build_point` (lines 813–823). -/
def buildPoint (s : KeyedFootprint) (openTime : ℤ) : FootprintPoint :=
  let ohlcv := s.currentOhlcv.getD ⟨0, 0, 0, 0, 0⟩
  { openTime := openTime, open_ := ohlcv.open_, high := ohlcv.high, low := ohlcv.low
    close := ohlcv.close, volume := ohlcv.volume, levels := s.levels.map level }

/-- The state after a roll (lines 862–871). -/
def rolled (s : KeyedFootprint) (point : TradePoint) : KeyedFootprint :=
  { s with
    currentBucketStart := bucketStart s.intervalMs point.tsMs
    currentOhlcv := some ⟨point.price, point.price, point.price, point.price, point.quantity⟩
    levels := addToEntry point [] }

/-- The state after an update of the current bucket (lines 877–885). -/
def updated (s : KeyedFootprint) (o : Ohlcv) (point : TradePoint) : KeyedFootprint :=
  { s with
    currentOhlcv := some
      { o with
        high := if o.high < point.price then point.price else o.high
        low := if point.price < o.low then point.price else o.low
        close := point.price
        volume := o.volume + point.quantity }
    levels := addToEntry point s.levels }

/-- The trade branch of `on_upstream_event` (lines 858–896). -/
def foldTrade (s : KeyedFootprint) (point : TradePoint) : KeyedFootprint × Option FootprintPoint :=
  let s :=
    match s.currentOhlcv with
    | none => s.rolled point
    | some o =>
      if s.currentBucketStart < bucketStart s.intervalMs point.tsMs then s.rolled point
      else s.updated o point
  (s, some (s.buildPoint s.currentBucketStart))

/-- `on_upstream_event` (lines 848–897). -/
def machine : Mealy KeyedFootprint Event FootprintPoint :=
  ⟨fun s ev =>
    if s.intervalMs = 0 then (s, none)
    else
      match ev with
      | .trade _ _ point => s.foldTrade point
      | _ => (s, none)⟩

variable {s : KeyedFootprint} {t : TradeToFootprintDerived} {point : TradePoint}

/-- The keys are bit patterns of prices. -/
def KeysAreBits (levels : List (ℕ × ℚ × ℚ)) : Prop :=
  ∀ entry ∈ levels, ∃ price, Float64.IsPositiveDouble price ∧ Float64.toBits price = entry.1

/-- Beside each other, both maps take the trade at the same place. -/
theorem map_addToEntry (hprice : Float64.IsPositiveDouble point.price) {levels : List (ℕ × ℚ × ℚ)}
    (hkeys : KeysAreBits levels) :
    (addToEntry point levels).map level = addToLevel point (levels.map level) := by
  have hvalue := Float64.ofBits_toBits hprice
  induction levels with
  | nil => by_cases hside : point.side = 0 <;> simp [addToEntry, addToLevel, level, hvalue, hside]
  | cons entry levels ih =>
    obtain ⟨bits, buy, sell⟩ := entry
    obtain ⟨⟨price, hdouble, hbits⟩, htail⟩ := List.forall_mem_cons.mp hkeys
    obtain rfl : Float64.toBits price = bits := hbits
    have hlevel : (level (Float64.toBits price, buy, sell)).price = price :=
      Float64.ofBits_toBits hdouble
    rw [addToEntry, List.map_cons, addToLevel, hlevel]
    by_cases hlt : point.price < price
    · rw [if_pos hlt, if_pos ((Float64.toBits_lt_toBits_iff hprice hdouble).mpr hlt)]
      by_cases hside : point.side = 0 <;> simp [level, hvalue, hside]
    · rw [if_neg hlt, if_neg (mt (Float64.toBits_lt_toBits_iff hprice hdouble).mp hlt)]
      by_cases heq : point.price = price
      · rw [if_pos heq, if_pos ((Float64.toBits_inj hprice hdouble).mpr heq)]
        have hback := Float64.ofBits_toBits hdouble
        by_cases hside : point.side = 0 <;> simp [level, hback, hside]
      · rw [if_neg heq, if_neg (mt (Float64.toBits_inj hprice hdouble).mp heq), List.map_cons,
          ih htail]

theorem KeysAreBits.addToEntry (hprice : Float64.IsPositiveDouble point.price)
    {levels : List (ℕ × ℚ × ℚ)} (hkeys : KeysAreBits levels) :
    KeysAreBits (addToEntry point levels) := by
  induction levels with
  | nil =>
    rw [Derived.addToEntry, KeysAreBits, List.forall_mem_singleton]
    exact ⟨point.price, hprice, rfl⟩
  | cons entry levels ih =>
    obtain ⟨hentry, htail⟩ := List.forall_mem_cons.mp hkeys
    rw [Derived.addToEntry]
    by_cases hlt : Float64.toBits point.price < entry.1
    · rw [if_pos hlt]
      exact List.forall_mem_cons.mpr ⟨⟨point.price, hprice, rfl⟩, hkeys⟩
    · rw [if_neg hlt]
      by_cases heq : Float64.toBits point.price = entry.1
      · rw [if_pos heq]
        exact List.forall_mem_cons.mpr ⟨hentry, htail⟩
      · rw [if_neg heq]
        exact List.forall_mem_cons.mpr ⟨hentry, ih htail⟩

/-- The states of both machines: the point that `build_point` makes is the current one. -/
structure Builds (s : KeyedFootprint) (t : TradeToFootprintDerived) : Prop where
  intervalMs : s.intervalMs = t.intervalMs
  keys : KeysAreBits s.levels
  current : t.current = s.currentOhlcv.map fun _ => s.buildPoint s.currentBucketStart

theorem Builds.rolled (h : Builds s t) (hprice : Float64.IsPositiveDouble point.price) :
    KeysAreBits (s.rolled point).levels ∧
      (s.rolled point).buildPoint (s.rolled point).currentBucketStart =
        TradeToFootprintDerived.rolled t.intervalMs point := by
  have hnil : KeysAreBits [] := nofun
  have hlevels := map_addToEntry hprice hnil
  refine ⟨hnil.addToEntry hprice, ?_⟩
  simp only [buildPoint, KeyedFootprint.rolled, TradeToFootprintDerived.rolled, Option.getD_some,
    hlevels, List.map_nil, h.intervalMs]

theorem Builds.updated (h : Builds s t) {o : Ohlcv} (ho : s.currentOhlcv = some o)
    (hprice : Float64.IsPositiveDouble point.price) :
    KeysAreBits (s.updated o point).levels ∧
      (s.updated o point).buildPoint (s.updated o point).currentBucketStart =
        TradeToFootprintDerived.updated (s.buildPoint s.currentBucketStart) point := by
  have hlevels := map_addToEntry hprice h.keys
  refine ⟨h.keys.addToEntry hprice, ?_⟩
  simp only [buildPoint, KeyedFootprint.updated, TradeToFootprintDerived.updated, Option.getD_some,
    hlevels, ho]

/-- **Step lemma.** On a trade at a positive price both machines answer alike. -/
theorem Builds.step (h : Builds s t) (hprice : Float64.IsPositiveDouble point.price) :
    Builds (s.foldTrade point).1 (t.foldTrade point).1 ∧
      (s.foldTrade point).2 = (t.foldTrade point).2 := by
  obtain ⟨hkeys, hpoint⟩ := h.rolled hprice
  have hinterval := h.intervalMs
  rcases ho : s.currentOhlcv with _ | o
  · have hcur : t.current = none := by rw [h.current, ho, Option.map_none]
    rw [foldTrade, TradeToFootprintDerived.foldTrade, ho, hcur]
    exact ⟨⟨hinterval, hkeys, congrArg some hpoint.symm⟩, congrArg some hpoint⟩
  · have hcur : t.current = some (s.buildPoint s.currentBucketStart) := by
      rw [h.current, ho, Option.map_some]
    have hopen : (s.buildPoint s.currentBucketStart).openTime = s.currentBucketStart := rfl
    rw [foldTrade, TradeToFootprintDerived.foldTrade, ho, hcur]
    simp only [hopen, hinterval]
    by_cases hroll : s.currentBucketStart < bucketStart t.intervalMs point.tsMs
    · simp only [if_pos hroll]
      exact ⟨⟨hinterval, hkeys, congrArg some hpoint.symm⟩, congrArg some hpoint⟩
    · obtain ⟨hkeys', hpoint'⟩ := h.updated ho hprice
      simp only [if_neg hroll]
      exact ⟨⟨hinterval, hkeys', congrArg some hpoint'.symm⟩, congrArg some hpoint'⟩

theorem newForKey_builds (interval : KlineInterval) :
    Builds (newForKey interval) (.newForKey interval) := ⟨rfl, nofun, rfl⟩

theorem foldTrade_intervalMs (s : KeyedFootprint) (point : TradePoint) :
    (s.foldTrade point).1.intervalMs = s.intervalMs := by
  rcases ho : s.currentOhlcv with _ | o
  · simp only [foldTrade, ho]
    rfl
  · simp only [foldTrade, ho]
    split_ifs <;> rfl

/-- **Simulation.** At positive prices the map ordered by bit patterns and the levels ordered by
    price give the same points. -/
theorem keyed_emitted_eq {interval : KlineInterval}
    (hinterval : (newForKey interval).intervalMs ≠ 0) (exchange : ExchangeId) (symbol : String)
    {trades : List TradePoint}
    (hprice : ∀ p ∈ trades, Float64.IsPositiveDouble p.price) :
    machine.emitted (newForKey interval) (trades.map (.trade exchange symbol)) =
      (Mealy.mk TradeToFootprintDerived.foldTrade).emitted (.newForKey interval) trades := by
  refine Mealy.emitted_map_of_simulation
    (R := fun s t => s.intervalMs ≠ 0 ∧ Builds s t) ?_ ⟨hinterval, newForKey_builds interval⟩ hprice
  rintro s t point hprice ⟨hne, h⟩
  have hstep : machine.step s (.trade exchange symbol point) = s.foldTrade point := if_neg hne
  obtain ⟨hnext, hout⟩ := h.step hprice
  rw [hstep]
  exact ⟨⟨by rwa [foldTrade_intervalMs], hnext⟩, hout⟩

end KeyedFootprint

/-- The footprint is a bucketing machine. -/
theorem TradeToFootprintDerived.emitted_eq (s : TradeToFootprintDerived)
    (trades : List TradePoint) :
    (Mealy.mk TradeToFootprintDerived.foldTrade).emitted s trades =
      (bucketing s.intervalMs FootprintPoint.openTime (rolled s.intervalMs) updated).emitted
        s.current trades := by
  refine Mealy.emitted_eq_of_simulation
    (R := fun (t : TradeToFootprintDerived) current =>
      t.intervalMs = s.intervalMs ∧ t.current = current) _ ?_ ⟨rfl, rfl⟩ trades
  rintro t _ point ⟨hinterval, rfl⟩
  rcases hcur : t.current with _ | p
  · simp only [foldTrade, bucketing, hcur, hinterval, and_self]
  · simp only [foldTrade, bucketing, hcur, hinterval]
    by_cases hroll : p.openTime < bucketStart s.intervalMs point.tsMs
    · simp only [if_pos hroll, and_self]
    · simp only [if_neg hroll, and_self]

/-- And so is the bar. -/
theorem TradeToBarDerived.emitted_eq {s : TradeToBarDerived} (hinterval : s.intervalMs ≠ 0)
    (hcur : s.current = none) (exchange : ExchangeId) (symbol : String)
    (trades : List TradePoint) :
    TradeToBarDerived.machine.emitted s (trades.map (.trade exchange symbol)) =
      (bucketing s.intervalMs BarPoint.openTime
        (fun p => openBar (bucketStart s.intervalMs p.tsMs) p) BarPoint.addTrade).emitted
        none trades := by
  refine Mealy.emitted_map_of_simulation (C := fun _ => True)
    (R := fun t current => t.intervalMs = s.intervalMs ∧ t.current = current ∧
      ∀ bar ∈ t.current, bar.openTime = t.currentBucketStart) ?_
    ⟨rfl, hcur, by simp [hcur]⟩ (fun _ _ => trivial)
  rintro t _ point - ⟨hsame, rfl, htime⟩
  have hstep : TradeToBarDerived.machine.step t (.trade exchange symbol point) =
      t.foldTrade point := if_neg (hsame ▸ hinterval)
  rw [hstep]
  rcases hcur : t.current with _ | bar
  · simp [foldTrade, bucketing, hcur, hsame]
  · have htime := htime bar hcur
    simp only [foldTrade, bucketing, hcur, hsame, htime]
    by_cases hroll : t.currentBucketStart < bucketStart s.intervalMs point.tsMs
    · simp [if_pos hroll]
    · simp [if_neg hroll, htime]

/-- What both machines have last emitted for the bucket at `start`, whose trades are `block`. -/
inductive Agree (block : List TradePoint) : Option BarPoint → Option FootprintPoint → Prop
  | empty (hblock : block = []) : Agree block none none
  | traded {bar : BarPoint} {p : FootprintPoint} (hbar : Summarises block bar)
      (hohlcv : p.ohlcv = bar.ohlcv) (hascending : p.prices.Pairwise (· < ·))
      (htraded : ∀ price, price ∈ p.prices ↔ ∃ t ∈ block, t.price = price)
      (hlow : p.prices.head? = some p.low) (hhigh : p.prices.getLast? = some p.high)
      (hsold : levelVolume p.levels = p.volume) : Agree block (some bar) (some p)

theorem agree_of_shows {block : List TradePoint} {bar : Option BarPoint}
    {p : Option FootprintPoint} (hbar : Shows Summarises block bar)
    (hp : Shows FootprintOf block p) : Agree block bar p := by
  rcases bar with _ | bar <;> rcases p with _ | p
  · exact .empty hbar
  · obtain ⟨_, hsum, -⟩ := hp.bar
    exact absurd hbar hsum.ne_nil
  · exact absurd hp hbar.ne_nil
  · obtain ⟨bar', hbar', hsame⟩ := hp.bar
    have hohlcv : p.ohlcv = bar.ohlcv := hsame.trans (hbar'.ohlcv_eq hbar)
    obtain ⟨-, hhigh, hlow, -, -⟩ := Ohlcv.mk.inj hohlcv
    obtain ⟨hfirst, hlast⟩ := hp.ends hbar
    exact .traded hbar hohlcv hp.ascending hp.traded (hlow ▸ hfirst) (hhigh ▸ hlast) hp.sold

/-- **Main theorem.** On trades in order at positive prices, for every bucket of every interval,
    the last bar summarises the trades of the bucket and the last footprint has the same numbers,
    on one level for each price. -/
theorem bars_and_footprints_agree {interval : KlineInterval} {intervalMs : ℤ}
    (hinterval : intervalToMs interval.text = some intervalMs) (hpos : 0 < intervalMs)
    (exchange : ExchangeId) (symbol : String) {trades : List TradePoint}
    (hts : ∀ p ∈ trades, 0 ≤ p.tsMs) (hsorted : trades.Pairwise (·.tsMs ≤ ·.tsMs))
    (hprice : ∀ p ∈ trades, Float64.IsPositiveDouble p.price) (k : ℤ) :
    Agree (tradesIn intervalMs (k * intervalMs) trades)
      (lastAt BarPoint.openTime (TradeToBarDerived.machine.emitted (.newForKey interval)
        (trades.map (.trade exchange symbol))) (k * intervalMs))
      (lastAt FootprintPoint.openTime (KeyedFootprint.machine.emitted (.newForKey interval)
        (trades.map (.trade exchange symbol))) (k * intervalMs)) := by
  have hbarMs : (TradeToBarDerived.newForKey interval).intervalMs = intervalMs := by
    rw [TradeToBarDerived.newForKey, hinterval, Option.getD_some]
  have hkeyedMs : (KeyedFootprint.newForKey interval).intervalMs = intervalMs := hbarMs
  have hfootprintMs : (TradeToFootprintDerived.newForKey interval).intervalMs = intervalMs := hbarMs
  have hbars : Shows Summarises (tradesIn intervalMs (k * intervalMs) trades)
      (lastAt BarPoint.openTime ((bucketing intervalMs BarPoint.openTime
        (fun p => openBar (bucketStart intervalMs p.tsMs) p) BarPoint.addTrade).emitted none
        trades) (k * intervalMs)) := by
    refine bucketing_shows hpos hts hsorted ?_ ?_ ?_ ?_ k
    · exact fun _ => rfl
    · exact fun _ _ => rfl
    · exact fun p => summarises_openBar _ p
    · exact fun _ _ p h => h.addTrade p
  have hfootprints : Shows FootprintOf (tradesIn intervalMs (k * intervalMs) trades)
      (lastAt FootprintPoint.openTime ((bucketing intervalMs FootprintPoint.openTime
        (TradeToFootprintDerived.rolled intervalMs) TradeToFootprintDerived.updated).emitted none
        trades) (k * intervalMs)) := by
    refine bucketing_shows hpos hts hsorted ?_ ?_ ?_ ?_ k
    · exact fun _ => rfl
    · exact fun _ _ => rfl
    · exact FootprintOf.open intervalMs
    · exact fun _ _ p h => h.update p
  rw [TradeToBarDerived.emitted_eq (by rw [hbarMs]; exact hpos.ne') rfl, hbarMs,
    KeyedFootprint.keyed_emitted_eq (by rw [hkeyedMs]; exact hpos.ne') _ _ hprice,
    TradeToFootprintDerived.emitted_eq, hfootprintMs]
  exact agree_of_shows hbars hfootprints

/-- Two trades of one minute and one of the next, at `1` and `2`. -/
theorem bars_and_footprints_agree_three_trades :
    Agree (tradesIn 60000 (1 * 60000) [buyAt 60000 1 3, buyAt 61000 2 1, buyAt 120000 1 1])
      (lastAt BarPoint.openTime (TradeToBarDerived.machine.emitted (.newForKey ⟨"1m"⟩)
        ([buyAt 60000 1 3, buyAt 61000 2 1, buyAt 120000 1 1].map (.trade .binance "BTCUSDT")))
        (1 * 60000))
      (lastAt FootprintPoint.openTime (KeyedFootprint.machine.emitted (.newForKey ⟨"1m"⟩)
        ([buyAt 60000 1 3, buyAt 61000 2 1, buyAt 120000 1 1].map (.trade .binance "BTCUSDT")))
        (1 * 60000)) := by
  have hone : Float64.IsPositiveDouble 1 :=
    ⟨4607182418800017408, by decide, by decide, by norm_num [Float64.ofBits]⟩
  have htwo : Float64.IsPositiveDouble 2 :=
    ⟨4611686018427387904, by decide, by decide, by norm_num [Float64.ofBits]⟩
  refine bars_and_footprints_agree (by decide) (by decide) .binance "BTCUSDT"
    ?_ ?_ ?_ 1
  · decide
  · decide
  · intro p hp
    simp only [List.mem_cons, List.not_mem_nil, or_false] at hp
    rcases hp with rfl | rfl | rfl
    · exact hone
    · exact htwo
    · exact hone

end Digdigdig3.Derived
