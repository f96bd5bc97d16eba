import Digdigdig3.Core.SymbolNormalizer
import Digdigdig3.Lib.Bytes
import Digdigdig3.Lib.KeyedRuns

/-!
# Dukascopy ticks and candles

`DukascopyParser` of `crates/digdigdig3/src/l3/gated/forex/dukascopy/parser.rs`: the records of an
hourly tick file, and the candles made of ticks. An `f64` is a rational number; prices are finite.

* `parseBinaryTicks_times`: the ticks of a file of whole records.
* `ticksToKline_spec`: the candle of some ticks.
* `ticksToKlines_grouped`: the loop groups the ticks by their truncated buckets.
* `ticksToKlines_candles_iff`: when these are the buckets of the interval.
-/

namespace Digdigdig3.Dukascopy

/-! ## Data -/

/-- `ExchangeError`, as far as it is used. -/
inductive ExchangeError
  | parse (message : String)
  | network (message : String)
  | api (code : ℤ) (message : String)
  deriving DecidableEq

/-- `f64::MAX`; `f64::MIN` is its negative. -/
def f64Max : ℚ := (2 ^ 53 - 1) * 2 ^ 971

/-- `RawTick` (lines 22–34). -/
structure RawTick where
  timeOffsetMs : UInt32
  askRaw : UInt32
  bidRaw : UInt32
  askVolume : ℚ
  bidVolume : ℚ

/-- `DukascopyTick` (lines 37–49). -/
structure DukascopyTick where
  time : ℤ
  bid : ℚ
  ask : ℚ
  bidVolume : ℚ
  askVolume : ℚ
  bid_le : |bid| ≤ f64Max
  ask_le : |ask| ≤ f64Max
  deriving DecidableEq

/-- The fields of `Kline` that the parser sets. -/
structure Kline where
  openTime : ℤ
  open_ : ℚ
  high : ℚ
  low : ℚ
  close : ℚ
  volume : ℚ
  closeTime : Option ℤ
  trades : Option ℕ
  deriving DecidableEq

/-! ## Tick files -/

/-- `u32::from_be_bytes`. -/
def u32OfBe (bs : Bytes) : UInt32 := UInt32.ofNat (ofLe bs.reverse)

/-- `f32::from_be_bytes(bs) as f64`, of a finite number. -/
def f32OfBe (bs : Bytes) : ℚ :=
  let bits := (u32OfBe bs).toNat
  let exponent : ℕ := bits / 2 ^ 23 % 2 ^ 8
  let fraction : ℕ := bits % 2 ^ 23
  let size : ℚ := if exponent = 0 then fraction * 2 ^ (-149 : ℤ)
    else (2 ^ 23 + fraction : ℕ) * 2 ^ ((exponent : ℤ) - 150)
  if bits / 2 ^ 31 = 0 then size else -size

/-- `parse_raw_tick` (lines 94–118). -/
def parseRawTick (bytes : Bytes) : Except ExchangeError RawTick :=
  if bytes.length ≠ 20 then
    .error (.parse ("Invalid tick record size: " ++ toString bytes.length ++ " (expected 20)"))
  else
    .ok { timeOffsetMs := u32OfBe (slice bytes 0 4)
          askRaw := u32OfBe (slice bytes 4 4)
          bidRaw := u32OfBe (slice bytes 8 4)
          askVolume := f32OfBe (slice bytes 12 4)
          bidVolume := f32OfBe (slice bytes 16 4) }

/-- `get_point_value` (`endpoints.rs` lines 117–123). -/
def getPointValue (symbol : List Char) : ℚ :=
  if "JPY".toList <:+: symbol then 1 / 1000 else 1 / 100000

theorem getPointValue_mem (symbol : List Char) :
    0 ≤ getPointValue symbol ∧ getPointValue symbol ≤ 1 := by
  rw [getPointValue]
  split_ifs <;> norm_num

theorem pow_32_le_f64Max : (2 ^ 32 : ℚ) ≤ f64Max := by
  have hone : (1 : ℚ) ≤ 2 ^ 971 := one_le_pow₀ (by norm_num)
  calc (2 ^ 32 : ℚ) ≤ (2 ^ 53 - 1) * 1 := by norm_num
    _ ≤ (2 ^ 53 - 1) * 2 ^ 971 := by
      apply mul_le_mul_of_nonneg_left hone
      norm_num

/-- A price of a tick file is finite. -/
theorem abs_price_le (raw : UInt32) (symbol : List Char) :
    |(raw.toNat : ℚ) * getPointValue symbol| ≤ f64Max := by
  obtain ⟨hnonneg, hle⟩ := getPointValue_mem symbol
  have hraw : (raw.toNat : ℚ) ≤ 2 ^ 32 := by exact_mod_cast raw.toNat_lt.le
  rw [abs_of_nonneg (by positivity)]
  calc (raw.toNat : ℚ) * getPointValue symbol
      ≤ raw.toNat * 1 := by gcongr
    _ ≤ 2 ^ 32 := by rwa [mul_one]
    _ ≤ f64Max := pow_32_le_f64Max

/-- `raw_tick_to_dukascopy_tick` (lines 121–133), with the point value of a symbol. -/
def rawTickToDukascopyTick (raw : RawTick) (hourStartMs : ℤ) (symbol : List Char) :
    DukascopyTick where
  time := hourStartMs + raw.timeOffsetMs.toNat
  bid := raw.bidRaw.toNat * getPointValue symbol
  ask := raw.askRaw.toNat * getPointValue symbol
  bidVolume := raw.bidVolume
  askVolume := raw.askVolume
  bid_le := abs_price_le raw.bidRaw symbol
  ask_le := abs_price_le raw.askRaw symbol

/-- `parse_binary_ticks` (lines 67–91). -/
def parseBinaryTicks (data : Bytes) (hourStartMs : ℤ) (symbol : List Char) :
    Except ExchangeError (List DukascopyTick) :=
  if data.length % 20 ≠ 0 then
    .error (.parse ("Invalid data length: " ++ toString data.length ++
      " (must be multiple of 20)"))
  else
    (List.range (data.length / 20)).mapM fun i => do
      let raw ← parseRawTick (slice data (20 * i) 20)
      return rawTickToDukascopyTick raw hourStartMs symbol

theorem mapM_ok {α β ε : Type*} {f : α → Except ε β} {g : α → β} {l : List α}
    (h : ∀ a ∈ l, f a = .ok (g a)) : l.mapM f = .ok (l.map g) := by
  induction l with
  | nil => rfl
  | cons a l ih =>
    rw [List.mapM_cons, h a List.mem_cons_self, ih fun b hb => h b (List.mem_cons_of_mem a hb)]
    rfl

/-- The time of the `i`th record, from the start of the hour. -/
def timeOffset (data : Bytes) (i : ℕ) : ℕ := (u32OfBe (slice data (20 * i) 4)).toNat

/-- A file of whole records is read record by record. -/
theorem parseBinaryTicks_times {data : Bytes} (hlen : data.length % 20 = 0) (hourStartMs : ℤ)
    (symbol : List Char) : ∃ ticks, parseBinaryTicks data hourStartMs symbol = .ok ticks ∧
      ticks.map DukascopyTick.time =
        (List.range (data.length / 20)).map fun i => hourStartMs + timeOffset data i := by
  let raw := fun i : ℕ => slice data (20 * i) 20
  let tick := fun i : ℕ => rawTickToDukascopyTick
    ⟨u32OfBe (slice (raw i) 0 4), u32OfBe (slice (raw i) 4 4), u32OfBe (slice (raw i) 8 4),
      f32OfBe (slice (raw i) 12 4), f32OfBe (slice (raw i) 16 4)⟩ hourStartMs symbol
  have hraw : ∀ i ∈ List.range (data.length / 20), (raw i).length = 20 := by
    intro i hi
    rw [List.mem_range] at hi
    simp only [raw, slice, List.length_take, List.length_drop]
    omega
  refine ⟨(List.range (data.length / 20)).map tick, ?_, ?_⟩
  · rw [parseBinaryTicks, if_neg (not_not.mpr hlen)]
    refine mapM_ok fun i hi => ?_
    rw [parseRawTick, if_neg (not_not.mpr (hraw i hi))]
    rfl
  · rw [List.map_map]
    refine List.map_congr_left fun i _ => ?_
    have htake : slice (raw i) 0 4 = slice data (20 * i) 4 := by
      simp [raw, slice, List.take_take]
    simp only [Function.comp, tick, rawTickToDukascopyTick, timeOffset, htake]

/-! ## Candles -/

/-- The price that candles are made of. -/
def DukascopyTick.mid (tick : DukascopyTick) : ℚ := (tick.bid + tick.ask) / 2

/-- What a tick adds to the volume. -/
def DukascopyTick.volume (tick : DukascopyTick) : ℚ := tick.bidVolume + tick.askVolume

/-- `ticks_to_kline` (lines 143–179). -/
def ticksToKline (ticks : List DukascopyTick) (openTime : ℤ) : Except ExchangeError Kline :=
  match ticks.head?, ticks.getLast? with
  | some first, some last =>
    .ok { openTime
          open_ := first.mid
          high := ticks.foldl (fun high tick => max high tick.mid) (-f64Max)
          low := ticks.foldl (fun low tick => min low tick.mid) f64Max
          close := last.mid
          volume := ticks.foldl (fun total tick => total + tick.volume) 0
          closeTime := some last.time
          trades := some ticks.length }
  | _, _ => .error (.parse "No ticks to build kline")

/-- `klines`, `bucket_ticks` and `current_bucket_start` of `ticks_to_klines`. -/
structure BucketLoop where
  klines : List Kline
  bucketTicks : List DukascopyTick
  currentBucketStart : ℤ

/-- The bucket that the code puts a tick in; the division truncates. -/
def tickBucket (intervalMs : ℤ) (tick : DukascopyTick) : ℤ :=
  tick.time.tdiv intervalMs * intervalMs

/-- One tick (lines 198–211). -/
def bucketStep (intervalMs : ℤ) (s : BucketLoop) (tick : DukascopyTick) :
    Except ExchangeError BucketLoop := do
  let s ←
    if tickBucket intervalMs tick ≠ s.currentBucketStart then
      if s.bucketTicks ≠ [] then do
        let kline ← ticksToKline s.bucketTicks s.currentBucketStart
        pure ⟨s.klines ++ [kline], [], tickBucket intervalMs tick⟩
      else pure { s with currentBucketStart := tickBucket intervalMs tick }
    else pure s
  return { s with bucketTicks := s.bucketTicks ++ [tick] }

/-- `ticks_to_klines` (lines 186–219), for an interval that is not zero. -/
def ticksToKlines (ticks : List DukascopyTick) (intervalMs : ℤ) :
    Except ExchangeError (List Kline) :=
  match ticks with
  | [] => .ok []
  | first :: _ => do
    let s ← ticks.foldlM (bucketStep intervalMs) ⟨[], [], tickBucket intervalMs first⟩
    if s.bucketTicks ≠ [] then do
      let kline ← ticksToKline s.bucketTicks s.currentBucketStart
      return s.klines ++ [kline]
    else return s.klines

/-- `parse_interval_to_ms` (lines 255–277). -/
def parseIntervalToMs (U : Unicode) (interval : List Char) : Except ExchangeError ℤ :=
  let is := fun names : List String => names.any fun name => U.toLowercase interval = name.toList
  if is ["1m", "1min"] then .ok 60000
  else if is ["5m", "5min"] then .ok 300000
  else if is ["10m", "10min"] then .ok 600000
  else if is ["15m", "15min"] then .ok 900000
  else if is ["30m", "30min"] then .ok 1800000
  else if is ["1h", "1hour"] then .ok 3600000
  else if is ["4h", "4hour"] then .ok 14400000
  else if is ["1d", "1day"] then .ok 86400000
  else .error (.parse ("Unsupported interval: " ++ String.ofList interval))

/-! ## What a candle is of -/

/-- The candle is made of exactly these ticks. -/
structure IsCandleOf (k : Kline) (ticks : List DukascopyTick) : Prop where
  open_eq : ticks.head?.map DukascopyTick.mid = some k.open_
  high_mem : ∃ tick ∈ ticks, k.high = tick.mid
  le_high : ∀ tick ∈ ticks, tick.mid ≤ k.high
  low_mem : ∃ tick ∈ ticks, k.low = tick.mid
  low_le : ∀ tick ∈ ticks, k.low ≤ tick.mid
  close_eq : ticks.getLast?.map DukascopyTick.mid = some k.close
  volume_eq : k.volume = (ticks.map DukascopyTick.volume).sum
  closeTime_eq : k.closeTime = ticks.getLast?.map DukascopyTick.time
  trades_eq : k.trades = some ticks.length

/-- The ticks from `start` on, before `stop`. -/
def within (start stop : ℤ) (ticks : List DukascopyTick) : List DukascopyTick :=
  ticks.filter fun tick => decide (start ≤ tick.time ∧ tick.time < stop)

/-- The candles are the partition of the ticks into the buckets of the interval. -/
structure Candles (intervalMs : ℤ) (ticks : List DukascopyTick) (klines : List Kline) : Prop where
  ascending : klines.Pairwise fun k k' => k.openTime < k'.openTime
  aligned : ∀ k ∈ klines, intervalMs ∣ k.openTime
  candle : ∀ k ∈ klines, IsCandleOf k (within k.openTime (k.openTime + intervalMs) ticks)
  covers : ∀ tick ∈ ticks, ∃ k ∈ klines,
    k.openTime ≤ tick.time ∧ tick.time < k.openTime + intervalMs

/-- The mean of two finite prices is finite. -/
theorem DukascopyTick.abs_mid_le (tick : DukascopyTick) : |tick.mid| ≤ f64Max := by
  have hbid := abs_le.mp tick.bid_le
  have hask := abs_le.mp tick.ask_le
  rw [mid, abs_le]
  constructor <;> linarith [hbid.1, hbid.2, hask.1, hask.2]

/-- The extremes start at the ends of the range of an `f64`, and a tick replaces them. -/
theorem extremes_mem {ticks : List DukascopyTick} (hne : ticks ≠ []) :
    (∃ tick ∈ ticks, ticks.foldl (fun high tick => max high tick.mid) (-f64Max) = tick.mid) ∧
      ∃ tick ∈ ticks, ticks.foldl (fun low tick => min low tick.mid) f64Max = tick.mid := by
  obtain ⟨tick, htick⟩ := List.exists_mem_of_ne_nil ticks hne
  obtain ⟨hlow, hhigh⟩ := abs_le.mp tick.abs_mid_le
  constructor
  · rcases foldl_max_mem DukascopyTick.mid ticks (-f64Max) with hstart | hmem
    · refine ⟨tick, htick, le_antisymm (hstart.le.trans hlow) ?_⟩
      exact (le_foldl_max DukascopyTick.mid ticks (-f64Max)).2 tick htick
    · exact hmem
  · rcases foldl_min_mem DukascopyTick.mid ticks f64Max with hstart | hmem
    · refine ⟨tick, htick, le_antisymm ?_ (hhigh.trans hstart.ge)⟩
      exact (foldl_min_le DukascopyTick.mid ticks f64Max).2 tick htick
    · exact hmem

/-- The candle of some ticks. -/
theorem ticksToKline_spec {ticks : List DukascopyTick} (hne : ticks ≠ []) (openTime : ℤ) :
    ∃ k, ticksToKline ticks openTime = .ok k ∧ k.openTime = openTime ∧ IsCandleOf k ticks := by
  obtain ⟨first, hfirst⟩ : ∃ first, ticks.head? = some first := by
    cases ticks with
    | nil => exact absurd rfl hne
    | cons first rest => exact ⟨first, rfl⟩
  obtain ⟨last, hlast⟩ : ∃ last, ticks.getLast? = some last :=
    ⟨_, List.getLast?_eq_some_getLast hne⟩
  obtain ⟨hhigh, hlow⟩ := extremes_mem hne
  have hvolume : ticks.foldl (fun total tick => total + tick.volume) 0 =
      (ticks.map DukascopyTick.volume).sum := by
    rw [List.sum_eq_foldl, List.foldl_map]
  refine ⟨_, by rw [ticksToKline, hfirst, hlast], rfl, ?_⟩
  exact {
    open_eq := by rw [hfirst]; rfl
    high_mem := hhigh
    le_high := (le_foldl_max DukascopyTick.mid ticks (-f64Max)).2
    low_mem := hlow
    low_le := (foldl_min_le DukascopyTick.mid ticks f64Max).2
    close_eq := by rw [hlast]; rfl
    volume_eq := hvolume
    closeTime_eq := by rw [hlast]; rfl
    trades_eq := rfl }

/-! ## The loop -/

/-- The groups and the candles that the loop makes of them. -/
def Made (gs : List (ℤ × List DukascopyTick)) (klines : List Kline) : Prop :=
  List.Forall₂ (fun g k => k.openTime = g.1 ∧ IsCandleOf k g.2) gs klines

/-- The loop has seen `l`: the ticks of the last bucket are held, those of the others are
    candles. -/
def Groups (intervalMs : ℤ) (l : List DukascopyTick) (s : BucketLoop) : Prop :=
  ∃ gs, Grouped (tickBucket intervalMs) l (gs ++ [(s.currentBucketStart, s.bucketTicks)]) ∧
    Made gs s.klines

theorem Groups.bucketTicks_ne_nil {intervalMs : ℤ} {l : List DukascopyTick} {s : BucketLoop}
    (h : Groups intervalMs l s) : s.bucketTicks ≠ [] := by
  obtain ⟨gs, hgroups, -⟩ := h
  exact hgroups.ne_nil (s.currentBucketStart, s.bucketTicks) (by simp)

/-- **Step lemma.** A tick whose bucket is not before the others is added. -/
theorem Groups.step {intervalMs : ℤ} {l : List DukascopyTick} {s : BucketLoop}
    (h : Groups intervalMs l s) {tick : DukascopyTick}
    (hle : ∀ x ∈ l, tickBucket intervalMs x ≤ tickBucket intervalMs tick) :
    ∃ s', bucketStep intervalMs s tick = .ok s' ∧ Groups intervalMs (l ++ [tick]) s' := by
  have hne := h.bucketTicks_ne_nil
  obtain ⟨gs, hgroups, hklines⟩ := h
  by_cases hsame : tickBucket intervalMs tick = s.currentBucketStart
  · refine ⟨{ s with bucketTicks := s.bucketTicks ++ [tick] }, ?_, gs, hgroups.extend hsame,
      hklines⟩
    rw [bucketStep, if_neg (not_not.mpr hsame)]
    rfl
  · obtain ⟨k, hk, hopen, hcandle⟩ := ticksToKline_spec hne s.currentBucketStart
    have hlt : ∀ x ∈ l, tickBucket intervalMs x < tickBucket intervalMs tick := by
      intro x hx
      have hcur : s.currentBucketStart ≤ tickBucket intervalMs tick := by
        obtain ⟨y, hy, hkey⟩ := hgroups.exists_mem
          (g := (s.currentBucketStart, s.bucketTicks)) (by simp)
        exact hkey.symm.trans_le (hle y hy)
      exact (hgroups.le_last hx).trans_lt (lt_of_le_of_ne hcur (Ne.symm hsame))
    refine ⟨⟨s.klines ++ [k], [tick], tickBucket intervalMs tick⟩, ?_,
      gs ++ [(s.currentBucketStart, s.bucketTicks)], hgroups.start hlt, ?_⟩
    · rw [bucketStep, if_pos hsame, if_pos hne, hk]
      rfl
    · exact List.rel_append hklines (.cons ⟨hopen, hcandle⟩ .nil)

/-- **Run lemma.** -/
theorem Groups.run {intervalMs : ℤ} {l : List DukascopyTick} {s : BucketLoop}
    (h : Groups intervalMs l s) {rest : List DukascopyTick}
    (hsorted : (l ++ rest).Pairwise fun x y => tickBucket intervalMs x ≤ tickBucket intervalMs y) :
    ∃ s', rest.foldlM (bucketStep intervalMs) s = .ok s' ∧ Groups intervalMs (l ++ rest) s' := by
  induction rest generalizing l s with
  | nil => exact ⟨s, rfl, by simpa using h⟩
  | cons tick rest ih =>
    obtain ⟨s', hstep, hs'⟩ := h.step fun x hx =>
      (List.pairwise_append.mp hsorted).2.2 x hx tick List.mem_cons_self
    obtain ⟨s'', hrun, hs''⟩ := ih hs' (by simpa using hsorted)
    refine ⟨s'', ?_, by simpa using hs''⟩
    rw [List.foldlM_cons, hstep]
    exact hrun

/-- The loop groups the ticks by their truncated buckets. -/
theorem ticksToKlines_grouped {intervalMs : ℤ} {ticks : List DukascopyTick}
    (hsorted : ticks.Pairwise fun x y => tickBucket intervalMs x ≤ tickBucket intervalMs y) :
    ∃ gs klines, ticksToKlines ticks intervalMs = .ok klines ∧
      Grouped (tickBucket intervalMs) ticks gs ∧ Made gs klines := by
  cases ticks with
  | nil => exact ⟨[], [], rfl, Grouped.nil _, .nil⟩
  | cons first rest =>
    have hfirst : Groups intervalMs [first] ⟨[], [first], tickBucket intervalMs first⟩ :=
      ⟨[], (Grouped.nil _).start (by simp), .nil⟩
    have hloop : ∃ s, rest.foldlM (bucketStep intervalMs) _ = .ok s ∧
        Groups intervalMs (first :: rest) s := hfirst.run hsorted
    obtain ⟨s, hrun, hs⟩ := hloop
    have hne := hs.bucketTicks_ne_nil
    obtain ⟨gs, hgroups, hklines⟩ := hs
    obtain ⟨k, hk, hopen, hcandle⟩ := ticksToKline_spec hne s.currentBucketStart
    refine ⟨gs ++ [(s.currentBucketStart, s.bucketTicks)], s.klines ++ [k], ?_, hgroups,
      List.rel_append hklines (.cons ⟨hopen, hcandle⟩ .nil)⟩
    have hstart : bucketStep intervalMs ⟨[], [], tickBucket intervalMs first⟩ first =
        .ok ⟨[], [first], tickBucket intervalMs first⟩ := by
      rw [bucketStep, if_neg (not_not.mpr rfl)]
      rfl
    rw [ticksToKlines, List.foldlM_cons, hstart]
    simp only [bind, Except.bind, hrun, if_pos hne, hk]
    rfl

/-! ## Truncated and real buckets -/

variable {intervalMs : ℤ}

/-- The truncated bucket of a time is the one that it lies in, unless the time is negative and not
    itself the start of a bucket. -/
theorem tickBucket_of_lawful {tick : DukascopyTick} (h : 0 ≤ tick.time ∨ intervalMs ∣ tick.time) :
    tickBucket intervalMs tick = tick.time / intervalMs * intervalMs := by
  rw [tickBucket, Int.tdiv_eq_ediv, if_pos h, add_zero]

theorem tickBucket_le_tickBucket (hpos : 0 < intervalMs) {x y : DukascopyTick}
    (h : x.time ≤ y.time) : tickBucket intervalMs x ≤ tickBucket intervalMs y :=
  mul_le_mul_of_nonneg_right (Int.tdiv_le_tdiv hpos h) hpos.le

theorem dvd_tickBucket (tick : DukascopyTick) : intervalMs ∣ tickBucket intervalMs tick :=
  Dvd.intro_left _ rfl

/-- A multiple of the interval is the start of the bucket of the times in it. -/
theorem ediv_mul_eq_iff (hpos : 0 < intervalMs) {start t : ℤ} (hdvd : intervalMs ∣ start) :
    t / intervalMs * intervalMs = start ↔ start ≤ t ∧ t < start + intervalMs := by
  obtain ⟨c, rfl⟩ := hdvd
  have hmod := Int.emod_nonneg t hpos.ne'
  have hlt := Int.emod_lt_of_pos t hpos
  have hsplit := Int.mul_ediv_add_emod t intervalMs
  constructor
  · intro h
    rw [mul_comm] at h
    constructor <;> omega
  · rintro ⟨hle, hlt'⟩
    have hdiv : t / intervalMs = c := by
      rw [Int.ediv_eq_iff_of_pos hpos]
      constructor <;> linarith [mul_comm intervalMs c]
    rw [hdiv, mul_comm]

/-- A negative time that starts no bucket has its truncated bucket behind it. -/
theorem tickBucket_of_not_lawful (hpos : 0 < intervalMs) {tick : DukascopyTick}
    (h : ¬ (0 ≤ tick.time ∨ intervalMs ∣ tick.time)) :
    tickBucket intervalMs tick = tick.time / intervalMs * intervalMs + intervalMs := by
  rw [tickBucket, Int.tdiv_eq_ediv, if_neg h, Int.sign_eq_one_of_pos hpos]
  ring

/-! ## Candles and buckets -/

theorem Made.exists_group {gs : List (ℤ × List DukascopyTick)} {klines : List Kline}
    (h : Made gs klines) {k : Kline} (hk : k ∈ klines) :
    ∃ g ∈ gs, k.openTime = g.1 ∧ IsCandleOf k g.2 := by
  induction h with
  | nil => exact absurd hk List.not_mem_nil
  | cons hhead _ ih =>
    rcases List.mem_cons.mp hk with rfl | hk
    · exact ⟨_, List.mem_cons_self, hhead⟩
    · obtain ⟨g, hg, hmade⟩ := ih hk
      exact ⟨g, List.mem_cons_of_mem _ hg, hmade⟩

theorem Made.exists_kline {gs : List (ℤ × List DukascopyTick)} {klines : List Kline}
    (h : Made gs klines) {g : ℤ × List DukascopyTick} (hg : g ∈ gs) :
    ∃ k ∈ klines, k.openTime = g.1 ∧ IsCandleOf k g.2 := by
  induction h with
  | nil => exact absurd hg List.not_mem_nil
  | cons hhead _ ih =>
    rcases List.mem_cons.mp hg with rfl | hg
    · exact ⟨_, List.mem_cons_self, hhead⟩
    · obtain ⟨k, hk, hmade⟩ := ih hg
      exact ⟨k, List.mem_cons_of_mem _ hk, hmade⟩

theorem Made.ascending {gs : List (ℤ × List DukascopyTick)} {klines : List Kline}
    (h : Made gs klines) (hgs : gs.Pairwise fun g g' => g.1 < g'.1) :
    klines.Pairwise fun k k' => k.openTime < k'.openTime := by
  induction h with
  | nil => exact List.Pairwise.nil
  | cons hhead htail ih =>
    obtain ⟨hlt, hgs⟩ := List.pairwise_cons.mp hgs
    refine List.pairwise_cons.mpr ⟨fun k hk => ?_, ih hgs⟩
    obtain ⟨g, hg, hopen, -⟩ := Made.exists_group htail hk
    rw [hhead.1, hopen]
    exact hlt g hg

/-- Groups by real buckets make the candles of the interval. -/
theorem Made.candles (hpos : 0 < intervalMs) {ticks : List DukascopyTick}
    {gs : List (ℤ × List DukascopyTick)} {klines : List Kline} (h : Made gs klines)
    (hgs : Grouped (tickBucket intervalMs) ticks gs)
    (hlawful : ∀ tick ∈ ticks, 0 ≤ tick.time ∨ intervalMs ∣ tick.time) :
    Candles intervalMs ticks klines := by
  have hin : ∀ tick ∈ ticks, ∀ start, intervalMs ∣ start → (tickBucket intervalMs tick = start ↔
      start ≤ tick.time ∧ tick.time < start + intervalMs) := by
    intro tick htick start hdvd
    rw [tickBucket_of_lawful (hlawful tick htick), ediv_mul_eq_iff hpos hdvd]
  have hdvd : ∀ g ∈ gs, intervalMs ∣ g.1 := by
    intro g hg
    obtain ⟨tick, -, hkey⟩ := hgs.exists_mem hg
    rw [← hkey]
    exact dvd_tickBucket tick
  refine ⟨h.ascending hgs.ascending, fun k hk => ?_, fun k hk => ?_, fun tick htick => ?_⟩
  · obtain ⟨g, hg, hopen, -⟩ := h.exists_group hk
    rw [hopen]
    exact hdvd g hg
  · obtain ⟨g, hg, hopen, hcandle⟩ := h.exists_group hk
    have hticks : within k.openTime (k.openTime + intervalMs) ticks = g.2 := by
      rw [hgs.eq_filter g hg, within, hopen]
      refine List.filter_congr fun tick htick => ?_
      rw [decide_eq_decide, hin tick htick g.1 (hdvd g hg)]
    rwa [hticks]
  · obtain ⟨g, hg, hkey⟩ := hgs.covers tick htick
    obtain ⟨k, hk, hopen, -⟩ := h.exists_kline hg
    refine ⟨k, hk, ?_⟩
    rw [hopen]
    exact (hin tick htick g.1 (hdvd g hg)).mp hkey.symm

/-- A tick whose truncated bucket lies behind it is missing from the candle of its own bucket. -/
theorem Made.not_candles (hpos : 0 < intervalMs) {ticks : List DukascopyTick}
    {gs : List (ℤ × List DukascopyTick)} {klines : List Kline} (h : Made gs klines)
    (hgs : Grouped (tickBucket intervalMs) ticks gs) {tick : DukascopyTick} (htick : tick ∈ ticks)
    (hbad : ¬ (0 ≤ tick.time ∨ intervalMs ∣ tick.time)) : ¬ Candles intervalMs ticks klines := by
  intro hcandles
  -- the first such tick
  obtain ⟨first, hfirst, hmin⟩ := Finset.exists_min_image
    (ticks.filter fun x : DukascopyTick =>
      decide ¬ (0 ≤ x.time ∨ intervalMs ∣ x.time)).toFinset
    DukascopyTick.time ⟨tick, by simpa using And.intro htick hbad⟩
  obtain ⟨hfirst, hfirstBad⟩ : first ∈ ticks ∧ ¬ (0 ≤ first.time ∨ intervalMs ∣ first.time) := by
    simpa using hfirst
  obtain ⟨k, hk, hopen⟩ := hcandles.covers first hfirst
  have hdvd := hcandles.aligned k hk
  obtain ⟨g, hg, hkey, hcandle⟩ := h.exists_group hk
  have hbucket := (ediv_mul_eq_iff hpos hdvd).mpr hopen
  -- what the loop put under the start of its bucket lies in the bucket
  have hsub : ∀ x ∈ ticks, tickBucket intervalMs x = k.openTime →
      k.openTime ≤ x.time ∧ x.time < k.openTime + intervalMs := by
    intro x hx hxkey
    by_cases hlawful : 0 ≤ x.time ∨ intervalMs ∣ x.time
    · rw [tickBucket_of_lawful hlawful] at hxkey
      exact (ediv_mul_eq_iff hpos hdvd).mp hxkey
    · have hle := hmin x (by simpa using And.intro hx hlawful)
      have hmono : first.time / intervalMs * intervalMs ≤ x.time / intervalMs * intervalMs :=
        mul_le_mul_of_nonneg_right (Int.ediv_le_ediv hpos hle) hpos.le
      rw [tickBucket_of_not_lawful hpos hlawful] at hxkey
      omega
  have hlen : g.2.length = (within k.openTime (k.openTime + intervalMs) ticks).length := by
    have htrades := hcandle.trades_eq.symm.trans (hcandles.candle k hk).trades_eq
    exact Option.some.inj htrades
  have hfilter : g.2 = (within k.openTime (k.openTime + intervalMs) ticks).filter
      fun x => decide (tickBucket intervalMs x = k.openTime) := by
    rw [hgs.eq_filter g hg, within, List.filter_filter, ← hkey]
    refine List.filter_congr fun x hx => ?_
    by_cases hxkey : tickBucket intervalMs x = k.openTime
    · simp [hxkey, hsub x hx hxkey]
    · simp [hxkey]
  rw [hfilter, List.length_filter_eq_length_iff] at hlen
  have hin := hlen first (List.mem_filter.mpr ⟨hfirst, decide_eq_true hopen⟩)
  rw [decide_eq_true_eq, tickBucket_of_not_lawful hpos hfirstBad, hbucket] at hin
  omega

/-- The candles of time-ordered ticks are the partition into the buckets of the interval exactly
    when no tick before 1970 lies inside a bucket. -/
theorem ticksToKlines_candles_iff (hpos : 0 < intervalMs) {ticks : List DukascopyTick}
    (hsorted : ticks.Pairwise fun x y => x.time ≤ y.time) :
    (∃ klines, ticksToKlines ticks intervalMs = .ok klines ∧ Candles intervalMs ticks klines) ↔
      ∀ tick ∈ ticks, 0 ≤ tick.time ∨ intervalMs ∣ tick.time := by
  obtain ⟨gs, klines, hklines, hgs, hmade⟩ := ticksToKlines_grouped
    (hsorted.imp fun h => tickBucket_le_tickBucket hpos h)
  rw [hklines]
  constructor
  · rintro ⟨_, hok, hcandles⟩ tick htick
    by_contra hbad
    cases hok
    exact Made.not_candles hpos hmade hgs htick hbad hcandles
  · exact fun hlawful => ⟨klines, rfl, Made.candles hpos hmade hgs hlawful⟩

/-! ## How many candles -/

/-- The number of buckets that have ticks. -/
def bucketCount (intervalMs : ℤ) (ticks : List DukascopyTick) : ℕ :=
  (ticks.map fun tick => tick.time / intervalMs).dedup.length

/-- A candle has a tick of its bucket. -/
theorem Candles.exists_tick {ticks : List DukascopyTick} {klines : List Kline}
    (h : Candles intervalMs ticks klines) {k : Kline} (hk : k ∈ klines) :
    ∃ tick ∈ ticks, k.openTime ≤ tick.time ∧ tick.time < k.openTime + intervalMs := by
  obtain ⟨tick, htick, -⟩ := (h.candle k hk).high_mem
  obtain ⟨hmem, hin⟩ := List.mem_filter.mp htick
  exact ⟨tick, hmem, of_decide_eq_true hin⟩

/-- There is one candle for each bucket that has ticks. -/
theorem Candles.length_eq (hpos : 0 < intervalMs) {ticks : List DukascopyTick}
    {klines : List Kline} (h : Candles intervalMs ticks klines) :
    klines.length = bucketCount intervalMs ticks := by
  have hmul : ∀ k ∈ klines, k.openTime / intervalMs * intervalMs = k.openTime :=
    fun k hk => Int.ediv_mul_cancel (h.aligned k hk)
  have hnodup : (klines.map fun k => k.openTime / intervalMs).Nodup := by
    rw [List.Nodup, List.pairwise_map]
    refine h.ascending.imp_of_mem fun {k k'} hk hk' hlt heq => ?_
    rw [← hmul k hk, ← hmul k' hk', heq] at hlt
    exact lt_irrefl _ hlt
  have hperm : (klines.map fun k => k.openTime / intervalMs).Perm
      (ticks.map fun tick => tick.time / intervalMs).dedup := by
    rw [List.perm_ext_iff_of_nodup hnodup (List.nodup_dedup _)]
    intro c
    have hbucket : ∀ k ∈ klines, ∀ tick : DukascopyTick, k.openTime ≤ tick.time ∧
        tick.time < k.openTime + intervalMs → tick.time / intervalMs = k.openTime / intervalMs := by
      intro k hk tick hin
      have hstart := (ediv_mul_eq_iff hpos (h.aligned k hk)).mpr hin
      rw [← hmul k hk] at hstart
      exact mul_right_cancel₀ hpos.ne' hstart
    rw [List.mem_dedup, List.mem_map, List.mem_map]
    constructor
    · rintro ⟨k, hk, rfl⟩
      obtain ⟨tick, htick, hin⟩ := h.exists_tick hk
      exact ⟨tick, htick, hbucket k hk tick hin⟩
    · rintro ⟨tick, htick, rfl⟩
      obtain ⟨k, hk, hin⟩ := h.covers tick htick
      exact ⟨k, hk, (hbucket k hk tick hin).symm⟩
  rw [bucketCount, ← hperm.length_eq, List.length_map]

/-- The intervals of the code are positive. -/
theorem parseIntervalToMs_pos {U : Unicode} {interval : List Char}
    (h : parseIntervalToMs U interval = .ok intervalMs) : 0 < intervalMs := by
  rw [parseIntervalToMs] at h
  split_ifs at h <;> cases h <;> decide

end Digdigdig3.Dukascopy
