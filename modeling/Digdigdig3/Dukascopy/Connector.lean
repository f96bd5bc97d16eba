import Digdigdig3.Core.SymbolRecovery
import Digdigdig3.Dukascopy.Parser
import Digdigdig3.Lib.Buckets

/-!
# Dukascopy ranges

`DukascopyConnector` of `crates/digdigdig3/src/l3/gated/forex/dukascopy/connector.rs`: the walk over
the hourly files of an archive, and the candles that are made of the last hours.

* `ticksLoop_eq`: the hours that the walk reads.
* `AllTicks`: the ticks of a range, said without the walk; `allTicks_iff`: they are unique.
* `getTicksRange_allTicks_iff`: when the walk reads all of them.
* `getKlines_whole_iff`: when no candle of a closed bucket lacks ticks of it.
-/

namespace Digdigdig3.Dukascopy

/-! ## Model -/

/-- An hour in milliseconds. -/
def hourMs : ℤ := 3600000

/-- The date and the hour of a time; months are counted from 1. -/
structure CivilHour where
  year : ℤ
  month : ℕ
  day : ℕ
  hour : ℕ

/-- What the connector asks of `chrono`: the times in milliseconds that a `DateTime<Utc>` can hold,
    their date and hour, and the time at which an hour starts. -/
structure Chrono where
  minMs : ℤ
  maxMs : ℤ
  civil : ℤ → CivilHour
  hourStart : ℤ → ℕ → ℕ → ℕ → Option ℤ
  month_pos : ∀ ms, 1 ≤ (civil ms).month
  civil_hour : ∀ ms, civil ms = civil (ms / hourMs * hourMs)
  hourStart_civil : ∀ ms, minMs ≤ ms → ms ≤ maxMs → hourStart (civil ms).year (civil ms).month
    (civil ms).day (civil ms).hour = some (ms / hourMs * hourMs)

/-- `download_tick_file` (lines 57–95) by symbol, year, month from 0, day and hour: the decompressed
    file, empty for an hour without data. -/
abbrev Archive := List Char → ℤ → ℕ → ℕ → ℕ → Except ExchangeError Bytes

variable (C : Chrono) (A : Archive) (symbol : List Char)

/-- `get_hour_ticks` (lines 100–124). -/
def getHourTicks (year : ℤ) (month day hour : ℕ) : Except ExchangeError (List DukascopyTick) := do
  let data ← A symbol year month day hour
  if data = [] then return []
  else
    match C.hourStart year (month + 1) day hour with
    | some hourStartMs => parseBinaryTicks data hourStartMs symbol
    | none => .error (.parse "Invalid date/time")

/-- `tick.time >= from_ms && tick.time <= to_ms`. -/
def inRange (fromMs toMs : ℤ) (tick : DukascopyTick) : Bool :=
  decide (fromMs ≤ tick.time ∧ tick.time ≤ toMs)

/-- One iteration of the walk: the ticks of the cursor's hour that are retained. An hour that
    cannot be read is skipped. -/
def readHour (fromMs toMs current : ℤ) : List DukascopyTick :=
  let hour := C.civil current
  match getHourTicks C A symbol hour.year (hour.month - 1) hour.day hour.hour with
  | .ok ticks => ticks.filter (inRange fromMs toMs)
  | .error _ => []

/-- The loop of `get_ticks_range`; `none` is the overflow of the cursor. -/
def ticksLoop (fromMs toMs current : ℤ) (allTicks : List DukascopyTick) :
    Option (List DukascopyTick) :=
  if current ≤ toMs then
    let allTicks := allTicks ++ readHour C A symbol fromMs toMs current
    if current + hourMs ≤ C.maxMs then ticksLoop fromMs toMs (current + hourMs) allTicks else none
  else some allTicks
termination_by (toMs + 1 - current).toNat
decreasing_by rw [hourMs]; omega

/-- The error of a range without ticks. -/
def noTickData : ExchangeError := .api 404 "No tick data available for time range"

/-- `get_ticks_range` (lines 127–176); `none` is a panic. -/
def getTicksRange (fromMs toMs : ℤ) : Option (Except ExchangeError (List DukascopyTick)) :=
  if fromMs < C.minMs ∨ C.maxMs < fromMs then some (.error (.parse "Invalid from timestamp"))
  else if toMs < C.minMs ∨ C.maxMs < toMs then some (.error (.parse "Invalid to timestamp"))
  else (ticksLoop C A symbol fromMs toMs fromMs []).map fun allTicks =>
    if allTicks = [] then .error noTickData else .ok allTicks

/-- `source_hours` of `get_klines`. -/
def sourceHours (intervalMs limitCount : ℤ) : ℤ := min (max (intervalMs * limitCount / hourMs) 1) 48

/-- `limit_count`. -/
def limitCount (limit : Option UInt16) : ℕ := (limit.map UInt16.toNat).getD 24

/-- `from_ms` of `get_klines` at the time `nowMs`. -/
def klinesFrom (intervalMs : ℤ) (limit : Option UInt16) (nowMs : ℤ) : ℤ :=
  nowMs - sourceHours intervalMs (limitCount limit) * hourMs

/-- `get_klines` (lines 264–304) at the time `nowMs`, for the text of the symbol. -/
def getKlines (U : Unicode) (interval : List Char) (limit : Option UInt16) (nowMs : ℤ) :
    Option (Except ExchangeError (List Kline)) :=
  match parseIntervalToMs U interval with
  | .error e => some (.error e)
  | .ok intervalMs =>
    (getTicksRange C A symbol (klinesFrom intervalMs limit nowMs) nowMs).map fun ticks? => do
      let ticks ← ticks?
      let klines ← ticksToKlines ticks intervalMs
      return klines.drop
        (if limitCount limit < klines.length then klines.length - limitCount limit else 0)

/-! ## The hours that are read -/

/-- The ticks of the file of an hour, counted from 1970. -/
def hourFile (k : ℤ) : List DukascopyTick :=
  let hour := C.civil (k * hourMs)
  match getHourTicks C A symbol hour.year (hour.month - 1) hour.day hour.hour with
  | .ok ticks => ticks
  | .error _ => []

/-- `n` hours from the hour `k` on. -/
def hours (k : ℤ) (n : ℕ) : List ℤ := (List.range n).map fun i : ℕ => k + i

theorem mem_hours {k j : ℤ} {n : ℕ} : j ∈ hours k n ↔ k ≤ j ∧ j < k + n := by
  simp only [hours, List.mem_map, List.mem_range]
  constructor
  · rintro ⟨i, hi, rfl⟩
    omega
  · rintro ⟨hle, hlt⟩
    exact ⟨(j - k).toNat, by omega, by omega⟩

theorem pairwise_hours (k : ℤ) (n : ℕ) : (hours k n).Pairwise (· < ·) := by
  rw [hours, List.pairwise_map]
  exact List.pairwise_lt_range.imp fun h => by omega

theorem hours_succ (k : ℤ) (n : ℕ) : hours k (n + 1) = k :: hours (k + 1) n := by
  simp only [hours, List.range_succ_eq_map, List.map_cons, List.map_map, Nat.cast_zero, add_zero]
  congr 1
  refine List.map_congr_left fun i _ => ?_
  simp only [Function.comp, Nat.succ_eq_add_one]
  push_cast
  ring

theorem hours_concat (k : ℤ) (n : ℕ) : hours k (n + 1) = hours k n ++ [k + n] := by
  simp [hours, List.range_succ]

/-- The cursor reads the file of its hour. -/
theorem readHour_eq (fromMs toMs current : ℤ) : readHour C A symbol fromMs toMs current =
    (hourFile C A symbol (current / hourMs)).filter (inRange fromMs toMs) := by
  rw [readHour, hourFile, C.civil_hour current]
  split <;> rfl

/-- How many hours are read from a cursor on. -/
def steps (toMs current : ℤ) : ℕ := ((toMs - current) / hourMs + 1).toNat

theorem steps_of_lt {toMs current : ℤ} (h : toMs < current) : steps toMs current = 0 := by
  have hneg : (toMs - current) / hourMs < 0 := Int.ediv_neg_of_neg_of_pos (by omega) (by decide)
  rw [steps]
  omega

theorem steps_of_le {toMs current : ℤ} (h : current ≤ toMs) :
    steps toMs current = steps toMs (current + hourMs) + 1 := by
  have hnonneg : 0 ≤ (toMs - current) / hourMs := Int.ediv_nonneg (by omega) (by decide)
  have hnext : (toMs - (current + hourMs)) / hourMs = (toMs - current) / hourMs - 1 := by
    rw [show toMs - (current + hourMs) = toMs - current + -1 * hourMs by ring,
      Int.add_mul_ediv_right _ _ (by decide)]
    rfl
  rw [steps, steps, hnext]
  omega

theorem steps_eq {toMs current : ℤ} (h : current ≤ toMs) :
    (steps toMs current : ℤ) = (toMs - current) / hourMs + 1 := by
  have : 0 ≤ (toMs - current) / hourMs := Int.ediv_nonneg (by omega) (by decide)
  rw [steps]
  omega

/-- **Run lemma.** The walk reads hour after hour from that of the cursor on, unless it runs out of
    calendar. -/
theorem ticksLoop_eq (fromMs toMs current : ℤ) (allTicks : List DukascopyTick) :
    ticksLoop C A symbol fromMs toMs current allTicks =
      if current ≤ toMs ∧ C.maxMs < current + steps toMs current * hourMs then none
      else some (allTicks ++ (hours (current / hourMs) (steps toMs current)).flatMap fun k =>
        (hourFile C A symbol k).filter (inRange fromMs toMs)) := by
  induction hn : steps toMs current generalizing current allTicks with
  | zero =>
    have hlt : ¬ current ≤ toMs := by
      intro hle
      have := steps_of_le hle
      omega
    rw [ticksLoop, if_neg hlt, if_neg fun h => hlt h.1]
    simp [hours]
  | succ n ih =>
    have hle : current ≤ toMs := by
      by_contra hlt
      rw [steps_of_lt (not_le.mp hlt)] at hn
      omega
    have hnext : steps toMs (current + hourMs) = n := by
      have := steps_of_le hle
      omega
    have hpos : 0 < hourMs := by decide
    rw [ticksLoop, if_pos hle]
    simp only
    by_cases hmax : current + hourMs ≤ C.maxMs
    · have hhour : (current + hourMs) / hourMs = current / hourMs + 1 := by
        rw [Int.add_ediv_of_dvd_right dvd_rfl, Int.ediv_self hpos.ne']
      have hcond : (current + hourMs ≤ toMs ∧
          C.maxMs < current + hourMs + n * hourMs) ↔
          (current ≤ toMs ∧ C.maxMs < current + (n + 1 : ℕ) * hourMs) := by
        have hsum : current + hourMs + n * hourMs = current + (n + 1 : ℕ) * hourMs := by
          push_cast
          ring
        rw [hsum]
        refine ⟨fun h => ⟨hle, h.2⟩, fun h => ⟨?_, h.2⟩⟩
        by_contra hlt
        rw [steps_of_lt (not_le.mp hlt)] at hnext
        rw [← hnext] at h
        simp only [zero_add, Nat.cast_one, one_mul] at h
        omega
      rw [if_pos hmax, ih (current + hourMs) _ hnext, if_congr hcond rfl rfl, hhour, hours_succ,
        List.flatMap_cons, readHour_eq, List.append_assoc]
    · rw [if_neg hmax, if_pos]
      refine ⟨hle, ?_⟩
      push_cast
      have : 0 ≤ (n : ℤ) * hourMs := by positivity
      linarith

/-! ## The ticks of a range -/

/-- Every hourly file holds ticks of its hour, ordered by time. -/
structure Ordered : Prop where
  sorted : ∀ k, (hourFile C A symbol k).Pairwise fun x y => x.time ≤ y.time
  in_hour : ∀ k, ∀ tick ∈ hourFile C A symbol k, tick.time / hourMs = k

/-- `ticks` are the ticks of the archive in the range, in order and each once. -/
structure AllTicks (fromMs toMs : ℤ) (ticks : List DukascopyTick) : Prop where
  sorted : ticks.Pairwise fun x y => x.time ≤ y.time
  in_range : ∀ tick ∈ ticks, fromMs ≤ tick.time ∧ tick.time ≤ toMs
  of_hour : ∀ k, ticks.filter (fun tick => decide (tick.time / hourMs = k)) =
    (hourFile C A symbol k).filter (inRange fromMs toMs)

/-- The hours of a range. -/
def rangeHours (fromMs toMs : ℤ) : List ℤ :=
  hours (fromMs / hourMs) (toMs / hourMs + 1 - fromMs / hourMs).toNat

/-- The files of the hours of a range, without the ticks outside it. -/
def ticksBetween (fromMs toMs : ℤ) : List DukascopyTick :=
  (rangeHours fromMs toMs).flatMap fun k => (hourFile C A symbol k).filter (inRange fromMs toMs)

variable {C A symbol}

theorem mem_inRange {fromMs toMs : ℤ} {tick : DukascopyTick} :
    inRange fromMs toMs tick = true ↔ fromMs ≤ tick.time ∧ tick.time ≤ toMs :=
  decide_eq_true_iff

theorem mem_rangeHours {fromMs toMs : ℤ} {tick : DukascopyTick}
    (h : inRange fromMs toMs tick = true) : tick.time / hourMs ∈ rangeHours fromMs toMs := by
  obtain ⟨hfrom, hto⟩ := mem_inRange.mp h
  have hpos : 0 < hourMs := by decide
  have hlo := Int.ediv_le_ediv hpos hfrom
  have hhi := Int.ediv_le_ediv hpos hto
  rw [rangeHours, mem_hours]
  omega

/-- The ticks of a range are unique. -/
theorem AllTicks.eq_ticksBetween {fromMs toMs : ℤ} {ticks : List DukascopyTick}
    (h : AllTicks C A symbol fromMs toMs ticks) : ticks = ticksBetween C A symbol fromMs toMs := by
  -- the ticks with their hours, and the hours read in ascending order
  let hourTicks := ticks.map fun tick => (tick.time / hourMs, tick)
  have hsorted : hourTicks.Pairwise fun a b => a.1 ≤ b.1 := by
    rw [List.pairwise_map]
    exact h.sorted.imp fun hle => Int.ediv_le_ediv (by decide) hle
  have hmem : ∀ w ∈ hourTicks, w.1 ∈ rangeHours fromMs toMs := by
    intro w hw
    obtain ⟨tick, htick, rfl⟩ := List.mem_map.mp hw
    exact mem_rangeHours (mem_inRange.mpr (h.in_range tick htick))
  have hbuckets := flatMap_bucket_of_sorted (pairwise_hours _ _) hsorted hmem
  rw [List.map_map] at hbuckets
  have hid : ticks.map (Prod.snd ∘ fun tick => (tick.time / hourMs, tick)) = ticks :=
    List.map_id ticks
  rw [← hid, ← hbuckets, ticksBetween]
  refine List.flatMap_congr fun k _ => ?_
  rw [← h.of_hour k, bucket, List.filter_map, List.map_map]
  exact List.map_id _

theorem Ordered.allTicks (hA : Ordered C A symbol) (fromMs toMs : ℤ) :
    AllTicks C A symbol fromMs toMs (ticksBetween C A symbol fromMs toMs) where
  sorted := by
    rw [ticksBetween, List.pairwise_flatMap]
    refine ⟨fun k _ => (hA.sorted k).filter _, (pairwise_hours _ _).imp ?_⟩
    intro k k' hlt x hx y hy
    have hxk := hA.in_hour k x (List.mem_of_mem_filter hx)
    have hyk := hA.in_hour k' y (List.mem_of_mem_filter hy)
    by_contra hle
    have := Int.ediv_le_ediv (show 0 < hourMs by decide) (not_le.mp hle).le
    omega
  in_range := by
    intro tick htick
    obtain ⟨k, -, htick⟩ := List.mem_flatMap.mp htick
    exact mem_inRange.mp (List.mem_filter.mp htick).2
  of_hour := by
    intro k
    have hother : ∀ k', k' ≠ k → ((hourFile C A symbol k').filter (inRange fromMs toMs)).filter
        (fun tick => decide (tick.time / hourMs = k)) = [] := by
      intro k' hne
      refine List.filter_eq_nil_iff.mpr fun tick htick => ?_
      rw [hA.in_hour k' tick (List.mem_of_mem_filter htick)]
      simpa using hne
    have hsame : ((hourFile C A symbol k).filter (inRange fromMs toMs)).filter
        (fun tick => decide (tick.time / hourMs = k)) =
        (hourFile C A symbol k).filter (inRange fromMs toMs) := by
      refine List.filter_eq_self.mpr fun tick htick => ?_
      rw [hA.in_hour k tick (List.mem_of_mem_filter htick)]
      exact decide_eq_true rfl
    -- only the file of the hour `k` has ticks of that hour
    have hread : (rangeHours fromMs toMs).flatMap (fun k' =>
        ((hourFile C A symbol k').filter (inRange fromMs toMs)).filter
          fun tick => decide (tick.time / hourMs = k)) = [k].flatMap fun k' =>
        ((hourFile C A symbol k').filter (inRange fromMs toMs)).filter
          fun tick => decide (tick.time / hourMs = k) := by
      refine flatMap_eq_of_sorted (pairwise_hours _ _) (List.pairwise_singleton _ _) ?_
      intro k' hne
      have hk : k' = k := by
        by_contra hk
        exact hne (hother k' hk)
      subst hk
      rw [hsame] at hne
      obtain ⟨tick, htick⟩ := List.exists_mem_of_ne_nil _ hne
      obtain ⟨hmem, hrange⟩ := List.mem_filter.mp htick
      have hhour := mem_rangeHours hrange
      rw [hA.in_hour k' tick hmem] at hhour
      exact iff_of_true hhour (List.mem_singleton_self k')
    rw [ticksBetween, List.filter_flatMap, hread, List.flatMap_singleton, hsame]

theorem allTicks_iff (hA : Ordered C A symbol) {fromMs toMs : ℤ} {ticks : List DukascopyTick} :
    AllTicks C A symbol fromMs toMs ticks ↔ ticks = ticksBetween C A symbol fromMs toMs :=
  ⟨AllTicks.eq_ticksBetween, fun h => h ▸ hA.allTicks fromMs toMs⟩

/-- The ticks of a smaller range. -/
theorem Ordered.filter_ticksBetween (hA : Ordered C A symbol) {fromMs toMs a b : ℤ}
    (ha : fromMs ≤ a) (hb : b ≤ toMs) :
    (ticksBetween C A symbol fromMs toMs).filter (inRange a b) = ticksBetween C A symbol a b := by
  apply AllTicks.eq_ticksBetween
  have hall := hA.allTicks fromMs toMs
  refine ⟨hall.sorted.filter _, fun tick htick => mem_inRange.mp (List.mem_filter.mp htick).2,
    fun k => ?_⟩
  rw [List.filter_comm, hall.of_hour, List.filter_filter]
  refine List.filter_congr fun tick _ => ?_
  by_cases h : inRange a b tick = true
  · have hrange := mem_inRange.mp h
    have hlarge : inRange fromMs toMs tick = true :=
      mem_inRange.mpr ⟨ha.trans hrange.1, hrange.2.trans hb⟩
    rw [h, hlarge]
    rfl
  · rw [Bool.not_eq_true] at h
    rw [h, Bool.false_and]

/-! ## When the walk reads a range -/

/-- The hours of a range are those that are read, and the last one if the minute of the end is
    before that of the start. -/
theorem rangeHours_eq {fromMs toMs : ℤ} (hle : fromMs ≤ toMs) :
    rangeHours fromMs toMs = if fromMs % hourMs ≤ toMs % hourMs
      then hours (fromMs / hourMs) (steps toMs fromMs)
      else hours (fromMs / hourMs) (steps toMs fromMs) ++ [toMs / hourMs] := by
  have hpos : 0 < hourMs := by decide
  have hfrom := Int.mul_ediv_add_emod fromMs hourMs
  have hto := Int.mul_ediv_add_emod toMs hourMs
  have hmodFrom := Int.emod_nonneg fromMs hpos.ne'
  have hmodTo := Int.emod_nonneg toMs hpos.ne'
  have hltFrom := Int.emod_lt_of_pos fromMs hpos
  have hltTo := Int.emod_lt_of_pos toMs hpos
  have hhours : fromMs / hourMs ≤ toMs / hourMs := Int.ediv_le_ediv hpos hle
  have hdiff : toMs - fromMs = (toMs / hourMs - fromMs / hourMs) * hourMs +
      (toMs % hourMs - fromMs % hourMs) := by linarith
  split_ifs with hphase
  · have hdiv : (toMs - fromMs) / hourMs = toMs / hourMs - fromMs / hourMs := by
      rw [Int.ediv_eq_iff_of_pos hpos]
      constructor <;> linarith
    rw [rangeHours, steps, hdiv]
    congr 2
    ring
  · have hdiv : (toMs - fromMs) / hourMs = toMs / hourMs - fromMs / hourMs - 1 := by
      rw [Int.ediv_eq_iff_of_pos hpos]
      constructor <;> linarith
    have hlt : fromMs / hourMs < toMs / hourMs := by
      refine lt_of_le_of_ne hhours fun heq => ?_
      rw [heq] at hfrom
      omega
    have hcount : (toMs / hourMs + 1 - fromMs / hourMs).toNat = steps toMs fromMs + 1 := by
      rw [steps, hdiv]
      omega
    have hlast : fromMs / hourMs + steps toMs fromMs = toMs / hourMs := by
      rw [steps, hdiv]
      omega
    rw [rangeHours, hcount, hours_concat, hlast]

/-- The ticks that the walk reads. -/
theorem getTicksRange_eq {fromMs toMs : ℤ} (hle : fromMs ≤ toMs) (hmin : C.minMs ≤ fromMs)
    (hmax : fromMs + ((toMs - fromMs) / hourMs + 1) * hourMs ≤ C.maxMs) :
    getTicksRange C A symbol fromMs toMs =
      let allTicks := (hours (fromMs / hourMs) (steps toMs fromMs)).flatMap fun k =>
        (hourFile C A symbol k).filter (inRange fromMs toMs)
      some (if allTicks = [] then .error noTickData else .ok allTicks) := by
  have hpos : 0 < hourMs := by decide
  have hlt : toMs < fromMs + ((toMs - fromMs) / hourMs + 1) * hourMs := by
    have := Int.lt_ediv_add_one_mul_self (toMs - fromMs) hpos
    omega
  rw [getTicksRange, if_neg (by omega), if_neg (by omega), ticksLoop_eq, if_neg]
  · rfl
  · rw [steps_eq hle]
    omega

/-- The reply tells what was read. -/
theorem reply_inj {ticks ticks' : List DukascopyTick} :
    (if ticks = [] then Except.error noTickData else Except.ok ticks) =
      (if ticks' = [] then Except.error noTickData else Except.ok ticks') ↔ ticks = ticks' := by
  constructor
  · intro h
    split_ifs at h with hnil hnil' hnil'
    · rw [hnil, hnil']
    · cases h
      rfl
  · rintro rfl
    rfl

/-- No tick of the hour of the end is in the range. -/
theorem filter_lastHour_eq_nil_iff (hA : Ordered C A symbol) {fromMs toMs : ℤ}
    (hlt : fromMs / hourMs < toMs / hourMs) :
    (hourFile C A symbol (toMs / hourMs)).filter (inRange fromMs toMs) = [] ↔
      ∀ tick ∈ hourFile C A symbol (toMs / hourMs), toMs < tick.time := by
  rw [List.filter_eq_nil_iff]
  refine forall₂_congr fun tick htick => ?_
  have hfrom : fromMs ≤ tick.time := by
    by_contra hbefore
    have := Int.ediv_le_ediv (show 0 < hourMs by decide) (not_le.mp hbefore).le
    rw [hA.in_hour _ tick htick] at this
    omega
  rw [mem_inRange]
  omega

/-- The walk reads exactly the ticks of the range exactly when its hours fit the calendar and the
    hour of the end is reached or has no tick of the range. -/
theorem getTicksRange_allTicks_iff (hA : Ordered C A symbol) {fromMs toMs : ℤ}
    (hle : fromMs ≤ toMs) :
    (∃ ticks, AllTicks C A symbol fromMs toMs ticks ∧ getTicksRange C A symbol fromMs toMs =
      some (if ticks = [] then .error noTickData else .ok ticks)) ↔
    C.minMs ≤ fromMs ∧ fromMs + ((toMs - fromMs) / hourMs + 1) * hourMs ≤ C.maxMs ∧
      (fromMs % hourMs ≤ toMs % hourMs ∨
        ∀ tick ∈ hourFile C A symbol (toMs / hourMs), toMs < tick.time) := by
  have hpos : 0 < hourMs := by decide
  simp only [allTicks_iff hA, exists_eq_left]
  by_cases hmin : C.minMs ≤ fromMs
  swap
  · rw [getTicksRange, if_pos (.inl (not_le.mp hmin))]
    refine iff_of_false (fun h => ?_) fun h => hmin h.1
    split_ifs at h <;> cases h
  by_cases hmax : fromMs + ((toMs - fromMs) / hourMs + 1) * hourMs ≤ C.maxMs
  swap
  · refine iff_of_false (fun h => ?_) fun h => hmax h.2.1
    rw [getTicksRange, ticksLoop_eq, if_pos (c := fromMs ≤ toMs ∧ _)] at h
    · split_ifs at h <;> cases h
    · rw [steps_eq hle]
      omega
  rw [getTicksRange_eq hle hmin hmax, Option.some.injEq, reply_inj, ticksBetween,
    rangeHours_eq hle]
  by_cases hphase : fromMs % hourMs ≤ toMs % hourMs
  · rw [if_pos hphase]
    exact iff_of_true rfl ⟨hmin, hmax, .inl hphase⟩
  · -- the file of the last hour is not read
    have hhour : fromMs / hourMs < toMs / hourMs := by
      refine lt_of_le_of_ne (Int.ediv_le_ediv hpos hle) fun heq => ?_
      have hfrom := Int.mul_ediv_add_emod fromMs hourMs
      have hto := Int.mul_ediv_add_emod toMs hourMs
      rw [heq] at hfrom
      omega
    rw [if_neg hphase, List.flatMap_append, List.flatMap_singleton, List.self_eq_append_right,
      filter_lastHour_eq_nil_iff hA hhour]
    exact ⟨fun h => ⟨hmin, hmax, .inr h⟩, fun h => h.2.2.resolve_left hphase⟩

/-! ## The candles of the last hours -/

/-- No candle of a closed bucket lacks ticks of the bucket. -/
def WholeCandles (C : Chrono) (A : Archive) (symbol : List Char) (intervalMs nowMs : ℤ)
    (klines : List Kline) : Prop :=
  ∀ k ∈ klines, k.openTime + intervalMs ≤ nowMs →
    IsCandleOf k (ticksBetween C A symbol k.openTime (k.openTime + intervalMs - 1))

theorem sourceHours_pos (intervalMs limitCount : ℤ) : 1 ≤ sourceHours intervalMs limitCount := by
  rw [sourceHours]
  omega

/-- The last hours are read as a whole. -/
theorem getTicksRange_klinesFrom (hA : Ordered C A symbol) {intervalMs nowMs : ℤ}
    {limit : Option UInt16} (hmin : C.minMs ≤ klinesFrom intervalMs limit nowMs)
    (hmax : nowMs + hourMs ≤ C.maxMs) :
    getTicksRange C A symbol (klinesFrom intervalMs limit nowMs) nowMs =
      let ticks := ticksBetween C A symbol (klinesFrom intervalMs limit nowMs) nowMs
      some (if ticks = [] then .error noTickData else .ok ticks) := by
  have hpos : 0 < hourMs := by decide
  have hhours := sourceHours_pos intervalMs (limitCount limit)
  have hnow : nowMs = klinesFrom intervalMs limit nowMs +
      sourceHours intervalMs (limitCount limit) * hourMs := by
    rw [klinesFrom]
    ring
  have hle : klinesFrom intervalMs limit nowMs ≤ nowMs := by nlinarith
  have hdiff : (nowMs - klinesFrom intervalMs limit nowMs) / hourMs =
      sourceHours intervalMs (limitCount limit) := by
    rw [klinesFrom, sub_sub_cancel, Int.mul_ediv_cancel _ hpos.ne']
  obtain ⟨ticks, hticks, hread⟩ := (getTicksRange_allTicks_iff hA hle).mpr
    ⟨hmin, by rw [hdiff, add_mul, one_mul, ← add_assoc, ← hnow]; exact hmax, .inl (by
      rw [klinesFrom, Int.sub_mul_emod_self_right])⟩
  rw [hread, (allTicks_iff hA).mp hticks]

/-- The candles that are returned are the last ones of the candles of the window. -/
theorem getKlines_eq (hA : Ordered C A symbol) {U : Unicode} {interval : List Char}
    {limit : Option UInt16} {intervalMs nowMs : ℤ}
    (hinterval : parseIntervalToMs U interval = .ok intervalMs)
    (hclock : 0 ≤ klinesFrom intervalMs limit nowMs) (hmin : C.minMs ≤ 0)
    (hmax : nowMs + hourMs ≤ C.maxMs) :
    ∃ klines, Candles intervalMs
        (ticksBetween C A symbol (klinesFrom intervalMs limit nowMs) nowMs) klines ∧
      getKlines C A symbol U interval limit nowMs =
        some (if ticksBetween C A symbol (klinesFrom intervalMs limit nowMs) nowMs = []
          then .error noTickData else .ok (klines.drop (klines.length - limitCount limit))) := by
  have hall := hA.allTicks (klinesFrom intervalMs limit nowMs) nowMs
  obtain ⟨klines, hklines, hcandles⟩ := (ticksToKlines_candles_iff
    (parseIntervalToMs_pos hinterval) hall.sorted).mpr fun tick htick =>
      .inl (hclock.trans (hall.in_range tick htick).1)
  refine ⟨klines, hcandles, ?_⟩
  have hdrop : (if limitCount limit < klines.length then klines.length - limitCount limit else 0) =
      klines.length - limitCount limit := by
    split_ifs <;> omega
  simp only [getKlines, hinterval,
    getTicksRange_klinesFrom hA (hmin.trans hclock) hmax, Option.map_some]
  split_ifs with hnil
  · rfl
  · simp only [bind, Except.bind, hklines, hdrop, pure, Except.pure]

/-- The ticks of a bucket in a range that ends after it. -/
theorem within_ticksBetween (hA : Ordered C A symbol) {fromMs toMs start intervalMs : ℤ}
    (hstop : start + intervalMs ≤ toMs) :
    within start (start + intervalMs) (ticksBetween C A symbol fromMs toMs) =
      ticksBetween C A symbol (max start fromMs) (start + intervalMs - 1) := by
  have hall := hA.allTicks fromMs toMs
  rw [← hA.filter_ticksBetween (le_max_right start fromMs)
    (show start + intervalMs - 1 ≤ toMs by omega)]
  refine List.filter_congr fun tick htick => ?_
  have hfrom := (hall.in_range tick htick).1
  rw [inRange, decide_eq_decide]
  omega

/-- A candle of the end of a bucket is one of the whole bucket exactly when the bucket has no tick
    before. -/
theorem isCandleOf_end_iff (hA : Ordered C A symbol) {start stop fromMs : ℤ}
    (hstart : start ≤ fromMs) (hstop : fromMs ≤ stop + 1) {k : Kline}
    (hk : IsCandleOf k (ticksBetween C A symbol fromMs stop)) :
    IsCandleOf k (ticksBetween C A symbol start stop) ↔
      ticksBetween C A symbol start (fromMs - 1) = [] := by
  have hend := hA.filter_ticksBetween hstart (le_refl stop)
  have hbefore := hA.filter_ticksBetween (le_refl start) (show fromMs - 1 ≤ stop by omega)
  have hall := hA.allTicks start stop
  constructor
  · intro hwhole
    have hlen : ((ticksBetween C A symbol start stop).filter (inRange fromMs stop)).length =
        (ticksBetween C A symbol start stop).length := by
      rw [hend]
      exact Option.some.inj (hk.trades_eq.symm.trans hwhole.trades_eq)
    rw [List.length_filter_eq_length_iff] at hlen
    rw [← hbefore, List.filter_eq_nil_iff]
    intro tick htick
    have := mem_inRange.mp (hlen tick htick)
    rw [mem_inRange]
    omega
  · intro hnil
    rw [← hbefore, List.filter_eq_nil_iff] at hnil
    rw [← hend, List.filter_eq_self.mpr] at hk
    · exact hk
    · intro tick htick
      have hrange := hall.in_range tick htick
      have := hnil tick htick
      rw [mem_inRange] at this ⊢
      omega

/-- The bucket in which the window starts is over, has ticks before the window and in it, and its
    candle is not cut off by the limit. -/
def CutsBucket (C : Chrono) (A : Archive) (symbol : List Char) (intervalMs : ℤ)
    (limit : Option UInt16) (nowMs : ℤ) : Prop :=
  let fromMs := klinesFrom intervalMs limit nowMs
  let start := fromMs / intervalMs * intervalMs
  start + intervalMs ≤ nowMs ∧ ticksBetween C A symbol start (fromMs - 1) ≠ [] ∧
    ticksBetween C A symbol fromMs (start + intervalMs - 1) ≠ [] ∧
    bucketCount intervalMs (ticksBetween C A symbol fromMs nowMs) ≤ limitCount limit

/-- No candle of the window starts before the bucket in which the window starts. -/
theorem Candles.start_le {intervalMs fromMs toMs : ℤ} (hpos : 0 < intervalMs)
    (hA : Ordered C A symbol) {klines : List Kline}
    (h : Candles intervalMs (ticksBetween C A symbol fromMs toMs) klines) {k : Kline}
    (hk : k ∈ klines) : fromMs / intervalMs * intervalMs ≤ k.openTime := by
  obtain ⟨tick, htick, hin⟩ := h.exists_tick hk
  rw [← (ediv_mul_eq_iff hpos (h.aligned k hk)).mpr hin]
  have hfrom := ((hA.allTicks fromMs toMs).in_range tick htick).1
  exact mul_le_mul_of_nonneg_right (Int.ediv_le_ediv hpos hfrom) hpos.le

/-- The candles of closed buckets are whole exactly when the window does not cut a bucket. -/
theorem getKlines_whole_iff (hA : Ordered C A symbol) {U : Unicode} {interval : List Char}
    {limit : Option UInt16} {intervalMs nowMs : ℤ}
    (hinterval : parseIntervalToMs U interval = .ok intervalMs)
    (hclock : 0 ≤ klinesFrom intervalMs limit nowMs) (hmin : C.minMs ≤ 0)
    (hmax : nowMs + hourMs ≤ C.maxMs) :
    (∃ result, getKlines C A symbol U interval limit nowMs = some result ∧
      ∀ klines, result = .ok klines → WholeCandles C A symbol intervalMs nowMs klines) ↔
    ¬ CutsBucket C A symbol intervalMs limit nowMs := by
  have hpos := parseIntervalToMs_pos hinterval
  obtain ⟨klines, hcandles, heq⟩ := getKlines_eq hA hinterval hclock hmin hmax
  rw [heq, CutsBucket]
  set fromMs := klinesFrom intervalMs limit nowMs with hfromMs
  set start := fromMs / intervalMs * intervalMs with hstart
  have hdvd : intervalMs ∣ start := Dvd.intro_left _ rfl
  obtain ⟨hstartLe, hltStart⟩ := (ediv_mul_eq_iff hpos hdvd).mp hstart.symm
  have hall := hA.allTicks fromMs nowMs
  by_cases hnil : ticksBetween C A symbol fromMs nowMs = []
  · rw [if_pos hnil]
    refine iff_of_true ⟨_, rfl, fun _ hok => absurd hok (by simp)⟩ ?_
    rintro ⟨hclosed, -, hin, -⟩
    rw [← hA.filter_ticksBetween le_rfl (show start + intervalMs - 1 ≤ nowMs by omega), hnil] at hin
    exact hin rfl
  rw [if_neg hnil]
  constructor
  · rintro ⟨result, hresult, hwhole⟩ ⟨hclosed, hbefore, hin, hcount⟩
    obtain rfl := Option.some.inj hresult
    have hwhole := hwhole _ rfl
    rw [hcandles.length_eq hpos, Nat.sub_eq_zero_of_le hcount, List.drop_zero] at hwhole
    -- the bucket of the start has a candle
    obtain ⟨tick, htick⟩ := List.exists_mem_of_ne_nil _ hin
    have hrange := (hA.allTicks _ _).in_range tick htick
    rw [← hA.filter_ticksBetween le_rfl (show start + intervalMs - 1 ≤ nowMs by omega)] at htick
    obtain ⟨k, hk, hopen⟩ := hcandles.covers tick (List.mem_of_mem_filter htick)
    have hkey : k.openTime = start := by
      rw [← (ediv_mul_eq_iff hpos (hcandles.aligned k hk)).mpr hopen, ediv_mul_eq_iff hpos hdvd]
      omega
    have hcandle := hcandles.candle k hk
    rw [hkey, within_ticksBetween hA hclosed, max_eq_right hstartLe] at hcandle
    have hk := hwhole k hk (by omega)
    rw [hkey] at hk
    exact hbefore ((isCandleOf_end_iff hA hstartLe (by omega) hcandle).mp hk)
  · intro hcut
    refine ⟨_, rfl, fun returned hok k hk hclosed => ?_⟩
    cases hok
    have hkmem := List.mem_of_mem_drop hk
    have hcandle := hcandles.candle k hkmem
    rw [within_ticksBetween hA hclosed] at hcandle
    by_cases hfrom : fromMs ≤ k.openTime
    · rwa [max_eq_left hfrom] at hcandle
    rw [not_le] at hfrom
    obtain ⟨tick, htick, hin⟩ := hcandles.exists_tick hkmem
    have htickFrom := (hall.in_range tick htick).1
    have hkey : k.openTime = start :=
      ((ediv_mul_eq_iff hpos (hcandles.aligned k hkmem)).mpr (by omega)).symm
    rw [max_eq_right hfrom.le] at hcandle
    rw [isCandleOf_end_iff hA hfrom.le (by omega) hcandle]
    -- a cut bucket has the first candle, and the limit leaves it out
    by_contra hbefore
    rw [hkey] at hclosed hbefore hin
    refine hcut ⟨hclosed, hbefore, ?_, ?_⟩
    · apply List.ne_nil_of_mem (a := tick)
      rw [← hA.filter_ticksBetween le_rfl (show start + intervalMs - 1 ≤ nowMs by omega),
        List.mem_filter, mem_inRange]
      exact ⟨htick, htickFrom, by omega⟩
    · by_contra hlimit
      rw [← hcandles.length_eq hpos] at hlimit
      cases hklines : klines with
      | nil =>
        rw [hklines] at hkmem
        exact List.not_mem_nil hkmem
      | cons first rest =>
        obtain ⟨n, hn⟩ := Nat.exists_eq_succ_of_ne_zero
          (show klines.length - limitCount limit ≠ 0 by omega)
        rw [hn, hklines, List.drop_succ_cons] at hk
        have hascending := hcandles.ascending
        rw [hklines] at hascending
        have hlt := (List.pairwise_cons.mp hascending).1 k (List.mem_of_mem_drop hk)
        have hle := hcandles.start_le hpos hA (k := first) (by simp [hklines])
        omega

/-- When ranges and candles are complete: a range, the candles of any ordered ticks, and the candles
    of closed buckets that are returned. -/
theorem complete_iff (C : Chrono) (A : Archive) (symbol : List Char) (hA : Ordered C A symbol) :
    (∀ fromMs toMs, fromMs ≤ toMs →
      ((∃ ticks, AllTicks C A symbol fromMs toMs ticks ∧ getTicksRange C A symbol fromMs toMs =
          some (if ticks = [] then .error noTickData else .ok ticks)) ↔
        C.minMs ≤ fromMs ∧ fromMs + ((toMs - fromMs) / hourMs + 1) * hourMs ≤ C.maxMs ∧
          (fromMs % hourMs ≤ toMs % hourMs ∨
            ∀ tick ∈ hourFile C A symbol (toMs / hourMs), toMs < tick.time))) ∧
    (∀ intervalMs ticks, 0 < intervalMs →
      (ticks.Pairwise fun x y : DukascopyTick => x.time ≤ y.time) →
      ((∃ klines, ticksToKlines ticks intervalMs = .ok klines ∧
          Candles intervalMs ticks klines) ↔
        ∀ tick ∈ ticks, 0 ≤ tick.time ∨ intervalMs ∣ tick.time)) ∧
    ∀ U interval intervalMs limit nowMs, parseIntervalToMs U interval = .ok intervalMs →
      0 ≤ klinesFrom intervalMs limit nowMs → C.minMs ≤ 0 → nowMs + hourMs ≤ C.maxMs →
      ((∃ result, getKlines C A symbol U interval limit nowMs = some result ∧
          ∀ klines, result = .ok klines → WholeCandles C A symbol intervalMs nowMs klines) ↔
        ¬ CutsBucket C A symbol intervalMs limit nowMs) :=
  ⟨fun _ _ hle => getTicksRange_allTicks_iff hA hle,
    fun _ _ hpos hsorted => ticksToKlines_candles_iff hpos hsorted,
    fun _ _ _ _ _ hinterval hclock hmin hmax =>
      getKlines_whole_iff hA hinterval hclock hmin hmax⟩

/-! ## An archive of one day -/

/-- The calendar of 1970-01-01. -/
def firstDay : Chrono where
  minMs := 0
  maxMs := 86399999
  civil ms := if 0 ≤ ms then ⟨1970, 1, 1, (ms / hourMs).toNat⟩ else ⟨1969, 12, 31, 23⟩
  hourStart year month day hour :=
    if year = 1970 ∧ month = 1 ∧ day = 1 ∧ hour < 24 then some (hour * hourMs) else none
  month_pos ms := by split_ifs <;> simp
  civil_hour ms := by
    have hfloor : 0 ≤ ms / hourMs * hourMs ↔ 0 ≤ ms := by
      rw [hourMs]
      omega
    have hhour : ms / hourMs * hourMs / hourMs = ms / hourMs :=
      Int.mul_ediv_cancel _ (by decide)
    simp only [hfloor, hhour]
  hourStart_civil ms hmin hmax := by
    have hnonneg : 0 ≤ ms / hourMs := Int.ediv_nonneg hmin (by decide)
    have hlt : (ms / hourMs).toNat < 24 := by
      have : ms / hourMs < 24 := Int.ediv_lt_of_lt_mul (by decide) (by rw [hourMs]; omega)
      omega
    simp [hmin, hlt, Int.toNat_of_nonneg hnonneg]

/-- A record at `offset` milliseconds, without volume. -/
def tickRecord (offset : ℕ) : Bytes :=
  (toLe 4 offset).reverse ++ (toLe 4 110010).reverse ++ (toLe 4 110000).reverse ++
    toLe 4 0 ++ toLe 4 0

/-- The offsets of the ticks of an hour of the day: one in the first hour, two in the second. -/
def dayOffsets : ℕ → List ℕ
  | 0 => [2400000]
  | 1 => [600000, 2400000]
  | _ => []

/-- The archive of these ticks. -/
def dayArchive : Archive := fun _ year month day hour =>
  .ok (if year = 1970 ∧ month = 0 ∧ day = 1 then (dayOffsets hour).flatMap tickRecord else [])

theorem dayArchive_hour (n : ℕ) :
    ∃ ticks, getHourTicks firstDay dayArchive "EURUSD".toList 1970 0 1 n = .ok ticks ∧
      ticks.map DukascopyTick.time = (dayOffsets n).map fun offset : ℕ => n * hourMs + offset := by
  rcases n with _ | _ | n
  · have hlen : ((dayOffsets 0).flatMap tickRecord).length % 20 = 0 := by decide
    obtain ⟨ticks, hticks, htimes⟩ := parseBinaryTicks_times hlen 0 "EURUSD".toList
    exact ⟨ticks, hticks, htimes.trans (by decide)⟩
  · have hlen : ((dayOffsets 1).flatMap tickRecord).length % 20 = 0 := by decide
    obtain ⟨ticks, hticks, htimes⟩ := parseBinaryTicks_times hlen hourMs "EURUSD".toList
    exact ⟨ticks, hticks, htimes.trans (by decide)⟩
  · exact ⟨[], rfl, rfl⟩

theorem dayArchive_times (k : ℤ) :
    (hourFile firstDay dayArchive "EURUSD".toList k).map DukascopyTick.time =
      if 0 ≤ k then (dayOffsets k.toNat).map fun offset : ℕ => k * hourMs + offset else [] := by
  have hhour : k * hourMs / hourMs = k := Int.mul_ediv_cancel _ (by decide)
  have hsign : 0 ≤ k * hourMs ↔ 0 ≤ k := by
    rw [hourMs]
    omega
  by_cases hk : 0 ≤ k
  · obtain ⟨n, rfl⟩ := Int.eq_ofNat_of_zero_le hk
    obtain ⟨ticks, hticks, htimes⟩ := dayArchive_hour n
    have hcivil : firstDay.civil (n * hourMs) = ⟨1970, 1, 1, n⟩ := by
      simp [firstDay, hsign, hhour]
    rw [hourFile, hcivil, if_pos hk, Int.toNat_natCast, ← htimes]
    simp only [Nat.sub_self, hticks]
  · have hcivil : firstDay.civil (k * hourMs) = ⟨1969, 12, 31, 23⟩ := by
      simp [firstDay, hsign, hk]
    rw [hourFile, hcivil, if_neg hk]
    rfl

theorem dayArchive_ordered : Ordered firstDay dayArchive "EURUSD".toList where
  sorted k := by
    have htimes := dayArchive_times k
    rw [← List.pairwise_map (f := DukascopyTick.time) (R := (· ≤ ·)), htimes]
    split_ifs
    · match k.toNat with
      | 0 => simp [dayOffsets]
      | 1 => simp [dayOffsets]
      | _ + 2 => simp [dayOffsets]
    · exact List.Pairwise.nil
  in_hour k tick htick := by
    have hmem := List.mem_map_of_mem (f := DukascopyTick.time) htick
    rw [dayArchive_times] at hmem
    split_ifs at hmem with hk
    · obtain ⟨offset, hoffset, heq⟩ := List.mem_map.mp hmem
      have hlt : offset < 3600000 := by
        match hn : k.toNat with
        | 0 => simp [hn, dayOffsets] at hoffset; omega
        | 1 => simp [hn, dayOffsets] at hoffset; omega
        | _ + 2 => simp [hn, dayOffsets] at hoffset
      rw [← heq, hourMs]
      omega
    · exact absurd hmem List.not_mem_nil

theorem ticksBetween_times (fromMs toMs : ℤ) :
    (ticksBetween C A symbol fromMs toMs).map DukascopyTick.time =
      (rangeHours fromMs toMs).flatMap fun k =>
        ((hourFile C A symbol k).map DukascopyTick.time).filter
          fun time => decide (fromMs ≤ time ∧ time ≤ toMs) := by
  rw [ticksBetween, List.map_flatMap]
  refine List.flatMap_congr fun k _ => ?_
  rw [List.filter_map]
  rfl

theorem dayArchive_lastHour : ∃ tick ∈ hourFile firstDay dayArchive "EURUSD".toList 1,
    tick.time = 4200000 := by
  have hmem : (4200000 : ℤ) ∈
      (hourFile firstDay dayArchive "EURUSD".toList 1).map DukascopyTick.time := by
    rw [dayArchive_times]
    decide
  exact List.mem_map.mp hmem

/-- At half past two, a candle of the hour from one to two o'clock is made of its second half. -/
theorem dayArchive_cutsBucket :
    CutsBucket firstDay dayArchive "EURUSD".toList 3600000 (some 1) 9000000 := by
  have htimes : ∀ fromMs toMs : ℤ, (ticksBetween firstDay dayArchive "EURUSD".toList fromMs
      toMs).map DukascopyTick.time = (rangeHours fromMs toMs).flatMap fun k =>
        (if 0 ≤ k then (dayOffsets k.toNat).map fun offset : ℕ => k * hourMs + offset
          else []).filter fun time => decide (fromMs ≤ time ∧ time ≤ toMs) := by
    intro fromMs toMs
    simp only [ticksBetween_times, dayArchive_times]
  have hfrom : klinesFrom 3600000 (some 1) 9000000 = 5400000 := by decide
  simp only [CutsBucket, hfrom]
  refine ⟨by decide, ?_, ?_, ?_⟩
  · rw [Ne, ← List.map_eq_nil_iff (f := DukascopyTick.time), htimes]
    decide
  · rw [Ne, ← List.map_eq_nil_iff (f := DukascopyTick.time), htimes]
    decide
  · have hcount : bucketCount 3600000
        (ticksBetween firstDay dayArchive "EURUSD".toList 5400000 9000000) =
        (((ticksBetween firstDay dayArchive "EURUSD".toList 5400000 9000000).map
          DukascopyTick.time).map (· / 3600000)).dedup.length := by
      rw [bucketCount, List.map_map]
      rfl
    rw [hcount, htimes]
    decide

/-- From half past twelve to a quarter past one, and the candle of the hour before half past two. -/
theorem complete_iff_firstDay :
    (¬ ∃ ticks, AllTicks firstDay dayArchive "EURUSD".toList 1800000 4500000 ticks ∧
      getTicksRange firstDay dayArchive "EURUSD".toList 1800000 4500000 =
        some (if ticks = [] then .error noTickData else .ok ticks)) ∧
    (∃ klines, ticksToKlines [] 3600000 = .ok klines ∧ Candles 3600000 [] klines) ∧
    ¬ ∃ result, getKlines firstDay dayArchive "EURUSD".toList SymbolNormalizer.asciiTables
      "1h".toList (some 1) 9000000 = some result ∧ ∀ klines, result = .ok klines →
        WholeCandles firstDay dayArchive "EURUSD".toList 3600000 9000000 klines := by
  obtain ⟨hranges, hcandles, hklines⟩ :=
    complete_iff firstDay dayArchive "EURUSD".toList dayArchive_ordered
  refine ⟨?_, (hcandles 3600000 [] (by decide) .nil).mpr (by simp), ?_⟩
  · rw [hranges 1800000 4500000 (by decide)]
    rintro ⟨-, -, hphase | hlast⟩
    · exact absurd hphase (by decide)
    · obtain ⟨tick, htick, htime⟩ := dayArchive_lastHour
      have := hlast tick htick
      omega
  · rw [hklines SymbolNormalizer.asciiTables "1h".toList 3600000 (some 1) 9000000 (by rfl)
      (by decide) (by decide) (by decide), not_not]
    exact dayArchive_cutsBucket

/-- The ticks from one o'clock on are missing, and a candle is made of half an hour. -/
theorem range_and_candle_incomplete :
    ¬ ∀ (C : Chrono) (A : Archive) (symbol : List Char), Ordered C A symbol →
      (∀ fromMs toMs, fromMs ≤ toMs → ∃ ticks, AllTicks C A symbol fromMs toMs ticks ∧
        getTicksRange C A symbol fromMs toMs =
          some (if ticks = [] then .error noTickData else .ok ticks)) ∨
      ∃ result, getKlines C A symbol SymbolNormalizer.asciiTables "1h".toList (some 1) 9000000 =
        some result ∧ ∀ klines, result = .ok klines →
          WholeCandles C A symbol 3600000 9000000 klines := by
  intro hclaim
  rcases hclaim firstDay dayArchive "EURUSD".toList dayArchive_ordered with hranges | hklines
  · obtain ⟨-, -, hphase | hlast⟩ := (getTicksRange_allTicks_iff dayArchive_ordered
      (show (1800000 : ℤ) ≤ 4500000 by decide)).mp (hranges 1800000 4500000 (by decide))
    · exact absurd hphase (by decide)
    · obtain ⟨tick, htick, htime⟩ := dayArchive_lastHour
      have := hlast tick htick
      omega
  · exact (getKlines_whole_iff dayArchive_ordered (by rfl) (by decide) (by decide)
      (by decide)).mp hklines dayArchive_cutsBucket

end Digdigdig3.Dukascopy
