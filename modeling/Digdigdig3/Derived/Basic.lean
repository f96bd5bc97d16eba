import Mathlib.Data.Rat.Floor
import Digdigdig3.Core.Types
import Digdigdig3.Lib.Mealy

/-!
# Points and events of the derived-stream layer

The data that the derived streams of `crates/digdigdig3-station/src/derived.rs`
read and emit. An `f64` price, quantity or rate is a rational number, so sums and
comparisons are exact; an `i64` millisecond timestamp is an integer.

A derived stream is a `Mealy` machine on `Event`: `on_upstream_event` returns at
most one point per event, and `seed_from_events` collects them (`Mealy.emitted`).
-/

namespace Digdigdig3.Derived

/-- `TradePoint` (`data/trade.rs` lines 14–20). `side` is `0` for a buy and `1` for
    a sell. -/
structure TradePoint where
  tsMs : ℤ
  price : ℚ
  quantity : ℚ
  side : UInt8
  tradeIdHash : ℕ
  deriving DecidableEq

/-- A buy of `quantity` at `price`. -/
def buyAt (tsMs : ℤ) (price quantity : ℚ) : TradePoint :=
  { tsMs := tsMs, price := price, quantity := quantity, side := 0, tradeIdHash := 0 }

/-- `BarPoint` (`data/bar.rs` lines 13–22). -/
@[ext]
structure BarPoint where
  openTime : ℤ
  open_ : ℚ
  high : ℚ
  low : ℚ
  close : ℚ
  volume : ℚ
  quoteVolume : ℚ
  tradesCount : ℕ
  deriving DecidableEq

/-- `FundingRatePoint` (`data/funding_rate.rs` lines 9–13). -/
structure FundingRatePoint where
  tsMs : ℤ
  rate : ℚ
  nextFundingTimeMs : ℤ
  deriving DecidableEq

/-- `Event` (`subscription.rs` lines 323–529): the variants the derived streams
    match on. `other` stands for every variant they let fall through to `None`. -/
inductive Event
  | trade (exchange : ExchangeId) (symbol : String) (point : TradePoint)
  | bar (exchange : ExchangeId) (symbol : String) (timeframe : KlineInterval) (point : BarPoint)
  | fundingRate (exchange : ExchangeId) (symbol : String) (point : FundingRatePoint)
  | other
  deriving DecidableEq

/-- The monotonic `open_time` of bars, bricks and segments:
    `point.ts_ms.max(self.last_emitted_open_time + 1)`. -/
def openTimeAfter (tsMs lastEmittedOpenTime : ℤ) : ℤ := max tsMs (lastEmittedOpenTime + 1)

theorem lt_openTimeAfter (tsMs last : ℤ) : last < openTimeAfter tsMs last :=
  lt_of_lt_of_le (lt_add_one last) (le_max_right _ _)

/-! ## Interval texts -/

/-- The digits of `str::parse::<i64>`, most significant first, onto `acc`; `none`
    at a byte that is not an ASCII digit. -/
def parseDigits (acc : ℕ) : List Char → Option ℕ
  | [] => some acc
  | c :: cs => if c.isDigit then parseDigits (acc * 10 + (c.toNat - 48)) cs else none

/-- `str::parse::<i64>`: an optional sign, at least one digit, in range. -/
def parseI64 (cs : List Char) : Option ℤ :=
  let value : Option ℤ :=
    match cs with
    | [] => none
    | ['+'] => none
    | ['-'] => none
    | '+' :: ds => (parseDigits 0 ds).map fun n => (n : ℤ)
    | '-' :: ds => (parseDigits 0 ds).map fun n => -(n : ℤ)
    | ds => (parseDigits 0 ds).map fun n => (n : ℤ)
  value.filter fun n => -2 ^ 63 ≤ n ∧ n < 2 ^ 63

/-- The result of an `i64` multiplication, with the wrap-around of a release build. -/
def wrapI64 (n : ℤ) : ℤ := n.bmod (2 ^ 64)

/-- `interval_to_ms` (lines 341–366). A text whose last character is not ASCII has no
    known unit, so characters stand for bytes. -/
def intervalToMs (interval : String) : Option ℤ :=
  match interval.toList.getLast? with
  | none => none
  | some unit =>
    match parseI64 interval.toList.dropLast with
    | none => none
    | some n =>
      if n ≤ 0 then none
      else if unit = 's' then some (wrapI64 (n * 1000))
      else if unit = 'm' then some (wrapI64 (n * 60000))
      else if unit = 'h' ∨ unit = 'H' then some (wrapI64 (n * 3600000))
      else if unit = 'd' ∨ unit = 'D' then some (wrapI64 (n * 86400000))
      else if unit = 'w' ∨ unit = 'W' then some (wrapI64 (wrapI64 (n * 7) * 86400000))
      else none

example : intervalToMs "15m" = some 900000 := by decide

end Digdigdig3.Derived
