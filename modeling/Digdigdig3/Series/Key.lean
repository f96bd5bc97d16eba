import Digdigdig3.Core.Types

/-!
# `SeriesKey`: what a series carries, and of which instrument

`Kind` and `SeriesKey` of `crates/digdigdig3-station/src/series/key.rs`.
-/

namespace Digdigdig3.Series

/-- `TpoSource` (lines 10–18). -/
inductive TpoSource
  | tradeBucket | kline1m
  deriving DecidableEq

/-- `Kind` (lines 25–158). -/
inductive Kind
  | trade
  | aggTrade
  | kline (interval : KlineInterval)
  | ticker
  | orderbook
  | orderbookDelta
  | markPrice
  | fundingRate
  | openInterest
  | liquidation
  | blockTrade
  | auctionEvent
  | indexPrice
  | compositeIndex
  | optionGreeks
  | volatilityIndex
  | historicalVolatility
  | longShortRatio
  | takerVolume
  | liquidationBucket
  | basis
  | insuranceFund
  | orderbookL3
  | settlementEvent
  | marketWarning
  | riskLimit
  | predictedFunding
  | fundingSettlement
  | markPriceKline (interval : KlineInterval)
  | indexPriceKline (interval : KlineInterval)
  | premiumIndexKline (interval : KlineInterval)
  | rangeBar (range : UInt64)
  | tickBar (n : UInt32)
  | volumeBar (threshold : UInt64)
  | footprint (interval : KlineInterval)
  | renkoBar (boxSize : UInt64) (reversalCount : UInt8)
  | pnfBar (boxSize : UInt64) (reversalCount : UInt8)
  | kagiBar (reversal : UInt64)
  | dollarBar (dollarThreshold : UInt64)
  | tickImbalanceBar (alphaX100 : UInt16) (minTicks : UInt32)
  | volumeImbalanceBar (alphaX100 : UInt16) (minTicks : UInt32)
  | runBar (alphaX100 : UInt16) (minTicks : UInt32)
  | cvdLine
  | threeLineBreak (linesBack : UInt8)
  | tpoProfile (freqMinutes : UInt16) (source : TpoSource)
  | orderUpdate
  | balanceUpdate
  | positionUpdate
  deriving DecidableEq

namespace Kind

/-- `is_derived` (lines 180–200). -/
def isDerived : Kind → Bool
  | basis | fundingSettlement | rangeBar _ | tickBar _ | volumeBar _ | footprint _
  | renkoBar _ _ | pnfBar _ _ | kagiBar _ | cvdLine | threeLineBreak _ | tpoProfile _ _
  | dollarBar _ | tickImbalanceBar _ _ | volumeImbalanceBar _ _ | runBar _ _ => true
  | _ => false

/-- `PollSpec` (lines 165–172): cadence in seconds, jitter in percent. -/
structure PollSpec where
  cadence : ℕ
  jitterPct : ℕ
  deriving DecidableEq

/-- `is_poll_only` (lines 207–227). -/
def isPollOnly : Kind → Option PollSpec
  | longShortRatio => some { cadence := 5 * 60, jitterPct := 10 }
  | takerVolume => some { cadence := 5 * 60, jitterPct := 10 }
  | liquidationBucket => some { cadence := 5 * 60, jitterPct := 10 }
  | historicalVolatility => some { cadence := 60 * 60, jitterPct := 5 }
  | _ => none

/-- The kinds that `acquire_or_spawn` serves from a connector's event stream: neither
    computed from other streams nor polled (`station.rs` lines 1696–1828). -/
def WsBacked (k : Kind) : Prop := k.isDerived = false ∧ k.isPollOnly = none

instance (k : Kind) : Decidable k.WsBacked := inferInstanceAs (Decidable (_ ∧ _))

/-- The kline family of the forwarder (`station.rs` lines 3264–3267 and 3366). -/
def isKlineFamily : Kind → Bool
  | kline _ | markPriceKline _ | indexPriceKline _ | premiumIndexKline _ => true
  | _ => false

end Kind

/-- `SeriesKey` (lines 293–299). -/
structure SeriesKey where
  exchange : ExchangeId
  accountType : AccountType
  symbol : String
  kind : Kind
  deriving DecidableEq

end Digdigdig3.Series
