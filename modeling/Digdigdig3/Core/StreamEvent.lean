import Digdigdig3.Core.Types

/-!
# `StreamEvent`: what a connector delivers

`StreamEvent` (`crates/dig3-core/src/core/types/websocket.rs` lines 222–355) carries one
of 32 kinds of payload, most of them with the symbol and the four kline kinds also with
the interval. The payload structs are the family `Data`: routing never looks at them.
-/

namespace Digdigdig3

/-- The variants of `StreamEvent` that carry a payload. -/
inductive EventClass
  | ticker | trade | orderbookSnapshot | orderbookDelta | kline | markPrice | fundingRate
  | liquidation | openInterestUpdate | longShortRatio | aggTrade | compositeIndex
  | markPriceKline | indexPriceKline | premiumIndexKline | indexPrice | historicalVolatility
  | insuranceFund | basis | optionGreeks | volatilityIndex | blockTrade | auctionEvent
  | marketWarning | orderbookL3 | settlementEvent | riskLimit | predictedFunding
  | fundingSettlement | orderUpdate | balanceUpdate | positionUpdate
  deriving DecidableEq

/-- `StreamEvent`. -/
inductive StreamEvent (Data : EventClass → Type)
  | ticker (symbol : String) (ticker : Data .ticker)
  | trade (symbol : String) (trade : Data .trade)
  | orderbookSnapshot (symbol : String) (book : Data .orderbookSnapshot)
  | orderbookDelta (symbol : String) (delta : Data .orderbookDelta)
  | kline (symbol : String) (interval : KlineInterval) (kline : Data .kline)
  | markPrice (symbol : String) (mark : Data .markPrice)
  | fundingRate (symbol : String) (funding : Data .fundingRate)
  | liquidation (symbol : String) (liquidation : Data .liquidation)
  | openInterestUpdate (symbol : String) (openInterest : Data .openInterestUpdate)
  | longShortRatio (symbol : String) (ratio : Data .longShortRatio)
  | aggTrade (symbol : String) (agg : Data .aggTrade)
  | compositeIndex (symbol : String) (index : Data .compositeIndex)
  | markPriceKline (symbol : String) (interval : KlineInterval) (kline : Data .markPriceKline)
  | indexPriceKline (symbol : String) (interval : KlineInterval) (kline : Data .indexPriceKline)
  | premiumIndexKline (symbol : String) (interval : KlineInterval)
      (kline : Data .premiumIndexKline)
  | indexPrice (symbol : String) (indexPrice : Data .indexPrice)
  | historicalVolatility (symbol : String) (hv : Data .historicalVolatility)
  | insuranceFund (symbol : String) (fund : Data .insuranceFund)
  | basis (symbol : String) (basis : Data .basis)
  | optionGreeks (symbol : String) (greeks : Data .optionGreeks)
  | volatilityIndex (symbol : String) (volIndex : Data .volatilityIndex)
  | blockTrade (symbol : String) (block : Data .blockTrade)
  | auctionEvent (symbol : String) (auction : Data .auctionEvent)
  | marketWarning (symbol : Option String) (warning : Data .marketWarning)
  | orderbookL3 (symbol : String) (event : Data .orderbookL3)
  | settlementEvent (symbol : String) (settlement : Data .settlementEvent)
  | riskLimit (symbol : String) (riskLimit : Data .riskLimit)
  | predictedFunding (symbol : String) (predicted : Data .predictedFunding)
  | fundingSettlement (symbol : String) (settlement : Data .fundingSettlement)
  | orderUpdate (symbol : String) (event : Data .orderUpdate)
  | balanceUpdate (event : Data .balanceUpdate)
  | positionUpdate (symbol : String) (event : Data .positionUpdate)
  | batch (events : List (StreamEvent Data))

namespace StreamEvent

variable {Data : EventClass → Type}

/-- The variant of an event and its payload; a batch has neither. -/
def leaf? : StreamEvent Data → Option (Sigma Data)
  | .ticker _ data => some ⟨.ticker, data⟩
  | .trade _ data => some ⟨.trade, data⟩
  | .orderbookSnapshot _ data => some ⟨.orderbookSnapshot, data⟩
  | .orderbookDelta _ data => some ⟨.orderbookDelta, data⟩
  | .kline _ _ data => some ⟨.kline, data⟩
  | .markPrice _ data => some ⟨.markPrice, data⟩
  | .fundingRate _ data => some ⟨.fundingRate, data⟩
  | .liquidation _ data => some ⟨.liquidation, data⟩
  | .openInterestUpdate _ data => some ⟨.openInterestUpdate, data⟩
  | .longShortRatio _ data => some ⟨.longShortRatio, data⟩
  | .aggTrade _ data => some ⟨.aggTrade, data⟩
  | .compositeIndex _ data => some ⟨.compositeIndex, data⟩
  | .markPriceKline _ _ data => some ⟨.markPriceKline, data⟩
  | .indexPriceKline _ _ data => some ⟨.indexPriceKline, data⟩
  | .premiumIndexKline _ _ data => some ⟨.premiumIndexKline, data⟩
  | .indexPrice _ data => some ⟨.indexPrice, data⟩
  | .historicalVolatility _ data => some ⟨.historicalVolatility, data⟩
  | .insuranceFund _ data => some ⟨.insuranceFund, data⟩
  | .basis _ data => some ⟨.basis, data⟩
  | .optionGreeks _ data => some ⟨.optionGreeks, data⟩
  | .volatilityIndex _ data => some ⟨.volatilityIndex, data⟩
  | .blockTrade _ data => some ⟨.blockTrade, data⟩
  | .auctionEvent _ data => some ⟨.auctionEvent, data⟩
  | .marketWarning _ data => some ⟨.marketWarning, data⟩
  | .orderbookL3 _ data => some ⟨.orderbookL3, data⟩
  | .settlementEvent _ data => some ⟨.settlementEvent, data⟩
  | .riskLimit _ data => some ⟨.riskLimit, data⟩
  | .predictedFunding _ data => some ⟨.predictedFunding, data⟩
  | .fundingSettlement _ data => some ⟨.fundingSettlement, data⟩
  | .orderUpdate _ data => some ⟨.orderUpdate, data⟩
  | .balanceUpdate data => some ⟨.balanceUpdate, data⟩
  | .positionUpdate _ data => some ⟨.positionUpdate, data⟩
  | .batch _ => none

/-- `if let StreamEvent::X { x, .. } = ev`, the match in every `from_stream_event` of
    `crates/digdigdig3-station/src/data/`: the payload of variant `c`. -/
def payload? (c : EventClass) (ev : StreamEvent Data) : Option (Data c) :=
  match ev.leaf? with
  | some ⟨c', data⟩ => if h : c' = c then some (h ▸ data) else none
  | none => none

/-- The variant of an event. -/
def class? (ev : StreamEvent Data) : Option EventClass := ev.leaf?.map Sigma.fst

theorem payload?_isSome_iff (c : EventClass) (ev : StreamEvent Data) :
    (ev.payload? c).isSome ↔ ev.class? = some c := by
  unfold payload? class?
  cases ev.leaf? with
  | none => simp
  | some leaf =>
    obtain ⟨c', data⟩ := leaf
    by_cases h : c' = c <;> simp [h]

end StreamEvent

end Digdigdig3
