import Digdigdig3.Core.SymbolNormalizer

/-!
# `StreamSpec`: what a connector is asked to deliver

`StreamKind` (`crates/dig3-core/src/core/websocket/stream_kind.rs`), `OwnedSymbolInput`
(`core/types/symbol_input.rs`) and `StreamSpec` (`stream_spec.rs`), the elements of a transport's
set of active subscriptions.
-/

namespace Digdigdig3

/-- `StreamKind` (`stream_kind.rs` lines 32–115). -/
inductive StreamKind
  | ticker
  | indexPrice
  | markPrice
  | compositeIndex
  | orderbook
  | orderbookDelta
  | orderbookL3
  | trade
  | aggTrade
  | blockTrade
  | kline (interval : KlineInterval)
  | markPriceKline (interval : KlineInterval)
  | indexPriceKline (interval : KlineInterval)
  | premiumIndexKline (interval : KlineInterval)
  | fundingRate
  | predictedFunding
  | fundingSettlement
  | openInterest
  | longShortRatio
  | insuranceFund
  | riskLimit
  | basis
  | liquidation
  | optionGreeks
  | volatilityIndex
  | historicalVolatility
  | settlementEvent
  | auctionEvent
  | marketWarning
  | orderUpdate
  | balanceUpdate
  | positionUpdate
  deriving DecidableEq

/-- `OwnedSymbolInput` (`symbol_input.rs` lines 92–98): the exchange's own text, or a symbol that
    is normalized when it is used. -/
inductive OwnedSymbolInput
  | raw (s : List Char)
  | canonical (sym : Symbol)
  deriving DecidableEq

namespace OwnedSymbolInput

/-- `as_str` (lines 115–120), which is also what `Display` writes. -/
def asStr : OwnedSymbolInput → List Char
  | raw s => s
  | canonical sym => sym.base

/-- `resolve` (lines 146–157). -/
def resolve (U : Unicode) (exchange : ExchangeId) (accountType : AccountType) :
    OwnedSymbolInput → Except NormalizerError (List Char)
  | raw s => .ok s
  | canonical sym => SymbolNormalizer.toExchange U exchange sym accountType

end OwnedSymbolInput

/-- `StreamSpec` (`stream_spec.rs` lines 22–31). -/
structure StreamSpec where
  kind : StreamKind
  symbol : OwnedSymbolInput
  accountType : AccountType
  depth : Option UInt32
  speedMs : Option UInt32
  deriving DecidableEq

/-- `resolve_symbol` (lines 38–44). -/
def StreamSpec.resolveSymbol (U : Unicode) (exchange : ExchangeId) (accountType : AccountType)
    (spec : StreamSpec) : Except NormalizerError (List Char) :=
  spec.symbol.resolve U exchange accountType

end Digdigdig3
