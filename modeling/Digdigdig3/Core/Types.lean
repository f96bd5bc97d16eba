import Mathlib.Tactic

/-!
# Identifiers shared by the crates

`ExchangeId`, `AccountType` and `KlineInterval` of `crates/dig3-core`.
-/

namespace Digdigdig3

/-- `ExchangeId` (`core/types/common.rs` lines 14–87). -/
inductive ExchangeId
  | binance | bybit | okx | kuCoin | kraken | coinbase | gateIO | bitfinex | bitstamp | gemini
  | mexc | htx | bitget | bingX | cryptoCom | upbit
  | deribit | hyperLiquid | bitmex
  | lighter | dydx
  | polymarket
  | polygon | finnhub | tiingo | twelvedata | coinglass | cryptoCompare | whaleAlert | bitquery
  | defiLlama
  | oanda | alphaVantage | dukascopy
  | angelOne | zerodha | fyers | dhan | upstox | alpaca | jQuants | tinkoff | moex | krx | futu
  | fred | bls
  | yahooFinance | ib
  | custom (id : UInt16)
  deriving DecidableEq

/-- `AccountType` (`core/types/common.rs` lines 234–260). -/
inductive AccountType
  | spot | margin | futuresCross | futuresIsolated | earn | lending | options | convert
  deriving DecidableEq

/-- `KlineInterval` (`core/websocket/stream_kind.rs` line 8): the interval text as
    the caller gave it. -/
structure KlineInterval where
  text : String
  deriving DecidableEq

end Digdigdig3
