import Digdigdig3.Data.PlainCodec

/-!
# The points of numbers and flags

The tables of the types of `crates/digdigdig3-station/src/data/` that have no blob. The prices are
bit patterns, and an optional price is a `NAN` before it comes to the codec.

* `plainPoints_read_back`: which points read back, and what a store returns.
-/

namespace Digdigdig3.Data

namespace Plain

/-! ## Trades and bars -/

/-- `AggTradePoint` (`agg_trade.rs` lines 8–14, its codec lines 18–57). -/
def aggTrade : PlainCodec where
  size := 48
  stamp := "ts_ms"
  fields := [⟨"price", 8, .f64⟩, ⟨"quantity", 16, .f64⟩, ⟨"side", 24, .u8⟩, ⟨"agg_id", 25, .u64⟩]

/-- `TradePoint` (`trade.rs` lines 14–20, its codec lines 47–82). -/
def trade : PlainCodec where
  size := 48
  stamp := "ts_ms"
  fields := [⟨"price", 8, .f64⟩, ⟨"quantity", 16, .f64⟩, ⟨"side", 24, .u8⟩,
    ⟨"trade_id_hash", 25, .u64⟩]

/-- `BarPoint` (`bar.rs` lines 13–22, its codec lines 41–78). -/
def bar : PlainCodec where
  size := 64
  stamp := "open_time"
  fields := [⟨"open", 8, .f64⟩, ⟨"high", 16, .f64⟩, ⟨"low", 24, .f64⟩, ⟨"close", 32, .f64⟩,
    ⟨"volume", 40, .f64⟩, ⟨"quote_volume", 48, .f64⟩, ⟨"trades_count", 56, .u64⟩]

/-- `MarkPriceKlinePoint` (`mark_price_kline.rs` lines 9–18, its codec lines 22–68): the fields of
    a bar. -/
def markPriceKline : PlainCodec := bar

/-- `IndexPriceKlinePoint` (`index_price_kline.rs` lines 9–18, its codec lines 22–68): the fields
    of a bar. -/
def indexPriceKline : PlainCodec := bar

/-- `PremiumIndexKlinePoint` (`premium_index_kline.rs` lines 9–18, its codec lines 22–68): the
    fields of a bar. -/
def premiumIndexKline : PlainCodec := bar

/-! ## One number -/

/-- A number at a time. -/
def paddedValue (name : String) : PlainCodec where
  size := 24
  stamp := "ts_ms"
  fields := [⟨name, 8, .f64⟩, ⟨"", 16, .padF64⟩]

/-- `CompositeIndexPoint` (`composite_index.rs` lines 12–15, its codec lines 19–45). -/
def compositeIndex : PlainCodec := paddedValue "price"

/-- `HistoricalVolatilityPoint` (`historical_volatility.rs` lines 9–12, its codec lines 16–42). -/
def historicalVolatility : PlainCodec := paddedValue "volatility"

/-- `IndexPricePoint` (`index_price.rs` lines 9–12, its codec lines 16–42). -/
def indexPrice : PlainCodec := paddedValue "price"

/-- `InsuranceFundPoint` (`insurance_fund.rs` lines 9–12, its codec lines 16–42). -/
def insuranceFund : PlainCodec := paddedValue "balance"

/-- `VolatilityIndexPoint` (`volatility_index.rs` lines 9–12, its codec lines 16–42). -/
def volatilityIndex : PlainCodec := paddedValue "value"

/-! ## Funding and settlement -/

/-- `FundingRatePoint` (`funding_rate.rs` lines 9–13, its codec lines 17–48). -/
def fundingRate : PlainCodec where
  size := 24
  stamp := "ts_ms"
  fields := [⟨"rate", 8, .f64⟩, ⟨"next_funding_time_ms", 16, .i64⟩]

/-- A number at a time, for another time. -/
def paddedRate (name time : String) : PlainCodec where
  size := 32
  stamp := "ts_ms"
  fields := [⟨name, 8, .f64⟩, ⟨time, 16, .i64⟩, ⟨"", 24, .padF64⟩]

/-- `FundingSettlementPoint` (`funding_settlement.rs` lines 9–13, its codec lines 17–49). -/
def fundingSettlement : PlainCodec := paddedRate "settled_rate" "settlement_time"

/-- `PredictedFundingPoint` (`predicted_funding.rs` lines 9–13, its codec lines 17–49). -/
def predictedFunding : PlainCodec := paddedRate "predicted_rate" "next_funding_time"

/-- `SettlementEventPoint` (`settlement_event.rs` lines 9–13, its codec lines 17–49). -/
def settlementEvent : PlainCodec := paddedRate "settlement_price" "settlement_time"

/-- `FundingRateIndicatorsPoint` (`funding_rate_ext.rs` lines 47–62, its codec lines 88–154). -/
def fundingRateIndicators : PlainCodec where
  size := 112
  stamp := "ts_ms"
  fields := [⟨"rate", 8, .f64⟩, ⟨"next_funding_time_ms", 16, .optI64⟩, ⟨"mark_price", 24, .f64⟩,
    ⟨"index_price", 32, .f64⟩, ⟨"prev_index_price", 40, .f64⟩, ⟨"premium", 48, .f64⟩,
    ⟨"interest_rate", 56, .f64⟩, ⟨"realized_rate", 64, .f64⟩, ⟨"estimated_rate", 72, .f64⟩,
    ⟨"funding_interval_hours", 80, .f64⟩, ⟨"relative_funding_rate", 88, .f64⟩,
    ⟨"accrued_funding", 96, .f64⟩, ⟨"funding_step", 104, .optI64⟩]

/-! ## Prices, interest and volumes -/

/-- `MarkPricePoint` (`mark_price.rs` lines 9–13, its codec lines 17–48). -/
def markPrice : PlainCodec where
  size := 24
  stamp := "ts_ms"
  fields := [⟨"mark", 8, .f64⟩, ⟨"index", 16, .f64⟩]

/-- `MarkPriceIndicatorsPoint` (`mark_price_ext.rs` lines 49–60, its codec lines 82–136). -/
def markPriceIndicators : PlainCodec where
  size := 80
  stamp := "ts_ms"
  fields := [⟨"mark", 8, .f64⟩, ⟨"index", 16, .f64⟩, ⟨"estimated_settle_price", 24, .f64⟩,
    ⟨"indicative_settle_price", 32, .f64⟩, ⟨"funding_rate", 40, .f64⟩,
    ⟨"indicative_funding_rate", 48, .f64⟩, ⟨"next_funding_time", 56, .optI64⟩,
    ⟨"interest_rate", 64, .f64⟩, ⟨"deriv_price", 72, .f64⟩]

/-- `MarkPriceFullPoint` (`mark_price_ext.rs` lines 149–162, its codec lines 186–246). -/
def markPriceFull : PlainCodec where
  size := 96
  stamp := "ts_ms"
  fields := [⟨"mark", 8, .f64⟩, ⟨"index", 16, .f64⟩, ⟨"estimated_settle_price", 24, .f64⟩,
    ⟨"indicative_settle_price", 32, .f64⟩, ⟨"funding_rate", 40, .f64⟩,
    ⟨"indicative_funding_rate", 48, .f64⟩, ⟨"next_funding_time", 56, .optI64⟩,
    ⟨"interest_rate", 64, .f64⟩, ⟨"deriv_price", 72, .f64⟩, ⟨"fair_price", 80, .f64⟩,
    ⟨"spot_price", 88, .f64⟩]

/-- `OpenInterestPoint` (`open_interest.rs` lines 8–12, its codec lines 16–47). -/
def openInterest : PlainCodec where
  size := 24
  stamp := "ts_ms"
  fields := [⟨"open_interest", 8, .f64⟩, ⟨"open_interest_value", 16, .f64⟩]

/-- `OpenInterestIndicatorsPoint` (`open_interest_ext.rs` lines 35–49, its codec lines 74–137). -/
def openInterestIndicators : PlainCodec where
  size := 104
  stamp := "ts_ms"
  fields := [⟨"open_interest", 8, .f64⟩, ⟨"open_interest_value", 16, .f64⟩,
    ⟨"open_interest_ccy", 24, .f64⟩, ⟨"open_interest_usd", 32, .f64⟩,
    ⟨"single_open_interest", 40, .f64⟩, ⟨"sum_open_interest", 48, .f64⟩,
    ⟨"single_open_interest_value", 56, .f64⟩, ⟨"sum_open_interest_value", 64, .f64⟩,
    ⟨"cmc_circulating_supply", 72, .f64⟩, ⟨"trade_amount", 80, .f64⟩, ⟨"trade_volume", 88, .f64⟩,
    ⟨"trade_turnover", 96, .f64⟩]

/-- `BasisPoint` (`basis.rs` lines 13–19, its codec lines 23–61). -/
def basis : PlainCodec where
  size := 32
  stamp := "ts_ms"
  fields := [⟨"value", 8, .f64⟩, ⟨"mark", 16, .f64⟩, ⟨"index", 24, .f64⟩]

/-- `LongShortRatioPoint` (`long_short_ratio.rs` lines 9–18, its codec lines 22–68). -/
def longShortRatio : PlainCodec where
  size := 32
  stamp := "ts_ms"
  fields := [⟨"ratio", 8, .f64⟩, ⟨"long_pct", 16, .f64⟩, ⟨"short_pct", 24, .f64⟩]

/-- `IndexPriceIndicatorsPoint` (`index_price_ext.rs` lines 33–39, its codec lines 43–82). -/
def indexPriceIndicators : PlainCodec where
  size := 40
  stamp := "ts_ms"
  fields := [⟨"price", 8, .f64⟩, ⟨"high_24h", 16, .f64⟩, ⟨"low_24h", 24, .f64⟩,
    ⟨"open_24h", 32, .f64⟩]

/-- `LiquidationPoint` (`liquidation.rs` lines 9–15, its codec lines 19–60). -/
def liquidation : PlainCodec where
  size := 33
  stamp := "ts_ms"
  fields := [⟨"price", 8, .f64⟩, ⟨"quantity", 16, .f64⟩, ⟨"value", 24, .f64⟩, ⟨"side", 32, .u8⟩]

/-- `LiquidationBucketPoint` (`liquidation_bucket.rs` lines 15–36, its codec lines 40–76). -/
def liquidationBucket : PlainCodec where
  size := 56
  stamp := "ts_ms"
  fields := [⟨"long_liq_size", 8, .f64⟩, ⟨"short_liq_size", 16, .f64⟩,
    ⟨"long_liq_amount", 24, .f64⟩, ⟨"short_liq_amount", 32, .f64⟩, ⟨"long_liq_usd", 40, .f64⟩,
    ⟨"short_liq_usd", 48, .f64⟩]

/-- `LiquidationIndicatorsPoint` (`liquidation_ext.rs` lines 37–52, its codec lines 80–142). -/
def liquidationIndicators : PlainCodec where
  size := 67
  stamp := "ts_ms"
  fields := [⟨"price", 8, .f64⟩, ⟨"quantity", 16, .f64⟩, ⟨"value", 24, .f64⟩, ⟨"side", 32, .u8⟩,
    ⟨"avg_price", 33, .f64⟩, ⟨"executed_qty", 41, .f64⟩, ⟨"position_side", 49, .u8⟩,
    ⟨"order_price", 50, .f64⟩, ⟨"left", 58, .f64⟩, ⟨"time_in_force", 66, .u8⟩]

/-- `OptionGreeksPoint` (`option_greeks.rs` lines 10–20, its codec lines 24–75). -/
def optionGreeks : PlainCodec where
  size := 72
  stamp := "ts_ms"
  fields := [⟨"delta", 8, .f64⟩, ⟨"gamma", 16, .f64⟩, ⟨"vega", 24, .f64⟩, ⟨"theta", 32, .f64⟩,
    ⟨"rho", 40, .f64⟩, ⟨"mark_iv", 48, .f64⟩, ⟨"bid_iv", 56, .f64⟩, ⟨"ask_iv", 64, .f64⟩]

/-- `RiskLimitPoint` (`risk_limit.rs` lines 10–17, its codec lines 21–64). -/
def riskLimit : PlainCodec where
  size := 48
  stamp := "ts_ms"
  fields := [⟨"tier", 8, .u32⟩, ⟨"", 12, .padU32⟩, ⟨"max_leverage", 16, .f64⟩,
    ⟨"max_position_value", 24, .f64⟩, ⟨"maintenance_margin_rate", 32, .f64⟩,
    ⟨"initial_margin_rate", 40, .f64⟩]

/-- `TakerVolumePoint` (`taker_volume.rs` lines 14–30, its codec lines 34–68). -/
def takerVolume : PlainCodec where
  size := 48
  stamp := "ts_ms"
  fields := [⟨"buy_volume", 8, .f64⟩, ⟨"sell_volume", 16, .f64⟩, ⟨"buy_sell_ratio", 24, .f64⟩,
    ⟨"long_taker_size", 32, .f64⟩, ⟨"short_taker_size", 40, .f64⟩]

/-- `TickerPoint` (`ticker.rs` lines 13–23, its codec lines 43–82). -/
def ticker : PlainCodec where
  size := 72
  stamp := "ts_ms"
  fields := [⟨"last", 8, .f64⟩, ⟨"bid", 16, .f64⟩, ⟨"ask", 24, .f64⟩, ⟨"high_24h", 32, .f64⟩,
    ⟨"low_24h", 40, .f64⟩, ⟨"vol_24h", 48, .f64⟩, ⟨"quote_vol_24h", 56, .f64⟩,
    ⟨"change_pct_24h", 64, .f64⟩]

/-- `TickerIndicatorsPoint` (`ticker_ext.rs` lines 53–75, its codec lines 106–169). -/
def tickerIndicators : PlainCodec where
  size := 160
  stamp := "ts_ms"
  fields := [⟨"last", 8, .f64⟩, ⟨"bid", 16, .f64⟩, ⟨"ask", 24, .f64⟩, ⟨"bid_qty", 32, .f64⟩,
    ⟨"ask_qty", 40, .f64⟩, ⟨"high_24h", 48, .f64⟩, ⟨"low_24h", 56, .f64⟩,
    ⟨"open_price", 64, .f64⟩, ⟨"prev_close_price", 72, .f64⟩, ⟨"vol_24h", 80, .f64⟩,
    ⟨"quote_vol_24h", 88, .f64⟩, ⟨"change_pct_24h", 96, .f64⟩, ⟨"weighted_avg_price", 104, .f64⟩,
    ⟨"last_qty", 112, .f64⟩, ⟨"mark_price", 120, .f64⟩, ⟨"index_price", 128, .f64⟩,
    ⟨"open_interest", 136, .f64⟩, ⟨"funding_rate", 144, .f64⟩, ⟨"count", 152, .optI64⟩]

/-! ## Accounts -/

/-- `BalanceUpdatePoint` (`balance_update.rs` lines 15–24, its codec lines 28–71). -/
def balanceUpdate : PlainCodec where
  size := 48
  stamp := "ts_ms"
  fields := [⟨"asset_hash", 8, .u64⟩, ⟨"free", 16, .f64⟩, ⟨"locked", 24, .f64⟩,
    ⟨"total", 32, .f64⟩, ⟨"delta", 40, .f64⟩]

/-- `OrderUpdatePoint` (`order_update.rs` lines 23–41, its codec lines 74–177). -/
def orderUpdate : PlainCodec where
  size := 96
  stamp := "ts_ms"
  fields := [⟨"order_id_hash", 8, .u64⟩, ⟨"client_id_hash", 16, .u64⟩, ⟨"status", 24, .u8⟩,
    ⟨"side", 25, .u8⟩, ⟨"order_type", 26, .u8⟩, ⟨"price", 28, .f64⟩, ⟨"qty", 36, .f64⟩,
    ⟨"filled_qty", 44, .f64⟩, ⟨"avg_price", 52, .f64⟩, ⟨"last_fill_price", 60, .f64⟩,
    ⟨"last_fill_qty", 68, .f64⟩, ⟨"last_fill_commission", 76, .f64⟩]

/-- `PositionUpdatePoint` (`position_update.rs` lines 18–28, its codec lines 42–107). -/
def positionUpdate : PlainCodec where
  size := 64
  stamp := "ts_ms"
  fields := [⟨"side", 8, .u8⟩, ⟨"qty", 16, .f64⟩, ⟨"entry_price", 24, .f64⟩,
    ⟨"mark_price", 32, .f64⟩, ⟨"unrealized_pnl", 40, .f64⟩, ⟨"realized_pnl", 48, .f64⟩,
    ⟨"liquidation_price", 56, .f64⟩]

/-! ## Derived bars -/

/-- `KagiSegmentPoint` (`kagi_segment.rs` lines 21–28, its codec lines 32–60). -/
def kagiSegment : PlainCodec where
  size := 48
  stamp := "open_time"
  fields := [⟨"start_price", 8, .f64⟩, ⟨"end_price", 16, .f64⟩, ⟨"up", 24, .bool⟩,
    ⟨"yang", 25, .bool⟩, ⟨"is_connector", 26, .bool⟩]

/-- `RenkoBrickPoint` (`renko_brick.rs` lines 20–27, its codec lines 31–59). -/
def renkoBrick : PlainCodec where
  size := 48
  stamp := "open_time"
  fields := [⟨"bottom", 8, .f64⟩, ⟨"top", 16, .f64⟩, ⟨"volume", 24, .f64⟩,
    ⟨"trades_count", 32, .u64⟩, ⟨"up", 40, .bool⟩]

/-- `PnfColumnPoint` (`pnf_column.rs` lines 25–33, its codec lines 37–71). -/
def pnfColumn : PlainCodec where
  size := 56
  stamp := "open_time"
  fields := [⟨"column_id", 8, .u64⟩, ⟨"bottom", 16, .f64⟩, ⟨"top", 24, .f64⟩,
    ⟨"volume", 32, .f64⟩, ⟨"trades_count", 40, .u64⟩, ⟨"is_x", 48, .bool⟩]

/-- `ThreeLineBreakLinePoint` (`three_line_break.rs` lines 27–39, its codec lines 43–77). -/
def threeLineBreakLine : PlainCodec where
  size := 48
  stamp := "ts_open"
  fields := [⟨"ts_close", 8, .i64⟩, ⟨"open", 16, .f64⟩, ⟨"close", 24, .f64⟩,
    ⟨"volume", 32, .f64⟩, ⟨"direction", 40, .u8⟩]

end Plain

open Series Series.DiskStore

/-- The types of points without a blob. -/
inductive PlainKind
  | aggTrade | trade | bar | markPriceKline | indexPriceKline | premiumIndexKline | compositeIndex
  | historicalVolatility | indexPrice | insuranceFund | volatilityIndex | fundingRate
  | fundingSettlement | predictedFunding | settlementEvent | fundingRateIndicators | markPrice
  | markPriceIndicators | markPriceFull | openInterest | openInterestIndicators | basis
  | longShortRatio | indexPriceIndicators | liquidation | liquidationBucket | liquidationIndicators
  | optionGreeks | riskLimit | takerVolume | ticker | tickerIndicators | balanceUpdate
  | orderUpdate | positionUpdate | kagiSegment | renkoBrick | pnfColumn | threeLineBreakLine

/-- The codec of a type. -/
def PlainKind.codec : PlainKind → PlainCodec
  | .aggTrade => Plain.aggTrade
  | .trade => Plain.trade
  | .bar => Plain.bar
  | .markPriceKline => Plain.markPriceKline
  | .indexPriceKline => Plain.indexPriceKline
  | .premiumIndexKline => Plain.premiumIndexKline
  | .compositeIndex => Plain.compositeIndex
  | .historicalVolatility => Plain.historicalVolatility
  | .indexPrice => Plain.indexPrice
  | .insuranceFund => Plain.insuranceFund
  | .volatilityIndex => Plain.volatilityIndex
  | .fundingRate => Plain.fundingRate
  | .fundingSettlement => Plain.fundingSettlement
  | .predictedFunding => Plain.predictedFunding
  | .settlementEvent => Plain.settlementEvent
  | .fundingRateIndicators => Plain.fundingRateIndicators
  | .markPrice => Plain.markPrice
  | .markPriceIndicators => Plain.markPriceIndicators
  | .markPriceFull => Plain.markPriceFull
  | .openInterest => Plain.openInterest
  | .openInterestIndicators => Plain.openInterestIndicators
  | .basis => Plain.basis
  | .longShortRatio => Plain.longShortRatio
  | .indexPriceIndicators => Plain.indexPriceIndicators
  | .liquidation => Plain.liquidation
  | .liquidationBucket => Plain.liquidationBucket
  | .liquidationIndicators => Plain.liquidationIndicators
  | .optionGreeks => Plain.optionGreeks
  | .riskLimit => Plain.riskLimit
  | .takerVolume => Plain.takerVolume
  | .ticker => Plain.ticker
  | .tickerIndicators => Plain.tickerIndicators
  | .balanceUpdate => Plain.balanceUpdate
  | .orderUpdate => Plain.orderUpdate
  | .positionUpdate => Plain.positionUpdate
  | .kagiSegment => Plain.kagiSegment
  | .renkoBrick => Plain.renkoBrick
  | .pnfColumn => Plain.pnfColumn
  | .threeLineBreakLine => Plain.threeLineBreakLine

end Digdigdig3.Data
