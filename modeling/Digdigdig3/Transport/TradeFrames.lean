import Digdigdig3.Core.Json
import Digdigdig3.Core.StreamEvent
import Digdigdig3.Derived.Basic
import Digdigdig3.Kline.Channels

/-!
# Trade frames

How a trade frame of HyperLiquid, Bybit, OKX, Kraken or dYdX becomes events: `dispatch_message`
of the driver (`core/websocket/transport.rs` lines 974–1071) with the frame classification, the
topic registry and the trade parsers of the protocol. A parser returns one event; a frame with
several trades has to return a `Batch`, and HyperLiquid's alone does.

Results:
* `emitEvent_flattens`: batches of any depth are flattened in order.
* `tradesOf_dispatch`: what a well-formed trade frame sends.
* `trades_delivered_iff`: the frames whose trades all arrive.
-/

namespace Digdigdig3.TradeFrames

/-! ## Trades -/

/-- `TradeSide`. -/
inductive TradeSide
  | buy | sell
  deriving DecidableEq

/-- `PublicTrade` (`market_data.rs` lines 617–740), less the fields that none of the five
    parsers sets. -/
structure PublicTrade (F : Type) where
  id : String
  price : F
  quantity : F
  side : TradeSide
  timestamp : ℤ
  isRpiTrade : Option Bool := none
  isBlockTrade : Option Bool := none
  isLiquidation : Option Bool := none
  orderType : Option String := none
  seq : Option ℤ := none
  source : Option String := none
  txHash : Option String := none
  users : Option (List String) := none
  blockHeight : Option ℤ := none

/-- `AggTrade` (`extended_market_data.rs` lines 20–46), likewise. -/
structure AggTrade (F : Type) where
  aggregateId : ℤ
  price : F
  quantity : F
  firstTradeId : ℤ
  lastTradeId : ℤ
  isBuy : Bool
  timestamp : ℤ

/-- The payloads of the events: trades as they are, the others as `Data` has them. -/
def Payload (F : Type) (Data : EventClass → Type) : EventClass → Type
  | .trade => PublicTrade F
  | .aggTrade => AggTrade F
  | c => Data c

/-- The two variants of `WebSocketError` that the parsers return. -/
inductive WebSocketError
  | parse (msg : String)
  | fieldAbsent (msg : String)
  deriving DecidableEq

/-- `f64` with its parsing and conversions, `chrono`'s RFC 3339 parser in milliseconds, and the
    time of the frame. -/
structure Env (F : Type) where
  parseF64 : String → Option F
  ofRat : ℚ → F
  toI64 : F → ℤ
  rfc3339Millis : String → Option ℤ
  now : ℤ

/-! ## Reading fields -/

section Fields

variable {F : Type} (env : Env F)

/-- `Value::as_bool`. -/
def asBool : Json → Option Bool
  | .bool b => some b
  | _ => none

/-- `get_str` (`hyperliquid/parser.rs` line 69 and its copies). -/
def getStr (data : Json) (key : String) : Option String := (data.get? key).bind Json.asStr

/-- `str::parse::<i64>`. -/
def parseI64 (s : String) : Option ℤ := Derived.parseI64 s.toList

/-- `parse_f64` (`hyperliquid/parser.rs` line 51 and its copies): a text or a number. -/
def parseF64 (value : Json) : Option F :=
  (value.asStr.bind env.parseF64).or (value.asF64.map env.ofRat)

/-- `get_f64`. -/
def getF64 (data : Json) (key : String) : Option F := (data.get? key).bind (parseF64 env)

/-- `require_f64`, with the text of its error. -/
def requireF64 (data : Json) (key : String) : Except String F :=
  match getF64 env data key with
  | some x => .ok x
  | none => .error ("Parse error: Missing or invalid '" ++ key ++ "'")

/-- `get_i64` of HyperLiquid. -/
def getI64 (data : Json) (key : String) : Option ℤ := (data.get? key).bind Json.asI64

/-- `get_i64` of OKX: a text or a number. -/
def okxGetI64 (data : Json) (key : String) : Option ℤ :=
  (data.get? key).bind fun value => (value.asStr.bind parseI64).or value.asI64

/-- `ok_or_else`. -/
def orParse {α : Type} (value : Option α) (msg : String) : Except WebSocketError α :=
  match value with
  | some x => .ok x
  | none => .error (.parse msg)

@[simp] theorem orParse_some {α : Type} (x : α) (msg : String) : orParse (some x) msg = .ok x := rfl

@[simp] theorem ok_bind {ε α β : Type} (x : α) (f : α → Except ε β) :
    ((Except.ok x : Except ε α) >>= f) = f x := rfl

@[simp] theorem ok_mapError {ε ε' α : Type} (x : α) (f : ε → ε') :
    (Except.ok x : Except ε α).mapError f = .ok x := rfl

end Fields

/-! ## Parsers -/

section Parsers

variable {F : Type} {Data : EventClass → Type} (env : Env F)

/-- One element of `parse_recent_trades` (`hyperliquid/parser.rs` lines 373–392). -/
def hyperliquidTrade (trade : Json) : Except String (PublicTrade F) := do
  let side := if (getStr trade "side").getD "B" = "A" then TradeSide.sell else .buy
  let price ← requireF64 env trade "px"
  return {
    id := ((getI64 trade "tid").map toString).getD ""
    price, side
    quantity := (getF64 env trade "sz").getD (env.ofRat 0)
    timestamp := (getI64 trade "time").getD 0
    txHash := getStr trade "hash"
    seq := getI64 trade "tid"
    users := ((trade.get? "users").bind Json.asArray).map fun a => a.filterMap Json.asStr }

/-- `parse_trades` of HyperLiquid (`hyperliquid/protocol.rs` lines 395–435). -/
def hyperliquidParseTrades (raw : Json) :
    Except WebSocketError (StreamEvent (Payload F Data)) := do
  let data ← orParse (raw.get? "data") "hyperliquid frame missing 'data' field"
  let trades ← orParse data.asArray "trades: expected array"
  if trades = [] then throw (.fieldAbsent "trades: empty array")
  let parsed ← (trades.mapM (hyperliquidTrade env)).mapError WebSocketError.parse
  let events := (parsed.zip trades).map fun (trade, src) =>
    @StreamEvent.trade (Payload F Data) ((getStr src "coin").getD "") trade
  match events with
  | [event] => return event
  | _ => return .batch events

/-- The fields that `parse_trade` and `parse_agg_trade` of Bybit read alike
    (`bybit/protocol.rs` lines 521–540, 561–580). -/
def bybitItem (raw : Json) : Except WebSocketError (Json × String × F × F × ℤ × TradeSide) := do
  let data ← orParse (raw.get? "data") "bybit frame missing 'data' field"
  let arr ← orParse data.asArray "publicTrade: data not array"
  let item ← orParse arr.head? "publicTrade: empty data array"
  let symbol ← orParse (getStr item "s") "publicTrade: missing s"
  let price ← orParse ((getStr item "p").bind env.parseF64) "publicTrade: invalid p"
  let quantity ← orParse ((getStr item "v").bind env.parseF64) "publicTrade: invalid v"
  let timestamp ← orParse (getI64 item "T") "publicTrade: invalid T"
  let side := ((getStr item "S").map fun s =>
    if s = "Buy" then TradeSide.buy else .sell).getD .buy
  return (item, symbol, price, quantity, timestamp, side)

/-- `parse_trade` of Bybit (lines 558–608). -/
def bybitParseTrade (raw : Json) : Except WebSocketError (StreamEvent (Payload F Data)) := do
  let (item, symbol, price, quantity, timestamp, side) ← bybitItem env raw
  let trade : PublicTrade F := {
    id := (getStr item "i").getD "0"
    price, quantity, side, timestamp
    isBlockTrade := (item.get? "BT").bind asBool
    isRpiTrade := (item.get? "RPI").bind asBool
    isLiquidation := (item.get? "L").bind asBool
    seq := okxGetI64 item "seq" }
  return @StreamEvent.trade (Payload F Data) symbol trade

/-- `parse_agg_trade` of Bybit (lines 518–556). -/
def bybitParseAggTrade (raw : Json) : Except WebSocketError (StreamEvent (Payload F Data)) := do
  let (item, symbol, price, quantity, timestamp, side) ← bybitItem env raw
  let agg : AggTrade F := {
    aggregateId := ((getStr item "i").bind parseI64).getD 0
    price, quantity
    firstTradeId := 0
    lastTradeId := 0
    isBuy := side = .buy
    timestamp }
  return @StreamEvent.aggTrade (Payload F Data) symbol agg

/-- `first_data_item` (`okx/protocol.rs` lines 593–598). -/
def firstDataItem (raw : Json) : Except WebSocketError Json :=
  orParse (((raw.get? "data").bind Json.asArray).bind List.head?)
    "okx frame: missing or empty 'data' array"

/-- The side of an OKX trade. -/
def okxSide (data : Json) : TradeSide :=
  if (getStr data "side").getD "buy" = "sell" then .sell else .buy

/-- `parse_trades` of OKX (lines 633–639) with `parse_ws_trade` (`okx/parser.rs` lines
    600–616). -/
def okxParseTrades (raw : Json) : Except WebSocketError (StreamEvent (Payload F Data)) := do
  let data ← firstDataItem raw
  let price ← (requireF64 env data "px").mapError WebSocketError.parse
  let quantity ← (requireF64 env data "sz").mapError WebSocketError.parse
  let trade : PublicTrade F := {
    id := (getStr data "tradeId").getD ""
    price, quantity
    side := okxSide data
    timestamp := (okxGetI64 data "ts").getD 0
    source := getStr data "source"
    seq := okxGetI64 data "tradeId" }
  return @StreamEvent.trade (Payload F Data) ((getStr data "instId").getD "") trade

/-- `parse_agg_trades` of OKX (`okx/protocol.rs` lines 645–683). -/
def okxParseAggTrades (raw : Json) : Except WebSocketError (StreamEvent (Payload F Data)) := do
  let data ← firstDataItem raw
  let price ← orParse (getF64 env data "px") "agg_trades: missing px"
  let quantity ← orParse (getF64 env data "sz") "agg_trades: missing sz"
  let tradeId := ((getStr data "tradeId").bind parseI64).getD 0
  let agg : AggTrade F := {
    aggregateId := tradeId
    price, quantity
    firstTradeId := tradeId
    lastTradeId := tradeId
    isBuy := okxSide data = .buy
    timestamp := ((getF64 env data "ts").map env.toI64).getD 0 }
  return @StreamEvent.aggTrade (Payload F Data) ((getStr data "instId").getD "") agg

/-- `parse_ws_trade` of Kraken (`kraken/parser.rs` lines 1947–1978). -/
def krakenParseWsTrade (raw : Json) : Except WebSocketError (StreamEvent (Payload F Data)) := do
  let data ← orParse ((raw.get? "data").bind Json.asArray) "trade: missing data array"
  let d ← orParse data.head? "trade: empty data array"
  let price ← orParse ((d.get? "price").bind Json.asF64) "trade: missing price"
  let quantity ← orParse ((d.get? "qty").bind Json.asF64) "trade: missing qty"
  let trade : PublicTrade F := {
    id := (((d.get? "trade_id").bind Json.asU64).map toString).getD "0"
    price := env.ofRat price
    quantity := env.ofRat quantity
    side := ((getStr d "side").map fun s =>
      if s = "sell" then TradeSide.sell else .buy).getD .buy
    timestamp := ((getStr d "timestamp").bind env.rfc3339Millis).getD env.now }
  return @StreamEvent.trade (Payload F Data) ((getStr d "symbol").getD "") trade

/-- `parse_ws_trade` of dYdX (`dydx/parser.rs` lines 585–618). -/
def dydxParseWsTrade (data : Json) : Except String (PublicTrade F) := do
  let contents ← match data.get? "contents" with
    | some contents => Except.ok contents
    | none => .error "Parse error: v4_trades: missing 'contents' field"
  let trade ← match ((contents.get? "trades").bind Json.asArray).bind List.head? with
    | some trade => Except.ok trade
    | none => .error "Parse error: v4_trades: 'contents.trades' is missing or empty"
  let price ← requireF64 env trade "price"
  return {
    id := (getStr trade "id").getD ""
    price
    quantity := (getF64 env trade "size").getD (env.ofRat 0)
    side := if (getStr trade "side").getD "BUY" = "SELL" then .sell else .buy
    timestamp := ((getStr trade "createdAt").bind env.rfc3339Millis).getD 0
    orderType := getStr trade "type"
    blockHeight := (getStr trade "createdAtHeight").bind parseI64 }

/-- `parse_trade` of dYdX (`dydx/protocol.rs` lines 283–288). -/
def dydxParseTrade (raw : Json) : Except WebSocketError (StreamEvent (Payload F Data)) := do
  let trade ← (dydxParseWsTrade env raw).mapError fun e => .parse ("dydx trade: " ++ e)
  return @StreamEvent.trade (Payload F Data) ((getStr raw "id").getD "") trade

end Parsers

/-! ## Protocols -/

/-- The five protocols. -/
inductive Venue
  | hyperliquid | bybit | okx | kraken | dydx
  deriving DecidableEq

/-- `is_pong`; that of dYdX is the default. -/
def isPong (v : Venue) (raw : Json) : Bool :=
  match v with
  | .hyperliquid => getStr raw "channel" = some "pong"
  | .bybit => getStr raw "op" = some "pong" || getStr raw "ret_msg" = some "pong"
  | .okx => raw.asStr = some "pong"
  | .kraken => getStr raw "method" = some "pong"
  | .dydx => false

/-- `is_subscribe_ack`. -/
def isSubscribeAck (v : Venue) (raw : Json) : Bool :=
  match v with
  | .hyperliquid => getStr raw "channel" = some "subscriptionResponse"
  | .bybit =>
    getStr raw "op" ∈ [some "subscribe", some "unsubscribe", some "auth", some "ping"] &&
      (raw.get? "topic").isNone
  | .okx => getStr raw "event" ∈ [some "subscribe", some "unsubscribe"]
  | .kraken => getStr raw "method" ∈ [some "subscribe", some "unsubscribe"]
  | .dydx => getStr raw "type" ∈ [some "unsubscribed", some "connected"]

/-- `is_auth_ack`; only OKX has its own. -/
def isAuthAck (v : Venue) (raw : Json) : Bool :=
  match v with
  | .okx => getStr raw "event" = some "login"
  | .hyperliquid | .bybit | .kraken | .dydx => false

/-- `extract_topic`. -/
def extractTopic (v : Venue) (raw : Json) : Option (List Char) :=
  match v with
  | .hyperliquid =>
    (getStr raw "channel").bind fun channel =>
      if channel = "pong" ∨ channel = "subscriptionResponse" then none else some channel.toList
  | .bybit =>
    if (raw.get? "op").isSome ∧ (raw.get? "topic").isNone then none
    else if (raw.get? "success").isSome ∧ (raw.get? "topic").isNone then none
    else (getStr raw "topic").map String.toList
  | .okx =>
    if raw.asStr = some "pong" then none
    else if (raw.get? "event").isSome then none
    else ((raw.get? "arg").bind (getStr · "channel")).map String.toList
  | .kraken =>
    if (raw.get? "method").isSome then none
    else
      (getStr raw "channel").bind fun channel =>
        if channel = "heartbeat" ∨ channel = "status" then none else some channel.toList
  | .dydx =>
    (getStr raw "type").bind fun msgType =>
      if msgType ∈ ["subscribed", "channel_data", "channel_batch_data"] then
        (getStr raw "channel").map fun channel =>
          channel.toList ++ ':' :: ((getStr raw "id").getD "").toList
      else none

/-! ## Registries -/

/-- The parser of an entry: that of the trades, that of the aggregate trades, or one of those
    that no trade topic calls, by its name. -/
inductive Parser
  | trade
  | aggTrade
  | other (name : String)
  deriving DecidableEq

/-- `build_registry` of HyperLiquid (`hyperliquid/protocol.rs` lines 181–226). -/
def hyperliquidRegistry : List (String × Parser) :=
  [("allMids", .other "parse_all_mids"), ("trades", .trade), ("l2Book", .other "parse_l2_book"),
   ("l2Book", .other "parse_l2_book"), ("activeAssetCtx", .other "parse_funding_from_ctx"),
   ("activeAssetCtx", .other "parse_mark_price_from_ctx"),
   ("activeAssetCtx", .other "parse_open_interest_from_ctx"),
   ("activeAssetCtx", .other "parse_index_price_from_ctx"),
   ("activeAssetCtx", .other "parse_ticker_from_ctx"),
   ("notifications", .other "parse_notification"), ("bbo", .other "parse_bbo"),
   ("clearinghouseState", .other "parse_clearinghouse"),
   ("clearinghouseState", .other "parse_clearinghouse_position"),
   ("userNonFundingLedgerUpdates", .other "parse_non_funding_ledger"),
   ("orderUpdates", .other "parse_order_update"), ("userFundings", .other "parse_user_fundings"),
   ("webData2", .other "parse_web_data2")] ++
  List.replicate 13 ("candle", .other "parse_candle")

/-- `BYBIT_KLINE_WIRES` (`bybit/protocol.rs` lines 329–331). -/
def bybitKlineWires : List String :=
  ["1", "3", "5", "15", "30", "60", "120", "240", "360", "720", "D", "W", "M"]

/-- `build_registry` of Bybit (lines 333–383): the same patterns for every account type. -/
def bybitRegistry : List (String × Parser) :=
  [("tickers.*", .other "parse_ticker"), ("tickers.*", .other "parse_mark_price"),
   ("tickers.*", .other "parse_funding_rate"), ("tickers.*", .other "parse_open_interest"),
   ("publicTrade.*", .trade), ("publicTrade.*", .aggTrade),
   ("orderbook.1.*", .other "parse_orderbook"), ("orderbook.50.*", .other "parse_orderbook"),
   ("orderbook.200.*", .other "parse_orderbook"), ("orderbook.500.*", .other "parse_orderbook"),
   ("orderbook.1.*", .other "parse_orderbook"), ("orderbook.50.*", .other "parse_orderbook"),
   ("orderbook.200.*", .other "parse_orderbook"), ("orderbook.500.*", .other "parse_orderbook")] ++
  bybitKlineWires.map (fun wire => ("kline." ++ wire ++ ".*", .other "parse_kline")) ++
  bybitKlineWires.map (fun wire => ("kline_lt." ++ wire ++ ".*", .other "parse_kline")) ++
  [("allLiquidation.*", .other "parse_all_liquidation"), ("insurance.*", .other "parse_insurance"),
   ("adlAlert.*", .other "parse_adl_alert"), ("tickers_lt.*", .other "parse_ticker_lt"),
   ("order", .other "parse_order_update"), ("wallet", .other "parse_balance_update"),
   ("position", .other "parse_position_update")]

/-- The kline channels of OKX (`okx/protocol.rs` lines 525–587). -/
def okxKlines : List (String × Parser) :=
  Kline.okxKlineChannels.map (fun e => (e.1, .other "parse_kline")) ++
  Kline.okxKlineChannels.map (fun e => ("mark-price-" ++ e.1, .other "parse_mark_price_kline")) ++
  Kline.okxKlineChannels.map (fun e => ("index-" ++ e.1, .other "parse_index_kline"))

/-- The last entries of both OKX registries. -/
def okxShared : List (String × Parser) :=
  [("index-tickers", .other "parse_index_tickers"),
   ("public-block-trades", .other "parse_block_trades"),
   ("block-trades", .other "parse_block_trades"),
   ("estimated-price", .other "parse_estimated_price"),
   ("opt-summary", .other "parse_opt_summary"), ("price-limit", .other "parse_price_limit"),
   ("instruments", .other "parse_instruments"), ("status", .other "parse_status_channel"),
   ("orders", .other "parse_orders"), ("account", .other "parse_account"),
   ("positions", .other "parse_positions")] ++ okxKlines

/-- `build_spot_registry` (lines 399–454). -/
def okxSpotRegistry : List (String × Parser) :=
  [("tickers", .other "parse_tickers"), ("trades", .trade), ("trades-all", .trade),
   ("books", .other "parse_books"), ("books5", .other "parse_books"),
   ("bbo-tbt", .other "parse_books"), ("books-l2-tbt", .other "parse_books"),
   ("books50-l2-tbt", .other "parse_books")] ++ okxShared

/-- `build_futures_registry` (lines 456–521). -/
def okxFuturesRegistry : List (String × Parser) :=
  [("tickers", .other "parse_tickers"), ("trades", .trade), ("trades-all", .trade),
   ("trades", .aggTrade), ("books", .other "parse_books"), ("books5", .other "parse_books"),
   ("bbo-tbt", .other "parse_books"), ("books-l2-tbt", .other "parse_books"),
   ("books50-l2-tbt", .other "parse_books"), ("mark-price", .other "parse_mark_price"),
   ("funding-rate", .other "parse_funding_rate"),
   ("funding-rate", .other "parse_predicted_funding"),
   ("open-interest", .other "parse_open_interest"),
   ("liquidation-orders", .other "parse_liquidation_orders")] ++ okxShared

/-- `build_registry` of Kraken (`kraken/protocol.rs` lines 200–224). -/
def krakenRegistry : List (String × Parser) :=
  [("ticker", .other "parse_ws_ticker"), ("trade", .trade), ("book", .other "parse_ws_book"),
   ("book", .other "parse_ws_book"), ("ohlc", .other "parse_ws_ohlc"),
   ("instrument", .other "parse_ws_instrument")]

/-- `build_registry` of dYdX (`dydx/protocol.rs` lines 230–261). -/
def dydxRegistry : List (String × Parser) :=
  [("v4_orderbook:*", .other "parse_orderbook"), ("v4_orderbook:*", .other "parse_orderbook"),
   ("v4_trades:*", .trade), ("v4_markets:*", .other "parse_markets_ticker"),
   ("v4_markets:*", .other "parse_markets_funding"),
   ("v4_markets:*", .other "parse_markets_mark_price"),
   ("v4_markets:*", .other "parse_markets_warning")] ++
  List.replicate 7 ("v4_candles:*", .other "parse_candle") ++
  [("v4_candles:*", .other "parse_candle_oi")]

/-- `topic_registry`. -/
def topicRegistry (v : Venue) (accountType : AccountType) : List (String × Parser) :=
  match v with
  | .hyperliquid => hyperliquidRegistry
  | .bybit => bybitRegistry
  | .okx =>
    if accountType = .futuresCross ∨ accountType = .futuresIsolated then okxFuturesRegistry
    else okxSpotRegistry
  | .kraken => krakenRegistry
  | .dydx => dydxRegistry

/-- `topic_pattern_matches` (`topic_registry.rs` lines 74–117) for a pattern without a `*`, or
    with one at its end. -/
def topicPatternMatches (pattern key : List Char) : Bool :=
  if pattern.getLast? = some '*' then pattern.dropLast.isPrefixOf key else pattern = key

/-- `dispatch_all` (lines 195–208): the parsers of the patterns that match, each once. -/
def dispatchAll (registry : List (String × Parser)) (key : List Char) : List Parser :=
  registry.foldl
    (fun out entry =>
      if topicPatternMatches entry.1.toList key = true ∧ entry.2 ∉ out then out ++ [entry.2]
      else out) []

/-! ## Dispatch -/

section Dispatch

variable {F : Type} {Data : EventClass → Type}

mutual

/-- `emit_event`: what it sends, in order. -/
def emitEvent : StreamEvent Data → List (StreamEvent Data)
  | .batch inner => emitAll inner
  | other => [other]

/-- Its loop over the children of a batch. -/
def emitAll : List (StreamEvent Data) → List (StreamEvent Data)
  | [] => []
  | child :: inner => emitEvent child ++ emitAll inner

end

/-- The parser of an entry; `others` are those that no trade topic calls. -/
def parse (env : Env F)
    (others : String → Json → Except WebSocketError (StreamEvent (Payload F Data))) (v : Venue)
    (parser : Parser) (raw : Json) : Except WebSocketError (StreamEvent (Payload F Data)) :=
  match parser, v with
  | .other name, _ => others name raw
  | .trade, .hyperliquid => hyperliquidParseTrades env raw
  | .trade, .bybit => bybitParseTrade env raw
  | .trade, .okx => okxParseTrades env raw
  | .trade, .kraken => krakenParseWsTrade env raw
  | .trade, .dydx => dydxParseTrade env raw
  | .aggTrade, .okx => okxParseAggTrades env raw
  | .aggTrade, _ => bybitParseAggTrade env raw

/-- What one parser sends (lines 1030–1067). -/
def sendParsed (receivers : ℕ) (result : Except WebSocketError (StreamEvent Data)) :
    List (Except WebSocketError (StreamEvent Data)) :=
  match result with
  | .ok event => if 0 < receivers then (emitEvent event).map .ok else []
  | .error (.fieldAbsent _) => []
  | .error e => [.error e]

/-- `dispatch_message` (lines 974–1071) for a frame that is JSON: what it sends to the
    receivers. -/
def dispatchMessage (env : Env F)
    (others : String → Json → Except WebSocketError (StreamEvent (Payload F Data))) (v : Venue)
    (accountType : AccountType) (credentials : Bool) (receivers : ℕ) (raw : Json) :
    List (Except WebSocketError (StreamEvent (Payload F Data))) :=
  if isPong v raw then []
  else if isSubscribeAck v raw then []
  else if credentials && isAuthAck v raw then []
  else
    match extractTopic v raw with
    | none => []
    | some topic =>
      (dispatchAll (topicRegistry v accountType) topic).flatMap fun parser =>
        sendParsed receivers (parse env others v parser raw)

end Dispatch

/-! ## Specification -/

section Specification

variable {F : Type} {Data : EventClass → Type}

/-- What a trade event tells of its trade. -/
structure Delivered (F : Type) where
  symbol : String
  price : F
  quantity : F
  side : TradeSide
  id : String
  time : ℤ

/-- What an event of the trade `t` tells. -/
def delivered (symbol : String) (t : PublicTrade F) : Delivered F :=
  { symbol, price := t.price, quantity := t.quantity, side := t.side, id := t.id
    time := t.timestamp }

/-- The trade of a trade event. -/
def tradeOf? : StreamEvent (Payload F Data) → Option (Delivered F)
  | .trade symbol t => some (delivered symbol t)
  | _ => none

/-- The trades among what was sent. -/
def tradesOf (sent : List (Except WebSocketError (StreamEvent (Payload F Data)))) :
    List (Delivered F) :=
  sent.filterMap fun result => result.toOption.bind tradeOf?

/-- The venue's word for a side. -/
def sideText (buy sell : String) : TradeSide → String
  | .buy => buy
  | .sell => sell

/-- The element `item` of a frame's list is the trade `t`, in the fields of the venue. -/
def ElementOf (env : Env F) (v : Venue) (raw item : Json) (t : Delivered F) : Prop :=
  match v with
  | .hyperliquid =>
    getStr item "coin" = some t.symbol ∧ (getStr item "px").bind env.parseF64 = some t.price ∧
      (getStr item "sz").bind env.parseF64 = some t.quantity ∧
      getStr item "side" = some (sideText "B" "A" t.side) ∧
      (getI64 item "tid").map toString = some t.id ∧ getI64 item "time" = some t.time
  | .bybit =>
    getStr item "s" = some t.symbol ∧ (getStr item "p").bind env.parseF64 = some t.price ∧
      (getStr item "v").bind env.parseF64 = some t.quantity ∧
      getStr item "S" = some (sideText "Buy" "Sell" t.side) ∧
      getStr item "i" = some t.id ∧ getI64 item "T" = some t.time
  | .okx =>
    getStr item "instId" = some t.symbol ∧ (getStr item "px").bind env.parseF64 = some t.price ∧
      (getStr item "sz").bind env.parseF64 = some t.quantity ∧
      getStr item "side" = some (sideText "buy" "sell" t.side) ∧
      getStr item "tradeId" = some t.id ∧ (getStr item "ts").bind parseI64 = some t.time
  | .kraken =>
    getStr item "symbol" = some t.symbol ∧
      ((item.get? "price").bind Json.asF64).map env.ofRat = some t.price ∧
      ((item.get? "qty").bind Json.asF64).map env.ofRat = some t.quantity ∧
      getStr item "side" = some (sideText "buy" "sell" t.side) ∧
      ((item.get? "trade_id").bind Json.asU64).map toString = some t.id ∧
      (getStr item "timestamp").bind env.rfc3339Millis = some t.time
  | .dydx =>
    getStr raw "id" = some t.symbol ∧ (getStr item "price").bind env.parseF64 = some t.price ∧
      (getStr item "size").bind env.parseF64 = some t.quantity ∧
      getStr item "side" = some (sideText "BUY" "SELL" t.side) ∧
      getStr item "id" = some t.id ∧
      (getStr item "createdAt").bind env.rfc3339Millis = some t.time

/-- A data frame of the venue's trade channel, with its list. -/
def TradeFrame (v : Venue) (raw : Json) (items : List Json) : Prop :=
  match v with
  | .hyperliquid => getStr raw "channel" = some "trades" ∧ raw.get? "data" = some (.arr items)
  | .bybit =>
    raw.get? "op" = none ∧ raw.get? "ret_msg" = none ∧
      (∃ symbol, (getStr raw "topic").map String.toList =
        some ("publicTrade.".toList ++ symbol)) ∧
      raw.get? "data" = some (.arr items)
  | .okx =>
    raw.get? "event" = none ∧
      (∃ channel ∈ ["trades", "trades-all"],
        (raw.get? "arg").bind (getStr · "channel") = some channel) ∧
      raw.get? "data" = some (.arr items)
  | .kraken =>
    raw.get? "method" = none ∧ getStr raw "channel" = some "trade" ∧
      raw.get? "data" = some (.arr items)
  | .dydx =>
    getStr raw "type" ∈ [some "subscribed", some "channel_data"] ∧
      getStr raw "channel" = some "v4_trades" ∧
      (raw.get? "contents").bind (·.get? "trades") = some (.arr items)

/-- A well-formed trade frame with the trades `ts`. -/
def WellFormed (env : Env F) (v : Venue) (raw : Json) (ts : List (Delivered F)) : Prop :=
  ∃ items, TradeFrame v raw items ∧ List.Forall₂ (ElementOf env v raw) items ts

/-- `flat` replaces every batch by its children, in order and at any depth. -/
structure Flattens (flat : StreamEvent Data → List (StreamEvent Data)) : Prop where
  batch : ∀ events, flat (.batch events) = events.flatMap flat
  leaf : ∀ event, (∀ events, event ≠ .batch events) → flat event = [event]
  leaves : ∀ event, ∀ e ∈ flat event, ∀ events, e ≠ .batch events

/-- One trade event for each trade of the frame, in order, and batches are flattened. -/
def Delivers (env : Env F)
    (others : String → Json → Except WebSocketError (StreamEvent (Payload F Data))) (v : Venue)
    (accountType : AccountType) (credentials : Bool) (receivers : ℕ) (raw : Json)
    (ts : List (Delivered F)) : Prop :=
  tradesOf (dispatchMessage env others v accountType credentials receivers raw) = ts ∧
    Flattens (@emitEvent (Payload F Data))

end Specification

/-! ## Batches -/

section Batches

variable {Data : EventClass → Type}

theorem emitAll_eq_flatMap (events : List (StreamEvent Data)) :
    emitAll events = events.flatMap emitEvent := by
  induction events with
  | nil => rfl
  | cons event events ih => rw [emitAll, ih, List.flatMap_cons]

theorem emitEvent_leaf {event : StreamEvent Data} (h : ∀ events, event ≠ .batch events) :
    emitEvent event = [event] := by
  cases event with
  | batch events => exact absurd rfl (h events)
  | _ => rfl

/-- Nothing that is sent is a batch: by the recursion of `emit_event`. -/
theorem emitEvent_leaves (event : StreamEvent Data) :
    ∀ e ∈ emitEvent event, ∀ events, e ≠ .batch events := by
  refine emitEvent.induct (fun event => ∀ e ∈ emitEvent event, ∀ events, e ≠ .batch events)
    (fun inner => ∀ e ∈ emitAll inner, ∀ events, e ≠ .batch events) ?_ ?_ ?_ ?_ event
  · intro inner ih
    rw [emitEvent]
    exact ih
  · intro other hleaf e he
    rw [emitEvent_leaf hleaf, List.mem_singleton] at he
    rw [he]
    exact hleaf
  · intro e he
    cases he
  · intro child inner hchild hinner e he
    rw [emitAll] at he
    rcases List.mem_append.mp he with he | he
    · exact hchild e he
    · exact hinner e he

theorem emitEvent_flattens : Flattens (@emitEvent Data) where
  batch := fun events => by rw [emitEvent, emitAll_eq_flatMap]
  leaf := fun _ h => emitEvent_leaf h
  leaves := emitEvent_leaves

end Batches

/-! ## Routing -/

section Routing

/-- The parsers that the topic of a trade frame calls. -/
theorem dispatchAll_hyperliquid :
    dispatchAll hyperliquidRegistry "trades".toList = [.trade] := by decide

theorem dispatchAll_bybit (symbol : List Char) :
    dispatchAll bybitRegistry ("publicTrade.".toList ++ symbol) = [.trade, .aggTrade] := by
  rfl

theorem dispatchAll_okx (registry : List (String × Parser))
    (hregistry : registry ∈ [okxSpotRegistry, okxFuturesRegistry]) (channel : String)
    (hchannel : channel ∈ ["trades", "trades-all"]) :
    dispatchAll registry channel.toList = [.trade] ∨
      dispatchAll registry channel.toList = [.trade, .aggTrade] := by
  revert registry channel
  decide

theorem dispatchAll_kraken : dispatchAll krakenRegistry "trade".toList = [.trade] := by decide

theorem dispatchAll_dydx (symbol : List Char) :
    dispatchAll dydxRegistry ("v4_trades".toList ++ ':' :: symbol) = [.trade] := by
  rfl

end Routing

/-! ## What the parsers make of a trade frame -/

section Parsed

variable {F : Type} {Data : EventClass → Type} {env : Env F} {raw item : Json}
  {items : List Json} {t : Delivered F} {ts : List (Delivered F)}

theorem getF64_of_text {data : Json} {key : String} {x : F}
    (h : (getStr data key).bind env.parseF64 = some x) : getF64 env data key = some x := by
  unfold getStr at h
  unfold getF64
  cases hget : data.get? key with
  | none =>
    rw [hget] at h
    cases h
  | some value =>
    rw [hget] at h
    have hvalue : value.asStr.bind env.parseF64 = some x := h
    show parseF64 env value = some x
    rw [parseF64, hvalue]
    rfl

theorem requireF64_of_text {data : Json} {key : String} {x : F}
    (h : (getStr data key).bind env.parseF64 = some x) : requireF64 env data key = .ok x := by
  rw [requireF64, getF64_of_text h]

theorem okxGetI64_of_text {data : Json} {key : String} {n : ℤ}
    (h : (getStr data key).bind parseI64 = some n) : okxGetI64 data key = some n := by
  unfold getStr at h
  unfold okxGetI64
  cases hget : data.get? key with
  | none =>
    rw [hget] at h
    cases h
  | some value =>
    rw [hget] at h
    have hvalue : value.asStr.bind parseI64 = some n := h
    show (value.asStr.bind parseI64).or value.asI64 = some n
    rw [hvalue]
    rfl

/-- What a parser returns. -/
abbrev Parsed (F : Type) (Data : EventClass → Type) : Type :=
  Except WebSocketError (StreamEvent (Payload F Data))

/-- One event, which tells of the trade `t`. -/
def TellsOf (t : Delivered F) (result : Parsed F Data) : Prop :=
  ∃ symbol trade, result = .ok (.trade symbol trade) ∧ delivered symbol trade = t

theorem hyperliquidTrade_eq (h : ElementOf env .hyperliquid raw item t) :
    ∃ trade, hyperliquidTrade env item = .ok trade ∧
      delivered ((getStr item "coin").getD "") trade = t := by
  obtain ⟨hcoin, hprice, hquantity, hside, hid, htime⟩ := h
  refine ⟨_, by simp only [hyperliquidTrade, requireF64_of_text hprice]; rfl, ?_⟩
  simp only [delivered, hcoin, hside, hid, htime, getF64_of_text hquantity, Option.getD_some]
  cases t with
  | mk symbol price quantity side id time =>
    cases side <;> rfl

theorem bybitItem_eq (hframe : TradeFrame .bybit raw (item :: items))
    (h : ElementOf env .bybit raw item t) :
    bybitItem env raw = .ok (item, t.symbol, t.price, t.quantity, t.time, t.side) := by
  obtain ⟨-, -, -, hdata⟩ := hframe
  obtain ⟨hsymbol, hprice, hquantity, hside, -, htime⟩ := h
  simp only [bybitItem, hdata, orParse_some, ok_bind, Json.asArray_arr, List.head?_cons, hsymbol,
    hprice, hquantity, htime, hside]
  cases t.side <;> rfl

theorem bybit_tellsOf (hframe : TradeFrame .bybit raw (item :: items))
    (h : ElementOf env .bybit raw item t) :
    TellsOf t (bybitParseTrade env raw : Parsed F Data) := by
  obtain ⟨-, -, -, -, hid, -⟩ := id h
  refine ⟨t.symbol, _, by simp only [bybitParseTrade, bybitItem_eq hframe h, ok_bind]; rfl, ?_⟩
  simp only [delivered, hid, Option.getD_some]

theorem okx_tellsOf (hframe : TradeFrame .okx raw (item :: items))
    (h : ElementOf env .okx raw item t) : TellsOf t (okxParseTrades env raw : Parsed F Data) := by
  obtain ⟨-, -, hdata⟩ := hframe
  obtain ⟨hsymbol, hprice, hquantity, hside, hid, htime⟩ := h
  have hitem : firstDataItem raw = .ok item := by
    rw [firstDataItem, hdata]
    rfl
  refine ⟨_, _, by
    simp only [okxParseTrades, hitem, requireF64_of_text hprice, requireF64_of_text hquantity,
      ok_bind, ok_mapError]
    rfl, ?_⟩
  simp only [delivered, hsymbol, hid, okxSide, hside, okxGetI64_of_text htime, Option.getD_some]
  cases t with
  | mk symbol price quantity side id time =>
    cases side <;> rfl

theorem kraken_tellsOf (hframe : TradeFrame .kraken raw (item :: items))
    (h : ElementOf env .kraken raw item t) :
    TellsOf t (krakenParseWsTrade env raw : Parsed F Data) := by
  obtain ⟨-, -, hdata⟩ := hframe
  obtain ⟨hsymbol, hprice, hquantity, hside, hid, htime⟩ := h
  obtain ⟨price, hprice, hpriceEq⟩ := Option.map_eq_some_iff.mp hprice
  obtain ⟨quantity, hquantity, hquantityEq⟩ := Option.map_eq_some_iff.mp hquantity
  refine ⟨_, _, by
    simp only [krakenParseWsTrade, hdata, Option.bind_some, Json.asArray_arr, List.head?_cons,
      hprice, hquantity, orParse_some, ok_bind]
    rfl, ?_⟩
  simp only [delivered, hsymbol, hid, hside, htime, hpriceEq, hquantityEq, Option.getD_some]
  cases t with
  | mk symbol price quantity side id time =>
    cases side <;> rfl

theorem dydx_tellsOf (hframe : TradeFrame .dydx raw (item :: items))
    (h : ElementOf env .dydx raw item t) : TellsOf t (dydxParseTrade env raw : Parsed F Data) := by
  obtain ⟨-, -, htrades⟩ := hframe
  obtain ⟨hsymbol, hprice, hquantity, hside, hid, htime⟩ := h
  obtain ⟨contents, hcontents, htrades⟩ := Option.bind_eq_some_iff.mp htrades
  refine ⟨_, _, by
    simp only [dydxParseTrade, dydxParseWsTrade, hcontents, htrades, Option.bind_some,
      Json.asArray_arr, List.head?_cons, requireF64_of_text hprice, ok_bind]
    rfl, ?_⟩
  simp only [delivered, hsymbol, hid, hside, htime, getF64_of_text hquantity, Option.getD_some]
  cases t with
  | mk symbol price quantity side id time =>
    cases side <;> rfl

end Parsed

/-! ## What is sent -/

section Sent

variable {F : Type} {Data : EventClass → Type} {env : Env F}
  {others : String → Json → Parsed F Data} {v : Venue} {accountType : AccountType}
  {credentials : Bool} {receivers : ℕ} {raw item : Json} {items : List Json} {t : Delivered F}
  {ts : List (Delivered F)}

theorem tradesOf_sendParsed (receivers : ℕ) (event : StreamEvent (Payload F Data)) :
    tradesOf (sendParsed receivers (.ok event)) =
      if 0 < receivers then (emitEvent event).filterMap tradeOf? else [] := by
  simp only [sendParsed]
  split_ifs
  · rw [tradesOf, List.filterMap_map]
    rfl
  · rfl

/-- An aggregate trade, or an error, carries no trade. -/
theorem tradesOf_aggTrade (receivers : ℕ) (v : Venue) (raw : Json) :
    tradesOf (sendParsed receivers (parse env others v .aggTrade raw)) = [] := by
  have hbybit : tradesOf (sendParsed receivers (bybitParseAggTrade env raw : Parsed F Data)) =
      [] := by
    unfold bybitParseAggTrade
    rcases bybitItem env raw with e | fields
    · cases e <;> rfl
    · exact (tradesOf_sendParsed _ _).trans (by split_ifs <;> rfl)
  have hokx : tradesOf (sendParsed receivers (okxParseAggTrades env raw : Parsed F Data)) =
      [] := by
    unfold okxParseAggTrades
    rcases firstDataItem raw with e | data
    · cases e <;> rfl
    · simp only [ok_bind]
      rcases getF64 env data "px" with _ | price
      · rfl
      · rcases getF64 env data "sz" with _ | quantity
        · rfl
        · exact (tradesOf_sendParsed _ _).trans (by split_ifs <;> rfl)
  cases v with
  | okx => exact hokx
  | _ => exact hbybit

/-- A frame that is no control frame goes to the parsers of its topic. -/
theorem dispatchMessage_of_topic {topic : List Char} (hpong : isPong v raw = false)
    (hack : isSubscribeAck v raw = false) (hauth : isAuthAck v raw = false)
    (htopic : extractTopic v raw = some topic) :
    dispatchMessage env others v accountType credentials receivers raw =
      (dispatchAll (topicRegistry v accountType) topic).flatMap fun parser =>
        sendParsed receivers (parse env others v parser raw) := by
  rw [dispatchMessage, hpong, hack, hauth, htopic, Bool.and_false]
  rfl

theorem getStr_of_get? {raw : Json} {key : String} (h : raw.get? key = none) :
    getStr raw key = none := by
  rw [getStr, h]
  rfl

/-- The topic of a trade frame calls the trade parser, and at most that of the aggregate trades
    besides. -/
theorem dispatchMessage_eq (hframe : TradeFrame v raw items) :
    ∃ parsers, (parsers = [.trade] ∨ parsers = [.trade, .aggTrade]) ∧
      dispatchMessage env others v accountType credentials receivers raw =
        parsers.flatMap fun parser => sendParsed receivers (parse env others v parser raw) := by
  cases v with
  | hyperliquid =>
    obtain ⟨hchannel, -⟩ := hframe
    refine ⟨_, .inl dispatchAll_hyperliquid, dispatchMessage_of_topic ?_ ?_ rfl ?_⟩
    · rw [isPong, hchannel]
      decide
    · rw [isSubscribeAck, hchannel]
      decide
    · rw [extractTopic, hchannel]
      rfl
  | bybit =>
    obtain ⟨hop, hret, ⟨symbol, htopic⟩, -⟩ := hframe
    have hsome : (raw.get? "topic").isNone = false := by
      cases hraw : raw.get? "topic" with
      | none =>
        rw [getStr_of_get? hraw] at htopic
        cases htopic
      | some value => rfl
    refine ⟨_, .inr (dispatchAll_bybit symbol), dispatchMessage_of_topic ?_ ?_ rfl ?_⟩
    · rw [isPong, getStr_of_get? hop, getStr_of_get? hret]
      decide
    · rw [isSubscribeAck, getStr_of_get? hop]
      rfl
    · rw [extractTopic, hsome, if_neg (by simp), if_neg (by simp), htopic]
  | okx =>
    obtain ⟨hevent, ⟨channel, hchannel, harg⟩, -⟩ := hframe
    have hstr : raw.asStr = none := by
      cases raw with
      | str s => cases harg
      | _ => rfl
    have hregistry : topicRegistry .okx accountType ∈ [okxSpotRegistry, okxFuturesRegistry] := by
      simp only [topicRegistry]
      split_ifs
      · exact List.mem_cons_of_mem _ (List.mem_singleton_self _)
      · exact List.mem_cons_self
    refine ⟨_, dispatchAll_okx _ hregistry channel hchannel, dispatchMessage_of_topic ?_ ?_ ?_ ?_⟩
    · rw [isPong, hstr]
      decide
    · rw [isSubscribeAck, getStr_of_get? hevent]
      decide
    · rw [isAuthAck, getStr_of_get? hevent]
      decide
    · rw [extractTopic, hstr, hevent, if_neg (by simp), if_neg (by simp), harg]
      rfl
  | kraken =>
    obtain ⟨hmethod, hchannel, -⟩ := hframe
    refine ⟨_, .inl dispatchAll_kraken, dispatchMessage_of_topic ?_ ?_ rfl ?_⟩
    · rw [isPong, getStr_of_get? hmethod]
      decide
    · rw [isSubscribeAck, getStr_of_get? hmethod]
      decide
    · rw [extractTopic, hmethod, hchannel, if_neg (by simp)]
      rfl
  | dydx =>
    obtain ⟨htype, hchannel, -⟩ := hframe
    refine ⟨_, .inl (dispatchAll_dydx ((getStr raw "id").getD "").toList),
      dispatchMessage_of_topic rfl ?_ rfl ?_⟩
    · rcases List.mem_pair.mp htype with htype | htype
      · rw [isSubscribeAck, htype]
        decide
      · rw [isSubscribeAck, htype]
        decide
    · rcases List.mem_pair.mp htype with htype | htype
      · rw [extractTopic, htype, hchannel]
        rfl
      · rw [extractTopic, htype, hchannel]
        rfl

/-- The trades that a trade frame sends are those of its parser. -/
theorem tradesOf_dispatch (others : String → Json → Parsed F Data) (accountType : AccountType)
    (credentials : Bool) (receivers : ℕ) (hframe : TradeFrame v raw items) :
    tradesOf (dispatchMessage env others v accountType credentials receivers raw) =
      tradesOf (sendParsed receivers (parse env others v .trade raw)) := by
  obtain ⟨parsers, hparsers, hdispatch⟩ := @dispatchMessage_eq F Data env others v accountType
    credentials receivers raw items hframe
  rw [hdispatch]
  rcases hparsers with rfl | rfl
  · rw [List.flatMap_singleton]
  · rw [List.flatMap_cons, List.flatMap_singleton, tradesOf, List.filterMap_append]
    exact (congrArg (_ ++ ·) (tradesOf_aggTrade receivers v raw)).trans (List.append_nil _)

/-- The trades of a HyperLiquid frame, one event each. -/
theorem hyperliquidTrades_eq (h : List.Forall₂ (ElementOf env .hyperliquid raw) items ts) :
    ∃ parsed, items.mapM (hyperliquidTrade env) = .ok parsed ∧
      (parsed.zip items).map (fun p => delivered ((getStr p.2 "coin").getD "") p.1) = ts := by
  induction h with
  | nil => exact ⟨[], rfl, rfl⟩
  | cons helement _ ih =>
    obtain ⟨trade, htrade, hdelivered⟩ := hyperliquidTrade_eq helement
    obtain ⟨parsed, hparsed, hrest⟩ := ih
    refine ⟨trade :: parsed, ?_, ?_⟩
    · rw [List.mapM_cons, htrade, ok_bind, hparsed]
      rfl
    · rw [List.zip_cons_cons, List.map_cons, hdelivered, hrest]

/-- Trade events are sent one by one, in a batch or alone. -/
theorem emitEvent_trades (pairs : List (PublicTrade F × Json)) :
    (emitAll (pairs.map fun p => @StreamEvent.trade (Payload F Data)
      ((getStr p.2 "coin").getD "") p.1)).filterMap tradeOf? =
        pairs.map fun p => delivered ((getStr p.2 "coin").getD "") p.1 := by
  induction pairs with
  | nil => rfl
  | cons p pairs ih =>
    rw [List.map_cons, List.map_cons, emitAll, List.filterMap_append, ih]
    rfl

/-- HyperLiquid's parser returns all trades of the frame. -/
theorem hyperliquid_sends (Data : EventClass → Type) (hframe : TradeFrame .hyperliquid raw items)
    (h : List.Forall₂ (ElementOf env .hyperliquid raw) items ts) (hne : items ≠ []) :
    ∃ event : StreamEvent (Payload F Data), hyperliquidParseTrades env raw = .ok event ∧
      (emitEvent event).filterMap tradeOf? = ts := by
  obtain ⟨-, hdata⟩ := hframe
  obtain ⟨parsed, hparsed, hts⟩ := hyperliquidTrades_eq h
  have hevents : (emitAll ((parsed.zip items).map fun p => @StreamEvent.trade (Payload F Data)
      ((getStr p.2 "coin").getD "") p.1)).filterMap tradeOf? = ts :=
    (emitEvent_trades _).trans hts
  simp only [hyperliquidParseTrades, hdata, orParse_some, ok_bind, Json.asArray_arr, if_neg hne,
    hparsed, ok_mapError]
  generalize ((parsed.zip items).map fun p => @StreamEvent.trade (Payload F Data)
    ((getStr p.2 "coin").getD "") p.1) = events at hevents ⊢
  rcases events with _ | ⟨event, _ | ⟨event', rest⟩⟩
  · exact ⟨_, rfl, hevents⟩
  · refine ⟨event, rfl, ?_⟩
    rwa [emitAll, emitAll, List.append_nil] at hevents
  · exact ⟨_, rfl, hevents⟩

/-- The other four return the first trade. -/
theorem first_sends (others : String → Json → Parsed F Data) (hv : v ≠ .hyperliquid)
    (hframe : TradeFrame v raw (item :: items))
    (h : ElementOf env v raw item t) : TellsOf t (parse env others v .trade raw) := by
  cases v with
  | hyperliquid => exact absurd rfl hv
  | bybit => exact bybit_tellsOf hframe h
  | okx => exact okx_tellsOf hframe h
  | kraken => exact kraken_tellsOf hframe h
  | dydx => exact dydx_tellsOf hframe h

/-- What a trade frame with trades sends: all of them from HyperLiquid, else the first. -/
theorem tradesOf_wellFormed (others : String → Json → Parsed F Data) (accountType : AccountType)
    (credentials : Bool) (hreceivers : 0 < receivers) (hframe : WellFormed env v raw (t :: ts)) :
    tradesOf (dispatchMessage env others v accountType credentials receivers raw) =
      if v = .hyperliquid then t :: ts else [t] := by
  obtain ⟨items, hframe, helements⟩ := hframe
  rw [tradesOf_dispatch others accountType credentials receivers hframe]
  split_ifs with hv
  · subst hv
    have hne : items ≠ [] := by
      rintro rfl
      cases helements
    obtain ⟨event, hevent, htrades⟩ := hyperliquid_sends Data hframe helements hne
    rw [show parse env others .hyperliquid .trade raw = .ok event from hevent,
      tradesOf_sendParsed, if_pos hreceivers, htrades]
  · cases helements with
    | cons helement _ =>
      obtain ⟨symbol, trade, hparse, hdelivered⟩ := first_sends others hv hframe helement
      rw [hparse, tradesOf_sendParsed, if_pos hreceivers]
      exact congrArg (· :: []) hdelivered

theorem tradesOf_of_no_receivers (others : String → Json → Parsed F Data)
    (accountType : AccountType) (credentials : Bool) (hframe : TradeFrame v raw items) :
    tradesOf (dispatchMessage env others v accountType credentials 0 raw) = [] := by
  rw [tradesOf_dispatch others accountType credentials 0 hframe]
  rcases parse env others v .trade raw with e | event
  · cases e <;> rfl
  · rw [tradesOf_sendParsed]
    rfl

/-- **Main theorem.** All trades of a frame arrive, one event each, exactly when the driver has
    receivers and the venue is HyperLiquid or the frame has a single trade. -/
theorem trades_delivered_iff (env : Env F) (others : String → Json → Parsed F Data) (v : Venue)
    (accountType : AccountType) (credentials : Bool) (receivers : ℕ) (raw : Json)
    (ts : List (Delivered F)) (hframe : WellFormed env v raw ts) (hne : ts ≠ []) :
    Delivers env others v accountType credentials receivers raw ts ↔
      0 < receivers ∧ (v = .hyperliquid ∨ ts.length = 1) := by
  obtain ⟨t, ts, rfl⟩ := List.exists_cons_of_ne_nil hne
  rw [Delivers, and_iff_left emitEvent_flattens]
  rcases Nat.eq_zero_or_pos receivers with rfl | hreceivers
  · obtain ⟨items, htrade, -⟩ := hframe
    rw [tradesOf_of_no_receivers others accountType credentials htrade]
    simp
  · rw [tradesOf_wellFormed others accountType credentials hreceivers hframe]
    by_cases hv : v = .hyperliquid
    · simp [hv, hreceivers]
    · simp only [hv, if_false, hreceivers, false_or, true_and, List.length_cons]
      constructor
      · intro h
        rw [← (List.cons.inj h).2]
        rfl
      · intro h
        rw [List.length_eq_zero_iff.mp (Nat.succ_injective h)]

end Sent

/-! ## Two frames -/

/-- Numbers without a fraction, as exact ones. -/
def plainEnv : Env ℤ :=
  { parseF64 := parseI64, ofRat := Rat.floor, toI64 := id, rfc3339Millis := fun _ => none
    now := 0 }

def noOthers (name : String) (_ : Json) : Parsed ℤ fun _ => Unit := .error (.parse name)

/-- A trade of HyperLiquid's list. -/
def hyperliquidItem (tid time : ℤ) : Json :=
  .obj [("coin", .str "BTC"), ("side", .str "B"), ("px", .str "100"), ("sz", .str "2"),
    ("time", .int time), ("tid", .int tid)]

theorem trades_delivered_iff_hyperliquid :
    Delivers plainEnv noOthers .hyperliquid .futuresCross false 1
      (.obj [("channel", .str "trades"),
        ("data", .arr [hyperliquidItem 7 1000, hyperliquidItem 8 1001])])
      [⟨"BTC", 100, 2, .buy, "7", 1000⟩, ⟨"BTC", 100, 2, .buy, "8", 1001⟩] := by
  refine (trades_delivered_iff plainEnv noOthers .hyperliquid .futuresCross false 1 _ _ ?_
    (by simp)).mpr ⟨by decide, .inl rfl⟩
  exact ⟨_, ⟨rfl, rfl⟩, .cons ⟨rfl, by decide, by decide, rfl, by decide, by decide⟩
    (.cons ⟨rfl, by decide, by decide, rfl, by decide, by decide⟩ .nil)⟩

/-- A trade of Bybit's list. -/
def bybitTradeItem (id : String) (time : ℤ) : Json :=
  .obj [("s", .str "BTCUSDT"), ("S", .str "Buy"), ("p", .str "100"), ("v", .str "2"),
    ("T", .int time), ("i", .str id)]

/-- The second trade of a Bybit frame is not sent. -/
theorem bybit_drops_second_trade :
    ¬ ∀ (v : Venue) (raw : Json) (ts : List (Delivered ℤ)), WellFormed plainEnv v raw ts →
      Delivers plainEnv noOthers v .spot false 1 raw ts := by
  intro h
  have hframe : WellFormed plainEnv .bybit
      (.obj [("topic", .str "publicTrade.BTCUSDT"),
        ("data", .arr [bybitTradeItem "a" 1000, bybitTradeItem "b" 1001])])
      [⟨"BTCUSDT", 100, 2, .buy, "a", 1000⟩, ⟨"BTCUSDT", 100, 2, .buy, "b", 1001⟩] :=
    ⟨_, ⟨rfl, rfl, ⟨"BTCUSDT".toList, by decide⟩, rfl⟩,
      .cons ⟨rfl, by decide, by decide, rfl, rfl, by decide⟩
        (.cons ⟨rfl, by decide, by decide, rfl, rfl, by decide⟩ .nil)⟩
  have hsent := (h .bybit _ _ hframe).1
  rw [tradesOf_wellFormed noOthers .spot false Nat.one_pos hframe, if_neg (by decide)] at hsent
  cases hsent

end Digdigdig3.TradeFrames
