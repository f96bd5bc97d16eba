import Digdigdig3.Core.Json
import Digdigdig3.Core.StreamSpec
import Digdigdig3.Core.SymbolNormalizer
import Digdigdig3.Lib.Affixes
import Digdigdig3.Lib.Runs

/-!
# Bitfinex channel routing

`BitfinexProtocol` (`bitfinex/protocol.rs` lines 95–454): a data frame carries a channel id
only, so the acks fill a table from ids to topics, and the symbol and interval of a frame are
read back out of the topic text. The table belongs to the protocol object and outlives a
connection.

Results:
* `tracks_step`: what the current connection has assigned is in the table.
* `receives_iff`: which channels are read back out of their topics.
* `conforms_iff_routable`: one step.
* `routing_iff`: exactly the runs that are routed right.
-/

namespace Digdigdig3.Bitfinex

/-! ## Topics -/

/-- `format_symbol` for `AccountType::Spot` (`bitfinex/endpoints.rs` lines 244–253). -/
def formatSymbol (U : Unicode) (base quote : List Char) : List Char :=
  let quoteUp := U.toUppercase quote
  let quoteMapped := if quoteUp = "USDT".toList then "USD".toList else quoteUp
  't' :: (U.toUppercase base ++ quoteMapped)

/-- `wire_symbol` (lines 153–169). -/
def wireSymbol (U : Unicode) (spec : StreamSpec) : List Char :=
  let raw := spec.symbol.asStr
  if raw.head? = some 't' ∨ raw.head? = some 'f' then raw
  else if '/' ∈ raw then
    let parts := splitN '/' 2 raw
    formatSymbol U (parts[0]?.getD []) (parts[1]?.getD "USD".toList)
  else 't' :: raw

/-- `topic_from_ack` (lines 174–195). -/
def topicFromAck (channel : String) (symbol key : Option (List Char)) : Option (List Char) :=
  if channel = "ticker" ∨ channel = "trades" ∨ channel = "book" then
    symbol.map fun sym => channel.toList ++ ':' :: sym
  else if channel = "candles" then
    key.map fun k => "candles".toList ++ ':' :: (k.dropPrefix? "trade:".toList).getD k
  else if channel = "status" then key.map fun k => "status".toList ++ ':' :: k
  else none

/-- `symbol_from_topic` (lines 201–206): the last segment. -/
def symbolFromTopic (key : List Char) : List Char := (split ':' key).getLast?.getD []

/-- `interval_from_candles_topic` (lines 211–217): the second segment. -/
def intervalFromCandlesTopic (key : List Char) : List Char := (splitN ':' 3 key)[1]?.getD []

/-! ## The protocol object -/

/-- The thread-locals `CURRENT_SYMBOL` and `CURRENT_INTERVAL` (lines 95–101). -/
structure Locals where
  symbol : Option (List Char)
  interval : Option (List Char)

/-- `BitfinexProtocol` (lines 134–139) with the thread-locals of its task. -/
structure Protocol where
  chanMap : ℕ → Option (List Char)
  locals : Locals

/-- `BitfinexProtocol::new`. -/
def Protocol.new : Protocol := ⟨fun _ => none, none, none⟩

/-- The parsers of `build_registry`. -/
inductive Parser
  | ticker
  | trade
  | book
  | candle
  | liq
  deriving DecidableEq

/-- `build_registry` (lines 439–454): the text before the `*` of each pattern, with its
    parser. -/
def registry : List (List Char × Parser) :=
  [("ticker".toList ++ [':'], .ticker), ("trades".toList ++ [':'], .trade),
   ("book".toList ++ [':'], .book), ("book".toList ++ [':'], .book),
   ("candles".toList ++ [':'], .candle), ("status".toList ++ [':'], .liq)]

/-- `dispatch_all` (`topic_registry.rs` lines 195–208) for patterns that end in their only
    `*`: the parsers whose pattern matches, each once. -/
def dispatchAll (key : List Char) : List Parser :=
  registry.foldl
    (fun out entry =>
      if entry.1 <+: key ∧ entry.2 ∉ out then out ++ [entry.2] else out) []

/-- The text of a field. -/
def textField (raw : Json) (key : String) : Option (List Char) :=
  ((raw.get? key).bind Json.asStr).map String.toList

/-- `is_pong` (lines 330–332). -/
def isPong (raw : Json) : Bool := (raw.get? "event").bind Json.asStr = some "pong"

namespace Protocol

/-- `is_subscribe_ack` (lines 340–373): whether the frame is an ack, and the table after it. -/
def isSubscribeAck (p : Protocol) (raw : Json) : Bool × Protocol :=
  match (raw.get? "event").bind Json.asStr with
  | none => (false, p)
  | some event =>
    if event = "subscribed" then
      match (raw.get? "chanId").bind Json.asU64 with
      | none => (true, p)
      | some chanId =>
        let channel := ((raw.get? "channel").bind Json.asStr).getD ""
        match topicFromAck channel (textField raw "symbol") (textField raw "key") with
        | none => (true, p)
        | some topic => (true, { p with chanMap := Function.update p.chanMap chanId (some topic) })
    else if event = "unsubscribed" then
      match (raw.get? "chanId").bind Json.asU64 with
      | none => (true, p)
      | some chanId => (true, { p with chanMap := Function.update p.chanMap chanId none })
    else (decide (event = "info"), p)

/-- `extract_topic` (lines 395–422): the topic of a data frame, and the thread-locals it
    leaves. -/
def extractTopic (p : Protocol) (raw : Json) : Option (List Char × Protocol) := do
  let arr ← raw.asArray
  let chanId ← (arr[0]?).bind Json.asU64
  if (arr[1]?).bind Json.asStr = some "hb" then none
  else do
    let topic ← p.chanMap chanId
    let interval := if "candles:".toList <+: topic then some (intervalFromCandlesTopic topic)
      else p.locals.interval
    return (topic, { p with locals := ⟨some (symbolFromTopic topic), interval⟩ })

end Protocol

/-- A call of a parser: which one, and what it takes from the thread-locals. -/
structure Dispatch where
  parser : Parser
  symbol : List Char
  interval : List Char

/-- The thread-locals after a parser has run: the `take_current_…` calls that the frame lets
    it reach. -/
def Parser.take (raw : Json) (l : Locals) (parser : Parser) : Locals :=
  let arr := raw.asArray.getD []
  match parser with
  | ticker => if ((arr[1]?).bind Json.asArray).isSome then { l with symbol := none } else l
  | trade | book => if 2 ≤ arr.length then { l with symbol := none } else l
  | candle => if 2 ≤ arr.length then ⟨none, none⟩ else l
  | liq => l

namespace Protocol

/-- The parsers called one after another on a frame. -/
def call (raw : Json) (p : Protocol) : List Parser → Protocol × List Dispatch
  | [] => (p, [])
  | parser :: parsers =>
    let rest := call raw { p with locals := parser.take raw p.locals } parsers
    (rest.1, ⟨parser, p.locals.symbol.getD [], p.locals.interval.getD []⟩ :: rest.2)

/-- The transport's treatment of a frame (`transport.rs` lines 981–1075). -/
def handle (p : Protocol) (raw : Json) : Protocol × List Dispatch :=
  if isPong raw then (p, [])
  else
    match p.isSubscribeAck raw with
    | (true, p') => (p', [])
    | (false, p') =>
      match p'.extractTopic raw with
      | none => (p', [])
      | some (topic, p'') => p''.call raw (dispatchAll topic)

end Protocol

/-! ## Requests -/

/-- The errors of `subscribe_frame` and `unsubscribe_frame`, all `WireAbsent`. -/
inductive RequestError
  | noChannel (kind : StreamKind)
  | wireAbsent (text : String)

/-- `subscribe_frame` (lines 245–287). -/
def subscribeFrame (U : Unicode) (spec : StreamSpec) : Except RequestError Json :=
  let sym := wireSymbol U spec
  match spec.kind with
  | .ticker => .ok (.obj [("event", .str "subscribe"), ("channel", .str "ticker"),
      ("symbol", .str (String.ofList sym))])
  | .trade => .ok (.obj [("event", .str "subscribe"), ("channel", .str "trades"),
      ("symbol", .str (String.ofList sym))])
  | .orderbook | .orderbookDelta => .ok (.obj [("event", .str "subscribe"),
      ("channel", .str "book"), ("symbol", .str (String.ofList sym)), ("prec", .str "P0")])
  | .kline interval => .ok (.obj [("event", .str "subscribe"), ("channel", .str "candles"),
      ("key", .str (String.ofList ("trade:".toList ++ interval.text.toList ++ ':' :: sym)))])
  | .liquidation => .ok (.obj [("event", .str "subscribe"), ("channel", .str "status"),
      ("key", .str "liq:global")])
  | kind => .error (.noChannel kind)

/-- The topic of `unsubscribe_frame` (lines 290–305). -/
def unsubscribeTopic (U : Unicode) (spec : StreamSpec) : Except RequestError (List Char) :=
  let sym := wireSymbol U spec
  match spec.kind with
  | .ticker => .ok ("ticker".toList ++ ':' :: sym)
  | .trade => .ok ("trades".toList ++ ':' :: sym)
  | .orderbook | .orderbookDelta => .ok ("book".toList ++ ':' :: sym)
  | .kline interval => .ok ("candles".toList ++ ':' :: (interval.text.toList ++ ':' :: sym))
  | .liquidation => .ok "status:liq:global".toList
  | kind => .error (.noChannel kind)

/-- The frame that takes a channel id back. -/
def unsubscribeJson (chanId : ℕ) : Json :=
  .obj [("event", .str "unsubscribe"), ("chanId", .int chanId)]

/-- `unsubscribe_frame` (lines 289–322); `order` is the order in which the table is iterated. -/
def Protocol.unsubscribeFrame (U : Unicode) (p : Protocol) (order : List ℕ) (spec : StreamSpec) :
    Except RequestError Json :=
  match unsubscribeTopic U spec with
  | .error e => .error e
  | .ok topic =>
    match order.find? fun chanId => p.chanMap chanId = some topic with
    | some chanId => .ok (unsubscribeJson chanId)
    | none => .error (.wireAbsent ("bitfinex: cannot unsubscribe from " ++ String.ofList topic ++
        " — chanId not yet known (ack pending?)"))

/-! ## The server -/

/-- A channel that an ack can be about. -/
inductive Channel
  | ticker (symbol : List Char)
  | trades (symbol : List Char)
  | book (symbol : List Char)
  | candles (timeframe symbol : List Char)
  | status (key : List Char)
  deriving DecidableEq

namespace Channel

/-- The channel's name. -/
def name : Channel → String
  | ticker _ => "ticker"
  | trades _ => "trades"
  | book _ => "book"
  | candles _ _ => "candles"
  | status _ => "status"

/-- What the channel's topic says after its name. -/
def rest : Channel → List Char
  | ticker symbol | trades symbol | book symbol => symbol
  | candles timeframe symbol => timeframe ++ ':' :: symbol
  | status key => key

/-- The topic of the channel. -/
def topic (ch : Channel) : List Char := ch.name.toList ++ ':' :: ch.rest

/-- The field of an ack that names what the channel is about. -/
def field : Channel → String × Json
  | ticker symbol | trades symbol | book symbol => ("symbol", .str (String.ofList symbol))
  | candles timeframe symbol =>
    ("key", .str (String.ofList ("trade:".toList ++ timeframe ++ ':' :: symbol)))
  | status key => ("key", .str (String.ofList key))

/-- The ack of a subscription. -/
def ackJson (chanId : UInt64) (ch : Channel) : Json :=
  .obj [("event", .str "subscribed"), ("channel", .str ch.name), ("chanId", .int chanId.toNat),
    ch.field]

/-- The parser of the channel's frames. -/
def parser : Channel → Parser
  | ticker _ => .ticker
  | trades _ => .trade
  | book _ => .book
  | candles _ _ => .candle
  | status _ => .liq

/-- The call of the parser is for this channel: by its parser, with its symbol and its interval.
    A liquidation names its symbol in the frame. -/
def Receives (ch : Channel) (d : Dispatch) : Prop :=
  d.parser = ch.parser ∧
    match ch with
    | ticker symbol | trades symbol | book symbol => d.symbol = symbol
    | candles timeframe symbol => d.symbol = symbol ∧ d.interval = timeframe
    | status _ => True

/-- Neither the symbol nor the interval holds a `:`. -/
def ColonFree : Channel → Prop
  | ticker symbol | trades symbol | book symbol => ':' ∉ symbol
  | candles timeframe symbol => ':' ∉ timeframe ∧ ':' ∉ symbol
  | status _ => True

end Channel

/-- The ack of an unsubscription. -/
def unsubAckJson (chanId : UInt64) : Json :=
  .obj [("event", .str "unsubscribed"), ("status", .str "OK"), ("chanId", .int chanId.toNat)]

/-- The channel that a spec asks for. -/
def channelOf (U : Unicode) (spec : StreamSpec) : Option Channel :=
  match spec.kind with
  | .ticker => some (.ticker (wireSymbol U spec))
  | .trade => some (.trades (wireSymbol U spec))
  | .orderbook | .orderbookDelta => some (.book (wireSymbol U spec))
  | .kline interval => some (.candles interval.text.toList (wireSymbol U spec))
  | .liquidation => some (.status "liq:global".toList)
  | _ => none

/-- What happens to a protocol object. -/
inductive Event
  | reconnect
  | ack (chanId : UInt64) (ch : Channel)
  | unsubAck (chanId : UInt64)
  | data (chanId : UInt64) (payload : List Json)
  | unsubscribe (spec : StreamSpec)

/-- A data frame. -/
def dataJson (chanId : UInt64) (payload : List Json) : Json :=
  .arr (.int chanId.toNat :: payload)

/-- The protocol object, and what the server has assigned on the current connection. -/
structure Session where
  protocol : Protocol
  current : ℕ → Option Channel

namespace Session

/-- Before the first connection. -/
def init : Session := ⟨.new, fun _ => none⟩

/-- One event. -/
def step (s : Session) : Event → Session
  | .reconnect => { s with current := fun _ => none }
  | .ack chanId ch =>
    { protocol := (s.protocol.handle (ch.ackJson chanId)).1
      current := Function.update s.current chanId.toNat (some ch) }
  | .unsubAck chanId =>
    { protocol := (s.protocol.handle (unsubAckJson chanId)).1
      current := Function.update s.current chanId.toNat none }
  | .data chanId payload =>
    { s with protocol := (s.protocol.handle (dataJson chanId payload)).1 }
  | .unsubscribe _ => s

/-- What the event must do: a data frame is parsed only for the channel that has its id on the
    current connection, and an unsubscription names an id of the spec's channel. -/
def Conforms (U : Unicode) (s : Session) : Event → Prop
  | .data chanId payload => ∀ d ∈ (s.protocol.handle (dataJson chanId payload)).2,
      ∃ ch, s.current chanId.toNat = some ch ∧ ch.Receives d
  | .unsubscribe spec => ∀ order frame, s.protocol.unsubscribeFrame U order spec = .ok frame →
      ∃ chanId ch, frame = unsubscribeJson chanId ∧ channelOf U spec = some ch ∧
        s.current chanId = some ch
  | _ => True

/-- An id in the table that the current connection has not assigned. -/
def Stale (s : Session) (chanId : ℕ) : Prop :=
  s.protocol.chanMap chanId ≠ none ∧ s.current chanId = none

/-- A payload that is not a heartbeat. -/
def IsData (payload : List Json) : Prop := (payload[0]?).bind Json.asStr ≠ some "hb"

/-- When the event is routed right: no data frame comes under a stale id or for a channel with a
    `:` in its symbol or interval, and no stale id, and no other channel's id, stands under the
    topic to unsubscribe from. -/
def Routable (U : Unicode) (s : Session) : Event → Prop
  | .data chanId payload => IsData payload →
      ¬ s.Stale chanId.toNat ∧ ∀ ch, s.current chanId.toNat = some ch → ch.ColonFree
  | .unsubscribe spec => ∀ ch, channelOf U spec = some ch →
      (∀ chanId, s.protocol.chanMap chanId = some ch.topic → ¬ s.Stale chanId) ∧
        ∀ chanId ch', s.current chanId = some ch' → ch'.topic = ch.topic → ch' = ch
  | _ => True

/-- What the current connection has assigned is in the table, and nothing but topics is. -/
structure Tracks (s : Session) : Prop where
  assigned : ∀ chanId ch, s.current chanId = some ch → s.protocol.chanMap chanId = some ch.topic
  topics : ∀ chanId topic, s.protocol.chanMap chanId = some topic → ∃ ch : Channel, topic = ch.topic

end Session

/-! ## Acks -/

section Frames

variable {p : Protocol} {chanId : UInt64} {ch : Channel} {payload : List Json}

theorem asU64_toNat (chanId : UInt64) : (Json.int chanId.toNat).asU64 = some chanId.toNat := by
  have hlt := chanId.toNat_lt
  rw [Json.asU64, if_pos (by omega), Int.toNat_natCast]

/-- An ack names the topic of its channel. -/
theorem topicFromAck_ackJson (chanId : UInt64) (ch : Channel) :
    topicFromAck ch.name (textField (ch.ackJson chanId) "symbol")
      (textField (ch.ackJson chanId) "key") = some ch.topic := by
  cases ch with
  | ticker symbol =>
    simp [topicFromAck, textField, Channel.ackJson, Channel.field, Channel.name, Json.get?,
      Channel.topic, Channel.rest]
  | trades symbol =>
    simp [topicFromAck, textField, Channel.ackJson, Channel.field, Channel.name, Json.get?,
      Channel.topic, Channel.rest]
  | book symbol =>
    simp [topicFromAck, textField, Channel.ackJson, Channel.field, Channel.name, Json.get?,
      Channel.topic, Channel.rest]
  | candles timeframe symbol =>
    have hdrop := dropPrefix?_append ['t', 'r', 'a', 'd', 'e', ':'] (timeframe ++ ':' :: symbol)
    simp only [List.cons_append, List.nil_append] at hdrop
    simp [topicFromAck, textField, Channel.ackJson, Channel.field, Channel.name, Json.get?,
      Channel.topic, Channel.rest, hdrop]
  | status key =>
    simp [topicFromAck, textField, Channel.ackJson, Channel.field, Channel.name, Json.get?,
      Channel.topic, Channel.rest]

/-- An ack puts its channel's topic into the table. -/
theorem handle_ackJson (p : Protocol) (chanId : UInt64) (ch : Channel) :
    p.handle (ch.ackJson chanId) =
      ({ p with chanMap := Function.update p.chanMap chanId.toNat (some ch.topic) }, []) := by
  have htopic := topicFromAck_ackJson chanId ch
  have hid : ((ch.ackJson chanId).get? "chanId").bind Json.asU64 = some chanId.toNat := by
    rw [← asU64_toNat chanId]
    rfl
  have hevent : ((ch.ackJson chanId).get? "event").bind Json.asStr = some "subscribed" := rfl
  have hchannel : ((ch.ackJson chanId).get? "channel").bind Json.asStr = some ch.name := rfl
  simp [Protocol.handle, isPong, Protocol.isSubscribeAck, hevent, hid, hchannel, htopic]

theorem handle_unsubAckJson (p : Protocol) (chanId : UInt64) :
    p.handle (unsubAckJson chanId) =
      ({ p with chanMap := Function.update p.chanMap chanId.toNat none }, []) := by
  have hid : ((unsubAckJson chanId).get? "chanId").bind Json.asU64 = some chanId.toNat := by
    rw [← asU64_toNat chanId]
    rfl
  have hevent : ((unsubAckJson chanId).get? "event").bind Json.asStr = some "unsubscribed" := rfl
  simp [Protocol.handle, isPong, Protocol.isSubscribeAck, hevent, hid]

/-! ## Data frames -/

theorem colon_notMem_name (ch : Channel) : ':' ∉ ch.name.toList := by
  cases ch <;> simp [Channel.name]

/-- A topic is dispatched to its channel's parser, once. -/
theorem dispatchAll_topic (ch : Channel) : dispatchAll ch.topic = [ch.parser] := by
  have hmatch : ∀ name : List Char, ':' ∉ name →
      (name ++ [':'] <+: ch.topic ↔ name = ch.name.toList) :=
    fun name h => concat_sep_prefix_iff h (colon_notMem_name ch) ch.rest
  have hticker := hmatch "ticker".toList (by simp)
  have htrades := hmatch "trades".toList (by simp)
  have hbook := hmatch "book".toList (by simp)
  have hcandles := hmatch "candles".toList (by simp)
  have hstatus := hmatch "status".toList (by simp)
  simp only [dispatchAll, registry, List.foldl_cons, List.foldl_nil, hticker, htrades, hbook,
    hcandles, hstatus]
  cases ch <;> simp [Channel.name, Channel.parser]

@[simp] theorem call_chanMap (raw : Json) (p : Protocol) (parsers : List Parser) :
    (p.call raw parsers).1.chanMap = p.chanMap := by
  induction parsers generalizing p with
  | nil => rfl
  | cons parser parsers ih => rw [Protocol.call, ih]

/-- A data frame goes straight to its topic. -/
theorem handle_dataJson (p : Protocol) (chanId : UInt64) (payload : List Json) :
    p.handle (dataJson chanId payload) =
      match p.extractTopic (dataJson chanId payload) with
      | none => (p, [])
      | some (topic, p') => p'.call (dataJson chanId payload) (dispatchAll topic) := rfl

theorem extractTopic_dataJson (p : Protocol) (chanId : UInt64) (payload : List Json) :
    p.extractTopic (dataJson chanId payload) =
      if (payload[0]?).bind Json.asStr = some "hb" then none
      else (p.chanMap chanId.toNat).map fun topic =>
        (topic, { p with locals := ⟨some (symbolFromTopic topic),
          if "candles:".toList <+: topic then some (intervalFromCandlesTopic topic)
          else p.locals.interval⟩ }) := by
  have hid := asU64_toNat chanId
  simp only [Protocol.extractTopic, dataJson, Json.asArray_arr, List.getElem?_cons_zero,
    List.getElem?_cons_succ, Option.bind_some, bind, hid]
  split_ifs with hhb
  · rfl
  · cases p.chanMap chanId.toNat <;> rfl

theorem handle_dataJson_chanMap (p : Protocol) (chanId : UInt64) (payload : List Json) :
    (p.handle (dataJson chanId payload)).1.chanMap = p.chanMap := by
  rw [handle_dataJson, extractTopic_dataJson]
  by_cases hhb : (payload[0]?).bind Json.asStr = some "hb"
  · rw [if_pos hhb]
  · rw [if_neg hhb]
    cases p.chanMap chanId.toNat with
    | none => rfl
    | some topic => exact call_chanMap _ _ _

theorem handle_heartbeat (h : ¬ Session.IsData payload) :
    (p.handle (dataJson chanId payload)).2 = [] := by
  rw [handle_dataJson, extractTopic_dataJson, if_pos (not_not.mp h)]

theorem handle_unknown (h : p.chanMap chanId.toNat = none) :
    (p.handle (dataJson chanId payload)).2 = [] := by
  rw [handle_dataJson, extractTopic_dataJson, h]
  split_ifs <;> rfl

/-- The parser of a known id finds the symbol of the topic, and for a candle its interval. -/
theorem handle_known (hdata : Session.IsData payload)
    (h : p.chanMap chanId.toNat = some ch.topic) : ∃ interval,
      (ch.parser = .candle → interval = intervalFromCandlesTopic ch.topic) ∧
        (p.handle (dataJson chanId payload)).2 =
          [⟨ch.parser, symbolFromTopic ch.topic, interval⟩] := by
  rw [handle_dataJson, extractTopic_dataJson, if_neg hdata, h, Option.map_some]
  simp only [dispatchAll_topic, Protocol.call, Option.getD_some]
  refine ⟨_, ?_, rfl⟩
  intro hcandle
  cases ch with
  | candles timeframe symbol =>
    have hcandles : "candles:".toList <+: (Channel.candles timeframe symbol).topic :=
      ⟨timeframe ++ ':' :: symbol, by simp [Channel.topic, Channel.name, Channel.rest]⟩
    rw [if_pos hcandles, Option.getD_some]
  | ticker | trades | book | status => cases hcandle

/-- The last segment of a topic is the symbol just when that holds no `:`. -/
theorem symbolFromTopic_eq_iff (front symbol : List Char) :
    symbolFromTopic (front ++ ':' :: symbol) = symbol ↔ ':' ∉ symbol := by
  rw [← getLast?_split_append (a := front), symbolFromTopic]
  cases hlast : (split ':' (front ++ ':' :: symbol)).getLast? with
  | none =>
    rw [List.getLast?_eq_none_iff] at hlast
    exact absurd hlast (split_ne_nil _ _)
  | some last => rw [Option.getD_some, Option.some.injEq]

/-- The second segment of a candles topic is the interval just when that holds no `:`. -/
theorem intervalFromCandlesTopic_eq_iff (timeframe symbol : List Char) :
    intervalFromCandlesTopic (Channel.candles timeframe symbol).topic = timeframe ↔
      ':' ∉ timeframe := by
  have hsecond : ∀ b, splitN ':' 3 ("candles".toList ++ ':' :: b) =
      "candles".toList :: splitN ':' 2 b := fun b => splitN_append (by simp) b 1
  rw [intervalFromCandlesTopic, Channel.topic, Channel.rest, Channel.name, hsecond]
  by_cases htf : ':' ∈ timeframe
  · obtain ⟨a, b, rfl, ha⟩ := List.eq_append_cons_of_mem htf
    have hfirst : splitN ':' 2 ((a ++ ':' :: b) ++ ':' :: symbol) = a :: [b ++ ':' :: symbol] := by
      rw [List.append_assoc, List.cons_append]
      exact splitN_append ha _ 0
    rw [hfirst]
    refine iff_of_false ?_ (not_not.mpr htf)
    simp
  · rw [splitN_append htf symbol 0]
    simpa using htf

/-- A parser is called for its channel just when the channel can be read out of its topic. -/
theorem receives_iff (ch : Channel) {interval : List Char}
    (hinterval : ch.parser = .candle → interval = intervalFromCandlesTopic ch.topic) :
    ch.Receives ⟨ch.parser, symbolFromTopic ch.topic, interval⟩ ↔ ch.ColonFree := by
  have hsymbol := symbolFromTopic_eq_iff ch.name.toList ch.rest
  cases ch with
  | ticker symbol => exact (and_iff_right rfl).trans hsymbol
  | trades symbol => exact (and_iff_right rfl).trans hsymbol
  | book symbol => exact (and_iff_right rfl).trans hsymbol
  | candles timeframe symbol =>
    have hfront := symbolFromTopic_eq_iff ("candles".toList ++ ':' :: timeframe) symbol
    rw [List.append_assoc, List.cons_append] at hfront
    rw [hinterval rfl]
    have hboth := and_congr hfront (intervalFromCandlesTopic_eq_iff timeframe symbol)
    simp only [Channel.Receives, Channel.ColonFree]
    exact (and_iff_right trivial).trans (hboth.trans and_comm)
  | status key => exact iff_of_true ⟨rfl, trivial⟩ trivial

/-! ## Requests and channels -/

/-- A subscription names the channel of its spec as the ack of that channel does. -/
theorem subscribeFrame_names (U : Unicode) (spec : StreamSpec) {frame : Json}
    (h : subscribeFrame U spec = .ok frame) : ∃ ch, channelOf U spec = some ch ∧
      frame.get? "channel" = some (.str ch.name) ∧ frame.get? ch.field.1 = some ch.field.2 := by
  unfold subscribeFrame at h
  unfold channelOf
  cases hkind : spec.kind <;> rw [hkind] at h <;> cases h <;> exact ⟨_, rfl, rfl, rfl⟩

/-- An unsubscription looks for the topic of the spec's channel. -/
theorem unsubscribeTopic_eq (U : Unicode) (spec : StreamSpec) {topic : List Char} :
    unsubscribeTopic U spec = .ok topic ↔ ∃ ch, channelOf U spec = some ch ∧ ch.topic = topic := by
  unfold unsubscribeTopic channelOf
  cases spec.kind <;> simp [Channel.topic, Channel.name, Channel.rest]

/-- The ids that an unsubscription can name are those under the topic of the spec's channel. -/
theorem unsubscribeFrame_ok (U : Unicode) (p : Protocol) (spec : StreamSpec) (frame : Json) :
    (∃ order, p.unsubscribeFrame U order spec = .ok frame) ↔
      ∃ chanId ch, frame = unsubscribeJson chanId ∧ channelOf U spec = some ch ∧
        p.chanMap chanId = some ch.topic := by
  constructor
  · rintro ⟨order, h⟩
    unfold Protocol.unsubscribeFrame at h
    cases htopic : unsubscribeTopic U spec with
    | error e =>
      rw [htopic] at h
      cases h
    | ok topic =>
      rw [htopic] at h
      obtain ⟨ch, hch, rfl⟩ := (unsubscribeTopic_eq U spec).mp htopic
      cases hfind : order.find? fun chanId => p.chanMap chanId = some ch.topic with
      | none => simp only [hfind, reduceCtorEq] at h
      | some chanId =>
        simp only [hfind, Except.ok.injEq] at h
        exact ⟨chanId, ch, h.symm, hch, by simpa using List.find?_some hfind⟩
  · rintro ⟨chanId, ch, rfl, hch, hmap⟩
    have htopic := (unsubscribeTopic_eq U spec).mpr ⟨ch, hch, rfl⟩
    refine ⟨[chanId], ?_⟩
    simp only [Protocol.unsubscribeFrame, htopic]
    rw [List.find?_cons_of_pos (by simpa using hmap)]

theorem unsubscribeJson_inj {m n : ℕ} (h : unsubscribeJson m = unsubscribeJson n) : m = n := by
  simpa [unsubscribeJson] using h

end Frames

/-! ## Runs -/

namespace Session

variable {U : Unicode} {s : Session}

theorem tracks_init : init.Tracks := by
  constructor
  · intro chanId ch h
    cases h
  · intro chanId topic h
    cases h

/-- An ack of either kind writes the table and the assignment alike. -/
theorem Tracks.update (h : s.Tracks) {p : Protocol} (n : ℕ) (o : Option Channel)
    (hmap : p.chanMap = Function.update s.protocol.chanMap n (o.map Channel.topic)) :
    Tracks ⟨p, Function.update s.current n o⟩ := by
  constructor
  · intro id ch hch
    show p.chanMap id = some ch.topic
    rw [hmap]
    by_cases hid : id = n
    · subst hid
      simp only [Function.update_self] at hch ⊢
      rw [hch, Option.map_some]
    · simp only [Function.update_of_ne hid] at hch ⊢
      exact h.assigned id ch hch
  · intro id topic htopic
    simp only [hmap] at htopic
    by_cases hid : id = n
    · subst hid
      rw [Function.update_self] at htopic
      obtain ⟨ch, -, hch⟩ := Option.map_eq_some_iff.mp htopic
      exact ⟨ch, hch.symm⟩
    · rw [Function.update_of_ne hid] at htopic
      exact h.topics id topic htopic

/-- Every event keeps the table in line with the current connection. -/
theorem tracks_step (s : Session) (e : Event) (h : s.Tracks) : (s.step e).Tracks := by
  cases e with
  | reconnect => exact ⟨fun chanId ch hch => (by cases hch), h.topics⟩
  | ack chanId ch =>
    apply h.update chanId.toNat (some ch)
    rw [handle_ackJson, Option.map_some]
  | unsubAck chanId =>
    apply h.update chanId.toNat none
    rw [handle_unsubAckJson, Option.map_none]
  | data chanId payload =>
    have hmap := handle_dataJson_chanMap s.protocol chanId payload
    constructor
    · intro id ch hch
      exact (congrFun hmap id).trans (h.assigned id ch hch)
    · intro id topic htopic
      exact h.topics id topic ((congrFun hmap id).symm.trans htopic)
  | unsubscribe spec => exact h

/-- A data frame is parsed for the channel of its id exactly when its id is not stale and the
    channel is free of `:`. -/
theorem conforms_data_iff (h : s.Tracks) (chanId : UInt64) (payload : List Json) :
    s.Conforms U (.data chanId payload) ↔ s.Routable U (.data chanId payload) := by
  simp only [Conforms, Routable]
  by_cases hdata : IsData payload
  swap
  · rw [handle_heartbeat hdata]
    exact iff_of_true (fun d hd => absurd hd List.not_mem_nil) fun hd => absurd hd hdata
  cases hcur : s.current chanId.toNat with
  | some ch =>
    have hmap := h.assigned _ ch hcur
    obtain ⟨interval, hinterval, hcall⟩ := handle_known hdata hmap
    rw [hcall]
    simpa [Stale, hcur, hdata] using receives_iff ch hinterval
  | none =>
    cases hmap : s.protocol.chanMap chanId.toNat with
    | none =>
      rw [handle_unknown hmap]
      simp [Stale, hmap]
    | some topic =>
      obtain ⟨ch, rfl⟩ := h.topics _ topic hmap
      obtain ⟨interval, -, hcall⟩ := handle_known hdata hmap
      rw [hcall]
      simp [Stale, hmap, hcur, hdata]

/-- An unsubscription names an id of its channel exactly when only such ids stand under the
    topic. -/
theorem conforms_unsubscribe_iff (h : s.Tracks) (spec : StreamSpec) :
    s.Conforms U (.unsubscribe spec) ↔ s.Routable U (.unsubscribe spec) := by
  have hnames : s.Conforms U (.unsubscribe spec) ↔ ∀ ch, channelOf U spec = some ch →
      ∀ chanId, s.protocol.chanMap chanId = some ch.topic → s.current chanId = some ch := by
    constructor
    · intro hconf ch hch chanId hmap
      obtain ⟨order, hok⟩ :=
        (unsubscribeFrame_ok U s.protocol spec _).mpr ⟨chanId, ch, rfl, hch, hmap⟩
      obtain ⟨chanId', ch', hjson, hch', hcur⟩ := hconf order _ hok
      rw [unsubscribeJson_inj hjson]
      rw [hch] at hch'
      cases hch'
      exact hcur
    · intro hall order frame hok
      obtain ⟨chanId, ch, rfl, hch, hmap⟩ :=
        (unsubscribeFrame_ok U s.protocol spec frame).mp ⟨order, hok⟩
      exact ⟨chanId, ch, rfl, hch, hall ch hch chanId hmap⟩
  rw [hnames]
  refine forall₂_congr fun ch hch => ?_
  constructor
  · intro hall
    constructor
    · intro chanId hmap hstale
      have hcur := hall chanId hmap
      rw [hstale.2] at hcur
      cases hcur
    · intro chanId ch' hcur htopic
      have hsame := hall chanId (by rw [h.assigned _ _ hcur, htopic])
      rw [hcur] at hsame
      exact Option.some.inj hsame
  · rintro ⟨hfresh, hunique⟩ chanId hmap
    cases hcur : s.current chanId with
    | none => exact absurd ⟨by simp [hmap], hcur⟩ (hfresh chanId hmap)
    | some ch' =>
      have htopic := h.assigned _ _ hcur
      rw [hmap, Option.some.injEq] at htopic
      rw [hunique chanId ch' hcur htopic.symm]

theorem conforms_iff_routable (s : Session) (e : Event) (h : s.Tracks) :
    s.Conforms U e ↔ s.Routable U e := by
  cases e with
  | data chanId payload => exact conforms_data_iff h chanId payload
  | unsubscribe spec => exact conforms_unsubscribe_iff h spec
  | reconnect => exact Iff.rfl
  | ack chanId ch => exact Iff.rfl
  | unsubAck chanId => exact Iff.rfl

/-- On one connection no id is stale. -/
theorem not_stale_of_single {es : List Event} (h : Event.reconnect ∉ es) (chanId : ℕ) :
    ¬ (es.foldl step init).Stale chanId := by
  induction es using List.reverseRecOn generalizing chanId with
  | nil => exact fun hs => hs.1 rfl
  | append_singleton es e ih =>
    rw [List.mem_append, not_or] at h
    have ih := ih h.1
    rw [List.foldl_concat]
    generalize es.foldl step init = s at ih ⊢
    rintro ⟨hmap, hcur⟩
    cases e with
    | reconnect => exact h.2 List.mem_cons_self
    | ack id ch =>
      simp only [step, handle_ackJson] at hmap hcur
      by_cases hid : chanId = id.toNat
      · subst hid
        simp at hcur
      · rw [Function.update_of_ne hid] at hmap hcur
        exact ih chanId ⟨hmap, hcur⟩
    | unsubAck id =>
      simp only [step, handle_unsubAckJson] at hmap hcur
      by_cases hid : chanId = id.toNat
      · subst hid
        simp at hmap
      · rw [Function.update_of_ne hid] at hmap hcur
        exact ih chanId ⟨hmap, hcur⟩
    | data id payload =>
      simp only [step, handle_dataJson_chanMap] at hmap
      exact ih chanId ⟨hmap, hcur⟩
    | unsubscribe spec => exact ih chanId ⟨hmap, hcur⟩

/-- **Main theorem.** A run is routed right exactly when each of its events is routable. -/
theorem routing_iff (U : Unicode) (es : List Event) :
    StepsMeet step init (Conforms U) es ↔ StepsMeet step init (Routable U) es := by
  apply stepsMeet_congr Tracks tracks_init
  · intro s e h _
    exact tracks_step s e h
  · exact conforms_iff_routable

/-- An ack for a perpetual, and a frame of it. -/
def perpetualRun : List Event :=
  [.ack 17 (.ticker "tBTCF0:USTF0".toList), .data 17 [.arr []]]

/-- A frame under an id that only the connection before has assigned. -/
def staleRun : List Event :=
  [.ack 17 (.ticker "tBTCUSD".toList), .reconnect, .data 17 [.arr []]]

/-- The perpetual's frame is parsed as one of `USTF0`, the other as one of a channel that nobody
    has subscribed to. -/
theorem routing_fails : (¬ ∃ U : Unicode, StepsMeet step init (Conforms U) perpetualRun) ∧
    ¬ ∃ U : Unicode, StepsMeet step init (Conforms U) staleRun := by
  have htracks : ∀ es : List Event, (es.foldl step init).Tracks :=
    fun es => foldl_invariant tracks_init (fun s e => tracks_step s e) es
  have hdata : IsData [.arr []] := by
    intro h
    cases h
  constructor
  · rintro ⟨U, h⟩
    have hconf := h [.ack 17 (.ticker "tBTCF0:USTF0".toList)] _ (List.prefix_refl _)
    have hroute := (conforms_data_iff (htracks _) 17 [.arr []]).mp hconf hdata
    have hplain : ':' ∉ "tBTCF0:USTF0".toList := hroute.2 (.ticker _) rfl
    exact hplain (by decide)
  · rintro ⟨U, h⟩
    have hconf := h [.ack 17 (.ticker "tBTCUSD".toList), .reconnect] _ (List.prefix_refl _)
    have hroute := (conforms_data_iff (htracks _) 17 [.arr []]).mp hconf hdata
    apply hroute.1
    constructor
    · simp [step, handle_ackJson]
    · rfl

end Session

end Digdigdig3.Bitfinex
