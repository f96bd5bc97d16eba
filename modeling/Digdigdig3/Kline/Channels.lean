import Digdigdig3.Core.Json
import Digdigdig3.Core.StreamSpec
import Digdigdig3.Core.SymbolNormalizer
import Digdigdig3.Lib.Affixes

/-!
# Kline channels

How the Bybit, Kraken, dYdX and OKX protocols turn the interval of a kline subscription into a
channel, and a frame of that channel back into an interval (`bybit/protocol.rs`,
`kraken/protocol.rs`, `kraken/parser.rs`, `dydx/protocol.rs`, `dydx/parser.rs`,
`okx/protocol.rs`). Bybit refuses an interval it does not know; Kraken and dYdX send it to their
one-minute channel, and OKX makes it the name of a channel.

Results:
* `bybit_faithful`, `kraken_faithful_iff`, `dydx_faithful_iff`, `okx_faithful_iff`: the intervals
  whose bars a protocol delivers under their own name.
* `keepsApart_iff`: the same for two subscriptions, which then never share a channel.
-/

namespace Digdigdig3.Kline

/-! ## Intervals -/

/-- How long a bar is. -/
inductive Duration
  | seconds (n : ℕ)
  | months (n : ℕ)
  deriving DecidableEq

/-- The duration of `n` units. -/
def unitDuration (unit : List Char) (n : ℕ) : Option Duration :=
  if unit = ['s'] then some (.seconds n)
  else if unit ∈ ["m".toList, "min".toList, "MIN".toList, "MINS".toList] then
    some (.seconds (60 * n))
  else if unit ∈ ["h".toList, "H".toList, "hour".toList, "HOUR".toList, "HOURS".toList] then
    some (.seconds (3600 * n))
  else if unit ∈ ["d".toList, "D".toList, "day".toList, "DAY".toList] then
    some (.seconds (86400 * n))
  else if unit ∈ ["w".toList, "W".toList] then some (.seconds (604800 * n))
  else if unit = ['M'] then some (.months n)
  else none

/-- The duration that an interval text denotes: a positive number and its unit. -/
def denote (interval : List Char) : Option Duration :=
  let n := (interval.takeWhile Char.isDigit).foldl (fun n c => 10 * n + (c.toNat - 48)) 0
  if n = 0 then none else unitDuration (interval.dropWhile Char.isDigit) n

/-- A `match` on texts: the value of the arm with this text. -/
def matchText {α : Type*} (arms : List (String × α)) (text : String) : Option α :=
  (arms.find? fun arm => arm.1 = text).map (·.2)

/-! ## The maps -/

/-- The arms of `bybit_kline_wire` (`bybit/protocol.rs` lines 281–302). -/
def bybitArms : List (String × String) :=
  [("1m", "1"), ("3m", "3"), ("5m", "5"), ("15m", "15"), ("30m", "30"),
   ("1h", "60"), ("60m", "60"), ("2h", "120"), ("120m", "120"), ("4h", "240"), ("240m", "240"),
   ("6h", "360"), ("360m", "360"), ("12h", "720"), ("720m", "720"),
   ("1d", "D"), ("1D", "D"), ("1w", "W"), ("1W", "W"), ("1M", "M")]

/-- `bybit_kline_wire`. -/
def bybitKlineWire (interval : String) : Option String := matchText bybitArms interval

/-- `internal_kline_interval` (`bybit/protocol.rs` lines 305–322). -/
def internalKlineInterval (wire : String) : String :=
  (matchText [("1", "1m"), ("3", "3m"), ("5", "5m"), ("15", "15m"), ("30", "30m"), ("60", "1h"),
    ("120", "2h"), ("240", "4h"), ("360", "6h"), ("720", "12h"), ("D", "1d"), ("W", "1w"),
    ("M", "1M")] wire).getD "1h"

/-- The arms of `kline_interval_to_minutes` (`kraken/protocol.rs` lines 265–277). -/
def krakenArms : List (String × ℕ) :=
  [("1m", 1), ("5m", 5), ("15m", 15), ("30m", 30), ("1h", 60), ("4h", 240), ("1d", 1440),
   ("1w", 10080)]

/-- `kline_interval_to_minutes`. -/
def klineIntervalToMinutes (interval : String) : ℕ := (matchText krakenArms interval).getD 1

/-- `minutes_to_kline_interval` (`kraken/parser.rs` lines 2162–2174). -/
def minutesToKlineInterval (minutes : ℕ) : String :=
  ((krakenArms.find? fun arm => arm.2 = minutes).map (·.1)).getD "1m"

/-- The arms of `map_kline_to_dydx` (`dydx/protocol.rs` lines 111–122). -/
def dydxArms : List (String × String) :=
  [("1m", "1MIN"), ("1min", "1MIN"), ("1MIN", "1MIN"), ("5m", "5MINS"), ("5min", "5MINS"),
   ("5MINS", "5MINS"), ("15m", "15MINS"), ("15min", "15MINS"), ("15MINS", "15MINS"),
   ("30m", "30MINS"), ("30min", "30MINS"), ("30MINS", "30MINS"), ("1h", "1HOUR"),
   ("1hour", "1HOUR"), ("1HOUR", "1HOUR"), ("60m", "1HOUR"), ("4h", "4HOURS"),
   ("4hour", "4HOURS"), ("4HOURS", "4HOURS"), ("1d", "1DAY"), ("1day", "1DAY"), ("1DAY", "1DAY")]

/-- `map_kline_to_dydx`. -/
def mapKlineToDydx (interval : String) : String := (matchText dydxArms interval).getD "1MIN"

/-- The arms of `okx_interval` (`okx/protocol.rs` lines 67–87). -/
def okxArms : List (String × String) :=
  [("1m", "1m"), ("3m", "3m"), ("5m", "5m"), ("15m", "15m"), ("30m", "30m"), ("1h", "1H"),
   ("2h", "2H"), ("4h", "4H"), ("6h", "6H"), ("12h", "12H"), ("1d", "1D"), ("2d", "2D"),
   ("3d", "3D"), ("1w", "1W"), ("1M", "1M"), ("3M", "3M")]

/-- `okx_interval`: what is not listed is passed on. -/
def okxInterval (interval : String) : String := (matchText okxArms interval).getD interval

/-- `OKX_KLINE_CHANNELS` (`okx/protocol.rs` lines 525–542): a channel and its interval. -/
def okxKlineChannels : List (String × String) :=
  [("candle1m", "1m"), ("candle3m", "3m"), ("candle5m", "5m"), ("candle15m", "15m"),
   ("candle30m", "30m"), ("candle1H", "1h"), ("candle2H", "2h"), ("candle4H", "4h"),
   ("candle6H", "6h"), ("candle12H", "12h"), ("candle1D", "1d"), ("candle2D", "2d"),
   ("candle3D", "3d"), ("candle1W", "1w"), ("candle1M", "1M"), ("candle3M", "3M")]

/-! ## Subscriptions -/

/-- The four protocols. -/
inductive Venue
  | bybit
  | kraken
  | dydx
  | okx
  deriving DecidableEq

/-- The errors of `subscribe_frame` for a kline. -/
inductive SubscribeError
  | emptySymbol
  | unknownInterval (interval : String)
  | other (text : String)

/-- The error is a `WireAbsent` or `NotImplemented`, on which `acquire_or_spawn`
    (`station.rs` lines 1853–1888) turns to the trade stream. -/
def SubscribeError.isNotSupported : SubscribeError → Bool
  | emptySymbol | unknownInterval _ => true
  | other _ => false

/-- What names a kline channel at a venue. -/
inductive Channel
  | bybit (topic : List Char)
  | kraken (symbol : List Char) (minutes : ℕ)
  | dydx (id : List Char)
  | okx (channel instId : List Char)
  deriving DecidableEq

/-- `to_kraken_ws_symbol` (`kraken/protocol.rs` lines 241–262). -/
def toKrakenWsSymbol (U : Unicode) (sym : List Char) : List Char :=
  if '/' ∈ sym then sym
  else
    let quotes := ["USDT", "USDC", "EUR", "USD", "GBP", "AUD", "CHF", "JPY"]
    let found := quotes.findSome? fun q =>
      match (U.toUppercase sym).dropSuffix? q.toList with
      | some base =>
        if base = [] then none
        else some ((if base = "XBT".toList then "BTC".toList else base) ++ '/' :: q.toList)
      | none => none
    found.getD sym

/-- `wire_symbol` of dYdX (`dydx/protocol.rs` lines 128–136). -/
def dydxWireSymbol (sym : List Char) : List Char := sym.map fun c => if c = '/' then '-' else c

/-- The channel of a kline subscription: the kline arms of `build_topic` (Bybit), `build_frame`
    (Kraken), `build_channel_id` (dYdX) and `channel_name` (OKX). -/
def channelFor (U : Unicode) (v : Venue) (interval symbol : String) :
    Except SubscribeError Channel :=
  match v with
  | .bybit =>
    if symbol.toList = [] then .error .emptySymbol
    else
      match bybitKlineWire interval with
      | none => .error (.unknownInterval interval)
      | some wire => .ok (.bybit ("kline".toList ++ '.' :: (wire.toList ++ '.' :: symbol.toList)))
  | .kraken => .ok (.kraken (toKrakenWsSymbol U symbol.toList) (klineIntervalToMinutes interval))
  | .dydx => .ok (.dydx (dydxWireSymbol symbol.toList ++ '/' :: (mapKlineToDydx interval).toList))
  | .okx => .ok (.okx ("candle".toList ++ (okxInterval interval).toList) symbol.toList)

/-- The text of a channel part, as JSON. -/
def textJson (text : List Char) : Json := .str (String.ofList text)

/-- The subscribe frame of a channel. -/
def Channel.subscribeJson : Channel → Json
  | bybit topic => .obj [("op", .str "subscribe"), ("args", .arr [textJson topic])]
  | kraken symbol minutes => .obj [("method", .str "subscribe"), ("params",
      .obj [("channel", .str "ohlc"), ("symbol", .arr [textJson symbol]),
        ("interval", .int minutes)])]
  | dydx id => .obj [("type", .str "subscribe"), ("channel", .str "v4_candles"),
      ("id", textJson id)]
  | okx channel instId => .obj [("op", .str "subscribe"), ("args",
      .arr [.obj [("channel", textJson channel), ("instId", textJson instId)]])]

/-- `subscribe_frame` for a kline. -/
def subscribeFrame (U : Unicode) (v : Venue) (interval symbol : String) :
    Except SubscribeError Json :=
  (channelFor U v interval symbol).map Channel.subscribeJson

/-! ## Frames of a channel -/

/-- The text of a field, empty without one. -/
def textOf (raw : Json) (key : String) : List Char :=
  (((raw.get? key).bind Json.asStr).getD "").toList

/-- The interval that `parse_kline` of Bybit (`bybit/protocol.rs` lines 670–673),
    `parse_ws_ohlc` (`kraken/parser.rs` lines 2063–2074), `parse_ws_candle_inner`
    (`dydx/parser.rs` lines 836–839) and `parse_kline` of OKX (`okx/protocol.rs` line 731) give
    the event of a frame. -/
def frameInterval (v : Venue) (raw : Json) : List Char :=
  match v with
  | .bybit =>
    (internalKlineInterval
      (String.ofList ((splitN '.' 3 (textOf raw "topic"))[1]?.getD []))).toList
  | .kraken =>
    let item := ((raw.get? "data").bind Json.asArray).bind (·[0]?)
    (minutesToKlineInterval
      (((item.bind (·.get? "interval")).bind Json.asU64).getD 1)).toList
  | .dydx => (splitN '/' 2 (textOf raw "id"))[1]?.getD []
  | .okx =>
    ((((raw.get? "arg").map (textOf · "channel")).getD []).dropPrefix? "candle".toList).getD []

/-- A frame of a channel, with the rest of its fields, of the bar's fields and of its bars. -/
def Channel.dataJson (fields bar : List (String × Json)) (bars : List Json) : Channel → Json
  | bybit topic => .obj (("topic", textJson topic) :: fields)
  | kraken symbol minutes => .obj (("channel", .str "ohlc") :: ("data",
      .arr (.obj (("symbol", textJson symbol) :: ("interval", .int minutes) :: bar) :: bars)) ::
        fields)
  | dydx id => .obj (("id", textJson id) :: fields)
  | okx channel instId => .obj (("arg",
      .obj [("channel", textJson channel), ("instId", textJson instId)]) :: fields)

/-- The candle channels of OKX: those of the source's list, and any others it has. -/
structure OkxCandles where
  bars : List Char → Option Duration
  listed : ∀ e ∈ okxKlineChannels, bars e.1.toList = denote e.2.toList

/-- The bars of Bybit's kline topics. -/
def bybitBars : List (String × Duration) :=
  [("1", .seconds 60), ("3", .seconds 180), ("5", .seconds 300), ("15", .seconds 900),
   ("30", .seconds 1800), ("60", .seconds 3600), ("120", .seconds 7200), ("240", .seconds 14400),
   ("360", .seconds 21600), ("720", .seconds 43200), ("D", .seconds 86400),
   ("W", .seconds 604800), ("M", .months 1)]

/-- The bars of dYdX's resolutions. -/
def dydxBars : List (String × Duration) :=
  [("1MIN", .seconds 60), ("5MINS", .seconds 300), ("15MINS", .seconds 900),
   ("30MINS", .seconds 1800), ("1HOUR", .seconds 3600), ("4HOURS", .seconds 14400),
   ("1DAY", .seconds 86400)]

/-- The bars of Kraken's `ohlc` channel with an interval in minutes. -/
def krakenBars (minutes : ℕ) : Option Duration :=
  if minutes ∈ [1, 5, 15, 30, 60, 240, 1440, 10080] then some (.seconds (60 * minutes)) else none

/-- How long the bars of a channel are. -/
def Channel.bars (O : OkxCandles) : Channel → Option Duration
  | bybit topic => matchText bybitBars (String.ofList ((splitN '.' 3 topic)[1]?.getD []))
  | kraken _ minutes => krakenBars minutes
  | dydx id => matchText dydxBars (String.ofList ((splitN '/' 2 id)[1]?.getD []))
  | okx channel _ => O.bars channel

/-- The subscription is refused, or its channel has bars of the interval's duration and every
    frame of it becomes an event under an interval of that duration. -/
def Faithful (U : Unicode) (O : OkxCandles) (v : Venue) (interval symbol : String) : Prop :=
  match channelFor U v interval symbol with
  | .error e => e.isNotSupported = true
  | .ok ch => ∃ d, denote interval.toList = some d ∧ ch.bars O = some d ∧
      ∀ fields bar bars, denote (frameInterval v (ch.dataJson fields bar bars)) = some d

/-- Two subscriptions are both faithful, and share no channel when their intervals denote
    different durations. -/
def KeepsApart (U : Unicode) (O : OkxCandles) (v : Venue) (interval symbol interval' symbol' :
    String) : Prop :=
  Faithful U O v interval symbol ∧ Faithful U O v interval' symbol' ∧
    ∀ d d' ch, denote interval.toList = some d → denote interval'.toList = some d' → d ≠ d' →
      channelFor U v interval symbol = .ok ch → channelFor U v interval' symbol' ≠ .ok ch

/-- The intervals that a protocol serves under their own name. -/
def Served (O : OkxCandles) (v : Venue) (interval : String) : Prop :=
  match v with
  | .bybit => True
  | .kraken => interval ∈ krakenArms.map (·.1) ∨ denote interval.toList = some (.seconds 60)
  | .dydx => interval ∈ dydxArms.map (·.1) ∨ denote interval.toList = some (.seconds 60)
  | .okx => interval ∈ okxArms.map (·.1) ∨
      ∃ d, denote interval.toList = some d ∧ O.bars ("candle".toList ++ interval.toList) = some d

/-! ## The maps keep the duration -/

section Maps

variable {α : Type*} {arms : List (String × α)} {text : String} {a : α}

theorem mem_of_matchText (h : matchText arms text = some a) : (text, a) ∈ arms := by
  obtain ⟨arm, hfind, rfl⟩ := Option.map_eq_some_iff.mp h
  have htext : arm.1 = text := by simpa using List.find?_some hfind
  rw [← htext]
  exact List.mem_of_find?_eq_some hfind

theorem matchText_eq_none : matchText arms text = none ↔ text ∉ arms.map (·.1) := by
  constructor
  · intro h hmem
    obtain ⟨arm, harm, rfl⟩ := List.mem_map.mp hmem
    rw [matchText, Option.map_eq_none_iff, List.find?_eq_none] at h
    exact h arm harm (by simp)
  · intro h
    rw [matchText, Option.map_eq_none_iff, List.find?_eq_none]
    intro arm harm htext
    exact h (List.mem_map.mpr ⟨arm, harm, by simpa using htext⟩)

/-- A listed interval of Bybit, its topic's bars and the interval of its events agree. -/
theorem bybitArms_agree : ∀ e ∈ bybitArms, '.' ∉ e.2.toList ∧ denote e.1.toList ≠ none ∧
    matchText bybitBars e.2 = denote e.1.toList ∧
      denote (internalKlineInterval e.2).toList = denote e.1.toList := by
  decide

theorem krakenArms_agree : ∀ e ∈ krakenArms, denote e.1.toList ≠ none ∧
    krakenBars e.2 = denote e.1.toList ∧
      denote (minutesToKlineInterval e.2).toList = denote e.1.toList := by
  decide

theorem dydxArms_agree : ∀ e ∈ dydxArms, denote e.1.toList ≠ none ∧
    matchText dydxBars e.2 = denote e.1.toList ∧
      denote e.2.toList = denote e.1.toList := by
  decide

theorem okxArms_agree : ∀ e ∈ okxArms, denote e.1.toList ≠ none ∧
    ("candle" ++ e.2, e.1) ∈ okxKlineChannels ∧ denote e.2.toList = denote e.1.toList := by
  decide

end Maps

/-! ## Reading a frame back -/

section Frames

variable (fields bar : List (String × Json)) (bars : List Json)

theorem frameInterval_bybit (topic : List Char) :
    frameInterval .bybit (Channel.dataJson fields bar bars (.bybit topic)) =
      (internalKlineInterval (String.ofList ((splitN '.' 3 topic)[1]?.getD []))).toList := by
  simp [frameInterval, Channel.dataJson, textOf, Json.get?, textJson]

theorem frameInterval_dydx (id : List Char) :
    frameInterval .dydx (Channel.dataJson fields bar bars (.dydx id)) =
      (splitN '/' 2 id)[1]?.getD [] := by
  simp [frameInterval, Channel.dataJson, textOf, Json.get?, textJson]

theorem frameInterval_okx (suffix instId : List Char) :
    frameInterval .okx (Channel.dataJson fields bar bars
      (.okx ("candle".toList ++ suffix) instId)) = suffix := by
  have hdrop := dropPrefix?_append ['c', 'a', 'n', 'd', 'l', 'e'] suffix
  simp only [List.cons_append, List.nil_append] at hdrop
  simp [frameInterval, Channel.dataJson, textOf, Json.get?, textJson, hdrop]

theorem frameInterval_kraken (symbol : List Char) {minutes : ℕ} (h : minutes ≤ 10080) :
    frameInterval .kraken (Channel.dataJson fields bar bars (.kraken symbol minutes)) =
      (minutesToKlineInterval minutes).toList := by
  have hu64 : (Json.int minutes).asU64 = some minutes := by
    rw [Json.asU64, if_pos (by omega), Int.toNat_natCast]
  simp [frameInterval, Channel.dataJson, Json.get?, hu64]

/-- The wire interval stands between the dots of a topic. -/
theorem splitN_topic {wire : List Char} (h : '.' ∉ wire) (symbol : List Char) :
    (splitN '.' 3 ("kline".toList ++ '.' :: (wire ++ '.' :: symbol)))[1]?.getD [] = wire := by
  have hfront := splitN_append (by simp : '.' ∉ "kline".toList) (wire ++ '.' :: symbol) 1
  rw [hfront, splitN_append h symbol 0]
  rfl

/-- The resolution stands after the slash of an id: the symbol has none. -/
theorem splitN_id (symbol resolution : List Char) :
    (splitN '/' 2 (dydxWireSymbol symbol ++ '/' :: resolution))[1]?.getD [] = resolution := by
  have hsymbol : '/' ∉ dydxWireSymbol symbol := by
    intro h
    obtain ⟨c, -, hc⟩ := List.mem_map.mp h
    split_ifs at hc with hslash
    · cases hc
    · exact hslash hc
  rw [splitN_append hsymbol resolution 0]
  rfl

end Frames

/-! ## Faithful subscriptions -/

section Faithful

variable {U : Unicode} {O : OkxCandles} {v : Venue} {interval symbol : String}

/-- Bybit refuses what it does not list. -/
theorem bybit_faithful (U : Unicode) (O : OkxCandles) (interval symbol : String) :
    Faithful U O .bybit interval symbol := by
  unfold Faithful
  simp only [channelFor]
  by_cases hempty : symbol.toList = []
  · rw [if_pos hempty]
    rfl
  · rw [if_neg hempty]
    cases hwire : bybitKlineWire interval with
    | none => rfl
    | some wire =>
      obtain ⟨hdot, hdenote, hbars, hback⟩ := bybitArms_agree _ (mem_of_matchText hwire)
      obtain ⟨d, hd⟩ := Option.ne_none_iff_exists'.mp hdenote
      have htopic := splitN_topic hdot symbol.toList
      refine ⟨d, hd, ?_, fun fields bar bars => ?_⟩
      · rw [Channel.bars, htopic, String.ofList_toList, hbars, hd]
      · rw [frameInterval_bybit, htopic, String.ofList_toList, hback, hd]

/-- A map whose arms keep the duration serves what it lists, and what its default arm is right
    for. -/
theorem map_serves_iff {α : Type*} {arms : List (String × α)} {fallback : α} {e : Duration}
    (length : α → Option Duration) (back : α → List Char)
    (harms : ∀ arm ∈ arms, denote arm.1.toList ≠ none ∧ length arm.2 = denote arm.1.toList ∧
      denote (back arm.2) = denote arm.1.toList)
    (hlength : length fallback = some e) (hback : denote (back fallback) = some e)
    (interval : String) :
    (∃ d, denote interval.toList = some d ∧
        length ((matchText arms interval).getD fallback) = some d ∧
          denote (back ((matchText arms interval).getD fallback)) = some d) ↔
      interval ∈ arms.map (·.1) ∨ denote interval.toList = some e := by
  cases hmatch : matchText arms interval with
  | some a =>
    have hmem := mem_of_matchText hmatch
    obtain ⟨hdenote, hlist, hread⟩ := harms _ hmem
    obtain ⟨d, hd⟩ := Option.ne_none_iff_exists'.mp hdenote
    refine iff_of_true ?_ (.inl (List.mem_map.mpr ⟨_, hmem, rfl⟩))
    exact ⟨d, hd, hlist.trans hd, hread.trans hd⟩
  | none =>
    have hnot := matchText_eq_none.mp hmatch
    rw [Option.getD_none, hlength, hback]
    constructor
    · rintro ⟨d, hd, hsame, -⟩
      exact .inr (hd.trans hsame.symm)
    · rintro (hmem | hd)
      · exact absurd hmem hnot
      · exact ⟨e, hd, rfl, rfl⟩

/-- Kraken's default arm is right only for another text of one minute. -/
theorem kraken_faithful_iff (U : Unicode) (O : OkxCandles) (interval symbol : String) :
    Faithful U O .kraken interval symbol ↔ Served O .kraken interval := by
  have hle : klineIntervalToMinutes interval ≤ 10080 := by
    rw [klineIntervalToMinutes]
    cases hmin : matchText krakenArms interval with
    | none => decide
    | some minutes =>
      have hall : ∀ e ∈ krakenArms, e.2 ≤ 10080 := by decide
      exact hall _ (mem_of_matchText hmin)
  have hback : denote (minutesToKlineInterval 1).toList = some (.seconds 60) := by decide
  have hserves := map_serves_iff krakenBars (fun m => (minutesToKlineInterval m).toList)
    krakenArms_agree rfl hback interval
  simp only [Faithful, channelFor, Served, Channel.bars, frameInterval_kraken _ _ _ _ hle,
    forall_const]
  exact hserves

/-- So is dYdX's. -/
theorem dydx_faithful_iff (U : Unicode) (O : OkxCandles) (interval symbol : String) :
    Faithful U O .dydx interval symbol ↔ Served O .dydx interval := by
  simp only [Faithful, channelFor, Served, Channel.bars, frameInterval_dydx, splitN_id,
    String.ofList_toList]
  have hbars : matchText dydxBars "1MIN" = some (.seconds 60) := by decide
  have hback : denote "1MIN".toList = some (.seconds 60) := by decide
  have hserves := map_serves_iff (matchText dydxBars) String.toList dydxArms_agree hbars hback
    interval
  simp only [forall_const]
  exact hserves

/-- OKX's default arm is right only for a text that names a candle channel itself. -/
theorem okx_faithful_iff (U : Unicode) (O : OkxCandles) (interval symbol : String) :
    Faithful U O .okx interval symbol ↔ Served O .okx interval := by
  simp only [Faithful, channelFor, Served, Channel.bars, frameInterval_okx]
  cases hsuffix : matchText okxArms interval with
  | some suffix =>
    have hmem := mem_of_matchText hsuffix
    obtain ⟨hdenote, hlisted, hback⟩ := okxArms_agree _ hmem
    obtain ⟨d, hd⟩ := Option.ne_none_iff_exists'.mp hdenote
    have hbars := O.listed _ hlisted
    rw [String.toList_append] at hbars
    refine iff_of_true ?_ (.inl (List.mem_map.mpr ⟨_, hmem, rfl⟩))
    rw [okxInterval, hsuffix, Option.getD_some]
    exact ⟨d, hd, hbars.trans hd, fun _ _ _ => hback.trans hd⟩
  | none =>
    have hnot := matchText_eq_none.mp hsuffix
    rw [okxInterval, hsuffix, Option.getD_none]
    constructor
    · rintro ⟨d, hd, hbars, -⟩
      exact .inr ⟨d, hd, hbars⟩
    · rintro (hmem | ⟨d, hd, hbars⟩)
      · exact absurd hmem hnot
      · exact ⟨d, hd, hbars, fun _ _ _ => hd⟩

theorem faithful_iff (U : Unicode) (O : OkxCandles) (v : Venue) (interval symbol : String) :
    Faithful U O v interval symbol ↔ Served O v interval := by
  cases v with
  | bybit => exact iff_of_true (bybit_faithful U O interval symbol) trivial
  | kraken => exact kraken_faithful_iff U O interval symbol
  | dydx => exact dydx_faithful_iff U O interval symbol
  | okx => exact okx_faithful_iff U O interval symbol

/-- Faithful subscriptions of different durations have different channels: a channel has one
    kind of bars. -/
theorem ne_of_faithful {interval' symbol' : String} {d d' : Duration} {ch : Channel}
    (h : Faithful U O v interval symbol) (h' : Faithful U O v interval' symbol')
    (hd : denote interval.toList = some d) (hd' : denote interval'.toList = some d')
    (hne : d ≠ d') (hch : channelFor U v interval symbol = .ok ch) :
    channelFor U v interval' symbol' ≠ .ok ch := by
  intro hch'
  unfold Faithful at h h'
  rw [hch] at h
  rw [hch'] at h'
  obtain ⟨e, he, hbars, -⟩ := h
  obtain ⟨e', he', hbars', -⟩ := h'
  rw [hd] at he
  rw [hd'] at he'
  rw [hbars] at hbars'
  cases he
  cases he'
  exact hne (Option.some.inj hbars')

end Faithful

end Digdigdig3.Kline
