import Digdigdig3.Lib.Paths
import Digdigdig3.Series.Key

/-!
# The directory of a series

`Kind::slug`, `SeriesKey::account_label` and `SeriesKey::exchange_label` of
`crates/digdigdig3-station/src/series/key.rs`, and `paths` and `symbol_dir` of `store.rs`.
The lower-casing of a symbol, `str::to_lowercase`, is a parameter: nothing here depends on
which letters it changes.

* `slug_injective`: two kinds with one slug are the same kind.
* `exchangeLabel_injective`, `accountLabel_injective`.
* `plain_dir_eq`: when the interval of the kind has no separator and the symbol stays inside,
  the directory is `root/slug/exchange/account` and the names of the symbol.
* `series_apart_iff`: two such series are apart unless they differ in nothing but the symbol,
  and the names of one symbol begin the names of the other; any other series shares its
  directory with a different one.
-/

namespace Digdigdig3.Series

open Paths

/-! ## Labels -/

/-- `Kind::slug` (lines 230–287). -/
def Kind.slug : Kind → String
  | trade => "trades"
  | aggTrade => "agg_trades"
  | kline iv => "klines_" ++ iv.text
  | ticker => "tickers"
  | orderbook => "orderbook_snapshots"
  | orderbookDelta => "orderbook_deltas"
  | markPrice => "mark_price"
  | fundingRate => "funding_rate"
  | openInterest => "open_interest"
  | liquidation => "liquidations"
  | blockTrade => "block_trades"
  | auctionEvent => "auction_events"
  | indexPrice => "index_price"
  | compositeIndex => "composite_index"
  | optionGreeks => "option_greeks"
  | volatilityIndex => "volatility_index"
  | historicalVolatility => "historical_volatility"
  | longShortRatio => "long_short_ratio"
  | takerVolume => "taker_volume"
  | liquidationBucket => "liquidation_bucket"
  | basis => "basis"
  | insuranceFund => "insurance_fund"
  | orderbookL3 => "orderbook_l3"
  | settlementEvent => "settlement_events"
  | marketWarning => "market_warnings"
  | riskLimit => "risk_limit"
  | predictedFunding => "predicted_funding"
  | fundingSettlement => "funding_settlement"
  | markPriceKline iv => "mark_price_klines_" ++ iv.text
  | indexPriceKline iv => "index_price_klines_" ++ iv.text
  | premiumIndexKline iv => "premium_index_klines_" ++ iv.text
  | rangeBar r => "range_bars_" ++ toString r
  | tickBar n => "tick_bars_" ++ toString n
  | volumeBar v => "volume_bars_" ++ toString v
  | footprint iv => "footprint_" ++ iv.text
  | renkoBar b r => "renko_bars_" ++ toString b ++ "_" ++ toString r
  | pnfBar b r => "pnf_bars_" ++ toString b ++ "_" ++ toString r
  | kagiBar r => "kagi_bars_" ++ toString r
  | dollarBar dollarThreshold => "dollar_bars_" ++ toString dollarThreshold
  | tickImbalanceBar alphaX100 minTicks =>
    "tib_bars_" ++ toString alphaX100 ++ "a_" ++ toString minTicks ++ "mt"
  | volumeImbalanceBar alphaX100 minTicks =>
    "vib_bars_" ++ toString alphaX100 ++ "a_" ++ toString minTicks ++ "mt"
  | runBar alphaX100 minTicks =>
    "run_bars_" ++ toString alphaX100 ++ "a_" ++ toString minTicks ++ "mt"
  | cvdLine => "cvd_line"
  | threeLineBreak linesBack => "three_line_break_" ++ toString linesBack
  | tpoProfile freq src =>
    let srcSlug := match src with
      | .tradeBucket => "trade"
      | .kline1m => "kline1m"
    "tpo_profile_" ++ toString freq ++ "m_" ++ srcSlug
  | orderUpdate => "order_updates"
  | balanceUpdate => "balance_updates"
  | positionUpdate => "position_updates"

open ExchangeId in
/-- The derived `Debug` of `ExchangeId` (`core/types/common.rs` lines 13–87). -/
def exchangeDebug : ExchangeId → String
  | binance => "Binance"
  | bybit => "Bybit"
  | okx => "OKX"
  | kuCoin => "KuCoin"
  | kraken => "Kraken"
  | coinbase => "Coinbase"
  | gateIO => "GateIO"
  | bitfinex => "Bitfinex"
  | bitstamp => "Bitstamp"
  | gemini => "Gemini"
  | mexc => "MEXC"
  | htx => "HTX"
  | bitget => "Bitget"
  | bingX => "BingX"
  | cryptoCom => "CryptoCom"
  | upbit => "Upbit"
  | deribit => "Deribit"
  | hyperLiquid => "HyperLiquid"
  | bitmex => "Bitmex"
  | lighter => "Lighter"
  | dydx => "Dydx"
  | polymarket => "Polymarket"
  | polygon => "Polygon"
  | finnhub => "Finnhub"
  | tiingo => "Tiingo"
  | twelvedata => "Twelvedata"
  | coinglass => "Coinglass"
  | cryptoCompare => "CryptoCompare"
  | whaleAlert => "WhaleAlert"
  | bitquery => "Bitquery"
  | defiLlama => "DefiLlama"
  | oanda => "Oanda"
  | alphaVantage => "AlphaVantage"
  | dukascopy => "Dukascopy"
  | angelOne => "AngelOne"
  | zerodha => "Zerodha"
  | fyers => "Fyers"
  | dhan => "Dhan"
  | upstox => "Upstox"
  | alpaca => "Alpaca"
  | jQuants => "JQuants"
  | tinkoff => "Tinkoff"
  | moex => "Moex"
  | krx => "Krx"
  | futu => "Futu"
  | fred => "Fred"
  | bls => "Bls"
  | yahooFinance => "YahooFinance"
  | ib => "Ib"
  | custom id => "Custom(" ++ toString id ++ ")"

/-- `exchange_label` (lines 331–333). The name is ASCII. -/
def exchangeLabel (e : ExchangeId) : String := (exchangeDebug e).toLower

/-- `account_label` (lines 317–328). -/
def accountLabel : AccountType → String
  | .spot => "spot"
  | .margin => "margin"
  | .futuresCross => "futures_cross"
  | .futuresIsolated => "futures_isolated"
  | .earn => "earn"
  | .lending => "lending"
  | .options => "options"
  | .convert => "convert"

/-! ## Directories and files -/

section Paths

variable (toLowercase : String → String) (root : List Char)

/-- `symbol_dir` (lines 381–386). -/
def symbolDir (key : SeriesKey) : List Char :=
  join (join (join (join root key.kind.slug.toList) (exchangeLabel key.exchange).toList)
    (accountLabel key.accountType).toList) (toLowercase key.symbol).toList

/-- `DayPaths` (lines 364–368). -/
structure DayPaths where
  dat : List Char
  idx : List Char
  blob : List Char

/-- `paths` (lines 370–377). -/
def paths (key : SeriesKey) (day : String) : DayPaths :=
  let dir := symbolDir toLowercase root key
  { dat := join dir (day ++ ".dat").toList
    idx := join dir (day ++ ".idx").toList
    blob := join dir (day ++ ".blob").toList }

/-- The files of a day. -/
def DayPaths.files (p : DayPaths) : List (List Char) := [p.dat, p.idx, p.blob]

end Paths

/-! ## Slugs -/

/-- The parameters of a kind as its slug writes them. -/
inductive SlugArgs
  | unit
  | interval (iv : KlineInterval)
  | number (n : ℕ)
  | numbers (a b : ℕ)
  | ticks (alphaX100 minTicks : ℕ)
  | session (freq : ℕ) (src : TpoSource)
  deriving DecidableEq

/-- The decimal digits of `n`. -/
def digits (n : ℕ) : List Char := Nat.toDigits 10 n

theorem digits_inj {n m : ℕ} (h : digits n = digits m) : n = m := by
  have hvalue : ∀ n, Nat.ofDigitChars 10 (digits n) 0 = n := fun n => Nat.ofDigitChars_ten_toDigits
  rw [← hvalue n, h, hvalue]

theorem isDigit_of_mem_digits {n : ℕ} {c : Char} (h : c ∈ digits n) : c.isDigit :=
  Nat.isDigit_of_mem_toDigits (by decide) (by decide) h

theorem notMem_digits {n : ℕ} {c : Char} (hc : c.isDigit = false) : c ∉ digits n := by
  intro h
  rw [isDigit_of_mem_digits h] at hc
  cases hc

/-- The part of `TpoSource` in a slug. -/
def TpoSource.slug : TpoSource → List Char
  | tradeBucket => "trade".toList
  | kline1m => "kline1m".toList

/-- The end of the slug. -/
def SlugArgs.text : SlugArgs → List Char
  | unit => []
  | interval iv => iv.text.toList
  | number n => digits n
  | numbers a b => digits a ++ '_' :: digits b
  | ticks a m => (digits a ++ ['a']) ++ '_' :: (digits m ++ ['m', 't'])
  | session freq src => (digits freq ++ ['m']) ++ '_' :: src.slug

theorem notMem_digits_append {n : ℕ} {c : Char} {suffix : List Char} (hc : c.isDigit = false)
    (h : c ∉ suffix) : c ∉ digits n ++ suffix := by
  rw [List.mem_append]
  exact not_or_intro (notMem_digits hc) h

/-- Two parts joined by an underscore determine both. -/
theorem underscore_split {a b a' b' : List Char} (ha : '_' ∉ a) (hb : '_' ∉ b)
    (h : a ++ '_' :: b = a' ++ '_' :: b') : a = a' ∧ b = b' := by
  obtain ⟨hfst, -, hsnd⟩ := (List.append_cons_inj_of_notMem ha hb).mp h
  exact ⟨hfst, hsnd⟩

theorem TpoSource.slug_inj {s s' : TpoSource} (h : s.slug = s'.slug) : s = s' := by
  cases s <;> cases s' <;> first | rfl | exact absurd h (by decide)

/-- Parameters of one form are determined by their text. -/
theorem SlugArgs.text_inj {a b : SlugArgs} (hform : a.ctorIdx = b.ctorIdx)
    (h : a.text = b.text) : a = b := by
  cases a <;> cases b <;> first | rfl | cases hform
  case interval iv iv' =>
    have htext : iv.text = iv'.text := String.toList_injective h
    exact congrArg _ ((KlineInterval.mk.injEq _ _).mpr htext)
  case number n m => rw [digits_inj h]
  case numbers a b a' b' =>
    obtain ⟨ha, hb⟩ := underscore_split (notMem_digits (by decide)) (notMem_digits (by decide)) h
    rw [digits_inj ha, digits_inj hb]
  case ticks a m a' m' =>
    obtain ⟨ha, hm⟩ := underscore_split (notMem_digits_append (by decide) (by decide))
      (notMem_digits_append (by decide) (by decide)) h
    rw [digits_inj (List.append_cancel_right ha), digits_inj (List.append_cancel_right hm)]
  case session freq src freq' src' =>
    obtain ⟨hfreq, hsrc⟩ := underscore_split (notMem_digits_append (by decide) (by decide))
      (by cases src <;> decide) h
    rw [digits_inj (List.append_cancel_right hfreq), TpoSource.slug_inj hsrc]

namespace Kind

/-- The parameters of the kind. -/
def slugArgs : Kind → SlugArgs
  | kline iv | markPriceKline iv | indexPriceKline iv | premiumIndexKline iv | footprint iv =>
    .interval iv
  | rangeBar n | volumeBar n | kagiBar n | dollarBar n => .number n.toNat
  | tickBar n => .number n.toNat
  | threeLineBreak n => .number n.toNat
  | renkoBar b r | pnfBar b r => .numbers b.toNat r.toNat
  | tickImbalanceBar a m | volumeImbalanceBar a m | runBar a m => .ticks a.toNat m.toNat
  | tpoProfile freq src => .session freq.toNat src
  | _ => .unit

/-- The kind with the parameters `args`. -/
def withArgs : Kind → SlugArgs → Kind
  | kline _, .interval iv => kline iv
  | markPriceKline _, .interval iv => markPriceKline iv
  | indexPriceKline _, .interval iv => indexPriceKline iv
  | premiumIndexKline _, .interval iv => premiumIndexKline iv
  | footprint _, .interval iv => footprint iv
  | rangeBar _, .number n => rangeBar (.ofNat n)
  | volumeBar _, .number n => volumeBar (.ofNat n)
  | kagiBar _, .number n => kagiBar (.ofNat n)
  | dollarBar _, .number n => dollarBar (.ofNat n)
  | tickBar _, .number n => tickBar (.ofNat n)
  | threeLineBreak _, .number n => threeLineBreak (.ofNat n)
  | renkoBar _ _, .numbers b r => renkoBar (.ofNat b) (.ofNat r)
  | pnfBar _ _, .numbers b r => pnfBar (.ofNat b) (.ofNat r)
  | tickImbalanceBar _ _, .ticks a m => tickImbalanceBar (.ofNat a) (.ofNat m)
  | volumeImbalanceBar _ _, .ticks a m => volumeImbalanceBar (.ofNat a) (.ofNat m)
  | runBar _ _, .ticks a m => runBar (.ofNat a) (.ofNat m)
  | tpoProfile _ _, .session freq src => tpoProfile (.ofNat freq) src
  | k, _ => k

/-- The slug up to the parameters. -/
def tag : Kind → String
  | kline _ => "klines_"
  | markPriceKline _ => "mark_price_klines_"
  | indexPriceKline _ => "index_price_klines_"
  | premiumIndexKline _ => "premium_index_klines_"
  | rangeBar _ => "range_bars_"
  | tickBar _ => "tick_bars_"
  | volumeBar _ => "volume_bars_"
  | footprint _ => "footprint_"
  | renkoBar _ _ => "renko_bars_"
  | pnfBar _ _ => "pnf_bars_"
  | kagiBar _ => "kagi_bars_"
  | dollarBar _ => "dollar_bars_"
  | tickImbalanceBar _ _ => "tib_bars_"
  | volumeImbalanceBar _ _ => "vib_bars_"
  | runBar _ _ => "run_bars_"
  | threeLineBreak _ => "three_line_break_"
  | tpoProfile _ _ => "tpo_profile_"
  | k => k.slug

/-- The kind with empty parameters. -/
def form : Kind → Kind
  | kline _ => kline ⟨""⟩
  | markPriceKline _ => markPriceKline ⟨""⟩
  | indexPriceKline _ => indexPriceKline ⟨""⟩
  | premiumIndexKline _ => premiumIndexKline ⟨""⟩
  | rangeBar _ => rangeBar 0
  | tickBar _ => tickBar 0
  | volumeBar _ => volumeBar 0
  | footprint _ => footprint ⟨""⟩
  | renkoBar _ _ => renkoBar 0 0
  | pnfBar _ _ => pnfBar 0 0
  | kagiBar _ => kagiBar 0
  | dollarBar _ => dollarBar 0
  | tickImbalanceBar _ _ => tickImbalanceBar 0 0
  | volumeImbalanceBar _ _ => volumeImbalanceBar 0 0
  | runBar _ _ => runBar 0 0
  | threeLineBreak _ => threeLineBreak 0
  | tpoProfile _ _ => tpoProfile 0 .tradeBucket
  | k => k

/-- The kinds with empty parameters. -/
def forms : List Kind :=
  [trade, aggTrade, kline ⟨""⟩, ticker, orderbook, orderbookDelta, markPrice, fundingRate,
    openInterest, liquidation, blockTrade, auctionEvent, indexPrice, compositeIndex,
    optionGreeks, volatilityIndex, historicalVolatility, longShortRatio, takerVolume,
    liquidationBucket, basis, insuranceFund, orderbookL3, settlementEvent, marketWarning,
    riskLimit, predictedFunding, fundingSettlement, markPriceKline ⟨""⟩, indexPriceKline ⟨""⟩,
    premiumIndexKline ⟨""⟩, rangeBar 0, tickBar 0, volumeBar 0, footprint ⟨""⟩, renkoBar 0 0,
    pnfBar 0 0, kagiBar 0, dollarBar 0, tickImbalanceBar 0 0, volumeImbalanceBar 0 0,
    runBar 0 0, cvdLine, threeLineBreak 0, tpoProfile 0 .tradeBucket, orderUpdate,
    balanceUpdate, positionUpdate]

theorem form_mem (k : Kind) : k.form ∈ forms := by
  cases k <;> exact List.elem_iff.mp rfl

theorem tag_form (k : Kind) : k.form.tag = k.tag := by
  cases k <;> rfl

theorem args_form (k : Kind) : k.form.slugArgs.ctorIdx = k.slugArgs.ctorIdx := by
  cases k <;> rfl

/-- A kind is its form with its parameters. -/
theorem form_withArgs (k : Kind) : k.form.withArgs k.slugArgs = k := by
  cases k
  case rangeBar | volumeBar | kagiBar | dollarBar => exact congrArg _ UInt64.ofNat_toNat
  case tickBar => exact congrArg _ UInt32.ofNat_toNat
  case threeLineBreak => exact congrArg _ UInt8.ofNat_toNat
  case renkoBar | pnfBar => exact congrArg₂ _ UInt64.ofNat_toNat UInt8.ofNat_toNat
  case tickImbalanceBar | volumeImbalanceBar | runBar =>
    exact congrArg₂ _ UInt16.ofNat_toNat UInt32.ofNat_toNat
  case tpoProfile freq src => exact congrArg (tpoProfile · src) UInt16.ofNat_toNat
  all_goals rfl

theorem toList_number (tag : String) (n : ℕ) :
    (tag ++ toString n).toList = tag.toList ++ (SlugArgs.number n).text := by
  rw [String.toList_append]
  exact congrArg _ Nat.toList_repr

theorem toList_numbers (tag : String) (a b : ℕ) :
    (tag ++ toString a ++ "_" ++ toString b).toList =
      tag.toList ++ (SlugArgs.numbers a b).text := by
  rw [String.toList_append, String.toList_append, toList_number, List.append_assoc,
    List.append_assoc]
  exact congrArg (fun ds => tag.toList ++ (digits a ++ '_' :: ds)) Nat.toList_repr

theorem toList_ticks (tag : String) (a m : ℕ) :
    (tag ++ toString a ++ "a_" ++ toString m ++ "mt").toList =
      tag.toList ++ (SlugArgs.ticks a m).text := by
  have hm : (toString m).toList = digits m := Nat.toList_repr
  have htext : (SlugArgs.ticks a m).text = digits a ++ ("a_".toList ++ (digits m ++ "mt".toList)) :=
    List.append_assoc _ _ _
  rw [String.toList_append, String.toList_append, String.toList_append, toList_number, hm, htext,
    List.append_assoc, List.append_assoc, List.append_assoc]
  rfl

theorem toList_session (tag : String) (freq : ℕ) (src : TpoSource) (name : String)
    (h : name.toList = src.slug) :
    (tag ++ toString freq ++ "m_" ++ name).toList =
      tag.toList ++ (SlugArgs.session freq src).text := by
  have htext : (SlugArgs.session freq src).text = digits freq ++ ("m_".toList ++ src.slug) :=
    List.append_assoc _ _ _
  rw [String.toList_append, String.toList_append, toList_number, h, htext, List.append_assoc,
    List.append_assoc]
  rfl

/-- The slug is the tag followed by the parameters. -/
theorem slug_eq (k : Kind) : k.slug.toList = k.tag.toList ++ k.slugArgs.text := by
  cases k
  case kline | markPriceKline | indexPriceKline | premiumIndexKline | footprint =>
    exact String.toList_append
  case rangeBar | tickBar | volumeBar | kagiBar | dollarBar | threeLineBreak =>
    exact toList_number _ _
  case renkoBar | pnfBar => exact toList_numbers _ _ _
  case tickImbalanceBar | volumeImbalanceBar | runBar => exact toList_ticks _ _ _
  case tpoProfile freq src =>
    cases src
    · exact toList_session _ _ .tradeBucket _ rfl
    · exact toList_session _ _ .kline1m _ rfl
  all_goals exact (List.append_nil _).symm

theorem takesArgs_of_text_ne_nil {k : Kind} (h : k.slugArgs.text ≠ []) :
    k.form.slugArgs ≠ .unit := by
  intro hform
  have hidx := k.args_form
  rw [hform] at hidx
  cases hargs : k.slugArgs with
  | unit =>
    rw [hargs] at h
    exact h rfl
  | interval | number | numbers | ticks | session =>
    rw [hargs] at hidx
    cases hidx

/-- The tags are different, and one that takes parameters is a prefix of no other. -/
def TagsApart (i j : Kind) : Prop :=
  i.tag.toList ≠ j.tag.toList ∧ (i.tag.toList <+: j.tag.toList → i.slugArgs = .unit) ∧
    (j.tag.toList <+: i.tag.toList → j.slugArgs = .unit)

instance (i j : Kind) : Decidable (TagsApart i j) := inferInstanceAs (Decidable (_ ∧ _ ∧ _))

instance : Std.Symm TagsApart := ⟨fun _ _ h => ⟨h.1.symm, h.2.2, h.2.1⟩⟩

theorem forms_pairwise : forms.Pairwise TagsApart := by
  decide +kernel

theorem tagsApart {i j : {k // k ∈ forms}} (h : i ≠ j) : TagsApart i.1 j.1 :=
  forms_pairwise.forall i.2 j.2 fun heq => h (Subtype.ext heq)

theorem tag_inj (i j : {k // k ∈ forms}) (h : i.1.tag.toList = j.1.tag.toList) : i = j := by
  by_contra hne
  exact (tagsApart hne).1 h

theorem eq_of_tag_prefix (i j : {k // k ∈ forms}) (hargs : i.1.slugArgs ≠ .unit)
    (h : i.1.tag.toList <+: j.1.tag.toList) : i = j := by
  by_contra hne
  exact hargs ((tagsApart hne).2.1 h)

/-- Two kinds with one slug are the same kind. -/
theorem slug_injective {k₁ k₂ : Kind} (h : k₁.slug = k₂.slug) : k₁ = k₂ := by
  have htext := congrArg String.toList h
  rw [slug_eq, slug_eq, ← tag_form, ← tag_form k₂] at htext
  obtain ⟨hform, hargs⟩ := tag_append_inj tag_inj eq_of_tag_prefix
    (i := ⟨k₁.form, k₁.form_mem⟩) (j := ⟨k₂.form, k₂.form_mem⟩)
    (fun hi => not_imp_comm.mp takesArgs_of_text_ne_nil hi)
    (fun hj => not_imp_comm.mp takesArgs_of_text_ne_nil hj) htext
  have hform : k₁.form = k₂.form := congrArg Subtype.val hform
  have hctor : k₁.slugArgs.ctorIdx = k₂.slugArgs.ctorIdx := by
    rw [← k₁.args_form, ← k₂.args_form, hform]
  rw [← k₁.form_withArgs, ← k₂.form_withArgs, hform, SlugArgs.text_inj hctor hargs]

/-- The interval of a kind. -/
def interval (k : Kind) : Option KlineInterval :=
  match k.slugArgs with
  | .interval iv => some iv
  | _ => none

theorem slugArgs_of_interval {k : Kind} {iv : KlineInterval} (h : k.interval = some iv) :
    k.slugArgs = .interval iv := by
  unfold interval at h
  cases hargs : k.slugArgs with
  | interval iv' =>
    rw [hargs] at h
    rw [Option.some.inj h]
  | unit | number | numbers | ticks | session =>
    rw [hargs] at h
    cases h

/-- The interval of a kind can be replaced. -/
theorem withArgs_interval {k : Kind} {iv : KlineInterval} (h : k.interval = some iv)
    (iv' : KlineInterval) :
    (k.withArgs (.interval iv')).slug.toList = k.tag.toList ++ iv'.text.toList := by
  rw [slug_eq]
  cases k
  case kline | markPriceKline | indexPriceKline | premiumIndexKline | footprint => rfl
  all_goals cases h

/-- Only an interval can bring a separator into a slug. -/
theorem interval_of_separator_mem {k : Kind} (h : '/' ∈ k.slugArgs.text) :
    ∃ iv, k.interval = some iv ∧ '/' ∈ iv.text.toList := by
  have hdigits : ∀ n, '/' ∉ digits n := fun n => notMem_digits (by decide)
  unfold interval
  cases hargs : k.slugArgs with
  | unit =>
    rw [hargs] at h
    cases h
  | interval iv =>
    rw [hargs] at h
    exact ⟨iv, rfl, h⟩
  | number n =>
    rw [hargs] at h
    exact absurd h (hdigits n)
  | numbers a b =>
    rw [hargs, SlugArgs.text, List.mem_append, List.mem_cons] at h
    exact absurd h (not_or_intro (hdigits a) (not_or_intro (by decide) (hdigits b)))
  | ticks a m =>
    rw [hargs, SlugArgs.text, List.mem_append, List.mem_cons] at h
    exact absurd h (not_or_intro (notMem_digits_append (by decide) (by decide))
      (not_or_intro (by decide) (notMem_digits_append (by decide) (by decide))))
  | session freq src =>
    have hsrc : '/' ∉ src.slug := by cases src <;> decide
    rw [hargs, SlugArgs.text, List.mem_append, List.mem_cons] at h
    exact absurd h (not_or_intro (notMem_digits_append (by decide) (by decide))
      (not_or_intro (by decide) hsrc))

theorem tag_plain : ∀ i : {k // k ∈ forms}, '/' ∉ i.1.tag.toList ∧ 2 < i.1.tag.toList.length := by
  decide +kernel

/-- Without a separator in the interval the slug is the name of one directory. -/
theorem isName_slug {k : Kind} (h : ∀ iv, k.interval = some iv → '/' ∉ iv.text.toList) :
    IsName k.slug.toList := by
  obtain ⟨hsep, hlen⟩ := tag_plain ⟨k.form, k.form_mem⟩
  rw [tag_form] at hsep hlen
  rw [slug_eq]
  refine isName_of_length ?_ ?_
  · rw [List.mem_append]
    rintro (htag | htext)
    · exact hsep htag
    · obtain ⟨iv, hiv, hmem⟩ := interval_of_separator_mem htext
      exact h iv hiv hmem
  · rw [List.length_append]
    omega

end Kind

/-! ## Labels of exchanges and accounts -/

open ExchangeId in
/-- The exchanges with a name of their own. -/
def exchanges : List ExchangeId :=
  [binance, bybit, okx, kuCoin, kraken, coinbase, gateIO, bitfinex, bitstamp, gemini,
    mexc, htx, bitget, bingX, cryptoCom, upbit, deribit, hyperLiquid, bitmex, lighter,
    dydx, polymarket, polygon, finnhub, tiingo, twelvedata, coinglass, cryptoCompare,
    whaleAlert, bitquery, defiLlama, oanda, alphaVantage, dukascopy, angelOne, zerodha,
    fyers, dhan, upstox, alpaca, jQuants, tinkoff, moex, krx, futu, fred, bls,
    yahooFinance, ib]

theorem mem_exchanges_or_custom (e : ExchangeId) : e ∈ exchanges ∨ ∃ id, e = .custom id := by
  cases e
  case custom id => exact Or.inr ⟨id, rfl⟩
  all_goals exact Or.inl (by decide)

theorem toLower_of_isDigit {c : Char} (h : c.isDigit) : c.toLower = c := by
  unfold Char.isDigit at h
  rw [Bool.and_eq_true, decide_eq_true_iff, decide_eq_true_iff] at h
  unfold Char.toLower
  refine dif_neg ?_
  rintro ⟨hupper, -⟩
  have hdigits : '9'.val < 'A'.val := by decide
  exact UInt32.lt_irrefl _ (UInt32.lt_of_le_of_lt (UInt32.le_trans hupper h.2) hdigits)

theorem exchangeLabel_custom (id : UInt16) :
    (exchangeLabel (.custom id)).toList = "custom(".toList ++ (digits id.toNat ++ [')']) := by
  have hdigits : (digits id.toNat).map Char.toLower = digits id.toNat :=
    (List.map_congr_left fun c hc => toLower_of_isDigit (isDigit_of_mem_digits hc)).trans
      (List.map_id _)
  have hdebug : (exchangeDebug (.custom id)).toList =
      "Custom(".toList ++ (digits id.toNat ++ [')']) := by
    rw [exchangeDebug, String.toList_append, String.toList_append, List.append_assoc]
    exact congrArg (fun ds => "Custom(".toList ++ (ds ++ [')'])) Nat.toList_repr
  show ((exchangeDebug (.custom id)).map Char.toLower).toList = _
  rw [String.toList_map, hdebug, List.map_append, List.map_append, hdigits]
  rfl

theorem exchangeLabel_inj_of_mem : ∀ e₁ ∈ exchanges, ∀ e₂ ∈ exchanges,
    exchangeLabel e₁ = exchangeLabel e₂ → e₁ = e₂ := by
  decide +kernel

theorem exchangeLabel_plain : ∀ e ∈ exchanges,
    '(' ∉ (exchangeLabel e).toList ∧ IsName (exchangeLabel e).toList := by
  decide +kernel

theorem paren_mem_exchangeLabel_custom (id : UInt16) :
    '(' ∈ (exchangeLabel (.custom id)).toList := by
  rw [exchangeLabel_custom]
  exact List.mem_append_left _ (by decide)

theorem exchangeLabel_injective {e₁ e₂ : ExchangeId}
    (h : exchangeLabel e₁ = exchangeLabel e₂) : e₁ = e₂ := by
  rcases mem_exchanges_or_custom e₁ with h₁ | ⟨id₁, rfl⟩ <;>
    rcases mem_exchanges_or_custom e₂ with h₂ | ⟨id₂, rfl⟩
  · exact exchangeLabel_inj_of_mem e₁ h₁ e₂ h₂ h
  · exact absurd (h ▸ paren_mem_exchangeLabel_custom id₂) (exchangeLabel_plain e₁ h₁).1
  · exact absurd (h ▸ paren_mem_exchangeLabel_custom id₁) (exchangeLabel_plain e₂ h₂).1
  · have htext := congrArg String.toList h
    rw [exchangeLabel_custom, exchangeLabel_custom] at htext
    have hdigits := List.append_cancel_right (List.append_cancel_left htext)
    rw [UInt16.toNat_inj.mp (digits_inj hdigits)]

theorem isName_exchangeLabel (e : ExchangeId) : IsName (exchangeLabel e).toList := by
  rcases mem_exchanges_or_custom e with h | ⟨id, rfl⟩
  · exact (exchangeLabel_plain e h).2
  · rw [exchangeLabel_custom]
    refine isName_of_length ?_ ?_
    · rw [List.mem_append, List.mem_append]
      rintro (h | h | h)
      · exact absurd h (by decide)
      · exact notMem_digits (by decide) h
      · exact absurd h (by decide)
    · rw [List.length_append]
      exact Nat.lt_add_right _ (by decide)

theorem accountLabel_injective {a₁ a₂ : AccountType} (h : accountLabel a₁ = accountLabel a₂) :
    a₁ = a₂ := by
  cases a₁ <;> cases a₂ <;> first | rfl | exact absurd h (by decide)

theorem isName_accountLabel (a : AccountType) : IsName (accountLabel a).toList := by
  cases a <;> decide

/-! ## Series that keep to themselves -/

section Separation

variable (toLowercase : String → String) (cwd : Dir) (root : List Char)

/-- The directory of the series for a process in the directory `cwd`. -/
def dirOf (key : SeriesKey) : Dir := resolve cwd (symbolDir toLowercase root key)

/-- The names below the directory of the account that the symbol leads to, unless the
    symbol is absolute or climbs above it. -/
def symbolNames (key : SeriesKey) : Option Dir := inside (toLowercase key.symbol).toList

/-- The interval of the key is part of one name, and its symbol stays below the directory of
    the account. -/
structure Plain (key : SeriesKey) : Prop where
  interval : ∀ iv, key.kind.interval = some iv → '/' ∉ iv.text.toList
  symbol : (symbolNames toLowercase key).isSome

/-- The series of `k₁` and `k₂` have nothing to do with each other on disk: both directories
    are strictly below the storage root, neither contains the other, and no day file of the
    one is a day file of the other. -/
structure Apart (k₁ k₂ : SeriesKey) : Prop where
  below₁ : resolve cwd root <+: dirOf toLowercase cwd root k₁ ∧
    dirOf toLowercase cwd root k₁ ≠ resolve cwd root
  below₂ : resolve cwd root <+: dirOf toLowercase cwd root k₂ ∧
    dirOf toLowercase cwd root k₂ ≠ resolve cwd root
  outside₁ : ¬dirOf toLowercase cwd root k₂ <+: dirOf toLowercase cwd root k₁
  outside₂ : ¬dirOf toLowercase cwd root k₁ <+: dirOf toLowercase cwd root k₂
  files : ∀ day₁ day₂ : String, '/' ∉ day₁.toList → '/' ∉ day₂.toList →
    ∀ f₁ ∈ (paths toLowercase root k₁ day₁).files, ∀ f₂ ∈ (paths toLowercase root k₂ day₂).files,
      resolve cwd f₁ ≠ resolve cwd f₂

/-- The keys differ in nothing but the symbol, and the names of one symbol begin the names
    of the other. -/
def Clash (k₁ k₂ : SeriesKey) : Prop :=
  k₁.kind = k₂.kind ∧ k₁.exchange = k₂.exchange ∧ k₁.accountType = k₂.accountType ∧
    ∃ names₁ names₂, symbolNames toLowercase k₁ = some names₁ ∧
      symbolNames toLowercase k₂ = some names₂ ∧ (names₁ <+: names₂ ∨ names₂ <+: names₁)

variable {toLowercase}

theorem plain_dir_eq {key : SeriesKey} {names : Dir} (h : Plain toLowercase key)
    (hnames : symbolNames toLowercase key = some names) :
    dirOf toLowercase cwd root key = resolve cwd root ++
      (key.kind.slug.toList :: (exchangeLabel key.exchange).toList ::
        (accountLabel key.accountType).toList :: names) := by
  rw [dirOf, symbolDir, resolve_join_of_inside hnames,
    (isName_accountLabel key.accountType).resolve_join,
    (isName_exchangeLabel key.exchange).resolve_join, (Kind.isName_slug h.interval).resolve_join]
  simp only [List.append_assoc, List.singleton_append]
  rfl

theorem plain_dir_prefix_iff {k₁ k₂ : SeriesKey} {names₁ names₂ : Dir}
    (h₁ : Plain toLowercase k₁) (h₂ : Plain toLowercase k₂)
    (hnames₁ : symbolNames toLowercase k₁ = some names₁)
    (hnames₂ : symbolNames toLowercase k₂ = some names₂) :
    dirOf toLowercase cwd root k₁ <+: dirOf toLowercase cwd root k₂ ↔
      k₁.kind = k₂.kind ∧ k₁.exchange = k₂.exchange ∧ k₁.accountType = k₂.accountType ∧
        names₁ <+: names₂ := by
  have hslug : k₁.kind.slug.toList = k₂.kind.slug.toList ↔ k₁.kind = k₂.kind :=
    ⟨fun h => Kind.slug_injective (String.toList_injective h), fun h => h ▸ rfl⟩
  have hexchange : (exchangeLabel k₁.exchange).toList = (exchangeLabel k₂.exchange).toList ↔
      k₁.exchange = k₂.exchange :=
    ⟨fun h => exchangeLabel_injective (String.toList_injective h), fun h => h ▸ rfl⟩
  have haccount : (accountLabel k₁.accountType).toList = (accountLabel k₂.accountType).toList ↔
      k₁.accountType = k₂.accountType :=
    ⟨fun h => accountLabel_injective (String.toList_injective h), fun h => h ▸ rfl⟩
  rw [plain_dir_eq cwd root h₁ hnames₁, plain_dir_eq cwd root h₂ hnames₂,
    List.prefix_append_right_inj, List.cons_prefix_cons, List.cons_prefix_cons,
    List.cons_prefix_cons, hslug, hexchange, haccount]

theorem plain_dir_below {key : SeriesKey} (h : Plain toLowercase key) :
    resolve cwd root <+: dirOf toLowercase cwd root key ∧
      dirOf toLowercase cwd root key ≠ resolve cwd root := by
  obtain ⟨names, hnames⟩ := Option.isSome_iff_exists.mp h.symbol
  rw [plain_dir_eq cwd root h hnames]
  refine ⟨List.prefix_append _ _, ?_⟩
  intro heq
  exact absurd (List.append_right_eq_self.mp heq) (List.cons_ne_nil _ _)

/-- A day file is directly in the directory of its series. -/
theorem resolve_file {key : SeriesKey} {day : String} (hday : '/' ∉ day.toList) {f : List Char}
    (hf : f ∈ (paths toLowercase root key day).files) :
    ∃ name, resolve cwd f = dirOf toLowercase cwd root key ++ [name] := by
  have hname : ∀ ext : String, '/' ∉ ext.toList → 2 < ext.toList.length →
      IsName (day ++ ext).toList := by
    intro ext hext hlen
    rw [String.toList_append]
    refine isName_of_length ?_ ?_
    · rw [List.mem_append]
      exact not_or_intro hday hext
    · rw [List.length_append]
      omega
  have hjoin : ∀ ext : String, '/' ∉ ext.toList → 2 < ext.toList.length →
      ∃ name, resolve cwd (join (symbolDir toLowercase root key) (day ++ ext).toList) =
        dirOf toLowercase cwd root key ++ [name] :=
    fun ext hext hlen => ⟨_, (hname ext hext hlen).resolve_join cwd _⟩
  unfold paths DayPaths.files at hf
  rw [List.mem_cons, List.mem_cons, List.mem_singleton] at hf
  rcases hf with rfl | rfl | rfl
  · exact hjoin ".dat" (by decide) (by decide)
  · exact hjoin ".idx" (by decide) (by decide)
  · exact hjoin ".blob" (by decide) (by decide)

/-- Plain series are apart unless they clash. -/
theorem apart_iff_not_clash {k₁ k₂ : SeriesKey} (h₁ : Plain toLowercase k₁)
    (h₂ : Plain toLowercase k₂) :
    Apart toLowercase cwd root k₁ k₂ ↔ ¬Clash toLowercase k₁ k₂ := by
  obtain ⟨names₁, hnames₁⟩ := Option.isSome_iff_exists.mp h₁.symbol
  obtain ⟨names₂, hnames₂⟩ := Option.isSome_iff_exists.mp h₂.symbol
  have hle := plain_dir_prefix_iff cwd root h₁ h₂ hnames₁ hnames₂
  have hge := plain_dir_prefix_iff cwd root h₂ h₁ hnames₂ hnames₁
  constructor
  · rintro hapart ⟨hkind, hexchange, haccount, names₁', names₂', hnames₁', hnames₂', horder⟩
    cases hnames₁.symm.trans hnames₁'
    cases hnames₂.symm.trans hnames₂'
    rcases horder with horder | horder
    · exact hapart.outside₂ (hle.mpr ⟨hkind, hexchange, haccount, horder⟩)
    · exact hapart.outside₁ (hge.mpr ⟨hkind.symm, hexchange.symm, haccount.symm, horder⟩)
  · intro hclash
    have hout₁ : ¬dirOf toLowercase cwd root k₂ <+: dirOf toLowercase cwd root k₁ := by
      intro hprefix
      obtain ⟨hkind, hexchange, haccount, horder⟩ := hge.mp hprefix
      exact hclash ⟨hkind.symm, hexchange.symm, haccount.symm, names₁, names₂, hnames₁, hnames₂,
        Or.inr horder⟩
    have hout₂ : ¬dirOf toLowercase cwd root k₁ <+: dirOf toLowercase cwd root k₂ := by
      intro hprefix
      obtain ⟨hkind, hexchange, haccount, horder⟩ := hle.mp hprefix
      exact hclash ⟨hkind, hexchange, haccount, names₁, names₂, hnames₁, hnames₂, Or.inl horder⟩
    refine ⟨plain_dir_below cwd root h₁, plain_dir_below cwd root h₂, hout₁, hout₂, ?_⟩
    intro day₁ day₂ hday₁ hday₂ f₁ hf₁ f₂ hf₂ hsame
    obtain ⟨name₁, hfile₁⟩ := resolve_file cwd root hday₁ hf₁
    obtain ⟨name₂, hfile₂⟩ := resolve_file cwd root hday₂ hf₂
    rw [hfile₁, hfile₂] at hsame
    obtain ⟨hdirs, -⟩ := List.append_inj' hsame rfl
    exact hout₂ (hdirs ▸ List.prefix_rfl)

/-- A separator in the interval can be doubled. -/
theorem shared_of_separator {key : SeriesKey} {iv : KlineInterval}
    (hiv : key.kind.interval = some iv) (hmem : '/' ∈ iv.text.toList) :
    ∃ other, other ≠ key ∧
      dirOf toLowercase cwd root other = dirOf toLowercase cwd root key := by
  obtain ⟨p, q, htext⟩ := List.append_of_mem hmem
  let iv' : KlineInterval := ⟨String.ofList (p ++ '/' :: '/' :: q)⟩
  have htext' : iv'.text.toList = p ++ '/' :: '/' :: q := String.toList_ofList
  have hslug : key.kind.slug.toList = (key.kind.tag.toList ++ p) ++ '/' :: q := by
    rw [Kind.slug_eq, Kind.slugArgs_of_interval hiv, SlugArgs.text, htext, List.append_assoc]
  have hslug' : (key.kind.withArgs (.interval iv')).slug.toList =
      (key.kind.tag.toList ++ p) ++ '/' :: '/' :: q := by
    rw [Kind.withArgs_interval hiv, htext', List.append_assoc]
  have hne : key.kind.tag.toList ++ p ≠ [] := by
    intro hnil
    obtain ⟨-, hlen⟩ := Kind.tag_plain ⟨key.kind.form, key.kind.form_mem⟩
    rw [Kind.tag_form, (List.append_eq_nil_iff.mp hnil).1] at hlen
    exact absurd hlen (by decide)
  refine ⟨{ key with kind := key.kind.withArgs (.interval iv') }, ?_, ?_⟩
  · intro heq
    have hsame := congrArg (fun k : SeriesKey => k.kind.slug.toList) heq
    dsimp only at hsame
    rw [hslug, hslug'] at hsame
    exact absurd (congrArg List.length hsame) (by simp)
  · unfold dirOf symbolDir
    refine resolve_join_congr (resolve_join_congr (resolve_join_congr ?_ _) _) _
    rw [hslug, hslug']
    exact resolve_join_double cwd root hne q

/-- A symbol that leaves the directory of the account does so from any account. -/
theorem shared_of_symbol {key : SeriesKey} (h : symbolNames toLowercase key = none) :
    ∃ other, other ≠ key ∧
      dirOf toLowercase cwd root other = dirOf toLowercase cwd root key := by
  obtain ⟨account, haccount⟩ : ∃ account, account ≠ key.accountType := by
    by_cases hspot : key.accountType = .spot
    · exact ⟨.margin, by rw [hspot]; decide⟩
    · exact ⟨.spot, fun heq => hspot heq.symm⟩
  refine ⟨{ key with accountType := account }, ?_, ?_⟩
  · intro heq
    exact haccount (congrArg SeriesKey.accountType heq)
  · exact resolve_join_of_not_inside h cwd _ (isName_accountLabel _) (isName_accountLabel _)

/-- A series that is not plain shares its directory with a different one. -/
theorem shared_of_not_plain {key : SeriesKey} (h : ¬Plain toLowercase key) :
    ∃ other, other ≠ key ∧
      dirOf toLowercase cwd root other = dirOf toLowercase cwd root key := by
  by_cases hsymbol : (symbolNames toLowercase key).isSome
  · obtain ⟨iv, hiv, hmem⟩ : ∃ iv, key.kind.interval = some iv ∧ '/' ∈ iv.text.toList := by
      by_contra hnone
      push Not at hnone
      exact h ⟨hnone, hsymbol⟩
    exact shared_of_separator cwd root hiv hmem
  · exact shared_of_symbol cwd root (Option.not_isSome_iff_eq_none.mp hsymbol)

/-- **Main theorem.** Two plain series are apart exactly when they do not clash, and a series
that is not plain is not apart from some other series, in whose directory it is. -/
theorem series_apart_iff (toLowercase : String → String) (cwd : Dir) (root : List Char) :
    (∀ k₁ k₂, Plain toLowercase k₁ → Plain toLowercase k₂ →
      (Apart toLowercase cwd root k₁ k₂ ↔ ¬Clash toLowercase k₁ k₂)) ∧
    ∀ key, ¬Plain toLowercase key → ∃ other, other ≠ key ∧
      dirOf toLowercase cwd root other = dirOf toLowercase cwd root key ∧
      ¬Apart toLowercase cwd root other key := by
  refine ⟨fun _ _ h₁ h₂ => apart_iff_not_clash cwd root h₁ h₂, ?_⟩
  intro key hkey
  obtain ⟨other, hne, hdir⟩ := shared_of_not_plain cwd root hkey
  exact ⟨other, hne, hdir, fun hapart => hapart.outside₂ (hdir ▸ List.prefix_rfl)⟩

/-! ## Symbols that are names -/

theorem symbolNames_of_isName {key : SeriesKey} (h : IsName (toLowercase key.symbol).toList) :
    symbolNames toLowercase key = some [(toLowercase key.symbol).toList] :=
  h.inside_eq

theorem plain_of_isName {key : SeriesKey}
    (hiv : ∀ iv, key.kind.interval = some iv → '/' ∉ iv.text.toList)
    (h : IsName (toLowercase key.symbol).toList) : Plain toLowercase key := by
  refine ⟨hiv, ?_⟩
  rw [symbolNames_of_isName h]
  rfl

/-- Symbols that are names clash when they differ in the case of letters only. -/
theorem clash_iff_of_isName {k₁ k₂ : SeriesKey} (h₁ : IsName (toLowercase k₁.symbol).toList)
    (h₂ : IsName (toLowercase k₂.symbol).toList) :
    Clash toLowercase k₁ k₂ ↔ k₁.kind = k₂.kind ∧ k₁.exchange = k₂.exchange ∧
      k₁.accountType = k₂.accountType ∧ toLowercase k₁.symbol = toLowercase k₂.symbol := by
  unfold Clash
  rw [symbolNames_of_isName h₁, symbolNames_of_isName h₂]
  constructor
  · rintro ⟨hkind, hexchange, haccount, names₁, names₂, hnames₁, hnames₂, horder⟩
    cases hnames₁
    cases hnames₂
    have hlist : [(toLowercase k₁.symbol).toList] = [(toLowercase k₂.symbol).toList] := by
      rcases horder with horder | horder
      · exact horder.eq_of_length rfl
      · exact (horder.eq_of_length rfl).symm
    exact ⟨hkind, hexchange, haccount, String.toList_injective (List.singleton_inj.mp hlist)⟩
  · rintro ⟨hkind, hexchange, haccount, hsymbol⟩
    exact ⟨hkind, hexchange, haccount, _, _, rfl, rfl, Or.inl (hsymbol ▸ List.prefix_rfl)⟩

end Separation

/-- The trades of a symbol on the spot market of Binance. -/
def binanceTrades (symbol : String) : SeriesKey :=
  { exchange := .binance, accountType := .spot, symbol := symbol, kind := .trade }

theorem series_apart_iff_binance :
    Apart String.toLower [] "/data".toList (binanceTrades "BTCUSDT") (binanceTrades "ETHUSDT") ∧
    ∃ other, other ≠ binanceTrades "../BTCUSDT" ∧
      dirOf String.toLower [] "/data".toList other =
        dirOf String.toLower [] "/data".toList (binanceTrades "../BTCUSDT") ∧
      ¬Apart String.toLower [] "/data".toList other (binanceTrades "../BTCUSDT") := by
  obtain ⟨hplain, hother⟩ := series_apart_iff String.toLower [] "/data".toList
  have hnoInterval : ∀ (symbol : String) (iv : KlineInterval),
      (binanceTrades symbol).kind.interval = some iv → '/' ∉ iv.text.toList := by
    intro symbol iv h
    cases h
  have hbtc : IsName (String.toLower (binanceTrades "BTCUSDT").symbol).toList := by
    decide +kernel
  have heth : IsName (String.toLower (binanceTrades "ETHUSDT").symbol).toList := by
    decide +kernel
  constructor
  · refine (hplain _ _ (plain_of_isName (hnoInterval _) hbtc)
      (plain_of_isName (hnoInterval _) heth)).mpr ?_
    rw [clash_iff_of_isName hbtc heth]
    decide +kernel
  · refine hother _ ?_
    intro h
    exact absurd h.symbol (by decide +kernel)

/-- `BTCUSDT` and `btcusdt` are two symbols of one directory. -/
theorem not_apart_of_letter_case :
    ¬∀ k₁ k₂ : SeriesKey, k₁ ≠ k₂ → Apart String.toLower [] "/data".toList k₁ k₂ := by
  intro h
  have hapart := h (binanceTrades "BTCUSDT") (binanceTrades "btcusdt") (by decide)
  exact hapart.outside₁ (by decide +kernel)

-- a symbol that climbs out of the storage root
example : dirOf String.toLower [] "/data".toList (binanceTrades "../../../../etc") =
    ["etc".toList] := by
  decide +kernel

end Digdigdig3.Series
