import Digdigdig3.Core.Types
import Digdigdig3.Lib.Affixes

/-!
# Canonical symbols and the texts of the exchanges

`SymbolNormalizer` of `crates/dig3-core/src/core/utils/symbol_normalizer.rs`: one submodule for
each exchange, with `to_exchange`, `from_exchange` and `is_valid_for`. Texts are lists of
characters. The Unicode tables of the standard library are a parameter, of which nothing is used
beyond ASCII.
-/

namespace Digdigdig3

/-! ## Data -/

/-- `str::to_uppercase`, `str::to_lowercase` and `char::is_alphanumeric`: on ASCII they are the
    usual ones. -/
structure Unicode where
  toUppercase : List Char → List Char
  toLowercase : List Char → List Char
  isAlphanumeric : Char → Bool
  toUppercase_ascii : ∀ s, (∀ c ∈ s, c.val < 128) → toUppercase s = s.map Char.toUpper
  toLowercase_ascii : ∀ s, (∀ c ∈ s, c.val < 128) → toLowercase s = s.map Char.toLower
  isAlphanumeric_ascii : ∀ c : Char, c.val < 128 → isAlphanumeric c = c.isAlphanum

/-- `Symbol` (`core/types/common.rs` lines 298–307). -/
structure Symbol where
  base : List Char
  quote : List Char
  raw : Option (List Char)
  deriving DecidableEq

/-- `NormalizerError` (lines 21–36). -/
inductive NormalizerError
  | unknownExchange (exchange : ExchangeId)
  | invalidFormat (exchange : ExchangeId) (raw : List Char)
  | unsupportedAccountType (exchange : ExchangeId) (accountType : AccountType)
  | requiresRawInstrument (msg : List Char)
  deriving DecidableEq

namespace Symbol

variable (U : Unicode)

/-- `Symbol::new` (`core/types/common.rs` lines 310–316). -/
def new (base quote : List Char) : Symbol :=
  ⟨U.toUppercase base, U.toUppercase quote, none⟩

/-- `Symbol::with_raw` (`core/types/common.rs` lines 319–325). -/
def withRaw (base quote raw : List Char) : Symbol :=
  ⟨U.toUppercase base, U.toUppercase quote, some raw⟩

end Symbol

namespace SymbolNormalizer

variable (U : Unicode)

/-- A constant list of suffixes, in the order of the source. -/
def listed (names : List String) : List (List Char) := names.map String.toList

/-- `char::is_ascii_alphanumeric` on every character of a text that is not empty. -/
def alphanumericText (s : List Char) : Bool := !s.isEmpty && s.all Char.isAlphanum

/-- `c.is_ascii_lowercase() || c.is_ascii_digit()` on every character of a text that is not
    empty. -/
def lowercaseText (s : List Char) : Bool := !s.isEmpty && s.all fun c => c.isLower || c.isDigit

/-- `split_once` with two parts that are not empty. -/
def splitNonempty (sep : Char) (s : List Char) : Option (List Char × List Char) :=
  match splitOnce sep s with
  | some (a, b) => if a ≠ [] ∧ b ≠ [] then some (a, b) else none
  | none => none

/-- The symbol of the two parts that a splitter finds, or the format error. -/
def symbolOf (id : ExchangeId) (raw : List Char) :
    Option (List Char × List Char) → Except NormalizerError Symbol
  | some (base, quote) => .ok (Symbol.new U base quote)
  | none => .error (.invalidFormat id raw)

/-! ## `binance` (lines 163–236) -/

namespace Binance

/-- `QUOTE_SUFFIXES` (lines 168–173). -/
def quoteSuffixes : List (List Char) :=
  listed ["USDT", "USDC", "BUSD", "TUSD", "USDP", "BTC", "ETH", "BNB", "XRP", "DOGE",
    "AUD", "BRL", "EUR", "GBP", "RUB", "TRY", "UAH", "USD"]

/-- `to_exchange` (lines 179–188). -/
def toExchange (sym : Symbol) (accountType : AccountType) : Except NormalizerError (List Char) :=
  let base := U.toUppercase sym.base
  let quote := U.toUppercase sym.quote
  match accountType with
  | .options => .ok (base ++ "USD_PERP".toList)
  | _ => .ok (base ++ quote)

/-- The text before the last `_` (`rfind('_')`, lines 206–207). -/
def beforeLastUnderscore (s : List Char) : Option (List Char) :=
  (splitOnce '_' s.reverse).map fun p => p.2.reverse

/-- `from_exchange` (lines 194–218), with `split_by_suffix` (lines 220–230). -/
def fromExchange (raw : List Char) : Except NormalizerError Symbol :=
  let upper := U.toUppercase raw
  match upper.dropSuffix? "_PERP".toList with
  | some stripped =>
    match stripped.dropSuffix? "USD".toList with
    | some base => .ok (Symbol.new U base "USD".toList)
    | none => .ok (Symbol.new U stripped "USD".toList)
  | none =>
    match (beforeLastUnderscore upper).bind (splitBySuffix quoteSuffixes) with
    | some (base, quote) => .ok (Symbol.new U base quote)
    | none => symbolOf U .binance raw (splitBySuffix quoteSuffixes upper)

/-- `is_valid_for` (lines 233–235). -/
def isValidFor (raw : List Char) : Bool :=
  !raw.isEmpty && raw.all fun c => c.isAlphanum || c == '_'

end Binance

/-! ## `bybit` (lines 238–282) -/

namespace Bybit

/-- `QUOTE_SUFFIXES` (line 243). -/
def quoteSuffixes : List (List Char) :=
  listed ["USDT", "USDC", "BUSD", "DAI", "BTC", "ETH", "BNB", "USD"]

/-- `to_exchange` (lines 249–257). -/
def toExchange (sym : Symbol) : Except NormalizerError (List Char) :=
  if sym.base = [] ∨ sym.quote = [] then
    .error (.invalidFormat .bybit (sym.base ++ '/' :: sym.quote))
  else .ok (U.toUppercase sym.base ++ U.toUppercase sym.quote)

/-- `from_exchange` (lines 262–276). -/
def fromExchange (raw : List Char) : Except NormalizerError Symbol :=
  symbolOf U .bybit raw (splitBySuffix quoteSuffixes (U.toUppercase raw))

/-- `is_valid_for` (lines 279–281). -/
def isValidFor (raw : List Char) : Bool := alphanumericText raw

end Bybit

/-! ## `okx` (lines 284–323) -/

namespace Okx

/-- `to_exchange` (lines 292–301). -/
def toExchange (sym : Symbol) (accountType : AccountType) : Except NormalizerError (List Char) :=
  let base := U.toUppercase sym.base
  let quote := U.toUppercase sym.quote
  match accountType with
  | .futuresCross | .futuresIsolated => .ok (base ++ '-' :: (quote ++ "-SWAP".toList))
  | _ => .ok (base ++ '-' :: quote)

/-- `from_exchange` (lines 308–317). -/
def fromExchange (raw : List Char) : Except NormalizerError Symbol :=
  match split '-' raw with
  | base :: quote :: _ =>
    if base = [] ∨ quote = [] then .error (.invalidFormat .okx raw)
    else .ok (Symbol.new U base quote)
  | _ => .error (.invalidFormat .okx raw)

/-- `is_valid_for` (lines 320–322). -/
def isValidFor (raw : List Char) : Bool := !raw.isEmpty && raw.contains '-'

end Okx

/-! ## `kucoin` (lines 325–391) -/

namespace KuCoin

/-- `to_exchange` (lines 332–350). -/
def toExchange (sym : Symbol) (accountType : AccountType) : Except NormalizerError (List Char) :=
  match accountType with
  | .spot | .margin => .ok (U.toUppercase sym.base ++ '-' :: U.toUppercase sym.quote)
  | .futuresCross | .futuresIsolated =>
    let base := if U.toUppercase sym.base = "BTC".toList then "XBT".toList else sym.base
    let quote := U.toUppercase sym.quote
    if quote = "USDT".toList then .ok (base ++ "USDTM".toList)
    else if quote = "USD".toList then .ok (base ++ "USDM".toList)
    else .ok (base ++ (quote ++ "M".toList))
  | other => .error (.unsupportedAccountType .kuCoin other)

/-- The reverse of the renaming (line 378). -/
def fromXbt (base : List Char) : List Char :=
  if base.map Char.toLower = "XBT".toList.map Char.toLower then "BTC".toList else base

/-- `from_exchange` (lines 356–385). -/
def fromExchange (raw : List Char) (accountType : AccountType) : Except NormalizerError Symbol :=
  match accountType with
  | .spot | .margin => symbolOf U .kuCoin raw (splitOnce '-' raw)
  | .futuresCross | .futuresIsolated =>
    let s := (raw.dropSuffix? "M".toList).getD raw
    match s.dropSuffix? "USDT".toList with
    | some base => .ok (Symbol.new U (fromXbt base) "USDT".toList)
    | none =>
      match s.dropSuffix? "USD".toList with
      | some base => .ok (Symbol.new U (fromXbt base) "USD".toList)
      | none => .error (.invalidFormat .kuCoin raw)
  | other => .error (.unsupportedAccountType .kuCoin other)

/-- `is_valid_for` (lines 388–390). -/
def isValidFor (raw : List Char) : Bool :=
  !raw.isEmpty && raw.all fun c => c.isAlphanum || c == '-'

end KuCoin

/-! ## `kraken` (lines 393–484) -/

namespace Kraken

/-- `to_xbt` (lines 396–398). -/
def toXbt (base : List Char) : List Char :=
  if base.map Char.toLower = "BTC".toList.map Char.toLower then "XBT".toList else base

/-- `from_xbt` (lines 400–402). -/
def fromXbt (base : List Char) : List Char :=
  if base.map Char.toLower = "XBT".toList.map Char.toLower then "BTC".toList else base

/-- The fiat suffixes with a `Z` and their quotes (lines 449–454). -/
def fiatSuffixes : List (List Char × List Char) :=
  [("ZUSD", "USD"), ("ZEUR", "EUR"), ("ZGBP", "GBP"), ("ZJPY", "JPY"), ("ZCAD", "CAD")].map
    fun p => (p.1.toList, p.2.toList)

/-- The plain suffixes, each its own quote (lines 463–466). -/
def plainSuffixes : List (List Char) :=
  listed ["USDT", "USDC", "USD", "EUR", "GBP", "JPY", "CAD"]

/-- `to_exchange` (lines 413–426). -/
def toExchange (sym : Symbol) (accountType : AccountType) : Except NormalizerError (List Char) :=
  let base := U.toUppercase (toXbt sym.base)
  let quote := U.toUppercase sym.quote
  match accountType with
  | .spot | .margin => .ok (base ++ quote)
  | .futuresCross | .futuresIsolated => .ok ("PI_".toList ++ (base ++ quote))
  | other => .error (.unsupportedAccountType .kraken other)

/-- The market without its futures prefix (lines 437–441). -/
def inner (raw : List Char) : List Char :=
  ((raw.dropPrefix? "PI_".toList).orElse fun _ => raw.dropPrefix? "PF_".toList).getD raw

/-- The market without its asset class prefix (lines 443–446). -/
def cleaned (inner : List Char) : List Char :=
  ((inner.dropPrefix? "XX".toList).orElse fun _ => inner.dropPrefix? "X".toList).getD inner

/-- The first suffix of the two lists (lines 448–472). -/
def splitCleaned (cleaned : List Char) : Option (List Char × List Char) :=
  (fiatSuffixes.findSome? fun p => (beforeSuffix p.1 cleaned).map fun base => (base, p.2)).orElse
    fun _ => splitBySuffix plainSuffixes cleaned

/-- `from_exchange` (lines 436–478). -/
def fromExchange (raw : List Char) : Except NormalizerError Symbol :=
  symbolOf U .kraken raw
    ((splitCleaned (cleaned (inner raw))).map fun p => (fromXbt p.1, p.2))

/-- `is_valid_for` (lines 481–483). -/
def isValidFor (raw : List Char) : Bool :=
  !raw.isEmpty && raw.all fun c => c.isAlphanum || c == '_'

end Kraken

/-! ## `coinbase` (lines 486–529) -/

namespace Coinbase

/-- `to_exchange` (lines 494–503). -/
def toExchange (sym : Symbol) (accountType : AccountType) : Except NormalizerError (List Char) :=
  let base := U.toUppercase sym.base
  let quote := U.toUppercase sym.quote
  match accountType with
  | .futuresCross | .futuresIsolated => .ok (base ++ "-PERP".toList)
  | _ => .ok (base ++ '-' :: quote)

/-- `from_exchange` (lines 509–519). -/
def fromExchange (raw : List Char) : Except NormalizerError Symbol :=
  symbolOf U .coinbase raw (splitNonempty '-' raw)

/-- `is_valid_for` (lines 523–528). -/
def isValidFor (raw : List Char) : Bool := (splitNonempty '-' raw).isSome

end Coinbase

/-! ## `gateio` (lines 531–559) -/

namespace GateIo

/-- `to_exchange` (lines 535–537). -/
def toExchange (sym : Symbol) : Except NormalizerError (List Char) :=
  .ok (U.toUppercase sym.base ++ '_' :: U.toUppercase sym.quote)

/-- `from_exchange` (lines 539–547). -/
def fromExchange (raw : List Char) : Except NormalizerError Symbol :=
  symbolOf U ExchangeId.gateIO raw (splitOnce '_' raw)

/-- `is_valid_for` (lines 549–558). -/
def isValidFor (raw : List Char) : Bool :=
  match splitOnce '_' raw with
  | some (base, quote) =>
    !base.isEmpty && !quote.isEmpty && base.all U.isAlphanumeric && quote.all U.isAlphanumeric
  | none => false

end GateIo

/-! ## `gemini` (lines 561–622) -/

namespace Gemini

/-- `QUOTE_SUFFIXES` (line 567). -/
def quoteSuffixes : List (List Char) := listed ["usdt", "gusd", "usdc", "usd", "btc", "eth"]

/-- `to_exchange` (lines 573–582). -/
def toExchange (sym : Symbol) (accountType : AccountType) : Except NormalizerError (List Char) :=
  let base := U.toLowercase sym.base
  let quote := U.toLowercase sym.quote
  match accountType with
  | .futuresCross | .futuresIsolated => .ok (base ++ "gusdperp".toList)
  | _ => .ok (base ++ quote)

/-- `from_exchange` (lines 588–616). -/
def fromExchange (raw : List Char) : Except NormalizerError Symbol :=
  let lower := U.toLowercase raw
  match lower.dropSuffix? "perp".toList with
  | some withoutPerp =>
    let base :=
      match withoutPerp.dropSuffix? "gusd".toList with
      | some b => U.toUppercase b
      | none => U.toUppercase withoutPerp
    .ok (Symbol.new U base "USD".toList)
  | none =>
    symbolOf U .gemini raw
      ((splitBySuffix quoteSuffixes lower).map fun p => (U.toUppercase p.1, U.toUppercase p.2))

/-- `is_valid_for` (lines 619–621). -/
def isValidFor (raw : List Char) : Bool := lowercaseText raw

end Gemini

/-! ## `mexc` (lines 624–689) -/

namespace Mexc

/-- `QUOTES` (line 653). -/
def quotes : List (List Char) := listed ["USDT", "USDC", "BUSD", "BTC", "ETH", "BNB", "USD"]

/-- `to_exchange` (lines 629–642). -/
def toExchange (sym : Symbol) (accountType : AccountType) : Except NormalizerError (List Char) :=
  match accountType with
  | .spot | .margin => .ok (U.toUppercase sym.base ++ U.toUppercase sym.quote)
  | .futuresCross | .futuresIsolated =>
    .ok (U.toUppercase sym.base ++ '_' :: U.toUppercase sym.quote)
  | other => .error (.unsupportedAccountType .mexc other)

/-- `from_exchange` (lines 647–666). -/
def fromExchange (raw : List Char) : Except NormalizerError Symbol :=
  match splitOnce '_' raw with
  | some (base, quote) => .ok (Symbol.new U base quote)
  | none => symbolOf U .mexc raw (splitBySuffix quotes raw)

/-- `is_valid_for` (lines 670–688). -/
def isValidFor (raw : List Char) (accountType : AccountType) : Bool :=
  if raw = [] then false
  else
    match accountType with
    | .futuresCross | .futuresIsolated =>
      match splitOnce '_' raw with
      | some (base, quote) =>
        !base.isEmpty && !quote.isEmpty && !quote.contains '_' && base.all Char.isAlphanum &&
          quote.all Char.isAlphanum
      | none => false
    | _ => raw.all Char.isAlphanum

end Mexc

/-! ## `htx` (lines 691–743) -/

namespace Htx

/-- `to_exchange` (lines 697–704). -/
def toExchange (sym : Symbol) (accountType : AccountType) : Except NormalizerError (List Char) :=
  match accountType with
  | .futuresCross | .futuresIsolated =>
    .ok (U.toUppercase sym.base ++ '-' :: U.toUppercase sym.quote)
  | _ => .ok (U.toLowercase sym.base ++ U.toLowercase sym.quote)

/-- `from_exchange` (lines 709–727). -/
def fromExchange (raw : List Char) (accountType : AccountType) : Except NormalizerError Symbol :=
  match accountType with
  | .futuresCross | .futuresIsolated => symbolOf U .htx raw (splitOnce '-' raw)
  | _ => .error (.invalidFormat .htx raw)

/-- `is_valid_for` (lines 731–742). -/
def isValidFor (raw : List Char) (accountType : AccountType) : Bool :=
  if raw = [] then false
  else
    match accountType with
    | .futuresCross | .futuresIsolated =>
      raw.countP (fun c => c == '-') == 1 && raw.all fun c => U.isAlphanumeric c || c == '-'
    | _ => raw.all fun c => c.isLower || c.isDigit

end Htx

/-! ## `bitget` (lines 745–778) -/

namespace Bitget

/-- `KNOWN_QUOTES` (lines 757–760). -/
def knownQuotes : List (List Char) :=
  listed ["USDT", "USDC", "BUSD", "TUSD", "FDUSD", "BTC", "ETH", "BNB", "USD"]

/-- `to_exchange` (lines 751–753). -/
def toExchange (sym : Symbol) : Except NormalizerError (List Char) :=
  .ok (U.toUppercase sym.base ++ U.toUppercase sym.quote)

/-- `from_exchange` (lines 756–772). -/
def fromExchange (raw : List Char) : Except NormalizerError Symbol :=
  symbolOf U .bitget raw (splitBySuffix knownQuotes (U.toUppercase raw))

/-- `is_valid_for` (lines 775–777). -/
def isValidFor (raw : List Char) : Bool := alphanumericText raw

end Bitget

/-! ## `bingx` (lines 780–826) -/

namespace BingX

/-- `to_exchange` (lines 786–794). -/
def toExchange (sym : Symbol) : Except NormalizerError (List Char) :=
  if sym.base = [] ∨ sym.quote = [] then
    .error (.invalidFormat .bingX (sym.base ++ '-' :: sym.quote))
  else .ok (U.toUppercase sym.base ++ '-' :: U.toUppercase sym.quote)

/-- `from_exchange` (lines 799–813). -/
def fromExchange (raw : List Char) : Except NormalizerError Symbol :=
  symbolOf U .bingX raw (splitNonempty '-' raw)

/-- `is_valid_for` (lines 816–825). -/
def isValidFor (raw : List Char) : Bool :=
  if raw = [] then false
  else
    match splitOnce '-' raw with
    | some (base, quote) => !base.isEmpty && !quote.isEmpty && !quote.contains '-'
    | none => false

end BingX

/-! ## `crypto_com` (lines 828–878) -/

namespace CryptoCom

/-- The quotes of a perpetual (line 853). -/
def perpQuotes : List (List Char) := listed ["USDT", "USDC", "USD"]

/-- `to_exchange` (lines 836–848). -/
def toExchange (sym : Symbol) (accountType : AccountType) : Except NormalizerError (List Char) :=
  let base := U.toUppercase sym.base
  match accountType with
  | .futuresCross | .futuresIsolated => .ok (base ++ "USD-PERP".toList)
  | _ => .ok (base ++ '_' :: U.toUppercase sym.quote)

/-- `from_exchange` (lines 851–863). -/
def fromExchange (raw : List Char) : Except NormalizerError Symbol :=
  match raw.dropSuffix? "-PERP".toList with
  | some stripped => symbolOf U .cryptoCom raw (splitBySuffix perpQuotes stripped)
  | none => symbolOf U .cryptoCom raw (splitOnce '_' raw)

/-- `is_valid_for` (lines 866–877). -/
def isValidFor (raw : List Char) : Bool :=
  if raw = [] then false
  else
    match raw.dropSuffix? "-PERP".toList with
    | some stem => alphanumericText stem
    | none =>
      match splitOnce '_' raw with
      | some (base, quote) => alphanumericText base && alphanumericText quote
      | none => false

end CryptoCom

/-! ## `upbit` (lines 880–932) -/

namespace Upbit

/-- `to_exchange` (lines 894–902): the quote stands first. -/
def toExchange (sym : Symbol) : Except NormalizerError (List Char) :=
  if sym.base = [] ∨ sym.quote = [] then
    .error (.invalidFormat .upbit (sym.base ++ '/' :: sym.quote))
  else .ok (U.toUppercase sym.quote ++ '-' :: U.toUppercase sym.base)

/-- `from_exchange` (lines 908–918). -/
def fromExchange (raw : List Char) : Except NormalizerError Symbol :=
  symbolOf U .upbit raw ((splitNonempty '-' raw).map Prod.swap)

/-- `is_valid_for` (lines 921–931). -/
def isValidFor (raw : List Char) : Bool :=
  match splitOnce '-' raw with
  | some (quote, base) =>
    !quote.isEmpty && !base.isEmpty && quote.all Char.isAlphanum && base.all Char.isAlphanum
  | none => false

end Upbit

/-! ## `bitfinex` (lines 934–1044) -/

namespace Bitfinex

/-- `KNOWN_QUOTES` (lines 1000–1003). -/
def knownQuotes : List (List Char) :=
  listed ["USDT", "USDC", "BUSD", "TUSD", "USDP", "BTC", "ETH", "EUR", "GBP", "USD"]

/-- The number of bytes of a text, which is what `str::len` counts. -/
def byteLen (s : List Char) : ℕ := (s.map Char.utf8Size).sum

/-- `&pair[..n]` and `&pair[n..]`: `none` when `n` is off a character boundary, where the slice
    panics. -/
def sliceAt (n : ℕ) (s : List Char) : Option (List Char × List Char) :=
  ((List.range (s.length + 1)).find? fun k => byteLen (s.take k) = n).map fun k =>
    (s.take k, s.drop k)

/-- `to_exchange` (lines 945–967). -/
def toExchange (sym : Symbol) (accountType : AccountType) : Except NormalizerError (List Char) :=
  if sym.base = [] then .error (.invalidFormat .bitfinex (sym.base ++ '/' :: sym.quote))
  else if accountType = .lending then .ok ('f' :: U.toUppercase sym.base)
  else
    let base := U.toUppercase sym.base
    let quote := U.toUppercase sym.quote
    if 3 < byteLen base ∨ 3 < byteLen quote then .ok ('t' :: (base ++ ':' :: quote))
    else .ok ('t' :: (base ++ quote))

/-- A pair without a usable colon (lines 998–1019); `none` is the panic of the slice. -/
def fromPair (raw pair : List Char) : Option (Except NormalizerError Symbol) :=
  match splitBySuffix knownQuotes pair with
  | some (base, quote) => some (.ok (Symbol.new U base quote))
  | none =>
    if byteLen pair = 6 then (sliceAt 3 pair).map fun p => .ok (Symbol.new U p.1 p.2)
    else some (.error (.invalidFormat .bitfinex raw))

/-- `from_exchange` on a trading pair (lines 982–1020). -/
def fromTrading (raw : List Char) : Option (Except NormalizerError Symbol) :=
  match raw.dropPrefix? "t".toList with
  | some pair =>
    if pair = [] then some (.error (.invalidFormat .bitfinex raw))
    else
      match splitNonempty ':' pair with
      | some (base, quote) => some (.ok (Symbol.new U base quote))
      | none => fromPair U raw pair
  | none => some (.error (.invalidFormat .bitfinex raw))

/-- `from_exchange` (lines 974–1028). -/
def fromExchange (raw : List Char) : Option (Except NormalizerError Symbol) :=
  match raw.dropPrefix? "f".toList with
  | some currency =>
    if alphanumericText currency then some (.ok (Symbol.new U currency []))
    else fromTrading U raw
  | none => fromTrading U raw

/-- `is_valid_for` (lines 1032–1043). -/
def isValidFor : List Char → Bool
  | [] => false
  | first :: rest =>
    if first = 't' ∨ first = 'f' then
      !rest.isEmpty && rest.all fun c => c.isUpper || c.isDigit || c == ':'
    else false

end Bitfinex

/-! ## `bitstamp` (lines 1046–1095) -/

namespace Bitstamp

/-- `QUOTE_SUFFIXES` (line 1053). -/
def quoteSuffixes : List (List Char) :=
  listed ["usdt", "usdc", "eur", "gbp", "pax", "usd", "btc", "eth"]

/-- `to_exchange` (lines 1059–1069). -/
def toExchange (sym : Symbol) (accountType : AccountType) : Except NormalizerError (List Char) :=
  match accountType with
  | .spot | .margin => .ok (U.toLowercase sym.base ++ U.toLowercase sym.quote)
  | other => .error (.unsupportedAccountType .bitstamp other)

/-- `from_exchange` (lines 1075–1089). -/
def fromExchange (raw : List Char) : Except NormalizerError Symbol :=
  symbolOf U .bitstamp raw
    ((splitBySuffix quoteSuffixes (U.toLowercase raw)).map fun p =>
      (U.toUppercase p.1, U.toUppercase p.2))

/-- `is_valid_for` (lines 1092–1094). -/
def isValidFor (raw : List Char) : Bool := lowercaseText raw

end Bitstamp

/-! ## `deribit` (lines 1097–1171) -/

namespace Deribit

/-- `MONTHS` (lines 1164–1167). -/
def months : List (List Char) :=
  listed ["JAN", "FEB", "MAR", "APR", "MAY", "JUN", "JUL", "AUG", "SEP", "OCT", "NOV", "DEC"]

/-- `is_month_prefix` (lines 1163–1170). -/
def isMonthPrefix (s : List Char) : Bool :=
  months.any fun month => month.isPrefixOf (U.toUppercase s)

/-- A second part that is an expiry and no quote (lines 1140–1142). -/
def isExpiry (second : List Char) : Bool :=
  (second.head?.elim false Char.isDigit) || isMonthPrefix U second

/-- The message of an option without an instrument (line 1108). -/
def requiresInstrument : List Char :=
  ("Deribit options require concrete instrument_name like BTC-30MAY26-50000-C" ++
    "                       use Symbol::with_raw(base, quote, instrument)").toList

/-- `to_exchange` (lines 1100–1121). -/
def toExchange (sym : Symbol) (accountType : AccountType) : Except NormalizerError (List Char) :=
  match sym.raw with
  | some r => .ok r
  | none =>
    let base := U.toUppercase sym.base
    let quote := U.toUppercase sym.quote
    match accountType with
    | .options => .error (.requiresRawInstrument requiresInstrument)
    | .spot => .ok (base ++ '-' :: quote)
    | .futuresCross | .futuresIsolated | .margin =>
      if quote = [] ∨ quote = "USD".toList ∨ quote = "PERP".toList then
        .ok (base ++ "-PERPETUAL".toList)
      else if quote = "USDC".toList then .ok (base ++ "_USDC-PERPETUAL".toList)
      else if quote = "USDT".toList then .ok (base ++ "_USDT-PERPETUAL".toList)
      else .ok (base ++ '-' :: quote)
    | _ => .ok (base ++ '-' :: quote)

/-- `from_exchange` (lines 1123–1154). -/
def fromExchange (raw : List Char) : Except NormalizerError Symbol :=
  if raw = [] then .error (.invalidFormat .deribit raw)
  else
    match raw.dropSuffix? "-PERPETUAL".toList with
    | some pair =>
      match splitOnce '_' pair with
      | some (base, quote) => .ok (Symbol.withRaw U base quote raw)
      | none => .ok (Symbol.withRaw U pair "USD".toList raw)
    | none =>
      match splitN '-' 4 raw with
      | [base, _, _, _] => .ok (Symbol.withRaw U base "USD".toList raw)
      | [base, second] =>
        if isExpiry U second then .ok (Symbol.withRaw U base "USD".toList raw)
        else .ok (Symbol.new U base second)
      | _ => .error (.invalidFormat .deribit raw)

/-- `is_valid_for` (lines 1156–1161). -/
def isValidFor (raw : List Char) : Bool :=
  !raw.isEmpty && (raw.contains '-' || raw.contains '_') &&
    (raw.all fun c => c.isAlphanum || c == '-' || c == '_') &&
    raw.head?.elim false Char.isUpper

end Deribit

/-! ## `hyperliquid` (lines 1173–1213) -/

namespace HyperLiquid

/-- `to_exchange` (lines 1181–1189). -/
def toExchange (sym : Symbol) : Except NormalizerError (List Char) :=
  if sym.base = [] then .error (.invalidFormat .hyperLiquid sym.base)
  else .ok (U.toUppercase sym.base)

/-- `from_exchange` (lines 1196–1207). -/
def fromExchange (raw : List Char) : Except NormalizerError Symbol :=
  if raw = [] then .error (.invalidFormat .hyperLiquid raw)
  else
    let base := (raw.dropSuffix? "-PERP".toList).getD raw
    .ok (Symbol.new U (U.toUppercase base) "USD".toList)

/-- `is_valid_for` (lines 1210–1212). -/
def isValidFor (raw : List Char) : Bool := alphanumericText raw

end HyperLiquid

/-! ## `dydx` (lines 1215–1255) -/

namespace Dydx

/-- `to_exchange` (lines 1224–1234). -/
def toExchange (sym : Symbol) : Except NormalizerError (List Char) :=
  let base := U.toUppercase sym.base
  if base = [] then .error (.invalidFormat .dydx (sym.base ++ '/' :: sym.quote))
  else .ok (base ++ "-USD".toList)

/-- `from_exchange` (lines 1237–1245). -/
def fromExchange (raw : List Char) : Except NormalizerError Symbol :=
  symbolOf U .dydx raw (splitOnce '-' raw)

/-- `is_valid_for` (lines 1248–1254). -/
def isValidFor (raw : List Char) : Bool := (splitNonempty '-' raw).isSome

end Dydx

/-! ## `lighter` (lines 1257–1285) -/

namespace Lighter

/-- `to_exchange` (lines 1264–1272). -/
def toExchange (sym : Symbol) : Except NormalizerError (List Char) :=
  if sym.base = [] then .error (.invalidFormat .lighter sym.base)
  else .ok (U.toUppercase sym.base)

/-- `from_exchange` (lines 1273–1281). -/
def fromExchange (raw : List Char) : Except NormalizerError Symbol :=
  if raw = [] then .error (.invalidFormat .lighter raw) else .ok (Symbol.new U raw [])

/-- `is_valid_for` (lines 1282–1284). -/
def isValidFor (raw : List Char) : Bool := !raw.isEmpty

end Lighter

/-! ## `polymarket` (lines 1287–1319) -/

namespace Polymarket

/-- `to_exchange` (lines 1293–1301). -/
def toExchange (sym : Symbol) : Except NormalizerError (List Char) :=
  if sym.base = [] then .error (.invalidFormat .polymarket sym.base)
  else .ok (U.toLowercase sym.base)

/-- `from_exchange` (lines 1305–1313). -/
def fromExchange (raw : List Char) : Except NormalizerError Symbol :=
  if raw = [] then .error (.invalidFormat .polymarket raw) else .ok ⟨raw, [], none⟩

/-- `is_valid_for` (lines 1316–1318). -/
def isValidFor (raw : List Char) : Bool := !raw.isEmpty

end Polymarket

/-! ## `moex` (lines 1321–1362) -/

namespace Moex

/-- `to_exchange` (lines 1332–1341). -/
def toExchange (sym : Symbol) : Except NormalizerError (List Char) :=
  let base := U.toUppercase sym.base
  if base = [] then .error (.invalidFormat .moex (sym.base ++ '/' :: sym.quote)) else .ok base

/-- `from_exchange` (lines 1346–1354). -/
def fromExchange (raw : List Char) : Except NormalizerError Symbol :=
  if raw = [] then .error (.invalidFormat .moex raw)
  else .ok (Symbol.new U (U.toUppercase raw) "RUB".toList)

/-- `is_valid_for` (lines 1359–1361). -/
def isValidFor (raw : List Char) : Bool := alphanumericText raw

end Moex

/-! ## `cryptocompare` (lines 1364–1395) -/

namespace CryptoCompare

/-- `to_exchange` (lines 1372–1382). -/
def toExchange (sym : Symbol) : Except NormalizerError (List Char) :=
  let base := U.toUppercase sym.base
  let quote := U.toUppercase sym.quote
  if base = [] ∨ quote = [] then
    .error (.invalidFormat .cryptoCompare (sym.base ++ '/' :: sym.quote))
  else .ok (base ++ '-' :: quote)

/-- `from_exchange` (lines 1383–1391). -/
def fromExchange (raw : List Char) : Except NormalizerError Symbol :=
  symbolOf U .cryptoCompare raw (splitNonempty '-' raw)

/-- `is_valid_for` (lines 1392–1394). -/
def isValidFor (raw : List Char) : Bool := (splitNonempty '-' raw).isSome

end CryptoCompare

/-! ## Dispatch -/

/-- `to_exchange` (lines 53–84). -/
def toExchange (id : ExchangeId) (sym : Symbol) (accountType : AccountType) :
    Except NormalizerError (List Char) :=
  match id with
  | .binance => Binance.toExchange U sym accountType
  | .bybit => Bybit.toExchange U sym
  | .okx => Okx.toExchange U sym accountType
  | .kuCoin => KuCoin.toExchange U sym accountType
  | .kraken => Kraken.toExchange U sym accountType
  | .coinbase => Coinbase.toExchange U sym accountType
  | ExchangeId.gateIO => GateIo.toExchange U sym
  | .gemini => Gemini.toExchange U sym accountType
  | .mexc => Mexc.toExchange U sym accountType
  | .htx => Htx.toExchange U sym accountType
  | .bitget => Bitget.toExchange U sym
  | .bingX => BingX.toExchange U sym
  | .cryptoCom => CryptoCom.toExchange U sym accountType
  | .upbit => Upbit.toExchange U sym
  | .bitfinex => Bitfinex.toExchange U sym accountType
  | .bitstamp => Bitstamp.toExchange U sym accountType
  | .deribit => Deribit.toExchange U sym accountType
  | .hyperLiquid => HyperLiquid.toExchange U sym
  | .dydx => Dydx.toExchange U sym
  | .lighter => Lighter.toExchange U sym
  | .polymarket => Polymarket.toExchange U sym
  | .moex => Moex.toExchange U sym
  | .cryptoCompare => CryptoCompare.toExchange U sym
  | other => .error (.unknownExchange other)

/-- `from_exchange` (lines 90–121); `none` is a panic. -/
def fromExchange (id : ExchangeId) (raw : List Char) (accountType : AccountType) :
    Option (Except NormalizerError Symbol) :=
  match id with
  | .binance => some (Binance.fromExchange U raw)
  | .bybit => some (Bybit.fromExchange U raw)
  | .okx => some (Okx.fromExchange U raw)
  | .kuCoin => some (KuCoin.fromExchange U raw accountType)
  | .kraken => some (Kraken.fromExchange U raw)
  | .coinbase => some (Coinbase.fromExchange U raw)
  | ExchangeId.gateIO => some (GateIo.fromExchange U raw)
  | .gemini => some (Gemini.fromExchange U raw)
  | .mexc => some (Mexc.fromExchange U raw)
  | .htx => some (Htx.fromExchange U raw accountType)
  | .bitget => some (Bitget.fromExchange U raw)
  | .bingX => some (BingX.fromExchange U raw)
  | .cryptoCom => some (CryptoCom.fromExchange U raw)
  | .upbit => some (Upbit.fromExchange U raw)
  | .bitfinex => Bitfinex.fromExchange U raw
  | .bitstamp => some (Bitstamp.fromExchange U raw)
  | .deribit => some (Deribit.fromExchange U raw)
  | .hyperLiquid => some (HyperLiquid.fromExchange U raw)
  | .dydx => some (Dydx.fromExchange U raw)
  | .lighter => some (Lighter.fromExchange U raw)
  | .polymarket => some (Polymarket.fromExchange raw)
  | .moex => some (Moex.fromExchange U raw)
  | .cryptoCompare => some (CryptoCompare.fromExchange U raw)
  | other => some (.error (.unknownExchange other))

/-- `is_valid_for` (lines 127–154). -/
def isValidFor (id : ExchangeId) (raw : List Char) (accountType : AccountType) : Bool :=
  match id with
  | .binance => Binance.isValidFor raw
  | .bybit => Bybit.isValidFor raw
  | .okx => Okx.isValidFor raw
  | .kuCoin => KuCoin.isValidFor raw
  | .kraken => Kraken.isValidFor raw
  | .coinbase => Coinbase.isValidFor raw
  | ExchangeId.gateIO => GateIo.isValidFor U raw
  | .gemini => Gemini.isValidFor raw
  | .mexc => Mexc.isValidFor raw accountType
  | .htx => Htx.isValidFor U raw accountType
  | .bitget => Bitget.isValidFor raw
  | .bingX => BingX.isValidFor raw
  | .cryptoCom => CryptoCom.isValidFor raw
  | .upbit => Upbit.isValidFor raw
  | .bitfinex => Bitfinex.isValidFor raw
  | .bitstamp => Bitstamp.isValidFor raw
  | .deribit => Deribit.isValidFor raw
  | .hyperLiquid => HyperLiquid.isValidFor raw
  | .dydx => Dydx.isValidFor raw
  | .lighter => Lighter.isValidFor raw
  | .polymarket => Polymarket.isValidFor raw
  | .moex => Moex.isValidFor raw
  | .cryptoCompare => CryptoCompare.isValidFor raw
  | _ => false

end SymbolNormalizer

end Digdigdig3
