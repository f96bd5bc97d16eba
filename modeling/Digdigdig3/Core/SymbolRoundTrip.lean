import Digdigdig3.Core.SymbolNormalizer

/-!
# Symbols that survive the way to an exchange and back

* `symbol_roundTrips_iff`: for which tickers `from_exchange` finds the symbol that `to_exchange`
  has written.
-/

namespace Digdigdig3.SymbolNormalizer

variable {U : Unicode}

/-! ## Tickers -/

/-- An upper-case ASCII letter or a digit. -/
def isTickerChar (c : Char) : Bool := c.isUpper || c.isDigit

/-- A non-empty upper-case ASCII alphanumeric text. -/
structure Ticker (s : List Char) : Prop where
  ne_nil : s ≠ []
  chars : ∀ c ∈ s, isTickerChar c = true

instance (s : List Char) : Decidable (Ticker s) :=
  decidable_of_iff (s ≠ [] ∧ s.all isTickerChar = true)
    ⟨fun h => ⟨h.1, List.all_eq_true.mp h.2⟩, fun h => ⟨h.ne_nil, List.all_eq_true.mpr h.chars⟩⟩

/-- ASCII, and no lower-case letter. -/
def isShouted (c : Char) : Bool := c.val < 128 && !c.isLower

theorem forall_ascii {P : Char → Prop} (h : ∀ n < 128, P (Char.ofNat n)) {c : Char}
    (hc : c.val < 128) : P c := by
  have hn : c.toNat < 128 := hc
  have := h c.toNat hn
  rwa [Char.ofNat_toNat] at this

theorem ascii_of_isTickerChar {c : Char} (h : isTickerChar c = true) : c.val < 128 := by
  have hZ : 'Z'.val.toNat = 90 := rfl
  have h9 : '9'.val.toNat = 57 := rfl
  have h128 : (128 : UInt32).toNat = 128 := rfl
  rw [UInt32.lt_iff_toNat_lt]
  rcases Bool.or_eq_true_iff.mp h with hupper | hdigit
  · have hle : c.val ≤ 'Z'.val := (of_decide_eq_true hupper).2
    rw [UInt32.le_iff_toNat_le] at hle
    omega
  · have hle : c.val ≤ '9'.val := of_decide_eq_true (Bool.and_eq_true_iff.mp hdigit).2
    rw [UInt32.le_iff_toNat_le] at hle
    omega

/-- What holds of the ticker characters below 128 holds of all. -/
theorem forall_tickerChar {P : Char → Prop}
    (h : ∀ n < 128, isTickerChar (Char.ofNat n) = true → P (Char.ofNat n)) {c : Char}
    (hc : isTickerChar c = true) : P c :=
  forall_ascii (P := fun c => isTickerChar c = true → P c) h (ascii_of_isTickerChar hc) hc

theorem isShouted_of_isTickerChar {c : Char} (h : isTickerChar c = true) : isShouted c = true :=
  forall_tickerChar (P := fun c => isShouted c = true) (by decide) h

theorem isAlphanum_of_isTickerChar {c : Char} (h : isTickerChar c = true) :
    c.isAlphanum = true :=
  forall_tickerChar (P := fun c => c.isAlphanum = true) (by decide) h

theorem toUpper_toLower {c : Char} (h : isTickerChar c = true) : c.toLower.toUpper = c :=
  forall_tickerChar (P := fun c => c.toLower.toUpper = c) (by decide) h

theorem isLower_toLower {c : Char} (h : isTickerChar c = true) :
    (c.toLower.isLower || c.toLower.isDigit) = true :=
  forall_tickerChar (P := fun c => (c.toLower.isLower || c.toLower.isDigit) = true) (by decide) h

theorem toLower_toLower {c : Char} (h : isTickerChar c = true) : c.toLower.toLower = c.toLower :=
  forall_tickerChar (P := fun c => c.toLower.toLower = c.toLower) (by decide) h

theorem ascii_of_isShouted {c : Char} (h : isShouted c = true) : c.val < 128 := by
  simp only [isShouted, Bool.and_eq_true, decide_eq_true_eq] at h
  exact h.1

theorem toUpper_of_isShouted {c : Char} (h : isShouted c = true) : c.toUpper = c :=
  forall_ascii (P := fun c => isShouted c = true → c.toUpper = c) (by decide)
    (ascii_of_isShouted h) h

/-- Texts without lower-case letters are their own upper case. -/
theorem toUppercase_of_shouted {s : List Char} (h : s.all isShouted = true) :
    U.toUppercase s = s := by
  have h := List.all_eq_true.mp h
  have hascii : ∀ c ∈ s, c.val < 128 := fun c hc => ascii_of_isShouted (h c hc)
  rw [U.toUppercase_ascii s hascii, List.map_congr_left fun c hc => toUpper_of_isShouted (h c hc),
    List.map_id']

namespace Ticker

variable {s : List Char}

theorem shouted (h : Ticker s) : s.all isShouted = true :=
  List.all_eq_true.mpr fun c hc => isShouted_of_isTickerChar (h.chars c hc)

theorem toUppercase (h : Ticker s) : U.toUppercase s = s := toUppercase_of_shouted h.shouted

theorem toLowercase (h : Ticker s) : U.toLowercase s = s.map Char.toLower :=
  U.toLowercase_ascii s fun c hc => ascii_of_isTickerChar (h.chars c hc)

theorem append {t : List Char} (hs : Ticker s) (ht : Ticker t) : Ticker (s ++ t) where
  ne_nil := List.append_ne_nil_of_left_ne_nil hs.ne_nil t
  chars := List.forall_mem_append.mpr ⟨hs.chars, ht.chars⟩

theorem notMem (h : Ticker s) {c : Char} (hc : isTickerChar c = false) : c ∉ s := by
  intro hmem
  rw [h.chars c hmem] at hc
  exact absurd hc (by decide)

theorem all_alphanum (h : Ticker s) : s.all Char.isAlphanum = true :=
  List.all_eq_true.mpr fun c hc => isAlphanum_of_isTickerChar (h.chars c hc)

theorem all_of (h : Ticker s) {p : Char → Bool}
    (hp : ∀ c : Char, c.isAlphanum = true → p c = true) : s.all p = true :=
  List.all_eq_true.mpr fun c hc => hp c (isAlphanum_of_isTickerChar (h.chars c hc))

theorem isEmpty_eq (h : Ticker s) : s.isEmpty = false := by
  rw [List.isEmpty_eq_false_iff]
  exact h.ne_nil

theorem alphanumericText (h : Ticker s) : alphanumericText s = true := by
  rw [SymbolNormalizer.alphanumericText, h.isEmpty_eq, h.all_alphanum]
  rfl

theorem dropSuffix?_eq_none (h : Ticker s) {q : List Char} {c : Char} (hc : isTickerChar c = false)
    (hq : c ∈ q) : s.dropSuffix? q = none :=
  Digdigdig3.dropSuffix?_eq_none fun hsuffix => h.notMem hc (hsuffix.subset hq)

/-- Lower-casing keeps a ticker readable: it is its own lower case, and its upper case is the
    ticker. -/
theorem toLowercase_lower (h : Ticker s) :
    U.toLowercase (s.map Char.toLower) = s.map Char.toLower := by
  rw [U.toLowercase_ascii, List.map_map]
  · exact List.map_congr_left fun c hc => toLower_toLower (h.chars c hc)
  · intro c hc
    obtain ⟨d, hd, rfl⟩ := List.mem_map.mp hc
    exact forall_tickerChar (P := fun d => d.toLower.val < 128) (by decide) (h.chars d hd)

theorem toUppercase_lower (h : Ticker s) : U.toUppercase (s.map Char.toLower) = s := by
  rw [U.toUppercase_ascii, List.map_map]
  · exact (List.map_congr_left fun c hc => toUpper_toLower (h.chars c hc)).trans (List.map_id' s)
  · intro c hc
    obtain ⟨d, hd, rfl⟩ := List.mem_map.mp hc
    exact forall_tickerChar (P := fun d => d.toLower.val < 128) (by decide) (h.chars d hd)

theorem lowercaseText (h : Ticker s) : lowercaseText (s.map Char.toLower) = true := by
  have hall : (s.map Char.toLower).all (fun c => c.isLower || c.isDigit) = true := by
    rw [List.all_map, List.all_eq_true]
    exact fun c hc => isLower_toLower (h.chars c hc)
  rw [SymbolNormalizer.lowercaseText, hall, List.isEmpty_map, h.isEmpty_eq]
  rfl

end Ticker

/-! ## Reading back -/

/-- The symbol read back has this base and this quote. -/
def ReadsAs (result : Option (Except NormalizerError Symbol)) (base quote : List Char) : Prop :=
  ∃ back, result = some (.ok back) ∧ back.base = base ∧ back.quote = quote

/-- What is sent for a symbol is valid and is read back as the symbol. -/
def RoundTripsBy (sent : Except NormalizerError (List Char))
    (read : List Char → Option (Except NormalizerError Symbol)) (valid : List Char → Bool)
    (sym : Symbol) : Prop :=
  ∀ raw, sent = .ok raw → valid raw = true ∧ ReadsAs (read raw) sym.base sym.quote

/-- What `to_exchange` returns is valid and is read back as the symbol. -/
def RoundTrips (U : Unicode) (id : ExchangeId) (accountType : AccountType) (sym : Symbol) : Prop :=
  RoundTripsBy (toExchange U id sym accountType) (fun raw => fromExchange U id raw accountType)
    (fun raw => isValidFor U id raw accountType) sym

variable {id : ExchangeId} {accountType : AccountType} {sym : Symbol} {base quote : List Char}

section

variable {sent : Except NormalizerError (List Char)}
  {read : List Char → Option (Except NormalizerError Symbol)} {valid : List Char → Bool}

theorem roundTrips_of_ok {raw : List Char} (h : sent = .ok raw) :
    RoundTripsBy sent read valid sym ↔
      valid raw = true ∧ ReadsAs (read raw) sym.base sym.quote := by
  simp only [RoundTripsBy, h, Except.ok.injEq, forall_eq']

theorem roundTrips_of_error {e : NormalizerError} (h : sent = .error e) :
    RoundTripsBy sent read valid sym := by
  intro raw hraw
  rw [h] at hraw
  cases hraw

end

theorem not_readsAs_error (e : NormalizerError) : ¬ReadsAs (some (.error e)) base quote := by
  rintro ⟨back, hback, -⟩
  cases hback

theorem readsAs_ok {back : Symbol} :
    ReadsAs (some (.ok back)) base quote ↔ back.base = base ∧ back.quote = quote := by
  constructor
  · rintro ⟨back', hback, h⟩
    cases hback
    exact h
  · exact fun h => ⟨back, rfl, h⟩

/-- The exchanges that drop the quote return a fixed one. -/
theorem readsAs_fixed (hbase : Ticker base) {q : List Char} (hq : Ticker q) :
    ReadsAs (some (.ok (Symbol.new U base q))) base quote ↔ quote = q := by
  rw [readsAs_ok, Symbol.new, hq.toUppercase]
  exact (and_iff_right hbase.toUppercase).trans eq_comm

theorem readsAs_symbolOf {raw : List Char} {parts : Option (List Char × List Char)} :
    ReadsAs (some (symbolOf U id raw parts)) base quote ↔
      ∃ b q, parts = some (b, q) ∧ U.toUppercase b = base ∧ U.toUppercase q = quote := by
  cases parts with
  | none =>
    refine ⟨fun h => absurd h (not_readsAs_error _), ?_⟩
    rintro ⟨b, q, h, -⟩
    cases h
  | some p =>
    rw [symbolOf, readsAs_ok]
    constructor
    · exact fun h => ⟨p.1, p.2, rfl, h⟩
    · rintro ⟨b, q, h, hread⟩
      cases h
      exact hread

/-- The two fields of a text with a separator are read back. -/
theorem readsAs_splitOnce (hbase : Ticker base) (hquote : Ticker quote) {sep : Char}
    (hsep : isTickerChar sep = false) {raw : List Char} :
    ReadsAs (some (symbolOf U id raw (splitOnce sep (base ++ sep :: quote)))) base quote :=
  readsAs_symbolOf.mpr
    ⟨base, quote, splitOnce_append (hbase.notMem hsep) quote, hbase.toUppercase,
      hquote.toUppercase⟩

theorem splitNonempty_append (hbase : Ticker base) (hquote : Ticker quote) {sep : Char}
    (hsep : isTickerChar sep = false) :
    splitNonempty sep (base ++ sep :: quote) = some (base, quote) := by
  rw [splitNonempty, splitOnce_append (hbase.notMem hsep)]
  exact if_pos ⟨hbase.ne_nil, hquote.ne_nil⟩

theorem readsAs_splitNonempty (hbase : Ticker base) (hquote : Ticker quote) {sep : Char}
    (hsep : isTickerChar sep = false) {raw : List Char} :
    ReadsAs (some (symbolOf U id raw (splitNonempty sep (base ++ sep :: quote)))) base quote :=
  readsAs_symbolOf.mpr
    ⟨base, quote, splitNonempty_append hbase hquote hsep, hbase.toUppercase, hquote.toUppercase⟩

/-- A concatenation is read back just when its quote is listed and no earlier one ends it. -/
theorem readsAs_splitBySuffix_iff {quotes : List (List Char)}
    (hquotes : ∀ q ∈ quotes, q.all isShouted = true) (hbase : Ticker base) {raw : List Char} :
    ReadsAs (some (symbolOf U id raw (splitBySuffix quotes (base ++ quote)))) base quote ↔
      Unambiguous quotes base quote := by
  rw [readsAs_symbolOf, ← splitBySuffix_append_iff quotes hbase.ne_nil quote]
  constructor
  · rintro ⟨b, q, hsplit, hb, hq⟩
    obtain ⟨hmem, happend, -⟩ := splitBySuffix_sound hsplit
    rw [toUppercase_of_shouted (hquotes q hmem)] at hq
    subst hq
    rw [hsplit, List.append_cancel_right happend]
  · intro h
    obtain ⟨hmem, -, -⟩ := splitBySuffix_sound h
    exact ⟨base, quote, h, hbase.toUppercase, toUppercase_of_shouted (hquotes quote hmem)⟩

/-- The same for the exchanges that write in lower case. -/
theorem readsAs_splitBySuffix_lower_iff {quotes : List (List Char)}
    (hquotes : ∀ q ∈ quotes, Ticker (q.map Char.toUpper) ∧
      (q.map Char.toUpper).map Char.toLower = q)
    (hbase : Ticker base) (hquote : Ticker quote) {raw : List Char} :
    ReadsAs (some (symbolOf U id raw
        ((splitBySuffix quotes (base.map Char.toLower ++ quote.map Char.toLower)).map fun p =>
          (U.toUppercase p.1, U.toUppercase p.2)))) base quote ↔
      Unambiguous quotes (base.map Char.toLower) (quote.map Char.toLower) := by
  have hne : base.map Char.toLower ≠ [] := fun h => hbase.ne_nil (List.map_eq_nil_iff.mp h)
  rw [readsAs_symbolOf, ← splitBySuffix_append_iff quotes hne]
  constructor
  · rintro ⟨b, q, hsplit, hb, hq⟩
    obtain ⟨⟨b', q'⟩, hparts, heq⟩ := Option.map_eq_some_iff.mp hsplit
    simp only [Prod.mk.injEq] at heq
    obtain ⟨rfl, rfl⟩ := heq
    obtain ⟨hmem, happend, -⟩ := splitBySuffix_sound hparts
    obtain ⟨hticker, hlower⟩ := hquotes q' hmem
    have hq' : q' = quote.map Char.toLower := by
      rw [← hq, ← hlower, hticker.toUppercase_lower, hticker.toUppercase]
    subst hq'
    rw [hparts, List.append_cancel_right happend]
  · intro h
    refine ⟨base, quote, ?_, hbase.toUppercase, hquote.toUppercase⟩
    rw [h, Option.map_some, hbase.toUppercase_lower, hquote.toUppercase_lower]

/-! ## The exchanges that concatenate -/

/-- `FuturesCross` or `FuturesIsolated`. -/
def futures : AccountType → Bool
  | .futuresCross | .futuresIsolated => true
  | _ => false

/-- `Spot` or `Margin`. -/
def spotOrMargin : AccountType → Bool
  | .spot | .margin => true
  | _ => false

variable (hbase : Ticker sym.base) (hquote : Ticker sym.quote)
include hbase hquote

theorem binance_roundTrips_iff : RoundTripsBy (Binance.toExchange U sym accountType)
    (fun raw => some (Binance.fromExchange U raw)) Binance.isValidFor sym ↔
    if accountType = .options then sym.quote = "USD".toList
    else Unambiguous Binance.quoteSuffixes sym.base sym.quote := by
  split_ifs with ha
  · have hok : Binance.toExchange U sym accountType = .ok (sym.base ++ "USD_PERP".toList) := by
      rw [ha, Binance.toExchange, hbase.toUppercase]
    have hshout : (sym.base ++ "USD_PERP".toList).all isShouted = true := by
      rw [List.all_append, hbase.shouted]
      rfl
    have hsplit : sym.base ++ "USD_PERP".toList =
        sym.base ++ "USD".toList ++ "_PERP".toList := by
      rw [List.append_assoc]
      rfl
    rw [roundTrips_of_ok hok, Binance.fromExchange, toUppercase_of_shouted hshout,
      hsplit, dropSuffix?_append]
    simp only [dropSuffix?_append]
    have hvalid : Binance.isValidFor (sym.base ++ "USD".toList ++ "_PERP".toList) = true := by
      rw [Binance.isValidFor, ← hsplit, Bool.and_eq_true, List.all_append,
        Bool.and_eq_true]
      exact ⟨by simp [hbase.ne_nil], hbase.all_of fun c hc => by simp [hc], by decide⟩
    rw [and_iff_right hvalid, readsAs_fixed hbase (by decide)]
  · have hpair := hbase.append hquote
    have hok : Binance.toExchange U sym accountType = .ok (sym.base ++ sym.quote) := by
      cases accountType <;>
        simp_all [Binance.toExchange, hbase.toUppercase, hquote.toUppercase]
    have hunderscore : Binance.beforeLastUnderscore (sym.base ++ sym.quote) = none := by
      rw [Binance.beforeLastUnderscore, splitOnce_of_notMem, Option.map_none]
      rw [List.mem_reverse]
      exact hpair.notMem (by decide)
    rw [roundTrips_of_ok hok, Binance.fromExchange, hpair.toUppercase,
      hpair.dropSuffix?_eq_none (c := '_') (by decide) (by decide), hunderscore]
    simp only [Option.bind_none]
    rw [readsAs_splitBySuffix_iff (by decide) hbase]
    refine and_iff_right ?_
    rw [Binance.isValidFor, hpair.isEmpty_eq, Bool.not_false, Bool.true_and]
    exact hpair.all_of fun c hc => by simp [hc]

theorem bybit_roundTrips_iff : RoundTripsBy (Bybit.toExchange U sym)
    (fun raw => some (Bybit.fromExchange U raw)) Bybit.isValidFor sym ↔
    Unambiguous Bybit.quoteSuffixes sym.base sym.quote := by
  have hpair := hbase.append hquote
  have hok : Bybit.toExchange U sym = .ok (sym.base ++ sym.quote) := by
    rw [Bybit.toExchange, if_neg (by simp [hbase.ne_nil, hquote.ne_nil]),
      hbase.toUppercase, hquote.toUppercase]
  rw [roundTrips_of_ok hok, Bybit.fromExchange, hpair.toUppercase,
    readsAs_splitBySuffix_iff (by decide) hbase]
  exact and_iff_right hpair.alphanumericText

theorem bitget_roundTrips_iff : RoundTripsBy (Bitget.toExchange U sym)
    (fun raw => some (Bitget.fromExchange U raw)) Bitget.isValidFor sym ↔
    Unambiguous Bitget.knownQuotes sym.base sym.quote := by
  have hpair := hbase.append hquote
  have hok : Bitget.toExchange U sym = .ok (sym.base ++ sym.quote) := by
    rw [Bitget.toExchange, hbase.toUppercase, hquote.toUppercase]
  rw [roundTrips_of_ok hok, Bitget.fromExchange, hpair.toUppercase,
    readsAs_splitBySuffix_iff (by decide) hbase]
  exact and_iff_right hpair.alphanumericText

theorem mexc_roundTrips_iff : RoundTripsBy (Mexc.toExchange U sym accountType)
    (fun raw => some (Mexc.fromExchange U raw)) (fun raw => Mexc.isValidFor raw accountType) sym ↔
    (spotOrMargin accountType = true → Unambiguous Mexc.quotes sym.base sym.quote) := by
  have hpair := hbase.append hquote
  by_cases hspot : spotOrMargin accountType = true
  · have hok : Mexc.toExchange U sym accountType = .ok (sym.base ++ sym.quote) := by
      cases accountType <;>
        simp_all [Mexc.toExchange, spotOrMargin, hbase.toUppercase, hquote.toUppercase]
    have hvalid : Mexc.isValidFor (sym.base ++ sym.quote) accountType = true := by
      cases accountType <;> first
        | exact absurd hspot (by decide)
        | simp only [Mexc.isValidFor, if_neg hpair.ne_nil, hpair.all_alphanum]
    rw [roundTrips_of_ok hok, and_iff_right hvalid, Mexc.fromExchange,
      splitOnce_of_notMem (hpair.notMem (by decide))]
    simp only [hspot, forall_const]
    exact readsAs_splitBySuffix_iff (by decide) hbase
  · refine iff_of_true ?_ fun h => absurd h hspot
    by_cases hfutures : futures accountType = true
    · have hok : Mexc.toExchange U sym accountType = .ok (sym.base ++ '_' :: sym.quote) := by
        cases accountType <;>
          simp_all [Mexc.toExchange, futures, hbase.toUppercase, hquote.toUppercase]
      have hsplit : splitOnce '_' (sym.base ++ '_' :: sym.quote) = some (sym.base, sym.quote) :=
        splitOnce_append (hbase.notMem (by decide)) sym.quote
      refine (roundTrips_of_ok hok).mpr ⟨?_, ?_⟩
      · have hne : sym.base ++ '_' :: sym.quote ≠ [] := by simp
        have hunderscore : sym.quote.contains '_' = false := by
          simpa using hquote.notMem (c := '_') (by decide)
        cases accountType <;> first
          | exact absurd hfutures (by decide)
          | simp only [Mexc.isValidFor, if_neg hne, hsplit, hbase.isEmpty_eq,
              hquote.isEmpty_eq, hunderscore, hbase.all_alphanum, hquote.all_alphanum,
              Bool.not_false, Bool.and_self]
      · rw [Mexc.fromExchange, hsplit]
        exact readsAs_ok.mpr ⟨hbase.toUppercase, hquote.toUppercase⟩
    · refine roundTrips_of_error (e := .unsupportedAccountType .mexc accountType) ?_
      cases accountType <;> first | rfl | exact absurd rfl hspot | exact absurd rfl hfutures

theorem gemini_roundTrips_iff : RoundTripsBy (Gemini.toExchange U sym accountType)
    (fun raw => some (Gemini.fromExchange U raw)) Gemini.isValidFor sym ↔
    if futures accountType = true then sym.quote = "USD".toList
    else Unambiguous Gemini.quoteSuffixes (sym.base.map Char.toLower)
      (sym.quote.map Char.toLower) := by
  split_ifs with hfutures
  · have hperp : Ticker "GUSDPERP".toList := by decide
    have hlong := hbase.append hperp
    have hlower : sym.base.map Char.toLower ++ "gusdperp".toList =
        (sym.base ++ "GUSDPERP".toList).map Char.toLower := by
      rw [List.map_append]
      rfl
    have hok : Gemini.toExchange U sym accountType =
        .ok (sym.base.map Char.toLower ++ "gusdperp".toList) := by
      cases accountType <;>
        simp_all [Gemini.toExchange, futures, hbase.toLowercase]
    have hsplit : sym.base.map Char.toLower ++ "gusdperp".toList =
        sym.base.map Char.toLower ++ "gusd".toList ++ "perp".toList := by
      rw [List.append_assoc]
      rfl
    have hvalid : Gemini.isValidFor (sym.base.map Char.toLower ++ "gusdperp".toList) = true := by
      rw [hlower]
      exact hlong.lowercaseText
    have hread : Gemini.fromExchange U (sym.base.map Char.toLower ++ "gusdperp".toList) =
        .ok (Symbol.new U sym.base "USD".toList) := by
      rw [Gemini.fromExchange, hlower, hlong.toLowercase_lower, ← hlower, hsplit,
        dropSuffix?_append]
      simp only [dropSuffix?_append, hbase.toUppercase_lower]
    rw [roundTrips_of_ok hok, and_iff_right hvalid, hread,
      readsAs_fixed hbase (by decide)]
  · have hpair := hbase.append hquote
    have hok : Gemini.toExchange U sym accountType =
        .ok (sym.base.map Char.toLower ++ sym.quote.map Char.toLower) := by
      cases accountType <;>
        simp_all [Gemini.toExchange, futures, hbase.toLowercase, hquote.toLowercase]
    have hlower : U.toLowercase (sym.base.map Char.toLower ++ sym.quote.map Char.toLower) =
        sym.base.map Char.toLower ++ sym.quote.map Char.toLower := by
      rw [← List.map_append, hpair.toLowercase_lower]
    have hvalid :
        Gemini.isValidFor (sym.base.map Char.toLower ++ sym.quote.map Char.toLower) = true := by
      rw [← List.map_append]
      exact hpair.lowercaseText
    rw [roundTrips_of_ok hok, and_iff_right hvalid, Gemini.fromExchange, hlower]
    have hlast : ∀ q, q.getLast? ≠ some 'p' → sym.quote.map Char.toLower = q →
        ¬"perp".toList <:+ sym.base.map Char.toLower ++ sym.quote.map Char.toLower := by
      rintro q hq rfl hperp
      obtain ⟨pre, hpre⟩ := hperp
      have hquoteNe : sym.quote.map Char.toLower ≠ [] :=
        fun h => hquote.ne_nil (List.map_eq_nil_iff.mp h)
      have hp := congrArg List.getLast? hpre
      rw [List.getLast?_append_of_ne_nil _ hquoteNe,
        List.getLast?_append_of_ne_nil _ (by decide)] at hp
      exact hq hp.symm
    by_cases hperp : "perp".toList <:+ sym.base.map Char.toLower ++ sym.quote.map Char.toLower
    · -- a spot pair that looks like a perpetual: no quote of the exchange ends so
      obtain ⟨pre, hpre⟩ := hperp
      rw [← hpre, dropSuffix?_append]
      refine iff_of_false (fun h => ?_) fun h => ?_
      · have husd := (readsAs_ok.mp h).2
        rw [Symbol.new, (by decide : Ticker "USD".toList).toUppercase] at husd
        exact hlast "usd".toList (by decide) (by rw [← husd]; rfl) ⟨pre, hpre⟩
      · exact hlast _ ((by decide : ∀ q ∈ Gemini.quoteSuffixes, q.getLast? ≠ some 'p') _ h.1) rfl
          ⟨pre, hpre⟩
    · rw [Digdigdig3.dropSuffix?_eq_none hperp]
      exact readsAs_splitBySuffix_lower_iff (by decide) hbase hquote

theorem bitstamp_roundTrips_iff : RoundTripsBy (Bitstamp.toExchange U sym accountType)
    (fun raw => some (Bitstamp.fromExchange U raw)) Bitstamp.isValidFor sym ↔
    (spotOrMargin accountType = true →
      Unambiguous Bitstamp.quoteSuffixes (sym.base.map Char.toLower)
        (sym.quote.map Char.toLower)) := by
  by_cases hspot : spotOrMargin accountType = true
  · have hpair := hbase.append hquote
    have hok : Bitstamp.toExchange U sym accountType =
        .ok (sym.base.map Char.toLower ++ sym.quote.map Char.toLower) := by
      cases accountType <;> first
        | exact absurd hspot (by decide)
        | simp only [Bitstamp.toExchange, hbase.toLowercase, hquote.toLowercase]
    have hlower : U.toLowercase (sym.base.map Char.toLower ++ sym.quote.map Char.toLower) =
        sym.base.map Char.toLower ++ sym.quote.map Char.toLower := by
      rw [← List.map_append, hpair.toLowercase_lower]
    have hvalid :
        Bitstamp.isValidFor (sym.base.map Char.toLower ++ sym.quote.map Char.toLower) = true := by
      rw [← List.map_append]
      exact hpair.lowercaseText
    rw [roundTrips_of_ok hok, and_iff_right hvalid, Bitstamp.fromExchange, hlower,
      readsAs_splitBySuffix_lower_iff (by decide) hbase hquote]
    simp only [hspot, forall_const]
  · refine iff_of_true ?_ fun h => absurd h hspot
    refine roundTrips_of_error (e := .unsupportedAccountType .bitstamp accountType) ?_
    cases accountType <;> first | rfl | exact absurd rfl hspot

/-! ## The exchanges with a separator -/

theorem okx_roundTrips : RoundTripsBy (Okx.toExchange U sym accountType)
    (fun raw => some (Okx.fromExchange U raw)) Okx.isValidFor sym := by
  have hdash : isTickerChar '-' = false := by decide
  -- a perpetual has a third part, which is not read
  obtain ⟨rest, hok, hsplit⟩ : ∃ rest,
      Okx.toExchange U sym accountType = .ok (sym.base ++ '-' :: (sym.quote ++ rest)) ∧
        ∃ parts, split '-' (sym.quote ++ rest) = sym.quote :: parts := by
    by_cases hfutures : futures accountType = true
    · refine ⟨"-SWAP".toList, ?_, _, split_append (hquote.notMem hdash) _⟩
      cases accountType <;> first
        | exact absurd hfutures (by decide)
        | simp only [Okx.toExchange, hbase.toUppercase, hquote.toUppercase]
    · refine ⟨[], ?_, [], ?_⟩
      · cases accountType <;> first
          | exact absurd rfl hfutures
          | simp only [Okx.toExchange, hbase.toUppercase, hquote.toUppercase,
              List.append_nil]
      · rw [List.append_nil, split_of_notMem (hquote.notMem hdash)]
  obtain ⟨parts, hparts⟩ := hsplit
  refine (roundTrips_of_ok hok).mpr ⟨?_, ?_⟩
  · simp [Okx.isValidFor]
  · rw [Okx.fromExchange, split_append (hbase.notMem hdash), hparts]
    simp only [hbase.ne_nil, hquote.ne_nil, or_self, if_false]
    exact readsAs_ok.mpr ⟨hbase.toUppercase, hquote.toUppercase⟩

theorem coinbase_roundTrips_iff : RoundTripsBy (Coinbase.toExchange U sym accountType)
    (fun raw => some (Coinbase.fromExchange U raw)) Coinbase.isValidFor sym ↔
    (futures accountType = true → sym.quote = "PERP".toList) := by
  have hvalid : ∀ {q : List Char}, Ticker q →
      Coinbase.isValidFor (sym.base ++ '-' :: q) = true := by
    intro q hq
    rw [Coinbase.isValidFor, splitNonempty_append hbase hq (by decide)]
    rfl
  have hread : ∀ {q : List Char}, Ticker q →
      Coinbase.fromExchange U (sym.base ++ '-' :: q) = .ok (Symbol.new U sym.base q) := by
    intro q hq
    rw [Coinbase.fromExchange, splitNonempty_append hbase hq (by decide)]
    rfl
  by_cases hfutures : futures accountType = true
  · have hok : Coinbase.toExchange U sym accountType = .ok (sym.base ++ '-' :: "PERP".toList) := by
      cases accountType <;> first
        | exact absurd hfutures (by decide)
        | (simp only [Coinbase.toExchange, hbase.toUppercase]; rfl)
    rw [roundTrips_of_ok hok, and_iff_right (hvalid (by decide)), hread (by decide),
      readsAs_fixed hbase (by decide)]
    simp only [hfutures, forall_const]
  · have hok : Coinbase.toExchange U sym accountType = .ok (sym.base ++ '-' :: sym.quote) := by
      cases accountType <;> first
        | exact absurd rfl hfutures
        | simp only [Coinbase.toExchange, hbase.toUppercase, hquote.toUppercase]
    refine iff_of_true ((roundTrips_of_ok hok).mpr ⟨hvalid hquote, ?_⟩) fun h => absurd h hfutures
    rw [hread hquote, readsAs_fixed hbase hquote]

theorem gateIo_roundTrips : RoundTripsBy (GateIo.toExchange U sym)
    (fun raw => some (GateIo.fromExchange U raw)) (GateIo.isValidFor U) sym := by
  have hok : GateIo.toExchange U sym = .ok (sym.base ++ '_' :: sym.quote) := by
    rw [GateIo.toExchange, hbase.toUppercase, hquote.toUppercase]
  have hall : ∀ {s : List Char}, Ticker s → s.all U.isAlphanumeric = true := by
    intro s hs
    refine List.all_eq_true.mpr fun c hc => ?_
    rw [U.isAlphanumeric_ascii c (ascii_of_isTickerChar (hs.chars c hc))]
    exact isAlphanum_of_isTickerChar (hs.chars c hc)
  refine (roundTrips_of_ok hok).mpr ⟨?_, readsAs_splitOnce hbase hquote (by decide)⟩
  rw [GateIo.isValidFor, splitOnce_append (hbase.notMem (by decide))]
  simp only [hbase.isEmpty_eq, hquote.isEmpty_eq, hall hbase, hall hquote, Bool.not_false,
    Bool.and_self]

theorem bingX_roundTrips : RoundTripsBy (BingX.toExchange U sym)
    (fun raw => some (BingX.fromExchange U raw)) BingX.isValidFor sym := by
  have hok : BingX.toExchange U sym = .ok (sym.base ++ '-' :: sym.quote) := by
    rw [BingX.toExchange, if_neg (by simp [hbase.ne_nil, hquote.ne_nil]),
      hbase.toUppercase, hquote.toUppercase]
  refine (roundTrips_of_ok hok).mpr ⟨?_, readsAs_splitNonempty hbase hquote (by decide)⟩
  have hdash : sym.quote.contains '-' = false := by
    simpa using hquote.notMem (c := '-') (by decide)
  rw [BingX.isValidFor, if_neg (by simp),
    splitOnce_append (hbase.notMem (by decide))]
  simp only [hbase.isEmpty_eq, hquote.isEmpty_eq, hdash, Bool.not_false, Bool.and_self]

theorem upbit_roundTrips : RoundTripsBy (Upbit.toExchange U sym)
    (fun raw => some (Upbit.fromExchange U raw)) Upbit.isValidFor sym := by
  have hok : Upbit.toExchange U sym = .ok (sym.quote ++ '-' :: sym.base) := by
    rw [Upbit.toExchange, if_neg (by simp [hbase.ne_nil, hquote.ne_nil]),
      hbase.toUppercase, hquote.toUppercase]
  refine (roundTrips_of_ok hok).mpr ⟨?_, ?_⟩
  · rw [Upbit.isValidFor, splitOnce_append (hquote.notMem (by decide))]
    simp only [hbase.isEmpty_eq, hquote.isEmpty_eq, hbase.all_alphanum, hquote.all_alphanum,
      Bool.not_false, Bool.and_self]
  · rw [Upbit.fromExchange, splitNonempty_append hquote hbase (by decide)]
    exact readsAs_ok.mpr ⟨hbase.toUppercase, hquote.toUppercase⟩

theorem htx_roundTrips_iff : RoundTripsBy (Htx.toExchange U sym accountType)
    (fun raw => some (Htx.fromExchange U raw accountType))
      (fun raw => Htx.isValidFor U raw accountType) sym ↔ futures accountType = true := by
  by_cases hfutures : futures accountType = true
  · have hok : Htx.toExchange U sym accountType = .ok (sym.base ++ '-' :: sym.quote) := by
      cases accountType <;> first
        | exact absurd hfutures (by decide)
        | simp only [Htx.toExchange, hbase.toUppercase, hquote.toUppercase]
    have hcount : (sym.base ++ '-' :: sym.quote).countP (fun c => c == '-') = 1 := by
      rw [List.countP_append, List.countP_cons]
      have hzero : ∀ {s : List Char}, Ticker s → s.countP (fun c => c == '-') = 0 := by
        intro s hs
        refine List.countP_eq_zero.mpr fun c hc => ?_
        rintro h
        rw [eq_of_beq h] at hc
        exact hs.notMem (by decide) hc
      rw [hzero hbase, hzero hquote]
      rfl
    have hall : (sym.base ++ '-' :: sym.quote).all (fun c => U.isAlphanumeric c || c == '-') =
        true := by
      have hticker : ∀ {s : List Char}, Ticker s →
          s.all (fun c => U.isAlphanumeric c || c == '-') = true := by
        intro s hs
        refine List.all_eq_true.mpr fun c hc => ?_
        rw [U.isAlphanumeric_ascii c (ascii_of_isTickerChar (hs.chars c hc)),
          isAlphanum_of_isTickerChar (hs.chars c hc), Bool.true_or]
      rw [List.all_append, List.all_cons, hticker hbase, hticker hquote]
      simp
    refine iff_of_true ((roundTrips_of_ok hok).mpr ⟨?_, ?_⟩) hfutures
    · have hne : sym.base ++ '-' :: sym.quote ≠ [] := by simp
      cases accountType <;> first
        | exact absurd hfutures (by decide)
        | simp only [Htx.isValidFor, if_neg hne, hcount, hall, BEq.rfl, Bool.and_self]
    · cases accountType <;> first
        | exact absurd hfutures (by decide)
        | exact readsAs_splitOnce hbase hquote (by decide)
  · refine iff_of_false (fun h => ?_) hfutures
    have hok : Htx.toExchange U sym accountType =
        .ok (U.toLowercase sym.base ++ U.toLowercase sym.quote) := by
      cases accountType <;> first | rfl | exact absurd rfl hfutures
    have hread := (h _ hok).2
    cases accountType <;> first
      | exact absurd rfl hfutures
      | exact not_readsAs_error _ hread

theorem cryptoCom_roundTrips_iff : RoundTripsBy (CryptoCom.toExchange U sym accountType)
    (fun raw => some (CryptoCom.fromExchange U raw)) CryptoCom.isValidFor sym ↔
    (futures accountType = true → sym.quote = "USD".toList) := by
  by_cases hfutures : futures accountType = true
  · have hok : CryptoCom.toExchange U sym accountType =
        .ok (sym.base ++ "USD".toList ++ "-PERP".toList) := by
      rw [List.append_assoc]
      cases accountType <;> first
        | exact absurd hfutures (by decide)
        | (simp only [CryptoCom.toExchange, hbase.toUppercase]; rfl)
    have husd : Ticker "USD".toList := by decide
    have hvalid : CryptoCom.isValidFor (sym.base ++ "USD".toList ++ "-PERP".toList) = true := by
      rw [CryptoCom.isValidFor, if_neg (by simp [hbase.ne_nil]), dropSuffix?_append]
      exact (hbase.append husd).alphanumericText
    have hlisted : Unambiguous CryptoCom.perpQuotes sym.base "USD".toList := by
      refine ⟨by decide, fun q hq hproper => ?_⟩
      obtain ⟨⟨pre, hpre⟩, -⟩ := hproper
      have hlast : ∀ q ∈ CryptoCom.perpQuotes.takeWhile (fun q => q ≠ "USD".toList),
          q ≠ [] ∧ q.getLast? ≠ some 'D' := by decide
      have hd := congrArg List.getLast? hpre
      rw [List.getLast?_append_of_ne_nil _ (hlast q hq).1,
        List.getLast?_append_of_ne_nil _ husd.ne_nil] at hd
      exact (hlast q hq).2 hd
    have hread : CryptoCom.fromExchange U (sym.base ++ "USD".toList ++ "-PERP".toList) =
        .ok (Symbol.new U sym.base "USD".toList) := by
      rw [CryptoCom.fromExchange, dropSuffix?_append]
      simp only [(splitBySuffix_append_iff _ hbase.ne_nil _).mpr hlisted, symbolOf]
    rw [roundTrips_of_ok hok, and_iff_right hvalid, hread, readsAs_fixed hbase husd]
    simp only [hfutures, forall_const]
  · have hok : CryptoCom.toExchange U sym accountType = .ok (sym.base ++ '_' :: sym.quote) := by
      cases accountType <;> first
        | exact absurd rfl hfutures
        | simp only [CryptoCom.toExchange, hbase.toUppercase, hquote.toUppercase]
    have hdash : '-' ∉ sym.base ++ '_' :: sym.quote := by
      simp [hbase.notMem (c := '-') (by decide), hquote.notMem (c := '-') (by decide)]
    have hperp : (sym.base ++ '_' :: sym.quote).dropSuffix? "-PERP".toList = none :=
      dropSuffix?_eq_none fun h => hdash (h.subset (by decide))
    refine iff_of_true ((roundTrips_of_ok hok).mpr ⟨?_, ?_⟩) fun h => absurd h hfutures
    · rw [CryptoCom.isValidFor, if_neg (by simp), hperp]
      simp only [splitOnce_append (hbase.notMem (c := '_') (by decide)), hbase.alphanumericText,
        hquote.alphanumericText, Bool.and_self]
    · rw [CryptoCom.fromExchange, hperp]
      exact readsAs_splitOnce hbase hquote (by decide)

theorem cryptoCompare_roundTrips : RoundTripsBy (CryptoCompare.toExchange U sym)
    (fun raw => some (CryptoCompare.fromExchange U raw)) CryptoCompare.isValidFor sym := by
  have hok : CryptoCompare.toExchange U sym = .ok (sym.base ++ '-' :: sym.quote) := by
    rw [CryptoCompare.toExchange]
    simp only [hbase.toUppercase, hquote.toUppercase]
    exact if_neg (by simp [hbase.ne_nil, hquote.ne_nil])
  refine (roundTrips_of_ok hok).mpr ⟨?_, readsAs_splitNonempty hbase hquote (by decide)⟩
  rw [CryptoCompare.isValidFor, splitNonempty_append hbase hquote (by decide)]
  rfl

/-! ## The exchanges that rename -/

omit hbase hquote in
/-- The length of a text is not changed by the renaming of `XBT`. -/
theorem Kraken.length_fromXbt (b : List Char) : (Kraken.fromXbt b).length = b.length := by
  rw [Kraken.fromXbt]
  split_ifs with h
  · have := congrArg List.length h
    simp only [List.length_map] at this
    exact this.symm
  · rfl

omit hbase hquote in
theorem lower_inj {s t : List Char} (hs : Ticker s) (ht : Ticker t) :
    s.map Char.toLower = t.map Char.toLower ↔ s = t := by
  refine ⟨fun h => ?_, fun h => h ▸ rfl⟩
  have hupper : ∀ {s : List Char}, Ticker s → (s.map Char.toLower).map Char.toUpper = s := by
    intro s hs
    rw [List.map_map]
    exact (List.map_congr_left fun c hc => toUpper_toLower (hs.chars c hc)).trans (List.map_id' s)
  rw [← hupper hs, h, hupper ht]

omit hquote in
theorem kuCoin_fromXbt_iff (hxbt : Ticker "XBT".toList) :
    KuCoin.fromXbt (if sym.base = "BTC".toList then "XBT".toList else sym.base) = sym.base ↔
      sym.base ≠ "XBT".toList := by
  by_cases hb : sym.base = "BTC".toList
  · rw [if_pos hb, hb]
    decide
  · rw [if_neg hb, KuCoin.fromXbt]
    simp only [lower_inj hbase hxbt]
    by_cases hx : sym.base = "XBT".toList
    · rw [if_pos hx, hx]
      decide
    · rw [if_neg hx]
      exact iff_of_true rfl hx

theorem kuCoin_roundTrips_iff :
    RoundTripsBy (KuCoin.toExchange U sym accountType)
    (fun raw => some (KuCoin.fromExchange U raw accountType)) KuCoin.isValidFor sym ↔
    (futures accountType = true →
      (sym.quote = "USDT".toList ∨ sym.quote = "USD".toList) ∧ sym.base ≠ "XBT".toList) := by
  have hbtc : Ticker "BTC".toList := by decide
  have hxbt : Ticker "XBT".toList := by decide
  have husdt : Ticker "USDT".toList := by decide
  have husd : Ticker "USD".toList := by decide
  by_cases hfutures : futures accountType = true
  · obtain ⟨base, hrename⟩ :
        ∃ base, base = if sym.base = "BTC".toList then "XBT".toList else sym.base := ⟨_, rfl⟩
    have hbase' : Ticker base := by
      rw [hrename]
      split_ifs
      · exact hxbt
      · exact hbase
    have hname := kuCoin_fromXbt_iff hbase hxbt
    rw [← hrename] at hname
    have hok : KuCoin.toExchange U sym accountType = .ok (base ++ sym.quote ++ "M".toList) := by
      have hsent : KuCoin.toExchange U sym accountType =
          if sym.quote = "USDT".toList then .ok (base ++ "USDTM".toList)
          else if sym.quote = "USD".toList then .ok (base ++ "USDM".toList)
          else .ok (base ++ (sym.quote ++ "M".toList)) := by
        cases accountType <;> first
          | exact absurd hfutures (by decide)
          | simp only [KuCoin.toExchange, hbase.toUppercase, hquote.toUppercase, hrename]
      rw [hsent, List.append_assoc]
      split_ifs with h h
      · rw [h]
        rfl
      · rw [h]
        rfl
      · rfl
    have hvalid : KuCoin.isValidFor (base ++ sym.quote ++ "M".toList) = true := by
      have hticker := (hbase'.append hquote).append (by decide : Ticker "M".toList)
      rw [KuCoin.isValidFor, hticker.isEmpty_eq, Bool.not_false, Bool.true_and]
      exact hticker.all_of fun c hc => by simp [hc]
    have hread : KuCoin.fromExchange U (base ++ sym.quote ++ "M".toList) accountType =
        ((base ++ sym.quote).dropSuffix? "USDT".toList).elim
          (((base ++ sym.quote).dropSuffix? "USD".toList).elim
            (.error (.invalidFormat .kuCoin (base ++ sym.quote ++ "M".toList)))
            fun b => .ok (Symbol.new U (KuCoin.fromXbt b) "USD".toList))
          fun b => .ok (Symbol.new U (KuCoin.fromXbt b) "USDT".toList) := by
      cases accountType <;> first
        | exact absurd hfutures (by decide)
        | (simp only [KuCoin.fromExchange, dropSuffix?_append, Option.getD_some]
           cases (base ++ sym.quote).dropSuffix? "USDT".toList <;>
             cases (base ++ sym.quote).dropSuffix? "USD".toList <;> rfl)
    have hfrom : U.toUppercase (KuCoin.fromXbt base) = KuCoin.fromXbt base := by
      refine Ticker.toUppercase ?_
      rw [KuCoin.fromXbt]
      split_ifs
      · exact hbtc
      · exact hbase'
    rw [roundTrips_of_ok hok, and_iff_right hvalid, hread]
    simp only [hfutures, forall_const]
    by_cases htether : sym.quote = "USDT".toList
    · rw [htether, dropSuffix?_append]
      simp only [true_or, true_and, Option.elim_some]
      rw [readsAs_ok, Symbol.new, husdt.toUppercase, hfrom, ← hname]
      exact and_iff_left rfl
    · by_cases hdollar : sym.quote = "USD".toList
      · have hnone : (base ++ "USD".toList).dropSuffix? "USDT".toList = none :=
          dropSuffix?_eq_none (not_suffix_append (by decide) (by decide) (by decide))
        rw [hdollar, hnone, dropSuffix?_append]
        simp only [or_true, true_and, Option.elim_none, Option.elim_some]
        rw [readsAs_ok, Symbol.new, husd.toUppercase, hfrom, ← hname]
        exact and_iff_left rfl
      · refine iff_of_false (fun h => ?_) fun h => h.1.elim htether hdollar
        cases htail : (base ++ sym.quote).dropSuffix? "USDT".toList with
        | some b =>
          rw [htail, Option.elim_some, readsAs_ok, Symbol.new, husdt.toUppercase] at h
          exact htether h.2.symm
        | none =>
          rw [htail, Option.elim_none] at h
          cases htail' : (base ++ sym.quote).dropSuffix? "USD".toList with
          | some b =>
            rw [htail', Option.elim_some, readsAs_ok, Symbol.new, husd.toUppercase] at h
            exact hdollar h.2.symm
          | none =>
            rw [htail'] at h
            exact not_readsAs_error _ h
  · refine iff_of_true ?_ fun h => absurd h hfutures
    by_cases hspot : spotOrMargin accountType = true
    · have hok : KuCoin.toExchange U sym accountType = .ok (sym.base ++ '-' :: sym.quote) := by
        cases accountType <;> first
          | exact absurd hspot (by decide)
          | simp only [KuCoin.toExchange, hbase.toUppercase, hquote.toUppercase]
      refine (roundTrips_of_ok hok).mpr ⟨?_, ?_⟩
      · rw [KuCoin.isValidFor, Bool.and_eq_true, List.all_append, List.all_cons,
          hbase.all_of fun c hc => by simp [hc], hquote.all_of fun c hc => by simp [hc]]
        simp
      · cases accountType <;> first
          | exact absurd hspot (by decide)
          | exact readsAs_splitOnce hbase hquote (by decide)
    · refine roundTrips_of_error (e := .unsupportedAccountType .kuCoin accountType) ?_
      cases accountType <;> first | rfl | exact absurd rfl hspot | exact absurd rfl hfutures

/-! ## The exchanges without a quote -/

omit hquote in
theorem hyperLiquid_roundTrips_iff : RoundTripsBy (HyperLiquid.toExchange U sym)
    (fun raw => some (HyperLiquid.fromExchange U raw)) HyperLiquid.isValidFor sym ↔
    sym.quote = "USD".toList := by
  have hok : HyperLiquid.toExchange U sym = .ok sym.base := by
    rw [HyperLiquid.toExchange, if_neg hbase.ne_nil, hbase.toUppercase]
  have hread : HyperLiquid.fromExchange U sym.base = .ok (Symbol.new U sym.base "USD".toList) := by
    rw [HyperLiquid.fromExchange, if_neg hbase.ne_nil,
      hbase.dropSuffix?_eq_none (c := '-') (by decide) (by decide)]
    simp only [Option.getD_none, hbase.toUppercase]
  rw [roundTrips_of_ok hok, hread, readsAs_fixed hbase (by decide)]
  exact and_iff_right hbase.alphanumericText

omit hquote in
theorem dydx_roundTrips_iff : RoundTripsBy (Dydx.toExchange U sym)
    (fun raw => some (Dydx.fromExchange U raw)) Dydx.isValidFor sym ↔ sym.quote = "USD".toList := by
  have husd : Ticker "USD".toList := by decide
  have hok : Dydx.toExchange U sym = .ok (sym.base ++ '-' :: "USD".toList) := by
    rw [Dydx.toExchange]
    simp only [hbase.toUppercase]
    exact if_neg hbase.ne_nil
  have hvalid : Dydx.isValidFor (sym.base ++ '-' :: "USD".toList) = true := by
    rw [Dydx.isValidFor, splitNonempty_append hbase husd (by decide)]
    rfl
  have hread : Dydx.fromExchange U (sym.base ++ '-' :: "USD".toList) =
      .ok (Symbol.new U sym.base "USD".toList) := by
    rw [Dydx.fromExchange, splitOnce_append (hbase.notMem (by decide))]
    rfl
  rw [roundTrips_of_ok hok, and_iff_right hvalid, hread, readsAs_fixed hbase husd]

theorem lighter_not_roundTrips : ¬RoundTripsBy (Lighter.toExchange U sym)
    (fun raw => some (Lighter.fromExchange U raw)) Lighter.isValidFor sym := by
  intro h
  have hok : Lighter.toExchange U sym = .ok sym.base := by
    rw [Lighter.toExchange, if_neg hbase.ne_nil, hbase.toUppercase]
  have hread : ReadsAs (some (Lighter.fromExchange U sym.base)) sym.base sym.quote := (h _ hok).2
  rw [Lighter.fromExchange, if_neg hbase.ne_nil, readsAs_ok] at hread
  have hempty : U.toUppercase [] = [] := toUppercase_of_shouted rfl
  exact hquote.ne_nil (hread.2.symm.trans hempty)

theorem polymarket_not_roundTrips : ¬RoundTripsBy (Polymarket.toExchange U sym)
    (fun raw => some (Polymarket.fromExchange raw)) Polymarket.isValidFor sym := by
  intro h
  have hok : Polymarket.toExchange U sym = .ok (U.toLowercase sym.base) := by
    rw [Polymarket.toExchange, if_neg hbase.ne_nil]
  have hread : ReadsAs (some (Polymarket.fromExchange (U.toLowercase sym.base))) sym.base
      sym.quote := (h _ hok).2
  rw [Polymarket.fromExchange, hbase.toLowercase,
    if_neg fun hnil => hbase.ne_nil (List.map_eq_nil_iff.mp hnil), readsAs_ok] at hread
  exact hquote.ne_nil hread.2.symm

omit hquote in
theorem moex_roundTrips_iff : RoundTripsBy (Moex.toExchange U sym)
    (fun raw => some (Moex.fromExchange U raw)) Moex.isValidFor sym ↔ sym.quote = "RUB".toList := by
  have hok : Moex.toExchange U sym = .ok sym.base := by
    rw [Moex.toExchange]
    simp only [hbase.toUppercase]
    exact if_neg hbase.ne_nil
  have hread : Moex.fromExchange U sym.base = .ok (Symbol.new U sym.base "RUB".toList) := by
    rw [Moex.fromExchange, if_neg hbase.ne_nil, hbase.toUppercase]
  rw [roundTrips_of_ok hok, hread, readsAs_fixed hbase (by decide)]
  exact and_iff_right hbase.alphanumericText

end Digdigdig3.SymbolNormalizer
