import Digdigdig3.Core.SymbolRoundTrip

/-!
# Which symbols survive, exchange by exchange

* `kraken_roundTrips_iff`, `bitfinex_roundTrips_iff`, `deribit_roundTrips_iff`: the exchanges with
  prefixes and instrument names.
* `Recoverable`: the condition of all exchanges together.
* `symbol_roundTrips`: recoverable symbols survive, and no two of them share an instrument.
-/

namespace Digdigdig3.SymbolNormalizer

variable {U : Unicode} {accountType : AccountType} {sym : Symbol} {base quote : List Char}

/-! ## Kraken -/

namespace Kraken

/-- The base has no `X` in front and is not renamed to one that has, no fiat suffix with a `Z` ends
    the concatenation, and the quote is listed. -/
def Recoverable (base quote : List Char) : Prop :=
  base.head? ≠ some 'X' ∧ base ≠ "BTC".toList ∧
    (∀ p ∈ fiatSuffixes, ¬ProperSuffix p.1 (base ++ quote)) ∧
      Unambiguous plainSuffixes base quote

theorem cleaned_of_head {s : List Char} (h : s.head? ≠ some 'X') : cleaned s = s := by
  have hxx : s.dropPrefix? "XX".toList = none := by
    refine dropPrefix?_eq_none ?_
    rintro ⟨t, rfl⟩
    exact h rfl
  have hx : s.dropPrefix? "X".toList = none := by
    refine dropPrefix?_eq_none ?_
    rintro ⟨t, rfl⟩
    exact h rfl
  rw [cleaned, hxx, hx]
  rfl

/-- A leading `X` is lost. -/
theorem length_cleaned_lt {s : List Char} (h : s.head? = some 'X') :
    (cleaned s).length < s.length := by
  obtain ⟨t, rfl⟩ : ∃ t, s = 'X' :: t := by
    cases s with
    | nil => cases h
    | cons c t =>
      cases h
      exact ⟨t, rfl⟩
  cases hxx : ('X' :: t).dropPrefix? "XX".toList with
  | some rest =>
    have := congrArg List.length (eq_append_of_dropPrefix? hxx)
    rw [cleaned, hxx]
    simp only [List.length_append] at this
    have htwo : "XX".toList.length = 2 := rfl
    show rest.length < _
    omega
  | none =>
    have hx : ('X' :: t).dropPrefix? "X".toList = some t := dropPrefix?_append ['X'] t
    rw [cleaned, hxx, hx]
    exact Nat.lt_succ_self _

theorem cleaned_subset (s : List Char) : cleaned s ⊆ s := by
  rw [cleaned]
  cases hxx : s.dropPrefix? "XX".toList with
  | some rest =>
    rw [eq_append_of_dropPrefix? hxx]
    exact List.subset_append_right _ _
  | none =>
    cases hx : s.dropPrefix? "X".toList with
    | some rest =>
      rw [eq_append_of_dropPrefix? hx]
      exact List.subset_append_right _ _
    | none => exact List.Subset.refl s

theorem fiatSuffixes_spec : ∀ p ∈ fiatSuffixes, Ticker p.2 ∧ p.1.length = p.2.length + 1 := by
  decide

/-- What is read is a listed quote that ends the text, after something; one of the fiat suffixes
    takes a letter more. -/
theorem splitCleaned_sound {s b q : List Char} (h : splitCleaned s = some (b, q)) :
    Ticker q ∧ b ⊆ s ∧ b.length + q.length ≤ s.length ∧
      ((∃ p ∈ fiatSuffixes, ProperSuffix p.1 s) → b.length + q.length < s.length) := by
  rw [splitCleaned] at h
  cases hfiat : fiatSuffixes.findSome? fun p =>
      (beforeSuffix p.1 s).map fun base => (base, p.2) with
  | some r =>
    rw [hfiat] at h
    cases h
    obtain ⟨p, hp, hread⟩ := List.exists_of_findSome?_eq_some hfiat
    obtain ⟨base, hbefore, heq⟩ := Option.map_eq_some_iff.mp hread
    cases heq
    have hs := (beforeSuffix_eq_some.mp hbefore).1
    have hlength := congrArg List.length hs
    rw [List.length_append, (fiatSuffixes_spec p hp).2] at hlength
    refine ⟨(fiatSuffixes_spec p hp).1, ?_, by omega, fun _ => by omega⟩
    rw [hs]
    exact List.subset_append_left _ _
  | none =>
    rw [hfiat] at h
    obtain ⟨hmem, hs, -⟩ := splitBySuffix_sound h
    refine ⟨(by decide : ∀ q ∈ plainSuffixes, Ticker q) q hmem, ?_, ?_, ?_⟩
    · rw [hs]
      exact List.subset_append_left _ _
    · rw [hs, List.length_append]
    · rintro ⟨p, hp, hproper⟩
      have hnone := List.findSome?_eq_none_iff.mp hfiat p hp
      rw [Option.map_eq_none_iff, beforeSuffix_eq_none] at hnone
      exact absurd hproper hnone

theorem splitCleaned_of_no_fiat {s : List Char}
    (h : ∀ p ∈ fiatSuffixes, ¬ProperSuffix p.1 s) :
    splitCleaned s = splitBySuffix plainSuffixes s := by
  have hnone : fiatSuffixes.findSome? (fun p =>
      (beforeSuffix p.1 s).map fun base => (base, p.2)) = none := by
    refine List.findSome?_eq_none_iff.mpr fun p hp => ?_
    rw [Option.map_eq_none_iff, beforeSuffix_eq_none]
    exact h p hp
  rw [splitCleaned, hnone]
  rfl

/-- Nothing that is read of a ticker is changed by upper-casing, and its length is that of what
    stands in the text. -/
theorem toUppercase_fromXbt {s b : List Char} (hs : Ticker s) (h : b ⊆ s) :
    U.toUppercase (fromXbt b) = fromXbt b := by
  refine toUppercase_of_shouted ?_
  rw [fromXbt]
  split_ifs
  · decide
  · exact List.all_eq_true.mpr fun c hc => List.all_eq_true.mp hs.shouted c (h hc)

theorem toUppercase_toXbt (hbase : Ticker base) :
    U.toUppercase (toXbt base) = if base = "BTC".toList then "XBT".toList else base := by
  have hbtc : Ticker "BTC".toList := by decide
  have hxbt : Ticker "XBT".toList := by decide
  rw [toXbt]
  simp only [lower_inj hbase hbtc]
  split_ifs
  · exact hxbt.toUppercase
  · exact hbase.toUppercase

theorem reads_iff (hbase : Ticker base) (hquote : Ticker quote) (raw : List Char) :
    ReadsAs (some (symbolOf U .kraken raw
      ((splitCleaned (cleaned
        ((if base = "BTC".toList then "XBT".toList else base) ++ quote))).map fun p =>
          (fromXbt p.1, p.2)))) base quote ↔ Recoverable base quote := by
  obtain ⟨sent, hsent⟩ : ∃ sent, sent = if base = "BTC".toList then "XBT".toList else base :=
    ⟨_, rfl⟩
  have hticker : Ticker sent := by
    rw [hsent]
    split_ifs
    · decide
    · exact hbase
  have hlength : sent.length = base.length := by
    rw [hsent]
    split_ifs with h
    · rw [h]
      rfl
    · rfl
  have hpair := hticker.append hquote
  have hhead : (sent ++ quote).head? = sent.head? := List.head?_append_of_ne_nil _ hticker.ne_nil
  rw [← hsent, readsAs_symbolOf]
  by_cases hx : sent.head? = some 'X'
  · -- the first letter is taken for the prefix of an asset class
    refine iff_of_false ?_ fun h => ?_
    · rintro ⟨b, q, hread, hb, hq⟩
      obtain ⟨⟨b', q'⟩, hsplit, heq⟩ := Option.map_eq_some_iff.mp hread
      cases heq
      obtain ⟨hticker', hsub, hle, -⟩ := splitCleaned_sound hsplit
      have hlt := length_cleaned_lt (hhead.trans hx)
      rw [toUppercase_fromXbt hpair (List.Subset.trans hsub (cleaned_subset _))] at hb
      rw [hticker'.toUppercase] at hq
      have hb' := congrArg List.length hb
      rw [length_fromXbt] at hb'
      rw [List.length_append] at hlt
      subst hq
      omega
    · rw [hsent, if_neg h.2.1] at hx
      exact h.1 hx
  · have hbtc : base ≠ "BTC".toList := by
      intro h
      rw [hsent, if_pos h] at hx
      exact hx rfl
    rw [if_neg hbtc] at hsent
    subst hsent
    rw [cleaned_of_head (hhead ▸ hx)]
    have hname : fromXbt sent = sent := by
      refine if_neg fun h => hx ?_
      rw [(lower_inj hbase (by decide : Ticker "XBT".toList)).mp h]
      rfl
    by_cases hfiat : ∀ p ∈ fiatSuffixes, ¬ProperSuffix p.1 (sent ++ quote)
    · rw [splitCleaned_of_no_fiat hfiat]
      constructor
      · rintro ⟨b, q, hread, hb, hq⟩
        obtain ⟨⟨b', q'⟩, hsplit, heq⟩ := Option.map_eq_some_iff.mp hread
        cases heq
        obtain ⟨hmem, happend, -⟩ := splitBySuffix_sound hsplit
        rw [((by decide : ∀ q ∈ plainSuffixes, Ticker q) q' hmem).toUppercase] at hq
        subst hq
        rw [← List.append_cancel_right happend] at hsplit
        exact ⟨hx, hbtc, hfiat, (splitBySuffix_append_iff _ hbase.ne_nil _).mp hsplit⟩
      · rintro ⟨-, -, -, h⟩
        refine ⟨sent, quote, ?_, hbase.toUppercase, hquote.toUppercase⟩
        rw [(splitBySuffix_append_iff _ hbase.ne_nil _).mpr h, Option.map_some, hname]
    · refine iff_of_false ?_ fun h => hfiat h.2.2.1
      rintro ⟨b, q, hread, hb, hq⟩
      obtain ⟨⟨b', q'⟩, hsplit, heq⟩ := Option.map_eq_some_iff.mp hread
      cases heq
      push Not at hfiat
      obtain ⟨hticker', hsub, -, hlt⟩ := splitCleaned_sound hsplit
      have hlt := hlt hfiat
      rw [toUppercase_fromXbt hpair hsub] at hb
      rw [hticker'.toUppercase] at hq
      have hb' := congrArg List.length hb
      rw [length_fromXbt] at hb'
      rw [List.length_append] at hlt
      subst hq
      omega

end Kraken

/-- `Spot`, `Margin`, `FuturesCross` or `FuturesIsolated`. -/
def traded (accountType : AccountType) : Bool := spotOrMargin accountType || futures accountType

theorem kraken_roundTrips_iff (hbase : Ticker sym.base) (hquote : Ticker sym.quote) :
    RoundTripsBy (Kraken.toExchange U sym accountType)
      (fun raw => some (Kraken.fromExchange U raw)) Kraken.isValidFor sym ↔
    (traded accountType = true → Kraken.Recoverable sym.base sym.quote) := by
  obtain ⟨sent, hsent⟩ :
      ∃ sent, sent = if sym.base = "BTC".toList then "XBT".toList else sym.base := ⟨_, rfl⟩
  have hticker : Ticker sent := by
    rw [hsent]
    split_ifs
    · decide
    · exact hbase
  have hpair := hticker.append hquote
  by_cases htraded : traded accountType = true
  · -- with the prefix of a perpetual or without
    obtain ⟨pre, hpre, hok⟩ : ∃ pre, (pre = "PI_".toList ∨ pre = []) ∧
        Kraken.toExchange U sym accountType = .ok (pre ++ (sent ++ sym.quote)) := by
      by_cases hfutures : futures accountType = true
      · refine ⟨"PI_".toList, Or.inl rfl, ?_⟩
        cases accountType <;> first
          | exact absurd hfutures (by decide)
          | simp only [Kraken.toExchange, Kraken.toUppercase_toXbt hbase, hquote.toUppercase,
              hsent]
      · refine ⟨[], Or.inr rfl, ?_⟩
        cases accountType <;> first
          | exact absurd rfl hfutures
          | exact absurd htraded (by decide)
          | simp only [Kraken.toExchange, Kraken.toUppercase_toXbt hbase, hquote.toUppercase,
              hsent, List.nil_append]
    have hvalid : Kraken.isValidFor (pre ++ (sent ++ sym.quote)) = true := by
      rw [Kraken.isValidFor, Bool.and_eq_true, List.all_append,
        hpair.all_of fun c hc => by simp [hc]]
      refine ⟨by simp [hticker.ne_nil], ?_⟩
      rcases hpre with rfl | rfl
      · decide
      · rfl
    have hinner : Kraken.inner (pre ++ (sent ++ sym.quote)) = sent ++ sym.quote := by
      rcases hpre with rfl | rfl
      · rw [Kraken.inner, dropPrefix?_append]
        rfl
      · have hnone : ∀ {q : List Char}, '_' ∈ q → (sent ++ sym.quote).dropPrefix? q = none :=
          fun hq => dropPrefix?_eq_none fun h => hpair.notMem (by decide) (h.subset hq)
        rw [List.nil_append, Kraken.inner, hnone (by decide), hnone (by decide)]
        rfl
    rw [roundTrips_of_ok hok, and_iff_right hvalid, Kraken.fromExchange, hinner, hsent,
      Kraken.reads_iff hbase hquote]
    simp only [htraded, forall_const]
  · refine iff_of_true ?_ fun h => absurd h htraded
    refine roundTrips_of_error (e := .unsupportedAccountType .kraken accountType) ?_
    cases accountType <;> first | rfl | exact absurd rfl htraded

/-! ## Bitfinex -/

namespace Bitfinex

/-- A colon is written, or the quote is found again, or both halves have three letters and no
    listed quote ends the pair. -/
def Recoverable (base quote : List Char) : Prop :=
  3 < base.length ∨ 3 < quote.length ∨ Unambiguous knownQuotes base quote ∨
    base.length = 3 ∧ quote.length = 3 ∧
      ∀ q ∈ knownQuotes, ¬ProperSuffix q (base ++ quote)

theorem byteLen_eq {s : List Char} (h : Ticker s) : byteLen s = s.length := by
  have hone : ∀ c ∈ s, c.utf8Size = 1 := fun c hc =>
    forall_tickerChar (P := fun c => c.utf8Size = 1) (by decide) (h.chars c hc)
  rw [byteLen, List.map_congr_left hone, List.map_const', List.sum_replicate, smul_eq_mul, mul_one]

theorem sliceAt_three {s : List Char} (h : Ticker s) (hlength : s.length = 6) :
    sliceAt 3 s = some (s.take 3, s.drop 3) := by
  have htake : ∀ k ≤ 6, byteLen (s.take k) = k := by
    intro k hk
    have hone : ∀ c ∈ s.take k, c.utf8Size = 1 := fun c hc =>
      forall_tickerChar (P := fun c => c.utf8Size = 1) (by decide)
        (h.chars c (List.mem_of_mem_take hc))
    rw [byteLen, List.map_congr_left hone, List.map_const', List.sum_replicate, smul_eq_mul,
      mul_one, List.length_take, hlength]
    omega
  have hfind : (List.range (s.length + 1)).find? (fun k => byteLen (s.take k) = 3) = some 3 := by
    have hnil : byteLen [] = 0 := rfl
    rw [hlength]
    simp [List.range_succ, htake, hnil]
  rw [sliceAt, hfind]
  rfl

theorem fromPair_iff (hbase : Ticker base) (hquote : Ticker quote) (hb : base.length ≤ 3)
    (hq : quote.length ≤ 3) (raw : List Char) :
    ReadsAs (fromPair U raw (base ++ quote)) base quote ↔
      Unambiguous knownQuotes base quote ∨ base.length = 3 ∧ quote.length = 3 ∧
        ∀ q ∈ knownQuotes, ¬ProperSuffix q (base ++ quote) := by
  have hpair := hbase.append hquote
  rw [← splitBySuffix_append_iff knownQuotes hbase.ne_nil quote, fromPair]
  cases hsplit : splitBySuffix knownQuotes (base ++ quote) with
  | some p =>
    obtain ⟨b, q⟩ := p
    obtain ⟨hmem, happend, hne⟩ := splitBySuffix_sound hsplit
    have hsome : ¬∀ q ∈ knownQuotes, ¬ProperSuffix q (base ++ quote) :=
      fun h => h q hmem (happend ▸ properSuffix_append hne q)
    rw [or_iff_left fun h => hsome h.2.2]
    simp only [Option.some.injEq, Prod.mk.injEq]
    rw [readsAs_ok, Symbol.new,
      ((by decide : ∀ q ∈ knownQuotes, Ticker q) q hmem).toUppercase]
    constructor
    · rintro ⟨-, h⟩
      have h : q = quote := h
      subst h
      exact ⟨(List.append_cancel_right happend).symm, rfl⟩
    · rintro ⟨rfl, rfl⟩
      exact ⟨hbase.toUppercase, rfl⟩
  | none =>
    rw [splitBySuffix_eq_none] at hsplit
    rw [and_iff_left hsplit]
    simp only [byteLen_eq hpair, reduceCtorEq, false_or]
    by_cases hsix : base.length = 3 ∧ quote.length = 3
    · have hlength : (base ++ quote).length = 6 := by
        rw [List.length_append, hsix.1, hsix.2]
      rw [if_pos hlength, sliceAt_three hpair hlength, ← hsix.1, List.take_left, List.drop_left]
      exact iff_of_true (readsAs_ok.mpr ⟨hbase.toUppercase, hquote.toUppercase⟩)
        ⟨rfl, hsix.2.trans hsix.1.symm⟩
    · have hlength : (base ++ quote).length ≠ 6 := by
        rw [List.length_append]
        omega
      rw [if_neg hlength]
      exact iff_of_false (not_readsAs_error _) hsix

end Bitfinex

theorem bitfinex_roundTrips_iff (hbase : Ticker sym.base) (hquote : Ticker sym.quote) :
    RoundTripsBy (Bitfinex.toExchange U sym accountType) (Bitfinex.fromExchange U)
      Bitfinex.isValidFor sym ↔
    (accountType ≠ .lending ∧ Bitfinex.Recoverable sym.base sym.quote) := by
  by_cases hlending : accountType = .lending
  · -- a funding currency has no quote
    refine iff_of_false (fun h => ?_) fun h => h.1 hlending
    have hok : Bitfinex.toExchange U sym accountType = .ok ('f' :: sym.base) := by
      rw [Bitfinex.toExchange, if_neg hbase.ne_nil, if_pos hlending, hbase.toUppercase]
    have hread := (h _ hok).2
    have hdrop : ('f' :: sym.base).dropPrefix? "f".toList = some sym.base :=
      dropPrefix?_append ['f'] sym.base
    rw [Bitfinex.fromExchange, hdrop] at hread
    simp only [hbase.alphanumericText, if_true] at hread
    have hempty : U.toUppercase [] = [] := toUppercase_of_shouted rfl
    exact hquote.ne_nil ((readsAs_ok.mp hread).2.symm.trans hempty)
  · rw [and_iff_right hlending]
    have hfund : ∀ pair : List Char, Bitfinex.fromExchange U ('t' :: pair) =
        Bitfinex.fromTrading U ('t' :: pair) := by
      intro pair
      have hdrop : ('t' :: pair).dropPrefix? "f".toList = none := by
        refine dropPrefix?_eq_none ?_
        rintro ⟨t, ht⟩
        cases ht
      rw [Bitfinex.fromExchange, hdrop]
    have htrade : ∀ pair : List Char, ('t' :: pair).dropPrefix? "t".toList = some pair :=
      fun pair => dropPrefix?_append ['t'] pair
    have hcolon : isTickerChar ':' = false := by decide
    have hok : Bitfinex.toExchange U sym accountType =
        if 3 < sym.base.length ∨ 3 < sym.quote.length then
          .ok ('t' :: (sym.base ++ ':' :: sym.quote))
        else .ok ('t' :: (sym.base ++ sym.quote)) := by
      rw [Bitfinex.toExchange, if_neg hbase.ne_nil, if_neg hlending]
      simp only [hbase.toUppercase, hquote.toUppercase, Bitfinex.byteLen_eq hbase,
        Bitfinex.byteLen_eq hquote]
    have hvalid : ∀ {s : List Char}, Ticker s →
        (s.all fun c => c.isUpper || c.isDigit || c == ':') = true := fun hs =>
      List.all_eq_true.mpr fun c hc => by
        rw [show (c.isUpper || c.isDigit) = true from hs.chars c hc, Bool.true_or]
    split_ifs at hok with hlong
    · refine iff_of_true ((roundTrips_of_ok hok).mpr ⟨?_, ?_⟩) (by
        rcases hlong with h | h
        · exact Or.inl h
        · exact Or.inr (Or.inl h))
      · rw [Bitfinex.isValidFor, if_pos (Or.inl rfl), List.all_append, List.all_cons, hvalid hbase,
          hvalid hquote]
        simp
      · rw [hfund, Bitfinex.fromTrading, htrade]
        simp only [splitNonempty_append hbase hquote hcolon]
        rw [if_neg (by simp)]
        exact readsAs_ok.mpr ⟨hbase.toUppercase, hquote.toUppercase⟩
    · have hpair := hbase.append hquote
      push Not at hlong
      have hvalid : Bitfinex.isValidFor ('t' :: (sym.base ++ sym.quote)) = true := by
        rw [Bitfinex.isValidFor, if_pos (Or.inl rfl), hvalid hpair, hpair.isEmpty_eq]
        rfl
      have hnone : splitNonempty ':' (sym.base ++ sym.quote) = none := by
        rw [splitNonempty, splitOnce_of_notMem (hpair.notMem hcolon)]
      rw [roundTrips_of_ok hok, and_iff_right hvalid, hfund, Bitfinex.fromTrading, htrade]
      simp only [hnone, if_neg hpair.ne_nil]
      rw [Bitfinex.fromPair_iff hbase hquote hlong.1 hlong.2, Bitfinex.Recoverable,
        or_iff_right (not_lt.mpr hlong.1), or_iff_right (not_lt.mpr hlong.2)]

/-! ## Deribit -/

namespace Deribit

/-- The instrument names that are read as a pair: perpetuals, options, dated futures and spot. -/
inductive Instrument (U : Unicode) (base quote : List Char) : List Char → Prop
  | perpetualPair (b q : List Char) (hb : '_' ∉ b) (hbase : U.toUppercase b = base)
      (hquote : U.toUppercase q = quote) :
      Instrument U base quote (b ++ '_' :: q ++ "-PERPETUAL".toList)
  | perpetual (b : List Char) (hb : '_' ∉ b) (hbase : U.toUppercase b = base)
      (hquote : "USD".toList = quote) : Instrument U base quote (b ++ "-PERPETUAL".toList)
  | option (b expiry strike kind : List Char) (hb : '-' ∉ b) (hexpiry : '-' ∉ expiry)
      (hstrike : '-' ∉ strike)
      (hperpetual : ¬"-PERPETUAL".toList <:+
        b ++ '-' :: (expiry ++ '-' :: (strike ++ '-' :: kind)))
      (hbase : U.toUppercase b = base) (hquote : "USD".toList = quote) :
      Instrument U base quote (b ++ '-' :: (expiry ++ '-' :: (strike ++ '-' :: kind)))
  | dated (b expiry : List Char) (hb : '-' ∉ b) (hdash : '-' ∉ expiry)
      (hperpetual : expiry ≠ "PERPETUAL".toList) (hexpiry : isExpiry U expiry = true)
      (hbase : U.toUppercase b = base) (hquote : "USD".toList = quote) :
      Instrument U base quote (b ++ '-' :: expiry)
  | spot (b q : List Char) (hb : '-' ∉ b) (hdash : '-' ∉ q)
      (hperpetual : q ≠ "PERPETUAL".toList) (hexpiry : isExpiry U q = false)
      (hbase : U.toUppercase b = base) (hquote : U.toUppercase q = quote) :
      Instrument U base quote (b ++ '-' :: q)

/-- The quotes that the name of a pair shows and that are no expiry. -/
def Recoverable (U : Unicode) (accountType : AccountType) (base quote : List Char) : Prop :=
  (base.head?.elim false Char.isUpper) = true ∧ quote ≠ "PERPETUAL".toList ∧
    isExpiry U quote = false ∧
      (futures accountType = true ∨ accountType = .margin → quote ≠ "PERP".toList)

theorem toUppercase_usd : U.toUppercase "USD".toList = "USD".toList :=
  (by decide : Ticker "USD".toList).toUppercase

theorem readsAs_withRaw {b q raw : List Char} :
    ReadsAs (some (.ok (Symbol.withRaw U b q raw))) base quote ↔
      U.toUppercase b = base ∧ U.toUppercase q = quote := readsAs_ok

/-- With one dash, a name is a perpetual just when its second part says so. -/
theorem perpetual_suffix_iff {b s : List Char} (hs : '-' ∉ s) :
    "-PERPETUAL".toList <:+ b ++ '-' :: s ↔ s = "PERPETUAL".toList := by
  constructor
  · rintro ⟨pre, hpre⟩
    have hrev := congrArg List.reverse hpre
    have hperpetual : "-PERPETUAL".toList = '-' :: "PERPETUAL".toList := rfl
    rw [hperpetual] at hrev
    simp only [List.reverse_append, List.reverse_cons, List.append_assoc,
      List.singleton_append] at hrev
    have hsplit := congrArg (splitOnce '-') hrev
    rw [splitOnce_append (by decide), splitOnce_append (by simpa using hs)] at hsplit
    simp only [Option.some.injEq, Prod.mk.injEq, List.reverse_inj] at hsplit
    exact hsplit.1.symm
  · rintro rfl
    exact ⟨b, rfl⟩

theorem readsAs_of_instrument {raw : List Char} (h : Instrument U base quote raw) :
    ReadsAs (some (fromExchange U raw)) base quote := by
  rw [fromExchange]
  cases h with
  | perpetualPair b q hb hbase hquote =>
    rw [if_neg (by simp), dropSuffix?_append]
    simp only [splitOnce_append hb]
    exact readsAs_withRaw.mpr ⟨hbase, hquote⟩
  | perpetual b hb hbase hquote =>
    rw [if_neg (by simp), dropSuffix?_append]
    simp only [splitOnce_of_notMem hb]
    exact readsAs_withRaw.mpr ⟨hbase, toUppercase_usd.trans hquote⟩
  | option b expiry strike kind hb hexpiry hstrike hperpetual hbase hquote =>
    rw [if_neg (by simp), dropSuffix?_eq_none hperpetual]
    simp only [splitN_four_eq_four.mpr ⟨rfl, hb, hexpiry, hstrike⟩]
    exact readsAs_withRaw.mpr ⟨hbase, toUppercase_usd.trans hquote⟩
  | dated b expiry hb hdash hperpetual hexpiry hbase hquote =>
    rw [if_neg (by simp), dropSuffix?_eq_none ((perpetual_suffix_iff hdash).not.mpr hperpetual)]
    simp only [splitN_four_eq_two.mpr ⟨rfl, hb, hdash⟩, if_pos hexpiry]
    exact readsAs_withRaw.mpr ⟨hbase, toUppercase_usd.trans hquote⟩
  | spot b q hb hdash hperpetual hexpiry hbase hquote =>
    rw [if_neg (by simp), dropSuffix?_eq_none ((perpetual_suffix_iff hdash).not.mpr hperpetual)]
    simp only [splitN_four_eq_two.mpr ⟨rfl, hb, hdash⟩, hexpiry]
    exact readsAs_ok.mpr ⟨hbase, hquote⟩

theorem instrument_of_readsAs {raw : List Char}
    (h : ReadsAs (some (fromExchange U raw)) base quote) : Instrument U base quote raw := by
  rw [fromExchange] at h
  split_ifs at h with hraw
  · exact absurd h (not_readsAs_error _)
  split at h
  next pair hpair =>
    rw [eq_append_of_dropSuffix? hpair]
    split at h
    next b q hsplit =>
      obtain ⟨rfl, hb⟩ := splitOnce_eq_some.mp hsplit
      obtain ⟨hbase, hquote⟩ := readsAs_withRaw.mp h
      exact .perpetualPair b q hb hbase hquote
    next hsplit =>
      obtain ⟨hbase, hquote⟩ := readsAs_withRaw.mp h
      exact .perpetual pair (splitOnce_eq_none.mp hsplit) hbase (toUppercase_usd.symm.trans hquote)
  next hpair =>
    have hperpetual : ¬"-PERPETUAL".toList <:+ raw := by
      rintro ⟨pre, rfl⟩
      rw [dropSuffix?_append] at hpair
      cases hpair
    split at h
    next b expiry strike kind hsplit =>
      obtain ⟨rfl, hb, hexpiry, hstrike⟩ := splitN_four_eq_four.mp hsplit
      obtain ⟨hbase, hquote⟩ := readsAs_withRaw.mp h
      exact .option b expiry strike kind hb hexpiry hstrike hperpetual hbase
        (toUppercase_usd.symm.trans hquote)
    next b second hsplit =>
      obtain ⟨rfl, hb, hdash⟩ := splitN_four_eq_two.mp hsplit
      have hsecond := (perpetual_suffix_iff hdash).not.mp hperpetual
      split_ifs at h with hexpiry
      · obtain ⟨hbase, hquote⟩ := readsAs_withRaw.mp h
        exact .dated b second hb hdash hsecond hexpiry hbase (toUppercase_usd.symm.trans hquote)
      · obtain ⟨hbase, hquote⟩ := readsAs_ok.mp h
        exact .spot b second hb hdash hsecond (Bool.eq_false_iff.mpr hexpiry) hbase hquote
    next => exact absurd h (not_readsAs_error _)

theorem fromExchange_iff {raw : List Char} :
    ReadsAs (some (fromExchange U raw)) base quote ↔ Instrument U base quote raw :=
  ⟨instrument_of_readsAs, readsAs_of_instrument⟩

/-- A pair with a dash is read as the pair just when its quote is neither an expiry nor the word
    for a perpetual. -/
theorem readsAs_dash_iff (hbase : Ticker base) (hquote : Ticker quote) :
    ReadsAs (some (fromExchange U (base ++ '-' :: quote))) base quote ↔
      quote ≠ "PERPETUAL".toList ∧ isExpiry U quote = false := by
  have hdash := hquote.notMem (c := '-') (by decide)
  have hparts := splitN_four_eq_two.mpr ⟨rfl, hbase.notMem (c := '-') (by decide), hdash⟩
  rw [fromExchange, if_neg (by simp)]
  by_cases hperpetual : quote = "PERPETUAL".toList
  · have hdrop : (base ++ '-' :: quote).dropSuffix? "-PERPETUAL".toList = some base := by
      rw [hperpetual]
      exact dropSuffix?_append base "-PERPETUAL".toList
    rw [hdrop]
    simp only [splitOnce_of_notMem (hbase.notMem (c := '_') (by decide))]
    refine iff_of_false (fun h => ?_) fun h => h.1 hperpetual
    have husd := (readsAs_withRaw.mp h).2
    rw [toUppercase_usd, hperpetual] at husd
    exact absurd husd (by decide)
  · rw [dropSuffix?_eq_none ((perpetual_suffix_iff hdash).not.mpr hperpetual), hparts,
      and_iff_right hperpetual]
    by_cases hexpiry : isExpiry U quote = true
    · simp only [hexpiry]
      refine iff_of_false (fun h => ?_) (by decide)
      have husd := (readsAs_withRaw.mp h).2
      rw [toUppercase_usd] at husd
      rw [← husd, isExpiry, isMonthPrefix, toUppercase_usd] at hexpiry
      exact absurd hexpiry (by decide)
    · have hfalse := Bool.eq_false_iff.mpr hexpiry
      simp only [hfalse, Bool.false_eq_true, if_false]
      exact iff_of_true (readsAs_ok.mpr ⟨hbase.toUppercase, hquote.toUppercase⟩) trivial

theorem isExpiry_eq {s : List Char} (hs : Ticker s) :
    isExpiry U s =
      (s.head?.elim false Char.isDigit || months.any fun month => month.isPrefixOf s) := by
  rw [isExpiry, isMonthPrefix, hs.toUppercase]

/-- A name that begins with the base is valid just when the base begins with a letter. -/
theorem isValidFor_iff (hbase : Ticker base) {rest : List Char} (hdash : '-' ∈ rest)
    (hrest : (rest.all fun c => c.isAlphanum || c == '-' || c == '_') = true) :
    isValidFor (base ++ rest) = true ↔ base.head?.elim false Char.isUpper = true := by
  have hcontains : (base ++ rest).contains '-' = true :=
    List.contains_iff_mem.mpr (List.mem_append_right _ hdash)
  have hall : (base ++ rest).all (fun c => c.isAlphanum || c == '-' || c == '_') = true := by
    rw [List.all_append, hrest, hbase.all_of fun c hc => by simp [hc]]
    rfl
  have hne : (base ++ rest).isEmpty = false := by
    rw [List.isEmpty_eq_false_iff]
    exact List.append_ne_nil_of_left_ne_nil hbase.ne_nil rest
  rw [isValidFor, hcontains, hall, hne, List.head?_append_of_ne_nil _ hbase.ne_nil]
  simp

end Deribit

theorem deribit_roundTrips_iff (hbase : Ticker sym.base) (hquote : Ticker sym.quote) :
    RoundTripsBy (Deribit.toExchange U sym accountType)
      (fun raw => some (Deribit.fromExchange U raw)) Deribit.isValidFor sym ↔
    match sym.raw with
    | some raw => Deribit.isValidFor raw = true ∧ Deribit.Instrument U sym.base sym.quote raw
    | none => accountType ≠ .options → Deribit.Recoverable U accountType sym.base sym.quote := by
  cases hraw : sym.raw with
  | some raw =>
    have hok : Deribit.toExchange U sym accountType = .ok raw := by
      rw [Deribit.toExchange, hraw]
    rw [roundTrips_of_ok hok, Deribit.fromExchange_iff]
  | none =>
    by_cases hoptions : accountType = .options
    · refine iff_of_true ?_ fun h => absurd hoptions h
      refine roundTrips_of_error (e := .requiresRawInstrument Deribit.requiresInstrument) ?_
      rw [Deribit.toExchange, hraw, hoptions]
    · simp only [ne_eq, hoptions, not_false_eq_true, forall_const]
      have hquoteAll := hquote.all_of (p := fun c => c.isAlphanum || c == '-' || c == '_')
        fun c hc => by simp [hc]
      -- the names with a dash between base and quote
      have hdash (hok : Deribit.toExchange U sym accountType =
            .ok (sym.base ++ '-' :: sym.quote))
          (hperp : futures accountType = true ∨ accountType = .margin →
            sym.quote ≠ "PERP".toList) :
          RoundTripsBy (Deribit.toExchange U sym accountType)
            (fun raw => some (Deribit.fromExchange U raw)) Deribit.isValidFor sym ↔
          Deribit.Recoverable U accountType sym.base sym.quote := by
        rw [roundTrips_of_ok hok, Deribit.readsAs_dash_iff hbase hquote, Deribit.Recoverable,
          Deribit.isValidFor_iff hbase List.mem_cons_self
            (by rw [List.all_cons, hquoteAll]; rfl), and_iff_left hperp]
      -- the names of perpetuals
      have hperpetual {rest : List Char} {q : List Char} (hq : q = sym.quote)
          (hok : Deribit.toExchange U sym accountType = .ok (sym.base ++ rest))
          (hrest : '-' ∈ rest ∧
            (rest.all fun c => c.isAlphanum || c == '-' || c == '_') = true)
          (hread : Deribit.Instrument U sym.base q (sym.base ++ rest))
          (hplain : q ≠ "PERPETUAL".toList ∧ q ≠ "PERP".toList ∧
            (q.head?.elim false Char.isDigit ||
              Deribit.months.any fun month => month.isPrefixOf q) = false) :
          RoundTripsBy (Deribit.toExchange U sym accountType)
            (fun raw => some (Deribit.fromExchange U raw)) Deribit.isValidFor sym ↔
          Deribit.Recoverable U accountType sym.base sym.quote := by
        subst hq
        rw [roundTrips_of_ok hok, Deribit.fromExchange_iff, Deribit.Recoverable,
          Deribit.isValidFor_iff hbase hrest.1 hrest.2, Deribit.isExpiry_eq hquote]
        exact and_congr_right fun _ =>
          iff_of_true hread ⟨hplain.1, hplain.2.2, fun _ => hplain.2.1⟩
      by_cases hmargin : futures accountType = true ∨ accountType = .margin
      · have hsent : Deribit.toExchange U sym accountType =
            if sym.quote = [] ∨ sym.quote = "USD".toList ∨ sym.quote = "PERP".toList then
              .ok (sym.base ++ "-PERPETUAL".toList)
            else if sym.quote = "USDC".toList then .ok (sym.base ++ "_USDC-PERPETUAL".toList)
            else if sym.quote = "USDT".toList then .ok (sym.base ++ "_USDT-PERPETUAL".toList)
            else .ok (sym.base ++ '-' :: sym.quote) := by
          cases accountType <;> first
            | exact absurd hmargin (by decide)
            | simp only [Deribit.toExchange, hraw, hbase.toUppercase, hquote.toUppercase]
        have hunder := hbase.notMem (c := '_') (by decide)
        have hpair {q : List Char} (hq : Ticker q) : Deribit.Instrument U sym.base q
            (sym.base ++ ('_' :: q ++ "-PERPETUAL".toList)) := by
          rw [← List.append_assoc]
          exact .perpetualPair sym.base q hunder hbase.toUppercase hq.toUppercase
        split_ifs at hsent with hcoin husdc husdt
        · rcases hcoin with hnil | husd | hperp
          · exact absurd hnil hquote.ne_nil
          · exact hperpetual husd.symm hsent (by decide)
              (.perpetual sym.base hunder hbase.toUppercase rfl) (by decide)
          · refine iff_of_false (fun h => ?_) fun h => h.2.2.2 hmargin hperp
            have hread := ((roundTrips_of_ok hsent).mp h).2
            rw [Deribit.fromExchange, if_neg (by simp), dropSuffix?_append] at hread
            simp only [splitOnce_of_notMem hunder] at hread
            have husd := (Deribit.readsAs_withRaw.mp hread).2
            rw [Deribit.toUppercase_usd, hperp] at husd
            exact absurd husd (by decide)
        · exact hperpetual husdc.symm hsent (by decide)
            (hpair (by decide : Ticker "USDC".toList)) (by decide)
        · exact hperpetual husdt.symm hsent (by decide)
            (hpair (by decide : Ticker "USDT".toList)) (by decide)
        · push Not at hcoin
          exact hdash hsent fun _ => hcoin.2.2
      · refine hdash ?_ fun h => absurd h hmargin
        cases accountType <;> first
          | exact absurd rfl hoptions
          | exact absurd (by decide) hmargin
          | simp only [Deribit.toExchange, hraw, hbase.toUppercase, hquote.toUppercase]

/-! ## All exchanges -/

/-- When the text that an exchange is sent for a pair is read back as the pair. The formats that
    drop the quote allow the one that they stand for. -/
def Recoverable (U : Unicode) (id : ExchangeId) (accountType : AccountType) (sym : Symbol) : Prop :=
  match id with
  | .binance =>
    if accountType = .options then sym.quote = "USD".toList
    else Unambiguous Binance.quoteSuffixes sym.base sym.quote
  | .bybit => Unambiguous Bybit.quoteSuffixes sym.base sym.quote
  | .kuCoin =>
    futures accountType = true →
      (sym.quote = "USDT".toList ∨ sym.quote = "USD".toList) ∧ sym.base ≠ "XBT".toList
  | .kraken => traded accountType = true → Kraken.Recoverable sym.base sym.quote
  | .coinbase => futures accountType = true → sym.quote = "PERP".toList
  | .gemini =>
    if futures accountType = true then sym.quote = "USD".toList
    else Unambiguous Gemini.quoteSuffixes (sym.base.map Char.toLower)
      (sym.quote.map Char.toLower)
  | .mexc => spotOrMargin accountType = true → Unambiguous Mexc.quotes sym.base sym.quote
  | .htx => futures accountType = true
  | .bitget => Unambiguous Bitget.knownQuotes sym.base sym.quote
  | .cryptoCom => futures accountType = true → sym.quote = "USD".toList
  | .bitfinex => accountType ≠ .lending ∧ Bitfinex.Recoverable sym.base sym.quote
  | .bitstamp =>
    spotOrMargin accountType = true →
      Unambiguous Bitstamp.quoteSuffixes (sym.base.map Char.toLower) (sym.quote.map Char.toLower)
  | .deribit =>
    match sym.raw with
    | some raw => Deribit.isValidFor raw = true ∧ Deribit.Instrument U sym.base sym.quote raw
    | none => accountType ≠ .options → Deribit.Recoverable U accountType sym.base sym.quote
  | .hyperLiquid | .dydx => sym.quote = "USD".toList
  | .lighter | .polymarket => False
  | .moex => sym.quote = "RUB".toList
  | _ => True

/-- The tickers that survive the way to an exchange and back. -/
theorem roundTrips_iff {id : ExchangeId} (hbase : Ticker sym.base) (hquote : Ticker sym.quote) :
    RoundTrips U id accountType sym ↔ Recoverable U id accountType sym := by
  cases id with
  | binance => exact binance_roundTrips_iff hbase hquote
  | bybit => exact bybit_roundTrips_iff hbase hquote
  | okx => exact iff_of_true (okx_roundTrips hbase hquote) trivial
  | kuCoin => exact kuCoin_roundTrips_iff hbase hquote
  | kraken => exact kraken_roundTrips_iff hbase hquote
  | coinbase => exact coinbase_roundTrips_iff hbase hquote
  | gateIO => exact iff_of_true (gateIo_roundTrips hbase hquote) trivial
  | gemini => exact gemini_roundTrips_iff hbase hquote
  | mexc => exact mexc_roundTrips_iff hbase hquote
  | htx => exact htx_roundTrips_iff hbase hquote
  | bitget => exact bitget_roundTrips_iff hbase hquote
  | bingX => exact iff_of_true (bingX_roundTrips hbase hquote) trivial
  | cryptoCom => exact cryptoCom_roundTrips_iff hbase hquote
  | upbit => exact iff_of_true (upbit_roundTrips hbase hquote) trivial
  | bitfinex => exact bitfinex_roundTrips_iff hbase hquote
  | bitstamp => exact bitstamp_roundTrips_iff hbase hquote
  | deribit => exact deribit_roundTrips_iff hbase hquote
  | hyperLiquid => exact hyperLiquid_roundTrips_iff hbase
  | dydx => exact dydx_roundTrips_iff hbase
  | lighter => exact iff_of_false (lighter_not_roundTrips hbase hquote) id
  | polymarket => exact iff_of_false (polymarket_not_roundTrips hbase hquote) id
  | moex => exact moex_roundTrips_iff hbase
  | cryptoCompare => exact iff_of_true (cryptoCompare_roundTrips hbase hquote) trivial
  | _ => exact iff_of_true (roundTrips_of_error rfl) trivial

/-- The ASCII part of the Unicode tables. -/
def asciiTables : Unicode where
  toUppercase := fun s => s.map Char.toUpper
  toLowercase := fun s => s.map Char.toLower
  isAlphanumeric := Char.isAlphanum
  toUppercase_ascii := fun _ _ => rfl
  toLowercase_ascii := fun _ _ => rfl
  isAlphanumeric_ascii := fun _ _ => rfl

/-- `BTC/USDT`. -/
def btcUsdt : Symbol := ⟨"BTC".toList, "USDT".toList, none⟩

end Digdigdig3.SymbolNormalizer
