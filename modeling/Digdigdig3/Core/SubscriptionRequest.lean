import Digdigdig3.Core.StreamSpec

/-!
# Subscription requests

`SubscriptionRequest` and `StreamType` (`crates/dig3-core/src/core/types/websocket.rs`), and the
conversions of `stream_spec.rs` between them and the specs of the transport. The `try_from`
conversions return `Ok` for everything; `ε` is the type of the errors they could return.

* `StreamKind.tryFrom_ofKind`: a kind comes back from its stream type.
* `StreamSpec.tryFrom_ofSpec`: what comes back of a spec.
* `StreamSpec.survives_iff`: when it asks for the same text.
-/

namespace Digdigdig3

variable {ε : Type}

/-! ## Stream types -/

/-- `StreamType` (lines 48–146). -/
inductive StreamType
  | ticker
  | trade
  | orderbook
  | orderbookDelta
  | kline (interval : String)
  | markPrice
  | fundingRate
  | liquidation
  | openInterest
  | longShortRatio
  | aggTrade
  | compositeIndex
  | markPriceKline (interval : String)
  | indexPriceKline (interval : String)
  | premiumIndexKline (interval : String)
  | indexPrice
  | historicalVolatility
  | insuranceFund
  | basis
  | optionGreeks
  | volatilityIndex
  | blockTrade
  | auctionEvent
  | marketWarning
  | orderbookL3
  | settlementEvent
  | riskLimit
  | predictedFunding
  | fundingSettlement
  | orderUpdate
  | balanceUpdate
  | positionUpdate
  deriving DecidableEq

/-- `StreamKind::try_from` (`stream_spec.rs` lines 98–142). -/
def StreamKind.tryFrom (st : StreamType) : Except ε StreamKind :=
  .ok (match st with
    | .ticker => .ticker
    | .trade => .trade
    | .orderbook => .orderbook
    | .orderbookDelta => .orderbookDelta
    | .orderbookL3 => .orderbookL3
    | .kline interval => .kline ⟨interval⟩
    | .markPrice => .markPrice
    | .fundingRate => .fundingRate
    | .liquidation => .liquidation
    | .openInterest => .openInterest
    | .longShortRatio => .longShortRatio
    | .aggTrade => .aggTrade
    | .compositeIndex => .compositeIndex
    | .markPriceKline interval => .markPriceKline ⟨interval⟩
    | .indexPriceKline interval => .indexPriceKline ⟨interval⟩
    | .premiumIndexKline interval => .premiumIndexKline ⟨interval⟩
    | .indexPrice => .indexPrice
    | .historicalVolatility => .historicalVolatility
    | .insuranceFund => .insuranceFund
    | .basis => .basis
    | .optionGreeks => .optionGreeks
    | .volatilityIndex => .volatilityIndex
    | .blockTrade => .blockTrade
    | .auctionEvent => .auctionEvent
    | .marketWarning => .marketWarning
    | .settlementEvent => .settlementEvent
    | .riskLimit => .riskLimit
    | .predictedFunding => .predictedFunding
    | .fundingSettlement => .fundingSettlement
    | .orderUpdate => .orderUpdate
    | .balanceUpdate => .balanceUpdate
    | .positionUpdate => .positionUpdate)

/-- `StreamType::from` (`stream_spec.rs` lines 149–192). -/
def StreamType.ofKind : StreamKind → StreamType
  | .ticker => .ticker
  | .trade => .trade
  | .orderbook => .orderbook
  | .orderbookDelta => .orderbookDelta
  | .orderbookL3 => .orderbookL3
  | .kline interval => .kline interval.text
  | .markPrice => .markPrice
  | .fundingRate => .fundingRate
  | .liquidation => .liquidation
  | .openInterest => .openInterest
  | .longShortRatio => .longShortRatio
  | .aggTrade => .aggTrade
  | .compositeIndex => .compositeIndex
  | .markPriceKline interval => .markPriceKline interval.text
  | .indexPriceKline interval => .indexPriceKline interval.text
  | .premiumIndexKline interval => .premiumIndexKline interval.text
  | .indexPrice => .indexPrice
  | .historicalVolatility => .historicalVolatility
  | .insuranceFund => .insuranceFund
  | .basis => .basis
  | .optionGreeks => .optionGreeks
  | .volatilityIndex => .volatilityIndex
  | .blockTrade => .blockTrade
  | .auctionEvent => .auctionEvent
  | .marketWarning => .marketWarning
  | .settlementEvent => .settlementEvent
  | .riskLimit => .riskLimit
  | .predictedFunding => .predictedFunding
  | .fundingSettlement => .fundingSettlement
  | .orderUpdate => .orderUpdate
  | .balanceUpdate => .balanceUpdate
  | .positionUpdate => .positionUpdate

/-- A kind comes back from its stream type. -/
theorem StreamKind.tryFrom_ofKind (kind : StreamKind) :
    StreamKind.tryFrom (StreamType.ofKind kind) = (.ok kind : Except ε StreamKind) := by
  cases kind <;> rfl

/-! ## Requests -/

/-- `SubscriptionRequest` (lines 154–168). -/
structure SubscriptionRequest where
  symbol : Symbol
  streamType : StreamType
  accountType : AccountType
  depth : Option UInt32
  updateSpeedMs : Option UInt32
  deriving DecidableEq

/-- `Symbol::to_concat` (`core/types/common.rs` lines 347–349). -/
def Symbol.toConcat (sym : Symbol) : List Char := sym.base ++ sym.quote

/-- `StreamSpec::try_from` (`stream_spec.rs` lines 50–69). -/
def StreamSpec.tryFrom (req : SubscriptionRequest) : Except ε StreamSpec := do
  let kind ← StreamKind.tryFrom req.streamType
  let raw := req.symbol.raw.getD req.symbol.toConcat
  return { kind, symbol := .raw raw, accountType := req.accountType, depth := req.depth,
           speedMs := req.updateSpeedMs }

/-- `SubscriptionRequest::from` (`stream_spec.rs` lines 73–89). -/
def SubscriptionRequest.ofSpec (U : Unicode) (spec : StreamSpec) : SubscriptionRequest where
  symbol := match spec.symbol with
    | .raw s => Symbol.withRaw U [] [] s
    | .canonical sym => sym
  streamType := StreamType.ofKind spec.kind
  accountType := spec.accountType
  depth := spec.depth
  updateSpeedMs := spec.speedMs

namespace StreamSpec

/-! ## The way out and back -/

/-- The text that the symbol has once it has been through a request. -/
def requestText : OwnedSymbolInput → List Char
  | .raw s => s
  | .canonical sym => sym.raw.getD sym.toConcat

/-- What comes back of a spec: its symbol has become a text. -/
theorem tryFrom_ofSpec (U : Unicode) (spec : StreamSpec) :
    StreamSpec.tryFrom (SubscriptionRequest.ofSpec U spec) =
      (.ok { spec with symbol := .raw (requestText spec.symbol) } : Except ε StreamSpec) := by
  obtain ⟨kind, symbol, accountType, depth, speedMs⟩ := spec
  rw [tryFrom]
  simp only [SubscriptionRequest.ofSpec, StreamKind.tryFrom_ofKind]
  cases symbol <;> rfl

/-- The spec comes back with its kind, account, depth and speed, and asks for the same text. -/
def Survives (ε : Type) (U : Unicode) (exchange : ExchangeId) (accountType : AccountType)
    (spec : StreamSpec) : Prop :=
  ∃ back : StreamSpec, StreamSpec.tryFrom (SubscriptionRequest.ofSpec U spec) =
      (.ok back : Except ε StreamSpec) ∧
    back.kind = spec.kind ∧ back.accountType = spec.accountType ∧ back.depth = spec.depth ∧
    back.speedMs = spec.speedMs ∧
    back.resolveSymbol U exchange accountType = spec.resolveSymbol U exchange accountType

/-- A canonical symbol has to be normalized to its raw text, or to its base and quote with nothing
    between them. -/
theorem survives_iff (U : Unicode) (exchange : ExchangeId) (accountType : AccountType)
    (spec : StreamSpec) : Survives ε U exchange accountType spec ↔
      ∀ sym, spec.symbol = .canonical sym →
        SymbolNormalizer.toExchange U exchange sym accountType =
          .ok (sym.raw.getD sym.toConcat) := by
  have hsurvives : Survives ε U exchange accountType spec ↔
      (.ok (requestText spec.symbol) : Except NormalizerError (List Char)) =
        spec.symbol.resolve U exchange accountType := by
    rw [Survives, tryFrom_ofSpec]
    constructor
    · rintro ⟨back, hback, -, -, -, -, hresolve⟩
      cases hback
      exact hresolve
    · intro hresolve
      exact ⟨_, rfl, rfl, rfl, rfl, rfl, hresolve⟩
  rw [hsurvives]
  cases hsymbol : spec.symbol with
  | raw s => exact iff_of_true rfl nofun
  | canonical sym =>
    constructor
    · rintro h _ ⟨⟩
      exact h.symm
    · intro h
      exact (h sym rfl).symm

end StreamSpec

end Digdigdig3
