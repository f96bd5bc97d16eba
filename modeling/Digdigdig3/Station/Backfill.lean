import Digdigdig3.Derived.Basic
import Digdigdig3.Lib.Paging

/-!
# Seeds from the REST history

`klines_paginated`, `agg_trades_paginated` and `trades_recent`
(`crates/digdigdig3-station/src/backfill.rs`) read a history backwards and report how much of it
they got in a `SeedOutcome`. A connector is what it declares and how it answers each call.

* `klines_honest_iff`, `aggTrades_honest_iff`, `trades_honest_iff`: when the report is true to the
  calls that were made.
* `honest_iff`: all three.
-/

namespace Digdigdig3.Backfill

open Derived (BarPoint TradePoint wrapI64)
open Paging

/-! ## Data -/

/-- `HistoryCursor` (`core/types/capabilities.rs` lines 271–282). -/
inductive HistoryCursor
  | fromId | tsCursor | tsWindow
  deriving DecidableEq

/-- `TradeHistoryTier` (lines 291–332), without what nothing here reads. -/
inductive TradeHistoryTier
  | restDeep (cursor : HistoryCursor)
  | restWindow (cursor : HistoryCursor) (maxBackMs : ℕ)
  | fileDump
  | recentOnly (maxTrades : ℕ)
  deriving DecidableEq

/-- `SeedSource` (`backfill.rs` lines 48–60), without the sources of other helpers. -/
inductive SeedSource
  | aggTradesPaginated | recentTradesFallback | klines
  deriving DecidableEq

/-- `TruncationReason` (lines 64–79). -/
inductive TruncationReason
  | venueRecentOnly | venueWindowCap | venueHistoryExhausted | error
  deriving DecidableEq

/-- `SeedOutcome` (lines 88–100). -/
structure SeedOutcome where
  requested : ℕ
  achieved : ℕ
  source : SeedSource
  truncatedBy : Option TruncationReason
  deriving DecidableEq

/-- `SeedOutcome::full` (lines 104–106). -/
def SeedOutcome.full (requested achieved : ℕ) (source : SeedSource) : SeedOutcome :=
  { requested, achieved, source, truncatedBy := none }

/-- `SeedOutcome::truncated` (lines 109–116). -/
def SeedOutcome.truncated (requested achieved : ℕ) (source : SeedSource)
    (reason : TruncationReason) : SeedOutcome :=
  { requested, achieved, source, truncatedBy := some reason }

/-- `AggTrade` (`core/types/extended_market_data.rs` lines 20–37), without what nothing here
    reads. -/
structure AggTrade where
  aggregateId : ℤ
  price : ℚ
  quantity : ℚ
  timestamp : ℤ
  isBuy : Bool
  deriving DecidableEq

/-- `AggTradePoint` (`data/agg_trade.rs` lines 8–14). -/
structure AggTradePoint where
  tsMs : ℤ
  price : ℚ
  quantity : ℚ
  side : UInt8
  aggId : ℕ
  deriving DecidableEq

/-- `agg_trade_point_from` (lines 616–625). -/
def aggTradePointFrom (t : AggTrade) : AggTradePoint :=
  { tsMs := t.timestamp, price := t.price, quantity := t.quantity
    side := if t.isBuy then 0 else 1, aggId := (t.aggregateId % 2 ^ 64).toNat }

/-- A connector: what it declares for the account, and its answer to each call of a walk by the
    number of the call, the limit and the cursor. Bars and trades come as points. -/
structure Rest (E : Type) where
  tier : TradeHistoryTier
  klineBackpage : Bool
  getKlines : ℕ → ℕ → Option ℤ → Except E (List BarPoint)
  getAggTrades : ℕ → ℕ → Option ℕ → Except E (List AggTrade)
  getRecentTrades : ℕ → Except E (List TradePoint)

variable {E : Type}

/-! ## `trades_recent` -/

/-- `recent_only_cap` (lines 172–177). -/
def recentOnlyCap : TradeHistoryTier → Option ℕ
  | .recentOnly maxTrades => some maxTrades
  | _ => none

/-- `effective_limit` (line 146). -/
def effectiveLimit (rest : Rest E) (limit : ℕ) : ℕ :=
  max (min (min limit ((recentOnlyCap rest.tier).getD 1000)) 1000) 1

/-- `trades_recent` (lines 128–167). -/
def tradesRecent (hub : Option (Rest E)) (limit : ℕ) : List TradePoint × SeedOutcome :=
  match hub with
  | none => ([], .truncated limit 0 .recentTradesFallback .error)
  | some rest =>
    match rest.getRecentTrades (effectiveLimit rest limit) with
    | .ok points =>
      let outcome :=
        if (recentOnlyCap rest.tier).any fun cap => cap < limit then
          SeedOutcome.truncated limit points.length .recentTradesFallback .venueRecentOnly
        else SeedOutcome.full limit points.length .recentTradesFallback
      (points, outcome)
    | .error _ => ([], .truncated limit 0 .recentTradesFallback .error)

/-! ## `klines_paginated` -/

/-- `page_size.min(1000).max(1)` (lines 322 and 458). -/
def pageLimit (pageSize : ℕ) : ℕ := max (min pageSize 1000) 1

/-- `min()` of a key over a page, which is not empty. -/
def minKey {P K : Type} [LinearOrder K] (key : P → K) (default : K) (page : List P) : K :=
  (page.map key).min?.getD default

/-- The pages of `klines_paginated` (lines 331–375). -/
def klinePager (rest : Rest E) (limit : ℕ) : Pager BarPoint ℤ ℤ E :=
  { key := BarPoint.openTime
    get := fun call next => rest.getKlines call limit next
    limit
    atWall := fun _ => false
    advance := fun page => some (minKey BarPoint.openTime 0 page) }

/-- `effective_n_pages` (line 324). -/
def effectiveNPages (rest : Rest E) (nPages : ℕ) : ℕ := if rest.klineBackpage then nPages else 1

/-- `usize::saturating_mul`. -/
def saturatingMul (a b : ℕ) : ℕ := min (a * b) (2 ^ 64 - 1)

/-- `klines_paginated` (lines 305–387), at the time `now`. -/
def klinesPaginated (hub : Option (Rest E)) (now : ℤ) (pageSize nPages : ℕ) :
    List BarPoint × SeedOutcome :=
  let requested := saturatingMul pageSize nPages
  if nPages = 0 ∨ pageSize = 0 then ([], .full 0 0 .klines)
  else
    match hub with
    | none => ([], .truncated requested 0 .klines .error)
    | some rest =>
      let pages := effectiveNPages rest nPages
      let s := (klinePager rest (pageLimit pageSize)).loop pages (Pager.start (some now))
      let achieved := s.byKey.length
      let outcome :=
        if s.failed then SeedOutcome.truncated requested achieved .klines .error
        else if !rest.klineBackpage ∧ 1 < nPages then
          SeedOutcome.truncated requested achieved .klines .venueWindowCap
        else if s.pagesDone < pages then
          SeedOutcome.truncated requested achieved .klines .venueHistoryExhausted
        else SeedOutcome.full requested achieved .klines
      (s.byKey, outcome)

/-! ## `agg_trades_paginated` -/

/-- A recent trade with its place for an id (lines 470–479 and 588–597). -/
def withSyntheticIds (trades : List TradePoint) : List AggTradePoint :=
  trades.mapIdx fun i t =>
    { tsMs := t.tsMs, price := t.price, quantity := t.quantity, side := t.side, aggId := i }

/-- `window_wall_ms` (lines 485–490). -/
def windowWallMs (tier : TradeHistoryTier) (now : ℤ) : Option ℤ :=
  match tier with
  | .restWindow _ maxBackMs =>
    if 0 < maxBackMs then some (wrapI64 (now - wrapI64 maxBackMs)) else none
  | _ => none

/-- `cursor_kind` (lines 491–496). -/
def cursorKind : TradeHistoryTier → HistoryCursor
  | .restDeep cursor => cursor
  | .restWindow cursor _ => cursor
  | _ => .fromId

/-- The cursor of the next page (lines 555–575), or the beginning of the history. -/
def nextFromId (isTsWindow : Bool) (limit minId : ℕ) : Option ℕ :=
  if isTsWindow then (if minId = 0 then none else some (minId - 1))
  else (if minId ≤ limit then none else some (minId - limit))

/-- The pages of `agg_trades_paginated` (lines 499–577). -/
def aggTradePager (rest : Rest E) (now : ℤ) (limit : ℕ) : Pager AggTradePoint ℕ ℕ E :=
  { key := AggTradePoint.aggId
    get := fun call next => (rest.getAggTrades call limit next).map (List.map aggTradePointFrom)
    limit
    atWall := fun page => (windowWallMs rest.tier now).any fun wall =>
      minKey AggTradePoint.tsMs (2 ^ 63 - 1) page ≤ wall
    advance := fun page =>
      nextFromId (cursorKind rest.tier == .tsWindow) limit (minKey AggTradePoint.aggId 0 page) }

/-- The walk of `agg_trades_paginated` and its report (lines 499–614). -/
def walkAggTrades (rest : Rest E) (now : ℤ) (limit requested nPages : ℕ) :
    List AggTradePoint × SeedOutcome :=
  let s := (aggTradePager rest now limit).loop nPages (Pager.start none)
  if s.failed ∧ s.pagesDone = 0 then
    let trades := (tradesRecent (some rest) limit).1
    (withSyntheticIds trades, .truncated requested trades.length .recentTradesFallback .error)
  else
    let achieved := s.byKey.length
    let outcome :=
      if s.hitWall then
        SeedOutcome.truncated requested achieved .aggTradesPaginated .venueWindowCap
      else if s.pagesDone < nPages then
        SeedOutcome.truncated requested achieved .aggTradesPaginated .venueHistoryExhausted
      else SeedOutcome.full requested achieved .aggTradesPaginated
    (s.byKey, outcome)

/-- `agg_trades_paginated` (lines 445–614), at the time `now`. -/
def aggTradesPaginated (hub : Option (Rest E)) (now : ℤ) (pageSize nPages : ℕ) :
    List AggTradePoint × SeedOutcome :=
  let requested := saturatingMul pageSize nPages
  if nPages = 0 ∨ pageSize = 0 then ([], .full 0 0 .aggTradesPaginated)
  else
    match hub with
    | none => ([], .truncated requested 0 .aggTradesPaginated .error)
    | some rest =>
      let limit := pageLimit pageSize
      match recentOnlyCap rest.tier with
      | some maxTrades =>
        let trades := (tradesRecent (some rest) (max (min maxTrades limit) 1)).1
        (withSyntheticIds trades,
          .truncated requested trades.length .recentTradesFallback .venueRecentOnly)
      | none => walkAggTrades rest now limit requested nPages

/-! ## Specification -/

/-- A call of a walk: how many records were asked for, and how many came, if it did not fail. -/
structure RestCall where
  asked : ℕ
  answer : Option ℕ
  deriving DecidableEq

/-- The call failed. -/
def RestCall.Failed (c : RestCall) : Prop := c.answer = none

/-- The venue had less than it was asked for. -/
def RestCall.Short (c : RestCall) : Prop := ∃ got, c.answer = some got ∧ got < c.asked

/-- The calls of a walk over pages. -/
def callsOf {P : Type} (limit : ℕ) (walk : List (List P) × Ending) : List RestCall :=
  walk.1.map (fun page => ⟨limit, some page.length⟩) ++
    match walk.2 with
    | .failed => [⟨limit, none⟩]
    | .empty => [⟨limit, some 0⟩]
    | _ => []

/-- The call of `trades_recent`. -/
def recentCall (rest : Rest E) (limit : ℕ) : RestCall :=
  ⟨effectiveLimit rest limit,
    (rest.getRecentTrades (effectiveLimit rest limit)).toOption.map List.length⟩

/-- The report is true to what was returned, to the calls that were made and to whether what the
    venue declares has cut the walk short. -/
structure Honest (returned : ℕ) (outcome : SeedOutcome) (calls : List RestCall) (capped : Prop) :
    Prop where
  achieved : outcome.achieved = returned
  error_iff : outcome.truncatedBy = some .error ↔ ∃ c ∈ calls, c.Failed
  exhausted : outcome.truncatedBy = some .venueHistoryExhausted → ∃ c ∈ calls, c.Short
  declared : outcome.truncatedBy = some .venueWindowCap ∨
    outcome.truncatedBy = some .venueRecentOnly → capped
  satisfied : outcome.truncatedBy = none →
    outcome.requested ≤ outcome.achieved ∨ ∃ c ∈ calls, c.Short

/-- What a seed asks for. -/
inductive Request
  | klines (pageSize nPages : ℕ)
  | aggTrades (pageSize nPages : ℕ)
  | trades (limit : ℕ)

section Walks

variable (rest : Rest E) (now : ℤ)

/-- The walk of `klines_paginated`. -/
def klineWalk (pageSize nPages : ℕ) : List (List BarPoint) × Ending :=
  (klinePager rest (pageLimit pageSize)).walk (effectiveNPages rest nPages) 0 (some now)

/-- The walk of `agg_trades_paginated`. -/
def aggTradeWalk (pageSize nPages : ℕ) : List (List AggTradePoint) × Ending :=
  (aggTradePager rest now (pageLimit pageSize)).walk nPages 0 none

/-- The calls of a seed. -/
def calls : Request → List RestCall
  | .klines pageSize nPages =>
    if nPages = 0 ∨ pageSize = 0 then []
    else callsOf (pageLimit pageSize) (klineWalk rest now pageSize nPages)
  | .aggTrades pageSize nPages =>
    if nPages = 0 ∨ pageSize = 0 then []
    else
      match recentOnlyCap rest.tier with
      | some maxTrades => [recentCall rest (max (min maxTrades (pageLimit pageSize)) 1)]
      | none =>
        let walk := aggTradeWalk rest now pageSize nPages
        callsOf (pageLimit pageSize) walk ++
          if walk.2 = .failed ∧ walk.1 = [] then [recentCall rest (pageLimit pageSize)] else []
  | .trades limit => [recentCall rest limit]

/-- What the venue declares cuts the walk short: bars have one page, the last page reaches the wall
    of the window, or only recent trades are served. -/
def Capped : Request → Prop
  | .klines _ nPages => rest.klineBackpage = false ∧ 1 < nPages
  | .aggTrades pageSize nPages =>
    (recentOnlyCap rest.tier).isSome ∨
      ∃ page ∈ (aggTradeWalk rest now pageSize nPages).1, ∃ wall,
        windowWallMs rest.tier now = some wall ∧ ∃ p ∈ page, p.tsMs ≤ wall
  | .trades limit => ∃ cap, recentOnlyCap rest.tier = some cap ∧ cap < limit

/-- The report of a seed is honest. -/
def HonestSeed : Request → Prop
  | .klines pageSize nPages =>
    let r := klinesPaginated (some rest) now pageSize nPages
    Honest r.1.length r.2 (calls rest now (.klines pageSize nPages))
      (Capped rest now (.klines pageSize nPages))
  | .aggTrades pageSize nPages =>
    let r := aggTradesPaginated (some rest) now pageSize nPages
    Honest r.1.length r.2 (calls rest now (.aggTrades pageSize nPages))
      (Capped rest now (.aggTrades pageSize nPages))
  | .trades limit =>
    let r := tradesRecent (some rest) limit
    Honest r.1.length r.2 (calls rest now (.trades limit)) (Capped rest now (.trades limit))

/-- The records of the pages have as many keys as were asked for. -/
def Enough {P K : Type} [LinearOrder K] (key : P → K) (pages : List (List P))
    (pageSize nPages : ℕ) : Prop :=
  saturatingMul pageSize nPages ≤ (pages.flatten.map key).toFinset.card

/-- When the report can be honest. Bars: full pages up to the last one have enough bars. Trades in
    pages: only the first call may fail, a full page before the last may not reach back to the
    first id or time, and full pages up to the last one have enough trades. Recent trades: the
    call does not fail if it is made by `agg_trades_paginated`, and it asks for all that is wanted,
    or gets it. -/
def HonestWhen : Request → Prop
  | .klines pageSize nPages =>
    let walk := klineWalk rest now pageSize nPages
    nPages ≠ 0 → pageSize ≠ 0 → rest.klineBackpage ∨ nPages = 1 →
      walk.2 = .done → Enough BarPoint.openTime walk.1 pageSize nPages
  | .aggTrades pageSize nPages =>
    nPages ≠ 0 → pageSize ≠ 0 →
      match recentOnlyCap rest.tier with
      | some maxTrades => ¬(recentCall rest (max (min maxTrades (pageLimit pageSize)) 1)).Failed
      | none =>
        let walk := aggTradeWalk rest now pageSize nPages
        (walk.2 = .failed → walk.1 = []) ∧ (walk.2 = .origin → walk.1.length = nPages) ∧
          (walk.2 = .origin ∨ walk.2 = .done →
            Enough AggTradePoint.aggId walk.1 pageSize nPages)
  | .trades limit =>
    ∀ got, (recentCall rest limit).answer = some got →
      (∀ cap, recentOnlyCap rest.tier = some cap → limit ≤ cap) → effectiveLimit rest limit ≤ got →
        limit ≤ got

end Walks

/-! ## Calls -/

section Calls

variable {P C : Type}

theorem exists_failed_iff {limit : ℕ} {walk : List (List P) × Ending} :
    (∃ c ∈ callsOf limit walk, c.Failed) ↔ walk.2 = .failed := by
  obtain ⟨pages, ending⟩ := walk
  unfold callsOf
  simp only [List.mem_append, List.mem_map, or_and_right, exists_or, RestCall.Failed]
  constructor
  · rintro (⟨c, ⟨page, -, rfl⟩, hc⟩ | ⟨c, hc, hfailed⟩)
    · cases hc
    · cases ending <;> simp at hc ⊢
      rw [hc] at hfailed
      cases hfailed
  · rintro rfl
    exact Or.inr ⟨_, List.mem_singleton_self _, rfl⟩

variable {K : Type} (pg : Pager P K C E) {pages call : ℕ} {next : Option C}

/-- The venue had no more where the walk ends with no page or a short one. -/
theorem exists_short_of_ending (hlimit : 0 < pg.limit)
    (h : (pg.walk pages call next).2 = .empty ∨ (pg.walk pages call next).2 = .short) :
    ∃ c ∈ callsOf pg.limit (pg.walk pages call next), c.Short := by
  unfold callsOf
  rcases h with h | h
  · rw [h]
    exact ⟨⟨pg.limit, some 0⟩, by simp, 0, rfl, hlimit⟩
  · obtain ⟨page, hpage, hshort⟩ := Pager.exists_short h
    refine ⟨⟨pg.limit, some page.length⟩, ?_, page.length, rfl, hshort⟩
    exact List.mem_append_left _ (List.mem_map_of_mem hpage)

/-- It had all that it was asked for where the walk ends otherwise, but for the wall. -/
theorem not_short_of_ending (h : (pg.walk pages call next).2 = .failed ∨
    (pg.walk pages call next).2 = .origin ∨ (pg.walk pages call next).2 = .done) :
    ¬∃ c ∈ callsOf pg.limit (pg.walk pages call next), c.Short := by
  rintro ⟨c, hc, got, hgot, hlt⟩
  have hfull : ∀ page ∈ (pg.walk pages call next).1, pg.limit ≤ page.length := Pager.limit_le
    (by rcases h with h | h | h <;> rw [h] <;> decide)
    (by rcases h with h | h | h <;> rw [h] <;> decide)
  unfold callsOf at hc
  rcases List.mem_append.mp hc with hc | hc
  · obtain ⟨page, hpage, rfl⟩ := List.mem_map.mp hc
    cases hgot
    exact absurd (hfull page hpage) (not_le.mpr hlt)
  · rcases h with h | h | h <;> rw [h] at hc <;> simp at hc
    rw [hc] at hgot
    cases hgot

end Calls

/-! ## Reports by their reason -/

section Reasons

variable {returned : ℕ} {o : SeedOutcome} {cs : List RestCall} {capped : Prop}

theorem honest_error_iff (h : o.truncatedBy = some .error) :
    Honest returned o cs capped ↔ o.achieved = returned ∧ ∃ c ∈ cs, c.Failed := by
  constructor
  · exact fun hh => ⟨hh.achieved, hh.error_iff.mp h⟩
  · rintro ⟨hachieved, hfailed⟩
    exact ⟨hachieved, iff_of_true h hfailed, by simp [h], by simp [h], by simp [h]⟩

theorem honest_exhausted_iff (h : o.truncatedBy = some .venueHistoryExhausted) :
    Honest returned o cs capped ↔
      o.achieved = returned ∧ (¬∃ c ∈ cs, c.Failed) ∧ ∃ c ∈ cs, c.Short := by
  constructor
  · refine fun hh => ⟨hh.achieved, fun hfailed => ?_, hh.exhausted h⟩
    have herror := hh.error_iff.mpr hfailed
    rw [h] at herror
    cases herror
  · rintro ⟨hachieved, hfailed, hshort⟩
    exact ⟨hachieved, iff_of_false (by simp [h]) hfailed, fun _ => hshort, by simp [h], by simp [h]⟩

theorem honest_declared_iff (h : o.truncatedBy = some .venueWindowCap ∨
    o.truncatedBy = some .venueRecentOnly) :
    Honest returned o cs capped ↔ o.achieved = returned ∧ (¬∃ c ∈ cs, c.Failed) ∧ capped := by
  constructor
  · refine fun hh => ⟨hh.achieved, fun hfailed => ?_, hh.declared h⟩
    have herror := hh.error_iff.mpr hfailed
    rcases h with h | h <;> rw [h] at herror <;> cases herror
  · rintro ⟨hachieved, hfailed, hcapped⟩
    exact ⟨hachieved, iff_of_false (by rcases h with h | h <;> simp [h]) hfailed,
      by rcases h with h | h <;> simp [h], fun _ => hcapped, by rcases h with h | h <;> simp [h]⟩

theorem honest_satisfied_iff (h : o.truncatedBy = none) :
    Honest returned o cs capped ↔ o.achieved = returned ∧ (¬∃ c ∈ cs, c.Failed) ∧
      (o.requested ≤ o.achieved ∨ ∃ c ∈ cs, c.Short) := by
  constructor
  · refine fun hh => ⟨hh.achieved, fun hfailed => ?_, hh.satisfied h⟩
    have herror := hh.error_iff.mpr hfailed
    rw [h] at herror
    cases herror
  · rintro ⟨hachieved, hfailed, hsatisfied⟩
    exact ⟨hachieved, iff_of_false (by simp [h]) hfailed, by simp [h], by simp [h],
      fun _ => hsatisfied⟩

end Reasons

theorem pageLimit_pos (pageSize : ℕ) : 0 < pageLimit pageSize :=
  lt_of_lt_of_le Nat.one_pos (le_max_right _ _)

section Reports

variable (rest : Rest E) (now : ℤ)

/-! ## Bars -/

/-- The report of `klines_paginated`, by how its walk ends. -/
theorem klinesPaginated_eq {pageSize nPages : ℕ} (hasked : ¬(nPages = 0 ∨ pageSize = 0)) :
    klinesPaginated (some rest) now pageSize nPages =
      (keepAll BarPoint.openTime [] (klineWalk rest now pageSize nPages).1.flatten,
        { requested := saturatingMul pageSize nPages
          achieved :=
            ((klineWalk rest now pageSize nPages).1.flatten.map BarPoint.openTime).toFinset.card
          source := .klines
          truncatedBy :=
            if (klineWalk rest now pageSize nPages).2 = .failed then some .error
            else if rest.klineBackpage = false ∧ 1 < nPages then some .venueWindowCap
            else if (klineWalk rest now pageSize nPages).1.length < effectiveNPages rest nPages then
              some .venueHistoryExhausted
            else none }) := by
  obtain ⟨hkept, hdone, hfailed, -⟩ := Pager.loop_eq (klinePager rest (pageLimit pageSize))
    (effectiveNPages rest nPages) (Pager.start (some now)) rfl rfl
  have hkept' : ((klinePager rest (pageLimit pageSize)).loop (effectiveNPages rest nPages)
      (Pager.start (some now))).byKey =
        keepAll BarPoint.openTime [] (klineWalk rest now pageSize nPages).1.flatten := hkept
  have hdone' : ((klinePager rest (pageLimit pageSize)).loop (effectiveNPages rest nPages)
      (Pager.start (some now))).pagesDone = (klineWalk rest now pageSize nPages).1.length := by
    rw [hdone]
    exact Nat.zero_add _
  replace hfailed : ((klinePager rest (pageLimit pageSize)).loop (effectiveNPages rest nPages)
      (Pager.start (some now))).failed = true ↔ (klineWalk rest now pageSize nPages).2 = .failed :=
    hfailed
  unfold klinesPaginated
  rw [if_neg hasked]
  simp only [hkept', hdone', hfailed, length_keepAll, Bool.not_eq_true']
  refine Prod.ext rfl ?_
  simp only
  split_ifs <;> rfl

/-- A seed that asks for nothing is honest. -/
theorem honest_full_zero (source : SeedSource) (capped : Prop) :
    Honest 0 (SeedOutcome.full 0 0 source) [] capped :=
  (honest_satisfied_iff rfl).mpr ⟨rfl, by simp, Or.inl le_rfl⟩

/-- The report on bars is honest just when the full pages that end it have enough of them. -/
theorem klines_honest_iff (pageSize nPages : ℕ) :
    HonestSeed rest now (.klines pageSize nPages) ↔
      HonestWhen rest now (.klines pageSize nPages) := by
  unfold HonestSeed HonestWhen
  simp only
  by_cases hasked : nPages = 0 ∨ pageSize = 0
  · have hreport : klinesPaginated (some rest) now pageSize nPages = ([], .full 0 0 .klines) :=
      if_pos hasked
    have hcalls : calls rest now (.klines pageSize nPages) = [] := if_pos hasked
    rw [hreport, hcalls]
    refine iff_of_true (honest_full_zero _ _) fun hpages hsize => ?_
    exact absurd hasked (not_or.mpr ⟨hpages, hsize⟩)
  · obtain ⟨hpages, hsize⟩ := not_or.mp hasked
    have hwalls : (klineWalk rest now pageSize nPages).2 ≠ .wall := Pager.ne_wall fun _ => rfl
    have horigins : (klineWalk rest now pageSize nPages).2 ≠ .origin :=
      Pager.ne_origin fun _ => Option.some_ne_none _
    have hcalls : calls rest now (.klines pageSize nPages) =
        callsOf (pageLimit pageSize) (klineWalk rest now pageSize nPages) := if_neg hasked
    have hfailed : (∃ c ∈ callsOf (pageLimit pageSize) (klineWalk rest now pageSize nPages),
        c.Failed) ↔ (klineWalk rest now pageSize nPages).2 = .failed := exists_failed_iff
    have hshort : (klineWalk rest now pageSize nPages).2 = .empty ∨
        (klineWalk rest now pageSize nPages).2 = .short →
          ∃ c ∈ callsOf (pageLimit pageSize) (klineWalk rest now pageSize nPages), c.Short :=
      exists_short_of_ending (klinePager rest (pageLimit pageSize)) (pageLimit_pos pageSize)
    have hlong : (klineWalk rest now pageSize nPages).2 = .done →
        ¬∃ c ∈ callsOf (pageLimit pageSize) (klineWalk rest now pageSize nPages), c.Short :=
      fun h => not_short_of_ending (klinePager rest (pageLimit pageSize)) (Or.inr (Or.inr h))
    have hdone : (klineWalk rest now pageSize nPages).2 = .done →
        (klineWalk rest now pageSize nPages).1.length = effectiveNPages rest nPages :=
      Pager.length_of_done
    have hempty : (klineWalk rest now pageSize nPages).2 = .empty →
        (klineWalk rest now pageSize nPages).1.length < effectiveNPages rest nPages :=
      fun h => Pager.length_lt_of_failed (Or.inr h)
    rw [klinesPaginated_eq rest now hasked, hcalls]
    simp only
    rw [length_keepAll]
    generalize klineWalk rest now pageSize nPages = walk at *
    by_cases hfail : walk.2 = .failed
    · rw [honest_error_iff (if_pos hfail)]
      exact iff_of_true ⟨rfl, hfailed.mpr hfail⟩ fun _ _ _ hend => by rw [hfail] at hend; cases hend
    · have hnot := mt hfailed.mp hfail
      by_cases hone : rest.klineBackpage = false ∧ 1 < nPages
      · rw [honest_declared_iff (Or.inl (by simp only; rw [if_neg hfail, if_pos hone]))]
        refine iff_of_true ⟨rfl, hnot, hone⟩ fun _ _ hback _ => ?_
        rcases hback with hback | hback
        · rw [hone.1] at hback
          cases hback
        · omega
      · have hback : rest.klineBackpage = true ∨ nPages = 1 := by
          rcases hb : rest.klineBackpage with _ | _
          · rw [hb] at hone
            simp only [true_and] at hone
            exact Or.inr (by omega)
          · exact Or.inl rfl
        by_cases hless : walk.1.length < effectiveNPages rest nPages
        · rw [honest_exhausted_iff (by simp only; rw [if_neg hfail, if_neg hone, if_pos hless])]
          have hend : walk.2 ≠ .done := fun hend => absurd (hdone hend) hless.ne
          refine iff_of_true ⟨rfl, hnot, hshort ?_⟩ fun _ _ _ h => absurd h hend
          rcases hw : walk.2 with _ | _ | _ | _ | _ | _ <;> simp_all
        · rw [honest_satisfied_iff (by simp only; rw [if_neg hfail, if_neg hone, if_neg hless])]
          by_cases hend : walk.2 = .done
          · constructor
            · exact fun h _ _ _ _ => h.2.2.resolve_right (hlong hend)
            · exact fun h => ⟨rfl, hnot, Or.inl (h hpages hsize hback hend)⟩
          · refine iff_of_true ⟨rfl, hnot, Or.inr (hshort ?_)⟩ fun _ _ _ h => absurd h hend
            rcases hw : walk.2 with _ | _ | _ | _ | _ | _ <;> simp_all

/-! ## Trades in pages -/

/-- The report of `agg_trades_paginated` where the first page fails. -/
theorem walkAggTrades_fallback {pageSize nPages requested : ℕ}
    (hend : (aggTradeWalk rest now pageSize nPages).2 = .failed)
    (hfirst : (aggTradeWalk rest now pageSize nPages).1 = []) :
    walkAggTrades rest now (pageLimit pageSize) requested nPages =
      (withSyntheticIds (tradesRecent (some rest) (pageLimit pageSize)).1,
        .truncated requested (tradesRecent (some rest) (pageLimit pageSize)).1.length
          .recentTradesFallback .error) := by
  obtain ⟨-, hdone, hfailed, -⟩ := Pager.loop_eq (aggTradePager rest now (pageLimit pageSize))
    nPages (Pager.start none) rfl rfl
  unfold walkAggTrades
  simp only
  rw [if_pos]
  refine ⟨hfailed.mpr hend, ?_⟩
  rw [hdone]
  exact (Nat.zero_add _).trans (congrArg List.length hfirst)

/-- The report of `agg_trades_paginated` otherwise, by how its walk ends. -/
theorem walkAggTrades_eq {pageSize nPages requested : ℕ}
    (hfirst : (aggTradeWalk rest now pageSize nPages).2 = .failed →
      (aggTradeWalk rest now pageSize nPages).1 ≠ []) :
    walkAggTrades rest now (pageLimit pageSize) requested nPages =
      (keepAll AggTradePoint.aggId [] (aggTradeWalk rest now pageSize nPages).1.flatten,
        { requested
          achieved := ((aggTradeWalk rest now pageSize nPages).1.flatten.map
            AggTradePoint.aggId).toFinset.card
          source := .aggTradesPaginated
          truncatedBy :=
            if (aggTradeWalk rest now pageSize nPages).2 = .wall then some .venueWindowCap
            else if (aggTradeWalk rest now pageSize nPages).1.length < nPages then
              some .venueHistoryExhausted
            else none }) := by
  obtain ⟨hkept, hdone, hfailed, hwall⟩ := Pager.loop_eq
    (aggTradePager rest now (pageLimit pageSize)) nPages (Pager.start none) rfl rfl
  have hkept' : ((aggTradePager rest now (pageLimit pageSize)).loop nPages
      (Pager.start none)).byKey =
        keepAll AggTradePoint.aggId [] (aggTradeWalk rest now pageSize nPages).1.flatten := hkept
  have hdone' : ((aggTradePager rest now (pageLimit pageSize)).loop nPages
      (Pager.start none)).pagesDone = (aggTradeWalk rest now pageSize nPages).1.length := by
    rw [hdone]
    exact Nat.zero_add _
  replace hwall : ((aggTradePager rest now (pageLimit pageSize)).loop nPages
      (Pager.start none)).hitWall = true ↔
        (aggTradeWalk rest now pageSize nPages).2 = .wall := hwall
  unfold walkAggTrades
  simp only [hkept', hdone', hwall, length_keepAll]
  rw [if_neg]
  · refine Prod.ext rfl ?_
    simp only
    split_ifs <;> rfl
  · rintro ⟨h, hnone⟩
    exact hfirst (hfailed.mp h) (List.eq_nil_of_length_eq_zero hnone)

theorem length_withSyntheticIds (trades : List TradePoint) :
    (withSyntheticIds trades).length = trades.length := List.length_mapIdx

/-- Recent trades only: the report does not tell whether the call failed. -/
theorem recentOnly_honest_iff {pageSize nPages maxTrades : ℕ}
    (hasked : ¬(nPages = 0 ∨ pageSize = 0)) (hcap : recentOnlyCap rest.tier = some maxTrades) :
    HonestSeed rest now (.aggTrades pageSize nPages) ↔
      ¬(recentCall rest (max (min maxTrades (pageLimit pageSize)) 1)).Failed := by
  have hreport : aggTradesPaginated (some rest) now pageSize nPages =
      (withSyntheticIds
          (tradesRecent (some rest) (max (min maxTrades (pageLimit pageSize)) 1)).1,
        .truncated (saturatingMul pageSize nPages)
          (tradesRecent (some rest) (max (min maxTrades (pageLimit pageSize)) 1)).1.length
          .recentTradesFallback .venueRecentOnly) := by
    unfold aggTradesPaginated
    simp only [if_neg hasked, hcap]
  have hcalls : calls rest now (.aggTrades pageSize nPages) =
      [recentCall rest (max (min maxTrades (pageLimit pageSize)) 1)] := by
    unfold calls
    simp only [if_neg hasked, hcap]
  unfold HonestSeed
  simp only
  rw [hreport, hcalls, length_withSyntheticIds, honest_declared_iff (Or.inr rfl)]
  constructor
  · exact fun h hfailed => h.2.1 ⟨_, List.mem_singleton_self _, hfailed⟩
  · refine fun h => ⟨rfl, ?_, Or.inl (by rw [hcap]; rfl)⟩
    rintro ⟨c, hc, hfailed⟩
    rw [List.mem_singleton.mp hc] at hfailed
    exact h hfailed

/-- The smallest key of a page is that of a record. -/
theorem exists_minKey {P K : Type} [LinearOrder K] {key : P → K} {default : K} {page : List P}
    (hpage : page ≠ []) : ∃ p ∈ page, key p = minKey key default page := by
  rcases hmin : (page.map key).min? with _ | k
  · rw [List.min?_eq_none_iff, List.map_eq_nil_iff] at hmin
    exact absurd hmin hpage
  · obtain ⟨p, hp, hkey⟩ := List.mem_map.mp (List.min?_eq_some_iff.mp hmin).1
    exact ⟨p, hp, by rw [minKey, hmin, hkey, Option.getD_some]⟩

theorem minKey_le {P K : Type} [LinearOrder K] {key : P → K} {default : K} {page : List P} {p : P}
    (hp : p ∈ page) : minKey key default page ≤ key p := by
  rcases hmin : (page.map key).min? with _ | k
  · rw [List.min?_eq_none_iff, List.map_eq_nil_iff] at hmin
    exact absurd (hmin ▸ hp) List.not_mem_nil
  · rw [minKey, hmin, Option.getD_some]
    exact (List.min?_eq_some_iff.mp hmin).2 _ (List.mem_map_of_mem hp)

/-- A walk that ends at the wall was cut short by it. -/
theorem capped_of_wall {pageSize nPages : ℕ}
    (h : (aggTradeWalk rest now pageSize nPages).2 = .wall) :
    Capped rest now (.aggTrades pageSize nPages) := by
  obtain ⟨page, hpage, hne, hat⟩ := Pager.exists_atWall h
  obtain ⟨wall, hwall, hle⟩ := (Option.any_eq_true _ _).mp hat
  obtain ⟨p, hp, hmin⟩ : ∃ p ∈ page, p.tsMs = minKey AggTradePoint.tsMs (2 ^ 63 - 1) page :=
    exists_minKey hne
  refine Or.inr ⟨page, hpage, wall, hwall, p, hp, ?_⟩
  rw [hmin]
  exact of_decide_eq_true hle

/-- The walk over trades is reported honestly just when nothing but its first call fails, no full
    page before the last reaches back to the beginning, and full pages have enough trades. -/
theorem walked_honest_iff {pageSize nPages : ℕ} (hasked : ¬(nPages = 0 ∨ pageSize = 0))
    (hcap : recentOnlyCap rest.tier = none) :
    HonestSeed rest now (.aggTrades pageSize nPages) ↔
      ((aggTradeWalk rest now pageSize nPages).2 = .failed →
          (aggTradeWalk rest now pageSize nPages).1 = []) ∧
        ((aggTradeWalk rest now pageSize nPages).2 = .origin →
          (aggTradeWalk rest now pageSize nPages).1.length = nPages) ∧
        ((aggTradeWalk rest now pageSize nPages).2 = .origin ∨
            (aggTradeWalk rest now pageSize nPages).2 = .done →
          Enough AggTradePoint.aggId (aggTradeWalk rest now pageSize nPages).1
            pageSize nPages) := by
  have hreport : aggTradesPaginated (some rest) now pageSize nPages =
      walkAggTrades rest now (pageLimit pageSize) (saturatingMul pageSize nPages) nPages := by
    unfold aggTradesPaginated
    simp only [if_neg hasked, hcap]
  have hcalls : calls rest now (.aggTrades pageSize nPages) =
      callsOf (pageLimit pageSize) (aggTradeWalk rest now pageSize nPages) ++
        if (aggTradeWalk rest now pageSize nPages).2 = .failed ∧
            (aggTradeWalk rest now pageSize nPages).1 = [] then
          [recentCall rest (pageLimit pageSize)]
        else [] := by
    unfold calls
    simp only [if_neg hasked, hcap]
  have hfailed : (∃ c ∈ callsOf (pageLimit pageSize) (aggTradeWalk rest now pageSize nPages),
      c.Failed) ↔ (aggTradeWalk rest now pageSize nPages).2 = .failed := exists_failed_iff
  have hshort : (aggTradeWalk rest now pageSize nPages).2 = .empty ∨
      (aggTradeWalk rest now pageSize nPages).2 = .short →
        ∃ c ∈ callsOf (pageLimit pageSize) (aggTradeWalk rest now pageSize nPages), c.Short :=
    exists_short_of_ending (aggTradePager rest now (pageLimit pageSize))
      (pageLimit_pos pageSize)
  have hlong : (aggTradeWalk rest now pageSize nPages).2 = .failed ∨
      (aggTradeWalk rest now pageSize nPages).2 = .origin ∨
      (aggTradeWalk rest now pageSize nPages).2 = .done →
        ¬∃ c ∈ callsOf (pageLimit pageSize) (aggTradeWalk rest now pageSize nPages), c.Short :=
    not_short_of_ending (aggTradePager rest now (pageLimit pageSize))
  have hdone : (aggTradeWalk rest now pageSize nPages).2 = .done →
      (aggTradeWalk rest now pageSize nPages).1.length = nPages := Pager.length_of_done
  have hless : (aggTradeWalk rest now pageSize nPages).2 = .failed ∨
      (aggTradeWalk rest now pageSize nPages).2 = .empty →
        (aggTradeWalk rest now pageSize nPages).1.length < nPages := Pager.length_lt_of_failed
  have hle : (aggTradeWalk rest now pageSize nPages).1.length ≤ nPages := Pager.length_walk_le
  have hwall : (aggTradeWalk rest now pageSize nPages).2 = .wall →
      Capped rest now (.aggTrades pageSize nPages) := capped_of_wall rest now
  by_cases hfirst : (aggTradeWalk rest now pageSize nPages).2 = .failed ∧
      (aggTradeWalk rest now pageSize nPages).1 = []
  · unfold HonestSeed
    simp only
    rw [hreport, hcalls, walkAggTrades_fallback rest now hfirst.1 hfirst.2,
      length_withSyntheticIds]
    rw [honest_error_iff rfl]
    refine iff_of_true ⟨rfl, ?_⟩ ?_
    · obtain ⟨c, hc, hcfailed⟩ := hfailed.mpr hfirst.1
      exact ⟨c, List.mem_append_left _ hc, hcfailed⟩
    · rw [hfirst.1]
      exact ⟨fun _ => hfirst.2, by simp, by simp⟩
  · unfold HonestSeed
    simp only
    rw [hreport, hcalls, walkAggTrades_eq rest now fun hend hnil => hfirst ⟨hend, hnil⟩,
      if_neg hfirst, List.append_nil]
    simp only
    rw [length_keepAll]
    generalize hwalk : aggTradeWalk rest now pageSize nPages = walk at *
    by_cases hfail : walk.2 = .failed
    · -- a page after the first failed
      rw [honest_exhausted_iff (by
        simp only
        rw [if_neg (by rw [hfail]; decide), if_pos (hless (Or.inl hfail))])]
      exact iff_of_false (fun h => h.2.1 (hfailed.mpr hfail)) fun h => hfirst ⟨hfail, h.1 hfail⟩
    · have hnot := mt hfailed.mp hfail
      by_cases hatWall : walk.2 = .wall
      · rw [honest_declared_iff (Or.inl (if_pos hatWall))]
        refine iff_of_true ⟨rfl, hnot, hwall hatWall⟩ ?_
        rw [hatWall]
        exact ⟨by simp, by simp, by simp⟩
      · by_cases hlt : walk.1.length < nPages
        · rw [honest_exhausted_iff (by simp only; rw [if_neg hatWall, if_pos hlt])]
          have hend : walk.2 ≠ .done := fun hend => absurd (hdone hend) hlt.ne
          by_cases horigin : walk.2 = .origin
          · refine iff_of_false (fun h => hlong (Or.inr (Or.inl horigin)) h.2.2) fun h => ?_
            exact absurd (h.2.1 horigin) hlt.ne
          · refine iff_of_true ⟨rfl, hnot, hshort ?_⟩
              ⟨fun h => absurd h hfail, fun h => absurd h horigin, fun h => ?_⟩
            · rcases hw : walk.2 with _ | _ | _ | _ | _ | _ <;> simp_all
            · exact absurd h (not_or.mpr ⟨horigin, hend⟩)
        · rw [honest_satisfied_iff (by simp only; rw [if_neg hatWall, if_neg hlt])]
          have hall : walk.1.length = nPages := le_antisymm hle (not_lt.mp hlt)
          by_cases hend : walk.2 = .origin ∨ walk.2 = .done
          · constructor
            · intro h
              exact ⟨fun hf => absurd hf hfail, fun _ => hall,
                fun _ => h.2.2.resolve_right (hlong (Or.inr hend))⟩
            · exact fun h => ⟨rfl, hnot, Or.inl (h.2.2 hend)⟩
          · refine iff_of_true ⟨rfl, hnot, Or.inr (hshort ?_)⟩
              ⟨fun h => absurd h hfail, fun _ => hall, fun h => absurd h hend⟩
            rcases hw : walk.2 with _ | _ | _ | _ | _ | _ <;> simp_all

/-- The report on trades in pages. -/
theorem aggTrades_honest_iff (pageSize nPages : ℕ) :
    HonestSeed rest now (.aggTrades pageSize nPages) ↔
      HonestWhen rest now (.aggTrades pageSize nPages) := by
  by_cases hasked : nPages = 0 ∨ pageSize = 0
  · have hreport : aggTradesPaginated (some rest) now pageSize nPages =
        ([], .full 0 0 .aggTradesPaginated) := if_pos hasked
    have hcalls : calls rest now (.aggTrades pageSize nPages) = [] := if_pos hasked
    unfold HonestSeed HonestWhen
    simp only
    rw [hreport, hcalls]
    refine iff_of_true (honest_full_zero _ _) fun hpages hsize => ?_
    exact absurd hasked (not_or.mpr ⟨hpages, hsize⟩)
  · obtain ⟨hpages, hsize⟩ := not_or.mp hasked
    unfold HonestWhen
    rcases hcap : recentOnlyCap rest.tier with _ | maxTrades
    · rw [walked_honest_iff rest now hasked hcap]
      simp only [hpages, hsize, ne_eq, not_false_eq_true, true_implies]
    · rw [recentOnly_honest_iff rest now hasked hcap]
      simp only [hpages, hsize, ne_eq, not_false_eq_true, true_implies]

/-! ## Recent trades -/

/-- The report on recent trades is honest just when a venue that could give more than it was asked
    for was asked for enough. -/
theorem trades_honest_iff (limit : ℕ) :
    HonestSeed rest now (.trades limit) ↔ HonestWhen rest now (.trades limit) := by
  have hcalls : calls rest now (.trades limit) = [recentCall rest limit] := rfl
  unfold HonestSeed HonestWhen
  simp only
  rw [hcalls]
  unfold tradesRecent
  simp only
  rcases hget : rest.getRecentTrades (effectiveLimit rest limit) with e | points
  · have hanswer : (recentCall rest limit).answer = none := by
      unfold recentCall
      rw [hget]
      rfl
    rw [honest_error_iff rfl, hanswer]
    exact iff_of_true ⟨rfl, _, List.mem_singleton_self _, hanswer⟩ fun got h => by cases h
  · have hanswer : (recentCall rest limit).answer = some points.length := by
      unfold recentCall
      rw [hget]
      rfl
    have hnot : ¬∃ c ∈ [recentCall rest limit], c.Failed := by
      rintro ⟨c, hc, hfailed⟩
      rw [List.mem_singleton.mp hc, RestCall.Failed, hanswer] at hfailed
      cases hfailed
    have hshort : (∃ c ∈ [recentCall rest limit], c.Short) ↔
        points.length < effectiveLimit rest limit := by
      simp only [List.mem_singleton, exists_eq_left, RestCall.Short, hanswer, Option.some.injEq,
        exists_eq_left']
      rfl
    simp only
    by_cases hcap : ((recentOnlyCap rest.tier).any fun cap => decide (cap < limit)) = true
    · rw [if_pos hcap, honest_declared_iff (Or.inr rfl)]
      obtain ⟨cap, hsome, hlt⟩ := (Option.any_eq_true _ _).mp hcap
      refine iff_of_true ⟨rfl, hnot, cap, hsome, of_decide_eq_true hlt⟩ fun got _ hle => ?_
      exact absurd (hle cap hsome) (not_le.mpr (of_decide_eq_true hlt))
    · have hle : ∀ cap, recentOnlyCap rest.tier = some cap → limit ≤ cap := by
        intro cap hsome
        by_contra hlt
        exact hcap ((Option.any_eq_true _ _).mpr ⟨cap, hsome, decide_eq_true (not_le.mp hlt)⟩)
      rw [if_neg hcap, honest_satisfied_iff rfl, hshort, hanswer]
      constructor
      · rintro ⟨-, -, henough | hless⟩ got hgot - hfull
        · cases hgot
          exact henough
        · cases hgot
          exact absurd hfull (not_le.mpr hless)
      · intro h
        refine ⟨rfl, hnot, ?_⟩
        rcases le_or_gt (effectiveLimit rest limit) points.length with hfull | hless
        · exact Or.inl (h _ rfl hle hfull)
        · exact Or.inr hless

/-- **Main theorem.** When the report of each seed is honest. -/
theorem honest_iff (request : Request) :
    HonestSeed rest now request ↔ HonestWhen rest now request := by
  cases request with
  | klines pageSize nPages => exact klines_honest_iff rest now pageSize nPages
  | aggTrades pageSize nPages => exact aggTrades_honest_iff rest now pageSize nPages
  | trades limit => exact trades_honest_iff rest now limit

end Reports

/-- A venue without a limit that fails on its second page of trades. -/
def failsOnSecondPage : Rest Unit where
  tier := .restDeep .fromId
  klineBackpage := false
  getKlines _ _ _ := .error ()
  getAggTrades call _ _ :=
    if call = 0 then
      .ok [{ aggregateId := 10, price := 1, quantity := 1, timestamp := 5, isBuy := true }]
    else .error ()
  getRecentTrades _ := .error ()

/-- The second page fails, and the seed reports that the venue has no more history. -/
theorem error_reported_as_exhausted :
    ¬∀ (rest : Rest Unit) (now : ℤ) (request : Request), HonestSeed rest now request := by
  intro h
  have hseed := (h failsOnSecondPage 0 (.aggTrades 1 2)).error_iff
  have hfailed : ∃ c ∈ calls failsOnSecondPage 0 (.aggTrades 1 2), c.Failed :=
    ⟨⟨1, none⟩, by decide, rfl⟩
  have herror := hseed.mpr hfailed
  revert herror
  decide

end Digdigdig3.Backfill
