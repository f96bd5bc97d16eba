import Digdigdig3.Station.Backfill

/-!
# Trades read backwards

`agg_trades_paginated` (`crates/digdigdig3-station/src/backfill.rs` lines 445–614) on a venue that
serves a fixed history by what its `HistoryCursor` says. By ids a page starts at the cursor; by
times it ends there, and a time stands for the id of a trade, so two trades of one millisecond have
one id.

* `reads_byId`, `reads_byTime`: what each kind of cursor is good for.
* `lossless_iff`: the histories of which nothing is lost.
-/

namespace Digdigdig3.Backfill

open Paging

variable {E : Type}

/-! ## Venues -/

/-- The cursor of the tier is a time. -/
def byTime (tier : TradeHistoryTier) : Bool := cursorKind tier == .tsWindow

/-- The trades of a history from the oldest to the newest: their ids are natural numbers of `i64`,
    one after the other, or the times of the trades. -/
structure History (tier : TradeHistoryTier) (trades : List AggTrade) : Prop where
  ordered : trades.Pairwise fun a b => a.timestamp ≤ b.timestamp
  range : ∀ t ∈ trades, 0 ≤ t.aggregateId ∧ t.aggregateId < 2 ^ 63
  times : byTime tier = true → ∀ t ∈ trades, t.aggregateId = t.timestamp
  consecutive : byTime tier = false →
    ∀ i t u, trades[i]? = some t → trades[i + 1]? = some u → u.aggregateId = t.aggregateId + 1

/-- The page that a venue serves for a cursor: the newest trades without one, by ids the first
    trades from it on, by times the newest trades up to it. -/
def servedPage (tier : TradeHistoryTier) (trades : List AggTrade) (limit : ℕ) :
    Option ℕ → List AggTrade
  | none => newest limit trades
  | some cursor =>
    if byTime tier then newest limit (trades.filter fun t => t.timestamp ≤ cursor)
    else (trades.filter fun t => (cursor : ℤ) ≤ t.aggregateId).take limit

/-- A connector that pages, of a venue with the history; a page may come in any order. -/
structure Serves (rest : Rest E) (trades : List AggTrade) : Prop where
  history : History rest.tier trades
  paged : (∃ cursor, rest.tier = .restDeep cursor) ∨
    ∃ cursor back, rest.tier = .restWindow cursor back
  pages : ∀ call limit next, ∃ page, rest.getAggTrades call limit next = .ok page ∧
    page.Perm (servedPage rest.tier trades limit next)

/-! ## Specification -/

/-- The trade is newer than the wall, if there is one. -/
def Newer (wall : Option ℤ) (t : AggTrade) : Prop := ∀ w, wall = some w → w < t.timestamp

instance (wall : Option ℤ) (t : AggTrade) : Decidable (Newer wall t) :=
  inferInstanceAs (Decidable (∀ w, wall = some w → w < t.timestamp))

/-- What is returned are trades out of the newest ones that were asked for, from the oldest to the
    newest, and among them are all that are newer than the wall. History is reported as
    exhausted only when the first trade was returned. -/
structure Lossless (rest : Rest E) (now : ℤ) (trades : List AggTrade) (pageSize nPages : ℕ) :
    Prop where
  newer_sublist :
    List.Sublist (((newest (pageSize * nPages) trades).filter
        fun t => Newer (windowWallMs rest.tier now) t).map aggTradePointFrom)
      (aggTradesPaginated (some rest) now pageSize nPages).1
  sublist_newest :
    List.Sublist (aggTradesPaginated (some rest) now pageSize nPages).1
      ((newest (pageSize * nPages) trades).map aggTradePointFrom)
  exhausted : (aggTradesPaginated (some rest) now pageSize nPages).2.truncatedBy =
      some .venueHistoryExhausted →
    ∀ t, trades.head? = some t →
      aggTradePointFrom t ∈ (aggTradesPaginated (some rest) now pageSize nPages).1

/-- Of the trades that are asked for and are newer than the wall no two share a millisecond. -/
def Apart (rest : Rest E) (now : ℤ) (trades : List AggTrade) (asked : ℕ) : Prop :=
  (((newest asked trades).filter
    fun t => Newer (windowWallMs rest.tier now) t).map AggTrade.timestamp).Nodup

/-- No page but the last ends at a trade newer than the wall whose id is not above the page size,
    unless it is the first trade. -/
def IdsAbove (rest : Rest E) (now : ℤ) (trades : List AggTrade) (pageSize nPages : ℕ) : Prop :=
  ∀ k t, 0 < k → k < nPages → k * pageSize < trades.length →
    trades[trades.length - k * pageSize]? = some t → Newer (windowWallMs rest.tier now) t →
      (pageSize : ℤ) < t.aggregateId

/-- Times keep the trades apart, or their ids lie above the page size. -/
def KeepsAll (rest : Rest E) (now : ℤ) (trades : List AggTrade) (pageSize nPages : ℕ) : Prop :=
  if byTime rest.tier then Apart rest now trades (pageSize * nPages)
  else IdsAbove rest now trades pageSize nPages

/-! ## Records of trades -/

theorem aggId_eq {t : AggTrade} (h : 0 ≤ t.aggregateId ∧ t.aggregateId < 2 ^ 63) :
    ((aggTradePointFrom t).aggId : ℤ) = t.aggregateId := by
  unfold aggTradePointFrom
  simp only
  rw [Int.emod_eq_of_lt h.1 (by omega), Int.toNat_of_nonneg h.1]

/-- A strictly ascending list of elements of an ascending one is part of it. -/
theorem sublist_of_ascending {P K : Type} [LinearOrder K] {key : P → K} {xs ys : List P}
    (hxs : Ascending key xs) (hys : ys.Pairwise fun a b => key a ≤ key b)
    (hsub : ∀ x ∈ xs, x ∈ ys) : xs.Sublist ys := by
  induction ys generalizing xs with
  | nil =>
    cases xs with
    | nil => exact List.Sublist.slnil
    | cons x xs => exact absurd (hsub x List.mem_cons_self) List.not_mem_nil
  | cons y ys ih =>
    obtain ⟨hy, htail⟩ := List.pairwise_cons.mp hys
    cases xs with
    | nil => exact List.nil_sublist _
    | cons x xs =>
      obtain ⟨hx, hxs'⟩ := List.pairwise_cons.mp hxs
      by_cases hxy : x = y
      · subst hxy
        refine List.Sublist.cons_cons x (ih hxs' htail fun z hz => ?_)
        rcases List.mem_cons.mp (hsub z (List.mem_cons_of_mem x hz)) with rfl | hmem
        · exact absurd (hx z hz) (lt_irrefl _)
        · exact hmem
      · refine List.Sublist.cons y (ih hxs htail fun z hz => ?_)
        rcases List.mem_cons.mp (hsub z hz) with rfl | hmem
        · -- the first element of the ascending list is below all of `xs`
          rcases List.mem_cons.mp hz with rfl | hz
          · exact absurd rfl hxy
          · have hx' := List.mem_cons.mp (hsub x List.mem_cons_self)
            have hle := hy x (hx'.resolve_left hxy)
            exact absurd (hx z hz) (not_lt.mpr hle)
        · exact hmem

theorem filter_eq_drop {α : Type} {p : α → Bool} {xs : List α} {k : ℕ}
    (h : ∀ i x, xs[i]? = some x → (p x = true ↔ k ≤ i)) : xs.filter p = xs.drop k := by
  induction xs generalizing k with
  | nil => simp
  | cons x xs ih =>
    have hx := h 0 x rfl
    cases k with
    | zero =>
      rw [List.drop_zero, List.filter_cons_of_pos (hx.mpr le_rfl)]
      rw [@ih 0 fun i y hy => iff_of_true ((h (i + 1) y hy).mpr (Nat.zero_le _)) (Nat.zero_le _),
        List.drop_zero]
    | succ k =>
      rw [List.drop_succ_cons, List.filter_cons_of_neg (fun hp => by have := hx.mp hp; omega)]
      exact ih fun i y hy => (h (i + 1) y hy).trans (by omega)

theorem filter_eq_take {α : Type} {p : α → Bool} {xs : List α} {k : ℕ}
    (h : ∀ i x, xs[i]? = some x → (p x = true ↔ i < k)) : xs.filter p = xs.take k := by
  induction xs generalizing k with
  | nil => simp
  | cons x xs ih =>
    have hx := h 0 x rfl
    cases k with
    | zero =>
      rw [List.take_zero, List.filter_cons_of_neg (fun hp => by have := hx.mp hp; omega)]
      exact (@ih 0 fun i y hy => (h (i + 1) y hy).trans (by omega)).trans (List.take_zero)
    | succ k =>
      rw [List.take_succ_cons, List.filter_cons_of_pos (hx.mpr (Nat.succ_pos k))]
      rw [@ih k fun i y hy => (h (i + 1) y hy).trans (by omega)]

section Served

variable {rest : Rest E} {now : ℤ} {trades : List AggTrade} {limit : ℕ}

theorem History.le_of_lt (h : History rest.tier trades) {i j : ℕ} {t u : AggTrade} (hij : i ≤ j)
    (ht : trades[i]? = some t) (hu : trades[j]? = some u) : t.timestamp ≤ u.timestamp := by
  rcases hij.eq_or_lt with rfl | hlt
  · rw [ht] at hu
    cases hu
    exact le_rfl
  · obtain ⟨hi, rfl⟩ := List.getElem?_eq_some_iff.mp ht
    obtain ⟨hj, rfl⟩ := List.getElem?_eq_some_iff.mp hu
    exact List.pairwise_iff_getElem.mp h.ordered i j hi hj hlt

/-- By ids the trades are numbered from the first one. -/
theorem History.id_eq (h : History rest.tier trades) (hids : byTime rest.tier = false) {i : ℕ}
    {first t : AggTrade} (hfirst : trades[0]? = some first) (ht : trades[i]? = some t) :
    t.aggregateId = first.aggregateId + i := by
  induction i generalizing t with
  | zero =>
    rw [hfirst] at ht
    cases ht
    simp
  | succ i ih =>
    obtain ⟨hi, -⟩ := List.getElem?_eq_some_iff.mp ht
    have hprev : trades[i]? = some trades[i] := List.getElem?_eq_getElem (by omega)
    rw [h.consecutive hids i _ t hprev ht, ih hprev]
    push_cast
    ring

/-- The ids of the records ascend. -/
theorem History.aggId_le (h : History rest.tier trades) {i j : ℕ} {t u : AggTrade} (hij : i ≤ j)
    (ht : trades[i]? = some t) (hu : trades[j]? = some u) :
    (aggTradePointFrom t).aggId ≤ (aggTradePointFrom u).aggId := by
  have hle : t.aggregateId ≤ u.aggregateId := by
    rcases hkind : byTime rest.tier with _ | _
    · obtain ⟨hj, -⟩ := List.getElem?_eq_some_iff.mp hu
      have hfirst : trades[0]? = some trades[0] := List.getElem?_eq_getElem (by omega)
      rw [h.id_eq hkind hfirst ht, h.id_eq hkind hfirst hu]
      omega
    · rw [h.times hkind t (List.mem_of_getElem? ht), h.times hkind u (List.mem_of_getElem? hu)]
      exact h.le_of_lt hij ht hu
  have ht' := aggId_eq (h.range t (List.mem_of_getElem? ht))
  have hu' := aggId_eq (h.range u (List.mem_of_getElem? hu))
  omega

/-- A page of as many of the newest unread trades as there are, or as fit, covers them. -/
theorem covers_of_perm {pg : Pager AggTradePoint ℕ ℕ E} {page : List AggTradePoint} {r : ℕ}
    (len : ℕ) (hlimit : 0 < pg.limit) (hr : r ≤ trades.length) (hlen : min r pg.limit ≤ len)
    (hpage : page.Perm (((trades.drop (r - pg.limit)).take len).map aggTradePointFrom)) :
    pg.Covers (trades.map aggTradePointFrom) page r := by
  have hlength : page.length = min len (trades.length - (r - pg.limit)) := by
    rw [hpage.length_eq, List.length_map, List.length_take, List.length_drop]
  constructor
  · intro p hp
    obtain ⟨t, ht, rfl⟩ := List.mem_map.mp (hpage.mem_iff.mp hp)
    rw [← List.map_drop]
    exact List.mem_map_of_mem (List.mem_of_mem_take ht)
  · intro p hp
    rw [← List.map_drop] at hp ⊢
    obtain ⟨t, ht, rfl⟩ := List.mem_map.mp hp
    rw [← List.take_append_drop len (trades.drop (r - pg.limit)), List.mem_append] at ht
    rcases ht with ht | ht
    · exact Or.inl (hpage.mem_iff.mpr (List.mem_map_of_mem ht))
    · rw [List.drop_drop] at ht
      exact Or.inr (List.mem_map_of_mem (List.drop_subset_drop_left trades (by omega) ht))
  · intro hne p hp
    have hpos : 0 < page.length := List.length_pos_iff.mpr hne
    rw [List.getElem?_map] at hp
    obtain ⟨t, ht, rfl⟩ := Option.map_eq_some_iff.mp hp
    refine hpage.mem_iff.mpr (List.mem_map_of_mem ?_)
    refine List.mem_of_getElem? (i := 0) ?_
    rw [List.getElem?_take_of_lt (by omega), List.getElem?_drop]
    exact ht
  · intro hnil
    rw [hnil, List.length_nil] at hlength
    omega
  · intro hshort
    rw [hlength] at hshort
    omega

/-- The smallest key of a page is that of its oldest trade. -/
theorem minKey_eq {pg : Pager AggTradePoint ℕ ℕ E} {page : List AggTradePoint} {r : ℕ} {K : Type}
    [LinearOrder K] (key : AggTradePoint → K) (default : K)
    (hkey : ∀ (i j : ℕ) (t u : AggTrade), i ≤ j → trades[i]? = some t → trades[j]? = some u →
      key (aggTradePointFrom t) ≤ key (aggTradePointFrom u))
    (hcovers : pg.Covers (trades.map aggTradePointFrom) page r) (hpage : page ≠ []) :
    ∃ t, trades[r - pg.limit]? = some t ∧ minKey key default page = key (aggTradePointFrom t) := by
  obtain ⟨p, hp, hmin⟩ : ∃ p ∈ page, key p = minKey key default page := exists_minKey hpage
  obtain ⟨i, hi⟩ := List.getElem?_of_mem (hcovers.subset p hp)
  rw [List.getElem?_drop, List.getElem?_map] at hi
  obtain ⟨u, hu, rfl⟩ := Option.map_eq_some_iff.mp hi
  obtain ⟨hlt, -⟩ := List.getElem?_eq_some_iff.mp hu
  have ht : trades[r - pg.limit]? = some trades[r - pg.limit] :=
    List.getElem?_eq_getElem (by omega)
  refine ⟨_, ht, le_antisymm ?_ ?_⟩
  · exact minKey_le (hcovers.oldest hpage _ (by rw [List.getElem?_map, ht]; rfl))
  · rw [← hmin]
    exact hkey _ _ _ _ (Nat.le_add_right _ _) ht hu

/-- A page is at the wall just when its oldest trade is not newer. -/
theorem atWall_iff (h : History rest.tier trades) {page : List AggTradePoint} {r : ℕ}
    (hcovers : (aggTradePager rest now limit).Covers (trades.map aggTradePointFrom) page r)
    (hpage : page ≠ []) :
    ∃ t, trades[r - limit]? = some t ∧ ((aggTradePager rest now limit).atWall page = true ↔
      ¬Newer (windowWallMs rest.tier now) t) := by
  obtain ⟨t, ht, hmin⟩ := minKey_eq AggTradePoint.tsMs (2 ^ 63 - 1)
    (fun i j t u hij ht hu => h.le_of_lt hij ht hu) hcovers hpage
  refine ⟨t, ht, ?_⟩
  show ((windowWallMs rest.tier now).any fun wall =>
    decide (minKey AggTradePoint.tsMs (2 ^ 63 - 1) page ≤ wall)) = true ↔ _
  rw [hmin, Option.any_eq_true]
  unfold Newer
  push Not
  simp only [decide_eq_true_iff]
  rfl

theorem newer_of_not_atWall (h : History rest.tier trades) {page : List AggTradePoint} {r : ℕ}
    (hcovers : (aggTradePager rest now limit).Covers (trades.map aggTradePointFrom) page r)
    (hpage : page ≠ []) (hat : (aggTradePager rest now limit).atWall page = false) :
    ∃ t, trades[r - limit]? = some t ∧ Newer (windowWallMs rest.tier now) t := by
  obtain ⟨t, ht, hwall⟩ := atWall_iff h hcovers hpage
  refine ⟨t, ht, ?_⟩
  by_contra hnew
  rw [hwall.mpr hnew] at hat
  cases hat

/-- The id of the oldest trade of a page. -/
theorem minId_eq (h : History rest.tier trades) {page : List AggTradePoint} {r : ℕ}
    (hcovers : (aggTradePager rest now limit).Covers (trades.map aggTradePointFrom) page r)
    (hpage : page ≠ []) :
    ∃ t, trades[r - limit]? = some t ∧
      ((minKey AggTradePoint.aggId 0 page : ℕ) : ℤ) = t.aggregateId := by
  obtain ⟨t, ht, hmin⟩ := minKey_eq AggTradePoint.aggId 0
    (fun i j t u hij ht hu => h.aggId_le hij ht hu) hcovers hpage
  exact ⟨t, ht, by rw [hmin, aggId_eq (h.range t (List.mem_of_getElem? ht))]⟩

/-- The answer to a call. -/
theorem exists_page (now : ℤ) (limit : ℕ) (hserves : Serves rest trades) (call : ℕ)
    (next : Option ℕ) :
    ∃ page, (aggTradePager rest now limit).get call next = .ok page ∧
      page.Perm ((servedPage rest.tier trades limit next).map aggTradePointFrom) := by
  obtain ⟨page, hget, hperm⟩ := hserves.pages call limit next
  refine ⟨page.map aggTradePointFrom, ?_, hperm.map _⟩
  show (rest.getAggTrades call limit next).map (List.map aggTradePointFrom) = _
  rw [hget]
  rfl

/-- Without a cursor the newest trades are served. -/
theorem covers_newest (hlimit : 0 < limit) {page : List AggTradePoint}
    (hperm : page.Perm ((servedPage rest.tier trades limit none).map aggTradePointFrom)) :
    (aggTradePager rest now limit).Covers (trades.map aggTradePointFrom) page trades.length := by
  refine covers_of_perm limit hlimit le_rfl (min_le_right _ _) (hperm.trans ?_)
  show ((newest limit trades).map aggTradePointFrom).Perm
    (((trades.drop (trades.length - limit)).take limit).map aggTradePointFrom)
  rw [List.take_of_length_le (by rw [List.length_drop]; omega)]
  rfl

/-! ## Ids -/

/-- The cursor is that of the page before the first unread trade; and a page was read. -/
def NextById (trades : List AggTrade) (limit r : ℕ) (next : Option ℕ) : Prop :=
  (next = none ∧ r = trades.length) ∨
    ∃ cursor first, next = some cursor ∧ trades[0]? = some first ∧
      (cursor : ℤ) + limit = first.aggregateId + r ∧ r ≤ trades.length

/-- The walk ends at a trade that is not newer than the wall. -/
def AtWall (rest : Rest E) (now : ℤ) (trades : List AggTrade) (m : ℕ) : Prop :=
  ∃ t, trades[m]? = some t ∧ ¬Newer (windowWallMs rest.tier now) t

/-- What cursors by ids are good for. -/
theorem reads_byId (hserves : Serves rest trades) (hlimit : 0 < limit)
    (hids : byTime rest.tier = false) :
    (aggTradePager rest now limit).Reads (trades.map aggTradePointFrom)
      (fun _ r next => NextById trades limit r next)
      (fun b => ∀ t, trades[b]? = some t → (limit : ℤ) < t.aggregateId)
      (AtWall rest now trades)
      (fun _ m => ∃ t, trades[m]? = some t ∧ Newer (windowWallMs rest.tier now) t ∧
        t.aggregateId ≤ limit) := by
  have hhist := hserves.history
  have hlim : (aggTradePager rest now limit).limit = limit := rfl
  constructor
  · rintro n r call next (⟨rfl, rfl⟩ | ⟨cursor, first, rfl, hfirst, hcursor, hr⟩)
    · obtain ⟨page, hget, hperm⟩ := exists_page now limit hserves call none
      exact ⟨page, hget, covers_newest hlimit hperm⟩
    · obtain ⟨page, hget, hperm⟩ :=
        exists_page now limit hserves call (some cursor)
      refine ⟨page, hget, covers_of_perm limit hlimit (by omega) (min_le_right _ _) ?_⟩
      have hserved : trades.filter (fun t => decide ((cursor : ℤ) ≤ t.aggregateId)) =
          trades.drop (r - limit) := by
        apply filter_eq_drop
        intro i t ht
        rw [decide_eq_true_iff, hhist.id_eq hids hfirst ht]
        omega
      rw [hlim]
      refine hperm.trans ?_
      show ((if byTime rest.tier then _ else
        (trades.filter fun t => decide ((cursor : ℤ) ≤ t.aggregateId)).take limit).map _).Perm _
      rw [hids, if_neg Bool.false_ne_true, hserved]
  · intro n r next page hnext hcovers hpage hat
    obtain ⟨t, ht, hwall⟩ := atWall_iff hhist hcovers hpage
    exact ⟨t, ht, hwall.mp hat⟩
  · intro n r next page hnext hcovers hpage hat hfull hnone
    obtain ⟨t, ht, hnew⟩ := newer_of_not_atWall hhist hcovers hpage hat
    obtain ⟨t', ht', hmin⟩ := minId_eq hhist hcovers hpage
    rw [ht] at ht'
    cases ht'
    replace hnone : nextFromId (byTime rest.tier) limit (minKey AggTradePoint.aggId 0 page) =
        none := hnone
    rw [hids, nextFromId, if_neg Bool.false_ne_true] at hnone
    split_ifs at hnone with hle
    refine ⟨t, ht, hnew, ?_⟩
    rw [← hmin]
    exact_mod_cast hle
  · intro n r next page cursor hnext hcovers hpage hat hfull hsome
    obtain ⟨t, ht, hmin⟩ := minId_eq hhist hcovers hpage
    replace hsome : nextFromId (byTime rest.tier) limit (minKey AggTradePoint.aggId 0 page) =
        some cursor := hsome
    rw [hids, nextFromId, if_neg Bool.false_ne_true] at hsome
    split_ifs at hsome with hle
    cases hsome
    obtain ⟨hi, -⟩ := List.getElem?_eq_some_iff.mp ht
    have hfirst : trades[0]? = some trades[0] := List.getElem?_eq_getElem (by omega)
    have hid := hhist.id_eq hids hfirst ht
    rw [hlim]
    refine ⟨fun u hu => ?_, Or.inr ⟨_, _, rfl, hfirst, ?_, by omega⟩⟩
    · rw [ht] at hu
      cases hu
      omega
    · push_cast [Nat.cast_sub (not_le.mp hle).le]
      omega

/-! ## Times -/

/-- Trades that are kept apart by their times. -/
theorem Apart.ne {asked : ℕ} (h : Apart rest now trades asked) {i j : ℕ} {t u : AggTrade}
    (hij : i < j) (hi : trades.length ≤ i + asked) (ht : trades[i]? = some t)
    (hu : trades[j]? = some u) (htnew : Newer (windowWallMs rest.tier now) t)
    (hunew : Newer (windowWallMs rest.tier now) u) : t.timestamp ≠ u.timestamp := by
  unfold Apart newest at h
  rw [List.Nodup, List.pairwise_map, List.pairwise_filter, List.pairwise_iff_getElem] at h
  obtain ⟨hilt, rfl⟩ := List.getElem?_eq_some_iff.mp ht
  obtain ⟨hjlt, rfl⟩ := List.getElem?_eq_some_iff.mp hu
  have hne := h (i - (trades.length - asked)) (j - (trades.length - asked))
    (by rw [List.length_drop]; omega) (by rw [List.length_drop]; omega) (by omega)
  simp only [List.getElem_drop, decide_eq_true_iff] at hne
  have hieq : trades.length - asked + (i - (trades.length - asked)) = i := by omega
  have hjeq : trades.length - asked + (j - (trades.length - asked)) = j := by omega
  simp only [hieq, hjeq] at hne
  exact hne htnew hunew

/-- The cursor is a time before the trades that were read. -/
def NextByTime (trades : List AggTrade) (limit total n r : ℕ) (next : Option ℕ) : Prop :=
  r ≤ trades.length ∧ (∃ read, read + n = total ∧ trades.length ≤ r + read * limit) ∧
    (0 < n → (next = none ∧ r = trades.length) ∨ ∃ cursor : ℕ, next = some cursor ∧
      ∀ (i : ℕ) (t : AggTrade), trades[i]? = some t → (t.timestamp ≤ (cursor : ℤ) ↔ i < r))

/-- The trade before a page that goes on is older than all of the page. -/
theorem timestamp_lt (h : History rest.tier trades) {total n read r : ℕ} (hlimit : 0 < limit)
    (hapart : Apart rest now trades (total * limit)) (hread : read + (n + 1) = total)
    (hle : trades.length ≤ r + read * limit) (hn : 0 < n) {i : ℕ} {t u : AggTrade}
    (ht : trades[r - limit]? = some t) (hnew : Newer (windowWallMs rest.tier now) t)
    (hi : i < r - limit) (hu : trades[i]? = some u) : u.timestamp < t.timestamp := by
  obtain ⟨hlt, -⟩ := List.getElem?_eq_some_iff.mp ht
  have hprev : trades[r - limit - 1]? = some trades[r - limit - 1] :=
    List.getElem?_eq_getElem (by omega)
  have hup := h.le_of_lt (show i ≤ r - limit - 1 by omega) hu hprev
  have hpt := h.le_of_lt (Nat.sub_le _ 1) hprev ht
  refine lt_of_le_of_lt hup (lt_of_le_of_ne hpt fun heq => ?_)
  have hasked : (read + 2) * limit ≤ total * limit := Nat.mul_le_mul_right limit (by omega)
  have hmul : (read + 2) * limit = read * limit + 2 * limit := Nat.add_mul _ _ _
  refine hapart.ne (show r - limit - 1 < r - limit by omega) (by omega) hprev ht ?_ hnew heq
  intro w hw
  rw [heq]
  exact hnew w hw

/-- What cursors by times are good for where times keep the trades apart. -/
theorem reads_byTime (hserves : Serves rest trades) (hlimit : 0 < limit)
    (htimes : byTime rest.tier = true) {total : ℕ}
    (hapart : Apart rest now trades (total * limit)) :
    (aggTradePager rest now limit).Reads (trades.map aggTradePointFrom)
      (NextByTime trades limit total) (fun _ => True) (AtWall rest now trades)
      (fun left m => m = 0 ∨ left = 0) := by
  have hhist := hserves.history
  have hlim : (aggTradePager rest now limit).limit = limit := rfl
  constructor
  · rintro n r call next ⟨hr, -, hnext⟩
    rcases hnext (Nat.succ_pos n) with ⟨rfl, rfl⟩ | ⟨cursor, rfl, hcursor⟩
    · obtain ⟨page, hget, hperm⟩ := exists_page now limit hserves call none
      exact ⟨page, hget, covers_newest hlimit hperm⟩
    · obtain ⟨page, hget, hperm⟩ :=
        exists_page now limit hserves call (some cursor)
      refine ⟨page, hget, covers_of_perm (min r limit) hlimit hr le_rfl ?_⟩
      have hserved :
          trades.filter (fun t => decide (t.timestamp ≤ (cursor : ℤ))) = trades.take r := by
        apply filter_eq_take
        intro i t ht
        rw [decide_eq_true_iff]
        exact hcursor i t ht
      rw [hlim]
      refine hperm.trans ?_
      show ((if byTime rest.tier then
        newest limit (trades.filter fun t => decide (t.timestamp ≤ (cursor : ℤ)))
        else _).map _).Perm _
      rw [htimes, if_pos rfl, hserved, newest, List.length_take, List.drop_take,
        min_eq_left hr, Nat.sub_sub_eq_min]
  · intro n r next page hnext hcovers hpage hat
    obtain ⟨t, ht, hwall⟩ := atWall_iff hhist hcovers hpage
    exact ⟨t, ht, hwall.mp hat⟩
  · rintro n r next page ⟨hr, ⟨read, hread, hle⟩, -⟩ hcovers hpage hat hfull hnone
    obtain ⟨t, ht, hnew⟩ := newer_of_not_atWall hhist hcovers hpage hat
    obtain ⟨t', ht', hmin⟩ := minId_eq hhist hcovers hpage
    rw [ht] at ht'
    cases ht'
    replace hnone : nextFromId (byTime rest.tier) limit (minKey AggTradePoint.aggId 0 page) =
        none := hnone
    rw [htimes, nextFromId, if_pos rfl] at hnone
    split_ifs at hnone with hzero
    by_contra hboth
    obtain ⟨hm, hn⟩ := not_or.mp hboth
    obtain ⟨hlt, -⟩ := List.getElem?_eq_some_iff.mp ht
    have hprev : trades[0]? = some trades[0] := List.getElem?_eq_getElem (by omega)
    have hold := timestamp_lt hhist hlimit hapart hread hle (Nat.pos_of_ne_zero hn) ht hnew
      (Nat.pos_of_ne_zero hm) hprev
    have hpos := (hhist.range _ (List.mem_of_getElem? hprev)).1
    rw [hhist.times htimes _ (List.mem_of_getElem? hprev)] at hpos
    rw [hzero, hhist.times htimes t (List.mem_of_getElem? ht)] at hmin
    omega
  · rintro n r next page cursor ⟨hr, ⟨read, hread, hle⟩, -⟩ hcovers hpage hat hfull hsome
    obtain ⟨t, ht, hnew⟩ := newer_of_not_atWall hhist hcovers hpage hat
    obtain ⟨t', ht', hmin⟩ := minId_eq hhist hcovers hpage
    rw [ht] at ht'
    cases ht'
    replace hsome : nextFromId (byTime rest.tier) limit (minKey AggTradePoint.aggId 0 page) =
        some cursor := hsome
    rw [htimes, nextFromId, if_pos rfl] at hsome
    split_ifs at hsome with hzero
    cases hsome
    have hmul : (read + 1) * limit = read * limit + limit := Nat.succ_mul _ _
    rw [hlim]
    refine ⟨trivial, by omega, ⟨read + 1, by omega, by omega⟩, fun hn => Or.inr ⟨_, rfl, ?_⟩⟩
    intro i u hu
    rw [hhist.times htimes t (List.mem_of_getElem? ht)] at hmin
    constructor
    · intro hbefore
      by_contra hi
      have := hhist.le_of_lt (not_lt.mp hi) ht hu
      omega
    · intro hi
      have := timestamp_lt hhist hlimit hapart hread hle hn ht hnew hi hu
      omega

/-! ## The walk -/

section Walk

variable {pageSize nPages : ℕ}

/-- The walk reads the trades from the place `m` on, which is below all trades that were asked for
    and are newer than the wall; and it ends before its last page only at the wall or at the first
    trade. -/
structure WalksTo (rest : Rest E) (now : ℤ) (trades : List AggTrade) (pageSize nPages m : ℕ) :
    Prop where
  answered : (aggTradeWalk rest now pageSize nPages).2 ≠ .failed
  asked : trades.length ≤ m + pageSize * nPages
  mem_iff : ∀ p, p ∈ (aggTradeWalk rest now pageSize nPages).1.flatten ↔
    p ∈ (trades.drop m).map aggTradePointFrom
  complete : m = 0 ∨ m + pageSize * nPages = trades.length ∨ AtWall rest now trades m
  exhausted : (aggTradeWalk rest now pageSize nPages).2 ≠ .wall →
    (aggTradeWalk rest now pageSize nPages).1.length < nPages → m = 0

theorem pageLimit_eq (hsize : pageSize ≤ 1000) (hpos : 0 < pageSize) :
    pageLimit pageSize = pageSize := by
  unfold pageLimit
  omega

/-- What is returned, and the reason that is reported. -/
theorem aggTradesPaginated_eq (hserves : Serves rest trades) (hpages : nPages ≠ 0)
    (hsize : pageSize ≠ 0) (hanswered : (aggTradeWalk rest now pageSize nPages).2 ≠ .failed) :
    (aggTradesPaginated (some rest) now pageSize nPages).1 =
        keepAll AggTradePoint.aggId [] (aggTradeWalk rest now pageSize nPages).1.flatten ∧
      (aggTradesPaginated (some rest) now pageSize nPages).2.truncatedBy =
        if (aggTradeWalk rest now pageSize nPages).2 = .wall then some .venueWindowCap
        else if (aggTradeWalk rest now pageSize nPages).1.length < nPages then
          some .venueHistoryExhausted
        else none := by
  have hcap : recentOnlyCap rest.tier = none := by
    rcases hserves.paged with ⟨cursor, htier⟩ | ⟨cursor, back, htier⟩ <;> rw [htier] <;> rfl
  unfold aggTradesPaginated
  simp only
  rw [if_neg (not_or.mpr ⟨hpages, hsize⟩), hcap]
  simp only
  rw [walkAggTrades_eq rest now fun h => absurd h hanswered]
  exact ⟨rfl, rfl⟩

/-- A trade of a walk that does not end at the wall is newer. -/
theorem newer_of_mem_walk {t : AggTrade}
    (hwall : (aggTradeWalk rest now pageSize nPages).2 ≠ .wall)
    (ht : aggTradePointFrom t ∈ (aggTradeWalk rest now pageSize nPages).1.flatten) :
    Newer (windowWallMs rest.tier now) t := by
  obtain ⟨page, hpage, hp⟩ := List.mem_flatten.mp ht
  have hat := Pager.atWall_eq_false hwall page hpage
  intro wall hsome
  by_contra hold
  replace hat : ((windowWallMs rest.tier now).any fun wall =>
    decide (minKey AggTradePoint.tsMs (2 ^ 63 - 1) page ≤ wall)) = false := hat
  rw [hsome, Option.any_some, decide_eq_false_iff_not] at hat
  exact hat ((minKey_le hp).trans (not_lt.mp hold))

/-- A trade that was asked for and is newer than the wall comes from the place on where the walk
    ends. -/
theorem WalksTo.le {m : ℕ} (h : WalksTo rest now trades pageSize nPages m)
    (hhist : History rest.tier trades) {i : ℕ} {t : AggTrade}
    (hi : trades.length ≤ i + pageSize * nPages) (ht : trades[i]? = some t)
    (hnew : Newer (windowWallMs rest.tier now) t) : m ≤ i := by
  rcases h.complete with hzero | hall | ⟨u, hu, hold⟩
  · omega
  · omega
  · by_contra hlt
    refine hold fun wall hwall => lt_of_lt_of_le (hnew wall hwall) ?_
    exact hhist.le_of_lt (not_le.mp hlt).le ht hu

/-- Where the newer trades have keys of their own, such a walk loses nothing. -/
theorem WalksTo.lossless {m : ℕ} (h : WalksTo rest now trades pageSize nPages m)
    (hserves : Serves rest trades) (hpages : nPages ≠ 0) (hsize : pageSize ≠ 0)
    (hasc : Ascending AggTradePoint.aggId (((newest (pageSize * nPages) trades).filter
      fun t => Newer (windowWallMs rest.tier now) t).map aggTradePointFrom))
    (hown : ∀ t ∈ trades, ∀ u ∈ trades, Newer (windowWallMs rest.tier now) u →
      (aggTradePointFrom t).aggId = (aggTradePointFrom u).aggId →
        Newer (windowWallMs rest.tier now) t) :
    Lossless rest now trades pageSize nPages := by
  have hhist := hserves.history
  obtain ⟨hout, hreason⟩ := aggTradesPaginated_eq hserves hpages hsize h.answered
  have houtAsc :
      Ascending AggTradePoint.aggId (aggTradesPaginated (some rest) now pageSize nPages).1 := by
    rw [hout]
    exact ascending_keepAll List.Pairwise.nil _
  have hdrop : ∀ p, p ∈ (aggTradeWalk rest now pageSize nPages).1.flatten →
      ∃ t ∈ newest (pageSize * nPages) trades, aggTradePointFrom t = p := by
    intro p hp
    obtain ⟨t, ht, rfl⟩ := List.mem_map.mp ((h.mem_iff p).mp hp)
    have hasked := h.asked
    exact ⟨t, List.drop_subset_drop_left trades (by omega) ht, rfl⟩
  have hkept : ∀ u ∈ newest (pageSize * nPages) trades, Newer (windowWallMs rest.tier now) u →
      aggTradePointFrom u ∈ (aggTradesPaginated (some rest) now pageSize nPages).1 := by
    intro u hu hnew
    obtain ⟨i, hi⟩ := List.getElem?_of_mem hu
    rw [newest, List.getElem?_drop] at hi
    have hmi := h.le hhist (by omega) hi hnew
    have hread : aggTradePointFrom u ∈ (aggTradeWalk rest now pageSize nPages).1.flatten := by
      refine (h.mem_iff _).mpr (List.mem_map_of_mem (List.mem_of_getElem?
        (i := trades.length - pageSize * nPages + i - m) ?_))
      rw [List.getElem?_drop, Nat.add_sub_cancel' hmi]
      exact hi
    obtain ⟨q, hq, hkey⟩ : ∃ q ∈ keepAll AggTradePoint.aggId []
        (aggTradeWalk rest now pageSize nPages).1.flatten, q.aggId = (aggTradePointFrom u).aggId :=
      exists_key_keepAll (Or.inr hread)
    obtain ⟨t, ht, rfl⟩ := hdrop q ((mem_of_mem_keepAll hq).resolve_left List.not_mem_nil)
    -- the record that was kept under the key of `u` is newer, so it is that of `u`
    have htnew := hown t (mem_of_mem_newest ht) u (mem_of_mem_newest hu) hnew hkey
    have hsame := eq_of_key_eq hasc
      (List.mem_map_of_mem (List.mem_filter.mpr ⟨ht, decide_eq_true htnew⟩))
      (List.mem_map_of_mem (List.mem_filter.mpr ⟨hu, decide_eq_true hnew⟩)) hkey
    rw [hout, ← hsame]
    exact hq
  constructor
  · refine sublist_of_ascending hasc (houtAsc.imp le_of_lt) fun p hp => ?_
    obtain ⟨u, hu, rfl⟩ := List.mem_map.mp hp
    obtain ⟨humem, hnew⟩ := List.mem_filter.mp hu
    exact hkept u humem (of_decide_eq_true hnew)
  · refine sublist_of_ascending houtAsc ?_ fun p hp => ?_
    · rw [List.pairwise_map, newest]
      refine List.Pairwise.sublist (List.drop_sublist _ _) (List.pairwise_iff_getElem.mpr ?_)
      intro i j hi hj hij
      exact hhist.aggId_le hij.le (List.getElem?_eq_getElem hi) (List.getElem?_eq_getElem hj)
    · rw [hout] at hp
      obtain ⟨t, ht, rfl⟩ := hdrop p ((mem_of_mem_keepAll hp).resolve_left List.not_mem_nil)
      exact List.mem_map_of_mem ht
  · intro hexhausted t ht
    rw [hreason] at hexhausted
    have hwall : (aggTradeWalk rest now pageSize nPages).2 ≠ .wall := by
      intro hwall
      rw [if_pos hwall] at hexhausted
      cases hexhausted
    have hshort : (aggTradeWalk rest now pageSize nPages).1.length < nPages := by
      by_contra hall
      rw [if_neg hwall, if_neg hall] at hexhausted
      cases hexhausted
    have hzero := h.exhausted hwall hshort
    have hmem : t ∈ trades := List.mem_of_head? ht
    have hread : aggTradePointFrom t ∈ (aggTradeWalk rest now pageSize nPages).1.flatten := by
      rw [h.mem_iff, hzero, List.drop_zero]
      exact List.mem_map_of_mem hmem
    refine hkept t ?_ (newer_of_mem_walk hwall hread)
    have hasked := h.asked
    rwa [newest, Nat.sub_eq_zero_of_le (by omega), List.drop_zero]

/-- The walk starts with all trades unread. -/
theorem aggTradeWalk_eq (hsize : pageSize ≤ 1000) (hpos : 0 < pageSize) :
    aggTradeWalk rest now pageSize nPages =
      (aggTradePager rest now pageSize).walk nPages 0 none := by
  unfold aggTradeWalk
  rw [pageLimit_eq hsize hpos]

/-- A walk by cursors that end at no origin before the first trade and the last page. -/
theorem walksTo_of_reads (nPages : ℕ) (hsize : pageSize ≤ 1000) (hpos : 0 < pageSize)
    {N : ℕ → ℕ → Option ℕ → Prop} {B : ℕ → Prop} {O : ℕ → ℕ → Prop}
    (hreads : (aggTradePager rest now pageSize).Reads (trades.map aggTradePointFrom) N B
      (AtWall rest now trades) O)
    (hstart : N nPages trades.length none)
    (horigin : ∀ left k m, O left m → k + left = nPages → m + k * pageSize = trades.length →
      m = 0 ∨ left = 0) :
    ∃ m, WalksTo rest now trades pageSize nPages m := by
  obtain ⟨m, hfailed, ⟨-, hasked, hsub, hnew, -⟩, hcases⟩ :=
    Pager.walk_reads hreads nPages 0 trades.length none hstart
  have hmul : nPages * pageSize = pageSize * nPages := Nat.mul_comm _ _
  have hlim : (aggTradePager rest now pageSize).limit = pageSize := rfl
  rw [hlim] at hasked hcases
  refine ⟨m, ?_⟩
  constructor
  · rwa [aggTradeWalk_eq hsize hpos]
  · omega
  · intro p
    rw [aggTradeWalk_eq hsize hpos, List.map_drop]
    refine ⟨hsub p, fun hp => (hnew p hp).resolve_right ?_⟩
    rw [← List.map_drop, List.drop_length]
    exact List.not_mem_nil
  · rcases hcases with hzero | ⟨-, hm⟩ | ⟨-, hat⟩ | ⟨-, left, hO, hlen, hm⟩
    · exact Or.inl hzero
    · exact Or.inr (Or.inl (by omega))
    · exact Or.inr (Or.inr hat)
    · rcases horigin left _ m hO hlen hm with hzero | rfl
      · exact Or.inl hzero
      · rw [Nat.add_zero] at hlen
        rw [hlen] at hm
        exact Or.inr (Or.inl (by omega))
  · rw [aggTradeWalk_eq hsize hpos]
    intro hwall hshort
    rcases hcases with hzero | ⟨hdone, -⟩ | ⟨hat, -⟩ | ⟨-, left, hO, hlen, hm⟩
    · exact hzero
    · exact absurd (Pager.length_of_done hdone) hshort.ne
    · exact absurd hat hwall
    · exact (horigin left _ m hO hlen hm).resolve_right (by omega)

/-- Times that are apart lose nothing. -/
theorem lossless_byTime (hserves : Serves rest trades) (hsize : pageSize ≤ 1000)
    (hpos : pageSize ≠ 0) (hpages : nPages ≠ 0) (htimes : byTime rest.tier = true)
    (hapart : Apart rest now trades (pageSize * nPages)) :
    Lossless rest now trades pageSize nPages := by
  have hhist := hserves.history
  have hapart' := hapart
  rw [Nat.mul_comm] at hapart'
  obtain ⟨m, hwalk⟩ := walksTo_of_reads nPages hsize (Nat.pos_of_ne_zero hpos)
    (reads_byTime hserves (Nat.pos_of_ne_zero hpos) htimes hapart')
    ⟨le_rfl, ⟨0, Nat.zero_add nPages, by simp⟩, fun _ => Or.inl ⟨rfl, rfl⟩⟩
    (fun left k m hO _ _ => hO)
  have hid : ∀ t ∈ trades, ((aggTradePointFrom t).aggId : ℤ) = t.timestamp := by
    intro t ht
    rw [aggId_eq (hhist.range t ht), hhist.times htimes t ht]
  refine hwalk.lossless hserves hpages hpos ?_ ?_
  · unfold Apart at hapart
    rw [List.Nodup, List.pairwise_map] at hapart
    have hle : ((newest (pageSize * nPages) trades).filter
        fun t => Newer (windowWallMs rest.tier now) t).Pairwise
          fun t u => t.timestamp ≤ u.timestamp :=
      hhist.ordered.sublist (List.filter_sublist.trans (List.drop_sublist _ _))
    rw [Ascending, List.pairwise_map]
    refine (hle.and hapart).imp_of_mem fun {t u} ht hu hboth => ?_
    have htid := hid t (mem_of_mem_newest (List.mem_filter.mp ht).1)
    have huid := hid u (mem_of_mem_newest (List.mem_filter.mp hu).1)
    have hlt := lt_of_le_of_ne hboth.1 hboth.2
    omega
  · intro t ht u hu hnew hkey wall hwall
    have hlt := hnew wall hwall
    have htid := hid t ht
    have huid := hid u hu
    omega

/-- By ids the records ascend. -/
theorem ascending_byId (h : History rest.tier trades) (hids : byTime rest.tier = false) :
    Ascending AggTradePoint.aggId (trades.map aggTradePointFrom) := by
  rw [Ascending, List.pairwise_map, List.pairwise_iff_getElem]
  intro i j hi hj hij
  have hfirst : trades[0]? = some trades[0] := List.getElem?_eq_getElem (by omega)
  have hti := h.id_eq hids hfirst (List.getElem?_eq_getElem hi)
  have htj := h.id_eq hids hfirst (List.getElem?_eq_getElem hj)
  have hri := aggId_eq (h.range _ (List.getElem_mem hi))
  have hrj := aggId_eq (h.range _ (List.getElem_mem hj))
  omega

/-- Ids above the page size lose nothing. -/
theorem lossless_byId (hserves : Serves rest trades) (hsize : pageSize ≤ 1000)
    (hpos : pageSize ≠ 0) (hpages : nPages ≠ 0) (hids : byTime rest.tier = false)
    (habove : IdsAbove rest now trades pageSize nPages) :
    Lossless rest now trades pageSize nPages := by
  have hasc := ascending_byId hserves.history hids
  obtain ⟨m, hwalk⟩ := walksTo_of_reads nPages hsize (Nat.pos_of_ne_zero hpos)
    (reads_byId hserves (Nat.pos_of_ne_zero hpos) hids) (Or.inl ⟨rfl, rfl⟩) (by
      rintro left k m ⟨t, ht, hnew, hid⟩ hk hm
      by_contra hboth
      obtain ⟨hmpos, hleft⟩ := not_or.mp hboth
      obtain ⟨hlt, -⟩ := List.getElem?_eq_some_iff.mp ht
      have hkpos : 0 < k := by
        by_contra hzero
        obtain rfl : k = 0 := by omega
        omega
      rw [show m = trades.length - k * pageSize by omega] at ht
      exact absurd hid (not_le.mpr (habove k t hkpos (by omega) (by omega) ht hnew)))
  refine hwalk.lossless hserves hpages hpos ?_ ?_
  · refine hasc.sublist (List.Sublist.map _ ?_)
    exact List.filter_sublist.trans (List.drop_sublist _ _)
  · intro t ht u hu hnew hkey
    have hsame : aggTradePointFrom t = aggTradePointFrom u :=
      eq_of_key_eq hasc (List.mem_map_of_mem ht) (List.mem_map_of_mem hu) hkey
    have htime : t.timestamp = u.timestamp := congrArg AggTradePoint.tsMs hsame
    intro wall hwall
    rw [htime]
    exact hnew wall hwall

/-- Where nothing is lost, times keep the trades apart. -/
theorem Lossless.apart (h : Lossless rest now trades pageSize nPages)
    (hserves : Serves rest trades) (hpos : pageSize ≠ 0) (hpages : nPages ≠ 0)
    (htimes : byTime rest.tier = true) : Apart rest now trades (pageSize * nPages) := by
  have hhist := hserves.history
  have hanswered : (aggTradeWalk rest now pageSize nPages).2 ≠ .failed :=
    Pager.ne_failed fun call next => by
      obtain ⟨page, hget, -⟩ := exists_page now (pageLimit pageSize) hserves call next
      exact ⟨page, hget⟩
  obtain ⟨hout, -⟩ := aggTradesPaginated_eq hserves hpages hpos hanswered
  have hsub := h.newer_sublist
  rw [hout] at hsub
  have hasc : Ascending AggTradePoint.aggId _ :=
    (ascending_keepAll List.Pairwise.nil _).sublist hsub
  rw [Ascending, List.pairwise_map] at hasc
  unfold Apart
  rw [List.Nodup, List.pairwise_map]
  refine hasc.imp_of_mem fun {t u} ht hu hlt htime => ?_
  have htmem := mem_of_mem_newest (List.mem_filter.mp ht).1
  have humem := mem_of_mem_newest (List.mem_filter.mp hu).1
  have htid := aggId_eq (hhist.range t htmem)
  have huid := aggId_eq (hhist.range u humem)
  rw [hhist.times htimes t htmem] at htid
  rw [hhist.times htimes u humem] at huid
  omega

/-- A walk by ids that meets a newer trade with a small id ends there, with older trades unread. -/
theorem Lossless.idsAbove (h : Lossless rest now trades pageSize nPages)
    (hserves : Serves rest trades) (hsize : pageSize ≤ 1000) (hpos : pageSize ≠ 0)
    (hids : byTime rest.tier = false) : IdsAbove rest now trades pageSize nPages := by
  have hhist := hserves.history
  intro k t hk hkn hkT ht hnew
  by_contra hid
  obtain ⟨m, hfailed, ⟨hle, -, hsub, -, hpassed⟩, hcases⟩ :=
    Pager.walk_reads (@reads_byId E rest now trades pageSize hserves (Nat.pos_of_ne_zero hpos) hids)
      nPages 0 trades.length none (Or.inl ⟨rfl, rfl⟩)
  have hlim : (aggTradePager rest now pageSize).limit = pageSize := rfl
  rw [hlim] at hpassed hcases
  rw [← aggTradeWalk_eq hsize (Nat.pos_of_ne_zero hpos)] at hfailed hsub hcases
  have hkm : trades.length ≤ m + k * pageSize := by
    by_contra hlt
    exact hid (hpassed k hk (not_le.mp hlt) t ht)
  have hkn' : (k + 1) * pageSize ≤ nPages * pageSize := Nat.mul_le_mul_right _ hkn
  have hmul : (k + 1) * pageSize = k * pageSize + pageSize := Nat.succ_mul _ _
  rcases hcases with hzero | ⟨-, hm⟩ | ⟨-, u, hu, hold⟩ | ⟨horigin, left, -, hlen, hm⟩
  · omega
  · omega
  · refine hold fun wall hwall => lt_of_lt_of_le (hnew wall hwall) ?_
    exact hhist.le_of_lt (by omega) ht hu
  · obtain ⟨hout, hreason⟩ := aggTradesPaginated_eq hserves (by omega) hpos hfailed
    have hshort : (aggTradeWalk rest now pageSize nPages).1.length < nPages := by
      by_contra hall
      have := Nat.mul_le_mul_right pageSize (not_lt.mp hall)
      omega
    rw [horigin, if_neg (by simp), if_pos hshort] at hreason
    have hfirst : trades[0]? = some trades[0] := List.getElem?_eq_getElem (by omega)
    have hmem := h.exhausted hreason _ (by rw [List.head?_eq_getElem?]; exact hfirst)
    rw [hout] at hmem
    have hread := hsub _ ((mem_of_mem_keepAll hmem).resolve_left List.not_mem_nil)
    rw [← List.map_drop] at hread
    obtain ⟨u, hu, hsame⟩ := List.mem_map.mp hread
    -- the first trade is not among those that were read
    obtain ⟨i, hi⟩ := List.getElem?_of_mem hu
    rw [List.getElem?_drop] at hi
    have huid := hhist.id_eq hids hfirst hi
    have hfirstId := aggId_eq (hhist.range _ (List.mem_of_getElem? hfirst))
    have huId := aggId_eq (hhist.range u (List.mem_of_getElem? hi))
    rw [hsame] at huId
    omega

end Walk

/-- **Main theorem.** Of which histories nothing is lost. -/
theorem lossless_iff (hserves : Serves rest trades) (now : ℤ) {pageSize : ℕ}
    (hsize : pageSize ≤ 1000) (nPages : ℕ) :
    Lossless rest now trades pageSize nPages ↔ KeepsAll rest now trades pageSize nPages := by
  by_cases hasked : nPages = 0 ∨ pageSize = 0
  · have hzero : pageSize * nPages = 0 := by
      rcases hasked with rfl | rfl
      · exact Nat.mul_zero _
      · exact Nat.zero_mul _
    have hnewest : newest (pageSize * nPages) trades = [] := by
      rw [hzero, newest, Nat.sub_zero, List.drop_length]
    have hreport : aggTradesPaginated (some rest) now pageSize nPages =
        ([], .full 0 0 .aggTradesPaginated) := if_pos hasked
    refine iff_of_true ⟨?_, ?_, ?_⟩ ?_
    · rw [hreport, hnewest]
      exact List.Sublist.slnil
    · rw [hreport, hnewest]
      exact List.Sublist.slnil
    · intro h
      rw [hreport] at h
      cases h
    · unfold KeepsAll Apart IdsAbove
      rw [hnewest]
      split_ifs
      · exact List.nodup_nil
      · intro k t hk hkn hkT ht
        rcases hasked with rfl | rfl
        · omega
        · rw [Nat.mul_zero, Nat.sub_zero, List.getElem?_eq_none le_rfl] at ht
          cases ht
  · obtain ⟨hpages, hpos⟩ := not_or.mp hasked
    unfold KeepsAll
    rcases hkind : byTime rest.tier with _ | _
    · rw [if_neg Bool.false_ne_true]
      exact ⟨fun h => h.idsAbove hserves hsize hpos hkind,
        lossless_byId hserves hsize hpos hpages hkind⟩
    · rw [if_pos rfl]
      exact ⟨fun h => h.apart hserves hpos hpages hkind,
        lossless_byTime hserves hsize hpos hpages hkind⟩

end Served

/-! ## Two venues -/

/-- A venue that serves a history. -/
def servedBy (tier : TradeHistoryTier) (trades : List AggTrade) : Rest Unit where
  tier
  klineBackpage := false
  getKlines _ _ _ := .error ()
  getAggTrades _ limit next := .ok (servedPage tier trades limit next)
  getRecentTrades _ := .error ()

theorem serves_servedBy {tier : TradeHistoryTier} {trades : List AggTrade}
    (hhist : History tier trades)
    (hpaged : (∃ cursor, tier = .restDeep cursor) ∨ ∃ cursor back, tier = .restWindow cursor back) :
    Serves (servedBy tier trades) trades :=
  ⟨hhist, hpaged, fun _ _ _ => ⟨_, rfl, List.Perm.refl _⟩⟩

/-- A trade with an id and a time. -/
def tradeAt (id timestamp : ℤ) : AggTrade :=
  { aggregateId := id, price := 1, quantity := 1, timestamp, isBuy := true }

/-- Trades with ids from the first one on, one for each millisecond. -/
def numbered (first : ℤ) (n : ℕ) : List AggTrade :=
  (List.range n).map fun i : ℕ => tradeAt (first + i) i

theorem history_numbered {first : ℤ} {n : ℕ} (h : 0 ≤ first) (hn : first + n ≤ 2 ^ 63) :
    History (.restDeep .fromId) (numbered first n) := by
  constructor
  · rw [numbered, List.pairwise_map]
    refine List.pairwise_lt_range.imp fun hlt => ?_
    exact Int.ofNat_le.mpr hlt.le
  · intro t ht
    obtain ⟨i, hi, rfl⟩ := List.mem_map.mp ht
    have := List.mem_range.mp hi
    simp only [tradeAt]
    omega
  · intro h
    cases h
  · intro _ i t u ht hu
    rw [numbered, List.getElem?_map] at ht hu
    obtain ⟨a, ha, rfl⟩ := Option.map_eq_some_iff.mp ht
    obtain ⟨b, hb, rfl⟩ := Option.map_eq_some_iff.mp hu
    obtain ⟨-, rfl⟩ := List.getElem?_eq_some_iff.mp ha
    obtain ⟨-, rfl⟩ := List.getElem?_eq_some_iff.mp hb
    simp only [tradeAt, List.getElem_range]
    push_cast
    ring

/-- Two pages of two hold three trades with ids from ten on. -/
theorem lossless_fromTen :
    Lossless (servedBy (.restDeep .fromId) (numbered 10 3)) 0 (numbered 10 3) 2 2 := by
  have hserves := serves_servedBy (history_numbered (show (0 : ℤ) ≤ 10 by decide)
    (show (10 : ℤ) + (3 : ℕ) ≤ 2 ^ 63 by decide)) (Or.inl ⟨_, rfl⟩)
  refine (lossless_iff hserves 0 (by decide) 2).mpr ?_
  intro k t hk hkn hlt ht hnew
  obtain rfl : k = 1 := by omega
  cases ht
  decide

/-- Of four trades with ids from zero on two pages of two hold the last two, and the history is
    reported as exhausted. -/
theorem small_ids_end_the_walk :
    ¬∀ (rest : Rest Unit) (now : ℤ) (trades : List AggTrade) (pageSize nPages : ℕ),
      Serves rest trades → pageSize ≤ 1000 → Lossless rest now trades pageSize nPages := by
  intro h
  have hserves := serves_servedBy (history_numbered (le_refl 0)
    (show (0 : ℤ) + (4 : ℕ) ≤ 2 ^ 63 by decide)) (Or.inl ⟨_, rfl⟩)
  have habove := (h _ 0 _ 2 2 hserves (by decide)).idsAbove hserves (by decide) (by decide) rfl
  have hid := habove 1 (tradeAt 2 2) (by decide) (by decide) (by decide) rfl (by decide)
  revert hid
  decide

end Digdigdig3.Backfill
