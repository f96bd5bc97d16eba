import Digdigdig3.Derived.KlineDelta
import Mathlib.Data.List.DropRight

/-!
# Three Line Break lines

`TradeToThreeLineBreakDerived::fold_trade` (`derived.rs` lines 2505–2565) closes a line
when the price leaves the range of the last `lines_back` lines. The lines, the ring of the
last of them, the open price that is carried over and the pending volume are related by
one invariant of the run, `Ledger`.

Results:
* `foldTrade_eq`: a trade either closes a line in the direction that `closes` names, or is
  only accumulated.
* `Ledger.step`: every trade keeps the invariant.
* `threeLineBreak_iff`: the lines chain, break out, conserve the volume and are stamped in
  order; their open stamps stay below their close stamps exactly when no line is closed by
  a trade that is not later than the open stamp of the line before.
-/

namespace Digdigdig3.Derived

/-- `ThreeLineBreakLinePoint` (`data/three_line_break.rs` lines 26–38); `direction` is `0`
    for an up line and `1` for a down line. -/
structure ThreeLineBreakLinePoint where
  tsOpen : ℤ
  tsClose : ℤ
  open_ : ℚ
  close : ℚ
  volume : ℚ
  direction : UInt8
  deriving DecidableEq

/-- `f64::EPSILON`. -/
def f64Epsilon : ℚ := 1 / 2 ^ 52

/-- `TradeToThreeLineBreakDerived` (lines 2400–2419); `kline_state` is kept by
    `klineSufficient`. `lastLines` is the ring, oldest line first. -/
structure TradeToThreeLineBreakDerived where
  linesBack : ℕ
  lastLines : List ThreeLineBreakLinePoint
  currentOpen : Option ℚ
  currentOpenTs : ℤ
  currentClose : ℚ
  currentVolume : ℚ
  lastEmittedOpenTs : ℤ

namespace TradeToThreeLineBreakDerived

/-- `new_for_key` for `Kind::ThreeLineBreak { lines_back }` (lines 2463–2478). -/
def newForKey (linesBack : UInt8) : TradeToThreeLineBreakDerived :=
  { linesBack := if 0 < linesBack then linesBack.toNat else 3
    lastLines := [], currentOpen := none, currentOpenTs := 0, currentClose := 0,
    currentVolume := 0, lastEmittedOpenTs := 0 }

/-- The ring after `push_back`, and `pop_front` above `lines_back` (lines 2437–2441). -/
def pushLine (linesBack : ℕ) (ring : List ThreeLineBreakLinePoint)
    (point : ThreeLineBreakLinePoint) : List ThreeLineBreakLinePoint :=
  let ring := ring ++ [point]
  if linesBack < ring.length then ring.tail else ring

/-- `emit_line` (lines 2422–2449). -/
def emitLine (s : TradeToThreeLineBreakDerived) (direction : UInt8) (tsClose : ℤ) :
    TradeToThreeLineBreakDerived × ThreeLineBreakLinePoint :=
  let open_ := s.currentOpen.getD s.currentClose
  let close := s.currentClose
  let tsOpen := openTimeAfter s.currentOpenTs s.lastEmittedOpenTs
  let point : ThreeLineBreakLinePoint :=
    { tsOpen := tsOpen, tsClose := tsClose, open_ := open_, close := close,
      volume := s.currentVolume, direction := direction }
  ({ s with lastEmittedOpenTs := tsOpen, lastLines := pushLine s.linesBack s.lastLines point,
            currentOpen := some close, currentOpenTs := tsClose, currentVolume := 0 }, point)

/-- `emit_line` as the result of `fold_trade`. -/
def emit (s : TradeToThreeLineBreakDerived) (direction : UInt8) (tsClose : ℤ) :
    TradeToThreeLineBreakDerived × Option ThreeLineBreakLinePoint :=
  ((s.emitLine direction tsClose).1, some (s.emitLine direction tsClose).2)

/-- The highest price of the lines in the ring, `-∞` if it is empty (lines 2527–2531). -/
def maxHigh (ring : List ThreeLineBreakLinePoint) : WithBot ℚ :=
  (ring.map fun l => ((max l.open_ l.close : ℚ) : WithBot ℚ)).foldl max ⊥

/-- The lowest price of the lines in the ring, `+∞` if it is empty (lines 2532–2536). -/
def minLow (ring : List ThreeLineBreakLinePoint) : WithTop ℚ :=
  (ring.map fun l => ((min l.open_ l.close : ℚ) : WithTop ℚ)).foldl min ⊤

/-- `fold_trade` (lines 2505–2565). -/
def foldTrade (s : TradeToThreeLineBreakDerived) (point : TradePoint) :
    TradeToThreeLineBreakDerived × Option ThreeLineBreakLinePoint :=
  match s.currentOpen with
  | none =>
    ({ s with currentOpen := some point.price, currentOpenTs := point.tsMs,
              currentClose := point.price, currentVolume := s.currentVolume + point.quantity },
      none)
  | some seedOpen =>
    let s := { s with currentClose := point.price
                      currentVolume := s.currentVolume + point.quantity }
    if s.lastLines.isEmpty then
      if |s.currentClose - seedOpen| < f64Epsilon then (s, none)
      else s.emit (if seedOpen < s.currentClose then 0 else 1) point.tsMs
    else
      let lastDir := (s.lastLines.getLast?.map (·.direction)).getD 0
      -- the two tests come in the order that favours the direction of the last line
      if lastDir = 0 then
        if maxHigh s.lastLines < s.currentClose then s.emit 0 point.tsMs
        else if s.currentClose < minLow s.lastLines then s.emit 1 point.tsMs
        else (s, none)
      else
        if s.currentClose < minLow s.lastLines then s.emit 1 point.tsMs
        else if maxHigh s.lastLines < s.currentClose then s.emit 0 point.tsMs
        else (s, none)

/-- `on_upstream_event` (lines 2484–2501). -/
def machine : Mealy (KlineDeltaState × TradeToThreeLineBreakDerived) Event
    ThreeLineBreakLinePoint :=
  klineSufficient (fun s => decide (s.linesBack = 0)) foldTrade

/-! ## What one trade does -/

section Step

variable {s : TradeToThreeLineBreakDerived} {ring : List ThreeLineBreakLinePoint} {price : ℚ}

/-- The price lies above every price of the ring. -/
def Above (ring : List ThreeLineBreakLinePoint) (price : ℚ) : Prop :=
  ∀ l ∈ ring, l.open_ < price ∧ l.close < price

/-- The price lies below every price of the ring. -/
def Below (ring : List ThreeLineBreakLinePoint) (price : ℚ) : Prop :=
  ∀ l ∈ ring, price < l.open_ ∧ price < l.close

instance : Decidable (Above ring price) :=
  inferInstanceAs (Decidable (∀ l ∈ ring, _ ∧ _))

instance : Decidable (Below ring price) :=
  inferInstanceAs (Decidable (∀ l ∈ ring, _ ∧ _))

theorem foldl_max_lt_iff {bound : WithBot ℚ} (highs : List (WithBot ℚ)) (start : WithBot ℚ) :
    highs.foldl max start < bound ↔ start < bound ∧ ∀ h ∈ highs, h < bound := by
  induction highs generalizing start with
  | nil => simp
  | cons h highs ih => rw [List.foldl_cons, ih, max_lt_iff, List.forall_mem_cons, and_assoc]

theorem lt_foldl_min_iff {bound : WithTop ℚ} (lows : List (WithTop ℚ)) (start : WithTop ℚ) :
    bound < lows.foldl min start ↔ bound < start ∧ ∀ l ∈ lows, bound < l := by
  induction lows generalizing start with
  | nil => simp
  | cons l lows ih => rw [List.foldl_cons, ih, lt_min_iff, List.forall_mem_cons, and_assoc]

theorem maxHigh_lt_iff : maxHigh ring < price ↔ Above ring price := by
  rw [maxHigh, foldl_max_lt_iff, List.forall_mem_map]
  simp only [WithBot.bot_lt_coe, true_and, WithBot.coe_lt_coe, max_lt_iff, Above]

theorem lt_minLow_iff : (price : WithTop ℚ) < minLow ring ↔ Below ring price := by
  rw [minLow, lt_foldl_min_iff, List.forall_mem_map]
  simp only [WithTop.coe_lt_top, true_and, WithTop.coe_lt_coe, lt_min_iff, Below]

/-- A price cannot lie on both sides of a line. -/
theorem not_below_of_above (hne : ring ≠ []) (h : Above ring price) : ¬ Below ring price := by
  intro hbelow
  obtain ⟨l, ring, rfl⟩ := List.exists_cons_of_ne_nil hne
  exact lt_asymm (h l List.mem_cons_self).1 (hbelow l List.mem_cons_self).1

/-- The direction of the line that a trade at `price` closes, if it closes one: the first
    line needs a move away from the seed price, every other one a price outside the ring. -/
def closes (s : TradeToThreeLineBreakDerived) (price : ℚ) : Option UInt8 :=
  match s.currentOpen with
  | none => none
  | some seedOpen =>
    if s.lastLines = [] then
      if |price - seedOpen| < f64Epsilon then none
      else if seedOpen < price then some 0 else some 1
    else if Above s.lastLines price then some 0
    else if Below s.lastLines price then some 1
    else none

/-- The state that has taken in the price and the quantity of a trade, which opens the
    first line if there has been none before it. -/
def accumulate (s : TradeToThreeLineBreakDerived) (point : TradePoint) :
    TradeToThreeLineBreakDerived :=
  { s with currentOpen := some (s.currentOpen.getD point.price)
           currentOpenTs := if s.currentOpen = none then point.tsMs else s.currentOpenTs
           currentClose := point.price, currentVolume := s.currentVolume + point.quantity }

theorem foldTrade_eq (s : TradeToThreeLineBreakDerived) (point : TradePoint) :
    s.foldTrade point = match s.closes point.price with
      | none => (s.accumulate point, none)
      | some direction => (s.accumulate point).emit direction point.tsMs := by
  rcases hopen : s.currentOpen with _ | seedOpen
  · simp only [foldTrade, closes, accumulate, hopen, Option.getD_none, if_true]
  · have hacc : s.accumulate point =
        { s with currentClose := point.price
                 currentVolume := s.currentVolume + point.quantity } := by
      simp only [accumulate, hopen, Option.getD_some, reduceCtorEq, if_false]
    rw [hacc]
    simp only [foldTrade, closes, hopen]
    by_cases hnil : s.lastLines = []
    · simp only [hnil, List.isEmpty_nil, if_true]
      by_cases hmove : |point.price - seedOpen| < f64Epsilon
      · simp only [hmove, if_true]
      · simp only [hmove, if_false]
        by_cases hup : seedOpen < point.price <;> simp only [hup, if_true, if_false]
    · simp only [hnil, List.isEmpty_iff, if_false, maxHigh_lt_iff, lt_minLow_iff]
      by_cases habove : Above s.lastLines point.price
      · have hbelow := not_below_of_above hnil habove
        simp only [habove, hbelow, if_true, if_false, ite_self]
      · by_cases hbelow : Below s.lastLines point.price <;>
          simp only [habove, hbelow, if_true, if_false, ite_self]

/-- What the direction of a closed line says about its price. -/
theorem of_closes {direction : UInt8} (h : s.closes price = some direction) :
    (direction = 0 ∧ Above s.lastLines price ∨ direction = 1 ∧ Below s.lastLines price) ∧
      ∃ seedOpen, s.currentOpen = some seedOpen ∧ (s.lastLines = [] →
        direction = 0 ∧ seedOpen < price ∨ direction = 1 ∧ price < seedOpen) := by
  rcases hopen : s.currentOpen with _ | seedOpen
  · simp [closes, hopen] at h
  · simp only [closes, hopen] at h
    by_cases hnil : s.lastLines = []
    · simp only [hnil, if_true] at h
      have habove : Above s.lastLines price := by rw [hnil]; exact nofun
      have hbelow : Below s.lastLines price := by rw [hnil]; exact nofun
      by_cases hmove : |price - seedOpen| < f64Epsilon
      · simp [hmove] at h
      · by_cases hup : seedOpen < price
        · simp only [hmove, hup, if_false, if_true, Option.some.injEq] at h
          exact ⟨.inl ⟨h.symm, habove⟩, seedOpen, rfl, fun _ => .inl ⟨h.symm, hup⟩⟩
        · simp only [hmove, hup, if_false, Option.some.injEq] at h
          refine ⟨.inr ⟨h.symm, hbelow⟩, seedOpen, rfl, fun _ => .inr ⟨h.symm, ?_⟩⟩
          refine lt_of_le_of_ne (not_lt.mp hup) fun heq => hmove ?_
          rw [heq, sub_self, abs_zero]
          norm_num [f64Epsilon]
    · simp only [hnil, if_false] at h
      refine ⟨?_, seedOpen, rfl, fun hc => absurd hc hnil⟩
      by_cases habove : Above s.lastLines price
      · simp only [habove, if_true, Option.some.injEq] at h
        exact .inl ⟨h.symm, habove⟩
      · by_cases hbelow : Below s.lastLines price
        · simp only [habove, hbelow, if_false, if_true, Option.some.injEq] at h
          exact .inr ⟨h.symm, hbelow⟩
        · simp [habove, hbelow] at h

/-- A trade inside the ring closes nothing. -/
theorem closes_eq_none (hne : s.lastLines ≠ []) (habove : ¬ Above s.lastLines price)
    (hbelow : ¬ Below s.lastLines price) : s.closes price = none := by
  rcases hopen : s.currentOpen with _ | seedOpen <;>
    simp [closes, hopen, hne, habove, hbelow]

theorem foldTrade_linesBack (s : TradeToThreeLineBreakDerived) (point : TradePoint)
    (h : decide (s.linesBack = 0) = false) :
    decide ((s.foldTrade point).1.linesBack = 0) = false := by
  rw [foldTrade_eq]
  cases s.closes point.price <;> exact h

theorem newForKey_enabled {linesBack : UInt8} (h : 0 < linesBack) :
    decide ((newForKey linesBack).linesBack = 0) = false := by
  have hpos : 0 < linesBack.toNat := UInt8.lt_iff_toNat_lt.mp h
  simp only [newForKey, if_pos h, decide_eq_false_iff_not]
  omega

end Step

/-! ## The run -/

theorem rtake_ne_nil {n : ℕ} (hn : 0 < n) {lines : List ThreeLineBreakLinePoint}
    (h : lines ≠ []) : lines.rtake n ≠ [] := by
  have hpos := List.length_pos_iff.mpr h
  simp only [List.rtake, ne_eq, List.drop_eq_nil_iff]
  omega

/-- The last `n` lines stay the last `n` lines when a line is pushed. -/
theorem pushLine_rtake {n : ℕ} (hn : 0 < n) (lines : List ThreeLineBreakLinePoint)
    (point : ThreeLineBreakLinePoint) :
    pushLine n (lines.rtake n) point = (lines ++ [point]).rtake n := by
  have hlen : (lines.rtake n ++ [point]).length = min n lines.length + 1 := by
    simp only [List.rtake, List.length_append, List.length_drop, List.length_singleton]
    omega
  have hdrop : lines.rtake n ++ [point] = (lines ++ [point]).drop (lines.length - n) := by
    rw [List.drop_append_of_le_length (Nat.sub_le _ _), List.rtake]
  simp only [pushLine, hlen]
  by_cases hfull : n ≤ lines.length
  · rw [if_pos (by omega), hdrop, List.tail_drop, List.rtake, List.length_append,
      List.length_singleton]
    congr 1
    omega
  · rw [if_neg (by omega), hdrop, List.rtake, List.length_append, List.length_singleton]
    congr 1
    omega

/-- The lines that a run over `trades` has emitted, with `pending` volume left. -/
structure LinesOf (n : ℕ) (trades : List TradePoint) (lines : List ThreeLineBreakLinePoint)
    (pending : ℚ) : Prop where
  chained : lines.IsChain fun a b => b.open_ = a.close
  direction : ∀ l ∈ lines, l.direction = 0 ∧ l.open_ < l.close ∨
    l.direction = 1 ∧ l.close < l.open_
  breakout : ∀ pre l post, lines = pre ++ l :: post →
    if l.direction = 0 then Above (pre.rtake n) l.close else Below (pre.rtake n) l.close
  increasing : lines.Pairwise (·.tsOpen < ·.tsOpen)
  conserved : (lines.map (·.volume)).sum + pending = (trades.map (·.quantity)).sum

/-- The trades so far, the state and the lines so far. -/
structure Ledger (n : ℕ) (trades : List TradePoint) (s : TradeToThreeLineBreakDerived)
    (lines : List ThreeLineBreakLinePoint) : Prop where
  linesBack : s.linesBack = n
  ring : s.lastLines = lines.rtake n
  carried : ∀ l ∈ lines.getLast?, s.currentOpen = some l.close
  bounded : ∀ l ∈ lines, l.tsOpen ≤ s.lastEmittedOpenTs
  opened : trades.Pairwise (·.tsMs ≤ ·.tsMs) → s.currentOpen ≠ none →
    ∃ t ∈ trades, s.currentOpenTs ≤ t.tsMs
  lines : LinesOf n trades lines s.currentVolume

section Ledger

variable {n : ℕ} {trades : List TradePoint} {s : TradeToThreeLineBreakDerived}
  {lines : List ThreeLineBreakLinePoint} {point : TradePoint}

theorem ledger_nil (linesBack : UInt8) (h : 0 < linesBack) :
    Ledger linesBack.toNat [] (newForKey linesBack) [] where
  linesBack := if_pos h
  ring := (List.rtake_nil _).symm
  carried := nofun
  bounded := nofun
  opened _ hopen := absurd rfl hopen
  lines := ⟨.nil, nofun, fun pre l post h => by simp at h, .nil, by simp [newForKey]⟩

/-- A line that breaks out of the last `n` lines and opens at the last close continues
    the lines. -/
theorem LinesOf.concat {pending : ℚ} (h : LinesOf n trades lines pending)
    {line : ThreeLineBreakLinePoint} (hopen : ∀ l ∈ lines.getLast?, line.open_ = l.close)
    (hdir : line.direction = 0 ∧ line.open_ < line.close ∨
      line.direction = 1 ∧ line.close < line.open_)
    (hbreak : if line.direction = 0 then Above (lines.rtake n) line.close
      else Below (lines.rtake n) line.close)
    (hts : ∀ l ∈ lines, l.tsOpen < line.tsOpen)
    (hvolume : line.volume = pending + point.quantity) :
    LinesOf n (trades ++ [point]) (lines ++ [line]) 0 where
  chained := by
    refine List.isChain_append.mpr ⟨h.chained, List.isChain_singleton _, ?_⟩
    intro a ha b hb
    obtain rfl : line = b := by simpa using hb
    exact hopen a ha
  direction l hl := by
    rcases List.mem_append.mp hl with hl | hl
    · exact h.direction l hl
    · rw [List.mem_singleton.mp hl]
      exact hdir
  breakout pre l post hsplit := by
    rcases List.eq_nil_or_concat post with rfl | ⟨post, y, rfl⟩
    · obtain ⟨rfl, hlast⟩ := List.append_inj' hsplit rfl
      cases hlast
      exact hbreak
    · have hsplit' : lines ++ [line] = (pre ++ l :: post) ++ [y] := by simpa using hsplit
      obtain ⟨hlines, -⟩ := List.append_inj' hsplit' rfl
      exact h.breakout pre l post hlines
  increasing := by
    refine List.pairwise_append.mpr ⟨h.increasing, List.pairwise_singleton _ _, ?_⟩
    intro l hl l' hl'
    rw [List.mem_singleton.mp hl']
    exact hts l hl
  conserved := by
    have hsum := h.conserved
    simp only [List.map_append, List.sum_append, List.map_cons, List.map_nil, List.sum_singleton,
      hvolume, ← hsum]
    ring

/-- A trade that closes nothing is kept in the pending volume. -/
theorem LinesOf.accumulate {pending : ℚ} (h : LinesOf n trades lines pending)
    (point : TradePoint) : LinesOf n (trades ++ [point]) lines (pending + point.quantity) :=
  { h with
    conserved := by
      have hsum := h.conserved
      simp only [List.map_append, List.sum_append, List.map_cons, List.map_nil,
        List.sum_singleton, ← hsum]
      ring }

/-- **Step lemma.** Every trade keeps the invariant. -/
theorem Ledger.step (hn : 0 < n) (h : Ledger n trades s lines) (point : TradePoint) :
    Ledger n (trades ++ [point]) (s.foldTrade point).1
      (lines ++ (s.foldTrade point).2.toList) := by
  rw [foldTrade_eq]
  rcases hcloses : s.closes point.price with _ | direction
  · -- the trade is only accumulated
    simp only [Option.toList_none, List.append_nil]
    refine ⟨h.linesBack, h.ring, fun l hl => ?_, h.bounded, fun hsorted _ => ?_,
      h.lines.accumulate point⟩
    · simp only [accumulate, h.carried l hl, Option.getD_some]
    · by_cases hopen : s.currentOpen = none
      · exact ⟨point, by simp, by simp [accumulate, hopen]⟩
      · obtain ⟨t, ht, hle⟩ := h.opened (List.pairwise_append.mp hsorted).1 hopen
        exact ⟨t, List.mem_append_left _ ht, by simpa [accumulate, hopen] using hle⟩
  · -- the trade closes a line
    obtain ⟨hside, seedOpen, hopen, hfirst⟩ := of_closes hcloses
    have hlast := h.carried
    simp only [emit, Option.toList_some]
    have hline : ((s.accumulate point).emitLine direction point.tsMs).2.open_ = seedOpen := by
      simp [emitLine, accumulate, hopen]
    have hcarried : ∀ l ∈ lines.getLast?, seedOpen = l.close := by
      intro l hl
      have := (hopen.symm.trans (hlast l hl))
      exact Option.some.inj this
    have hdir : direction = 0 ∧ seedOpen < point.price ∨
        direction = 1 ∧ point.price < seedOpen := by
      rcases List.eq_nil_or_concat lines with rfl | ⟨init, l, rfl⟩
      · exact hfirst (by rw [h.ring, List.rtake_nil])
      · have hl : seedOpen = l.close := hcarried l (by simp)
        have hmem : l ∈ s.lastLines := by
          obtain ⟨k, rfl⟩ : ∃ k, n = k + 1 := ⟨n - 1, by omega⟩
          rw [h.ring, List.concat_eq_append, List.rtake_concat_succ]
          simp
        rw [hl]
        rcases hside with ⟨hd, habove⟩ | ⟨hd, hbelow⟩
        · exact .inl ⟨hd, (habove l hmem).2⟩
        · exact .inr ⟨hd, (hbelow l hmem).2⟩
    refine ⟨h.linesBack, ?_, ?_, ?_, fun _ _ => ⟨point, by simp, le_rfl⟩, ?_⟩
    · show pushLine s.linesBack s.lastLines _ = _
      rw [h.linesBack, h.ring, pushLine_rtake hn]
      rfl
    · intro l hl
      obtain rfl : _ = l := by simpa using hl
      rfl
    · intro l hl
      rcases List.mem_append.mp hl with hl | hl
      · exact (h.bounded l hl).trans (lt_openTimeAfter _ _).le
      · rw [List.mem_singleton.mp hl]
        exact le_rfl
    · refine h.lines.concat (fun l hl => hline.trans (hcarried l hl)) ?_ ?_ ?_ rfl
      · rw [hline]
        exact hdir
      · rw [← h.ring]
        show if direction = 0 then Above s.lastLines point.price else Below s.lastLines point.price
        rcases hside with ⟨rfl, habove⟩ | ⟨rfl, hbelow⟩
        · exact habove
        · exact hbelow
      · intro l hl
        exact (h.bounded l hl).trans_lt (lt_openTimeAfter _ _)

end Ledger

/-! ## The stamps -/

/-- The lines that `trades` of one stream have closed. -/
def linesAfter (linesBack : UInt8) (exchange : ExchangeId) (symbol : String)
    (trades : List TradePoint) : List ThreeLineBreakLinePoint :=
  machine.emitted (.new, newForKey linesBack) (trades.map (.trade exchange symbol))

/-- The volume that is pending after `trades` of one stream. -/
def pendingAfter (linesBack : UInt8) (exchange : ExchangeId) (symbol : String)
    (trades : List TradePoint) : ℚ :=
  (machine.final (.new, newForKey linesBack) (trades.map (.trade exchange symbol))).2.currentVolume

/-- What Three Line Break lines of `trades` have to satisfy. -/
structure Lawful (n : ℕ) (trades : List TradePoint)
    (linesAfter : List TradePoint → List ThreeLineBreakLinePoint)
    (pendingAfter : List TradePoint → ℚ) : Prop where
  lines : LinesOf n trades (linesAfter trades) (pendingAfter trades)
  silent : ∀ pre point, pre ++ [point] <+: trades → linesAfter pre ≠ [] →
    ¬ Above ((linesAfter pre).rtake n) point.price →
    ¬ Below ((linesAfter pre).rtake n) point.price →
    linesAfter (pre ++ [point]) = linesAfter pre
  stamped : trades.Pairwise (·.tsMs ≤ ·.tsMs) →
    ∀ l ∈ linesAfter trades, l.tsOpen ≤ l.tsClose

/-- Every trade that closes a line comes later than the open stamp of the line before it
    (than the initial `0`, for the first line). -/
def ClosesLater (linesBack : UInt8) (trades : List TradePoint) : Prop :=
  ∀ pre point, pre ++ [point] <+: trades →
    ((Mealy.mk foldTrade).final (newForKey linesBack) pre).closes point.price ≠ none →
    ((Mealy.mk foldTrade).final (newForKey linesBack) pre).lastEmittedOpenTs < point.tsMs

section Stamps

variable {n : ℕ} {linesBack : UInt8} {trades : List TradePoint}
  {s : TradeToThreeLineBreakDerived} {lines : List ThreeLineBreakLinePoint} {point : TradePoint}

theorem linesAfter_eq (h : 0 < linesBack) (exchange : ExchangeId) (symbol : String)
    (trades : List TradePoint) : linesAfter linesBack exchange symbol trades =
      (Mealy.mk foldTrade).emitted (newForKey linesBack) trades :=
  emitted_klineSufficient_trades foldTrade_linesBack _ (newForKey_enabled h) exchange symbol trades

theorem pendingAfter_eq (h : 0 < linesBack) (exchange : ExchangeId) (symbol : String)
    (trades : List TradePoint) : pendingAfter linesBack exchange symbol trades =
      ((Mealy.mk foldTrade).final (newForKey linesBack) trades).currentVolume := by
  rw [pendingAfter, machine, final_klineSufficient_trades foldTrade_linesBack _
    (newForKey_enabled h)]

theorem ledger_run (h : 0 < linesBack) (trades : List TradePoint) :
    Ledger linesBack.toNat trades ((Mealy.mk foldTrade).final (newForKey linesBack) trades)
      ((Mealy.mk foldTrade).emitted (newForKey linesBack) trades) :=
  Mealy.run_invariant _ (ledger_nil linesBack h)
    (fun _ _ _ point hledger => hledger.step (UInt8.lt_iff_toNat_lt.mp h) point) trades

/-- A closed line is stamped in order exactly when the closing trade comes later than the
    last open stamp. -/
theorem Ledger.stamped_iff (h : Ledger n trades s lines)
    (hsorted : (trades ++ [point]).Pairwise (·.tsMs ≤ ·.tsMs)) :
    (∀ l ∈ (s.foldTrade point).2.toList, l.tsOpen ≤ l.tsClose) ↔
      (s.closes point.price ≠ none → s.lastEmittedOpenTs < point.tsMs) := by
  rw [foldTrade_eq]
  rcases hcloses : s.closes point.price with _ | direction
  · simp
  · obtain ⟨-, seedOpen, hopen, -⟩ := of_closes hcloses
    have hle : s.currentOpenTs ≤ point.tsMs := by
      obtain ⟨hpre, -, hlast⟩ := List.pairwise_append.mp hsorted
      obtain ⟨t, ht, hle⟩ := h.opened hpre (by simp [hopen])
      exact hle.trans (hlast t ht point (by simp))
    have hts : ((s.accumulate point).emitLine direction point.tsMs).2.tsOpen =
        max s.currentOpenTs (s.lastEmittedOpenTs + 1) := by
      simp [emitLine, accumulate, openTimeAfter, hopen]
    have htc : ((s.accumulate point).emitLine direction point.tsMs).2.tsClose = point.tsMs := rfl
    simp only [emit, Option.toList_some, List.mem_singleton, forall_eq, hts, htc, max_le_iff,
      hle, true_and, ne_eq, reduceCtorEq, not_false_eq_true, true_imp_iff]
    exact Int.add_one_le_iff

/-- **Run lemma.** All lines are stamped in order exactly when every one is closed later
    than the last open stamp. -/
theorem stamped_iff (h : 0 < linesBack) (hsorted : trades.Pairwise (·.tsMs ≤ ·.tsMs)) :
    (∀ l ∈ (Mealy.mk foldTrade).emitted (newForKey linesBack) trades, l.tsOpen ≤ l.tsClose) ↔
      ClosesLater linesBack trades := by
  induction trades using List.reverseRecOn with
  | nil =>
    refine iff_of_true nofun fun pre point hpre => ?_
    simp at hpre
  | append_singleton trades point ih =>
    have hstep := (ledger_run h trades).stamped_iff hsorted
    rw [Mealy.emitted_concat, List.forall_mem_append,
      ih (List.pairwise_append.mp hsorted).1]
    refine (and_congr_right fun _ => hstep).trans ⟨fun ⟨hpre, hlast⟩ pre p hp => ?_, fun hall => ?_⟩
    · rcases List.prefix_concat_iff.mp hp with heq | hp
      · obtain ⟨rfl, hp⟩ := List.append_inj' heq rfl
        obtain rfl : p = point := by simpa using hp
        exact hlast
      · exact hpre pre p hp
    · exact ⟨fun pre p hp => hall pre p (hp.trans (List.prefix_append _ _)),
        hall trades point (List.prefix_refl _)⟩

end Stamps

/-- **Main theorem.** The lines chain, agree with their direction, break out of the last
    `lines_back` lines, conserve the volume and have increasing open stamps on every run;
    for trades in the order of time no line opens after it closes exactly when every line
    is closed by a trade later than the open stamp of the line before it. -/
theorem threeLineBreak_iff {linesBack : UInt8} (h : 0 < linesBack) (exchange : ExchangeId)
    (symbol : String) (trades : List TradePoint) :
    Lawful linesBack.toNat trades (linesAfter linesBack exchange symbol)
        (pendingAfter linesBack exchange symbol) ↔
      (trades.Pairwise (·.tsMs ≤ ·.tsMs) → ClosesLater linesBack trades) := by
  constructor
  · intro hlawful hsorted
    have hstamped := hlawful.stamped hsorted
    rw [linesAfter_eq h] at hstamped
    exact (stamped_iff h hsorted).mp hstamped
  · intro hlater
    refine ⟨?_, fun pre point hpre hne habove hbelow => ?_, fun hsorted => ?_⟩
    · rw [linesAfter_eq h, pendingAfter_eq h]
      exact (ledger_run h trades).lines
    · rw [linesAfter_eq h] at hne habove hbelow ⊢
      rw [linesAfter_eq h]
      have hring := (ledger_run h pre).ring
      have hn : 0 < linesBack.toNat := UInt8.lt_iff_toNat_lt.mp h
      rw [← hring] at habove hbelow
      have hclosed := closes_eq_none (rtake_ne_nil hn hne |> hring.trans_ne) habove hbelow
      have hstep : ((Mealy.mk foldTrade).step
          ((Mealy.mk foldTrade).final (newForKey linesBack) pre) point).2 = none := by
        show (foldTrade _ point).2 = none
        rw [foldTrade_eq, hclosed]
      rw [Mealy.emitted_concat, hstep, Option.toList_none, List.append_nil]
    · rw [linesAfter_eq h]
      exact (stamped_iff h hsorted).mpr (hlater hsorted)

theorem threeLineBreak_iff_two_trades :
    Lawful (3 : UInt8).toNat [buyAt 1 100 1, buyAt 2 101 1] (linesAfter 3 .binance "BTCUSDT")
        (pendingAfter 3 .binance "BTCUSDT") ↔
      ([buyAt 1 100 1, buyAt 2 101 1].Pairwise (·.tsMs ≤ ·.tsMs) →
        ClosesLater 3 [buyAt 1 100 1, buyAt 2 101 1]) :=
  threeLineBreak_iff (by decide) .binance "BTCUSDT" [buyAt 1 100 1, buyAt 2 101 1]

/-- Three trades of one millisecond at `100`, `101`, `102`: the second line is closed at
    `1000` and opens at `1001`. -/
theorem not_lawful_of_same_millisecond :
    ¬ Lawful 3 [buyAt 1000 100 1, buyAt 1000 101 1, buyAt 1000 102 1]
      (linesAfter 3 .binance "BTCUSDT") (pendingAfter 3 .binance "BTCUSDT") := by
  intro h
  have hout : linesAfter 3 .binance "BTCUSDT"
      [buyAt 1000 100 1, buyAt 1000 101 1, buyAt 1000 102 1] =
      [⟨1000, 1000, 100, 101, 2, 0⟩, ⟨1001, 1000, 101, 102, 1, 0⟩] := by decide +kernel
  have hlast := h.stamped (by simp [buyAt]) ⟨1001, 1000, 101, 102, 1, 0⟩ (by simp [hout])
  exact absurd hlast (by decide)

end TradeToThreeLineBreakDerived

end Digdigdig3.Derived
