import Digdigdig3.Lib.Clocked
import Digdigdig3.Derived.Kagi
import Digdigdig3.Derived.PointAndFigure
import Digdigdig3.Derived.RenkoTermination
import Digdigdig3.Derived.ThreeLineBreak
import Digdigdig3.Derived.ThresholdBars
import Digdigdig3.Derived.TpoHistory

/-!
# Open times of the derived points

The bars, bricks, segments, lines and columns of `derived.rs` open at the time of a trade, or a
millisecond after the point before them (`openTimeAfter`). So the open times of what a stream
emits never go back, whatever the times of the trades. A TPO session opens at the midnight of its
event, in whatever order the events come.

* `clocked_klineSufficient`: a stream on klines is clocked when its `fold_trade` is.
* `exists_seedFromEvents_iff`, `sorted_seedFromEvents`: a fold of bricks, which may not end.
* `map_emitted`, `pairwise_columnStamps`: the columns of a fold, with their ids.
* `map_openTime_emitted`: the days of TPO sessions.
-/

namespace Digdigdig3.Derived

/-! ## Kline-sufficient streams -/

section KlineSufficient

variable {σ ο : Type} {disabled : σ → Bool} {foldTrade : σ → TradePoint → σ × Option ο}

/-- An event is one trade or nothing to the stream. -/
theorem klineSufficient_step (ks : KlineDeltaState) (s : σ) (ev : Event) :
    (((klineSufficient disabled foldTrade).step (ks, s) ev).1.2 = s ∧
        ((klineSufficient disabled foldTrade).step (ks, s) ev).2 = none) ∨
      ∃ point, ((klineSufficient disabled foldTrade).step (ks, s) ev).1.2 =
          (foldTrade s point).1 ∧
        ((klineSufficient disabled foldTrade).step (ks, s) ev).2 = (foldTrade s point).2 := by
  unfold klineSufficient
  simp only
  split_ifs
  · exact .inl ⟨rfl, rfl⟩
  · rcases klineTick ks ev with ⟨ks', _ | point⟩
    · exact .inl ⟨rfl, rfl⟩
    · exact .inr ⟨point, rfl, rfl⟩

theorem clocked_klineSufficient {Inv : σ → Prop} {clock : σ → ℤ} {stamp : ο → ℤ}
    (h : (Mealy.mk foldTrade).Clocked Inv clock stamp) :
    (klineSufficient disabled foldTrade).Clocked (fun s => Inv s.2) (fun s => clock s.2) stamp where
  keeps := by
    rintro ⟨ks, s⟩ ev hs
    rcases klineSufficient_step ks s ev with ⟨hstate, -⟩ | ⟨point, hstate, -⟩
    · rwa [hstate]
    · rw [hstate]
      exact h.keeps s point hs
  forward := by
    rintro ⟨ks, s⟩ ev hs
    rcases klineSufficient_step ks s ev with ⟨hstate, -⟩ | ⟨point, hstate, -⟩
    · rw [hstate]
    · rw [hstate]
      exact h.forward s point hs
  stamped := by
    rintro ⟨ks, s⟩ ev o hs ho
    rcases klineSufficient_step ks s ev with ⟨-, hnone⟩ | ⟨point, hstate, hout⟩
    · rw [hnone] at ho
      cases ho
    · rw [hstate]
      exact h.stamped s point o hs (hout.symm.trans ho)

end KlineSufficient

/-! ## Bars -/

/-- The current bar is the last one that was opened. -/
def CurrentAt (current : Option BarPoint) (last : ℤ) : Prop := ∀ bar ∈ current, bar.openTime = last

theorem currentAt_none (last : ℤ) : CurrentAt none last := nofun

theorem currentAt_some {bar : BarPoint} {last : ℤ} (h : bar.openTime = last) :
    CurrentAt (some bar) last := by
  intro b hb
  rw [← Option.mem_some_iff.mp hb]
  exact h

/-- The bar after a trade carries the last open time, which has not gone back. -/
theorem openOrUpdate_stamp {current : Option BarPoint} {last : ℤ} (h : CurrentAt current last)
    (point : TradePoint) :
    (openOrUpdate current last point).1.openTime = (openOrUpdate current last point).2 ∧
      last ≤ (openOrUpdate current last point).2 := by
  cases current with
  | none => exact ⟨rfl, (lt_openTimeAfter point.tsMs last).le⟩
  | some bar => exact ⟨h bar rfl, le_rfl⟩

theorem TradeToRangeBarDerived.clocked :
    (Mealy.mk TradeToRangeBarDerived.foldTrade).Clocked
      (fun s => CurrentAt s.current s.lastEmittedOpenTime) (·.lastEmittedOpenTime)
      (·.openTime) := by
  have hall : ∀ (s : TradeToRangeBarDerived) (point : TradePoint),
      CurrentAt s.current s.lastEmittedOpenTime → ∃ bar, (s.foldTrade point).2 = some bar ∧
        (s.foldTrade point).1.current = some bar ∧
        bar.openTime = (s.foldTrade point).1.lastEmittedOpenTime ∧
        s.lastEmittedOpenTime ≤ (s.foldTrade point).1.lastEmittedOpenTime := by
    intro s point hs
    have hopen := (lt_openTimeAfter point.tsMs s.lastEmittedOpenTime).le
    unfold foldTrade
    cases hcur : s.current with
    | none => exact ⟨_, rfl, rfl, rfl, hopen⟩
    | some bar =>
      simp only
      split_ifs
      · exact ⟨_, rfl, rfl, rfl, hopen⟩
      · exact ⟨_, rfl, rfl, hs bar hcur, le_rfl⟩
  refine ⟨fun s point hs => ?_, fun s point hs => ?_, fun s point o hs ho => ?_⟩
  · obtain ⟨bar, -, hcur, htime, -⟩ := hall s point hs
    show CurrentAt (s.foldTrade point).1.current _
    rw [hcur]
    exact currentAt_some htime
  · obtain ⟨-, -, -, -, hle⟩ := hall s point hs
    exact hle
  · obtain ⟨bar, hout, -, htime, -⟩ := hall s point hs
    obtain rfl : bar = o := Option.some.inj (hout.symm.trans ho)
    exact htime

/-- A stream that opens or updates a bar with every trade, and keeps or closes it. -/
theorem clocked_of_openOrUpdate {σ : Type} {foldTrade : σ → TradePoint → σ × Option BarPoint}
    {current : σ → Option BarPoint} {last : σ → ℤ}
    (hbar : ∀ s point, (foldTrade s point).2 = some (openOrUpdate (current s) (last s) point).1)
    (hlast : ∀ s point, last (foldTrade s point).1 = (openOrUpdate (current s) (last s) point).2)
    (hcurrent : ∀ s point, current (foldTrade s point).1 = none ∨
      current (foldTrade s point).1 = some (openOrUpdate (current s) (last s) point).1) :
    (Mealy.mk foldTrade).Clocked (fun s => CurrentAt (current s) (last s)) last (·.openTime) where
  keeps := by
    intro s point hs
    show CurrentAt (current (foldTrade s point).1) (last (foldTrade s point).1)
    rcases hcurrent s point with hnone | hsome
    · rw [hnone]
      exact currentAt_none _
    · rw [hsome, hlast]
      exact currentAt_some (openOrUpdate_stamp hs point).1
  forward := by
    intro s point hs
    show last s ≤ last (foldTrade s point).1
    rw [hlast]
    exact (openOrUpdate_stamp hs point).2
  stamped := by
    intro s point o hs ho
    obtain rfl := Option.some.inj ((hbar s point).symm.trans ho)
    show _ = last (foldTrade s point).1
    rw [hlast]
    exact (openOrUpdate_stamp hs point).1

theorem TradeToVolumeBarDerived.clocked :
    (Mealy.mk TradeToVolumeBarDerived.foldTrade).Clocked
      (fun s => CurrentAt s.current s.lastEmittedOpenTime) (·.lastEmittedOpenTime)
      (·.openTime) := by
  refine clocked_of_openOrUpdate (fun s point => ?_) (fun s point => ?_) (fun s point => ?_) <;>
    unfold foldTrade <;> simp only <;> split_ifs
  all_goals first | rfl | exact .inl rfl | exact .inr rfl

theorem TradeToDollarBarDerived.clocked :
    (Mealy.mk TradeToDollarBarDerived.foldTrade).Clocked
      (fun s => CurrentAt s.current s.lastEmittedOpenTime) (·.lastEmittedOpenTime)
      (·.openTime) := by
  refine clocked_of_openOrUpdate (fun s point => ?_) (fun s point => ?_) (fun s point => ?_) <;>
    unfold foldTrade <;> simp only <;> split_ifs
  all_goals first | rfl | exact .inl rfl | exact .inr rfl

theorem TradeToTickBarDerived.clocked_foldTrade :
    (Mealy.mk TradeToTickBarDerived.foldTrade).Clocked
      (fun s => CurrentAt s.current s.lastEmittedOpenTime) (·.lastEmittedOpenTime)
      (·.openTime) := by
  refine clocked_of_openOrUpdate (fun s point => ?_) (fun s point => ?_) (fun s point => ?_) <;>
    unfold foldTrade <;> simp only <;> split_ifs
  all_goals first | rfl | exact .inl rfl | exact .inr rfl

theorem TradeToTickBarDerived.clocked :
    TradeToTickBarDerived.machine.Clocked
      (fun s => CurrentAt s.current s.lastEmittedOpenTime) (·.lastEmittedOpenTime)
      (·.openTime) := by
  have hstep : ∀ (s : TradeToTickBarDerived) (ev : Event), machine.step s ev = (s, none) ∨
      ∃ point, machine.step s ev = s.foldTrade point := by
    intro s ev
    unfold machine
    simp only
    split_ifs
    · exact .inl rfl
    · cases ev with
      | trade exchange symbol point => exact .inr ⟨point, rfl⟩
      | bar exchange symbol timeframe point => exact .inl rfl
      | fundingRate exchange symbol point => exact .inl rfl
      | other => exact .inl rfl
  refine ⟨fun s ev hs => ?_, fun s ev hs => ?_, fun s ev o hs ho => ?_⟩
  · rcases hstep s ev with hidle | ⟨point, hfold⟩
    · rwa [hidle]
    · rw [hfold]
      exact clocked_foldTrade.keeps s point hs
  · rcases hstep s ev with hidle | ⟨point, hfold⟩
    · rw [hidle]
    · rw [hfold]
      exact clocked_foldTrade.forward s point hs
  · rcases hstep s ev with hidle | ⟨point, hfold⟩
    · rw [hidle] at ho
      cases ho
    · rw [hfold] at ho ⊢
      exact clocked_foldTrade.stamped s point o hs ho

/-! ## Segments and lines -/

theorem TradeToKagiBarDerived.clocked :
    (Mealy.mk TradeToKagiBarDerived.foldTrade).Clocked (fun _ => True) (·.lastEmittedOpenTime)
      (·.openTime) := by
  have hall : ∀ (s : TradeToKagiBarDerived) (point : TradePoint),
      ((s.foldTrade point).2 = none ∧
          (s.foldTrade point).1.lastEmittedOpenTime = s.lastEmittedOpenTime) ∨
        ∃ segment, (s.foldTrade point).2 = some segment ∧
          segment.openTime = openTimeAfter point.tsMs s.lastEmittedOpenTime ∧
          (s.foldTrade point).1.lastEmittedOpenTime =
            openTimeAfter point.tsMs s.lastEmittedOpenTime := by
    intro s point
    unfold foldTrade foldSeed foldActive
    simp only
    split_ifs
    all_goals first | exact .inl ⟨rfl, rfl⟩ | exact .inr ⟨_, rfl, rfl, rfl⟩
  refine ⟨fun _ _ _ => trivial, fun s point _ => ?_, fun s point o _ ho => ?_⟩
  · show _ ≤ (s.foldTrade point).1.lastEmittedOpenTime
    rcases hall s point with ⟨-, hlast⟩ | ⟨segment, -, -, hlast⟩
    · rw [hlast]
    · rw [hlast]
      exact (lt_openTimeAfter _ _).le
  · rcases hall s point with ⟨hnone, -⟩ | ⟨segment, hsome, htime, hlast⟩
    · cases hnone.symm.trans ho
    · obtain rfl : segment = o := Option.some.inj (hsome.symm.trans ho)
      exact htime.trans hlast.symm

theorem TradeToThreeLineBreakDerived.clocked :
    (Mealy.mk TradeToThreeLineBreakDerived.foldTrade).Clocked (fun _ => True)
      (·.lastEmittedOpenTs) (·.tsOpen) := by
  refine ⟨fun _ _ _ => trivial, fun s point _ => ?_, fun s point o _ ho => ?_⟩
  · show s.lastEmittedOpenTs ≤ (s.foldTrade point).1.lastEmittedOpenTs
    rw [foldTrade_eq]
    cases s.closes point.price with
    | none => exact le_rfl
    | some direction => exact (lt_openTimeAfter _ _).le
  · replace ho : (s.foldTrade point).2 = some o := ho
    show o.tsOpen = (s.foldTrade point).1.lastEmittedOpenTs
    rw [foldTrade_eq] at ho ⊢
    cases hcloses : s.closes point.price with
    | none =>
      rw [hcloses] at ho
      cases ho
    | some direction =>
      rw [hcloses] at ho
      cases ho
      rfl

/-! ## Bricks -/

namespace TradeToRenkoBarDerived

/-- `seed_from_events` (lines 106–108) with a bound on the rounds of each loop; `none` when a loop
    is not done by then. -/
def seedFromEvents (fuel : ℕ) :
    KlineDeltaState × TradeToRenkoBarDerived → List Event → Option (List RenkoBrickPoint)
  | _, [] => some []
  | (ks, s), ev :: evs =>
    (onUpstreamEvent fuel ks s ev).bind fun r =>
      (seedFromEvents fuel r.1 evs).map (r.2.toList ++ ·)

/-- No trade finds the stream in a state in which its loop does not end. -/
def NeverStuck : TradeToRenkoBarDerived → List TradePoint → Prop
  | _, [] => True
  | s, point :: trades => ¬ s.Stuck point ∧
    ∀ fuel s' o, s.foldTrade fuel point = some (s', o) → NeverStuck s' trades

section Fuel

variable {point : TradePoint} {s : TradeToRenkoBarDerived} {fuel fuel' : ℕ}

theorem brickLoop_mono (hle : fuel ≤ fuel') {e : Option RenkoBrickPoint}
    {result : TradeToRenkoBarDerived × Option RenkoBrickPoint}
    (h : brickLoop point fuel s e = some result) : brickLoop point fuel' s e = some result := by
  induction fuel generalizing fuel' s e with
  | zero => cases h
  | succ fuel ih =>
    obtain ⟨more, rfl⟩ : ∃ more, fuel' = more + 1 := ⟨fuel' - 1, by omega⟩
    rw [brickLoop] at h ⊢
    cases hround : s.round point with
    | none =>
      rw [hround] at h
      exact h
    | some r =>
      rw [hround] at h
      exact ih (by omega) h

theorem onUpstreamEvent_mono (hle : fuel ≤ fuel') {ks : KlineDeltaState} {ev : Event}
    {result : (KlineDeltaState × TradeToRenkoBarDerived) × Option RenkoBrickPoint}
    (h : onUpstreamEvent fuel ks s ev = some result) :
    onUpstreamEvent fuel' ks s ev = some result := by
  unfold onUpstreamEvent at h ⊢
  split_ifs at h ⊢ with hbox
  · exact h
  · rcases htick : klineTick ks ev with ⟨ks', _ | point⟩
    · rw [htick] at h
      exact h
    · rw [htick] at h
      obtain ⟨r, hr, heq⟩ := Option.map_eq_some_iff.mp h
      exact Option.map_eq_some_iff.mpr ⟨r, brickLoop_mono hle hr, heq⟩

theorem seedFromEvents_mono (hle : fuel ≤ fuel') {state : KlineDeltaState × TradeToRenkoBarDerived}
    {evs : List Event} {bricks : List RenkoBrickPoint}
    (h : seedFromEvents fuel state evs = some bricks) :
    seedFromEvents fuel' state evs = some bricks := by
  induction evs generalizing state bricks with
  | nil => exact h
  | cons ev evs ih =>
    obtain ⟨r, hr, hrest⟩ := Option.bind_eq_some_iff.mp h
    obtain ⟨rest, hseed, heq⟩ := Option.map_eq_some_iff.mp hrest
    exact Option.bind_eq_some_iff.mpr ⟨r, onUpstreamEvent_mono hle hr,
      Option.map_eq_some_iff.mpr ⟨rest, ih hseed, heq⟩⟩

theorem foldTrade_functional {result result' : TradeToRenkoBarDerived × Option RenkoBrickPoint}
    (h : s.foldTrade fuel point = some result) (h' : s.foldTrade fuel' point = some result') :
    result = result' := by
  have hmax := brickLoop_mono (le_max_left fuel fuel') h
  exact Option.some.inj (hmax.symm.trans (brickLoop_mono (le_max_right fuel fuel') h'))

end Fuel

/-- A fold of trades ends when none of them is stuck. -/
theorem exists_seedFromEvents_iff {b r : ℕ} (hb : 0 < b) {ks : KlineDeltaState}
    {s : TradeToRenkoBarDerived} (h : Reachable b r ks s) (exchange : ExchangeId)
    (symbol : String) (trades : List TradePoint) :
    (∃ fuel bricks, seedFromEvents fuel (ks, s) (trades.map (.trade exchange symbol)) =
      some bricks) ↔ NeverStuck s trades := by
  have hbox : ∀ {s}, Reachable b r ks s → s.boxSize ≠ 0 := by
    intro s hs
    have hpos : (0 : ℚ) < b / 10 ^ 8 := by positivity
    rw [hs.sound.boxSize_eq, newForKey, if_pos hb]
    exact hpos.ne'
  induction trades generalizing s with
  | nil => exact iff_of_true ⟨0, [], rfl⟩ trivial
  | cons point trades ih =>
    have hcall (fuel : ℕ) (s' : TradeToRenkoBarDerived) (o : Option RenkoBrickPoint) :
        onUpstreamEvent fuel ks s (.trade exchange symbol point) = some ((ks, s'), o) ↔
          s.foldTrade fuel point = some (s', o) :=
      onUpstreamEvent_trade (hbox h) fuel ks exchange symbol o
    constructor
    · rintro ⟨fuel, bricks, hseed⟩
      obtain ⟨⟨⟨ks', s'⟩, o⟩, hev, hrest⟩ := Option.bind_eq_some_iff.mp hseed
      obtain ⟨rest, hrest, -⟩ := Option.map_eq_some_iff.mp hrest
      obtain ⟨⟨s₁, o₁⟩, hfold, heq⟩ : ∃ result, s.foldTrade fuel point = some result ∧
          ((ks, result.1), result.2) = ((ks', s'), o) := by
        have hev' := hev
        unfold onUpstreamEvent klineTick at hev'
        rw [if_neg (hbox h)] at hev'
        exact Option.map_eq_some_iff.mp hev'
      cases heq
      refine ⟨(terminates_iff hb h point).mp ⟨fuel, _, hfold⟩, fun fuel' s₂ o₂ hfold' => ?_⟩
      cases foldTrade_functional hfold' hfold
      exact (ih (h.event hev)).mp ⟨fuel, rest, hrest⟩
    · rintro ⟨hstuck, hnext⟩
      obtain ⟨fuel, ⟨s', o⟩, hfold⟩ := (terminates_iff hb h point).mpr hstuck
      have hev := (hcall fuel s' o).mpr hfold
      obtain ⟨fuel', rest, hrest⟩ := (ih (h.event hev)).mpr (hnext fuel s' o hfold)
      refine ⟨max fuel fuel', o.toList ++ rest, Option.bind_eq_some_iff.mpr ⟨((ks, s'), o),
        onUpstreamEvent_mono (le_max_left _ _) hev, Option.map_eq_some_iff.mpr ⟨rest, ?_, rfl⟩⟩⟩
      exact seedFromEvents_mono (le_max_right _ _) hrest

/-- The bricks of a loop open one after the other, the last of them at the last open time. -/
theorem Bricks.stamp {point : TradePoint} {s s' : TradeToRenkoBarDerived}
    {bricks : List RenkoBrickPoint} (h : Bricks point s s' bricks) :
    s.lastEmittedOpenTime ≤ s'.lastEmittedOpenTime ∧ ∀ brick ∈ bricks.getLast?,
      brick.openTime = s'.lastEmittedOpenTime ∧
        s.lastEmittedOpenTime < s'.lastEmittedOpenTime := by
  induction h with
  | done => exact ⟨le_rfl, nofun⟩
  | @next s s₁ s' brick bricks hround rest ih =>
    obtain ⟨htime, hlast⟩ : brick.openTime = s₁.lastEmittedOpenTime ∧
        s.lastEmittedOpenTime < s₁.lastEmittedOpenTime := by
      have hlt := lt_openTimeAfter point.tsMs s.lastEmittedOpenTime
      rcases round_eq_some hround with ⟨_, -, -, -, rfl, rfl⟩ | ⟨_, -, -, -, rfl, rfl⟩ <;>
        exact ⟨rfl, hlt⟩
    refine ⟨hlast.le.trans ih.1, fun last hmem => ?_⟩
    rw [List.getLast?_cons] at hmem
    cases hbricks : bricks.getLast? with
    | none =>
      rw [hbricks] at hmem
      obtain rfl : brick = last := by simpa using hmem
      rw [List.getLast?_eq_none_iff] at hbricks
      subst hbricks
      cases rest
      exact ⟨htime, hlast⟩
    | some last' =>
      rw [hbricks] at hmem
      obtain rfl : last' = last := by simpa using hmem
      obtain ⟨heq, hlt⟩ := ih.2 last' hbricks
      exact ⟨heq, hlast.trans hlt⟩

/-- The bricks that a fold returns open one after the other. -/
theorem sorted_seedFromEvents {fuel : ℕ} {ks : KlineDeltaState} {s : TradeToRenkoBarDerived}
    {evs : List Event} {bricks : List RenkoBrickPoint}
    (h : seedFromEvents fuel (ks, s) evs = some bricks) :
    (∀ brick ∈ bricks, s.lastEmittedOpenTime < brick.openTime) ∧
      bricks.Pairwise fun a b => a.openTime < b.openTime := by
  induction evs generalizing ks s bricks with
  | nil =>
    cases h
    exact ⟨nofun, List.Pairwise.nil⟩
  | cons ev evs ih =>
    obtain ⟨⟨⟨ks', s'⟩, o⟩, hev, hmap⟩ := Option.bind_eq_some_iff.mp h
    obtain ⟨rest, hseed, rfl⟩ := Option.map_eq_some_iff.mp hmap
    obtain ⟨hrest, hsorted⟩ := ih hseed
    have hstamp : s.lastEmittedOpenTime ≤ s'.lastEmittedOpenTime ∧ ∀ brick ∈ o,
        brick.openTime = s'.lastEmittedOpenTime ∧
          s.lastEmittedOpenTime < s'.lastEmittedOpenTime := by
      unfold onUpstreamEvent at hev
      split_ifs at hev
      · cases hev
        exact ⟨le_rfl, nofun⟩
      · rcases htick : klineTick ks ev with ⟨ks₁, _ | point⟩
        · rw [htick] at hev
          cases hev
          exact ⟨le_rfl, nofun⟩
        · rw [htick] at hev
          obtain ⟨⟨s₁, o₁⟩, hfold, heq⟩ := Option.map_eq_some_iff.mp hev
          cases heq
          obtain ⟨bricks, hbricks, rfl⟩ := (brickLoop_eq_some_iff none _).mp ⟨fuel, hfold⟩
          rw [Option.or_none]
          exact hbricks.stamp
    refine ⟨fun brick hmem => ?_, List.pairwise_append.mpr ⟨?_, hsorted, ?_⟩⟩
    · rcases List.mem_append.mp hmem with hmem | hmem
      · obtain ⟨heq, hlt⟩ := hstamp.2 brick (Option.mem_toList.mp hmem)
        rwa [heq]
      · exact hstamp.1.trans_lt (hrest brick hmem)
    · cases o with
      | none => exact List.Pairwise.nil
      | some brick => exact List.pairwise_singleton _ brick
    · intro a ha b hb
      rw [(hstamp.2 a (Option.mem_toList.mp ha)).1]
      exact hrest b hb

end TradeToRenkoBarDerived

/-! ## Columns -/

namespace TradeToPnfBarDerived

/-- The columns that are current after the trades, each by its id and the time at which it was
    opened. -/
def columnStamps (box : ℚ) (rev : ℕ) : Column → ℤ → List TradePoint → List (ℕ × ℤ)
  | _, _, [] => []
  | c, openTime, point :: trades =>
    let c' := c.step box rev point.price
    let openTime' := if c'.columnId = c.columnId then openTime
      else openTimeAfter point.tsMs openTime
    (c'.columnId, openTime') :: columnStamps box rev c' openTime' trades

theorem map_emitted {s : TradeToPnfBarDerived} {col : PnfColumnPoint} (hcur : s.cur = some col)
    (hid : s.nextColumnId = col.columnId + 1) (htime : s.lastEmittedOpenTime = col.openTime)
    (trades : List TradePoint) :
    ((Mealy.mk foldTrade).emitted s trades).map (fun c => (c.columnId, c.openTime)) =
      columnStamps s.boxSize s.reversalCount col.column col.openTime trades := by
  induction trades generalizing s col with
  | nil => rfl
  | cons point trades ih =>
    obtain ⟨c, hcur', hcolumn, hid', hcases⟩ := next_cases point hcur hid
    obtain ⟨hbox, hrev⟩ := next_boxSize s point
    have hstep : (Mealy.mk foldTrade).step s point = (s.next point, some c) := by
      show (s.next point, (s.next point).cur) = _
      rw [hcur']
    have hopen : c.openTime = (if c.column.columnId = col.column.columnId then col.openTime
        else openTimeAfter point.tsMs col.openTime) ∧
          (s.next point).lastEmittedOpenTime = c.openTime := by
      show c.openTime = (if c.columnId = col.columnId then _ else _) ∧ _
      rcases hcases with ⟨-, hlast, hopen, hcid, -⟩ | ⟨-, hlast, hopen, hcid, -⟩
      · rw [if_pos hcid]
        exact ⟨hopen, by rw [hlast, hopen, htime]⟩
      · rw [if_neg (by omega)]
        exact ⟨by rw [hopen, htime], by rw [hlast, hopen]⟩
    rw [Mealy.emitted_cons, hstep, Option.toList_some, List.map_append, ih hcur' hid' hopen.2,
      hbox, hrev, columnStamps, ← hcolumn, ← hopen.1]
    rfl

/-- A column that is current after more trades is the same or a later one. -/
theorem mem_columnStamps {box : ℚ} {rev : ℕ} {c : Column} {openTime : ℤ}
    {trades : List TradePoint} {stamp : ℕ × ℤ}
    (h : stamp ∈ columnStamps box rev c openTime trades) :
    stamp = (c.columnId, openTime) ∨ c.columnId < stamp.1 ∧ openTime < stamp.2 := by
  induction trades generalizing c openTime with
  | nil => exact absurd h List.not_mem_nil
  | cons point trades ih =>
    have hstep : (c.step box rev point.price).columnId = c.columnId ∨
        (c.step box rev point.price).columnId = c.columnId + 1 := by
      unfold Column.step
      split_ifs
      · exact .inl rfl
      · exact .inr rfl
      · exact .inl rfl
    rw [columnStamps] at h
    rcases hstep with hsame | hnew
    · simp only [hsame, if_true] at h
      rcases List.mem_cons.mp h with rfl | h
      · exact .inl rfl
      · have := ih h
        rwa [hsame] at this
    · have hlt := lt_openTimeAfter point.tsMs openTime
      have hne : ¬ (c.step box rev point.price).columnId = c.columnId := by omega
      rw [if_neg hne] at h
      refine .inr ?_
      rcases List.mem_cons.mp h with rfl | h
      · exact ⟨by simp only; omega, hlt⟩
      · rcases ih h with rfl | ⟨hid, htime⟩
        · exact ⟨by simp only; omega, hlt⟩
        · exact ⟨by omega, hlt.trans htime⟩

theorem pairwise_columnStamps (box : ℚ) (rev : ℕ) (c : Column) (openTime : ℤ)
    (trades : List TradePoint) :
    (columnStamps box rev c openTime trades).Pairwise fun a b =>
      a = b ∨ a.1 < b.1 ∧ a.2 < b.2 := by
  induction trades generalizing c openTime with
  | nil => exact List.Pairwise.nil
  | cons point trades ih =>
    refine List.pairwise_cons.mpr ⟨fun stamp hstamp => ?_, ih _ _⟩
    exact (mem_columnStamps hstamp).imp_left Eq.symm

end TradeToPnfBarDerived

/-! ## Sessions -/

namespace TpoSessionState

/-- What an event of the kline flavour calls `extend_bucket` with (line 1727). -/
def ofBar (point : BarPoint) : TpoEvent :=
  { tsMs := point.openTime, high := point.high, low := point.low, priceSample := point.close }

/-- What an event of the trade flavour calls `extend_bucket` with (line 1766). -/
def ofTrade (point : TradePoint) : TpoEvent :=
  { tsMs := point.tsMs, high := point.price, low := point.price, priceSample := point.price }

/-- `TpoFromKline1mDerived::on_upstream_event` (lines 1725–1729). -/
def kline1mMachine : Mealy TpoSessionState Event TpoSessionPoint :=
  ⟨fun s ev =>
    match ev with
    | .bar _ _ _ point => (s.feed (ofBar point), (s.feed (ofBar point)).buildPoint)
    | _ => (s, none)⟩

/-- `TpoFromTradeDerived::on_upstream_event` (lines 1762–1768). -/
def tradeMachine : Mealy TpoSessionState Event TpoSessionPoint :=
  ⟨fun s ev =>
    match ev with
    | .trade _ _ point => (s.feed (ofTrade point), (s.feed (ofTrade point)).buildPoint)
    | _ => (s, none)⟩

/-- A machine that feeds its session with an event for each of the inputs emits a session of the
    day of each. -/
theorem map_openTime_emitted {ι α : Type} {M : Mealy TpoSessionState ι TpoSessionPoint}
    {input : α → ι} (event : α → TpoEvent)
    (hM : ∀ s a, M.step s (input a) = (s.feed (event a), (s.feed (event a)).buildPoint))
    (f : UInt16) (es : List TpoEvent) (as : List α) :
    (M.emitted (run f es) (as.map input)).map TpoSessionPoint.openTime =
      as.map fun a => dayStartMs (event a).tsMs := by
  induction as generalizing es with
  | nil => rfl
  | cons a as ih =>
    obtain ⟨p, hp⟩ := exists_buildPoint f es (event a)
    have hday : p.openTime = dayStartMs (event a).tsMs := by
      rw [buildPoint_openTime hp, run_concat, feed_sessionDateMs]
    rw [List.map_cons, Mealy.emitted_cons, hM, ← run_concat, hp, Option.toList_some,
      List.map_append, ih, List.map_singleton, hday, List.map_cons]
    rfl

theorem map_openTime_kline1m (f : UInt16) (exchange : ExchangeId) (symbol : String)
    (timeframe : KlineInterval) (bars : List BarPoint) :
    (kline1mMachine.emitted (new (freqForKey f)) (bars.map (.bar exchange symbol timeframe))).map
      TpoSessionPoint.openTime = bars.map fun bar => dayStartMs bar.openTime :=
  map_openTime_emitted ofBar (fun _ _ => rfl) f [] bars

theorem map_openTime_trade (f : UInt16) (exchange : ExchangeId) (symbol : String)
    (trades : List TradePoint) :
    (tradeMachine.emitted (new (freqForKey f)) (trades.map (.trade exchange symbol))).map
      TpoSessionPoint.openTime = trades.map fun point => dayStartMs point.tsMs :=
  map_openTime_emitted ofTrade (fun _ _ => rfl) f [] trades

end TpoSessionState

end Digdigdig3.Derived
