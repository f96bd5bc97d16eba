import Digdigdig3.Derived.Basic

/-!
# `KlineDeltaState`: folding kline updates into Δ-volume trades

`KlineDeltaState::to_delta_trade` (`derived.rs` lines 201–259) turns the repeated
updates of an in-progress bar into synthetic trades whose quantities are the increments
of the bar's volume. Updates of a bar that is no longer the latest are ignored.

Results:
* `quantityFor_eq_rises`: the quantity traded for a bar is the sum of the rises of the
  volumes reported while it was the latest bar.
* `rises_le_of_upperBound`, `rises_eq_last_sub`: bounds on that sum.
* `delta_trades_sound`: what the synthetic trades of a bar add up to and when they
  are stamped.
-/

namespace Digdigdig3.Derived

/-- `i64::MIN`. -/
def i64Min : ℤ := -2 ^ 63

/-- `KlineDeltaState` (lines 165–175). `lastOpenTime = i64Min` means unseeded. -/
structure KlineDeltaState where
  lastOpenTime : ℤ
  lastSeenVolume : ℚ
  lastClose : ℚ
  tickOffset : ℤ
  deriving DecidableEq

namespace KlineDeltaState

/-- `KlineDeltaState::new` (lines 178–185). -/
def new : KlineDeltaState :=
  { lastOpenTime := i64Min, lastSeenVolume := 0, lastClose := 0, tickOffset := 0 }

/-- `seed_baseline` (lines 190–195); it overwrites every field. -/
def seedBaseline (openTime : ℤ) (volume close : ℚ) : KlineDeltaState :=
  { lastOpenTime := openTime, lastSeenVolume := volume, lastClose := close, tickOffset := 0 }

/-- `interval_to_ms(timeframe.as_str()).unwrap_or(60_000).max(1)` (line 208). -/
def intervalMs (timeframe : KlineInterval) : ℤ := max ((intervalToMs timeframe.text).getD 60000) 1

/-- The state in which the volume of `bar` is accounted for, and the volume not yet
    traded (lines 222–235): `none` for a bar older than the latest one. -/
def deltaVolume (s : KlineDeltaState) (bar : BarPoint) : Option (KlineDeltaState × ℚ) :=
  if bar.openTime = s.lastOpenTime then some (s, max (bar.volume - s.lastSeenVolume) 0)
  else if s.lastOpenTime < bar.openTime then
    some ({ s with lastOpenTime := bar.openTime, tickOffset := 0 }, max bar.volume 0)
  else none

/-- `to_delta_trade` (lines 201–259). -/
def toDeltaTrade (s : KlineDeltaState) (bar : BarPoint) (timeframe : KlineInterval)
    (exchange : ExchangeId) (symbol : String) : KlineDeltaState × Option Event :=
  if s.lastOpenTime = i64Min then
    ({ lastOpenTime := bar.openTime, lastSeenVolume := bar.volume, lastClose := bar.close,
       tickOffset := 0 }, none)
  else
    match s.deltaVolume bar with
    | none => (s, none)
    | some (s, delta) =>
      if delta ≤ 0 then ({ s with lastSeenVolume := bar.volume, lastClose := bar.close }, none)
      else
        let side : UInt8 := if bar.close < s.lastClose then 1 else 0
        let offset := max 0 (min s.tickOffset (intervalMs timeframe - 1))
        ({ s with tickOffset := s.tickOffset + 1, lastSeenVolume := bar.volume,
                  lastClose := bar.close },
          some (.trade exchange symbol
            { tsMs := bar.openTime + offset, price := bar.close, quantity := delta,
              side := side, tradeIdHash := 0 }))

/-- The adapter of one kline stream as a machine on its bar updates. -/
def machine (timeframe : KlineInterval) (exchange : ExchangeId) (symbol : String) :
    Mealy KlineDeltaState BarPoint Event :=
  ⟨fun s bar => s.toDeltaTrade bar timeframe exchange symbol⟩

/-! ## What one update does -/

section Step

variable {s : KlineDeltaState} {bar : BarPoint} (timeframe : KlineInterval)
  (exchange : ExchangeId) (symbol : String)

/-- The volume of the bar opened at `t` that is accounted for in state `s`. -/
def baseline (s : KlineDeltaState) (t : ℤ) : ℚ := if t = s.lastOpenTime then s.lastSeenVolume else 0

/-- The tick offset that the bar opened at `t` continues from in state `s`. -/
def offsetFor (s : KlineDeltaState) (t : ℤ) : ℤ := if t = s.lastOpenTime then s.tickOffset else 0

/-- The synthetic trade of an update (lines 243–258). -/
def deltaTrade (s : KlineDeltaState) (bar : BarPoint) (timeframe : KlineInterval) : TradePoint :=
  { tsMs := bar.openTime + max 0 (min (s.offsetFor bar.openTime) (intervalMs timeframe - 1)),
    price := bar.close, quantity := max (bar.volume - s.baseline bar.openTime) 0,
    side := if bar.close < s.lastClose then 1 else 0, tradeIdHash := 0 }

theorem toDeltaTrade_of_unseeded (h : s.lastOpenTime = i64Min) :
    s.toDeltaTrade bar timeframe exchange symbol =
      (seedBaseline bar.openTime bar.volume bar.close, none) := by
  rw [toDeltaTrade, if_pos h]
  rfl

theorem toDeltaTrade_of_late (h : i64Min < s.lastOpenTime)
    (hlt : bar.openTime < s.lastOpenTime) :
    s.toDeltaTrade bar timeframe exchange symbol = (s, none) := by
  have hnone : s.deltaVolume bar = none := by
    rw [deltaVolume, if_neg (by omega), if_neg (by omega)]
  rw [toDeltaTrade, if_neg h.ne', hnone]

/-- An update of the latest or of a new bar trades the volume above the baseline, and
    nothing if there is none. Its volume becomes the baseline in either case. -/
theorem toDeltaTrade_of_live (h : i64Min < s.lastOpenTime)
    (hle : s.lastOpenTime ≤ bar.openTime) :
    s.toDeltaTrade bar timeframe exchange symbol =
      if bar.volume ≤ s.baseline bar.openTime then
        (⟨bar.openTime, bar.volume, bar.close, s.offsetFor bar.openTime⟩, none)
      else
        (⟨bar.openTime, bar.volume, bar.close, s.offsetFor bar.openTime + 1⟩,
          some (.trade exchange symbol (s.deltaTrade bar timeframe))) := by
  have hdelta : s.deltaVolume bar =
      some ({ s with lastOpenTime := bar.openTime, tickOffset := s.offsetFor bar.openTime },
        max (bar.volume - s.baseline bar.openTime) 0) := by
    unfold deltaVolume baseline offsetFor
    by_cases heq : bar.openTime = s.lastOpenTime
    · simp only [heq, if_true]
    · simp only [if_neg heq, if_pos (lt_of_le_of_ne hle (Ne.symm heq)), sub_zero]
  rw [toDeltaTrade, if_neg h.ne', hdelta]
  simp only [max_le_iff, le_refl, and_true, sub_nonpos]
  rfl

end Step

/-! ## Rises of a sequence of volumes -/

/-- The sum of the increments of `v :: ws` that are positive. -/
def rises (v : ℚ) : List ℚ → ℚ
  | [] => 0
  | w :: ws => max (w - v) 0 + rises w ws

/-- No volume of `vs` is larger than the one before it once there has been a fall. -/
def NoRebound (vs : List ℚ) : Prop :=
  ∃ up down, vs = up ++ down ∧ up.Pairwise (· ≤ ·) ∧ down.Pairwise (· ≥ ·) ∧
    ∀ a ∈ up.getLast?, ∀ b ∈ down.head?, b ≤ a

theorem rises_eq_last_sub (v : ℚ) (ws : List ℚ) (h : (v :: ws).Pairwise (· ≤ ·)) :
    rises v ws = (v :: ws).getLast (List.cons_ne_nil v ws) - v := by
  induction ws generalizing v with
  | nil => simp [rises]
  | cons w ws ih =>
    obtain ⟨hv, hws⟩ := List.pairwise_cons.mp h
    have hvw : v ≤ w := hv w (by simp)
    rw [rises, ih w hws, max_eq_left (by linarith), List.getLast_cons (List.cons_ne_nil w ws)]
    ring

theorem rises_eq_zero (v : ℚ) (ws : List ℚ) (h : (v :: ws).Pairwise (· ≥ ·)) : rises v ws = 0 := by
  induction ws generalizing v with
  | nil => rfl
  | cons w ws ih =>
    obtain ⟨hv, hws⟩ := List.pairwise_cons.mp h
    have hvw : w ≤ v := hv w (by simp)
    rw [rises, ih w hws, max_eq_right (by linarith), add_zero]

theorem rises_append (v : ℚ) (us ds : List ℚ) :
    rises v (us ++ ds) = rises v us + rises ((v :: us).getLast (List.cons_ne_nil v us)) ds := by
  induction us generalizing v with
  | nil => simp [rises]
  | cons u us ih =>
    rw [List.cons_append, rises, ih, rises, List.getLast_cons (List.cons_ne_nil u us)]
    ring

/-- Volumes that do not rise again after a fall rise by their largest value above the
    first one at most. -/
theorem rises_le_of_upperBound {v M : ℚ} {ws : List ℚ} (h : NoRebound (v :: ws))
    (hM : ∀ w ∈ v :: ws, w ≤ M) : rises v ws ≤ M - v := by
  obtain ⟨up, down, hsplit, hup, hdown, hseam⟩ := h
  cases up with
  | nil =>
    rw [List.nil_append] at hsplit
    rw [rises_eq_zero v ws (hsplit ▸ hdown)]
    exact sub_nonneg.mpr (hM v (by simp))
  | cons u up =>
    rw [List.cons_append] at hsplit
    obtain ⟨rfl, rfl⟩ := List.cons.inj hsplit
    have hlast : (v :: up).getLast (List.cons_ne_nil v up) ≤ M :=
      hM _ (List.mem_append_left down (List.getLast_mem _))
    have hzero : rises ((v :: up).getLast (List.cons_ne_nil v up)) down = 0 := by
      cases down with
      | nil => rfl
      | cons d ds =>
        refine rises_eq_zero _ _ (List.pairwise_cons.mpr ⟨fun x hx => ?_, hdown⟩)
        have hd : d ≤ (v :: up).getLast (List.cons_ne_nil v up) :=
          hseam _ (List.getLast?_eq_some_getLast _) d rfl
        rcases List.mem_cons.mp hx with rfl | hx
        · exact hd
        · exact ((List.pairwise_cons.mp hdown).1 x hx).trans hd
    rw [rises_append, hzero, add_zero, rises_eq_last_sub v up hup]
    linarith

/-! ## The trades of one bar -/

section Run

variable (timeframe : KlineInterval) (exchange : ExchangeId) (symbol : String)

/-- The synthetic trades that updates of the bar opened at `t` produce. -/
def tradesFor (t : ℤ) (s : KlineDeltaState) (frames : List BarPoint) : List TradePoint :=
  ((machine timeframe exchange symbol).answers s frames).filterMap fun a =>
    match a with
    | (bar, .trade _ _ point) => if bar.openTime = t then some point else none
    | _ => none

/-- The quantity traded for the bar opened at `t`. -/
def quantityFor (t : ℤ) (s : KlineDeltaState) (frames : List BarPoint) : ℚ :=
  ((tradesFor timeframe exchange symbol t s frames).map (·.quantity)).sum

/-- The updates of the bar opened at `t` that arrive before any update of a later bar. -/
def live (t : ℤ) (frames : List BarPoint) : List BarPoint :=
  (frames.takeWhile (·.openTime ≤ t)).filter (·.openTime = t)

/-- The volumes of the live updates. -/
def liveVolumes (t : ℤ) (frames : List BarPoint) : List ℚ := (live t frames).map (·.volume)

variable {s : KlineDeltaState} {bar : BarPoint} {frames : List BarPoint} {t : ℤ}

theorem liveVolumes_cons_self (h : bar.openTime = t) :
    liveVolumes t (bar :: frames) = bar.volume :: liveVolumes t frames := by
  simp [liveVolumes, live, h]

theorem liveVolumes_cons_of_lt (h : bar.openTime < t) :
    liveVolumes t (bar :: frames) = liveVolumes t frames := by
  simp [liveVolumes, live, h.le, h.ne]

theorem liveVolumes_cons_of_gt (h : t < bar.openTime) : liveVolumes t (bar :: frames) = [] := by
  simp [liveVolumes, live, not_le.mpr h]

theorem tradesFor_cons_of_none {s' : KlineDeltaState}
    (h : s.toDeltaTrade bar timeframe exchange symbol = (s', none)) :
    tradesFor timeframe exchange symbol t s (bar :: frames) =
      tradesFor timeframe exchange symbol t s' frames := by
  have hstep : (machine timeframe exchange symbol).step s bar = (s', none) := h
  rw [tradesFor, Mealy.answers_cons, hstep]
  rfl

theorem tradesFor_cons_of_some {s' : KlineDeltaState} {point : TradePoint}
    (h : s.toDeltaTrade bar timeframe exchange symbol = (s', some (.trade exchange symbol point))) :
    tradesFor timeframe exchange symbol t s (bar :: frames) =
      (if bar.openTime = t then [point] else []) ++
        tradesFor timeframe exchange symbol t s' frames := by
  have hstep : (machine timeframe exchange symbol).step s bar =
      (s', some (.trade exchange symbol point)) := h
  rw [tradesFor, Mealy.answers_cons, hstep, List.filterMap_append]
  congr 1
  by_cases ht : bar.openTime = t
  · simp [ht]
  · simp [ht]

/-- A live update contributes its trade, if any, to its own bar; the run goes on from a
    state whose latest bar is the updated one. -/
theorem tradesFor_cons_of_live (t : ℤ) (frames : List BarPoint) (h : i64Min < s.lastOpenTime)
    (hle : s.lastOpenTime ≤ bar.openTime) :
    ∃ offset, s.offsetFor bar.openTime ≤ offset ∧
      (s.baseline bar.openTime < bar.volume → offset = s.offsetFor bar.openTime + 1) ∧
      tradesFor timeframe exchange symbol t s (bar :: frames) =
        (if bar.openTime = t ∧ s.baseline bar.openTime < bar.volume then
          [s.deltaTrade bar timeframe] else []) ++
        tradesFor timeframe exchange symbol t
          ⟨bar.openTime, bar.volume, bar.close, offset⟩ frames := by
  have hstep := toDeltaTrade_of_live timeframe exchange symbol h hle
  by_cases hvol : bar.volume ≤ s.baseline bar.openTime
  · rw [if_pos hvol] at hstep
    refine ⟨s.offsetFor bar.openTime, le_rfl, fun hlt => absurd hlt (not_lt.mpr hvol), ?_⟩
    rw [tradesFor_cons_of_none timeframe exchange symbol hstep,
      if_neg (fun hc => absurd hc.2 (not_lt.mpr hvol)), List.nil_append]
  · rw [if_neg hvol] at hstep
    refine ⟨s.offsetFor bar.openTime + 1, by omega, fun _ => rfl, ?_⟩
    rw [tradesFor_cons_of_some timeframe exchange symbol hstep]
    simp only [not_le.mp hvol, and_true]

theorem tradesFor_cons_of_late (h : i64Min < s.lastOpenTime) (hlt : bar.openTime < s.lastOpenTime) :
    tradesFor timeframe exchange symbol t s (bar :: frames) =
      tradesFor timeframe exchange symbol t s frames :=
  tradesFor_cons_of_none timeframe exchange symbol
    (toDeltaTrade_of_late timeframe exchange symbol h hlt)

/-- Bars older than the latest one trade nothing any more. -/
theorem tradesFor_eq_nil (h : i64Min < s.lastOpenTime) (ht : t < s.lastOpenTime) :
    tradesFor timeframe exchange symbol t s frames = [] := by
  induction frames generalizing s with
  | nil => rfl
  | cons bar frames ih =>
    rcases lt_or_ge bar.openTime s.lastOpenTime with hlt | hge
    · rw [tradesFor_cons_of_late timeframe exchange symbol h hlt]
      exact ih h ht
    · obtain ⟨offset, -, -, heq⟩ :=
        tradesFor_cons_of_live timeframe exchange symbol t frames h hge
      rw [heq, if_neg (by omega), List.nil_append]
      exact ih (h.trans_le hge) (by simp only; omega)

/-- The quantity traded for a bar that is not older than the latest one is the sum of
    the rises of its live volumes above its baseline. -/
theorem quantityFor_eq_rises (h : i64Min < s.lastOpenTime) (ht : s.lastOpenTime ≤ t) :
    quantityFor timeframe exchange symbol t s frames =
      rises (s.baseline t) (liveVolumes t frames) := by
  unfold quantityFor
  induction frames generalizing s with
  | nil => rfl
  | cons bar frames ih =>
    rcases lt_or_ge bar.openTime s.lastOpenTime with hlt | hge
    · rw [tradesFor_cons_of_late timeframe exchange symbol h hlt, ih h ht,
        liveVolumes_cons_of_lt (by omega)]
    · obtain ⟨offset, -, -, heq⟩ :=
        tradesFor_cons_of_live timeframe exchange symbol t frames h hge
      rw [heq, List.map_append, List.sum_append]
      rcases lt_trichotomy bar.openTime t with hlt | rfl | hgt
      · rw [if_neg (by omega), liveVolumes_cons_of_lt hlt, ih (h.trans_le hge) hlt.le]
        simp only [List.map_nil, List.sum_nil, zero_add, baseline]
        rw [if_neg hlt.ne', if_neg (by omega)]
      · rw [liveVolumes_cons_self rfl, rises, ih (h.trans_le hge) le_rfl]
        simp only [true_and]
        congr 1
        · split_ifs with hvol
          · simp [deltaTrade]
          · simp [max_eq_right (sub_nonpos.mpr (not_lt.mp hvol))]
        · simp [baseline]
      · rw [if_neg (by omega), liveVolumes_cons_of_gt hgt,
          tradesFor_eq_nil timeframe exchange symbol (h.trans_le hge) hgt]
        simp [rises]

/-- The synthetic trades of a bar are stamped in order, inside the bar, and not before
    the offset reached so far. -/
theorem tradesFor_stamps (frames : List BarPoint) (h : i64Min < s.lastOpenTime)
    (ht : s.lastOpenTime ≤ t) (hoff : 0 ≤ s.offsetFor t) :
    ((tradesFor timeframe exchange symbol t s frames).map (·.tsMs)).Pairwise (· ≤ ·) ∧
      ∀ p ∈ tradesFor timeframe exchange symbol t s frames,
        t + max 0 (min (s.offsetFor t) (intervalMs timeframe - 1)) ≤ p.tsMs ∧
          p.tsMs < t + intervalMs timeframe := by
  have hpos : 1 ≤ intervalMs timeframe := le_max_right _ _
  induction frames generalizing s with
  | nil => simp [tradesFor, Mealy.answers]
  | cons bar frames ih =>
    rcases lt_or_ge bar.openTime s.lastOpenTime with hlt | hge
    · rw [tradesFor_cons_of_late timeframe exchange symbol h hlt]
      exact ih h ht hoff
    · obtain ⟨offset, hle, hsucc, heq⟩ :=
        tradesFor_cons_of_live timeframe exchange symbol t frames h hge
      rw [heq]
      rcases lt_trichotomy bar.openTime t with hlt | rfl | hgt
      · rw [if_neg (by omega), List.nil_append]
        have hzero : s.offsetFor t = 0 := by rw [offsetFor, if_neg (by omega)]
        have hnew : offsetFor ⟨bar.openTime, bar.volume, bar.close, offset⟩ t = 0 := by
          rw [offsetFor, if_neg hlt.ne']
        have := ih (h.trans_le hge) hlt.le (by rw [hnew])
        rw [hzero]
        rwa [hnew] at this
      · have hnew : offsetFor ⟨bar.openTime, bar.volume, bar.close, offset⟩ bar.openTime = offset :=
          if_pos rfl
        have ih' := ih (h.trans_le hge) le_rfl (by rw [hnew]; omega)
        rw [hnew] at ih'
        refine ⟨?_, ?_⟩
        · rw [List.map_append, List.pairwise_append]
          refine ⟨by split_ifs <;> simp, ih'.1, ?_⟩
          intro a ha b hb
          obtain ⟨p, hp, rfl⟩ := List.mem_map.mp hb
          split_ifs at ha with hc
          · simp only [List.map_cons, List.map_nil, List.mem_singleton] at ha
            subst ha
            have := (ih'.2 p hp).1
            simp only [deltaTrade]
            omega
          · simp at ha
        · intro p hp
          rcases List.mem_append.mp hp with hp | hp
          · split_ifs at hp with hc
            · rw [List.mem_singleton] at hp
              subst hp
              simp only [deltaTrade]
              omega
            · simp at hp
          · have := ih'.2 p hp
            omega
      · rw [if_neg (by omega), List.nil_append,
          tradesFor_eq_nil timeframe exchange symbol (h.trans_le hge) hgt]
        simp

/-- What the trades of one bar must satisfy, given the volume `base` the bar starts from
    and the volumes `vols` reported for it while it was the latest: they never add up to
    more than the largest volume above `base` as long as the volumes do not rise again
    after a fall, they add up to the final volume above `base` if the volumes never fall,
    and they are stamped in order within the bar's interval. -/
structure BarConserved (t : ℤ) (trades : List TradePoint) (base : ℚ) (vols : List ℚ) : Prop where
  le_largest : NoRebound (base :: vols) → ∀ M, (∀ v ∈ base :: vols, v ≤ M) →
    (trades.map (·.quantity)).sum ≤ M - base
  eq_final : (base :: vols).Pairwise (· ≤ ·) → (trades.map (·.quantity)).sum =
    (base :: vols).getLast (List.cons_ne_nil base vols) - base
  ordered : (trades.map (·.tsMs)).Pairwise (· ≤ ·)
  inside : ∀ p ∈ trades, t ≤ p.tsMs ∧ p.tsMs < t + intervalMs timeframe

/-- The adapter as it is when the first live update arrives. -/
inductive Start
  | fresh
  | primed (openTime : ℤ) (volume close : ℚ)

namespace Start

/-- The state after `new`, and after `seed_baseline` if there was a cold seed. -/
def state : Start → KlineDeltaState
  | fresh => new
  | primed openTime volume close => seedBaseline openTime volume close

/-- The open time of the bar that sets the baseline: the seeded one, or else the first
    one reported. -/
def openTime? : Start → List BarPoint → Option ℤ
  | fresh, frames => frames.head?.map (·.openTime)
  | primed openTime _ _, _ => some openTime

/-- The volume the bar opened at `t` starts from. -/
def base (t : ℤ) : Start → List BarPoint → ℚ
  | fresh, [] => 0
  | fresh, first :: _ => if t = first.openTime then first.volume else 0
  | primed openTime volume _, _ => if t = openTime then volume else 0

/-- The volumes reported for the bar opened at `t`, after the baseline, while it was the
    latest bar. -/
def counted (t : ℤ) : Start → List BarPoint → List ℚ
  | fresh, [] => []
  | fresh, first :: frames => if t < first.openTime then [] else liveVolumes t frames
  | primed openTime _ _, frames => if t < openTime then [] else liveVolumes t frames

end Start

theorem barConserved_primed (t t₀ : ℤ) (v₀ c₀ : ℚ) (frames : List BarPoint) (h : i64Min < t₀) :
    BarConserved timeframe t
      (tradesFor timeframe exchange symbol t (seedBaseline t₀ v₀ c₀) frames)
      (if t = t₀ then v₀ else 0) (if t < t₀ then [] else liveVolumes t frames) := by
  by_cases ht : t < t₀
  · have hnil : tradesFor timeframe exchange symbol t (seedBaseline t₀ v₀ c₀) frames = [] :=
      tradesFor_eq_nil timeframe exchange symbol h ht
    rw [hnil, if_pos ht]
    exact ⟨fun _ M hM => sub_nonneg.mpr (hM _ (by simp)), fun _ => by simp, by simp, by simp⟩
  · have hle : t₀ ≤ t := not_lt.mp ht
    have hsum : quantityFor timeframe exchange symbol t (seedBaseline t₀ v₀ c₀) frames =
        rises (baseline (seedBaseline t₀ v₀ c₀) t) (liveVolumes t frames) :=
      quantityFor_eq_rises timeframe exchange symbol h hle
    have hoff : offsetFor (seedBaseline t₀ v₀ c₀) t = 0 := ite_self 0
    have hstamps := tradesFor_stamps timeframe exchange symbol frames h hle (by rw [hoff])
    rw [if_neg ht]
    refine ⟨fun hno M hM => ?_, fun hmono => ?_, hstamps.1, fun p hp => ?_⟩
    · exact hsum.trans_le (rises_le_of_upperBound hno hM)
    · exact hsum.trans (rises_eq_last_sub _ _ hmono)
    · have := hstamps.2 p hp
      omega

theorem tradesFor_fresh_cons (t : ℤ) (first : BarPoint) (frames : List BarPoint) :
    tradesFor timeframe exchange symbol t new (first :: frames) =
      tradesFor timeframe exchange symbol t
        (seedBaseline first.openTime first.volume first.close) frames :=
  tradesFor_cons_of_none timeframe exchange symbol
    (toDeltaTrade_of_unseeded timeframe exchange symbol rfl)

/-- **Main theorem.** Whatever the order of the updates, the synthetic trades of every
    bar are conserved: see `BarConserved`. Updates of a bar that is no longer the latest
    are not counted, and trade nothing. -/
theorem delta_trades_sound (start : Start) (frames : List BarPoint)
    (h : ∀ t₀ ∈ start.openTime? frames, i64Min < t₀) (t : ℤ) :
    BarConserved timeframe t (tradesFor timeframe exchange symbol t start.state frames)
      (start.base t frames) (start.counted t frames) := by
  cases start with
  | primed t₀ v₀ c₀ =>
    exact barConserved_primed timeframe exchange symbol t t₀ v₀ c₀ frames (h t₀ rfl)
  | fresh =>
    cases frames with
    | nil => exact ⟨fun _ M hM => sub_nonneg.mpr (hM _ (by simp)), fun _ => by simp [tradesFor,
        Mealy.answers, Start.base, Start.counted], by simp [tradesFor, Mealy.answers],
        by simp [tradesFor, Mealy.answers]⟩
    | cons first frames =>
      have htrades := tradesFor_fresh_cons timeframe exchange symbol t first frames
      have hbar := barConserved_primed timeframe exchange symbol t first.openTime first.volume
        first.close frames (h _ rfl)
      rw [← htrades] at hbar
      exact hbar

end Run

/-- A bar update as the venue sends it, reduced to its open time and volume. -/
def updateOf (openTime : ℤ) (volume : ℚ) : BarPoint :=
  { openTime := openTime, open_ := 1, high := 1, low := 1, close := 1, volume := volume,
    quoteVolume := volume, tradesCount := 1 }

theorem delta_trades_sound_first_bar :
    BarConserved ⟨"1m"⟩ 0
      (tradesFor ⟨"1m"⟩ .binance "BTCUSDT" 0 Start.fresh.state
        [updateOf 0 1, updateOf 0 3, updateOf 60000 2])
      (Start.fresh.base 0 [updateOf 0 1, updateOf 0 3, updateOf 60000 2])
      (Start.fresh.counted 0 [updateOf 0 1, updateOf 0 3, updateOf 60000 2]) :=
  delta_trades_sound ⟨"1m"⟩ .binance "BTCUSDT" .fresh
    [updateOf 0 1, updateOf 0 3, updateOf 60000 2]
    (fun t₀ ht₀ => by
      obtain rfl : 0 = t₀ := Option.some.inj ht₀
      decide) 0

/-- The volumes reported for the first bar are `1` and, after the next bar has begun, `9`.
    They never fall, but the late update trades nothing. -/
theorem late_update_trades_nothing :
    ¬ ∀ (first : BarPoint) (frames : List BarPoint),
      ((first :: frames).filter (·.openTime = first.openTime)).Pairwise (·.volume ≤ ·.volume) →
        ∀ final ∈ ((first :: frames).filter (·.openTime = first.openTime)).getLast?,
          quantityFor ⟨"1m"⟩ .binance "BTCUSDT" first.openTime new (first :: frames) =
            final.volume - first.volume := by
  intro h
  have hfinal := h (updateOf 0 1) [updateOf 60000 5, updateOf 0 9] (by simp [updateOf])
    (updateOf 0 9) (by simp [updateOf])
  have hzero : quantityFor ⟨"1m"⟩ .binance "BTCUSDT" 0 new
      [updateOf 0 1, updateOf 60000 5, updateOf 0 9] = 0 := by
    have hrises : quantityFor ⟨"1m"⟩ .binance "BTCUSDT" 0 (seedBaseline 0 1 1)
        [updateOf 60000 5, updateOf 0 9] =
          rises 1 (liveVolumes 0 [updateOf 60000 5, updateOf 0 9]) :=
      quantityFor_eq_rises ⟨"1m"⟩ .binance "BTCUSDT" (by decide) (le_refl 0)
    rw [liveVolumes_cons_of_gt (by decide)] at hrises
    unfold quantityFor at hrises ⊢
    rw [tradesFor_fresh_cons]
    exact hrises
  have hclaim : quantityFor ⟨"1m"⟩ .binance "BTCUSDT" 0 new
      [updateOf 0 1, updateOf 60000 5, updateOf 0 9] = 9 - 1 := hfinal
  rw [hzero] at hclaim
  norm_num at hclaim

end KlineDeltaState

/-! ## Kline-sufficient streams -/

section KlineSufficient

variable {σ ο : Type}

/-- The trade that a kline-sufficient stream folds for an upstream event: the trade of a
    `Trade` event itself (cold seed), the synthetic Δ-volume trade of a `Bar` update. -/
def klineTick (ks : KlineDeltaState) (ev : Event) : KlineDeltaState × Option TradePoint :=
  match ev with
  | .trade _ _ point => (ks, some point)
  | .bar exchange symbol timeframe bar =>
    match ks.toDeltaTrade bar timeframe exchange symbol with
    | (ks, some (.trade _ _ point)) => (ks, some point)
    | (ks, _) => (ks, none)
  | _ => (ks, none)

/-- The trades that a kline-sufficient stream folds. -/
def klineTicks : Mealy KlineDeltaState Event TradePoint := ⟨klineTick⟩

/-- `on_upstream_event` of the kline-sufficient streams, for a stream with the state `σ`
    beside its `kline_state`. A stream whose parameter is zero is `disabled`. -/
def klineSufficient (disabled : σ → Bool) (foldTrade : σ → TradePoint → σ × Option ο) :
    Mealy (KlineDeltaState × σ) Event ο :=
  ⟨fun (ks, s) ev =>
    if disabled s then ((ks, s), none)
    else
      match klineTick ks ev with
      | (ks, some point) => ((ks, (foldTrade s point).1), (foldTrade s point).2)
      | (ks, none) => ((ks, s), none)⟩

/-- A stream that is not disabled folds the kline ticks. -/
theorem emitted_klineSufficient {disabled : σ → Bool}
    {foldTrade : σ → TradePoint → σ × Option ο}
    (hkeep : ∀ s point, disabled s = false → disabled (foldTrade s point).1 = false)
    (ks : KlineDeltaState) {s : σ} (hs : disabled s = false) (evs : List Event) :
    (klineSufficient disabled foldTrade).emitted (ks, s) evs =
      (Mealy.mk foldTrade).emitted s (klineTicks.emitted ks evs) := by
  induction evs generalizing ks s with
  | nil => rfl
  | cons ev evs ih =>
    rw [Mealy.emitted_cons, Mealy.emitted_cons]
    rcases htick : klineTick ks ev with ⟨ks', _ | point⟩
    · have hstep : (klineSufficient disabled foldTrade).step (ks, s) ev = ((ks', s), none) := by
        simp only [klineSufficient, hs, htick]
        rfl
      have hticks : klineTicks.step ks ev = (ks', none) := htick
      rw [hstep, hticks]
      exact ih ks' hs
    · have hstep : (klineSufficient disabled foldTrade).step (ks, s) ev =
          ((ks', (foldTrade s point).1), (foldTrade s point).2) := by
        simp only [klineSufficient, hs, htick]
        rfl
      have hticks : klineTicks.step ks ev = (ks', some point) := htick
      rw [hstep, hticks]
      simp only [Option.toList_some, List.singleton_append, Mealy.emitted_cons]
      rw [ih ks' (hkeep s point hs)]

theorem klineTicks_trades (ks : KlineDeltaState) (exchange : ExchangeId) (symbol : String)
    (trades : List TradePoint) :
    klineTicks.emitted ks (trades.map (.trade exchange symbol)) = trades := by
  induction trades with
  | nil => rfl
  | cons point trades ih =>
    rw [List.map_cons, Mealy.emitted_cons]
    exact congrArg (point :: ·) ih

/-- Fed with trades only, a stream that is not disabled folds exactly these. -/
theorem emitted_klineSufficient_trades {disabled : σ → Bool}
    {foldTrade : σ → TradePoint → σ × Option ο}
    (hkeep : ∀ s point, disabled s = false → disabled (foldTrade s point).1 = false)
    (ks : KlineDeltaState) {s : σ} (hs : disabled s = false) (exchange : ExchangeId)
    (symbol : String) (trades : List TradePoint) :
    (klineSufficient disabled foldTrade).emitted (ks, s) (trades.map (.trade exchange symbol)) =
      (Mealy.mk foldTrade).emitted s trades := by
  rw [emitted_klineSufficient hkeep ks hs, klineTicks_trades]

/-- The state of the stream after trades only. -/
theorem final_klineSufficient_trades {disabled : σ → Bool}
    {foldTrade : σ → TradePoint → σ × Option ο}
    (hkeep : ∀ s point, disabled s = false → disabled (foldTrade s point).1 = false)
    (ks : KlineDeltaState) {s : σ} (hs : disabled s = false) (exchange : ExchangeId)
    (symbol : String) (trades : List TradePoint) :
    (klineSufficient disabled foldTrade).final (ks, s) (trades.map (.trade exchange symbol)) =
      (ks, (Mealy.mk foldTrade).final s trades) := by
  induction trades generalizing s with
  | nil => rfl
  | cons point trades ih =>
    have hstep : (klineSufficient disabled foldTrade).step (ks, s) (.trade exchange symbol point) =
        ((ks, (foldTrade s point).1), (foldTrade s point).2) := by
      simp only [klineSufficient, hs, klineTick]
      rfl
    rw [List.map_cons, Mealy.final_cons, hstep]
    exact ih (hkeep s point hs)

end KlineSufficient

end Digdigdig3.Derived
