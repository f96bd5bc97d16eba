import Digdigdig3.Derived.Basic
import Digdigdig3.Lib.Runs
import Digdigdig3.Lib.SortedWindow
import Digdigdig3.Series.Key
import Digdigdig3.Series.Series

/-!
# Healing a kline series

After a disconnect the forwarder of a kline series pulls the latest bars from REST, writes
all of them to the ring and broadcasts the new ones (`run_kline_heal`,
`crates/digdigdig3-station/src/station.rs` lines 3431–3489, and `gap_heal.rs`).

The ring should be the newest bars of the ring and the answer together. `upsert_by_ts`
appends a bar that it does not find, wherever its place is.

* `union`, `Heals`: what a heal should leave.
* `ring_heal_iff`: the answers for which the ring is right all along.
* `mem_selectHealWindow_iff`: what is broadcast.
-/

namespace Digdigdig3.Station

open Series (Kind)

variable {P : Type} (timestampMs : P → ℤ)

/-- `select_heal_window` (`gap_heal.rs` lines 134–142). -/
def selectHealWindow (pulled : List P) (lastSeenMs : ℤ) : List P :=
  dedupByKey timestampMs
    (sortByKey timestampMs (pulled.filter fun p => lastSeenMs < timestampMs p))

/-- What a heal leaves in the ring and in the store (`none` without persistence), and what it
    broadcasts. -/
structure HealResult (P : Type) where
  series : Digdigdig3.Series P
  disk : Option (List P)
  broadcast : List P

/-- `run_kline_heal` (lines 3431–3489) on the bars that `heal_klines` returns. -/
def runKlineHeal (kind : Kind) (enabled : Bool) (pulled : List P) (lastEmittedMs : ℤ)
    (series : Digdigdig3.Series P) (disk : Option (List P)) : HealResult P :=
  if !enabled then { series, disk, broadcast := [] }
  else
    match kind with
    | .kline _ =>
      { series := pulled.foldl (Digdigdig3.Series.upsertByTs timestampMs) series
        disk := disk.map fun points => points ++ pulled
        broadcast := selectHealWindow timestampMs pulled lastEmittedMs }
    | _ => { series, disk, broadcast := [] }

/-! ## What a heal should leave -/

/-- The bars of a ring and of an answer together, of each `open_time` the one that came
    last. -/
def union (ring pulled : List P) : List P := pulled.foldl (insertByKey timestampMs) ring

/-- The ring is the newest bars of both, and ends with the newest of all. The broadcast bars
    are those in the ring, ascend, are newer than the last one emitted, and leave none of
    those out. -/
structure Heals (series : Digdigdig3.Series P) (pulled : List P) (lastEmittedMs : ℤ)
    (r : HealResult P) : Prop where
  window : r.series.ring = newest series.capacity (union timestampMs series.ring pulled)
  ascending : Ascending timestampMs r.series.ring
  last : ∀ p, r.series.last = some p → ∀ q ∈ series.ring ++ pulled, timestampMs q ≤ timestampMs p
  stored : ∀ b ∈ r.broadcast, b ∈ r.series.ring
  broadcastAscending : Ascending timestampMs r.broadcast
  newer : ∀ b ∈ r.broadcast, lastEmittedMs < timestampMs b
  complete : ∀ p ∈ pulled, lastEmittedMs < timestampMs p →
    ∃ b ∈ r.broadcast, timestampMs b = timestampMs p

/-- Every bar of the answer is newer than the ring and the answer before it, or its
    `open_time` is in the window on them. New bars of one `open_time` are equal, and the
    window has room for all of them. -/
structure Healable (series : Digdigdig3.Series P) (pulled : List P) (lastEmittedMs : ℤ) :
    Prop where
  order : ∀ pre p, pre ++ [p] <+: pulled →
    (∀ q ∈ union timestampMs series.ring pre, timestampMs q < timestampMs p) ∨
      ∃ q ∈ newest series.capacity (union timestampMs series.ring pre),
        timestampMs q = timestampMs p
  equal : ∀ p ∈ pulled, ∀ q ∈ pulled, timestampMs p = timestampMs q →
    lastEmittedMs < timestampMs p → p = q
  fits : ∀ p ∈ pulled, lastEmittedMs < timestampMs p →
    ∃ q ∈ newest series.capacity (union timestampMs series.ring pulled),
      timestampMs q = timestampMs p

variable {timestampMs}

/-! ## The ring -/

theorem union_concat (ring pulled : List P) (p : P) :
    union timestampMs ring (pulled ++ [p]) =
      insertByKey timestampMs (union timestampMs ring pulled) p := List.foldl_concat ..

theorem ascending_union {ring : List P} (h : Ascending timestampMs ring) (pulled : List P) :
    Ascending timestampMs (union timestampMs ring pulled) := by
  induction pulled using List.reverseRecOn with
  | nil => exact h
  | append_singleton pulled p ih =>
    rw [union_concat]
    exact ascending_insertByKey ih p

theorem capacity_upsertAll (series : Digdigdig3.Series P) (pulled : List P) :
    (pulled.foldl (Digdigdig3.Series.upsertByTs timestampMs) series).capacity =
      series.capacity := by
  induction pulled using List.reverseRecOn with
  | nil => rfl
  | append_singleton pulled p ih =>
    rw [List.foldl_concat, Digdigdig3.Series.capacity_upsertByTs, ih]

/-- **Run lemma.** The ring is the window all along just when every bar of the answer is
    newer than all before it, or replaces one in the window. -/
theorem ring_heal_iff {series : Digdigdig3.Series P} (h : Ascending timestampMs series.ring)
    (pulled : List P) :
    (∀ pre, pre <+: pulled →
      (pre.foldl (Digdigdig3.Series.upsertByTs timestampMs) series).ring =
        newest series.capacity (union timestampMs series.ring pre)) ↔
      ∀ pre p, pre ++ [p] <+: pulled →
        (∀ q ∈ union timestampMs series.ring pre, timestampMs q < timestampMs p) ∨
          ∃ q ∈ newest series.capacity (union timestampMs series.ring pre),
            timestampMs q = timestampMs p := by
  let step (x : Digdigdig3.Series P × List P) (p : P) : Digdigdig3.Series P × List P :=
    (x.1.upsertByTs timestampMs p, insertByKey timestampMs x.2 p)
  have hfold : ∀ pre : List P, pre.foldl step (series, series.ring) =
      (pre.foldl (Digdigdig3.Series.upsertByTs timestampMs) series,
        union timestampMs series.ring pre) := by
    intro pre
    induction pre using List.reverseRecOn with
    | nil => rfl
    | append_singleton pre p ih => rw [List.foldl_concat, List.foldl_concat, union_concat, ih]
  let Inv (x : Digdigdig3.Series P × List P) : Prop :=
    x.1.ring = newest x.1.capacity x.2 ∧ Ascending timestampMs x.2
  let C (x : Digdigdig3.Series P × List P) (p : P) : Prop :=
    (∀ q ∈ x.2, timestampMs q < timestampMs p) ∨
      ∃ q ∈ newest x.1.capacity x.2, timestampMs q = timestampMs p
  have hinit : Inv (series, series.ring) := ⟨(newest_of_length_le series.length_le).symm, h⟩
  have hstep : ∀ x p, Inv x → (Inv (step x p) ↔ C x p) := by
    rintro ⟨s, u⟩ p ⟨hring, hu⟩
    have hring : s.ring = newest s.capacity u := hring
    show (s.upsertByTs timestampMs p).ring = newest (s.upsertByTs timestampMs p).capacity _ ∧ _ ↔ _
    rw [and_iff_left (ascending_insertByKey hu p), Digdigdig3.Series.capacity_upsertByTs,
      Digdigdig3.Series.ring_upsertByTs, hring]
    exact newest_upsertBy_iff s.capacity_pos hu p
  have hsteps : (∀ pre, pre <+: pulled → Inv (pre.foldl step (series, series.ring))) ↔
      StepsMeet step (series, series.ring) C pulled := forall_prefix_iff_of_step hinit hstep pulled
  unfold StepsMeet at hsteps
  simp only [Inv, C, hfold, capacity_upsertAll] at hsteps
  rw [← hsteps]
  refine forall₂_congr fun pre _ => ?_
  rw [and_iff_left (ascending_union h pre)]

/-! ## What is broadcast -/

/-- Of the bars of each new `open_time` the first one is broadcast. -/
theorem mem_selectHealWindow_iff {pulled : List P} {lastSeenMs : ℤ} {b : P} :
    b ∈ selectHealWindow timestampMs pulled lastSeenMs ↔
      lastSeenMs < timestampMs b ∧
        pulled.find? (fun p => timestampMs p = timestampMs b) = some b := by
  unfold selectHealWindow
  rw [mem_dedupByKey_iff (sorted_sortByKey _), find?_sortByKey, List.find?_filter]
  constructor
  · intro hfind
    have hnew : lastSeenMs < timestampMs b := by simpa using List.find?_some hfind
    refine ⟨hnew, ?_⟩
    rw [← hfind]
    refine List.find?_congr ?_
    intro p _
    by_cases hp : timestampMs p = timestampMs b
    · simp [hp, hnew]
    · simp [hp]
  · rintro ⟨hnew, hfind⟩
    rw [← hfind]
    refine List.find?_congr ?_
    intro p _
    by_cases hp : timestampMs p = timestampMs b
    · simp [hp, hnew]
    · simp [hp]

theorem ascending_selectHealWindow (pulled : List P) (lastSeenMs : ℤ) :
    Ascending timestampMs (selectHealWindow timestampMs pulled lastSeenMs) :=
  ascending_dedupByKey (sorted_sortByKey _)

/-- Every new `open_time` of the answer is broadcast. -/
theorem exists_mem_selectHealWindow {pulled : List P} {lastSeenMs : ℤ} {p : P} (hp : p ∈ pulled)
    (hnew : lastSeenMs < timestampMs p) :
    ∃ b ∈ selectHealWindow timestampMs pulled lastSeenMs, timestampMs b = timestampMs p := by
  have hsome : (pulled.find? fun q => timestampMs q = timestampMs p).isSome :=
    List.find?_isSome.mpr ⟨p, hp, decide_eq_true rfl⟩
  obtain ⟨b, hb⟩ := Option.isSome_iff_exists.mp hsome
  have hkey : timestampMs b = timestampMs p := by simpa using List.find?_some hb
  refine ⟨b, mem_selectHealWindow_iff.mpr ⟨hkey ▸ hnew, ?_⟩, hkey⟩
  rw [hkey]
  exact hb

/-! ## The union -/

/-- Every `open_time` of the ring and of the answer is in the union. -/
theorem exists_mem_union {ring pulled : List P} {q : P} (hq : q ∈ ring ++ pulled) :
    ∃ u ∈ union timestampMs ring pulled, timestampMs u = timestampMs q := by
  induction pulled using List.reverseRecOn with
  | nil => exact ⟨q, by rwa [List.append_nil] at hq, rfl⟩
  | append_singleton pulled p ih =>
    rw [union_concat]
    by_cases hkey : timestampMs q = timestampMs p
    · exact ⟨p, mem_insertByKey_self _ _, hkey.symm⟩
    · have hold : q ∈ ring ++ pulled := by
        rw [← List.append_assoc] at hq
        rcases List.mem_append.mp hq with hq | hq
        · exact hq
        · exact absurd (congrArg timestampMs (List.mem_singleton.mp hq)) hkey
      obtain ⟨u, hu, huq⟩ := ih hold
      exact ⟨u, mem_insertByKey_of_ne hu (huq ▸ hkey), huq⟩

/-- An `open_time` of the answer has a bar of the answer in the union. -/
theorem mem_pulled_of_mem_union {ring pulled : List P} (h : Ascending timestampMs ring) {q p : P}
    (hq : q ∈ union timestampMs ring pulled) (hp : p ∈ pulled)
    (hkey : timestampMs p = timestampMs q) : q ∈ pulled := by
  induction pulled using List.reverseRecOn with
  | nil => cases hp
  | append_singleton pulled a ih =>
    rw [union_concat] at hq
    rcases mem_of_mem_insertByKey hq with rfl | hold
    · exact List.mem_append_right _ (List.mem_singleton_self _)
    · rcases List.mem_append.mp hp with hp | hp
      · exact List.mem_append_left _ (ih hold hp)
      · have hpa : p = a := List.mem_singleton.mp hp
        have hqa : q = a := eq_of_key_eq (ascending_insertByKey (ascending_union h pulled) a) hq
          (mem_insertByKey_self _ a) (by rw [← hkey, hpa])
        rw [hqa]
        exact List.mem_append_right _ (List.mem_singleton_self _)

/-- A bar is followed by no fewer bars when more have been pulled. -/
theorem countP_union_le (ring pre post : List P) (t : ℤ) :
    (union timestampMs ring pre).countP (fun q => t < timestampMs q) ≤
      (union timestampMs ring (pre ++ post)).countP fun q => t < timestampMs q := by
  induction post using List.reverseRecOn with
  | nil => rw [List.append_nil]
  | append_singleton post p ih =>
    rw [← List.append_assoc, union_concat]
    exact ih.trans (countP_le_insertByKey _ _ p fun q hq => by rw [hq])

/-- An `open_time` that is in the window in the end was in it from the time it came. -/
theorem mem_newest_of_prefix {ring pre pulled : List P} {c : ℕ} {b : P}
    (h : Ascending timestampMs ring) (hpre : pre <+: pulled) (hb : b ∈ pre)
    (hend : ∃ q ∈ newest c (union timestampMs ring pulled), timestampMs q = timestampMs b) :
    ∃ q ∈ newest c (union timestampMs ring pre), timestampMs q = timestampMs b := by
  obtain ⟨post, rfl⟩ := hpre
  obtain ⟨q, hq, hqb⟩ := hend
  obtain ⟨u, hu, hub⟩ : ∃ u ∈ union timestampMs ring pre, timestampMs u = timestampMs b :=
    exists_mem_union (List.mem_append_right ring hb)
  have hafter := (mem_newest_iff (ascending_union h (pre ++ post)) (mem_of_mem_newest hq)).mp hq
  refine ⟨u, (mem_newest_iff (ascending_union h pre) hu).mpr ?_, hub⟩
  rw [hub]
  rw [hqb] at hafter
  exact (countP_union_le ring pre post _).trans_lt hafter

/-! ## The heal -/

theorem find?_of_prefix {pre pulled : List P} (hpre : pre <+: pulled) {p : P → Bool} {b : P}
    (h : pre.find? p = some b) : pulled.find? p = some b := by
  obtain ⟨post, rfl⟩ := hpre
  rw [List.find?_append, h]
  rfl

theorem runKlineHeal_kline (interval : KlineInterval) (pulled : List P) (lastEmittedMs : ℤ)
    (series : Digdigdig3.Series P) (disk : Option (List P)) :
    runKlineHeal timestampMs (.kline interval) true pulled lastEmittedMs series disk =
      { series := pulled.foldl (Digdigdig3.Series.upsertByTs timestampMs) series
        disk := disk.map fun points => points ++ pulled
        broadcast := selectHealWindow timestampMs pulled lastEmittedMs } := rfl

/-- A healable answer heals, and so does every part of it that came first. -/
theorem Healable.heals {series : Digdigdig3.Series P} {pulled : List P} {lastEmittedMs : ℤ}
    (h : Healable timestampMs series pulled lastEmittedMs)
    (hring : Ascending timestampMs series.ring) (interval : KlineInterval)
    (disk : Option (List P)) {pre : List P} (hpre : pre <+: pulled) :
    Heals timestampMs series pre lastEmittedMs
      (runKlineHeal timestampMs (.kline interval) true pre lastEmittedMs series disk) := by
  have hwindow := (ring_heal_iff hring pulled).mpr h.order pre hpre
  rw [runKlineHeal_kline]
  refine ⟨hwindow, ?_, ?_, ?_, ascending_selectHealWindow pre lastEmittedMs, ?_, ?_⟩
  · show Ascending timestampMs (pre.foldl _ series).ring
    rw [hwindow]
    exact ascending_newest (ascending_union hring pre)
  · intro p hp q hq
    have hp : (pre.foldl (Digdigdig3.Series.upsertByTs timestampMs) series).ring.getLast? =
        some p := hp
    rw [hwindow, getLast?_newest series.capacity_pos] at hp
    obtain ⟨u, hu, huq⟩ : ∃ u ∈ union timestampMs series.ring pre,
        timestampMs u = timestampMs q := exists_mem_union hq
    rw [← huq]
    exact le_getLast (ascending_union hring pre) hp hu
  · intro b hb
    obtain ⟨hnew, hfind⟩ := mem_selectHealWindow_iff.mp hb
    have hmem := List.mem_of_find?_eq_some hfind
    obtain ⟨q, hq, hqb⟩ :=
      mem_newest_of_prefix hring hpre hmem (h.fits b (hpre.subset hmem) hnew)
    have hqpre := mem_pulled_of_mem_union hring (mem_of_mem_newest hq) hmem hqb.symm
    have heq : b = q := h.equal b (hpre.subset hmem) q (hpre.subset hqpre) hqb.symm hnew
    show b ∈ (pre.foldl _ series).ring
    rw [hwindow, heq]
    exact hq
  · exact fun b hb => (mem_selectHealWindow_iff.mp hb).1
  · exact fun p hp hnew => exists_mem_selectHealWindow hp hnew

/-- **Main theorem.** A heal of every first part of the answer leaves what it should just
    when the answer is healable. -/
theorem klineHeal_iff (interval : KlineInterval) (disk : Option (List P))
    {series : Digdigdig3.Series P} (hring : Ascending timestampMs series.ring) (pulled : List P)
    (lastEmittedMs : ℤ) :
    (∀ pre, pre <+: pulled → Heals timestampMs series pre lastEmittedMs
      (runKlineHeal timestampMs (.kline interval) true pre lastEmittedMs series disk)) ↔
      Healable timestampMs series pulled lastEmittedMs := by
  constructor
  · intro h
    -- a bar that has just been pulled is both the one stored and the first of its time
    have hfirst : ∀ q ∈ pulled, lastEmittedMs < timestampMs q →
        pulled.find? (fun p => timestampMs p = timestampMs q) = some q := by
      intro q hq hnew
      obtain ⟨pre, post, rfl⟩ := List.append_of_mem hq
      have hpre : pre ++ [q] <+: pre ++ q :: post := ⟨post, by rw [List.append_assoc]; rfl⟩
      have hheals := h _ hpre
      obtain ⟨b, hb, hbq⟩ :=
        hheals.complete q (List.mem_append_right _ (List.mem_singleton_self q)) hnew
      have hstored := hheals.stored b hb
      rw [hheals.window] at hstored
      have hbu := mem_of_mem_newest hstored
      rw [union_concat] at hbu
      have heq : b = q := eq_of_key_eq (ascending_insertByKey (ascending_union hring pre) q) hbu
        (mem_insertByKey_self _ q) hbq
      have hfind := (mem_selectHealWindow_iff.mp hb).2
      rw [heq] at hfind
      exact find?_of_prefix hpre hfind
    refine ⟨(ring_heal_iff hring pulled).mp fun pre hpre => (h pre hpre).window, ?_, ?_⟩
    · intro p hp q hq hkey hnew
      have hfp := hfirst p hp hnew
      have hfq := hfirst q hq (hkey ▸ hnew)
      rw [hkey, hfq] at hfp
      exact (Option.some.inj hfp).symm
    · intro p hp hnew
      have hall := h pulled (List.prefix_refl _)
      obtain ⟨b, hb, hbp⟩ := hall.complete p hp hnew
      have hstored := hall.stored b hb
      rw [hall.window] at hstored
      exact ⟨b, hstored, hbp⟩
  · exact fun h pre hpre => h.heals hring interval disk hpre

open Derived (BarPoint)

/-- A bar that opens at `openTime` and stands at `price`. -/
def barAt (openTime : ℤ) (price : ℚ) : BarPoint :=
  { openTime, open_ := price, high := price, low := price, close := price, volume := 1
    quoteVolume := price, tradesCount := 1 }

/-- The ring of a series that has been live for two minutes. -/
def twoBars : Digdigdig3.Series BarPoint :=
  { capacity := 500, ring := [barAt 120000 10, barAt 180000 11], dirty := 2
    capacity_pos := by decide, length_le := by decide }

theorem klineHeal_iff_twoBars :
    Ascending BarPoint.openTime twoBars.ring ∧
      ((∀ pre, pre <+: [barAt 180000 12, barAt 240000 13] →
        Heals BarPoint.openTime twoBars pre 180000
          (runKlineHeal BarPoint.openTime (.kline ⟨"1m"⟩) true pre 180000 twoBars none)) ↔
        Healable BarPoint.openTime twoBars [barAt 180000 12, barAt 240000 13] 180000) :=
  ⟨by decide, klineHeal_iff ⟨"1m"⟩ none (by decide) _ 180000⟩

/-- REST returns a bar from before the ring, and it becomes the last bar of the series. -/
theorem klineHeal_appends_old_bar :
    Ascending BarPoint.openTime twoBars.ring ∧
      ¬Heals BarPoint.openTime twoBars [barAt 60000 9, barAt 120000 10, barAt 180000 11] 180000
        (runKlineHeal BarPoint.openTime (.kline ⟨"1m"⟩) true
          [barAt 60000 9, barAt 120000 10, barAt 180000 11] 180000 twoBars none) := by
  refine ⟨by decide, ?_⟩
  intro h
  have hlast := h.last (barAt 60000 9) (by decide +kernel) (barAt 120000 10) (by decide +kernel)
  exact absurd hlast (by decide)

end Digdigdig3.Station
