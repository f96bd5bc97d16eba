import Digdigdig3.Derived.ThresholdBars
import Digdigdig3.Lib.Runs
import Digdigdig3.Series.Series

/-!
# The ring of a derived series: seed replay and live loop

`spawn_derived_forwarder` of `crates/digdigdig3-station/src/station.rs` stores what the machine of
a derived kind emits: with `upsert_by_ts` while it replays the seed (lines 2838–2859), with `push`
once the select loop runs (lines 2972–2981).

* `emissions_run`: both parts emit alike.
* `oneSlotPerBar_iff`: when the ring holds the last emission of each of the newest bars.
-/

namespace Digdigdig3.Station

variable {σ ι ο : Type}

/-- An upstream event, by the part of the task that takes it. -/
inductive Delivery (ι : Type)
  | seed (ev : ι)
  | live (ev : ι)

/-- The state machine and the ring of the task, and all it has emitted. -/
structure DerivedTask (σ ο : Type) where
  state : σ
  series : Digdigdig3.Series ο
  emissions : List ο

namespace DerivedTask

/-- A task before its first event. -/
def new (state : σ) (ringCapacityHint : ℕ) : DerivedTask σ ο where
  state := state
  series := Digdigdig3.Series.new ringCapacityHint
  emissions := []

/-- `upsert_by_ts` of the seed parts (lines 2850 and 2908), `push` of the loop (line 2979). -/
def store (timestampMs : ο → ℤ) (series : Digdigdig3.Series ο) :
    Delivery ι → ο → Digdigdig3.Series ο
  | .seed _, point => series.upsertByTs timestampMs point
  | .live _, point => series.push point

/-- The event that is delivered. -/
def event : Delivery ι → ι
  | .seed ev => ev
  | .live ev => ev

/-- One event is processed, and the point emitted is stored. -/
def step (M : Mealy σ ι ο) (timestampMs : ο → ℤ) (s : DerivedTask σ ο) (d : Delivery ι) :
    DerivedTask σ ο :=
  match (M.step s.state (event d)).2 with
  | none => { s with state := (M.step s.state (event d)).1 }
  | some point =>
    { state := (M.step s.state (event d)).1
      series := store timestampMs s.series d point
      emissions := s.emissions ++ [point] }

/-- The first `n` events are the seed. -/
def deliveries (events : List ι) (n : ℕ) : List (Delivery ι) :=
  (events.take n).map .seed ++ (events.drop n).map .live

/-- A run of the task. -/
def run (M : Mealy σ ι ο) (timestampMs : ο → ℤ) (state : σ) (ringCapacityHint : ℕ)
    (ds : List (Delivery ι)) : DerivedTask σ ο :=
  ds.foldl (step M timestampMs) (new state ringCapacityHint)

variable {M : Mealy σ ι ο} {timestampMs : ο → ℤ}

/-! ## What is emitted -/

theorem event_deliveries (events : List ι) (n : ℕ) : (deliveries events n).map event = events := by
  rw [deliveries, List.map_append, List.map_map, List.map_map]
  have hseed : (event ∘ Delivery.seed : ι → ι) = id := rfl
  have hlive : (event ∘ Delivery.live : ι → ι) = id := rfl
  rw [hseed, hlive, List.map_id, List.map_id, List.take_append_drop]

/-- Seed and live events are processed alike, so a run emits what the machine emits. -/
theorem emissions_run (state : σ) (ringCapacityHint : ℕ) (ds : List (Delivery ι)) :
    (run M timestampMs state ringCapacityHint ds).emissions = M.emitted state (ds.map event) := by
  have hgeneral : ∀ s : DerivedTask σ ο,
      (ds.foldl (step M timestampMs) s).emissions =
        s.emissions ++ M.emitted s.state (ds.map event) := by
    induction ds with
    | nil => exact fun s => (List.append_nil _).symm
    | cons d ds ih =>
      intro s
      rw [List.foldl_cons, ih, List.map_cons, Mealy.emitted_cons]
      unfold step
      cases (M.step s.state (event d)).2 with
      | none => rfl
      | some point => exact List.append_assoc _ _ _
  exact hgeneral (new state ringCapacityHint)

/-! ## The ring -/

/-- The ring is the last emission of each bar, in the order of the bars, as far as it
    reaches. -/
def OneSlotPerBar (timestampMs : ο → ℤ) (s : DerivedTask σ ο) : Prop :=
  s.series.ring = newest s.series.capacity (lastWins timestampMs s.emissions)

/-- The point opens a bar, or updates one in the ring: in the loop, only in a ring of one. -/
def Fits (timestampMs : ο → ℤ) (s : DerivedTask σ ο) (d : Delivery ι) (point : ο) : Prop :=
  (∃ q ∈ s.emissions, timestampMs q = timestampMs point) →
    (∃ q ∈ s.series.ring, timestampMs q = timestampMs point) ∧
    match d with
    | .seed _ => True
    | .live _ => s.series.capacity = 1

/-- Whatever the event makes the machine emit fits. -/
def StoresWell (M : Mealy σ ι ο) (timestampMs : ο → ℤ) (s : DerivedTask σ ο) (d : Delivery ι) :
    Prop :=
  ∀ point, (M.step s.state (event d)).2 = some point → Fits timestampMs s d point

/-- A bar has a slot in the list of last emissions just when it was emitted. -/
theorem exists_mem_lastWins (emissions : List ο) (k : ℤ) :
    (∃ q ∈ lastWins timestampMs emissions, timestampMs q = k) ↔
      ∃ q ∈ emissions, timestampMs q = k := by
  have hkeys : ∀ k, k ∈ (lastWins timestampMs emissions).map timestampMs ↔
      k ∈ emissions.map timestampMs := by
    induction emissions using List.reverseRecOn with
    | nil => exact fun k => Iff.rfl
    | append_singleton emissions p ih =>
      intro k
      rw [lastWins_concat, List.map_append, List.mem_append, ← ih k]
      by_cases h : ∃ q ∈ lastWins timestampMs emissions, timestampMs q = timestampMs p
      · rw [keys_upsertBy_of_mem _ h]
        refine ⟨Or.inl, fun hk => hk.elim id fun hp => ?_⟩
        obtain ⟨q, hq, hkey⟩ := h
        rw [List.map_singleton, List.mem_singleton] at hp
        rw [hp, ← hkey]
        exact List.mem_map_of_mem hq
      · rw [upsertBy_of_new _ fun q hq hkey => h ⟨q, hq, hkey⟩, List.map_append, List.mem_append]
  have hk := hkeys k
  rwa [List.mem_map, List.mem_map] at hk

theorem capacity_store (series : Digdigdig3.Series ο) (d : Delivery ι) (point : ο) :
    (store timestampMs series d point).capacity = series.capacity := by
  cases d with
  | seed ev => exact Digdigdig3.Series.capacity_upsertByTs series point
  | live ev => rfl

/-- **Step lemma.** A point that is stored leaves one slot for each bar just when it fits. -/
theorem oneSlotPerBar_store_iff {s : DerivedTask σ ο} (h : OneSlotPerBar timestampMs s)
    (d : Delivery ι) (point : ο) :
    (store timestampMs s.series d point).ring =
        newest s.series.capacity (lastWins timestampMs (s.emissions ++ [point])) ↔
      Fits timestampMs s d point := by
  have hring : s.series.ring = newest s.series.capacity (lastWins timestampMs s.emissions) := h
  unfold Fits
  rw [lastWins_concat, ← exists_mem_lastWins, hring]
  cases d with
  | seed ev =>
    show (s.series.upsertByTs timestampMs point).ring = _ ↔ _
    rw [Digdigdig3.Series.ring_upsertByTs, hring,
      newest_upsertBy_window_iff s.series.capacity_pos]
    simp only [and_true]
  | live ev =>
    show (s.series.push point).ring = _ ↔ _
    have hpush : (s.series.push point).ring =
        newest s.series.capacity (s.series.ring ++ [point]) :=
      Digdigdig3.Series.ring_push s.series point
    rw [hpush, hring,
      newest_append_window_iff s.series.capacity_pos (nodup_keys_lastWins timestampMs _)]
    exact imp_congr_right fun _ => and_comm

theorem oneSlotPerBar_step_iff (s : DerivedTask σ ο) (d : Delivery ι)
    (h : OneSlotPerBar timestampMs s) :
    OneSlotPerBar timestampMs (step M timestampMs s d) ↔ StoresWell M timestampMs s d := by
  unfold step StoresWell
  cases hpoint : (M.step s.state (event d)).2 with
  | none => exact iff_of_true h fun point hsome => nomatch hsome
  | some point =>
    have hfits : (∀ q, some point = some q → Fits timestampMs s d q) ↔
        Fits timestampMs s d point :=
      ⟨fun hall => hall point rfl, fun hp q hq => Option.some.inj hq ▸ hp⟩
    rw [hfits, ← oneSlotPerBar_store_iff h]
    show (store timestampMs s.series d point).ring =
      newest (store timestampMs s.series d point).capacity _ ↔ _
    rw [capacity_store]

/-- **Main theorem.** For every machine, every sequence of events and every split, the ring has
one slot for each bar, with its last emission, all along the run just when every point fits. -/
theorem oneSlotPerBar_iff (M : Mealy σ ι ο) (timestampMs : ο → ℤ) (state : σ)
    (ringCapacityHint : ℕ) (events : List ι) (n : ℕ) :
    (∀ pre, pre <+: deliveries events n →
      OneSlotPerBar timestampMs (run M timestampMs state ringCapacityHint pre)) ↔
    StepsMeet (step M timestampMs) (new state ringCapacityHint) (StoresWell M timestampMs)
      (deliveries events n) := by
  have hinit : OneSlotPerBar timestampMs (new state ringCapacityHint : DerivedTask σ ο) :=
    List.drop_nil.symm
  exact forall_prefix_iff_of_step hinit oneSlotPerBar_step_iff (deliveries events n)

/-- Two trades of one tick bar, both live: the bar takes two slots. -/
theorem live_updates_take_slots :
    ¬ ∀ (events : List Derived.Event) (n : ℕ),
      OneSlotPerBar Derived.BarPoint.openTime
        (run Derived.TradeToTickBarDerived.machine Derived.BarPoint.openTime
          (Derived.TradeToTickBarDerived.newForKey 2) 4 (deliveries events n)) := by
  intro h
  have hrun := h [.trade .binance "BTCUSDT" (Derived.buyAt 1000 100 1),
    .trade .binance "BTCUSDT" (Derived.buyAt 1001 101 1)] 0
  have hlength := congrArg List.length hrun
  exact absurd hlength (by decide +kernel)

end DerivedTask

end Digdigdig3.Station
