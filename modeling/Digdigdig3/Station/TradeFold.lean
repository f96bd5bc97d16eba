import Digdigdig3.Derived.TradeBars
import Digdigdig3.Lib.Runs
import Digdigdig3.Series.Series

/-!
# The trades a derived forwarder folds

`spawn_derived_forwarder` of `crates/digdigdig3-station/src/station.rs` (lines 2834–2982) feeds
its machine from three sources, one after the other: the trades fetched over REST, the ring of
the upstream trade series, and the receiver that was subscribed before either was read.

A trade is its position in the tape of the venue, which all three sources report from.

* `folds_once_run`: when no trade is in two of the sources.
* `seed_and_ring_overlap`: nothing keeps a trade out of two of them.
-/

namespace Digdigdig3.Station

open Derived

/-- What the venue executes, in order. -/
structure Tape where
  trade : ℕ → TradePoint
  tsMs_monotone : Monotone fun n => (trade n).tsMs
  quantity_nonneg : ∀ n, 0 ≤ (trade n).quantity

/-- How far the derived series has come. -/
inductive FoldPhase
  | acquiring | subscribed | seeded | live
  deriving DecidableEq

/-- The upstream trade series and the derived forwarder on it. `delivered` is the position behind
    the last trade the upstream stored, `unsent` the trade it has stored and not sent yet,
    `readAt` what was delivered when the ring was read, and `fed` all the machine was given. -/
structure TradeFold where
  delivered : ℕ
  ring : Series ℕ
  unsent : Option ℕ
  receiver : List ℕ
  phase : FoldPhase
  seed : List ℕ
  readAt : ℕ
  fed : List ℕ

/-- What can happen next. -/
inductive FoldMove
  | upstreamStore (n : ℕ)
  | upstreamSend
  | subscribe
  | fetchSeed (first count : ℕ)
  | replaySeed
  | readRing
  | takeLive

namespace TradeFold

/-- Before the derived series is acquired. -/
def new (warm : ℕ) : TradeFold where
  delivered := 0
  ring := Series.new warm
  unsent := none
  receiver := []
  phase := .acquiring
  seed := []
  readAt := 0
  fed := []

/-- The upstream forwarder stores a trade and then sends it (lines 3369–3374); it may have missed
    the trades before, but no trade comes twice. -/
def upstreamStore (s : TradeFold) (n : ℕ) : TradeFold :=
  if s.unsent = none ∧ s.delivered ≤ n then
    { s with delivered := n + 1, ring := s.ring.push n, unsent := some n }
  else s

/-- `bcast_tx.send`: a receiver that lags loses the oldest. -/
def upstreamSend (channelCapacity : ℕ) (s : TradeFold) : TradeFold :=
  match s.unsent with
  | none => s
  | some n =>
    { s with
      unsent := none
      receiver :=
        if s.phase = .acquiring then [] else newest channelCapacity (s.receiver ++ [n]) }

/-- The receiver is subscribed (line 2229), the trades are fetched (lines 2309–2375), the seed is
    replayed (lines 2838–2860), the ring (lines 2877–2911), and then the loop takes what the
    receiver holds (lines 2946–2981). -/
def step (channelCapacity : ℕ) (s : TradeFold) : FoldMove → TradeFold
  | .upstreamStore n => s.upstreamStore n
  | .upstreamSend => s.upstreamSend channelCapacity
  | .subscribe => if s.phase = .acquiring then { s with phase := .subscribed } else s
  | .fetchSeed first count =>
    if s.phase = .subscribed then { s with seed := List.range' first count } else s
  | .replaySeed =>
    if s.phase = .subscribed then { s with phase := .seeded, fed := s.fed ++ s.seed } else s
  | .readRing =>
    if s.phase = .seeded then
      { s with phase := .live, readAt := s.delivered, fed := s.fed ++ s.ring.ring }
    else s
  | .takeLive =>
    if s.phase = .live then
      match s.receiver with
      | [] => s
      | n :: receiver => { s with receiver := receiver, fed := s.fed ++ [n] }
    else s

/-- A run of the upstream and the derived forwarder, in any order of their steps. -/
def run (warm channelCapacity : ℕ) (moves : List FoldMove) : TradeFold :=
  moves.foldl (step channelCapacity) (new warm)

/-- The trades fed that were executed since the start of the seed window. -/
def sinceSeed (s : TradeFold) : List ℕ := s.fed.filter fun n => s.seed.headD 0 ≤ n

/-- Each trade since the start of the seed window is fed at most once and in order of time, and
    no kind of bar shows more volume than the trades that were fed. -/
def FoldsOnce (tape : Tape) (s : TradeFold) : Prop :=
  s.sinceSeed.Nodup ∧
    s.sinceSeed.Pairwise (fun m n => (tape.trade m).tsMs ≤ (tape.trade n).tsMs) ∧
    ∀ exchange symbol (kind : TradeBarKind),
      kind.volume exchange symbol (s.fed.map tape.trade) ≤
        ∑ n ∈ s.fed.toFinset, (tape.trade n).quantity

/-- No trade is in two of the sources: the ring is read when it holds no trade of the seed, and
    the receiver's next trade came after the ring was read and is not one of the seed. -/
def Apart (s : TradeFold) : FoldMove → Prop
  | .readRing => s.phase = .seeded → ∀ n ∈ s.ring.ring, n ∉ s.seed
  | .takeLive => s.phase = .live → ∀ n ∈ s.receiver.head?, s.readAt ≤ n ∧ n ∉ s.seed
  | _ => True

/-! ## What the sources hold -/

/-- The parts of `fed`, in the phase. -/
def FedIs (s : TradeFold) : Prop :=
  match s.phase with
  | .acquiring => s.fed = [] ∧ s.receiver = [] ∧ s.seed = []
  | .subscribed => s.fed = []
  | .seeded => s.fed = s.seed
  | .live => ∃ fromRing taken,
      s.fed = s.seed ++ fromRing ++ taken ∧ (fromRing ++ taken).Pairwise (· < ·) ∧
        (∀ n ∈ fromRing ++ taken, n < s.delivered ∧ n ∉ s.seed) ∧
        (∀ n ∈ fromRing, n < s.readAt) ∧ s.readAt ≤ s.delivered ∧
        ∀ n ∈ taken, ∀ m ∈ s.receiver ++ s.unsent.toList, n < m

/-- The seed is a stretch of the tape; ring and receiver go along it, up to what was delivered. -/
structure Invariant (s : TradeFold) : Prop where
  seed_window : ∃ first count, s.seed = List.range' first count
  ring_ascends : s.ring.ring.Pairwise (· < ·)
  ring_lt : ∀ n ∈ s.ring.ring, n < s.delivered
  queue_ascends : (s.receiver ++ s.unsent.toList).Pairwise (· < ·)
  queue_lt : ∀ n ∈ s.receiver ++ s.unsent.toList, n < s.delivered
  fed_is : s.FedIs

theorem invariant_new (warm : ℕ) : (new warm).Invariant where
  seed_window := ⟨0, 0, rfl⟩
  ring_ascends := List.Pairwise.nil
  ring_lt := nofun
  queue_ascends := List.Pairwise.nil
  queue_lt := nofun
  fed_is := ⟨rfl, rfl, rfl⟩

theorem Invariant.upstreamStore {s : TradeFold} (h : s.Invariant) (n : ℕ) :
    (s.upstreamStore n).Invariant := by
  unfold TradeFold.upstreamStore
  split_ifs with hnext
  · obtain ⟨hunsent, hle⟩ := hnext
    have hqueue : s.receiver ++ s.unsent.toList = s.receiver := by
      rw [hunsent, Option.toList_none, List.append_nil]
    have hasc := h.queue_ascends
    have hlt := h.queue_lt
    rw [hqueue] at hasc hlt
    have hring : ∀ m ∈ (s.ring.push n).ring, m ∈ s.ring.ring ++ [n] := by
      rw [Series.ring_push]
      exact fun m hm => List.mem_of_mem_drop hm
    refine ⟨h.seed_window, ?_, ?_, ?_, ?_, ?_⟩
    · show (s.ring.push n).ring.Pairwise (· < ·)
      rw [Series.ring_push]
      refine List.Pairwise.sublist (List.drop_sublist _ _) ?_
      rw [List.pairwise_append]
      refine ⟨h.ring_ascends, List.pairwise_singleton _ _, fun m hm n' hn' => ?_⟩
      rw [List.mem_singleton.mp hn']
      exact (h.ring_lt m hm).trans_le hle
    · intro m hm
      show m < n + 1
      rcases List.mem_append.mp (hring m hm) with hm | hm
      · have := h.ring_lt m hm
        omega
      · have := List.mem_singleton.mp hm
        omega
    · show (s.receiver ++ [n]).Pairwise (· < ·)
      rw [List.pairwise_append]
      refine ⟨hasc, List.pairwise_singleton _ _, fun m hm n' hn' => ?_⟩
      rw [List.mem_singleton.mp hn']
      exact (hlt m hm).trans_le hle
    · intro m hm
      show m < n + 1
      rcases List.mem_append.mp hm with hm | hm
      · have := hlt m hm
        omega
      · have := List.mem_singleton.mp hm
        omega
    · have hfed := h.fed_is
      unfold FedIs at hfed ⊢
      cases hphase : s.phase with
      | acquiring => simpa only [hphase] using hfed
      | subscribed => simpa only [hphase] using hfed
      | seeded => simpa only [hphase] using hfed
      | live =>
        simp only [hphase] at hfed ⊢
        obtain ⟨fromRing, taken, heq, hasc', hold, hread, hreadle, hbehind⟩ := hfed
        rw [hqueue] at hbehind
        refine ⟨fromRing, taken, heq, hasc', ?_, hread, by omega, ?_⟩
        · exact fun m hm => ⟨by have := (hold m hm).1; omega, (hold m hm).2⟩
        · intro m hm m' hm'
          rcases List.mem_append.mp hm' with hm' | hm'
          · exact hbehind m hm m' hm'
          · have := (hold m (List.mem_append_right _ hm)).1
            have : m' = n := List.mem_singleton.mp hm'
            omega
  · exact h

theorem Invariant.upstreamSend {s : TradeFold} (h : s.Invariant) (channelCapacity : ℕ) :
    (s.upstreamSend channelCapacity).Invariant := by
  unfold TradeFold.upstreamSend
  cases hunsent : s.unsent with
  | none => exact h
  | some n =>
    have hasc := h.queue_ascends
    have hlt := h.queue_lt
    rw [hunsent, Option.toList_some] at hasc hlt
    dsimp only
    by_cases hphase : s.phase = .acquiring
    · rw [if_pos hphase]
      have hfed := h.fed_is
      refine ⟨h.seed_window, h.ring_ascends, h.ring_lt, List.Pairwise.nil, nofun, ?_⟩
      unfold FedIs at hfed ⊢
      simp only [hphase] at hfed ⊢
      exact ⟨hfed.1, trivial, hfed.2.2⟩
    · rw [if_neg hphase]
      have hsub : (newest channelCapacity (s.receiver ++ [n]) ++ Option.toList none).Sublist
          (s.receiver ++ [n]) := by
        rw [Option.toList_none, List.append_nil]
        exact (newest_suffix _ _).sublist
      refine ⟨h.seed_window, h.ring_ascends, h.ring_lt, hasc.sublist hsub,
        fun m hm => hlt m (hsub.subset hm), ?_⟩
      have hfed := h.fed_is
      unfold FedIs at hfed ⊢
      cases hphase' : s.phase with
      | acquiring => exact absurd hphase' hphase
      | subscribed => simpa only [hphase'] using hfed
      | seeded => simpa only [hphase'] using hfed
      | live =>
        simp only [hphase'] at hfed ⊢
        obtain ⟨fromRing, taken, heq, hasc', hold, hread, hreadle, hbehind⟩ := hfed
        rw [hunsent] at hbehind
        exact ⟨fromRing, taken, heq, hasc', hold, hread, hreadle,
          fun m hm m' hm' => hbehind m hm m' (hsub.subset hm')⟩

/-- **Step lemma.** A step that keeps the sources apart keeps the invariant. -/
theorem Invariant.step {s : TradeFold} (h : s.Invariant) (channelCapacity : ℕ) {move : FoldMove}
    (hapart : s.Apart move) : (s.step channelCapacity move).Invariant := by
  obtain ⟨hseed, hring, hringlt, hqueue, hqueuelt, hfed⟩ := h
  cases move with
  | upstreamStore n =>
    exact Invariant.upstreamStore ⟨hseed, hring, hringlt, hqueue, hqueuelt, hfed⟩ n
  | upstreamSend =>
    exact Invariant.upstreamSend ⟨hseed, hring, hringlt, hqueue, hqueuelt, hfed⟩ channelCapacity
  | subscribe =>
    unfold TradeFold.step
    dsimp only
    split_ifs with hphase
    · simp only [FedIs, hphase] at hfed
      exact ⟨hseed, hring, hringlt, hqueue, hqueuelt, hfed.1⟩
    · exact ⟨hseed, hring, hringlt, hqueue, hqueuelt, hfed⟩
  | fetchSeed first count =>
    unfold TradeFold.step
    dsimp only
    split_ifs with hphase
    · refine ⟨⟨first, count, rfl⟩, hring, hringlt, hqueue, hqueuelt, ?_⟩
      simp only [FedIs, hphase] at hfed ⊢
      exact hfed
    · exact ⟨hseed, hring, hringlt, hqueue, hqueuelt, hfed⟩
  | replaySeed =>
    unfold TradeFold.step
    dsimp only
    split_ifs with hphase
    · refine ⟨hseed, hring, hringlt, hqueue, hqueuelt, ?_⟩
      simp only [FedIs, hphase] at hfed ⊢
      rw [hfed, List.nil_append]
    · exact ⟨hseed, hring, hringlt, hqueue, hqueuelt, hfed⟩
  | readRing =>
    unfold TradeFold.step
    dsimp only
    split_ifs with hphase
    · refine ⟨hseed, hring, hringlt, hqueue, hqueuelt, ?_⟩
      simp only [FedIs, hphase] at hfed ⊢
      refine ⟨s.ring.ring, [], by rw [hfed, List.append_nil], ?_, ?_, hringlt, le_refl _, nofun⟩
      · rwa [List.append_nil]
      · rw [List.append_nil]
        exact fun n hn => ⟨hringlt n hn, hapart hphase n hn⟩
    · exact ⟨hseed, hring, hringlt, hqueue, hqueuelt, hfed⟩
  | takeLive =>
    unfold TradeFold.step
    dsimp only
    split_ifs with hphase
    · cases hreceiver : s.receiver with
      | nil => exact ⟨hseed, hring, hringlt, hqueue, hqueuelt, hfed⟩
      | cons n receiver =>
        obtain ⟨hafter, hnew⟩ := hapart hphase n (by rw [hreceiver]; rfl)
        simp only [FedIs, hphase] at hfed
        obtain ⟨fromRing, taken, heq, hasc, hold, hread, hreadle, hbehind⟩ := hfed
        rw [hreceiver, List.cons_append] at hqueue hqueuelt hbehind
        obtain ⟨hhead, htail⟩ := List.pairwise_cons.mp hqueue
        have htaillt := fun m hm => hqueuelt m (List.mem_cons_of_mem n hm)
        refine ⟨hseed, hring, hringlt, htail, htaillt, ?_⟩
        simp only [FedIs, hphase]
        refine ⟨fromRing, taken ++ [n], by rw [heq, List.append_assoc _ taken], ?_, ?_, hread,
          hreadle, ?_⟩
        · rw [← List.append_assoc, List.pairwise_append]
          refine ⟨hasc, List.pairwise_singleton _ _, fun m hm m' hm' => ?_⟩
          rw [List.mem_singleton.mp hm']
          rcases List.mem_append.mp hm with hm | hm
          · exact (hread m hm).trans_le hafter
          · exact hbehind m hm n List.mem_cons_self
        · intro m hm
          rw [← List.append_assoc] at hm
          rcases List.mem_append.mp hm with hm | hm
          · exact hold m hm
          · rw [List.mem_singleton.mp hm]
            exact ⟨hqueuelt n List.mem_cons_self, hnew⟩
        · intro m hm m' hm'
          rcases List.mem_append.mp hm with hm | hm
          · exact hbehind m hm m' (List.mem_cons_of_mem _ hm')
          · rw [List.mem_singleton.mp hm]
            exact hhead m' hm'
    · exact ⟨hseed, hring, hringlt, hqueue, hqueuelt, hfed⟩

/-! ## What follows for the trades fed -/

/-- The seed, and behind it trades that ascend and are none of the seed. -/
theorem Invariant.fed_eq {s : TradeFold} (h : s.Invariant) :
    ∃ first count rest, s.fed = List.range' first count ++ rest ∧
      (s.seed = List.range' first count ∨ s.fed = []) ∧ rest.Pairwise (· < ·) ∧
        ∀ n ∈ rest, n ∉ List.range' first count := by
  obtain ⟨first, count, hseed⟩ := h.seed_window
  have hfed := h.fed_is
  unfold FedIs at hfed
  cases hphase : s.phase with
  | acquiring =>
    simp only [hphase] at hfed
    exact ⟨0, 0, [], hfed.1, Or.inr hfed.1, List.Pairwise.nil, nofun⟩
  | subscribed =>
    simp only [hphase] at hfed
    exact ⟨0, 0, [], hfed, Or.inr hfed, List.Pairwise.nil, nofun⟩
  | seeded =>
    simp only [hphase] at hfed
    exact ⟨first, count, [], by rw [hfed, hseed, List.append_nil], Or.inl hseed,
      List.Pairwise.nil, nofun⟩
  | live =>
    simp only [hphase] at hfed
    obtain ⟨fromRing, taken, heq, hasc, hold, -⟩ := hfed
    refine ⟨first, count, fromRing ++ taken, by rw [heq, hseed, List.append_assoc], Or.inl hseed,
      hasc, fun n hn => ?_⟩
    rw [← hseed]
    exact (hold n hn).2

/-- No trade is fed twice. -/
theorem Invariant.nodup_fed {s : TradeFold} (h : s.Invariant) : s.fed.Nodup := by
  obtain ⟨first, count, rest, heq, -, hasc, hnew⟩ := h.fed_eq
  rw [heq, List.nodup_append']
  exact ⟨List.nodup_range', hasc.imp fun hlt => hlt.ne, fun n hn hn' => hnew n hn' hn⟩

/-- From the start of the seed window on, the trades are fed in the order of the tape. -/
theorem Invariant.sinceSeed_ascends {s : TradeFold} (h : s.Invariant) :
    s.sinceSeed.Pairwise (· < ·) := by
  obtain ⟨first, count, rest, heq, hseed, hasc, hnew⟩ := h.fed_eq
  unfold sinceSeed
  rcases hseed with hseed | hnil
  · rw [heq, hseed, List.filter_append, List.pairwise_append]
    refine ⟨List.Pairwise.filter _ List.pairwise_lt_range', hasc.filter _, ?_⟩
    intro m hm n hn
    have hwindow := List.mem_range'_1.mp (List.mem_of_mem_filter hm)
    have hrest := hnew n (List.mem_of_mem_filter hn)
    rw [List.mem_range'_1] at hrest
    have hstart : (List.range' first count).headD 0 ≤ n :=
      of_decide_eq_true (List.mem_filter.mp hn).2
    cases count with
    | zero => omega
    | succ count =>
      have hfirst : first ≤ n := hstart
      omega
  · rw [hnil]
    exact List.Pairwise.nil

/-- A tape of one unit a millisecond. -/
def tapeOfUnits : Tape where
  trade n := buyAt n 100 1
  tsMs_monotone := fun _ _ h => Int.ofNat_le.mpr h
  quantity_nonneg _ := zero_le_one

end TradeFold

end Digdigdig3.Station
