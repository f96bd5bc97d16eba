import Digdigdig3.Lib.Runs
import Digdigdig3.Lib.SlidingWindow

/-!
# Rate limiters

The four limiters of `crates/digdigdig3/src/core/utils/rate_limiter.rs` and `RuntimeLimiter`, which
wraps them. An `Instant` is a number of nanoseconds; the `f64` counter of the decaying limiter is
rational. Every call reads the clock once.

* `budget_kept_run`: when no limiter grants more than its budget.
* `report_hides_grants`: a fresh report of the server makes a limiter forget its own grants.
* `grants_filter_reports`: the groups do not interfere.
-/

namespace Digdigdig3

/-- `RestLimitPool` (`core/types/capabilities.rs` lines 881–896), as far as a limiter is built
    from it. -/
structure RestLimitPool where
  name : String
  maxBudget : UInt32
  windowSeconds : UInt32

/-- `DecayingLimitConfig` (lines 900–906). -/
structure DecayingLimitConfig where
  maxCounter : ℚ
  decayRatePerSec : ℚ

/-- `LimitModel` (lines 911–922). -/
inductive LimitModel
  | simple | weight | decaying | group | unlimited
  deriving DecidableEq

/-- `RateLimitCapabilities` (lines 958–969), without what no limiter reads. -/
structure RateLimitCapabilities where
  model : LimitModel
  restPools : List RestLimitPool
  decaying : Option DecayingLimitConfig

/-- `Duration::from_secs`, in nanoseconds. -/
def fromSecs (secs : UInt32) : ℕ := secs.toNat * 10 ^ 9

/-! ## The limiters -/

/-- `SimpleRateLimiter` (lines 79–86). -/
structure SimpleRateLimiter where
  maxRequests : UInt32
  window : ℕ
  requests : List ℕ

namespace SimpleRateLimiter

def new (maxRequests : UInt32) (window : ℕ) : SimpleRateLimiter :=
  { maxRequests := maxRequests, window := window, requests := [] }

/-- `cleanup` (lines 186–195). -/
def cleanup (now : ℕ) (l : SimpleRateLimiter) : SimpleRateLimiter :=
  { l with requests := unexpired id l.window now l.requests }

/-- `try_acquire` (lines 120–129). -/
def tryAcquire (now : ℕ) (l : SimpleRateLimiter) : SimpleRateLimiter × Bool :=
  let l := l.cleanup now
  if l.requests.length < l.maxRequests.toNat then
    ({ l with requests := l.requests ++ [now] }, true)
  else (l, false)

/-- What `update_from_server` takes for used: `max_requests.saturating_sub(remaining)`. -/
def used (l : SimpleRateLimiter) (remaining : UInt32) : ℕ :=
  l.maxRequests.toNat - remaining.toNat

/-- `update_from_server` (lines 176–183): the requests so far are forgotten. -/
def updateFromServer (now : ℕ) (remaining : UInt32) (l : SimpleRateLimiter) : SimpleRateLimiter :=
  { l with requests := List.replicate (l.used remaining) now }

end SimpleRateLimiter

/-- `WeightRateLimiter` (lines 219–231). -/
structure WeightRateLimiter where
  maxWeight : UInt32
  window : ℕ
  entries : List (ℕ × UInt32)
  lastServerUsed : Option UInt32
  lastServerUpdate : Option ℕ

namespace WeightRateLimiter

/-- `new` (lines 247–255). -/
def new (maxWeight : UInt32) (window : ℕ) : WeightRateLimiter :=
  { maxWeight := maxWeight
    window := window
    entries := []
    lastServerUsed := none
    lastServerUpdate := none }

/-- The server's report is as old as the window (lines 387–392). -/
def serverTooOld (now : ℕ) (l : WeightRateLimiter) : Bool :=
  l.lastServerUpdate.any fun serverTime => decide (l.window ≤ now - serverTime)

/-- `cleanup` (lines 376–393). -/
def cleanup (now : ℕ) (l : WeightRateLimiter) : WeightRateLimiter :=
  { l with
    entries := unexpired Prod.fst l.window now l.entries
    lastServerUsed := if l.serverTooOld now then none else l.lastServerUsed
    lastServerUpdate := if l.serverTooOld now then none else l.lastServerUpdate }

/-- The report of the server, while it is younger than the window (lines 353–359). -/
def serverWeight (now : ℕ) (l : WeightRateLimiter) : Option UInt32 :=
  match l.lastServerUsed, l.lastServerUpdate with
  | some serverWeight, some serverTime =>
    if now - serverTime < l.window then some serverWeight else none
  | _, _ => none

/-- `self.entries.iter().map(|(_, weight)| weight).sum()`, with the wrap-around of a release
    build. -/
def entriesSum (l : WeightRateLimiter) : UInt32 :=
  l.entries.foldl (fun sum entry => sum + entry.2) 0

/-- `current_weight` (lines 350–363). -/
def currentWeight (now : ℕ) (l : WeightRateLimiter) : WeightRateLimiter × UInt32 :=
  let l := l.cleanup now
  (l, (l.serverWeight now).getD l.entriesSum)

/-- `try_acquire` (lines 269–279), with the wrap-around of a release build. -/
def tryAcquire (now : ℕ) (weight : UInt32) (l : WeightRateLimiter) : WeightRateLimiter × Bool :=
  let l := l.cleanup now
  let (l, current) := l.currentWeight now
  if current + weight ≤ l.maxWeight then
    ({ l with entries := l.entries ++ [(now, weight)] }, true)
  else (l, false)

/-- An addition of `try_acquire` exceeds `u32`: a debug build panics there. -/
def overflows (now : ℕ) (weight : UInt32) (l : WeightRateLimiter) : Bool :=
  let (l, current) := (l.cleanup now).currentWeight now
  decide (2 ^ 32 ≤ current.toNat + weight.toNat) ||
    (l.serverWeight now).isNone && decide (2 ^ 32 ≤ (l.entries.map fun e => e.2.toNat).sum)

/-- `update_from_server` (lines 340–343). -/
def updateFromServer (now : ℕ) (usedWeight : UInt32) (l : WeightRateLimiter) : WeightRateLimiter :=
  { l with lastServerUsed := some usedWeight, lastServerUpdate := some now }

end WeightRateLimiter

/-- `DecayingRateLimiter` (lines 404–410). -/
structure DecayingRateLimiter where
  maxCounter : ℚ
  decayRate : ℚ
  counter : ℚ
  lastUpdate : ℕ

namespace DecayingRateLimiter

/-- `new` (lines 425–432). -/
def new (maxCounter decayRate : ℚ) (now : ℕ) : DecayingRateLimiter :=
  { maxCounter := maxCounter, decayRate := decayRate, counter := 0, lastUpdate := now }

/-- `as_secs_f64`. -/
def asSecs (nanos : ℕ) : ℚ := nanos / 10 ^ 9

/-- `apply_decay` (lines 435–439). -/
def applyDecay (now : ℕ) (l : DecayingRateLimiter) : DecayingRateLimiter :=
  { l with
    counter := max (l.counter - l.decayRate * asSecs (now - l.lastUpdate)) 0
    lastUpdate := now }

/-- `try_acquire` (lines 449–457). -/
def tryAcquire (now : ℕ) (cost : ℚ) (l : DecayingRateLimiter) : DecayingRateLimiter × Bool :=
  let l := l.applyDecay now
  if l.counter + cost ≤ l.maxCounter then ({ l with counter := l.counter + cost }, true)
  else (l, false)

end DecayingRateLimiter

/-- `GroupRateLimiter` (lines 503–505). -/
structure GroupRateLimiter where
  groups : String → Option WeightRateLimiter

namespace GroupRateLimiter

/-- `add_group` (lines 521–524). -/
def addGroup (g : GroupRateLimiter) (name : String) (maxWeight : UInt32) (window : ℕ) :
    GroupRateLimiter :=
  { groups := Function.update g.groups name (some (.new maxWeight window)) }

/-- `try_acquire` (lines 531–537): an unknown group has no limit. -/
def tryAcquire (now : ℕ) (group : String) (weight : UInt32) (g : GroupRateLimiter) :
    GroupRateLimiter × Bool :=
  match g.groups group with
  | some l =>
    ({ groups := Function.update g.groups group (some (l.tryAcquire now weight).1) },
      (l.tryAcquire now weight).2)
  | none => (g, true)

/-- `update_from_server` (lines 557–561). -/
def updateFromServer (now : ℕ) (group : String) (usedWeight : UInt32) (g : GroupRateLimiter) :
    GroupRateLimiter :=
  match g.groups group with
  | some l =>
    { groups := Function.update g.groups group (some (l.updateFromServer now usedWeight)) }
  | none => g

end GroupRateLimiter

/-- `RuntimeLimiter` (lines 614–620). -/
inductive RuntimeLimiter
  | simple (l : SimpleRateLimiter)
  | weight (l : WeightRateLimiter)
  | decaying (l : DecayingRateLimiter)
  | group (g : GroupRateLimiter)
  | unlimited

namespace RuntimeLimiter

/-- `from_caps` (lines 624–668), at the instant `0`. -/
def fromCaps (caps : RateLimitCapabilities) : RuntimeLimiter :=
  match caps.model, caps.restPools, caps.decaying with
  | .unlimited, _, _ => .unlimited
  | .simple, [], _ => .unlimited
  | .simple, pool :: _, _ => .simple (.new pool.maxBudget (fromSecs pool.windowSeconds))
  | .weight, [], _ => .unlimited
  | .weight, pool :: _, _ => .weight (.new pool.maxBudget (fromSecs pool.windowSeconds))
  | .decaying, _, some cfg => .decaying (.new cfg.maxCounter cfg.decayRatePerSec 0)
  | .decaying, _, none => .unlimited
  | .group, pools, _ =>
    .group (pools.foldl
      (fun g pool => g.addGroup pool.name pool.maxBudget (fromSecs pool.windowSeconds))
      ⟨fun _ => none⟩)

/-- `try_acquire` (lines 671–679). -/
def tryAcquire (now : ℕ) (group : String) (weight : UInt32) :
    RuntimeLimiter → RuntimeLimiter × Bool
  | .unlimited => (.unlimited, true)
  | .simple l => ((l.tryAcquire now).map .simple id)
  | .weight l => ((l.tryAcquire now weight).map .weight id)
  | .decaying l => ((l.tryAcquire now weight.toNat).map .decaying id)
  | .group g => ((g.tryAcquire now group weight).map .group id)

/-- `update_from_server` (lines 693–700). -/
def updateFromServer (now : ℕ) (group : String) (value : UInt32) : RuntimeLimiter → RuntimeLimiter
  | .weight l => .weight (l.updateFromServer now value)
  | .group g => .group (g.updateFromServer now group value)
  | .simple l => .simple (l.updateFromServer now value)
  | .decaying l => .decaying l
  | .unlimited => .unlimited

end RuntimeLimiter

/-! ## Runs -/

/-- A call to a limiter. -/
inductive LimiterCall
  | tryAcquire (group : String) (weight : UInt32)
  | updateFromServer (group : String) (value : UInt32)

/-- A limiter with the ledger of each of its pools; it has `overflowed` once an addition has. -/
structure Metered where
  limiter : RuntimeLimiter
  ledgers : String → Ledger
  overflowed : Bool

namespace Metered

/-- A new limiter. -/
def new (caps : RateLimitCapabilities) : Metered :=
  { limiter := .fromCaps caps, ledgers := fun _ => .empty, overflowed := false }

/-- The pool that a call for `group` draws on: only a group limiter reads the name. -/
def pool (group : String) : RuntimeLimiter → String
  | .group _ => group
  | _ => ""

/-- The used weight that a report stands for. -/
def reportedUsed (group : String) (value : UInt32) : RuntimeLimiter → Option ℕ
  | .simple l => some (l.used value)
  | .weight _ => some value.toNat
  | .group g => (g.groups group).map fun _ => value.toNat
  | _ => none

/-- An addition of the call exceeds `u32`. -/
def overflows (now : ℕ) (group : String) (weight : UInt32) : RuntimeLimiter → Bool
  | .weight l => l.overflows now weight
  | .group g => (g.groups group).any (·.overflows now weight)
  | _ => false

/-- One call, at its instant; the ledger takes down what was granted or reported. -/
def step (s : Metered) (call : ℕ × LimiterCall) : Metered :=
  match call.2 with
  | .tryAcquire group weight =>
    { limiter := (s.limiter.tryAcquire call.1 group weight).1
      ledgers :=
        if (s.limiter.tryAcquire call.1 group weight).2 then
          Function.update s.ledgers (pool group s.limiter)
            ((s.ledgers (pool group s.limiter)).grant call.1 weight.toNat)
        else s.ledgers
      overflowed := s.overflowed || overflows call.1 group weight s.limiter }
  | .updateFromServer group value =>
    { s with
      limiter := s.limiter.updateFromServer call.1 group value
      ledgers :=
        match reportedUsed group value s.limiter with
        | some used =>
          Function.update s.ledgers (pool group s.limiter)
            ((s.ledgers (pool group s.limiter)).report call.1 used)
        | none => s.ledgers }

/-- The calls, one after the other. -/
def run (caps : RateLimitCapabilities) (calls : List (ℕ × LimiterCall)) : Metered :=
  calls.foldl step (new caps)

/-- Nothing has overflowed, and every pool has kept its budget. -/
def BudgetKept (s : Metered) : Prop :=
  s.overflowed = false ∧
    match s.limiter with
    | .simple l => (s.ledgers "").KeptBudget l.window l.maxRequests.toNat
    | .weight l => (s.ledgers "").KeptBudget l.window l.maxWeight.toNat
    | .decaying l => ∀ t nanos,
        (weightOf (fun i => t ≤ i ∧ i ≤ t + nanos) (s.ledgers "").grants : ℚ) ≤
          l.maxCounter + l.decayRate * DecayingRateLimiter.asSecs nanos
    | .group g => ∀ name l, g.groups name = some l →
        (s.ledgers name).KeptBudget l.window l.maxWeight.toNat
    | .unlimited => True

/-- A report of the server still counts. -/
def ReportCounts (window now : ℕ) (ledger : Ledger) : Prop :=
  ∃ r ∈ ledger.reports, Ledger.Fresh window now r.1

/-- The sum of a weight limiter stays in `u32`, and where a report counts, a weight that it admits
    fits what was granted. -/
def WeightMeets (now : ℕ) (weight : UInt32) (l : WeightRateLimiter) (ledger : Ledger) : Prop :=
  (l.currentWeight now).2.toNat + weight.toNat < 2 ^ 32 ∧
    (ReportCounts l.window now ledger → (l.currentWeight now).2 + weight ≤ l.maxWeight →
      ledger.Fits l.window l.maxWeight.toNat now weight.toNat)

/-- The call is harmless. -/
def Meets (s : Metered) (call : ℕ × LimiterCall) : Prop :=
  match call.2, s.limiter with
  | .tryAcquire _ weight, .simple l =>
    weight ≤ 1 ∧ (ReportCounts l.window call.1 (s.ledgers "") →
      (l.cleanup call.1).requests.length < l.maxRequests.toNat →
        (s.ledgers "").Fits l.window l.maxRequests.toNat call.1 weight.toNat)
  | .tryAcquire _ weight, .weight l => WeightMeets call.1 weight l (s.ledgers "")
  | .tryAcquire group weight, .group g =>
    ∀ l, g.groups group = some l → WeightMeets call.1 weight l (s.ledgers group)
  | .updateFromServer _ value, .weight l => value ≤ l.maxWeight
  | .updateFromServer group value, .group g =>
    ∀ l, g.groups group = some l → value ≤ l.maxWeight
  | _, _ => True

end Metered

/-! ## The weight limiter -/

namespace WeightRateLimiter

/-- The entries with their weights as numbers. -/
def weights (l : WeightRateLimiter) : List (ℕ × ℕ) := l.entries.map fun e => (e.1, e.2.toNat)

/-- The entries track the ledger; the server's report on record is the last one, as long as that
    counts. -/
structure Invariant (now : ℕ) (l : WeightRateLimiter) (ledger : Ledger) : Prop where
  sorted : l.weights.Pairwise fun e e' => e.1 ≤ e'.1
  weights_le : ∀ e ∈ l.weights, e.1 ≤ now
  upTo : ledger.UpTo now
  tracks : Tracks Prod.fst id l.window now l.weights ledger
  server : ∀ r ∈ ledger.reports, Ledger.Fresh l.window now r.1 →
    ∃ used t, l.lastServerUsed = some used ∧ l.lastServerUpdate = some t ∧ r.1 ≤ t
  reported : ∀ t, l.lastServerUpdate = some t → ∃ r ∈ ledger.reports, r.1 = t
  kept : ledger.KeptBudget l.window l.maxWeight.toNat

variable {now later : ℕ} {l : WeightRateLimiter} {ledger : Ledger}

@[simp] theorem window_cleanup : (l.cleanup now).window = l.window := rfl

@[simp] theorem maxWeight_cleanup : (l.cleanup now).maxWeight = l.maxWeight := rfl

theorem weights_cleanup : (l.cleanup now).weights = unexpired Prod.fst l.window now l.weights := by
  unfold weights unexpired
  rw [List.dropWhile_map]
  rfl

theorem invariant_new (maxWeight : UInt32) (window : ℕ) :
    (new maxWeight window).Invariant now .empty where
  sorted := List.Pairwise.nil
  weights_le := nofun
  upTo := Ledger.upTo_empty
  tracks := tracks_empty
  server := nofun
  reported := nofun
  kept := Ledger.keptBudget_empty

theorem Invariant.mono (h : l.Invariant now ledger) (hle : now ≤ later) :
    l.Invariant later ledger where
  sorted := h.sorted
  weights_le := fun e he => (h.weights_le e he).trans hle
  upTo := h.upTo.mono hle
  tracks := fun later' hlater' => h.tracks later' (hle.trans hlater')
  server := fun r hr hfresh =>
    have hlt : later < r.1 + l.window := hfresh
    h.server r hr (hle.trans_lt hlt)
  reported := h.reported
  kept := h.kept

/-- `cleanup` drops nothing that counts. -/
theorem Invariant.cleanup (h : l.Invariant now ledger) (hle : now ≤ later) :
    (l.cleanup later).Invariant later ledger where
  sorted := by
    rw [weights_cleanup]
    exact h.sorted.sublist (unexpired_sublist _ _ _ _)
  weights_le := by
    rw [weights_cleanup]
    exact fun e he => (h.weights_le e ((unexpired_sublist _ _ _ _).subset he)).trans hle
  upTo := h.upTo.mono hle
  tracks := by
    rw [weights_cleanup]
    exact h.tracks.unexpired hle h.weights_le
  server := by
    intro r hr hfresh
    have hlt : later < r.1 + l.window := hfresh
    have hearlier : Ledger.Fresh l.window now r.1 := hle.trans_lt hlt
    obtain ⟨used, t, hused, hupdate, hrt⟩ := h.server r hr hearlier
    have hpast := h.upTo.reports_le r hr
    have hyoung : l.serverTooOld later = false := by
      rw [serverTooOld, hupdate]
      exact decide_eq_false (by omega)
    refine ⟨used, t, ?_, ?_, hrt⟩
    · show (if l.serverTooOld later then none else l.lastServerUsed) = some used
      rwa [hyoung]
    · show (if l.serverTooOld later then none else l.lastServerUpdate) = some t
      rwa [hyoung]
  reported := by
    intro t ht
    apply h.reported
    have hupdate : (if l.serverTooOld later then none else l.lastServerUpdate) = some t := ht
    split_ifs at hupdate
    exact hupdate
  kept := h.kept

theorem toNat_entriesSum (l : WeightRateLimiter) :
    l.entriesSum.toNat = (l.weights.map Prod.snd).sum % 2 ^ 32 := by
  have hgeneral : ∀ (entries : List (ℕ × UInt32)) (acc : UInt32),
      (entries.foldl (fun sum entry => sum + entry.2) acc).toNat =
        (acc.toNat + (entries.map fun e => e.2.toNat).sum) % 2 ^ 32 := by
    intro entries
    induction entries with
    | nil => exact fun acc => (Nat.mod_eq_of_lt acc.toNat_lt).symm
    | cons e entries ih =>
      intro acc
      rw [List.foldl_cons, ih, List.map_cons, List.sum_cons, UInt32.toNat_add]
      omega
  have hweights : l.weights.map Prod.snd = l.entries.map fun e => e.2.toNat := List.map_map
  rw [hweights, entriesSum, hgeneral]
  congr 1
  exact Nat.zero_add _

/-- What a cleaned limiter holds while no report counts: the grants of the window. -/
theorem Invariant.weight_fresh (h : (l.cleanup now).Invariant now ledger)
    (hbefore : l.weights.Pairwise fun e e' => e.1 ≤ e'.1)
    (hreports : ∀ r ∈ ledger.reports, ¬ Ledger.Fresh l.window now r.1) :
    ((l.cleanup now).weights.map Prod.snd).sum =
      weightOf (Ledger.Fresh l.window now) ledger.grants := by
  have hfresh : ∀ e ∈ (l.cleanup now).weights, Ledger.Fresh l.window now e.1 := by
    rw [weights_cleanup]
    exact fun e he => fresh_of_mem_unexpired hbefore he
  rw [h.tracks.eq_grants hfresh hreports, List.map_id]
  rfl

/-- The server's report is read exactly while one counts. -/
theorem Invariant.serverWeight_isSome (h : l.Invariant now ledger) :
    (l.serverWeight now).isSome ↔ Metered.ReportCounts l.window now ledger := by
  constructor
  · intro hsome
    unfold serverWeight at hsome
    cases hused : l.lastServerUsed with
    | none => simp [hused] at hsome
    | some used =>
      cases hupdate : l.lastServerUpdate with
      | none => simp [hused, hupdate] at hsome
      | some t =>
        simp only [hused, hupdate] at hsome
        split_ifs at hsome with hyoung
        · obtain ⟨r, hr, rfl⟩ := h.reported t hupdate
          refine ⟨r, hr, ?_⟩
          show now < r.1 + l.window
          omega
        · cases hsome
  · rintro ⟨r, hr, hfresh⟩
    have hlt : now < r.1 + l.window := hfresh
    obtain ⟨used, t, hused, hupdate, hrt⟩ := h.server r hr hfresh
    have hpast := h.upTo.reports_le r hr
    have hyoung : now - t < l.window := by omega
    simp only [serverWeight, hused, hupdate, if_pos hyoung]
    rfl

theorem cleanup_cleanup (now : ℕ) (l : WeightRateLimiter) :
    (l.cleanup now).cleanup now = l.cleanup now := by
  have hentries : unexpired Prod.fst l.window now (unexpired Prod.fst l.window now l.entries) =
      unexpired Prod.fst l.window now l.entries := unexpired_unexpired _
  have hyoung : (l.cleanup now).serverTooOld now = false := by
    by_cases hold : l.serverTooOld now = true
    · have hupdate : (l.cleanup now).lastServerUpdate = none := if_pos hold
      rw [serverTooOld, hupdate]
      rfl
    · have hupdate : (l.cleanup now).lastServerUpdate = l.lastServerUpdate := if_neg hold
      rw [serverTooOld, hupdate]
      exact eq_false_of_ne_true hold
  show ({ l.cleanup now with
    entries := unexpired Prod.fst l.window now (unexpired Prod.fst l.window now l.entries)
    lastServerUsed :=
      if (l.cleanup now).serverTooOld now then none else (l.cleanup now).lastServerUsed
    lastServerUpdate := if (l.cleanup now).serverTooOld now then none
      else (l.cleanup now).lastServerUpdate } : WeightRateLimiter) = l.cleanup now
  rw [hentries, hyoung]
  rfl

/-- `try_acquire`, with its one test. -/
theorem tryAcquire_eq (now : ℕ) (weight : UInt32) (l : WeightRateLimiter) :
    l.tryAcquire now weight =
      if (l.currentWeight now).2 + weight ≤ l.maxWeight then
        ({ l.cleanup now with entries := (l.cleanup now).entries ++ [(now, weight)] }, true)
      else (l.cleanup now, false) := by
  unfold tryAcquire currentWeight
  simp only [cleanup_cleanup]
  rfl

/-- While no report counts, the current weight is what was granted in the window. -/
theorem Invariant.currentWeight (h : l.Invariant now ledger) (hle : now ≤ later)
    (hreports : ¬ Metered.ReportCounts l.window later ledger) :
    (l.currentWeight later).2.toNat = weightOf (Ledger.Fresh l.window later) ledger.grants ∧
      ((l.cleanup later).weights.map Prod.snd).sum < 2 ^ 32 := by
  have hclean := h.cleanup hle
  have hsum := hclean.weight_fresh h.sorted fun r hr hfresh => hreports ⟨r, hr, hfresh⟩
  have hbudget := hclean.kept.fresh_le hclean.upTo
  have hmax := l.maxWeight.toNat_lt
  have hlt : ((l.cleanup later).weights.map Prod.snd).sum < 2 ^ 32 := by
    rw [hsum]
    exact hbudget.trans_lt hmax
  have hnone : (l.cleanup later).serverWeight later = none := by
    rw [← Option.not_isSome_iff_eq_none, hclean.serverWeight_isSome]
    exact hreports
  refine ⟨?_, hlt⟩
  show (((l.cleanup later).serverWeight later).getD (l.cleanup later).entriesSum).toNat = _
  rw [hnone, Option.getD_none, toNat_entriesSum, Nat.mod_eq_of_lt hlt, hsum]

/-- **Step lemma.** A harmless `try_acquire` overflows nothing, and grants what fits. -/
theorem Invariant.tryAcquire (h : l.Invariant now ledger) (hle : now ≤ later) {weight : UInt32}
    (hmeets : Metered.WeightMeets later weight l ledger) :
    (l.tryAcquire later weight).1.Invariant later
        (if (l.tryAcquire later weight).2 then ledger.grant later weight.toNat else ledger) ∧
      l.overflows later weight = false := by
  have hclean := h.cleanup hle
  obtain ⟨hsmall, hfits⟩ := hmeets
  constructor
  · rw [tryAcquire_eq]
    by_cases hroom : (l.currentWeight later).2 + weight ≤ l.maxWeight
    · rw [if_pos hroom]
      have hfits' : ledger.Fits l.window l.maxWeight.toNat later weight.toNat := by
        by_cases hcounts : Metered.ReportCounts l.window later ledger
        · exact hfits hcounts hroom
        · refine Ledger.fits_of_no_report (fun r hr hfresh => hcounts ⟨r, hr, hfresh⟩) ?_
          rw [← (h.currentWeight hle hcounts).1]
          have hadd := UInt32.le_iff_toNat_le.mp hroom
          rwa [UInt32.toNat_add, Nat.mod_eq_of_lt hsmall] at hadd
      have hweights : ({ l.cleanup later with
          entries := (l.cleanup later).entries ++ [(later, weight)] } : WeightRateLimiter).weights =
          (l.cleanup later).weights ++ [(later, weight.toNat)] := List.map_append
      refine ⟨?_, ?_, hclean.upTo.grant _, ?_, hclean.server, hclean.reported,
        hclean.kept.grant hfits'⟩
      · rw [hweights, List.pairwise_append]
        refine ⟨hclean.sorted, List.pairwise_singleton _ _, fun e he e' he' => ?_⟩
        rw [List.mem_singleton.mp he']
        exact hclean.weights_le e he
      · rw [hweights]
        intro e he
        rcases List.mem_append.mp he with he | he
        · exact hclean.weights_le e he
        · rw [List.mem_singleton.mp he]
      · rw [hweights]
        exact hclean.tracks.grant rfl
    · rw [if_neg hroom]
      exact hclean
  · unfold overflows WeightRateLimiter.currentWeight
    simp only [cleanup_cleanup]
    have hsmall' : ¬ 2 ^ 32 ≤
        (((l.cleanup later).serverWeight later).getD (l.cleanup later).entriesSum).toNat +
          weight.toNat := not_le.mpr hsmall
    show (decide _ || _ && decide _) = false
    rw [decide_eq_false hsmall', Bool.false_or]
    by_cases hcounts : Metered.ReportCounts l.window later ledger
    · have hsome := hclean.serverWeight_isSome.mpr hcounts
      rw [Option.isNone_eq_false_iff.mpr hsome]
      rfl
    · have hlt := (h.currentWeight hle hcounts).2
      have hweights : (l.cleanup later).weights.map Prod.snd =
          (l.cleanup later).entries.map fun e => e.2.toNat := List.map_map
      rw [hweights] at hlt
      rw [decide_eq_false (not_le.mpr hlt), Bool.and_false]

/-- **Step lemma.** A report within the budget. -/
theorem Invariant.updateFromServer (h : l.Invariant now ledger) (hle : now ≤ later)
    {usedWeight : UInt32} (hused : usedWeight ≤ l.maxWeight) :
    (l.updateFromServer later usedWeight).Invariant later
      (ledger.report later usedWeight.toNat) where
  sorted := h.sorted
  weights_le := (h.mono hle).weights_le
  upTo := (h.mono hle).upTo.report _
  tracks := (h.mono hle).tracks.report _
  server := by
    intro r hr _
    refine ⟨usedWeight, later, rfl, rfl, ?_⟩
    exact ((h.upTo.mono hle).report usedWeight.toNat).reports_le r hr
  reported := by
    rintro t ⟨⟩
    exact ⟨(later, usedWeight.toNat), by simp [Ledger.report], rfl⟩
  kept := h.kept.report (h.upTo.mono hle) (UInt32.le_iff_toNat_le.mp hused)

end WeightRateLimiter

/-! ## The simple limiter -/

namespace SimpleRateLimiter

/-- The requests track the ledger, in which no request weighs more than one. -/
structure Invariant (now : ℕ) (l : SimpleRateLimiter) (ledger : Ledger) : Prop where
  sorted : l.requests.Pairwise (· ≤ ·)
  requests_le : ∀ t ∈ l.requests, t ≤ now
  upTo : ledger.UpTo now
  tracks : Tracks id Prod.fst l.window now l.requests ledger
  weight_le_one : ∀ e ∈ ledger.grants, e.2 ≤ 1
  kept : ledger.KeptBudget l.window l.maxRequests.toNat

variable {now later : ℕ} {l : SimpleRateLimiter} {ledger : Ledger}

theorem invariant_new (maxRequests : UInt32) (window : ℕ) :
    (new maxRequests window).Invariant now .empty where
  sorted := List.Pairwise.nil
  requests_le := nofun
  upTo := Ledger.upTo_empty
  tracks := tracks_empty
  weight_le_one := nofun
  kept := Ledger.keptBudget_empty

/-- `cleanup` drops nothing that counts. -/
theorem Invariant.cleanup (h : l.Invariant now ledger) (hle : now ≤ later) :
    (l.cleanup later).Invariant later ledger where
  sorted := h.sorted.sublist (unexpired_sublist _ _ _ _)
  requests_le := fun t ht =>
    (h.requests_le t ((unexpired_sublist _ _ _ _).subset ht)).trans hle
  upTo := h.upTo.mono hle
  tracks := h.tracks.unexpired hle h.requests_le
  weight_le_one := h.weight_le_one
  kept := h.kept

/-- Grants that weigh at most one weigh at most their number. -/
theorem weightOf_le_length {p : ℕ → Prop} [DecidablePred p] {entries : List (ℕ × ℕ)}
    (h : ∀ e ∈ entries, e.2 ≤ 1) :
    weightOf p entries ≤ (entries.filter fun e => decide (p e.1)).length := by
  have hsum := List.sum_le_card_nsmul
    ((entries.filter fun e => decide (p e.1)).map Prod.snd) 1 (by
      intro w hw
      obtain ⟨e, he, rfl⟩ := List.mem_map.mp hw
      exact h e (List.mem_of_mem_filter he))
  rwa [List.length_map, smul_eq_mul, mul_one] at hsum

/-- **Step lemma.** A harmless `try_acquire` grants what fits. -/
theorem Invariant.tryAcquire (h : l.Invariant now ledger) (hle : now ≤ later) {weight : ℕ}
    (hone : weight ≤ 1)
    (hfits : Metered.ReportCounts l.window later ledger →
      (l.cleanup later).requests.length < l.maxRequests.toNat →
        ledger.Fits l.window l.maxRequests.toNat later weight) :
    (l.tryAcquire later).1.Invariant later
      (if (l.tryAcquire later).2 then ledger.grant later weight else ledger) := by
  have hclean := h.cleanup hle
  unfold SimpleRateLimiter.tryAcquire
  dsimp only
  by_cases hroom : (l.cleanup later).requests.length < (l.cleanup later).maxRequests.toNat
  · rw [if_pos hroom]
    have hfits' : ledger.Fits l.window l.maxRequests.toNat later weight := by
      by_cases hcounts : Metered.ReportCounts l.window later ledger
      · exact hfits hcounts hroom
      · have hreports : ∀ r ∈ ledger.reports, ¬ Ledger.Fresh l.window later r.1 :=
          fun r hr hfresh => hcounts ⟨r, hr, hfresh⟩
        refine Ledger.fits_of_no_report hreports ?_
        have hrequests := hclean.tracks.eq_grants
          (fun t ht => fresh_of_mem_unexpired h.sorted ht) hreports
        have hcount : weightOf (Ledger.Fresh l.window later) ledger.grants ≤ _ :=
          weightOf_le_length h.weight_le_one
        rw [hrequests, List.length_map] at hroom
        exact le_trans (Nat.add_le_add hcount hone) hroom
    refine ⟨?_, ?_, hclean.upTo.grant _, ?_, ?_, hclean.kept.grant hfits'⟩
    · rw [List.pairwise_append]
      refine ⟨hclean.sorted, List.pairwise_singleton _ _, fun t ht t' ht' => ?_⟩
      rw [List.mem_singleton.mp ht']
      exact hclean.requests_le t ht
    · intro t ht
      rcases List.mem_append.mp ht with ht | ht
      · exact hclean.requests_le t ht
      · rw [List.mem_singleton.mp ht]
    · exact hclean.tracks.grant rfl
    · intro e he
      rcases List.mem_append.mp he with he | he
      · exact h.weight_le_one e he
      · rw [List.mem_singleton.mp he]
        exact hone
  · rw [if_neg hroom]
    exact hclean

/-- **Step lemma.** A report replaces the requests. -/
theorem Invariant.updateFromServer (h : l.Invariant now ledger) (hle : now ≤ later)
    (remaining : UInt32) :
    (l.updateFromServer later remaining).Invariant later
      (ledger.report later (l.used remaining)) where
  sorted := List.pairwise_replicate.mpr (Or.inr (le_refl _))
  requests_le := fun _ ht => (List.eq_of_mem_replicate ht).le
  upTo := (h.upTo.mono hle).report _
  tracks := tracks_report (h.upTo.mono hle) (fun _ ht => (List.eq_of_mem_replicate ht).le) _
  weight_le_one := h.weight_le_one
  kept := h.kept.report (h.upTo.mono hle) (Nat.sub_le _ _)

end SimpleRateLimiter

/-! ## The decaying limiter -/

namespace DecayingRateLimiter

theorem asSecs_add (m n : ℕ) : asSecs (m + n) = asSecs m + asSecs n := by
  unfold asSecs
  push_cast
  ring

theorem asSecs_nonneg (n : ℕ) : 0 ≤ asSecs n := by
  unfold asSecs
  positivity

/-- The counter covers what was granted since any instant, less what has decayed. -/
structure Invariant (now : ℕ) (l : DecayingRateLimiter) (ledger : Ledger) : Prop where
  decayRate_nonneg : 0 ≤ l.decayRate
  counter_nonneg : 0 ≤ l.counter
  counter_le : l.counter ≤ l.maxCounter
  lastUpdate_le : l.lastUpdate ≤ now
  grants_le : ∀ e ∈ ledger.grants, e.1 ≤ l.lastUpdate
  covers : ∀ t elapsed, t + elapsed = l.lastUpdate →
    (weightOf (t ≤ ·) ledger.grants : ℚ) ≤ l.counter + l.decayRate * asSecs elapsed
  kept : ∀ t nanos, (weightOf (fun i => t ≤ i ∧ i ≤ t + nanos) ledger.grants : ℚ) ≤
    l.maxCounter + l.decayRate * asSecs nanos

variable {now later : ℕ} {l : DecayingRateLimiter} {ledger : Ledger}

theorem invariant_new {maxCounter decayRate : ℚ} (hmax : 0 ≤ maxCounter) (hrate : 0 ≤ decayRate) :
    (new maxCounter decayRate now).Invariant now .empty where
  decayRate_nonneg := hrate
  counter_nonneg := le_refl _
  counter_le := hmax
  lastUpdate_le := le_refl _
  grants_le := nofun
  covers _ elapsed _ := add_nonneg (le_refl _) (mul_nonneg hrate (asSecs_nonneg elapsed))
  kept _ nanos := add_nonneg hmax (mul_nonneg hrate (asSecs_nonneg nanos))

theorem Invariant.mono (h : l.Invariant now ledger) (hle : now ≤ later) :
    l.Invariant later ledger :=
  { h with lastUpdate_le := h.lastUpdate_le.trans hle }

/-- Decay takes from the counter what the time allows. -/
theorem Invariant.applyDecay (h : l.Invariant now ledger) (hle : now ≤ later) :
    (l.applyDecay later).Invariant later ledger where
  decayRate_nonneg := h.decayRate_nonneg
  counter_nonneg := le_max_right _ _
  counter_le := by
    have hdecay := mul_nonneg h.decayRate_nonneg (asSecs_nonneg (later - l.lastUpdate))
    refine max_le ?_ (h.counter_nonneg.trans h.counter_le)
    have := h.counter_le
    show l.counter - _ ≤ l.maxCounter
    linarith
  lastUpdate_le := le_refl _
  grants_le := fun e he => (h.grants_le e he).trans (h.lastUpdate_le.trans hle)
  covers := by
    intro t elapsed hsum
    have hsum' : t + elapsed = later := hsum
    have hlast := h.lastUpdate_le.trans hle
    have hcounter : l.counter - l.decayRate * asSecs (later - l.lastUpdate) ≤
        (l.applyDecay later).counter := le_max_left _ _
    show (weightOf (t ≤ ·) ledger.grants : ℚ) ≤
      (l.applyDecay later).counter + l.decayRate * asSecs elapsed
    by_cases ht : t ≤ l.lastUpdate
    · have hcovers := h.covers t (l.lastUpdate - t) (by omega)
      have hsplit : elapsed = (l.lastUpdate - t) + (later - l.lastUpdate) := by omega
      rw [hsplit, asSecs_add, mul_add]
      linarith
    · have hzero : weightOf (t ≤ ·) ledger.grants = 0 :=
        weightOf_eq_zero fun e he hte => ht (hte.trans (h.grants_le e he))
      rw [hzero]
      exact add_nonneg (le_max_right _ _)
        (mul_nonneg h.decayRate_nonneg (asSecs_nonneg elapsed))
  kept := h.kept

/-- **Step lemma.** A grant adds its cost to the counter. -/
theorem Invariant.tryAcquire (h : l.Invariant now ledger) (hle : now ≤ later) (weight : ℕ) :
    (l.tryAcquire later weight).1.Invariant later
      (if (l.tryAcquire later weight).2 then ledger.grant later weight else ledger) := by
  have hdecayed := h.applyDecay hle
  unfold DecayingRateLimiter.tryAcquire
  dsimp only
  by_cases hroom : (l.applyDecay later).counter + weight ≤ (l.applyDecay later).maxCounter
  · rw [if_pos hroom]
    have hcovers : ∀ t elapsed, t + elapsed = later →
        (weightOf (t ≤ ·) (ledger.grant later weight).grants : ℚ) ≤
          (l.applyDecay later).counter + weight + l.decayRate * asSecs elapsed := by
      intro t elapsed hsum
      have hold := hdecayed.covers t elapsed hsum
      show (weightOf (t ≤ ·) (ledger.grants ++ [(later, weight)]) : ℚ) ≤ _
      rw [weightOf_concat, if_pos (show t ≤ later by omega), Nat.cast_add]
      have hold' : (weightOf (t ≤ ·) ledger.grants : ℚ) ≤
          (l.applyDecay later).counter + l.decayRate * asSecs elapsed := hold
      linarith
    refine ⟨h.decayRate_nonneg, add_nonneg hdecayed.counter_nonneg (Nat.cast_nonneg _), hroom,
      le_refl _, ?_, hcovers, ?_⟩
    · intro e he
      rcases List.mem_append.mp he with he | he
      · exact hdecayed.grants_le e he
      · rw [List.mem_singleton.mp he]
        exact le_refl _
    · intro t nanos
      by_cases hin : t ≤ later ∧ later ≤ t + nanos
      · have hall : weightOf (fun i => t ≤ i ∧ i ≤ t + nanos) (ledger.grant later weight).grants ≤
            weightOf (t ≤ ·) (ledger.grant later weight).grants :=
          weightOf_mono fun e he hi => hi.1
        have hbound := hcovers t (later - t) (by omega)
        have hmono : asSecs (later - t) ≤ asSecs nanos := by
          unfold asSecs
          have : later - t ≤ nanos := by omega
          gcongr
        have hrate := mul_le_mul_of_nonneg_left hmono h.decayRate_nonneg
        have hall' : (weightOf (fun i => t ≤ i ∧ i ≤ t + nanos)
            (ledger.grant later weight).grants : ℚ) ≤
            weightOf (t ≤ ·) (ledger.grant later weight).grants := by exact_mod_cast hall
        have hroom' : (l.applyDecay later).counter + weight ≤ l.maxCounter := hroom
        refine hall'.trans (hbound.trans ?_)
        show _ ≤ l.maxCounter + l.decayRate * asSecs nanos
        linarith
      · show (weightOf _ (ledger.grants ++ [(later, weight)]) : ℚ) ≤ _
        rw [weightOf_concat, if_neg hin, add_zero]
        exact h.kept t nanos
  · rw [if_neg hroom]
    exact hdecayed

end DecayingRateLimiter

/-! ## Runs of the runtime limiter -/

namespace Metered

/-- Nothing has overflowed, and every pool is in step with its ledger. -/
def Invariant (now : ℕ) (s : Metered) : Prop :=
  s.overflowed = false ∧
    match s.limiter with
    | .simple l => l.Invariant now (s.ledgers "")
    | .weight l => l.Invariant now (s.ledgers "")
    | .decaying l => l.Invariant now (s.ledgers "")
    | .group g => ∀ name l, g.groups name = some l → l.Invariant now (s.ledgers name)
    | .unlimited => True

theorem Invariant.budgetKept {now : ℕ} {s : Metered} (h : s.Invariant now) : s.BudgetKept := by
  obtain ⟨limiter, ledgers, overflowed⟩ := s
  obtain ⟨hoverflow, hlimiter⟩ := h
  refine ⟨hoverflow, ?_⟩
  cases limiter with
  | simple l => exact hlimiter.kept
  | weight l => exact hlimiter.kept
  | decaying l => exact hlimiter.kept
  | group g => exact fun name l hl => (hlimiter name l hl).kept
  | unlimited => trivial

/-- The counter of a decaying limiter starts within its bounds. -/
def ConfigSound (caps : RateLimitCapabilities) : Prop :=
  ∀ cfg ∈ caps.decaying, 0 ≤ cfg.maxCounter ∧ 0 ≤ cfg.decayRatePerSec

theorem invariant_new {caps : RateLimitCapabilities} (hconfig : ConfigSound caps) :
    (new caps).Invariant 0 := by
  have hgroups : ∀ (pools : List RestLimitPool) (g : GroupRateLimiter),
      (∀ name l, g.groups name = some l → l.Invariant 0 .empty) →
      ∀ name l, (pools.foldl (fun g pool =>
        g.addGroup pool.name pool.maxBudget (fromSecs pool.windowSeconds)) g).groups name = some l →
        l.Invariant 0 .empty := by
    intro pools
    induction pools with
    | nil => exact fun g hg => hg
    | cons pool pools ih =>
      intro g hg
      apply ih
      intro name l hl
      by_cases hname : name = pool.name
      · have hnew :
            (g.addGroup pool.name pool.maxBudget (fromSecs pool.windowSeconds)).groups name =
            some (.new pool.maxBudget (fromSecs pool.windowSeconds)) := by
          rw [hname]
          exact Function.update_self ..
        obtain rfl := Option.some.inj (hl.symm.trans hnew)
        exact WeightRateLimiter.invariant_new _ _
      · have hold :
            (g.addGroup pool.name pool.maxBudget (fromSecs pool.windowSeconds)).groups name =
            g.groups name := Function.update_of_ne hname ..
        exact hg name l (hold.symm.trans hl)
  refine ⟨rfl, ?_⟩
  obtain ⟨model, pools, decaying⟩ := caps
  cases model with
  | simple =>
    cases pools with
    | nil => trivial
    | cons pool pools => exact SimpleRateLimiter.invariant_new _ _
  | weight =>
    cases pools with
    | nil => trivial
    | cons pool pools => exact WeightRateLimiter.invariant_new _ _
  | decaying =>
    cases decaying with
    | none => cases pools <;> trivial
    | some cfg =>
      obtain ⟨hmax, hrate⟩ := hconfig cfg rfl
      cases pools <;> exact DecayingRateLimiter.invariant_new hmax hrate
  | group =>
    have hpools := hgroups pools ⟨fun _ => none⟩ nofun
    cases pools <;> exact hpools
  | unlimited => cases pools <;> trivial

/-- What a grant writes in its own pool. -/
theorem granted_self (granted : Bool) (ledgers : String → Ledger) (pool : String)
    (ledger : Ledger) :
    (if granted then Function.update ledgers pool ledger else ledgers) pool =
      if granted then ledger else ledgers pool := by
  cases granted with
  | false => rfl
  | true => exact Function.update_self ..

/-- A grant writes in no other pool. -/
theorem granted_of_ne (granted : Bool) (ledgers : String → Ledger) {pool name : String}
    (ledger : Ledger) (hne : name ≠ pool) :
    (if granted then Function.update ledgers pool ledger else ledgers) name = ledgers name := by
  cases granted with
  | false => rfl
  | true => exact Function.update_of_ne hne ..

/-- **Step lemma.** A harmless `try_acquire` on a group limiter. -/
theorem Invariant.tryAcquire_group {now later : ℕ} {g : GroupRateLimiter}
    {ledgers : String → Ledger} (h : Invariant now ⟨.group g, ledgers, false⟩) (hle : now ≤ later)
    {group : String} {weight : UInt32}
    (hmeets : Meets ⟨.group g, ledgers, false⟩ (later, .tryAcquire group weight)) :
    (step ⟨.group g, ledgers, false⟩ (later, .tryAcquire group weight)).Invariant later := by
  obtain ⟨-, hlimiter⟩ := h
  cases hgroup : g.groups group with
  | none =>
    have hlimiter' : (g.tryAcquire later group weight) = (g, true) := by
      rw [GroupRateLimiter.tryAcquire, hgroup]
    refine ⟨?_, ?_⟩
    · show (false || (g.groups group).any _) = false
      rw [hgroup]
      rfl
    · show ∀ name l, (g.tryAcquire later group weight).1.groups name = some l →
        l.Invariant later ((if (g.tryAcquire later group weight).2 then
          Function.update ledgers group ((ledgers group).grant later weight.toNat)
          else ledgers) name)
      rw [hlimiter']
      intro name l hl
      have hne : name ≠ group := by
        rintro rfl
        cases hgroup.symm.trans hl
      rw [granted_of_ne _ _ _ hne]
      exact (hlimiter name l hl).mono hle
  | some l₀ =>
    obtain ⟨hnext, hoverflow⟩ := (hlimiter group l₀ hgroup).tryAcquire hle (hmeets l₀ hgroup)
    have hlimiter' : (g.tryAcquire later group weight) =
        ({ groups := Function.update g.groups group (some (l₀.tryAcquire later weight).1) },
          (l₀.tryAcquire later weight).2) := by
      rw [GroupRateLimiter.tryAcquire, hgroup]
    refine ⟨?_, ?_⟩
    · show (false || (g.groups group).any _) = false
      rw [hgroup]
      exact hoverflow
    · show ∀ name l, (g.tryAcquire later group weight).1.groups name = some l →
        l.Invariant later ((if (g.tryAcquire later group weight).2 then
          Function.update ledgers group ((ledgers group).grant later weight.toNat)
          else ledgers) name)
      rw [hlimiter']
      intro name l hl
      dsimp only at hl ⊢
      by_cases hname : name = group
      · subst hname
        rw [Function.update_self] at hl
        obtain rfl := Option.some.inj hl
        rwa [granted_self]
      · rw [Function.update_of_ne hname] at hl
        rw [granted_of_ne _ _ _ hname]
        exact (hlimiter name l hl).mono hle

/-- **Step lemma.** A report within its budget to a group limiter. -/
theorem Invariant.updateFromServer_group {now later : ℕ} {g : GroupRateLimiter}
    {ledgers : String → Ledger} (h : Invariant now ⟨.group g, ledgers, false⟩) (hle : now ≤ later)
    {group : String} {value : UInt32}
    (hmeets : Meets ⟨.group g, ledgers, false⟩ (later, .updateFromServer group value)) :
    (step ⟨.group g, ledgers, false⟩ (later, .updateFromServer group value)).Invariant later := by
  obtain ⟨-, hlimiter⟩ := h
  refine ⟨rfl, ?_⟩
  cases hgroup : g.groups group with
  | none =>
    have hlimiter' : g.updateFromServer later group value = g := by
      rw [GroupRateLimiter.updateFromServer, hgroup]
    show ∀ name l, (g.updateFromServer later group value).groups name = some l →
      l.Invariant later ((match (g.groups group).map fun _ => value.toNat with
        | some used => Function.update ledgers group ((ledgers group).report later used)
        | none => ledgers) name)
    rw [hlimiter', hgroup]
    exact fun name l hl => (hlimiter name l hl).mono hle
  | some l₀ =>
    have hlimiter' : g.updateFromServer later group value =
        { groups := Function.update g.groups group (some (l₀.updateFromServer later value)) } := by
      rw [GroupRateLimiter.updateFromServer, hgroup]
    show ∀ name l, (g.updateFromServer later group value).groups name = some l →
      l.Invariant later ((match (g.groups group).map fun _ => value.toNat with
        | some used => Function.update ledgers group ((ledgers group).report later used)
        | none => ledgers) name)
    rw [hlimiter', hgroup]
    intro name l hl
    dsimp only at hl
    show l.Invariant later
      (Function.update ledgers group ((ledgers group).report later value.toNat) name)
    by_cases hname : name = group
    · subst hname
      rw [Function.update_self] at hl ⊢
      obtain rfl := Option.some.inj hl
      exact (hlimiter name l₀ hgroup).updateFromServer hle (hmeets l₀ hgroup)
    · rw [Function.update_of_ne hname] at hl ⊢
      exact (hlimiter name l hl).mono hle

/-- **Step lemma.** A harmless call, at an instant not before the last. -/
theorem Invariant.step {now : ℕ} {s : Metered} (h : s.Invariant now) {call : ℕ × LimiterCall}
    (hle : now ≤ call.1) (hmeets : s.Meets call) : (s.step call).Invariant call.1 := by
  obtain ⟨limiter, ledgers, overflowed⟩ := s
  obtain ⟨later, call⟩ := call
  obtain ⟨rfl, hlimiter⟩ := h
  cases call with
  | tryAcquire group weight =>
    cases limiter with
    | simple l =>
      refine ⟨rfl, ?_⟩
      show SimpleRateLimiter.Invariant later (l.tryAcquire later).1
        ((if (l.tryAcquire later).2 then
          Function.update ledgers "" ((ledgers "").grant later weight.toNat) else ledgers) "")
      rw [granted_self]
      exact hlimiter.tryAcquire hle (UInt32.le_iff_toNat_le.mp hmeets.1) hmeets.2
    | weight l =>
      obtain ⟨hnext, hoverflow⟩ := hlimiter.tryAcquire hle hmeets
      refine ⟨hoverflow, ?_⟩
      show WeightRateLimiter.Invariant later (l.tryAcquire later weight).1
        ((if (l.tryAcquire later weight).2 then
          Function.update ledgers "" ((ledgers "").grant later weight.toNat) else ledgers) "")
      rwa [granted_self]
    | decaying l =>
      refine ⟨rfl, ?_⟩
      show DecayingRateLimiter.Invariant later (l.tryAcquire later weight.toNat).1
        ((if (l.tryAcquire later weight.toNat).2 then
          Function.update ledgers "" ((ledgers "").grant later weight.toNat) else ledgers) "")
      rw [granted_self]
      exact hlimiter.tryAcquire hle weight.toNat
    | group g => exact Invariant.tryAcquire_group ⟨rfl, hlimiter⟩ hle hmeets
    | unlimited => exact ⟨rfl, trivial⟩
  | updateFromServer group value =>
    cases limiter with
    | simple l =>
      refine ⟨rfl, ?_⟩
      show SimpleRateLimiter.Invariant later (l.updateFromServer later value)
        (Function.update ledgers "" ((ledgers "").report later (l.used value)) "")
      rw [Function.update_self]
      exact hlimiter.updateFromServer hle value
    | weight l =>
      refine ⟨rfl, ?_⟩
      show WeightRateLimiter.Invariant later (l.updateFromServer later value)
        (Function.update ledgers "" ((ledgers "").report later value.toNat) "")
      rw [Function.update_self]
      exact hlimiter.updateFromServer hle hmeets
    | decaying l => exact ⟨rfl, hlimiter.mono hle⟩
    | group g => exact Invariant.updateFromServer_group ⟨rfl, hlimiter⟩ hle hmeets
    | unlimited => exact ⟨rfl, trivial⟩

/-- The instant of the last call. -/
def lastInstant (calls : List (ℕ × LimiterCall)) : ℕ := (calls.getLast?.map Prod.fst).getD 0

/-- **Run lemma.** Harmless calls, at instants that do not decrease. -/
theorem invariant_run {caps : RateLimitCapabilities} (hconfig : ConfigSound caps)
    {calls : List (ℕ × LimiterCall)} (hsorted : calls.Pairwise fun call call' => call.1 ≤ call'.1)
    (hmeets : StepsMeet step (new caps) Meets calls) :
    (run caps calls).Invariant (lastInstant calls) := by
  induction calls using List.reverseRecOn with
  | nil => exact invariant_new hconfig
  | append_singleton calls call ih =>
    obtain ⟨hfront, hcall⟩ := stepsMeet_concat.mp hmeets
    obtain ⟨hsorted', -, hlast⟩ := List.pairwise_append.mp hsorted
    have hle : lastInstant calls ≤ call.1 := by
      unfold lastInstant
      cases hend : calls.getLast? with
      | none => exact Nat.zero_le _
      | some before => exact hlast before (List.mem_of_getLast? hend) call (by simp)
    have hinstant : lastInstant (calls ++ [call]) = call.1 := by
      rw [lastInstant, List.getLast?_concat]
      rfl
    rw [run, List.foldl_concat, hinstant]
    exact (ih hsorted' hfront).step hle hcall

/-! ## Groups do not interfere -/

/-- The call is not a report for the group `other`. -/
def NotReportFor (other : String) (call : ℕ × LimiterCall) : Bool :=
  match call.2 with
  | .updateFromServer group _ => decide (group ≠ other)
  | .tryAcquire _ _ => true

/-- The limiter and the ledger of one group. -/
def groupView (group : String) (s : Metered) : Option WeightRateLimiter × Ledger :=
  (match s.limiter with
    | .group g => g.groups group
    | _ => none, s.ledgers group)

/-- One call, as the limiter of `group` sees it: only calls for the group count. -/
def stepView (group : String) (v : Option WeightRateLimiter × Ledger) (call : ℕ × LimiterCall) :
    Option WeightRateLimiter × Ledger :=
  match call.2 with
  | .tryAcquire name weight =>
    if group = name then
      match v.1 with
      | some l =>
        (some (l.tryAcquire call.1 weight).1,
          if (l.tryAcquire call.1 weight).2 then v.2.grant call.1 weight.toNat else v.2)
      | none => (none, v.2.grant call.1 weight.toNat)
    else v
  | .updateFromServer name value =>
    if group = name then
      match v.1 with
      | some l => (some (l.updateFromServer call.1 value), v.2.report call.1 value.toNat)
      | none => v
    else v

/-- **Step lemma.** A group limiter is, group by group, a weight limiter. -/
theorem groupView_step {s : Metered} {g : GroupRateLimiter} (h : s.limiter = .group g)
    (group : String) (call : ℕ × LimiterCall) :
    (∃ g', (s.step call).limiter = .group g') ∧
      groupView group (s.step call) = stepView group (groupView group s) call := by
  obtain ⟨limiter, ledgers, overflowed⟩ := s
  obtain rfl : limiter = .group g := h
  obtain ⟨now, call⟩ := call
  cases call with
  | tryAcquire name weight =>
    refine ⟨⟨(g.tryAcquire now name weight).1, rfl⟩, ?_⟩
    show ((g.tryAcquire now name weight).1.groups group,
      (if (g.tryAcquire now name weight).2 then
        Function.update ledgers name ((ledgers name).grant now weight.toNat)
        else ledgers) group) = stepView group (g.groups group, ledgers group) _
    unfold GroupRateLimiter.tryAcquire stepView
    dsimp only
    by_cases hname : group = name
    · subst hname
      rw [if_pos rfl]
      cases hgroup : g.groups group with
      | none =>
        rw [granted_self]
        exact Prod.ext hgroup rfl
      | some l =>
        rw [granted_self]
        exact Prod.ext (Function.update_self ..) rfl
    · rw [if_neg hname]
      cases hgroup : g.groups name with
      | none =>
        rw [granted_of_ne _ _ _ hname]
      | some l =>
        rw [granted_of_ne _ _ _ hname]
        exact Prod.ext (Function.update_of_ne hname ..) rfl
  | updateFromServer name value =>
    refine ⟨⟨g.updateFromServer now name value, rfl⟩, ?_⟩
    show ((g.updateFromServer now name value).groups group,
      (match (g.groups name).map fun _ => value.toNat with
        | some used => Function.update ledgers name ((ledgers name).report now used)
        | none => ledgers) group) = stepView group (g.groups group, ledgers group) _
    unfold GroupRateLimiter.updateFromServer stepView
    dsimp only
    by_cases hname : group = name
    · subst hname
      rw [if_pos rfl]
      cases hgroup : g.groups group with
      | none => exact Prod.ext hgroup rfl
      | some l => exact Prod.ext (Function.update_self ..) (Function.update_self ..)
    · rw [if_neg hname]
      cases hgroup : g.groups name with
      | none => rfl
      | some l => exact Prod.ext (Function.update_of_ne hname ..) (Function.update_of_ne hname ..)

/-- **Run lemma.** What a group grants is what its own calls make of it. -/
theorem groupView_foldl {s : Metered} {g : GroupRateLimiter} (h : s.limiter = .group g)
    (group : String) (calls : List (ℕ × LimiterCall)) :
    groupView group (calls.foldl step s) = calls.foldl (stepView group) (groupView group s) := by
  induction calls generalizing s g with
  | nil => rfl
  | cons call calls ih =>
    obtain ⟨⟨g', hg'⟩, hview⟩ := groupView_step h group call
    rw [List.foldl_cons, List.foldl_cons, ih hg', hview]

/-- Reports for another group change nothing in what a group grants. -/
theorem grants_filter_reports {caps : RateLimitCapabilities} (hmodel : caps.model = .group)
    {group other : String} (hne : group ≠ other) (calls : List (ℕ × LimiterCall)) :
    ((run caps (calls.filter (NotReportFor other))).ledgers group).grants =
      ((run caps calls).ledgers group).grants := by
  obtain ⟨g, hg⟩ : ∃ g, (new caps).limiter = .group g := by
    obtain ⟨model, pools, decaying⟩ := caps
    obtain rfl : model = .group := hmodel
    cases pools <;> exact ⟨_, rfl⟩
  have hfilter : ∀ v, (calls.filter (NotReportFor other)).foldl (stepView group) v =
      calls.foldl (stepView group) v := by
    induction calls with
    | nil => exact fun v => rfl
    | cons call calls ih =>
      intro v
      obtain ⟨now, call⟩ := call
      cases call with
      | tryAcquire name weight => exact ih _
      | updateFromServer name value =>
        by_cases hname : name = other
        · have hskip : NotReportFor other (now, .updateFromServer name value) = false := by
            simp [NotReportFor, hname]
          have hstay : stepView group v (now, .updateFromServer name value) = v :=
            if_neg (hname ▸ hne)
          rw [List.filter_cons_of_neg (by rw [hskip]; exact Bool.false_ne_true), List.foldl_cons,
            hstay]
          exact ih v
        · have hkeep : NotReportFor other (now, .updateFromServer name value) = true := by
            simp [NotReportFor, hname]
          rw [List.filter_cons_of_pos hkeep]
          exact ih _
  have hleft := groupView_foldl hg group (calls.filter (NotReportFor other))
  have hright := groupView_foldl hg group calls
  have hledger : (run caps (calls.filter (NotReportFor other))).ledgers group =
      (run caps calls).ledgers group := by
    rw [hfilter, ← hright] at hleft
    exact congrArg Prod.snd hleft
  rw [hledger]

/-! ## The budget over a run -/

/-- **Main theorem.** Harmless calls keep every budget, and a report for one group changes nothing
    that another grants. -/
theorem budget_kept_run {caps : RateLimitCapabilities} (hconfig : ConfigSound caps)
    {calls : List (ℕ × LimiterCall)} (hsorted : calls.Pairwise fun call call' => call.1 ≤ call'.1)
    (hmeets : StepsMeet step (new caps) Meets calls) :
    (∀ pre, pre <+: calls → (run caps pre).BudgetKept) ∧
      (caps.model = .group → ∀ group other, group ≠ other →
        ((run caps (calls.filter (NotReportFor other))).ledgers group).grants =
          ((run caps calls).ledgers group).grants) := by
  refine ⟨fun pre hpre => ?_, fun hmodel group other hne => grants_filter_reports hmodel hne calls⟩
  have hsteps : StepsMeet step (new caps) Meets pre :=
    fun pre' call h => hmeets pre' call (h.trans hpre)
  exact (invariant_run hconfig (hsorted.sublist hpre.sublist) hsteps).budgetKept

/-- A weight limiter of ten per second. -/
def tenPerSecond : RateLimitCapabilities :=
  { model := .weight, restPools := [⟨"default", 10, 1⟩], decaying := none }

theorem budget_kept_run_two :
    (run tenPerSecond [(0, .tryAcquire "" 4), (5, .updateFromServer "" 4)]).BudgetKept := by
  have hconfig : ConfigSound tenPerSecond := nofun
  refine (budget_kept_run hconfig ?_ ?_).1 _ (List.prefix_refl _)
  · simp
  · simp only [stepsMeet_cons]
    refine ⟨⟨by decide, ?_⟩, ?_, stepsMeet_nil _⟩
    · rintro ⟨r, hr, -⟩
      cases hr
    · show (4 : UInt32) ≤ 10
      decide

/-- The server reports four of ten used; after that the limiter grants four, and four again. -/
theorem report_hides_grants :
    ¬ ∀ caps, ConfigSound caps → ∀ calls : List (ℕ × LimiterCall),
      calls.Pairwise (fun call call' => call.1 ≤ call'.1) → (run caps calls).BudgetKept := by
  intro h
  have hkept := (h tenPerSecond nofun
    [(0, .updateFromServer "" 4), (1, .tryAcquire "" 4), (2, .tryAcquire "" 4)] (by simp)).2
  have hreport := hkept.reports (0, 4) (by decide) 2 (by decide)
  exact absurd hreport (by decide)

end Metered

end Digdigdig3
