import Digdigdig3.Core.RateLimiter

/-!
# Waiting for a rate limiter

`time_until_ready` of the limiters of `crates/digdigdig3/src/core/utils/rate_limiter.rs`, beside
`try_acquire`, for every state that calls lead to from a new limiter.

* `SimpleRateLimiter.tellsTruthAt`: the simple limiter is right.
* `WeightRateLimiter.tellsTruthAt_iff`: the weight limiter adds up its own entries, also where its
  current weight is a report of the server; it is right just when they free what is missing, and
  no later than the report expires.
* `DecayingRateLimiter.tellsTruthAt_iff`: the wait is rounded to a nanosecond, and falls short where
  it is rounded down.
-/

namespace Digdigdig3

/-- `wait` is what `time_until_ready` returns, `none` for a panic; `succeeds d` is whether
    `try_acquire` succeeds `d` later. -/
def TellsTruth (wait : Option ℕ) (succeeds : ℕ → Bool) : Prop :=
  ∃ d, wait = some d ∧ (d = 0 ↔ succeeds 0 = true) ∧ (0 < d → succeeds d = true)

/-- Where it succeeds at once, the wait has to be zero. -/
theorem tellsTruth_of_ready {succeeds : ℕ → Bool} (h : succeeds 0 = true) :
    TellsTruth (some 0) succeeds :=
  ⟨0, rfl, iff_of_true rfl h, fun hd => absurd hd (lt_irrefl 0)⟩

/-- Where it does not, the wait has to be one after which it does. -/
theorem tellsTruth_iff_of_not_ready {succeeds : ℕ → Bool} (h : succeeds 0 = false) (d : ℕ) :
    TellsTruth (some d) succeeds ↔ 0 < d ∧ succeeds d = true := by
  constructor
  · rintro ⟨_, ⟨⟩, hzero, hpos⟩
    have hd : 0 < d := by
      by_contra hd
      have hready := hzero.mp (by omega)
      rw [h] at hready
      cases hready
    exact ⟨hd, hpos hd⟩
  · rintro ⟨hd, hsucceeds⟩
    refine ⟨d, rfl, iff_of_false (by omega) ?_, fun _ => hsucceeds⟩
    rw [h]
    exact Bool.false_ne_true

/-- Entries that go along with time lose just what has expired. -/
theorem unexpired_eq_filter {α : Type*} {at_ : α → ℕ} {window now : ℕ} {entries : List α}
    (hsorted : entries.Pairwise fun e e' => at_ e ≤ at_ e')
    (hentries : ∀ e ∈ entries, at_ e ≤ now) :
    unexpired at_ window now entries =
      entries.filter fun e => decide (Ledger.Fresh window now (at_ e)) := by
  rw [← filter_fresh_unexpired (le_refl now) hentries]
  refine (List.filter_eq_self.mpr fun e he => ?_).symm
  exact decide_eq_true (fresh_of_mem_unexpired hsorted he)

/-! ## The simple limiter -/

namespace SimpleRateLimiter

/-- `time_until_ready` (lines 136–152). -/
def timeUntilReady (now : ℕ) (l : SimpleRateLimiter) : ℕ :=
  if l.requests.length < l.maxRequests.toNat then 0
  else
    match l.requests.head? with
    | some oldest => if l.window ≤ now - oldest then 0 else l.window - (now - oldest)
    | none => 0

/-- The calls that change a limiter; `current_count` and `remaining` only clean it. -/
inductive Call
  | tryAcquire
  | updateFromServer (remaining : UInt32)
  | currentCount

def call (now : ℕ) (c : Call) (l : SimpleRateLimiter) : SimpleRateLimiter :=
  match c with
  | .tryAcquire => (l.tryAcquire now).1
  | .updateFromServer remaining => l.updateFromServer now remaining
  | .currentCount => l.cleanup now

/-- What calls lead to from a new limiter. -/
def Reached : ℕ → SimpleRateLimiter → Prop :=
  ReachedAt call fun _ l => ∃ maxRequests window, l = new maxRequests window

/-- The requests go along with time, and there are no more than the maximum. -/
structure Bounded (now : ℕ) (l : SimpleRateLimiter) : Prop where
  sorted : l.requests.Pairwise (· ≤ ·)
  requests_le : ∀ t ∈ l.requests, t ≤ now
  length_le : l.requests.length ≤ l.maxRequests.toNat

variable {now later : ℕ} {l : SimpleRateLimiter}

theorem Bounded.cleanup (h : l.Bounded now) : (l.cleanup now).Bounded now where
  sorted := h.sorted.sublist (unexpired_sublist _ _ _ _)
  requests_le := fun t ht => h.requests_le t ((unexpired_sublist _ _ _ _).subset ht)
  length_le := (unexpired_sublist _ _ _ _).length_le.trans h.length_le

theorem Bounded.tryAcquire (h : l.Bounded now) : (l.tryAcquire now).1.Bounded now := by
  have hclean := h.cleanup
  rw [SimpleRateLimiter.tryAcquire]
  split_ifs with hroom
  · refine ⟨List.pairwise_append.mpr ⟨hclean.sorted, List.pairwise_singleton _ _, ?_⟩, ?_, ?_⟩
    · intro t ht t' ht'
      rw [List.mem_singleton.mp ht']
      exact hclean.requests_le t ht
    · intro t ht
      rcases List.mem_append.mp ht with ht | ht
      · exact hclean.requests_le t ht
      · rw [List.mem_singleton.mp ht]
    · show (_ ++ [now]).length ≤ _
      rw [List.length_append, List.length_singleton]
      exact hroom
  · exact hclean

theorem bounded_updateFromServer (now : ℕ) (remaining : UInt32) (l : SimpleRateLimiter) :
    (l.updateFromServer now remaining).Bounded now where
  sorted := List.pairwise_replicate.mpr (.inr (le_refl now))
  requests_le := fun _ ht => (List.eq_of_mem_replicate ht).le
  length_le := by
    show (List.replicate _ now).length ≤ _
    rw [List.length_replicate]
    exact Nat.sub_le _ _

theorem Reached.bounded (h : Reached now l) : l.Bounded now := by
  refine ReachedAt.invariant Bounded h ?_ ?_ ?_
  · rintro now l ⟨maxRequests, window, rfl⟩
    exact ⟨List.Pairwise.nil, by simp [new], Nat.zero_le _⟩
  · intro now later l hle h
    exact ⟨h.sorted, fun t ht => (h.requests_le t ht).trans hle, h.length_le⟩
  · intro now l c h
    cases c with
    | tryAcquire => exact h.tryAcquire
    | updateFromServer remaining => exact bounded_updateFromServer now remaining l
    | currentCount => exact h.cleanup

theorem tryAcquire_snd (now : ℕ) (l : SimpleRateLimiter) :
    (l.tryAcquire now).2 = decide ((l.cleanup now).requests.length < l.maxRequests.toNat) := by
  rw [tryAcquire]
  split_ifs with h
  · exact (decide_eq_true h).symm
  · exact (decide_eq_false h).symm

/-- Once the oldest request has expired there is room. -/
theorem Bounded.length_cleanup_lt (h : l.Bounded now) {oldest : ℕ} {requests : List ℕ}
    (hrequests : l.requests = oldest :: requests) (hexpired : l.window ≤ later - oldest) :
    (l.cleanup later).requests.length < l.maxRequests.toNat := by
  have hcleanup : (l.cleanup later).requests = unexpired id l.window later requests := by
    show unexpired id l.window later l.requests = _
    rw [hrequests, unexpired_cons]
    exact if_pos hexpired
  have hle := (unexpired_sublist id l.window later requests).length_le
  have hlen := h.length_le
  rw [hrequests, List.length_cons] at hlen
  rw [hcleanup]
  omega

/-- A wait of the limiter, and what a call after it gives. -/
def TellsTruthAt (now : ℕ) (l : SimpleRateLimiter) : Prop :=
  TellsTruth (some (l.timeUntilReady now)) fun d => (l.tryAcquire (now + d)).2

/-- **Main theorem.** With room for one request at all, the simple limiter tells the truth. -/
theorem tellsTruthAt (h : Reached now l) (hmax : 0 < l.maxRequests.toNat) :
    l.TellsTruthAt now := by
  have hbounded := h.bounded
  rw [TellsTruthAt, timeUntilReady]
  split_ifs with hroom
  · apply tellsTruth_of_ready
    show (l.tryAcquire now).2 = true
    rw [tryAcquire_snd, decide_eq_true_eq]
    exact (unexpired_sublist _ _ _ _).length_le.trans_lt hroom
  · cases hrequests : l.requests with
    | nil =>
      rw [hrequests] at hroom
      exact absurd hmax hroom
    | cons oldest requests =>
      simp only [List.head?_cons]
      split_ifs with hexpired
      · apply tellsTruth_of_ready
        show (l.tryAcquire now).2 = true
        rw [tryAcquire_snd, decide_eq_true_eq]
        exact hbounded.length_cleanup_lt hrequests hexpired
      · have hbusy : (l.tryAcquire (now + 0)).2 = false := by
          have hall : (l.cleanup now).requests = l.requests := by
            show unexpired id l.window now l.requests = _
            rw [hrequests, unexpired_cons]
            exact if_neg hexpired
          rw [tryAcquire_snd, Nat.add_zero, hall]
          exact decide_eq_false hroom
        rw [tellsTruth_iff_of_not_ready hbusy]
        refine ⟨by omega, ?_⟩
        rw [tryAcquire_snd, decide_eq_true_eq]
        refine hbounded.length_cleanup_lt hrequests ?_
        have := hbounded.requests_le oldest (by rw [hrequests]; exact List.mem_cons_self)
        omega

end SimpleRateLimiter

/-! ## The weight limiter -/

namespace WeightRateLimiter

/-- The loop of `time_until_ready` (lines 300–310). -/
def waitFor (window now : ℕ) (needed : UInt32) : UInt32 → List (ℕ × UInt32) → ℕ
  | _, [] => 0
  | accumulated, (timestamp, entryWeight) :: entries =>
    if needed ≤ accumulated + entryWeight then
      if window ≤ now - timestamp then 0 else window - (now - timestamp)
    else waitFor window now needed (accumulated + entryWeight) entries

/-- `time_until_ready` (lines 289–312), with the wrap-around of a release build. -/
def timeUntilReady (now : ℕ) (weight : UInt32) (l : WeightRateLimiter) : WeightRateLimiter × ℕ :=
  let (l, current) := l.currentWeight now
  if current + weight ≤ l.maxWeight then (l, 0)
  else (l, waitFor l.window now (current + weight - l.maxWeight) 0 l.entries)

/-- The calls that change a limiter; `time_until_ready`, `current_weight` and `remaining` only clean
    it. -/
inductive Call
  | tryAcquire (weight : UInt32)
  | updateFromServer (usedWeight : UInt32)
  | currentWeight

def call (now : ℕ) (c : Call) (l : WeightRateLimiter) : WeightRateLimiter :=
  match c with
  | .tryAcquire weight => (l.tryAcquire now weight).1
  | .updateFromServer usedWeight => l.updateFromServer now usedWeight
  | .currentWeight => (l.currentWeight now).1

/-- What calls lead to from a new limiter. -/
def Reached : ℕ → WeightRateLimiter → Prop :=
  ReachedAt call fun _ l => ∃ maxWeight window, l = new maxWeight window

/-- The weight fits: `try_acquire` succeeds. -/
def Fits (now : ℕ) (weight : UInt32) (l : WeightRateLimiter) : Prop :=
  (l.currentWeight now).2 + weight ≤ l.maxWeight

instance (now : ℕ) (weight : UInt32) (l : WeightRateLimiter) : Decidable (l.Fits now weight) :=
  inferInstanceAs (Decidable (_ ≤ _))

/-- What is missing for the weight to fit. -/
def needed (now : ℕ) (weight : UInt32) (l : WeightRateLimiter) : UInt32 :=
  (l.currentWeight now).2 + weight - l.maxWeight

/-- The weights of some entries. -/
def sumOf (entries : List (ℕ × UInt32)) : UInt32 := entries.foldl (fun sum entry => sum + entry.2) 0

/-- The report of the server, with its instant. -/
def report (l : WeightRateLimiter) : Option (ℕ × UInt32) :=
  match l.lastServerUsed, l.lastServerUpdate with
  | some used, some serverTime => some (serverTime, used)
  | _, _ => none

/-- The own entries give back what is missing at the expiry of the one taken at `t`: it is the
    first with which they reach what is missing, a report that counts is not younger, and the
    entries after `t` leave room for the weight. -/
structure FreedAt (now : ℕ) (weight : UInt32) (l : WeightRateLimiter) (t : ℕ) : Prop where
  reaches : ∃ older entryWeight newer,
    (l.cleanup now).entries = older ++ (t, entryWeight) :: newer ∧
      (∀ pre, pre <+: older → sumOf pre < l.needed now weight) ∧
        l.needed now weight ≤ sumOf (older ++ [(t, entryWeight)])
  report_le : ∀ r ∈ (l.cleanup now).report, r.1 ≤ t
  room : sumOf ((l.cleanup now).entries.filter fun e => decide (t < e.1)) + weight ≤ l.maxWeight

variable {now later : ℕ} {l : WeightRateLimiter} {weight : UInt32}

/-! ### What a run keeps -/

/-- The entries go along with time. -/
structure Ordered (now : ℕ) (l : WeightRateLimiter) : Prop where
  sorted : l.entries.Pairwise fun e e' => e.1 ≤ e'.1
  entries_le : ∀ e ∈ l.entries, e.1 ≤ now

theorem Ordered.cleanup (h : l.Ordered now) : (l.cleanup now).Ordered now where
  sorted := h.sorted.sublist (unexpired_sublist _ _ _ _)
  entries_le := fun e he => h.entries_le e ((unexpired_sublist _ _ _ _).subset he)

theorem Ordered.tryAcquire (h : l.Ordered now) : (l.tryAcquire now weight).1.Ordered now := by
  have hclean := h.cleanup
  rw [tryAcquire_eq]
  split_ifs
  · refine ⟨List.pairwise_append.mpr ⟨hclean.sorted, List.pairwise_singleton _ _, ?_⟩, ?_⟩
    · intro e he e' he'
      rw [List.mem_singleton.mp he']
      exact hclean.entries_le e he
    · intro e he
      rcases List.mem_append.mp he with he | he
      · exact hclean.entries_le e he
      · rw [List.mem_singleton.mp he]
  · exact hclean

theorem Reached.ordered (h : Reached now l) : l.Ordered now := by
  refine ReachedAt.invariant Ordered h ?_ ?_ ?_
  · rintro now l ⟨maxWeight, window, rfl⟩
    exact ⟨List.Pairwise.nil, by simp [new]⟩
  · intro now later l hle h
    exact ⟨h.sorted, fun e he => (h.entries_le e he).trans hle⟩
  · intro now l c h
    cases c with
    | tryAcquire weight => exact h.tryAcquire
    | updateFromServer usedWeight => exact ⟨h.sorted, h.entries_le⟩
    | currentWeight => exact h.cleanup

/-! ### The current weight, now and later -/

theorem report_cleanup (now : ℕ) (l : WeightRateLimiter) :
    (l.cleanup now).report = l.report.filter fun r => decide (now - r.1 < l.window) := by
  obtain ⟨maxWeight, window, entries, used, update⟩ := l
  unfold report cleanup serverTooOld
  cases update with
  | none => cases used <;> simp
  | some serverTime =>
    by_cases hold : window ≤ now - serverTime
    · have hnot : ¬now - serverTime < window := not_lt.mpr hold
      cases used <;> simp [hold, hnot, Option.filter]
    · have hlt : now - serverTime < window := not_le.mp hold
      cases used <;> simp [hold, hlt, Option.filter]

theorem serverWeight_eq (now : ℕ) (l : WeightRateLimiter) :
    l.serverWeight now =
      (l.report.filter fun r => decide (now - r.1 < l.window)).map Prod.snd := by
  unfold serverWeight report
  cases l.lastServerUsed with
  | none => simp
  | some used =>
    cases l.lastServerUpdate with
    | none => simp
    | some serverTime =>
      by_cases hlt : now - serverTime < l.window
      · simp [hlt, Option.filter]
      · simp [hlt, Option.filter]

/-- The report where there is one left, and the own entries otherwise. -/
theorem currentWeight_snd (now : ℕ) (l : WeightRateLimiter) :
    (l.currentWeight now).2 =
      ((l.cleanup now).report.map Prod.snd).getD (sumOf (l.cleanup now).entries) := by
  show ((l.cleanup now).serverWeight now).getD _ = _
  have hreport : (l.cleanup now).report.filter (fun r => decide (now - r.1 < l.window)) =
      (l.cleanup now).report := by
    rw [report_cleanup]
    cases l.report with
    | none => rfl
    | some r => by_cases hlt : now - r.1 < l.window <;> simp [hlt, Option.filter]
  rw [serverWeight_eq, window_cleanup, hreport]
  rfl

theorem tryAcquire_snd (now : ℕ) (weight : UInt32) (l : WeightRateLimiter) :
    (l.tryAcquire now weight).2 = decide (l.Fits now weight) := by
  rw [tryAcquire_eq]
  split_ifs with h
  · exact (decide_eq_true h).symm
  · exact (decide_eq_false h).symm

theorem fits_cleanup : (l.cleanup now).Fits now weight ↔ l.Fits now weight := by
  rw [Fits, Fits, currentWeight_snd, currentWeight_snd, cleanup_cleanup]
  rfl

theorem timeUntilReady_fst (now : ℕ) (weight : UInt32) (l : WeightRateLimiter) :
    (l.timeUntilReady now weight).1 = l.cleanup now := by
  unfold timeUntilReady
  dsimp only
  split_ifs <;> rfl

/-- When the entry taken at `t` expires, a report counts if it is younger, and so do the entries
    after `t`. -/
theorem Ordered.currentWeight_expiry (h : l.Ordered now) {t : ℕ} (ht : t ≤ now)
    (hfresh : now - t < l.window) :
    ((l.cleanup now).currentWeight (now + (l.window - (now - t)))).2 =
      (((l.cleanup now).report.filter fun r => decide (t < r.1)).map Prod.snd).getD
        (sumOf ((l.cleanup now).entries.filter fun e => decide (t < e.1))) := by
  have hinstant : now + (l.window - (now - t)) = t + l.window := by omega
  rw [hinstant, currentWeight_snd, report_cleanup]
  have hclean := h.cleanup
  have hentries : ((l.cleanup now).cleanup (t + l.window)).entries =
      (l.cleanup now).entries.filter fun e => decide (t < e.1) := by
    have hle : ∀ e ∈ (l.cleanup now).entries, e.1 ≤ t + l.window := fun e he =>
      (hclean.entries_le e he).trans (by omega)
    refine (unexpired_eq_filter hclean.sorted hle).trans (List.filter_congr fun e _ => ?_)
    rw [decide_eq_decide]
    show t + l.window < e.1 + l.window ↔ t < e.1
    omega
  have hreport : (l.cleanup now).report.filter
        (fun r => decide (t + l.window - r.1 < (l.cleanup now).window)) =
      (l.cleanup now).report.filter fun r => decide (t < r.1) := by
    cases (l.cleanup now).report with
    | none => rfl
    | some r =>
      have hiff : t + l.window - r.1 < l.window ↔ t < r.1 := by omega
      simp only [Option.filter, window_cleanup, hiff]
  rw [hentries, hreport]

/-! ### The loop -/

theorem sumOf_eq_foldl (entries : List (ℕ × UInt32)) (accumulated : UInt32) :
    entries.foldl (fun sum entry => sum + entry.2) accumulated = accumulated + sumOf entries := by
  induction entries generalizing accumulated with
  | nil => exact (UInt32.add_zero _).symm
  | cons e entries ih =>
    rw [sumOf, List.foldl_cons, List.foldl_cons, ih, ih, UInt32.zero_add, UInt32.add_assoc]

theorem sumOf_cons (e : ℕ × UInt32) (entries : List (ℕ × UInt32)) :
    sumOf (e :: entries) = e.2 + sumOf entries := by
  rw [sumOf, List.foldl_cons, sumOf_eq_foldl, UInt32.zero_add]

/-- The first entry with which what is needed is reached, if there is one. -/
theorem exists_reaches (target : UInt32) (entries : List (ℕ × UInt32)) {accumulated : UInt32}
    (hacc : accumulated < target) :
    (∃ older t entryWeight newer, entries = older ++ (t, entryWeight) :: newer ∧
      (∀ pre, pre <+: older → accumulated + sumOf pre < target) ∧
        target ≤ accumulated + sumOf (older ++ [(t, entryWeight)])) ∨
      ∀ pre, pre <+: entries → accumulated + sumOf pre < target := by
  have hnil : accumulated + sumOf [] < target := by
    rw [show sumOf [] = 0 from rfl, UInt32.add_zero]
    exact hacc
  induction entries generalizing accumulated with
  | nil =>
    right
    intro pre hpre
    rw [List.prefix_nil.mp hpre]
    exact hnil
  | cons e entries ih =>
    have hextend : ∀ pre, accumulated + sumOf (e :: pre) = accumulated + e.2 + sumOf pre := by
      intro pre
      rw [sumOf_cons, UInt32.add_assoc]
    by_cases hreach : target ≤ accumulated + e.2
    · left
      refine ⟨[], e.1, e.2, entries, rfl, ?_, ?_⟩
      · intro pre hpre
        rw [List.prefix_nil.mp hpre]
        exact hnil
      · rw [List.nil_append, hextend, show sumOf [] = 0 from rfl, UInt32.add_zero]
        exact hreach
    · have hlt : accumulated + e.2 < target := UInt32.not_le.mp hreach
      have hnext : accumulated + e.2 + sumOf [] < target := by
        rw [show sumOf [] = 0 from rfl, UInt32.add_zero]
        exact hlt
      have hcons : ∀ {entries' : List (ℕ × UInt32)},
          (∀ pre, pre <+: entries' → accumulated + e.2 + sumOf pre < target) →
            ∀ pre, pre <+: e :: entries' → accumulated + sumOf pre < target := by
        intro entries' h pre hpre
        rcases List.prefix_cons_iff.mp hpre with rfl | ⟨rest, rfl, hrest⟩
        · exact hnil
        · rw [hextend]
          exact h rest hrest
      rcases ih hlt hnext with ⟨older, t, entryWeight, newer, rfl, hbelow, hreaches⟩ | hnever
      · left
        refine ⟨e :: older, t, entryWeight, newer, rfl, hcons hbelow, ?_⟩
        rw [List.cons_append, hextend]
        exact hreaches
      · exact .inr (hcons hnever)

/-- The loop returns what is left of the window of that entry. -/
theorem waitFor_append {window t : ℕ} {target entryWeight accumulated : UInt32}
    {older newer : List (ℕ × UInt32)}
    (hbelow : ∀ pre, pre <+: older → accumulated + sumOf pre < target)
    (hreaches : target ≤ accumulated + sumOf (older ++ [(t, entryWeight)]))
    (hfresh : now - t < window) :
    waitFor window now target accumulated (older ++ (t, entryWeight) :: newer) =
      window - (now - t) := by
  induction older generalizing accumulated with
  | nil =>
    rw [List.nil_append, sumOf_cons, show sumOf [] = 0 from rfl, UInt32.add_zero] at hreaches
    rw [List.nil_append, waitFor, if_pos hreaches, if_neg (not_le.mpr hfresh)]
  | cons e older ih =>
    obtain ⟨timestamp, weight⟩ := e
    have hfirst : accumulated + weight < target := by
      have := hbelow [(timestamp, weight)] ⟨older, rfl⟩
      rwa [sumOf_cons, show sumOf [] = 0 from rfl, UInt32.add_zero] at this
    rw [List.cons_append, waitFor, if_neg (UInt32.not_le.mpr hfirst)]
    apply ih
    · intro pre hpre
      have := hbelow ((timestamp, weight) :: pre) (List.cons_prefix_cons.mpr ⟨rfl, hpre⟩)
      rwa [sumOf_cons, ← UInt32.add_assoc] at this
    · rwa [List.cons_append, sumOf_cons, ← UInt32.add_assoc] at hreaches

/-- Where no entry reaches it, the loop falls through to zero. -/
theorem waitFor_of_never {window : ℕ} {target accumulated : UInt32}
    {entries : List (ℕ × UInt32)}
    (hnever : ∀ pre, pre <+: entries → accumulated + sumOf pre < target) :
    waitFor window now target accumulated entries = 0 := by
  induction entries generalizing accumulated with
  | nil => rfl
  | cons e entries ih =>
    obtain ⟨timestamp, weight⟩ := e
    have hfirst : accumulated + weight < target := by
      have := hnever [(timestamp, weight)] ⟨entries, rfl⟩
      rwa [sumOf_cons, show sumOf [] = 0 from rfl, UInt32.add_zero] at this
    rw [waitFor, if_neg (UInt32.not_le.mpr hfirst)]
    apply ih
    intro pre hpre
    have := hnever ((timestamp, weight) :: pre) (List.cons_prefix_cons.mpr ⟨rfl, hpre⟩)
    rwa [sumOf_cons, ← UInt32.add_assoc] at this

/-! ### Truth -/

theorem needed_pos (h : ¬l.Fits now weight) : 0 < l.needed now weight := by
  have hlt : l.maxWeight < (l.currentWeight now).2 + weight := UInt32.not_le.mp h
  rw [UInt32.lt_iff_toNat_lt] at hlt ⊢
  rw [needed, UInt32.toNat_sub_of_le _ _ (UInt32.le_iff_toNat_le.mpr hlt.le)]
  exact Nat.sub_pos_of_lt hlt

theorem timeUntilReady_of_fits (h : l.Fits now weight) : (l.timeUntilReady now weight).2 = 0 := by
  unfold timeUntilReady
  exact congrArg Prod.snd (if_pos h)

theorem timeUntilReady_of_not_fits (h : ¬l.Fits now weight) :
    (l.timeUntilReady now weight).2 =
      waitFor l.window now (l.needed now weight) 0 (l.cleanup now).entries := by
  unfold timeUntilReady
  exact congrArg Prod.snd (if_neg h)

/-- With room again at the expiry of the entry taken at `t`, the wait for it is right. -/
theorem Ordered.fits_expiry (h : l.Ordered now) {t : ℕ} (ht : t ≤ now)
    (hfresh : now - t < l.window) (hfits : ¬l.Fits now weight) :
    (l.cleanup now).Fits (now + (l.window - (now - t))) weight ↔
      (∀ r ∈ (l.cleanup now).report, r.1 ≤ t) ∧
        sumOf ((l.cleanup now).entries.filter fun e => decide (t < e.1)) + weight ≤
          l.maxWeight := by
  rw [Fits, h.currentWeight_expiry ht hfresh]
  cases hreport : (l.cleanup now).report with
  | none => simp
  | some r =>
    by_cases hr : t < r.1
    · -- the same report still counts, and leaves as little room
      have hcurrent : (l.currentWeight now).2 = r.2 := by
        rw [currentWeight_snd, hreport]
        rfl
      rw [Fits, hcurrent] at hfits
      have hnot : ¬r.1 ≤ t := not_le.mpr hr
      simpa [Option.filter, hr, hnot] using UInt32.not_le.mp hfits
    · simp [Option.filter, hr, not_lt.mp hr]

/-- A wait of the limiter, and what a call after it gives. -/
def TellsTruthAt (now : ℕ) (weight : UInt32) (l : WeightRateLimiter) : Prop :=
  TellsTruth (some (l.timeUntilReady now weight).2) fun d =>
    ((l.timeUntilReady now weight).1.tryAcquire (now + d) weight).2

theorem succeeds_iff (d : ℕ) :
    ((l.timeUntilReady now weight).1.tryAcquire (now + d) weight).2 =
      decide ((l.cleanup now).Fits (now + d) weight) := by
  rw [timeUntilReady_fst, tryAcquire_snd]

/-- **Main theorem.** The weight limiter tells the truth just when the weight fits or its own
    entries free what is missing. -/
theorem tellsTruthAt_iff (h : Reached now l) :
    l.TellsTruthAt now weight ↔ l.Fits now weight ∨ ∃ t, l.FreedAt now weight t := by
  have hordered := h.ordered
  rw [TellsTruthAt]
  by_cases hfits : l.Fits now weight
  · rw [timeUntilReady_of_fits hfits]
    refine iff_of_true (tellsTruth_of_ready ?_) (.inl hfits)
    rw [succeeds_iff, decide_eq_true_eq]
    exact fits_cleanup.mpr hfits
  · have hbusy : ((l.timeUntilReady now weight).1.tryAcquire (now + 0) weight).2 = false := by
      rw [succeeds_iff, Nat.add_zero]
      exact decide_eq_false fun hnow => hfits (fits_cleanup.mp hnow)
    rw [tellsTruth_iff_of_not_ready hbusy, or_iff_right hfits, succeeds_iff, decide_eq_true_eq,
      timeUntilReady_of_not_fits hfits]
    have hfresh : ∀ e ∈ (l.cleanup now).entries, e.1 ≤ now ∧ now - e.1 < l.window := by
      intro e he
      have hlt : now < e.1 + l.window := fresh_of_mem_unexpired hordered.sorted he
      have hle := hordered.cleanup.entries_le e he
      exact ⟨hle, by omega⟩
    constructor
    · rintro ⟨hpos, hlater⟩
      rcases exists_reaches (l.needed now weight) (l.cleanup now).entries (needed_pos hfits) with
        ⟨older, t, entryWeight, newer, hentries, hbelow, hreaches⟩ | hnever
      · have hmem : (t, entryWeight) ∈ (l.cleanup now).entries := by
          rw [hentries]
          simp
        obtain ⟨hle, hlt⟩ := hfresh _ hmem
        rw [hentries, waitFor_append hbelow hreaches hlt,
          hordered.fits_expiry hle hlt hfits] at hlater
        simp only [UInt32.zero_add] at hbelow hreaches
        exact ⟨t, ⟨older, entryWeight, newer, hentries, hbelow, hreaches⟩, hlater.1, hlater.2⟩
      · rw [waitFor_of_never hnever] at hpos
        exact absurd hpos (lt_irrefl 0)
    · rintro ⟨t, ⟨older, entryWeight, newer, hentries, hbelow, hreaches⟩, hreport, hroom⟩
      have hmem : (t, entryWeight) ∈ (l.cleanup now).entries := by
        rw [hentries]
        simp
      obtain ⟨hle, hlt⟩ := hfresh _ hmem
      have hwait : waitFor l.window now (l.needed now weight) 0 (l.cleanup now).entries =
          l.window - (now - t) := by
        rw [hentries]
        apply waitFor_append
        · simpa only [UInt32.zero_add] using hbelow
        · simpa only [UInt32.zero_add] using hreaches
        · exact hlt
      rw [hwait]
      dsimp only at hlt
      exact ⟨by omega, (hordered.fits_expiry hle hlt hfits).mpr ⟨hreport, hroom⟩⟩

/-- The weights of some entries, as numbers. -/
theorem toNat_sumOf (l : WeightRateLimiter) (entries : List (ℕ × UInt32)) :
    (sumOf entries).toNat = (entries.map fun e => e.2.toNat).sum % 2 ^ 32 := by
  have h := toNat_entriesSum { l with entries := entries }
  have hweights : ({ l with entries := entries } : WeightRateLimiter).weights.map Prod.snd =
      entries.map fun e => e.2.toNat := List.map_map
  rwa [hweights] at h

/-- In order, the entries after one of them are among those behind it. -/
theorem sum_after_le {older newer : List (ℕ × UInt32)} {t : ℕ} {entryWeight : UInt32}
    (hsorted : (older ++ (t, entryWeight) :: newer).Pairwise (·.1 ≤ ·.1)) :
    (((older ++ (t, entryWeight) :: newer).filter fun e => decide (t < e.1)).map
        fun e => e.2.toNat).sum + ((older ++ [(t, entryWeight)]).map fun e => e.2.toNat).sum ≤
      ((older ++ (t, entryWeight) :: newer).map fun e => e.2.toNat).sum := by
  have hfilter : (older ++ (t, entryWeight) :: newer).filter (fun e => decide (t < e.1)) =
      newer.filter fun e => decide (t < e.1) := by
    obtain ⟨-, -, hbefore⟩ := List.pairwise_append.mp hsorted
    have holder : older.filter (fun e => decide (t < e.1)) = [] := by
      refine List.filter_eq_nil_iff.mpr fun e he => ?_
      have : e.1 ≤ t := hbefore e he (t, entryWeight) List.mem_cons_self
      simpa using this
    rw [List.filter_append, holder, List.nil_append, List.filter_cons_of_neg (by simp)]
  have hle : ((newer.filter fun e => decide (t < e.1)).map fun e => e.2.toNat).sum ≤
      (newer.map fun e => e.2.toNat).sum :=
    ((List.filter_sublist).map _).sum_le_sum fun _ _ => Nat.zero_le _
  have hsplit : ((older ++ (t, entryWeight) :: newer).map fun e => e.2.toNat).sum =
      ((older ++ [(t, entryWeight)]).map fun e => e.2.toNat).sum +
        (newer.map fun e => e.2.toNat).sum := by
    rw [← List.sum_append, ← List.map_append, List.append_assoc, List.singleton_append]
  rw [hfilter]
  omega

/-- Without a report that counts, and without an overflow, the own entries are all there is: what is
    missing is freed. -/
theorem freedAt_of_no_report (h : Reached now l) (hreport : (l.cleanup now).report = none)
    (hsmall : ((l.cleanup now).entries.map fun e => e.2.toNat).sum + weight.toNat < 2 ^ 32)
    (hweight : weight ≤ l.maxWeight) (hfits : ¬l.Fits now weight) :
    ∃ t, l.FreedAt now weight t := by
  have hordered := h.ordered.cleanup
  have hcurrent : (l.currentWeight now).2 = sumOf (l.cleanup now).entries := by
    rw [currentWeight_snd, hreport]
    rfl
  have hsum := toNat_sumOf l (l.cleanup now).entries
  rw [Nat.mod_eq_of_lt (by omega)] at hsum
  have hle : weight.toNat ≤ l.maxWeight.toNat := UInt32.le_iff_toNat_le.mp hweight
  have hadd : (sumOf (l.cleanup now).entries + weight).toNat =
      ((l.cleanup now).entries.map fun e => e.2.toNat).sum + weight.toNat := by
    rw [UInt32.toNat_add, hsum, Nat.mod_eq_of_lt hsmall]
  have hover : l.maxWeight.toNat <
      ((l.cleanup now).entries.map fun e => e.2.toNat).sum + weight.toNat := by
    rw [Fits, hcurrent, UInt32.le_iff_toNat_le, hadd, not_le] at hfits
    exact hfits
  have hneeded : (l.needed now weight).toNat =
      ((l.cleanup now).entries.map fun e => e.2.toNat).sum + weight.toNat - l.maxWeight.toNat := by
    rw [needed, hcurrent, UInt32.toNat_sub_of_le _ _ (UInt32.le_iff_toNat_le.mpr (by omega)), hadd]
  rcases exists_reaches (l.needed now weight) (l.cleanup now).entries (needed_pos hfits) with
    ⟨older, t, entryWeight, newer, hentries, hbelow, hreaches⟩ | hnever
  · simp only [UInt32.zero_add] at hbelow hreaches
    refine ⟨t, ⟨older, entryWeight, newer, hentries, hbelow, hreaches⟩, ?_, ?_⟩
    · intro r hr
      rw [hreport] at hr
      cases hr
    · have hsorted := hordered.sorted
      rw [hentries] at hsorted hsum hsmall hneeded
      have hafter := sum_after_le hsorted
      have hreaches' := UInt32.le_iff_toNat_le.mp hreaches
      rw [toNat_sumOf l, Nat.mod_eq_of_lt (by omega), hneeded] at hreaches'
      rw [hentries, UInt32.le_iff_toNat_le, UInt32.toNat_add, toNat_sumOf l,
        Nat.mod_eq_of_lt (by omega), Nat.mod_eq_of_lt (by omega)]
      omega
  · have hall := hnever _ (List.prefix_refl _)
    rw [UInt32.zero_add, UInt32.lt_iff_toNat_lt, hsum, hneeded] at hall
    omega

end WeightRateLimiter

/-! ## The decaying limiter -/

namespace DecayingRateLimiter

/-- The nearest integer, and the even one of two. -/
def roundTiesEven (q : ℚ) : ℤ :=
  if Int.fract q < 1 / 2 ∨ Int.fract q = 1 / 2 ∧ Even ⌊q⌋ then ⌊q⌋ else ⌊q⌋ + 1

/-- `Duration::from_secs_f64`: the nearest nanosecond, and a panic below zero and from `2^64`
    seconds on. -/
def fromSecsF64 (secs : ℚ) : Option ℕ :=
  if 0 ≤ secs ∧ secs < 2 ^ 64 then some (roundTiesEven (secs * 10 ^ 9)).toNat else none

/-- `time_until_ready` (lines 468–476). -/
def timeUntilReady (now : ℕ) (cost : ℚ) (l : DecayingRateLimiter) :
    DecayingRateLimiter × Option ℕ :=
  let l := l.applyDecay now
  if l.counter + cost ≤ l.maxCounter then (l, some 0)
  else
    let excess := l.counter + cost - l.maxCounter
    let waitSecs := excess / l.decayRate
    (l, fromSecsF64 waitSecs)

/-- The calls that change a limiter; `time_until_ready`, `current_level` and `remaining` only apply
    the decay. -/
inductive Call
  | tryAcquire (cost : ℚ)
  | currentLevel

def call (now : ℕ) (c : Call) (l : DecayingRateLimiter) : DecayingRateLimiter :=
  match c with
  | .tryAcquire cost => (l.tryAcquire now cost).1
  | .currentLevel => l.applyDecay now

/-- What calls lead to from a new limiter. -/
def Reached : ℕ → DecayingRateLimiter → Prop :=
  ReachedAt call fun now l => ∃ maxCounter decayRate, l = new maxCounter decayRate now

/-- The cost fits: `try_acquire` succeeds. -/
def Fits (now : ℕ) (cost : ℚ) (l : DecayingRateLimiter) : Prop :=
  (l.applyDecay now).counter + cost ≤ l.maxCounter

instance (now : ℕ) (cost : ℚ) (l : DecayingRateLimiter) : Decidable (l.Fits now cost) :=
  inferInstanceAs (Decidable (_ ≤ _))

/-- The seconds in which what is missing decays. -/
def missingSecs (now : ℕ) (cost : ℚ) (l : DecayingRateLimiter) : ℚ :=
  ((l.applyDecay now).counter + cost - l.maxCounter) / l.decayRate

/-- `q` is whole, or nearer to the next whole number than to the last, or as near with an odd last
    one. -/
def NotRoundedDown (q : ℚ) : Prop :=
  Int.fract q = 0 ∨ 1 / 2 < Int.fract q ∨ Int.fract q = 1 / 2 ∧ Odd ⌊q⌋

variable {now : ℕ} {l : DecayingRateLimiter} {cost : ℚ}

theorem le_roundTiesEven_iff (q : ℚ) : q ≤ roundTiesEven q ↔ NotRoundedDown q := by
  have hfloor := Int.floor_add_fract q
  have hnonneg := Int.fract_nonneg q
  have hlt := Int.fract_lt_one q
  rw [roundTiesEven, NotRoundedDown]
  split_ifs with h
  · constructor
    · intro hle
      left
      linarith
    · rintro (hzero | hhalf | ⟨hhalf, hodd⟩)
      · linarith
      · rcases h with h | ⟨h, -⟩ <;> linarith
      · rcases h with h | ⟨-, heven⟩
        · linarith
        · exact absurd heven (Int.not_even_iff_odd.mpr hodd)
  · rw [not_or, not_and, Int.not_even_iff_odd] at h
    refine iff_of_true ?_ ?_
    · push_cast
      linarith
    · rcases lt_or_eq_of_le (not_lt.mp h.1) with hgt | heq
      · exact .inr (.inl hgt)
      · exact .inr (.inr ⟨heq.symm, h.2 heq.symm⟩)

theorem Reached.lastUpdate_le (h : Reached now l) : l.lastUpdate ≤ now := by
  refine ReachedAt.invariant (fun now l => l.lastUpdate ≤ now) h ?_ ?_ ?_
  · rintro now l ⟨maxCounter, decayRate, rfl⟩
    exact le_refl now
  · intro now later l hle h
    exact h.trans hle
  · intro now l c h
    cases c with
    | tryAcquire cost =>
      show (l.tryAcquire now cost).1.lastUpdate ≤ now
      unfold DecayingRateLimiter.tryAcquire
      dsimp only
      split_ifs
      · exact le_refl now
      · exact le_refl now
    | currentLevel => exact le_refl now

theorem counter_nonneg (now : ℕ) (l : DecayingRateLimiter) : 0 ≤ (l.applyDecay now).counter :=
  le_max_right _ _

theorem timeUntilReady_fst (now : ℕ) (cost : ℚ) (l : DecayingRateLimiter) :
    (l.timeUntilReady now cost).1 = l.applyDecay now := by
  unfold timeUntilReady
  dsimp only
  split_ifs <;> rfl

theorem tryAcquire_snd (now : ℕ) (cost : ℚ) (l : DecayingRateLimiter) :
    (l.tryAcquire now cost).2 = decide (l.Fits now cost) := by
  unfold tryAcquire
  dsimp only
  split_ifs with h
  · exact (decide_eq_true h).symm
  · exact (decide_eq_false h).symm

/-- After a further `d` nanoseconds, for a cost that fits an empty counter. -/
theorem fits_later_iff (d : ℕ) (hcost : cost ≤ l.maxCounter) :
    (l.applyDecay now).Fits (now + d) cost ↔
      (l.applyDecay now).counter + cost - l.maxCounter ≤ l.decayRate * asSecs d := by
  have hcounter : ((l.applyDecay now).applyDecay (now + d)).counter =
      max ((l.applyDecay now).counter - l.decayRate * asSecs d) 0 := by
    show max ((l.applyDecay now).counter - l.decayRate * asSecs (now + d - now)) 0 = _
    rw [Nat.add_sub_cancel_left]
  have hmax : (l.applyDecay now).maxCounter = l.maxCounter := rfl
  rw [Fits, hcounter, hmax, ← le_sub_iff_add_le, max_le_iff]
  constructor
  · rintro ⟨h, -⟩
    linarith
  · intro h
    exact ⟨by linarith, by linarith⟩

/-- A wait of the limiter, and what a call after it gives. -/
def TellsTruthAt (now : ℕ) (cost : ℚ) (l : DecayingRateLimiter) : Prop :=
  TellsTruth (l.timeUntilReady now cost).2 fun d =>
    ((l.timeUntilReady now cost).1.tryAcquire (now + d) cost).2

/-- For a wait that is not zero, the nanoseconds are those of the integer they are rounded to. -/
theorem le_toNat_iff {x : ℚ} (hx : 0 < x) (nanos : ℤ) :
    (0 < nanos.toNat ∧ x ≤ (nanos.toNat : ℚ)) ↔ x ≤ nanos := by
  constructor
  · rintro ⟨hd, hle⟩
    have hcast : ((nanos.toNat : ℤ) : ℚ) = nanos := by
      rw [Int.toNat_of_nonneg (by omega)]
    rwa [← hcast, Int.cast_natCast]
  · intro hle
    have hnanos : 0 < nanos := by
      have : (0 : ℚ) < nanos := hx.trans_le hle
      exact_mod_cast this
    have hcast : ((nanos.toNat : ℤ) : ℚ) = nanos := by
      rw [Int.toNat_of_nonneg hnanos.le]
    refine ⟨by omega, ?_⟩
    rwa [← Int.cast_natCast, hcast]

/-- **Main theorem.** The decaying limiter tells the truth just when the cost fits, or the wait is a
    duration and its nanoseconds are not rounded down. -/
theorem tellsTruthAt_iff (hrate : 0 < l.decayRate) (hcost : cost ≤ l.maxCounter) :
    l.TellsTruthAt now cost ↔ l.Fits now cost ∨
      l.missingSecs now cost < 2 ^ 64 ∧ NotRoundedDown (l.missingSecs now cost * 10 ^ 9) := by
  have hsucceeds : ∀ d, ((l.timeUntilReady now cost).1.tryAcquire (now + d) cost).2 =
      decide ((l.applyDecay now).Fits (now + d) cost) := by
    intro d
    rw [timeUntilReady_fst, tryAcquire_snd]
  have hzero : (l.applyDecay now).Fits (now + 0) cost ↔ l.Fits now cost := by
    rw [fits_later_iff 0 hcost, Fits, asSecs, Nat.cast_zero, zero_div, mul_zero, sub_nonpos]
  rw [TellsTruthAt]
  by_cases hfits : l.Fits now cost
  · have hwait : (l.timeUntilReady now cost).2 = some 0 := by
      unfold timeUntilReady
      exact congrArg Prod.snd (if_pos hfits)
    rw [hwait]
    refine iff_of_true (tellsTruth_of_ready ?_) (.inl hfits)
    rw [hsucceeds, decide_eq_true_eq]
    exact hzero.mpr hfits
  · have hbusy : ((l.timeUntilReady now cost).1.tryAcquire (now + 0) cost).2 = false := by
      rw [hsucceeds]
      exact decide_eq_false fun h => hfits (hzero.mp h)
    have hwait : (l.timeUntilReady now cost).2 = fromSecsF64 (l.missingSecs now cost) := by
      unfold timeUntilReady
      exact congrArg Prod.snd (if_neg hfits)
    have hexcess : 0 < (l.applyDecay now).counter + cost - l.maxCounter := by
      rw [Fits, not_le] at hfits
      linarith
    have hsecs : 0 < l.missingSecs now cost := div_pos hexcess hrate
    rw [hwait, fromSecsF64, or_iff_right hfits]
    split_ifs with hrange
    · rw [tellsTruth_iff_of_not_ready hbusy, hsucceeds, decide_eq_true_eq, fits_later_iff _ hcost,
        and_iff_right hrange.2, ← le_roundTiesEven_iff]
      -- the wait is long enough just when its nanoseconds are
      generalize hd : roundTiesEven (l.missingSecs now cost * 10 ^ 9) = nanos
      have hmissing : (l.applyDecay now).counter + cost - l.maxCounter ≤
          l.decayRate * asSecs nanos.toNat ↔
            l.missingSecs now cost * 10 ^ 9 ≤ (nanos.toNat : ℚ) := by
        rw [missingSecs, asSecs, mul_comm l.decayRate, ← div_le_iff₀ hrate,
          le_div_iff₀ (by norm_num : (0 : ℚ) < 10 ^ 9)]
      rw [hmissing]
      exact le_toNat_iff (by positivity) nanos
    · refine iff_of_false ?_ fun h => hrange ⟨hsecs.le, h.1⟩
      rintro ⟨d, hd, -⟩
      cases hd

end DecayingRateLimiter

/-! ## All limiters -/

end Digdigdig3
