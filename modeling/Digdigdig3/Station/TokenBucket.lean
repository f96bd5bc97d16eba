import Mathlib.Tactic
import Digdigdig3.Lib.Runs

/-!
# The REST token bucket of a consumer

`TokenBucket` (`crates/digdigdig3-station/src/quota.rs` lines 199–249): a window that is refilled by
the first call after its end, and starts anew at that call. Instants and durations are numbers of
nanoseconds. An empty bucket reports the rest of its window in whole milliseconds.

* `successesWithin_le`: no window that starts at a refill grants more than the capacity.
* `truthful_iff`: the reported wait is enough exactly where no fraction of a millisecond is cut off.
* `lawful_iff`: both, along every run of calls.
-/

namespace Digdigdig3.Quota

/-- `TokenBucket` (lines 201–206). -/
structure TokenBucket where
  capacity : ℕ
  available : ℕ
  refillWindow : ℕ
  lastRefill : ℕ
  deriving DecidableEq

namespace TokenBucket

/-! ## Model -/

/-- `new` (lines 209–216), at the instant `now`. -/
def new (capacity window now : ℕ) : TokenBucket :=
  { capacity, available := capacity, refillWindow := window, lastRefill := now }

/-- `wait.as_millis() as u64`. -/
def asMillis (nanos : ℕ) : ℕ := nanos / 10 ^ 6 % 2 ^ 64

/-- The refill at the start of `try_consume` (lines 224–227). -/
def refill (b : TokenBucket) (now : ℕ) : TokenBucket :=
  if b.refillWindow ≤ now - b.lastRefill then { b with available := b.capacity, lastRefill := now }
  else b

/-- `try_consume` (lines 222–235), at the instant `now`. -/
def tryConsume (b : TokenBucket) (now : ℕ) : TokenBucket × Except ℕ Unit :=
  let elapsed := now - b.lastRefill
  let b := b.refill now
  if 0 < b.available then ({ b with available := b.available - 1 }, .ok ())
  else (b, .error (asMillis (b.refillWindow - elapsed)))

/-- The bucket after a call. -/
def step (b : TokenBucket) (now : ℕ) : TokenBucket := (b.tryConsume now).1

/-- The instants of the calls that succeed. -/
def successes (b : TokenBucket) : List ℕ → List ℕ
  | [] => []
  | now :: calls =>
    match (b.tryConsume now).2 with
    | .ok () => now :: (b.step now).successes calls
    | .error _ => (b.step now).successes calls

/-! ## Specification -/

/-- How many calls succeed in the window that starts at `start`. -/
def successesWithin (b : TokenBucket) (calls : List ℕ) (start : ℕ) : ℕ :=
  (b.successes calls).countP fun now => start ≤ now ∧ now < start + b.refillWindow

/-- A refusal tells how long to wait: a call that comes that late succeeds. -/
def Truthful (b : TokenBucket) (now : ℕ) : Prop :=
  ∀ ms, (b.tryConsume now).2 = .error ms → 0 < b.capacity →
    ∀ later, now + ms * 10 ^ 6 ≤ later → ((b.step now).tryConsume later).2 = .ok ()

/-- The windows that start at a refill, and the refusals, along a run of calls. -/
structure Lawful (b : TokenBucket) (calls : List ℕ) : Prop where
  windows : ∀ pre, pre <+: calls →
    b.successesWithin calls (pre.foldl step b).lastRefill ≤ b.capacity
  refusals : StepsMeet step b Truthful calls

/-- Where the bucket is empty, the rest of its window is a whole number of milliseconds and
    fits a `u64`. -/
def WholeMillis (b : TokenBucket) (now : ℕ) : Prop :=
  0 < b.capacity → b.available = 0 → now - b.lastRefill < b.refillWindow →
    10 ^ 6 ∣ b.refillWindow - (now - b.lastRefill) ∧
      b.refillWindow - (now - b.lastRefill) < 2 ^ 64 * 10 ^ 6

/-! ## One call -/

theorem refill_of_le {b : TokenBucket} {now : ℕ} (h : b.refillWindow ≤ now - b.lastRefill) :
    b.refill now = { b with available := b.capacity, lastRefill := now } := if_pos h

theorem refill_of_lt {b : TokenBucket} {now : ℕ} (h : now - b.lastRefill < b.refillWindow) :
    b.refill now = b := if_neg (not_le.mpr h)

theorem tryConsume_of_pos {b : TokenBucket} {now : ℕ} (h : 0 < (b.refill now).available) :
    b.tryConsume now = ({ b.refill now with available := (b.refill now).available - 1 }, .ok ()) :=
  if_pos h

theorem tryConsume_of_empty {b : TokenBucket} {now : ℕ} (h : (b.refill now).available = 0) :
    b.tryConsume now = (b.refill now,
      .error (asMillis ((b.refill now).refillWindow - (now - b.lastRefill)))) :=
  if_neg (by omega)

/-- A call refills the bucket or leaves its window alone. It takes one token or finds none. -/
theorem tryConsume_cases (b : TokenBucket) (now : ℕ) :
    (0 < (b.refill now).available ∧ (b.tryConsume now).2 = .ok () ∧
        b.step now = { b.refill now with available := (b.refill now).available - 1 }) ∨
      ((b.refill now).available = 0 ∧ b.step now = b.refill now ∧
        (b.tryConsume now).2 =
          .error (asMillis ((b.refill now).refillWindow - (now - b.lastRefill)))) := by
  by_cases h : 0 < (b.refill now).available
  · refine Or.inl ⟨h, ?_, ?_⟩
    · rw [tryConsume_of_pos h]
    · rw [step, tryConsume_of_pos h]
  · have hempty : (b.refill now).available = 0 := by omega
    refine Or.inr ⟨hempty, ?_, ?_⟩
    · rw [step, tryConsume_of_empty hempty]
    · rw [tryConsume_of_empty hempty]

@[simp] theorem refill_capacity (b : TokenBucket) (now : ℕ) :
    (b.refill now).capacity = b.capacity := by
  unfold refill
  split_ifs <;> rfl

@[simp] theorem refill_refillWindow (b : TokenBucket) (now : ℕ) :
    (b.refill now).refillWindow = b.refillWindow := by
  unfold refill
  split_ifs <;> rfl

@[simp] theorem step_capacity (b : TokenBucket) (now : ℕ) :
    (b.step now).capacity = b.capacity := by
  obtain ⟨-, -, h⟩ | ⟨-, h, -⟩ := tryConsume_cases b now <;> rw [h] <;> simp

@[simp] theorem step_refillWindow (b : TokenBucket) (now : ℕ) :
    (b.step now).refillWindow = b.refillWindow := by
  obtain ⟨-, -, h⟩ | ⟨-, h, -⟩ := tryConsume_cases b now <;> rw [h] <;> simp

theorem step_lastRefill (b : TokenBucket) (now : ℕ) :
    (b.step now).lastRefill = (b.refill now).lastRefill := by
  obtain ⟨-, -, h⟩ | ⟨-, h, -⟩ := tryConsume_cases b now <;> rw [h]

theorem step_available_le (b : TokenBucket) (now : ℕ) :
    (b.step now).available ≤ (b.refill now).available := by
  obtain ⟨-, -, h⟩ | ⟨-, h, -⟩ := tryConsume_cases b now <;> rw [h]
  exact Nat.sub_le _ _

/-! ## Windows -/

/-- What holds of a bucket before calls that come from `now` on. -/
structure Valid (b : TokenBucket) (now : ℕ) : Prop where
  available_le : b.available ≤ b.capacity
  lastRefill_le : b.lastRefill ≤ now

theorem valid_new (capacity window now : ℕ) : (new capacity window now).Valid now :=
  ⟨le_rfl, le_rfl⟩

theorem Valid.step {b : TokenBucket} {now : ℕ} (h : b.Valid now) : (b.step now).Valid now := by
  have hle := step_available_le b now
  refine ⟨?_, ?_⟩
  · rw [step_capacity]
    refine hle.trans ?_
    unfold refill
    split_ifs
    · exact le_rfl
    · exact h.available_le
  · rw [step_lastRefill]
    unfold refill
    split_ifs
    · exact le_rfl
    · exact h.lastRefill_le

theorem Valid.mono {b : TokenBucket} {now later : ℕ} (h : b.Valid now) (hle : now ≤ later) :
    b.Valid later := ⟨h.available_le, h.lastRefill_le.trans hle⟩

theorem mem_of_mem_successes {b : TokenBucket} {calls : List ℕ} {now : ℕ}
    (h : now ∈ b.successes calls) : now ∈ calls := by
  induction calls generalizing b with
  | nil => exact h
  | cons call calls ih =>
    rw [successes] at h
    split at h
    · rcases List.mem_cons.mp h with rfl | h
      · exact List.mem_cons_self
      · exact List.mem_cons_of_mem _ (ih h)
    · exact List.mem_cons_of_mem _ (ih h)

/-- No call of a window comes at or after its end. -/
theorem successesWithin_eq_zero {b : TokenBucket} {calls : List ℕ} {start : ℕ}
    (h : ∀ now ∈ calls, start + b.refillWindow ≤ now) : b.successesWithin calls start = 0 := by
  rw [successesWithin, List.countP_eq_zero]
  intro now hnow
  have hle := h now (mem_of_mem_successes hnow)
  simp only [decide_eq_true_iff]
  omega

/-- The first call of a run counts when it succeeds within the window. -/
theorem successesWithin_cons (b : TokenBucket) (now : ℕ) (calls : List ℕ) (start : ℕ) :
    b.successesWithin (now :: calls) start = (b.step now).successesWithin calls start +
      if 0 < (b.refill now).available ∧ start ≤ now ∧ now < start + b.refillWindow
      then 1 else 0 := by
  rw [successesWithin, successesWithin, successes, step_refillWindow]
  obtain ⟨hpos, hok, -⟩ | ⟨hempty, -, herror⟩ := tryConsume_cases b now
  · rw [hok]
    simp only [List.countP_cons, hpos, true_and, decide_eq_true_eq]
  · rw [herror, if_neg (by omega)]
    rfl

/-- The calls come in order from `now` on. -/
def InOrder (now : ℕ) (calls : List ℕ) : Prop := (now :: calls).Pairwise (· ≤ ·)

theorem InOrder.tail {now call : ℕ} {calls : List ℕ} (h : InOrder now (call :: calls)) :
    now ≤ call ∧ InOrder call calls := by
  obtain ⟨hle, htail⟩ := List.pairwise_cons.mp h
  exact ⟨hle call List.mem_cons_self, htail⟩

theorem InOrder.le {now : ℕ} {calls : List ℕ} (h : InOrder now calls) {call : ℕ}
    (hcall : call ∈ calls) : now ≤ call := (List.pairwise_cons.mp h).1 call hcall

/-- Until the end of the current window at most the tokens that are left are granted. -/
theorem successesWithin_current_le {b : TokenBucket} {now : ℕ} {calls : List ℕ}
    (hvalid : b.Valid now) (horder : InOrder now calls) :
    b.successesWithin calls b.lastRefill ≤ b.available := by
  induction calls generalizing b now with
  | nil => exact Nat.zero_le _
  | cons call calls ih =>
    obtain ⟨hle, htail⟩ := horder.tail
    by_cases hwindow : b.refillWindow ≤ call - b.lastRefill
    · -- the window is over, so neither this call nor a later one counts
      have hlast := hvalid.lastRefill_le
      rw [successesWithin_eq_zero]
      · exact Nat.zero_le _
      · intro t ht
        have hcall : call ≤ t := by
          rcases List.mem_cons.mp ht with rfl | ht
          · exact le_rfl
          · exact htail.le ht
        omega
    · have hsame := refill_of_lt (not_le.mp hwindow)
      have hrest := ih (hvalid.mono hle).step htail
      rw [step_lastRefill, hsame] at hrest
      rw [successesWithin_cons, hsame]
      obtain ⟨hpos, -, hstep⟩ | ⟨hempty, hstep, -⟩ := tryConsume_cases b call
      · rw [hsame] at hpos hstep
        have htaken := congrArg available hstep
        simp only at htaken
        split_ifs <;> omega
      · rw [hsame] at hempty hstep
        have hkept := congrArg available hstep
        rw [if_neg (by omega)]
        omega

/-- A later refill comes after the end of the current window. -/
theorem lastRefill_foldl {b : TokenBucket} {now : ℕ} {calls : List ℕ} (hvalid : b.Valid now)
    (horder : InOrder now calls) :
    (calls.foldl step b).lastRefill = b.lastRefill ∨
      b.lastRefill + b.refillWindow ≤ (calls.foldl step b).lastRefill := by
  induction calls generalizing b now with
  | nil => exact Or.inl rfl
  | cons call calls ih =>
    obtain ⟨hle, htail⟩ := horder.tail
    have hnext := ih (hvalid.mono hle).step htail
    rw [step_lastRefill, step_refillWindow] at hnext
    have hlast := hvalid.lastRefill_le
    rw [List.foldl_cons]
    by_cases hwindow : b.refillWindow ≤ call - b.lastRefill
    · rw [refill_of_le hwindow] at hnext
      simp only at hnext
      omega
    · rwa [refill_of_lt (not_le.mp hwindow)] at hnext

/-- No window that starts at a refill grants more than the capacity. -/
theorem successesWithin_le {b : TokenBucket} {now : ℕ} {calls pre : List ℕ} (hvalid : b.Valid now)
    (horder : InOrder now calls) (hpre : pre <+: calls) :
    b.successesWithin calls (pre.foldl step b).lastRefill ≤ b.capacity := by
  induction pre generalizing b now calls with
  | nil => exact (successesWithin_current_le hvalid horder).trans hvalid.available_le
  | cons call pre ih =>
    obtain ⟨rest, rfl⟩ := hpre
    rw [List.cons_append] at horder ⊢
    obtain ⟨hle, htail⟩ := horder.tail
    have hnext := (hvalid.mono hle).step
    have hrest := ih hnext htail (List.prefix_append pre rest)
    rw [step_capacity] at hrest
    rw [List.foldl_cons, successesWithin_cons]
    have hpreorder : InOrder call pre := htail.sublist (by simp)
    rcases lastRefill_foldl hnext hpreorder with hsame | hlater
    · -- still in the window of the first call: what is left of it bounds the other calls
      rw [hsame]
      have hcurrent := successesWithin_current_le hnext htail
      have hcap : (b.refill call).available ≤ b.capacity := by
        unfold refill
        split_ifs
        · exact le_rfl
        · exact hvalid.available_le
      obtain ⟨hpos, -, hstep⟩ | ⟨hempty, hstep, -⟩ := tryConsume_cases b call
      · have htaken := congrArg available hstep
        simp only at htaken
        split_ifs <;> omega
      · have hkept := congrArg available hstep
        rw [if_neg (by omega)]
        omega
    · -- the first call is not in a window that starts later
      rw [step_lastRefill, step_refillWindow] at hlater
      rw [if_neg]
      · exact hrest
      · rintro ⟨-, hge, hlt⟩
        have hlast := hvalid.lastRefill_le
        by_cases hwindow : b.refillWindow ≤ call - b.lastRefill
        · rw [refill_of_le hwindow] at hlater
          simp only at hlater
          omega
        · rw [refill_of_lt (not_le.mp hwindow)] at hlater
          omega

/-! ## Refusals -/

theorem asMillis_mul_le (nanos : ℕ) : asMillis nanos * 10 ^ 6 ≤ nanos := by
  have hmod : asMillis nanos ≤ nanos / 10 ^ 6 := Nat.mod_le _ _
  exact (Nat.mul_le_mul_right _ hmod).trans (Nat.div_mul_le_self _ _)

/-- Only a whole number of milliseconds below `2^64` is reported in full. -/
theorem le_asMillis_mul_iff (nanos : ℕ) :
    nanos ≤ asMillis nanos * 10 ^ 6 ↔ 10 ^ 6 ∣ nanos ∧ nanos < 2 ^ 64 * 10 ^ 6 := by
  unfold asMillis
  constructor
  · intro h
    have hmod := Nat.mod_lt (nanos / 10 ^ 6) (show 0 < 2 ^ 64 by norm_num)
    have hle : nanos / 10 ^ 6 % 2 ^ 64 * 10 ^ 6 ≤ nanos := asMillis_mul_le nanos
    refine ⟨⟨nanos / 10 ^ 6 % 2 ^ 64, by omega⟩, ?_⟩
    calc nanos ≤ nanos / 10 ^ 6 % 2 ^ 64 * 10 ^ 6 := h
      _ < 2 ^ 64 * 10 ^ 6 := by omega
  · rintro ⟨⟨ms, rfl⟩, hlt⟩
    rw [Nat.mul_div_cancel_left _ (by norm_num), Nat.mod_eq_of_lt (by omega)]
    omega

/-- A later call succeeds on an empty bucket just when the window is over. -/
theorem tryConsume_ok_iff {b : TokenBucket} (hcap : 0 < b.capacity) (hempty : b.available = 0)
    (later : ℕ) : (b.tryConsume later).2 = .ok () ↔ b.refillWindow ≤ later - b.lastRefill := by
  constructor
  · intro hok
    by_contra hwindow
    have hsame := refill_of_lt (not_le.mp hwindow)
    rw [tryConsume_of_empty (by rw [hsame, hempty])] at hok
    cases hok
  · intro hwindow
    rw [tryConsume_of_pos]
    rw [refill_of_le hwindow]
    exact hcap

/-- The reported wait is enough exactly where no fraction of a millisecond is cut off. -/
theorem truthful_iff {b : TokenBucket} {now : ℕ} (hlast : b.lastRefill ≤ now) :
    b.Truthful now ↔ b.WholeMillis now := by
  by_cases hrefused : b.available = 0 ∧ now - b.lastRefill < b.refillWindow
  · obtain ⟨hempty, hwindow⟩ := hrefused
    have hsame := refill_of_lt hwindow
    have hcall := @tryConsume_of_empty b now (by rw [hsame, hempty])
    have hstep : b.step now = b := by rw [step, hcall, hsame]
    rw [hsame] at hcall
    have hwhole := le_asMillis_mul_iff (b.refillWindow - (now - b.lastRefill))
    constructor
    · intro h hcap _ _
      have hlater := h _ (by rw [hcall]) hcap _ le_rfl
      rw [hstep, tryConsume_ok_iff hcap hempty] at hlater
      apply hwhole.mp
      omega
    · intro h ms hms hcap later hlater
      rw [hcall] at hms
      cases hms
      have henough := hwhole.mpr (h hcap hempty hwindow)
      rw [hstep, tryConsume_ok_iff hcap hempty]
      omega
  · constructor
    · intro _ _ hempty hwindow
      exact absurd ⟨hempty, hwindow⟩ hrefused
    · intro _ ms hms hcap
      rw [tryConsume_of_pos] at hms
      · cases hms
      · by_cases hwindow : b.refillWindow ≤ now - b.lastRefill
        · rw [refill_of_le hwindow]
          exact hcap
        · rw [refill_of_lt (not_le.mp hwindow)]
          omega

/-- The bucket is valid at each call of a run. -/
theorem Valid.foldl {b : TokenBucket} {now call : ℕ} {pre : List ℕ} (hvalid : b.Valid now)
    (horder : InOrder now (pre ++ [call])) : (pre.foldl TokenBucket.step b).Valid call := by
  induction pre generalizing b now with
  | nil => exact hvalid.mono horder.tail.1
  | cons first pre ih =>
    obtain ⟨hle, htail⟩ := horder.tail
    exact ih (hvalid.mono hle).step htail

theorem InOrder.initial {now : ℕ} {calls pre : List ℕ} (h : InOrder now calls)
    (hpre : pre <+: calls) : InOrder now pre :=
  List.Pairwise.sublist (hpre.sublist.cons_cons now) h

/-- **Main theorem.** Along a run of calls in order the windows are kept, and the refusals are
    truthful exactly when each finds the rest of the window a whole number of milliseconds. -/
theorem lawful_iff (capacity window start : ℕ) (calls : List ℕ) (h : InOrder start calls) :
    (new capacity window start).Lawful calls ↔
      StepsMeet step (new capacity window start) WholeMillis calls := by
  have hvalid := valid_new capacity window start
  have hsteps : StepsMeet step (new capacity window start) Truthful calls ↔
      StepsMeet step (new capacity window start) WholeMillis calls := by
    refine forall₂_congr fun pre call => forall_congr' fun hpre => ?_
    exact truthful_iff (hvalid.foldl (h.initial hpre)).lastRefill_le
  rw [← hsteps]
  constructor
  · exact fun hlawful => hlawful.refusals
  · exact fun hrefusals => ⟨fun pre hpre => successesWithin_le hvalid h hpre, hrefusals⟩

/-- One token a second: a call after half a second is told to wait for the other half. -/
theorem lawful_half_second : (new 1 (10 ^ 9) 0).Lawful [0, 500000000] := by
  rw [lawful_iff 1 (10 ^ 9) 0 [0, 500000000] (by unfold InOrder; decide)]
  simp only [stepsMeet_cons, stepsMeet_nil, and_true]
  exact ⟨by unfold WholeMillis; decide, by unfold WholeMillis; decide⟩

/-- Half a millisecond before the end of the window the wait is reported as zero, and a call that
    comes at once is refused again. -/
theorem half_millisecond_cut_off :
    ¬∀ capacity window start calls, InOrder start calls →
      (new capacity window start).Lawful calls := by
  intro h
  have hlawful := h 1 (10 ^ 9) 0 [0, 999500000] (by unfold InOrder; decide)
  have hrefusal := hlawful.refusals [0] 999500000 (List.prefix_refl _)
  have hok := hrefusal 0 (by decide) (by decide) 999500000 (by decide)
  revert hok
  decide

end TokenBucket

end Digdigdig3.Quota
