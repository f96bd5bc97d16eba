import Digdigdig3.Core.HttpClient
import Mathlib.Algebra.Order.Floor.Ring

/-!
# The retry policy

The loop of `request_with_retry` and `request_returning_headers` with the delays between the
attempts and the counters. An `f64` is a rational number; the hasher that draws the jitter is an
argument.

* `retryRun_eq`: the attempts and the result are those of `retryLoop`.
* `retryRun_delays`: what the delays are bounded by.
* `retries_follow_policy_iff`: when a call follows the policy that `should_retry` states.

A response ends the loop, so one that is an error is neither retried nor counted.
-/

namespace Digdigdig3.Http

/-! ## Model -/

/-- The fields of `RetryConfig` (lines 29–41) that set the delays. -/
structure RetryDelays where
  initialBackoffMs : UInt64
  maxBackoffMs : UInt64
  backoffMultiplier : ℚ
  jitterFactor : ℚ

/-- `f64 as u64`. -/
def asU64 (q : ℚ) : ℕ := min ⌊q⌋.toNat (2 ^ 64 - 1)

/-- `apply_jitter` (lines 575–593), with the value of the hasher. -/
def applyJitter (delays : RetryDelays) (randomValue : ℕ) (backoffMs : ℕ) : ℕ :=
  let randomFactor : ℚ := (randomValue % 10000 : ℕ) / 10000
  let jitter := delays.jitterFactor * randomFactor
  let multiplier := 1 - jitter
  asU64 (max (backoffMs * multiplier) delays.initialBackoffMs.toNat)

/-- `calculate_next_backoff` (lines 562–572). -/
def calculateNextBackoff (delays : RetryDelays) (randomValue : ℕ) (current : ℕ) : ℕ :=
  let next := asU64 (current * delays.backoffMultiplier)
  let next := min next delays.maxBackoffMs.toNat
  if 0 < delays.jitterFactor then applyJitter delays randomValue next else next

/-- `requests_total` and `errors_total`. -/
structure Counters where
  requestsTotal : ℕ
  errorsTotal : ℕ
  deriving DecidableEq

/-- A call with its delays: the attempts that it has sent, what it has slept before each of them but
    the first, the counters after it, and what it returns. -/
structure RetryRun (α : Type) where
  sent : List Attempt
  slept : List ℕ
  counters : Counters
  result : Except ExchangeError α

variable {Value α : Type} (J : JsonApi Value) (client : HttpClient) (delays : RetryDelays)

/-- What is slept before an attempt (lines 332–338). -/
def sleepBefore (attempt currentBackoff : ℕ) : List ℕ :=
  if 0 < attempt ∧ client.wasm = false then [currentBackoff] else []

/-- The iterations of the loop from `attempt` on (lines 331–372 and 391–425). -/
def retryRun (handle : Response → Except ExchangeError α) (net : ℕ → Attempt) (draw : ℕ → ℕ) :
    ℕ → ℕ → ℕ → ExchangeError → Counters → RetryRun α
  | 0, _, _, lastError, counters =>
    ⟨[], [], counters, .error (.network ("Max retries (" ++
      toString client.retryConfig.maxAttempts ++ ") exceeded. Last error: " ++ lastError.text))⟩
  | left + 1, attempt, currentBackoff, _, counters =>
    let slept := sleepBefore client attempt currentBackoff
    let counters := { counters with requestsTotal := counters.requestsTotal + 1 }
    match (net attempt).outcome with
    | .ok response => ⟨[net attempt], slept, counters, handle response⟩
    | .error e =>
      let counters := { counters with errorsTotal := counters.errorsTotal + 1 }
      let error := mapReqwestError client e
      if shouldRetry error then
        let rest := retryRun handle net draw left (attempt + 1)
          (calculateNextBackoff delays (draw attempt) currentBackoff) error counters
        ⟨net attempt :: rest.sent, slept ++ rest.slept, rest.counters, rest.result⟩
      else ⟨[net attempt], slept, counters, .error error⟩

/-- The loop from its start (lines 329–330 and 389–390). -/
def startRun (handle : Response → Except ExchangeError α) (net : ℕ → Attempt) (draw : ℕ → ℕ)
    (counters : Counters) : RetryRun α :=
  retryRun client delays handle net draw client.retryConfig.maxAttempts 0
    delays.initialBackoffMs.toNat (.network "No attempts made") counters

/-- `request_with_retry` (lines 321–372). -/
def requestWithRetryRun (net : Request Value → ℕ → Attempt) (draw : ℕ → ℕ) (counters : Counters)
    (request : Request Value) : RetryRun Value :=
  startRun client delays (handleResponse J) (net request) draw counters

/-- `request_returning_headers` (lines 379–425). -/
def requestReturningHeadersRun (net : Request Value → ℕ → Attempt) (draw : ℕ → ℕ)
    (counters : Counters) (request : Request Value) :
    RetryRun (Value × List (String × String)) :=
  startRun client delays (handleResponseWithHeaders J) (net request) draw counters

/-! ## Policy -/

/-- The attempt fails: in transport, or with a response that is an error. -/
def failed (attempt : Attempt) : Bool :=
  match attempt.outcome with
  | .error _ => true
  | .ok response =>
    match handleResponse J response with
    | .ok _ => false
    | .error _ => true

/-- The policy tries again: after the errors of `should_retry`, wherever they come from, and after
    server errors whatever code their body has. -/
def policyRetries (attempt : Attempt) : Bool :=
  match attempt.outcome with
  | .error e => shouldRetry (mapReqwestError client e)
  | .ok response =>
    match handleResponse J response with
    | .ok _ => false
    | .error error => shouldRetry error || decide (500 ≤ response.status ∧ response.status ≤ 599)

/-- The policy makes `k` of at most `left` attempts: up to the first after which it does not try
    again. -/
structure PolicyAttempts (net : ℕ → Attempt) (left k : ℕ) : Prop where
  bounded : k ≤ left
  retried_of_lt : ∀ i, i + 1 < k → policyRetries J client (net i) = true
  pos : 0 < left → 0 < k
  last : k < left → policyRetries J client (net (k - 1)) = false

/-- The call follows the policy. -/
structure FollowsPolicy (net : ℕ → Attempt) (counters : Counters) (run : RetryRun α) : Prop where
  attempts : ∃ k, run.sent = (List.range k).map net ∧
    PolicyAttempts J client net client.retryConfig.maxAttempts k
  delays_le : ∀ d ∈ run.slept, d ≤ delays.maxBackoffMs.toNat
  requests : run.counters.requestsTotal = counters.requestsTotal + run.sent.length
  errors : run.counters.errorsTotal = counters.errorsTotal + run.sent.countP (failed J)

/-- Every response that the loop meets is a success. -/
def ResponsesSucceed (net : ℕ → Attempt) : Prop :=
  ∀ i < client.retryConfig.maxAttempts, (∀ j < i, retried client (net j) = true) →
    ∀ response, (net i).outcome = .ok response → ∃ v, handleResponse J response = .ok v

/-- The delays are bounded by the configuration, or there are none. -/
def DelaysBounded (net : ℕ → Attempt) : Prop :=
  client.wasm = true ∨ delays.jitterFactor ≤ 0 ∨
    delays.initialBackoffMs ≤ delays.maxBackoffMs ∨ client.retryConfig.maxAttempts ≤ 1 ∨
    retried client (net 0) = false

/-! ## The loop -/

variable {client delays}
variable {handle : Response → Except ExchangeError α} {net : ℕ → Attempt} {draw : ℕ → ℕ}

/-- The attempts and the result are those of the loop without delays and counters. -/
theorem retryRun_eq (left attempt backoff : ℕ) (lastError : ExchangeError) (counters : Counters) :
    let run := retryRun client delays handle net draw left attempt backoff lastError counters
    run.sent = (retryLoop client handle net left attempt lastError).sent ∧
      run.result = (retryLoop client handle net left attempt lastError).result := by
  induction left generalizing attempt backoff lastError counters with
  | zero => exact ⟨rfl, rfl⟩
  | succ left ih =>
    simp only [retryRun, retryLoop]
    cases (net attempt).outcome with
    | ok response => exact ⟨rfl, rfl⟩
    | error e =>
      simp only
      split_ifs with hretry
      · obtain ⟨hsent, hresult⟩ := ih (attempt + 1)
          (calculateNextBackoff delays (draw attempt) backoff) (mapReqwestError client e)
          { requestsTotal := counters.requestsTotal + 1, errorsTotal := counters.errorsTotal + 1 }
        exact ⟨by rw [hsent], hresult⟩
      · exact ⟨rfl, rfl⟩

/-- An attempt that fails in transport. -/
def transportFailed (attempt : Attempt) : Bool :=
  match attempt.outcome with
  | .error _ => true
  | .ok _ => false

/-- Every attempt is counted as a request, and as an error if it fails in transport. -/
theorem retryRun_counters (left attempt backoff : ℕ) (lastError : ExchangeError)
    (counters : Counters) :
    let run := retryRun client delays handle net draw left attempt backoff lastError counters
    run.counters = ⟨counters.requestsTotal + run.sent.length,
      counters.errorsTotal + run.sent.countP transportFailed⟩ := by
  induction left generalizing attempt backoff lastError counters with
  | zero => rfl
  | succ left ih =>
    simp only [retryRun]
    cases houtcome : (net attempt).outcome with
    | ok response =>
      have hok : transportFailed (net attempt) = false := by rw [transportFailed, houtcome]
      simp [hok]
    | error e =>
      have herror : transportFailed (net attempt) = true := by rw [transportFailed, houtcome]
      simp only
      split_ifs with hretry
      · simp only [ih, List.length_cons, List.countP_cons, herror, if_true, Counters.mk.injEq]
        omega
      · simp [herror]

/-! ## Delays -/

theorem asU64_mono {p q : ℚ} (h : p ≤ q) : asU64 p ≤ asU64 q :=
  min_le_min_right _ (Int.toNat_le_toNat (Int.floor_le_floor h))

theorem asU64_toNat (v : UInt64) : asU64 v.toNat = v.toNat := by
  have := v.toNat_lt
  rw [asU64, Int.floor_natCast, Int.toNat_natCast]
  omega

theorem applyJitter_le (hjitter : 0 < delays.jitterFactor)
    (hinitial : delays.initialBackoffMs ≤ delays.maxBackoffMs) (randomValue : ℕ) {backoff : ℕ}
    (hbackoff : backoff ≤ delays.maxBackoffMs.toNat) :
    applyJitter delays randomValue backoff ≤ delays.maxBackoffMs.toNat := by
  rw [← asU64_toNat delays.maxBackoffMs]
  refine asU64_mono (max_le ?_ ?_)
  · have hfactor : (0 : ℚ) ≤ (randomValue % 10000 : ℕ) / 10000 := by positivity
    calc (backoff : ℚ) * (1 - delays.jitterFactor * ((randomValue % 10000 : ℕ) / 10000))
        ≤ backoff * 1 := by
          apply mul_le_mul_of_nonneg_left _ (Nat.cast_nonneg backoff)
          linarith [mul_nonneg hjitter.le hfactor]
      _ ≤ delays.maxBackoffMs.toNat := by
          rw [mul_one]
          exact_mod_cast hbackoff
  · exact_mod_cast UInt64.le_iff_toNat_le.mp hinitial

theorem le_applyJitter (randomValue backoff : ℕ) :
    delays.initialBackoffMs.toNat ≤ applyJitter delays randomValue backoff := by
  rw [← asU64_toNat delays.initialBackoffMs]
  exact asU64_mono (le_max_right _ _)

theorem calculateNextBackoff_le
    (h : delays.jitterFactor ≤ 0 ∨ delays.initialBackoffMs ≤ delays.maxBackoffMs)
    (randomValue current : ℕ) :
    calculateNextBackoff delays randomValue current ≤ delays.maxBackoffMs.toNat := by
  rw [calculateNextBackoff]
  split_ifs with hjitter
  · exact applyJitter_le hjitter (h.resolve_left (not_le.mpr hjitter)) randomValue
      (min_le_right _ _)
  · exact min_le_right _ _

/-- **Run lemma.** Every delay is one that `calculate_next_backoff` bounds. -/
theorem retryRun_delays
    (h : client.wasm = true ∨ delays.jitterFactor ≤ 0 ∨
      delays.initialBackoffMs ≤ delays.maxBackoffMs)
    (left attempt : ℕ) {backoff : ℕ} (lastError : ExchangeError) (counters : Counters)
    (hbackoff : attempt = 0 ∨ backoff ≤ delays.maxBackoffMs.toNat) :
    ∀ d ∈ (retryRun client delays handle net draw left attempt backoff lastError counters).slept,
      d ≤ delays.maxBackoffMs.toNat := by
  have hslept : ∀ {attempt backoff : ℕ}, attempt = 0 ∨ backoff ≤ delays.maxBackoffMs.toNat →
      ∀ d ∈ sleepBefore client attempt backoff, d ≤ delays.maxBackoffMs.toNat := by
    intro attempt backoff hbackoff d hd
    rw [sleepBefore] at hd
    split_ifs at hd with hsleeps
    · obtain rfl := List.mem_singleton.mp hd
      exact hbackoff.resolve_left hsleeps.1.ne'
    · exact absurd hd List.not_mem_nil
  rcases h with hwasm | h
  · -- nothing is slept in a browser
    have hnone : ∀ left attempt backoff lastError counters, (retryRun client delays handle net draw
        left attempt backoff lastError counters).slept = [] := by
      intro left
      induction left with
      | zero => exact fun _ _ _ _ => rfl
      | succ left ih =>
        intro attempt backoff lastError counters
        have hsleeps : sleepBefore client attempt backoff = [] := by
          rw [sleepBefore, hwasm, if_neg (by simp)]
        simp only [retryRun, hsleeps]
        cases (net attempt).outcome with
        | ok response => rfl
        | error e =>
          simp only
          split_ifs
          · rw [ih, List.nil_append]
          · rfl
    rw [hnone]
    exact fun d hd => absurd hd List.not_mem_nil
  · induction left generalizing attempt backoff lastError counters with
    | zero => exact fun d hd => absurd hd List.not_mem_nil
    | succ left ih =>
      simp only [retryRun]
      cases (net attempt).outcome with
      | ok response => exact hslept hbackoff
      | error e =>
        simp only
        split_ifs with hretry
        · intro d hd
          rcases List.mem_append.mp hd with hd | hd
          · exact hslept hbackoff d hd
          · exact ih (attempt + 1) (mapReqwestError client e) _
              (.inr (calculateNextBackoff_le h _ _)) d hd
        · exact hslept hbackoff

/-- The delay before an attempt is slept. -/
theorem mem_slept {attempt backoff d : ℕ} (hd : d ∈ sleepBefore client attempt backoff) (left : ℕ)
    (lastError : ExchangeError) (counters : Counters) :
    d ∈ (retryRun client delays handle net draw (left + 1) attempt backoff lastError
      counters).slept := by
  simp only [retryRun]
  cases (net attempt).outcome with
  | ok response => exact hd
  | error e =>
    simp only
    split_ifs with hretry
    · exact List.mem_append_left _ hd
    · exact hd

/-- A second attempt waits at least for the initial delay, when delays are drawn. -/
theorem initial_le_slept (hwasm : client.wasm = false) (hjitter : 0 < delays.jitterFactor)
    (hmax : 1 < client.retryConfig.maxAttempts) (hretried : retried client (net 0) = true)
    (counters : Counters) : ∃ d ∈ (startRun client delays handle net draw counters).slept,
      delays.initialBackoffMs.toNat ≤ d := by
  obtain ⟨left, hleft⟩ : ∃ left, client.retryConfig.maxAttempts = left + 2 :=
    ⟨client.retryConfig.maxAttempts - 2, by omega⟩
  obtain ⟨e, he⟩ : ∃ e, (net 0).outcome = .error e :=
    let ⟨e, he, _⟩ := (retried_iff client).mp hretried
    ⟨e, he⟩
  have hshould : shouldRetry (mapReqwestError client e) = true := by
    rwa [retried, he] at hretried
  refine ⟨calculateNextBackoff delays (draw 0) delays.initialBackoffMs.toNat, ?_, ?_⟩
  · rw [startRun, hleft, retryRun]
    simp only [he, hshould, if_true]
    refine List.mem_append_right _ (mem_slept ?_ left _ _)
    rw [sleepBefore, if_pos ⟨by decide, hwasm⟩]
    exact List.mem_singleton_self _
  · rw [calculateNextBackoff, if_pos hjitter]
    exact le_applyJitter _ _

/-- Without a second attempt nothing is slept. -/
theorem slept_eq_nil
    (h : client.retryConfig.maxAttempts ≤ 1 ∨ retried client (net 0) = false)
    (counters : Counters) : (startRun client delays handle net draw counters).slept = [] := by
  have hfirst : ∀ backoff, sleepBefore client 0 backoff = [] :=
    fun backoff => if_neg fun hsleeps => lt_irrefl 0 hsleeps.1
  rw [startRun]
  cases hleft : client.retryConfig.maxAttempts with
  | zero => rfl
  | succ left =>
    simp only [retryRun, hfirst]
    cases houtcome : (net 0).outcome with
    | ok response => rfl
    | error e =>
      simp only
      split_ifs with hretry
      · have hleftZero : left = 0 := by
          rcases h with hone | hstop
          · omega
          · rw [retried, houtcome] at hstop
            exact absurd hretry (by simp [hstop])
        rw [hleftZero]
        rfl
      · rfl

/-! ## Attempts -/

theorem startRun_sent (counters : Counters) :
    (startRun client delays handle net draw counters).sent =
      (retryLoop client handle net client.retryConfig.maxAttempts 0
        (.network "No attempts made")).sent :=
  (retryRun_eq _ _ _ _ _).1

theorem startRun_result (counters : Counters) :
    (startRun client delays handle net draw counters).result =
      (retryLoop client handle net client.retryConfig.maxAttempts 0
        (.network "No attempts made")).result :=
  (retryRun_eq _ _ _ _ _).2

theorem startRun_sends (counters : Counters) :
    ∃ k, (startRun client delays handle net draw counters).sent = (List.range k).map net ∧
      Sends client net client.retryConfig.maxAttempts k := by
  obtain ⟨k, hsent, hk⟩ :=
    sends_retryLoop client handle net client.retryConfig.maxAttempts 0 (.network "No attempts made")
  simp only [Nat.zero_add] at hsent hk
  exact ⟨k, by rw [startRun_sent, hsent], hk⟩

/-- The loop goes as far as its attempts are retried. -/
theorem Sends.lt_of_retried {left k i : ℕ} (h : Sends client net left k) (hi : i < left)
    (hretried : ∀ j < i, retried client (net j) = true) : i < k := by
  by_contra hki
  have hpos := h.pos (by omega)
  have hlast := h.last (by omega)
  rw [hretried (k - 1) (by omega)] at hlast
  cases hlast

/-- The attempts that the loop makes follow retried ones. -/
theorem Sends.retried_before {left k i : ℕ} (h : Sends client net left k) (hi : i < k) :
    ∀ j < i, retried client (net j) = true :=
  fun j hj => h.retried_of_lt j (by omega)

variable {J}

/-- Where responses succeed, the loop and the policy agree on the attempts that are made. -/
theorem agree_of_responsesSucceed {k : ℕ} (hk : Sends client net client.retryConfig.maxAttempts k)
    (h : ResponsesSucceed J client net) {i : ℕ} (hi : i < k) :
    policyRetries J client (net i) = retried client (net i) ∧
      failed J (net i) = transportFailed (net i) := by
  have hmet := h i (hi.trans_le hk.bounded) (hk.retried_before hi)
  rw [policyRetries, retried, failed, transportFailed]
  cases houtcome : (net i).outcome with
  | error e => exact ⟨rfl, rfl⟩
  | ok response =>
    obtain ⟨v, hv⟩ := hmet response houtcome
    simp only [hv, and_self]

/-- A response that is an error is made but not counted. -/
theorem countP_failed_ne {i : ℕ} {response : Response} {error : ExchangeError}
    (houtcome : (net i).outcome = .ok response)
    (herror : handleResponse J response = .error error) :
    ((List.range (i + 1)).map net).countP (failed J) ≠
      ((List.range (i + 1)).map net).countP transportFailed := by
  have hfailed : failed J (net i) = true := by
    simp only [failed, houtcome, herror]
  have htransport : transportFailed (net i) = false := by
    simp only [transportFailed, houtcome]
  have hle : ((List.range i).map net).countP transportFailed ≤
      ((List.range i).map net).countP (failed J) := by
    refine List.countP_mono_left fun attempt _ h => ?_
    rw [transportFailed] at h
    rw [failed]
    cases hcase : attempt.outcome with
    | error e => rfl
    | ok response => rw [hcase] at h; cases h
  rw [List.range_succ, List.map_append, List.countP_append, List.countP_append]
  simp only [List.map_cons, List.map_nil, List.countP_singleton, hfailed, htransport, if_true,
    Bool.false_eq_true, if_false]
  omega

/-- The calls that follow the policy. -/
theorem followsPolicy_startRun_iff (counters : Counters) :
    FollowsPolicy J client delays net counters
        (startRun client delays handle net draw counters) ↔
      ResponsesSucceed J client net ∧ DelaysBounded client delays net := by
  have hsends : ∃ k, (startRun client delays handle net draw counters).sent =
      (List.range k).map net ∧ Sends client net client.retryConfig.maxAttempts k :=
    startRun_sends counters
  obtain ⟨k, hsent, hk⟩ := hsends
  have hcounters : (startRun client delays handle net draw counters).counters = _ :=
    retryRun_counters _ _ _ _ _
  rw [← startRun] at hcounters
  constructor
  · intro h
    constructor
    · intro i hi hbefore response houtcome
      cases herror : handleResponse J response with
      | ok v => exact ⟨v, rfl⟩
      | error error =>
        -- the loop ends with this response
        have hik := hk.lt_of_retried hi hbefore
        have hlast : k = i + 1 := by
          by_contra hne
          have := hk.retried_of_lt i (by omega)
          rw [retried, houtcome] at this
          cases this
        have herrors := h.errors
        rw [hcounters] at herrors
        simp only [hsent, hlast] at herrors
        exact absurd (Nat.add_left_cancel herrors).symm (countP_failed_ne houtcome herror)
    · by_contra hunbounded
      simp only [DelaysBounded, not_or, not_le, Bool.not_eq_true, Bool.not_eq_false] at hunbounded
      obtain ⟨hwasm, hjitter, hinitial, hmax, hretried⟩ := hunbounded
      have hslept : ∃ d ∈ (startRun client delays handle net draw counters).slept,
          delays.initialBackoffMs.toNat ≤ d := initial_le_slept hwasm hjitter hmax hretried counters
      obtain ⟨d, hd, hle⟩ := hslept
      have hbound := h.delays_le d hd
      rw [UInt64.le_iff_toNat_le] at hinitial
      omega
  · rintro ⟨hresponses, hdelays⟩
    have hagree := fun i (hi : i < k) => agree_of_responsesSucceed hk hresponses hi
    refine ⟨⟨k, hsent, hk.bounded, fun i hi => ?_, hk.pos, fun hlt => ?_⟩, ?_, ?_, ?_⟩
    · rw [(hagree i (by omega)).1]
      exact hk.retried_of_lt i hi
    · have hpos := hk.pos (by omega)
      rw [(hagree (k - 1) (by omega)).1]
      exact hk.last hlt
    · rcases hdelays with hwasm | hjitter | hinitial | hone | hstop
      · exact retryRun_delays (.inl hwasm) _ _ _ _ (.inl rfl)
      · exact retryRun_delays (.inr (.inl hjitter)) _ _ _ _ (.inl rfl)
      · exact retryRun_delays (.inr (.inr hinitial)) _ _ _ _ (.inl rfl)
      · rw [slept_eq_nil (.inl hone)]
        exact fun d hd => absurd hd List.not_mem_nil
      · rw [slept_eq_nil (.inr hstop)]
        exact fun d hd => absurd hd List.not_mem_nil
    · rw [hcounters]
    · rw [hcounters]
      simp only [hsent]
      congr 1
      refine List.countP_congr fun attempt hmem => ?_
      obtain ⟨i, hi, rfl⟩ := List.mem_map.mp hmem
      rw [(hagree i (List.mem_range.mp hi)).2]

/-! ## With headers -/

/-- The two copies of the loop differ in what they make of a response only. -/
theorem retryLoop_map {β : Type} {f : β → α} {handle' : Response → Except ExchangeError β}
    (h : ∀ response, (handle' response).map f = handle response) (left attempt : ℕ)
    (lastError : ExchangeError) :
    (retryLoop client handle' net left attempt lastError).sent =
        (retryLoop client handle net left attempt lastError).sent ∧
      (retryLoop client handle' net left attempt lastError).result.map f =
        (retryLoop client handle net left attempt lastError).result := by
  induction left generalizing attempt lastError with
  | zero => exact ⟨rfl, rfl⟩
  | succ left ih =>
    simp only [retryLoop]
    cases (net attempt).outcome with
    | ok response => exact ⟨rfl, h response⟩
    | error e =>
      simp only
      split_ifs with hretry
      · obtain ⟨hsent, hresult⟩ := ih (attempt + 1) (mapReqwestError client e)
        exact ⟨by rw [hsent], hresult⟩
      · exact ⟨rfl, rfl⟩

theorem handleResponseWithHeaders_fst (response : Response) :
    (handleResponseWithHeaders J response).map Prod.fst = handleResponse J response := by
  rw [handleResponseWithHeaders]
  cases handleResponse J response <;> rfl

/-- A call with headers makes the same attempts and returns the same body or error, whatever it
    draws. -/
theorem requestReturningHeaders_same {net : Request Value → ℕ → Attempt} {draw draw' : ℕ → ℕ}
    {counters counters' : Counters} {request : Request Value} :
    (requestReturningHeadersRun J client delays net draw' counters' request).sent =
        (requestWithRetryRun J client delays net draw counters request).sent ∧
      (requestReturningHeadersRun J client delays net draw' counters' request).result.map Prod.fst =
        (requestWithRetryRun J client delays net draw counters request).result := by
  rw [requestReturningHeadersRun, requestWithRetryRun]
  constructor
  · rw [startRun_sent, startRun_sent]
    exact (retryLoop_map handleResponseWithHeaders_fst _ _ _).1
  · rw [startRun_result, startRun_result]
    exact (retryLoop_map handleResponseWithHeaders_fst _ _ _).2

/-- **Main theorem.** A call follows the policy, and the call with headers does the same, exactly
    when the responses that it meets are successes and its delays are bounded. -/
theorem retries_follow_policy_iff (J : JsonApi Value) (client : HttpClient) (delays : RetryDelays)
    (net : Request Value → ℕ → Attempt) (draw : ℕ → ℕ) (counters : Counters)
    (request : Request Value) :
    (FollowsPolicy J client delays (net request) counters
        (requestWithRetryRun J client delays net draw counters request) ∧
      ∀ draw' counters',
        (requestReturningHeadersRun J client delays net draw' counters' request).sent =
            (requestWithRetryRun J client delays net draw counters request).sent ∧
          (requestReturningHeadersRun J client delays net draw' counters' request).result.map
              Prod.fst =
            (requestWithRetryRun J client delays net draw counters request).result) ↔
    ResponsesSucceed J client (net request) ∧ DelaysBounded client delays (net request) := by
  have hiff : FollowsPolicy J client delays (net request) counters
      (requestWithRetryRun J client delays net draw counters request) ↔ _ :=
    followsPolicy_startRun_iff counters
  rw [← hiff]
  exact ⟨And.left, fun h => ⟨h, fun _ _ => requestReturningHeaders_same⟩⟩

/-- A server that is busy. -/
def busy : Attempt := ⟨false, .ok ⟨503, [], none, .ok "busy"⟩⟩

/-- With the default configuration a busy server is asked once, not three times. -/
theorem busy_not_retried :
    ¬∀ (client : HttpClient) (delays : RetryDelays) (net : Request Unit → ℕ → Attempt)
      (request : Request Unit),
      FollowsPolicy unitJson client delays (net request) ⟨0, 0⟩
        (requestWithRetryRun unitJson client delays net (fun _ => 0) ⟨0, 0⟩ request) := by
  intro h
  obtain ⟨k, hsent, hk⟩ := (h ⟨"10s", ⟨3⟩, false⟩ ⟨100, 5000, 2, 0⟩ (fun _ _ => busy)
    ⟨.get, "/api/v3/time", [], [], none⟩).attempts
  have hlen := congrArg List.length hsent
  rw [List.length_map, List.length_range] at hlen
  have hone : k = 1 := hlen.symm
  subst hone
  exact absurd (hk.last (by decide)) (by decide)

end Digdigdig3.Http
