import Mathlib.Tactic

/-!
# The retry loop of the HTTP client

`HttpClient` of `crates/digdigdig3/src/core/http/client.rs`: the loop of `request_with_retry` and
`request_returning_headers`, and the three calls that post through it. An attempt is sent to a
network which may have it processed by the server and still answer with an error.

* `sends_retryLoop`: the attempts that a call sends.
* `write_executions`: how often the server processes a posted request.

A response ends the loop whatever its status is: `should_retry` lists rate limits and server
errors, but only the errors of `execute_request` reach it. Sleeping between attempts, the counters
and the debug log are left out; JSON is a parameter.
-/

namespace Digdigdig3.Http

/-! ## Data -/

/-- The variants of `ExchangeError` (`core/types/common.rs` lines 390–447) that the client makes. -/
inductive ExchangeError
  | network (message : String)
  | timeout (message : String)
  | parseError (message : String)
  | api (code : ℤ) (message : String)
  | rateLimitExceeded (retryAfter : Option ℕ) (message : String)
  | invalidCredentials (message : String)
  | permissionDenied (message : String)
  | invalidRequest (message : String)
  deriving DecidableEq

/-- The texts of the errors (lines 391–447). -/
def ExchangeError.text : ExchangeError → String
  | .network message => "Network error: " ++ message
  | .timeout message => "Timeout: " ++ message
  | .parseError message => "Parse error: " ++ message
  | .api code message => "API error: " ++ toString code ++ " - " ++ message
  | .rateLimitExceeded _ message => "Rate limit exceeded: " ++ message
  | .invalidCredentials message => "Invalid credentials: " ++ message
  | .permissionDenied message => "Permission denied: " ++ message
  | .invalidRequest message => "Invalid request: " ++ message

/-- What the client asks of a `reqwest::Error`. -/
structure ReqwestError where
  isTimeout : Bool
  isRequest : Bool
  isConnect : Bool
  text : String
  deriving DecidableEq

/-- What the client reads of a `reqwest::Response`: `text` is the body or the error of reading
    it. -/
structure Response where
  status : ℕ
  headers : List (String × String)
  retryAfter : Option ℕ
  text : Except String String
  deriving DecidableEq

/-- What the client asks of `serde_json`: `from_str`, `get`, `as_str` and `as_i64`. -/
structure JsonApi (Value : Type) where
  fromStr : String → Except String Value
  get : Value → String → Option Value
  asStr : Value → Option String
  asI64 : Value → Option ℤ

/-- `RetryConfig` (lines 29–41), without the delays between attempts. -/
structure RetryConfig where
  maxAttempts : ℕ

/-- `HttpClient` (lines 73–93); `timeoutText` is the timeout as the error message shows it, and
    `wasm` is the target. -/
structure HttpClient where
  timeoutText : String
  retryConfig : RetryConfig
  wasm : Bool

/-- `Method` (of `http`), as far as it is used. -/
inductive Method
  | get | post | put | patch | delete
  deriving DecidableEq

/-- What `execute_request` builds its request from (lines 430–461). -/
structure Request (Value : Type) where
  method : Method
  url : String
  params : List (String × String)
  headers : List (String × String)
  body : Option Value

/-- What happens to an attempt: whether the server processes it, and what the client sees. -/
structure Attempt where
  processed : Bool
  outcome : Except ReqwestError Response

variable {Value α : Type} (J : JsonApi Value) (client : HttpClient)

/-! ## Errors -/

/-- `map_reqwest_error` (lines 609–623). -/
def mapReqwestError (error : ReqwestError) : ExchangeError :=
  if error.isTimeout then .timeout ("Request timed out after " ++ client.timeoutText)
  else if error.isRequest then .invalidRequest ("Invalid request: " ++ error.text)
  else if !client.wasm && error.isConnect then .network ("Connection failed: " ++ error.text)
  else .network ("HTTP error: " ++ error.text)

/-- `should_retry` (lines 547–559). -/
def shouldRetry : ExchangeError → Bool
  | .network _ => true
  | .timeout _ => true
  | .rateLimitExceeded _ _ => true
  | .api code _ => decide (500 ≤ code)
  | _ => false

/-- `extract_error_from_json` (lines 651–660). -/
def extractErrorFromJson (json : Value) : Option String :=
  ((["msg", "message", "error", "err_msg", "retMsg"].findSome? fun key => J.get json key).bind
    J.asStr)

/-- `extract_error_message` (lines 663–668). -/
def extractErrorMessage (body : String) : String :=
  (((J.fromStr body).toOption.bind (extractErrorFromJson J))).getD body

/-- `i64 as i32`. -/
def asI32 (v : ℤ) : ℤ := (v + 2 ^ 31) % 2 ^ 32 - 2 ^ 31

/-- `map_http_error` (lines 626–648). -/
def mapHttpError (status : ℕ) (json : Option Value) (rawBody : String) : ExchangeError :=
  let message := (json.bind (extractErrorFromJson J)).getD rawBody
  let code := (((json.bind fun j => J.get j "code").bind J.asI64).map asI32).getD (status : ℤ)
  if status = 401 then .invalidCredentials message
  else if status = 403 then .permissionDenied message
  else if status = 429 then .rateLimitExceeded none message
  else if status = 400 ∨ status = 422 then .invalidRequest message
  else if status = 404 then .api code ("Not found: " ++ message)
  else if 500 ≤ status ∧ status ≤ 599 then .api code ("Server error: " ++ message)
  else .api code message

/-- `handle_response` (lines 464–495). -/
def handleResponse (response : Response) : Except ExchangeError Value :=
  match response.text with
  | .error e => .error (.network ("Failed to read response: " ++ e))
  | .ok body =>
    if response.status = 429 then
      .error (.rateLimitExceeded response.retryAfter (extractErrorMessage J body))
    else if 200 ≤ response.status ∧ response.status < 300 then
      match J.fromStr body with
      | .ok value => .ok value
      | .error e => .error (.parseError ("Invalid JSON: " ++ e ++ " - Body: " ++ body))
    else .error (mapHttpError J response.status (J.fromStr body).toOption body)

/-- `handle_response_with_headers` (lines 501–540). -/
def handleResponseWithHeaders (response : Response) :
    Except ExchangeError (Value × List (String × String)) :=
  (handleResponse J response).map fun value => (value, response.headers)

/-! ## The loop -/

/-- What a call has done: the attempts it has sent, in order, and what it returns. -/
structure Call (α : Type) where
  sent : List Attempt
  result : Except ExchangeError α

/-- The iterations of the loop from `attempt` on (lines 331–372 and 391–425): `net` is what the
    network does with each attempt of the call. -/
def retryLoop (handle : Response → Except ExchangeError α) (net : ℕ → Attempt) :
    ℕ → ℕ → ExchangeError → Call α
  | 0, _, lastError =>
    ⟨[], .error (.network ("Max retries (" ++ toString client.retryConfig.maxAttempts ++
      ") exceeded. Last error: " ++ lastError.text))⟩
  | left + 1, attempt, _ =>
    match (net attempt).outcome with
    | .ok response => ⟨[net attempt], handle response⟩
    | .error e =>
      let error := mapReqwestError client e
      if shouldRetry error then
        let rest := retryLoop handle net left (attempt + 1) error
        ⟨net attempt :: rest.sent, rest.result⟩
      else ⟨[net attempt], .error error⟩

/-- The loop from its start (lines 329–330 and 389–390). -/
def runLoop (handle : Response → Except ExchangeError α) (net : ℕ → Attempt) : Call α :=
  retryLoop client handle net client.retryConfig.maxAttempts 0 (.network "No attempts made")

/-- `request_with_retry` (lines 321–372): every attempt sends the same request, which the network
    may treat in its own way. -/
def requestWithRetry (net : Request Value → ℕ → Attempt) (request : Request Value) : Call Value :=
  runLoop client (handleResponse J) (net request)

/-- `request_returning_headers` (lines 379–425). -/
def requestReturningHeaders (net : Request Value → ℕ → Attempt) (request : Request Value) :
    Call (Value × List (String × String)) :=
  runLoop client (handleResponseWithHeaders J) (net request)

/-- `post` (lines 187–194). -/
def post (net : Request Value → ℕ → Attempt) (url : String) (body : Value)
    (headers : List (String × String)) : Call Value :=
  requestWithRetry J client net ⟨.post, url, [], headers, some body⟩

/-- `post_with_params` (lines 197–205). -/
def postWithParams (net : Request Value → ℕ → Attempt) (url : String)
    (params : List (String × String)) (body : Value) (headers : List (String × String)) :
    Call Value :=
  requestWithRetry J client net ⟨.post, url, params, headers, some body⟩

/-- `post_with_response_headers` (lines 260–267). -/
def postWithResponseHeaders (net : Request Value → ℕ → Attempt) (url : String) (body : Value)
    (headers : List (String × String)) : Call (Value × List (String × String)) :=
  requestReturningHeaders J client net ⟨.post, url, [], headers, some body⟩

/-- How often the server has processed the request of a call. -/
def Call.executions (call : Call α) : ℕ := call.sent.countP Attempt.processed

/-! ## Executions -/

/-- The client sends another attempt after this one. -/
def retried (attempt : Attempt) : Bool :=
  match attempt.outcome with
  | .ok _ => false
  | .error e => shouldRetry (mapReqwestError client e)

/-- An attempt is retried after a timeout and after an error that is not one of sending the
    request. -/
theorem retried_iff {attempt : Attempt} : retried client attempt = true ↔
    ∃ e, attempt.outcome = .error e ∧ (e.isTimeout = true ∨ e.isRequest = false) := by
  rw [retried]
  cases attempt.outcome with
  | ok response => simp
  | error e =>
    simp only [Except.error.injEq, exists_eq_left', mapReqwestError]
    split_ifs with htimeout hrequest hconnect <;> simp_all [shouldRetry]

/-- The first `k` of the attempts in `net` are sent, at most `left`: the client goes on after those
    that it retries, and only after them. -/
structure Sends (net : ℕ → Attempt) (left k : ℕ) : Prop where
  bounded : k ≤ left
  retried_of_lt : ∀ i, i + 1 < k → retried client (net i) = true
  pos : 0 < left → 0 < k
  last : k < left → retried client (net (k - 1)) = false

theorem sends_retryLoop (handle : Response → Except ExchangeError α) (net : ℕ → Attempt)
    (left attempt : ℕ) (lastError : ExchangeError) :
    ∃ k, (retryLoop client handle net left attempt lastError).sent =
        (List.range k).map (fun i => net (attempt + i)) ∧
      Sends client (fun i => net (attempt + i)) left k := by
  induction left generalizing attempt lastError with
  | zero => exact ⟨0, rfl, le_rfl, by omega, by omega, by omega⟩
  | succ left ih =>
    by_cases hretry : retried client (net attempt) = true
    · obtain ⟨e, he⟩ : ∃ e, (net attempt).outcome = .error e :=
        let ⟨e, he, _⟩ := (retried_iff client).mp hretry
        ⟨e, he⟩
      have hshould : shouldRetry (mapReqwestError client e) = true := by
        rwa [retried, he] at hretry
      obtain ⟨k, hsent, hk⟩ := ih (attempt + 1) (mapReqwestError client e)
      have hshift : ∀ i, net (attempt + 1 + i) = net (attempt + (i + 1)) := by
        intro i
        rw [Nat.add_assoc, Nat.add_comm 1 i]
      refine ⟨k + 1, ?_, Nat.succ_le_succ hk.bounded, ?_, fun _ => Nat.succ_pos k, ?_⟩
      · rw [retryLoop]
        simp only [he, hshould, if_true, hsent, List.range_succ_eq_map, List.map_cons,
          List.map_map, Nat.add_zero, hshift]
        rfl
      · intro i hi
        cases i with
        | zero => exact hretry
        | succ i =>
          have := hk.retried_of_lt i (by omega)
          rwa [hshift] at this
      · intro hlt
        have hpos : 0 < k := hk.pos (by omega)
        have := hk.last (by omega)
        rw [hshift, Nat.sub_add_cancel hpos] at this
        exact this
    · -- a response, or an error that is not retried
      refine ⟨1, ?_, by omega, by omega, by omega, fun _ => Bool.eq_false_iff.mpr hretry⟩
      rw [retryLoop]
      cases he : (net attempt).outcome with
      | ok response => rfl
      | error e =>
        have hshould : shouldRetry (mapReqwestError client e) ≠ true := by
          rwa [retried, he] at hretry
        simp only [if_neg hshould]
        rfl

/-- What is promised of a call that the network treats as `net` says: its executions are bounded by
    the attempts, there is one at most when no attempt that the client retries was processed, and
    nothing is sent after an attempt that is not retried. -/
structure Executed (net : ℕ → Attempt) (call : Call α) : Prop where
  bounded : call.executions ≤ client.retryConfig.maxAttempts
  once : (∀ i < client.retryConfig.maxAttempts,
    retried client (net i) = true → (net i).processed = false) → call.executions ≤ 1
  sends : ∃ k, call.sent = (List.range k).map net ∧
    Sends client net client.retryConfig.maxAttempts k

theorem executed_runLoop (handle : Response → Except ExchangeError α) (net : ℕ → Attempt) :
    Executed client net (runLoop client handle net) := by
  obtain ⟨k, hsent, hk⟩ :=
    sends_retryLoop client handle net client.retryConfig.maxAttempts 0 (.network "No attempts made")
  simp only [Nat.zero_add] at hsent hk
  have hexec : (runLoop client handle net).executions =
      (List.range k).countP fun i => (net i).processed := by
    rw [Call.executions, runLoop, hsent, List.countP_map]
    rfl
  refine ⟨?_, fun hunprocessed => ?_, k, hsent, hk⟩
  · rw [hexec]
    calc (List.range k).countP (fun i => (net i).processed)
        ≤ (List.range k).length := List.countP_le_length
      _ = k := List.length_range
      _ ≤ client.retryConfig.maxAttempts := hk.bounded
  · rw [hexec]
    cases k with
    | zero => exact Nat.zero_le 1
    | succ k =>
      -- all attempts but the last are retried
      have hzero : (List.range k).countP (fun i => (net i).processed) = 0 := by
        refine List.countP_eq_zero.mpr fun i hi => ?_
        have hi := List.mem_range.mp hi
        have := hunprocessed i (by have := hk.bounded; omega)
          (hk.retried_of_lt i (Nat.succ_lt_succ hi))
        simp [this]
      rw [List.range_succ, List.countP_append, hzero, Nat.zero_add]
      exact List.countP_le_length

/-- **Main theorem.** A posted request is processed at most once for each attempt, and at most once
    in all when no attempt was processed after which the client tries again. -/
theorem write_executions (net : Request Value → ℕ → Attempt) (url : String)
    (params headers : List (String × String)) (body : Value) :
    Executed client (net ⟨.post, url, [], headers, some body⟩)
        (post J client net url body headers) ∧
      Executed client (net ⟨.post, url, params, headers, some body⟩)
        (postWithParams J client net url params body headers) ∧
      Executed client (net ⟨.post, url, [], headers, some body⟩)
        (postWithResponseHeaders J client net url body headers) :=
  ⟨executed_runLoop client _ _, executed_runLoop client _ _, executed_runLoop client _ _⟩

/-- Every text is the same value. -/
def unitJson : JsonApi Unit where
  fromStr := fun _ => .ok ()
  get := fun _ _ => none
  asStr := fun _ => none
  asI64 := fun _ => none

/-- The first attempt is processed, but its answer does not come in time; the second is answered. -/
def lateAnswer : ℕ → Attempt
  | 0 => ⟨true, .error ⟨true, false, false, "operation timed out"⟩⟩
  | _ => ⟨true, .ok ⟨200, [], none, .ok "{}"⟩⟩

/-- With the default configuration the order is then placed twice. -/
theorem late_answer_posted_twice :
    ¬∀ (client : HttpClient) (net : Request Unit → ℕ → Attempt) (url : String)
      (headers : List (String × String)),
      (post unitJson client net url () headers).executions ≤ 1 := by
  intro h
  have := h ⟨"10s", ⟨3⟩, false⟩ (fun _ => lateAnswer) "/api/v3/order" []
  exact absurd this (by decide)

end Digdigdig3.Http
