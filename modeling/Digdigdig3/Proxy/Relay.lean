import Digdigdig3.Proxy.Target
import Mathlib.Data.List.TakeWhile

/-!
# The requests that the proxy sends

`relay` of `crates/digdigdig3-proxy/src/forward.rs`: the headers that are handed over, and the
requests that the HTTP client then sends. The client is built without a redirect policy of its
own, so up to ten redirects are followed to wherever the answers point.

* `mem_send`: the requested URLs are the first eleven of the chain of redirects.
* `proxySafe_iff`: the proxy talks to allowlisted hosts only just when every redirect that is
  followed stays on them.
* `redirect_leaves_allowlist`: an allowlisted host that redirects to another one.

Answers are a sequence, one for each request. What the client itself does to the headers on a
redirect is a parameter; the time limits appear as failed requests, and what is relayed back is
left out.
-/

namespace Digdigdig3.Proxy

/-! ## Headers -/

/-- `HOP_BY_HOP` (lines 27–37). -/
def hopByHop : List Text :=
  ["connection", "keep-alive", "proxy-authenticate", "proxy-authorization", "te", "trailer",
    "transfer-encoding", "upgrade", "host"].map utf8

/-- `STRIP_FROM_CLIENT_REQUEST` (line 42). -/
def stripFromClientRequest : List Text := ["cookie", "authorization", "origin", "referer"].map utf8

/-- `eq_ignore_ascii_case` with one of the names. -/
def isOneOf (names : List Text) (name : Text) : Bool :=
  names.any fun n => toAsciiLowercase n = toAsciiLowercase name

/-- `is_hop_by_hop` (lines 58–60). -/
def isHopByHop (name : Text) : Bool := isOneOf hopByHop name

/-- `sanitize_request_headers` (lines 64–74). -/
def sanitizeRequestHeaders (headers : List Header) : List Header :=
  headers.filter fun h => !(isHopByHop h.name || isOneOf stripFromClientRequest h.name)

/-- `PROXY_USER_AGENT` (line 19), at this version of the crate. -/
def proxyUserAgent : Text := utf8 "digdigdig3-proxy/0.3.30"

/-- The headers that `relay` puts on its request (lines 104–117). -/
def requestHeaders (clientHeaders : List Header) : List Header :=
  ⟨utf8 "user-agent", proxyUserAgent⟩ :: sanitizeRequestHeaders clientHeaders

/-- The headers of the client that stay between it and the proxy. -/
def Header.isPrivate (h : Header) : Bool := isOneOf stripFromClientRequest h.name

theorem requestHeaders_not_private {headers : List Header} {h : Header}
    (hmem : h ∈ requestHeaders headers) : h.isPrivate = false := by
  rw [requestHeaders, List.mem_cons] at hmem
  rcases hmem with rfl | hmem
  · decide
  · rw [sanitizeRequestHeaders, List.mem_filter, Bool.not_eq_true', Bool.or_eq_false_iff] at hmem
    exact hmem.2.2

theorem sanitizeRequestHeaders_filter (headers : List Header) :
    sanitizeRequestHeaders (headers.filter fun h => !h.isPrivate) =
      sanitizeRequestHeaders headers := by
  rw [sanitizeRequestHeaders, sanitizeRequestHeaders, List.filter_filter]
  refine List.filter_congr fun h _ => ?_
  rw [Header.isPrivate, Bool.not_or, Bool.and_assoc, Bool.and_self]

/-! ## The HTTP client -/

/-- What the network answers to a request. -/
inductive Answer
  | failed
  | response (status : ℕ) (location : Option Text)
  deriving DecidableEq

/-- A request on its way to `url`. -/
structure Outbound (C : UrlCrate) where
  method : Text
  url : C.Url
  headers : List Header

/-- `redirect::Policy::default()`: so many redirects are followed. -/
def redirectLimit : ℕ := 10

section Client

variable (C : UrlCrate) (onRedirect : C.Url → C.Url → List Header → List Header)

/-- Where an answer redirects to. The client speaks HTTP and HTTPS. -/
def redirectTarget (url : C.Url) : Answer → Option C.Url
  | .response status (some location) =>
    if status ∈ [301, 302, 303, 307, 308] then
      (C.join url location).filter fun next =>
        C.scheme next = utf8 "http" ∨ C.scheme next = utf8 "https"
    else none
  | _ => none

/-- The requests that the client sends for one call, with `left` redirects to follow and the
    `i`-th answer next. GET and HEAD stay what they are on every redirect. -/
def send (net : ℕ → Answer) (method : Text) : ℕ → ℕ → C.Url → List Header → List (Outbound C)
  | 0, _, url, headers => [⟨method, url, headers⟩]
  | left + 1, i, url, headers =>
    ⟨method, url, headers⟩ ::
      match redirectTarget C url (net i) with
      | some next => send net method left (i + 1) next (onRedirect url next headers)
      | none => []

/-- `relay` (lines 97–117): the requests it makes. A URL that does not parse is not sent. -/
def relay (net : ℕ → Answer) (method : Text) (dest : Destination) (clientHeaders : List Header) :
    List (Outbound C) :=
  match C.parse dest.url with
  | .ok url => send C onRedirect net method redirectLimit 0 url (requestHeaders clientHeaders)
  | .error _ => []

/-- The requests that the proxy makes for an incoming one. -/
def outbound (net : ℕ → Answer) (r : Request) : List (Outbound C) :=
  match handle C r with
  | .relay dest => relay C onRedirect net r.method dest r.headers
  | _ => []

/-! ## The chain of redirects -/

/-- The URL that is reached after `n` redirects, the `i`-th answer being the first. -/
def redirectChain (net : ℕ → Answer) (i : ℕ) (url : C.Url) : ℕ → Option C.Url
  | 0 => some url
  | n + 1 => (redirectTarget C url (net i)).bind fun next => redirectChain net (i + 1) next n

variable {C} {net : ℕ → Answer} {method : Text}

theorem redirectChain_succ {i : ℕ} {url next : C.Url} (h : redirectTarget C url (net i) = some next)
    (n : ℕ) : redirectChain C net i url (n + 1) = redirectChain C net (i + 1) next n := by
  rw [redirectChain, h, Option.bind_some]

/-- **Run lemma.** The client asks for the URLs of the chain, as far as it follows it. -/
theorem mem_send {left i : ℕ} {url u : C.Url} {headers : List Header} :
    u ∈ (send C onRedirect net method left i url headers).map Outbound.url ↔
      ∃ n ≤ left, redirectChain C net i url n = some u := by
  induction left generalizing i url headers with
  | zero =>
    simp only [send, List.map_cons, List.map_nil, List.mem_singleton, Nat.le_zero]
    constructor
    · rintro rfl
      exact ⟨0, rfl, rfl⟩
    · rintro ⟨n, rfl, hn⟩
      cases hn
      rfl
  | succ left ih =>
    rw [send, List.map_cons, List.mem_cons]
    cases htarget : redirectTarget C url (net i) with
    | none =>
      simp only [List.map_nil, List.not_mem_nil, or_false]
      constructor
      · rintro rfl
        exact ⟨0, Nat.zero_le _, rfl⟩
      · rintro ⟨n, -, hn⟩
        cases n with
        | zero =>
          cases hn
          rfl
        | succ n =>
          rw [redirectChain, htarget] at hn
          cases hn
    | some next =>
      simp only [ih]
      constructor
      · rintro (rfl | ⟨n, hn, hchain⟩)
        · exact ⟨0, Nat.zero_le _, rfl⟩
        · exact ⟨n + 1, Nat.succ_le_succ hn, by rw [redirectChain_succ htarget, hchain]⟩
      · rintro ⟨n, hn, hchain⟩
        cases n with
        | zero =>
          cases hchain
          exact .inl rfl
        | succ n =>
          rw [redirectChain_succ htarget] at hchain
          exact .inr ⟨n, Nat.le_of_succ_le_succ hn, hchain⟩

/-! ## What the proxy promises -/

/-- The URL has an allowlisted host. -/
def UrlCrate.Allowed (C : UrlCrate) (u : C.Url) : Prop :=
  ∃ host, C.hostStr u = some host ∧ isAllowedRestHost host = true

/-- Requests go to allowlisted hosts only, the headers of the request that is made have none of
    the private ones, and nothing that is sent depends on them. -/
structure ProxySafe (net : ℕ → Answer) (r : Request) : Prop where
  allowed : ∀ o ∈ outbound C onRedirect net r, C.Allowed o.url
  first_headers : ∀ o ∈ (outbound C onRedirect net r).head?, ∀ h ∈ o.headers, h.isPrivate = false
  private_unused : ∀ headers, (headers.filter fun h => !h.isPrivate) =
    (r.headers.filter fun h => !h.isPrivate) →
      outbound C onRedirect net { r with headers } = outbound C onRedirect net r

/-- The redirects that are followed from the requested URL stay on allowlisted hosts. -/
def RedirectsAllowed (C : UrlCrate) (net : ℕ → Answer) (r : Request) : Prop :=
  ∀ dest, handle C r = .relay dest → ∀ url, C.parse dest.url = .ok url →
    ∀ n ≤ redirectLimit, ∀ u, 0 < n → redirectChain C net 0 url n = some u → C.Allowed u

theorem handle_headers (r : Request) (headers : List Header) :
    handle C { r with headers } = handle C r := rfl

theorem outbound_congr {r : Request} {headers : List Header}
    (h : (headers.filter fun h => !h.isPrivate) = r.headers.filter fun h => !h.isPrivate) :
    outbound C onRedirect net { r with headers } = outbound C onRedirect net r := by
  have hsanitize : sanitizeRequestHeaders headers = sanitizeRequestHeaders r.headers := by
    rw [← sanitizeRequestHeaders_filter, h, sanitizeRequestHeaders_filter]
  rw [outbound, outbound, handle_headers]
  split
  · rw [relay, relay, requestHeaders, requestHeaders, hsanitize]
  · rfl

theorem headers_of_head {r : Request} {o : Outbound C}
    (ho : o ∈ (outbound C onRedirect net r).head?) : o.headers = requestHeaders r.headers := by
  rw [outbound] at ho
  split at ho
  · rw [relay] at ho
    split at ho
    · rw [redirectLimit, send] at ho
      cases ho
      rfl
    · cases ho
  · cases ho

/-- **Main theorem.** The proxy is safe just when no redirect that is followed leaves the
    allowlist. -/
theorem proxySafe_iff (hC : C.Documented) (net : ℕ → Answer) (r : Request) :
    ProxySafe onRedirect net r ↔ RedirectsAllowed C net r := by
  constructor
  · intro h dest hdest url hurl n hn u _ hu
    have hmem : u ∈ (outbound C onRedirect net r).map Outbound.url := by
      rw [outbound, hdest]
      simp only [relay, hurl]
      exact (mem_send onRedirect).mpr ⟨n, hn, hu⟩
    obtain ⟨o, ho, rfl⟩ := List.mem_map.mp hmem
    exact h.allowed o ho
  · intro h
    refine ⟨fun o ho => ?_, fun o ho hdr hmem => ?_, fun headers => outbound_congr onRedirect⟩
    · rw [outbound] at ho
      split at ho
      · rename_i dest hdest
        obtain ⟨url, host, hurl, -, hhost, hallowed⟩ := host_of_relayed hC hdest
        simp only [relay, hurl] at ho
        obtain ⟨n, hn, hu⟩ := (mem_send onRedirect).mp (List.mem_map_of_mem ho)
        rcases Nat.eq_zero_or_pos n with rfl | hpos
        · cases hu
          exact ⟨host, hhost, hallowed⟩
        · exact h dest hdest url hurl n hn _ hpos hu
      · cases ho
    · rw [headers_of_head onRedirect ho] at hmem
      exact requestHeaders_not_private hmem

end Client

/-! ## A `url` crate for plain URLs -/

/-- A URL without user, port and fragment. -/
structure PlainUrl where
  secure : Bool
  host : Text
  rest : Text
  deriving DecidableEq

section PlainUrl

variable (normalize : Text → Text)

def PlainUrl.scheme (u : PlainUrl) : Text := if u.secure then utf8 "https" else utf8 "http"

def PlainUrl.toText (u : PlainUrl) : Text := u.scheme ++ utf8 "://" ++ (u.host ++ u.rest)

def PlainUrl.parseAuthority (secure : Bool) (t : Text) : Except Text PlainUrl :=
  let host := t.takeWhile fun b => isHostByte (lowerByte b)
  let rest := t.dropWhile fun b => isHostByte (lowerByte b)
  if host ≠ [] ∧ (rest = [] ∨ rest.head? = some (ascii '/') ∨ rest.head? = some (ascii '?')) then
    .ok ⟨secure, toAsciiLowercase host, normalize rest⟩
  else .error (utf8 "invalid domain character")

def PlainUrl.parse (t : Text) : Except Text PlainUrl :=
  if (utf8 "https://").isPrefixOf t then parseAuthority normalize true (t.drop 8)
  else if (utf8 "http://").isPrefixOf t then parseAuthority normalize false (t.drop 7)
  else .error (utf8 "relative URL without a base")

/-- The `url` crate on plain URLs, of which it normalises the path and the query. -/
def plainUrlCrate : UrlCrate where
  Url := PlainUrl
  parse := PlainUrl.parse normalize
  scheme := PlainUrl.scheme
  hostStr u := some u.host
  toText := PlainUrl.toText
  join _ location := (PlainUrl.parse normalize location).toOption

variable {normalize}

theorem parseAuthority_append {host rest : Text} (secure : Bool) (hne : host ≠ [])
    (hhost : ∀ b ∈ host, isHostByte (lowerByte b) = true)
    (hrest : rest = [] ∨ rest.head? = some (ascii '/') ∨ rest.head? = some (ascii '?')) :
    PlainUrl.parseAuthority normalize secure (host ++ rest) =
      .ok ⟨secure, toAsciiLowercase host, normalize rest⟩ := by
  have hstop : rest.takeWhile (fun b => isHostByte (lowerByte b)) = [] ∧
      rest.dropWhile (fun b => isHostByte (lowerByte b)) = rest := by
    cases rest with
    | nil => exact ⟨rfl, rfl⟩
    | cons b rest =>
      simp only [List.head?_cons, Option.some.injEq, reduceCtorEq, false_or] at hrest
      have hb : isHostByte (lowerByte b) = false := by
        rcases hrest with rfl | rfl <;> decide
      exact ⟨List.takeWhile_cons_of_neg (by simp [hb]), List.dropWhile_cons_of_neg (by simp [hb])⟩
  simp only [PlainUrl.parseAuthority]
  rw [List.takeWhile_append_of_pos hhost, List.dropWhile_append_of_pos hhost, hstop.1, hstop.2,
    List.append_nil, if_pos ⟨hne, hrest⟩]

theorem parse_https (t : Text) :
    PlainUrl.parse normalize (utf8 "https://" ++ t) = PlainUrl.parseAuthority normalize true t := by
  have hpre : (utf8 "https://").isPrefixOf (utf8 "https://" ++ t) = true :=
    List.isPrefixOf_iff_prefix.mpr (List.prefix_append _ _)
  have hlen : (utf8 "https://").length = 8 := by decide
  rw [PlainUrl.parse, if_pos hpre, ← hlen, List.drop_left]

theorem parse_http (t : Text) :
    PlainUrl.parse normalize (utf8 "http://" ++ t) = PlainUrl.parseAuthority normalize false t := by
  have hpre : (utf8 "http://").isPrefixOf (utf8 "http://" ++ t) = true :=
    List.isPrefixOf_iff_prefix.mpr (List.prefix_append _ _)
  have hlen : (utf8 "http://").length = 7 := by decide
  have hnot : ¬ utf8 "https://" <+: utf8 "http://" ++ t := by
    intro h
    have hfive := h.take 5
    rw [List.take_append_of_le_length (by rw [hlen]; omega)] at hfive
    exact absurd hfive (by decide)
  rw [PlainUrl.parse, if_neg (by rwa [List.isPrefixOf_iff_prefix]), if_pos hpre, ← hlen,
    List.drop_left]

theorem parse_toText_plain {u : PlainUrl} (hne : u.host ≠ [])
    (hhost : ∀ b ∈ u.host, isHostByte (lowerByte b) = true)
    (hrest : u.rest.head? = some (ascii '/')) :
    PlainUrl.parse normalize u.toText =
      .ok ⟨u.secure, toAsciiLowercase u.host, normalize u.rest⟩ := by
  have happend : ∀ s, utf8 s ++ utf8 "://" = utf8 (s ++ "://") := by
    intro s
    simp [utf8, encodeChars]
  obtain ⟨secure, host, rest⟩ := u
  cases secure with
  | true =>
    show PlainUrl.parse normalize (utf8 "https" ++ utf8 "://" ++ (host ++ rest)) = _
    rw [happend, show "https" ++ "://" = "https://" by decide, parse_https]
    exact parseAuthority_append true hne hhost (.inr (.inl hrest))
  | false =>
    show PlainUrl.parse normalize (utf8 "http" ++ utf8 "://" ++ (host ++ rest)) = _
    rw [happend, show "http" ++ "://" = "http://" by decide, parse_http]
    exact parseAuthority_append false hne hhost (.inr (.inl hrest))

theorem parseAuthority_eq_ok {secure : Bool} {t : Text} {u : PlainUrl}
    (h : PlainUrl.parseAuthority normalize secure t = .ok u) :
    u.host ≠ [] ∧ (∀ b ∈ u.host, isHostByte (lowerByte b) = true) ∧
      toAsciiLowercase u.host = u.host ∧ ∃ rest, u.rest = normalize rest := by
  simp only [PlainUrl.parseAuthority] at h
  split at h
  · rename_i hif
    simp only [Except.ok.injEq] at h
    subst h
    refine ⟨by simpa [toAsciiLowercase] using hif.1, fun b hb => ?_, by simp, ⟨_, rfl⟩⟩
    obtain ⟨c, hc, rfl⟩ := List.mem_map.mp hb
    have hlower : ∀ b, lowerByte (lowerByte b) = lowerByte b := by decide +kernel
    have hbyte := List.mem_takeWhile_imp hc
    rw [hlower]
    exact hbyte
  · cases h

theorem parse_eq_ok {t : Text} {u : PlainUrl} (h : PlainUrl.parse normalize t = .ok u) :
    ∃ secure t', PlainUrl.parseAuthority normalize secure t' = .ok u := by
  rw [PlainUrl.parse] at h
  split at h
  · exact ⟨_, _, h⟩
  · split at h
    · exact ⟨_, _, h⟩
    · cases h

theorem documented_plainUrlCrate
    (hnorm : ∀ rest, (normalize rest).head? = some (ascii '/')) :
    (plainUrlCrate normalize).Documented where
  parse_https := by
    intro host rest hallowed hrest
    have hhost : ∀ b ∈ host, isHostByte (lowerByte b) = true :=
      fun b hb => isHostByte_lowerByte hallowed hb
    refine ⟨(⟨true, toAsciiLowercase host, normalize rest⟩ : PlainUrl), ?_, rfl, rfl⟩
    rw [List.append_assoc]
    exact (parse_https _).trans
      (parseAuthority_append true (ne_nil_of_allowed hallowed) hhost hrest)
  parse_toText := by
    intro t u h
    obtain ⟨secure, t', h'⟩ := parse_eq_ok h
    obtain ⟨hne, hhost, hlower, rest, hrest⟩ := parseAuthority_eq_ok h'
    refine ⟨(⟨u.secure, toAsciiLowercase u.host, normalize u.rest⟩ : PlainUrl),
      parse_toText_plain hne hhost (by rw [hrest, hnorm]), rfl, ?_⟩
    show some (toAsciiLowercase u.host) = some u.host
    rw [hlower]

end PlainUrl

/-! ## Redirects that leave the allowlist -/

/-- The path of a URL without one is `/`. -/
def addSlash (rest : Text) : Text :=
  if rest.head? = some (ascii '/') then rest else ascii '/' :: rest

theorem head?_addSlash (rest : Text) : (addSlash rest).head? = some (ascii '/') := by
  rw [addSlash]
  split
  · assumption
  · rfl

def sampleRequest : Request :=
  ⟨utf8 "GET", utf8 "/api.binance.com/api/v3/time", none, [⟨utf8 "cookie", utf8 "a=b"⟩]⟩

/-- The host answers the first request with a redirect to `location`, and later ones with 200. -/
def redirectOnce (location : String) : ℕ → Answer
  | 0 => .response 302 (some (utf8 location))
  | _ + 1 => .response 200 none

theorem handle_sampleRequest : handle (plainUrlCrate addSlash) sampleRequest =
    .relay ⟨utf8 "https://api.binance.com/api/v3/time", utf8 "api.binance.com"⟩ := by
  decide

theorem parse_sample :
    PlainUrl.parse addSlash (utf8 "https://api.binance.com/api/v3/time") =
      .ok ⟨true, utf8 "api.binance.com", utf8 "/api/v3/time"⟩ := rfl

theorem redirectChain_sample (location : String) {u : PlainUrl} (i n : ℕ) :
    redirectChain (plainUrlCrate addSlash) (redirectOnce location) (i + 1) u (n + 1) = none := rfl

theorem redirectTarget_sample (location : String) (u : PlainUrl) :
    redirectTarget (plainUrlCrate addSlash) u (redirectOnce location 0) =
      ((PlainUrl.parse addSlash (utf8 location)).toOption.filter fun next =>
        next.scheme = utf8 "http" ∨ next.scheme = utf8 "https") := rfl

/-- The host redirects within the allowlist. -/
theorem proxySafe_of_allowed_redirect :
    ProxySafe (C := plainUrlCrate addSlash) (fun _ _ headers => headers)
      (redirectOnce "https://api.binance.com/") sampleRequest := by
  refine (proxySafe_iff _ (documented_plainUrlCrate head?_addSlash) _ _).mpr ?_
  intro dest hdest url hurl n hn u hpos hu
  obtain ⟨n, rfl⟩ := Nat.exists_eq_succ_of_ne_zero hpos.ne'
  have hnext : redirectTarget (plainUrlCrate addSlash) url
      (redirectOnce "https://api.binance.com/" 0) =
        some (⟨true, utf8 "api.binance.com", utf8 "/"⟩ : PlainUrl) :=
    (redirectTarget_sample _ _).trans rfl
  rw [redirectChain_succ hnext] at hu
  cases n with
  | zero =>
    obtain rfl := Option.some.inj hu
    exact ⟨utf8 "api.binance.com", rfl, by decide⟩
  | succ n =>
    rw [redirectChain_sample] at hu
    cases hu

/-- It redirects to another host, and the proxy follows. -/
theorem redirect_leaves_allowlist :
    ¬ ∀ (C : UrlCrate) (onRedirect : C.Url → C.Url → List Header → List Header),
      C.Documented → ∀ net r, ProxySafe onRedirect net r := by
  intro h
  have hsafe := h (plainUrlCrate addSlash) (fun _ _ headers => headers)
    (documented_plainUrlCrate head?_addSlash) (redirectOnce "https://evil.com/") sampleRequest
  have hnext : redirectChain (plainUrlCrate addSlash) (redirectOnce "https://evil.com/") 0
      (⟨true, utf8 "api.binance.com", utf8 "/api/v3/time"⟩ : PlainUrl) 1 =
        some (⟨true, utf8 "evil.com", utf8 "/"⟩ : PlainUrl) := rfl
  have hevil : (⟨true, utf8 "evil.com", utf8 "/"⟩ : PlainUrl) ∈
      (outbound (plainUrlCrate addSlash) (fun _ _ headers => headers)
        (redirectOnce "https://evil.com/") sampleRequest).map Outbound.url := by
    have hparse : (plainUrlCrate addSlash).parse (utf8 "https://api.binance.com/api/v3/time") =
        .ok ⟨true, utf8 "api.binance.com", utf8 "/api/v3/time"⟩ := parse_sample
    rw [outbound, handle_sampleRequest]
    simp only [relay, hparse]
    exact (mem_send _).mpr ⟨1, by decide, hnext⟩
  obtain ⟨o, ho, hurl⟩ := List.mem_map.mp hevil
  obtain ⟨host, hhost, hallowed⟩ := hsafe.allowed o ho
  rw [hurl] at hhost
  obtain rfl := Option.some.inj hhost
  exact absurd hallowed (by decide)

end Digdigdig3.Proxy
