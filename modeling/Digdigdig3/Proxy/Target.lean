import Digdigdig3.Lib.Affixes
import Digdigdig3.Lib.PercentEncoding

/-!
# The destination of a proxied request

The CORS proxy (`crates/digdigdig3-proxy/src`): `router.rs` and `target.rs`, with the allowlist of
`crates/digdigdig3/src/core/proxy_allowlist.rs`. A request names its destination by the first
segment of its path (prefix mode) or by the parameter `url` of its query (encoded mode); both pass
the same gate.

* `handle_relay_cases`: which requests are relayed, and where to.
* `host_of_relayed`: the URL that is relayed to has an allowlisted host, as the `url` crate reads
  it.

The `url` crate is a parameter. A text is the list of its UTF-8 bytes. The response that the client
gets is left out, apart from which one it is.
-/

namespace Digdigdig3.Proxy

/-- A `str`, as its UTF-8 bytes. -/
abbrev Text := Bytes

def lowerByte (b : Byte) : Byte := if 65 ≤ b.val ∧ b.val ≤ 90 then byteOf (b.val + 32) else b

/-- `str::to_ascii_lowercase`. -/
def toAsciiLowercase (t : Text) : Text := t.map lowerByte

/-! ## The allowlist -/

/-- `REST_HOST_ALLOWLIST` (lines 56–143). -/
def restHostAllowlist : List Text :=
  ["open-api.bingx.com", "api.binance.com", "dapi.binance.com", "fapi.binance.com",
    "testapi.binance.vision", "testnet.binancefuture.com", "api-pub.bitfinex.com",
    "api.bitfinex.com", "api.bitget.com", "www.bitstamp.net", "api.bybit.com",
    "api-testnet.bybit.com", "api.coinbase.com", "api.crypto.com", "uat-api.3ona.co",
    "www.deribit.com", "test.deribit.com", "indexer.dydx.trade",
    "indexer.v4testnet.dydx.exchange", "api.gateio.ws", "fx-api.gateio.ws",
    "api-testnet.gateapi.io", "fx-api-testnet.gateio.ws", "api.gemini.com",
    "api.sandbox.gemini.com", "api.hbdm.com", "api.huobi.pro", "api-aws.huobi.pro",
    "api.hyperliquid.xyz", "api.hyperliquid-testnet.xyz", "api.kraken.com",
    "demo-futures.kraken.com", "futures.kraken.com", "api-futures.kucoin.com",
    "api-sandbox-futures.kucoin.com", "api.kucoin.com", "openapi-sandbox.kucoin.com",
    "mainnet.zklighter.elliot.ai", "testnet.zklighter.elliot.ai", "api.mexc.com",
    "contract.mexc.com", "www.okx.com", "api.upbit.com", "id-api.upbit.com", "sg-api.upbit.com",
    "th-api.upbit.com"].map utf8

/-- `is_allowed_rest_host` (lines 159–167). -/
def isAllowedRestHost (host : Text) : Bool :=
  !host.isEmpty && restHostAllowlist.contains (toAsciiLowercase host)

/-- The bytes of the listed hosts: lower-case letters, digits, dots and hyphens. -/
def isHostByte (b : Byte) : Bool :=
  decide (97 ≤ b.val ∧ b.val ≤ 122 ∨ 48 ≤ b.val ∧ b.val ≤ 57 ∨ b.val = 45 ∨ b.val = 46)

theorem isHostByte_of_mem {host : Text} (h : host ∈ restHostAllowlist) :
    host.all isHostByte = true := by
  have hall : (restHostAllowlist.all fun host => host.all isHostByte) = true := by decide
  exact List.all_eq_true.mp hall host h

/-- An allowlisted host has only host bytes, in either case. -/
theorem isHostByte_lowerByte {host : Text} (h : isAllowedRestHost host = true) {b : Byte}
    (hb : b ∈ host) : isHostByte (lowerByte b) = true := by
  simp only [isAllowedRestHost, Bool.and_eq_true, List.contains_iff_mem] at h
  have hall := List.all_eq_true.mp (isHostByte_of_mem h.2)
  exact hall _ (List.mem_map_of_mem hb)

theorem notMem_of_allowed {host : Text} (h : isAllowedRestHost host = true) {b : Byte}
    (hb : isHostByte (lowerByte b) = false) : b ∉ host := by
  intro hmem
  rw [isHostByte_lowerByte h hmem] at hb
  cases hb

theorem ne_nil_of_allowed {host : Text} (h : isAllowedRestHost host = true) : host ≠ [] := by
  rintro rfl
  cases h

@[simp] theorem toAsciiLowercase_toAsciiLowercase (t : Text) :
    toAsciiLowercase (toAsciiLowercase t) = toAsciiLowercase t := by
  have hbyte : ∀ b, lowerByte (lowerByte b) = lowerByte b := by decide +kernel
  rw [toAsciiLowercase, toAsciiLowercase, List.map_map]
  exact List.map_congr_left fun b _ => hbyte b

@[simp] theorem isAllowedRestHost_toAsciiLowercase (host : Text) :
    isAllowedRestHost (toAsciiLowercase host) = isAllowedRestHost host := by
  rw [isAllowedRestHost, isAllowedRestHost, toAsciiLowercase_toAsciiLowercase]
  congr 2
  rw [toAsciiLowercase, List.isEmpty_map]

/-! ## Destinations -/

/-- What the proxy uses of the `url` crate. `join` resolves a `Location` against the URL that
    answered with it. -/
structure UrlCrate where
  Url : Type
  parse : Text → Except Text Url
  scheme : Url → Text
  hostStr : Url → Option Text
  toText : Url → Text
  join : Url → Text → Option Url

/-- `ProxyError` (`error.rs` lines 13–25). -/
inductive ProxyError
  | badRequest (detail : Text)
  | hostNotAllowed (host : Text)
  | methodNotAllowed
  | upstreamError (detail : Text)
  deriving DecidableEq

/-- `Destination` (lines 15–19). -/
structure Destination where
  url : Text
  host : Text
  deriving DecidableEq

/-- `from_prefix` (lines 27–53). -/
def fromPrefix (host rest : Text) (query : Option Text) : Except ProxyError Destination :=
  if host = [] then .error (.badRequest (utf8 "missing destination host in path"))
  else if !isAllowedRestHost host then .error (.hostNotAllowed host)
  else
    let path := if rest = [] ∨ rest.head? = some (ascii '/') then rest else ascii '/' :: rest
    let url := utf8 "https://" ++ host ++ path
    let url :=
      match query.filter (· ≠ []) with
      | some q => url ++ ascii '?' :: q
      | none => url
    .ok ⟨url, toAsciiLowercase host⟩

/-- `from_encoded` (lines 57–88). -/
def fromEncoded (C : UrlCrate) (rawUrlParam : Text) : Except ProxyError Destination :=
  if rawUrlParam = [] then .error (.badRequest (utf8 "empty url parameter"))
  else
    match C.parse rawUrlParam with
    | .error e => .error (.badRequest (utf8 "invalid url parameter: " ++ e))
    | .ok parsed =>
      if C.scheme parsed ≠ utf8 "http" ∧ C.scheme parsed ≠ utf8 "https" then
        .error (.badRequest (utf8 "unsupported scheme '" ++ C.scheme parsed ++
          utf8 "': only http/https allowed"))
      else
        match C.hostStr parsed with
        | none => .error (.badRequest (utf8 "url parameter has no host"))
        | some host =>
          if !isAllowedRestHost host then .error (.hostNotAllowed host)
          else .ok ⟨C.toText parsed, toAsciiLowercase host⟩

/-! ## The router -/

/-- A header, its name in lower case as `HeaderName` keeps it. -/
structure Header where
  name : Text
  value : Text
  deriving DecidableEq

/-- A request that reaches the proxy, with its path as it stands in the request line. -/
structure Request where
  method : Text
  path : Text
  query : Option Text
  headers : List Header

/-- What the router does with a request. `routerError` are the answers of `axum` itself: no route
    for the path, no handler for the method, a path that is not UTF-8 after decoding. -/
inductive Reply
  | health
  | preflight
  | routerError
  | refused (e : ProxyError)
  | relay (dest : Destination)
  deriving DecidableEq

def formDecode (t : Text) : Text :=
  utf8 (fromUtf8Lossy (percentDecode (t.map fun b => if b = ascii '+' then ascii ' ' else b)))

/-- `url::form_urlencoded::parse`. -/
def formUrlencodedParse (query : Text) : List (Text × Text) :=
  ((split (ascii '&') query).filter (· ≠ [])).map fun piece =>
    match splitOnce (ascii '=') piece with
    | some (name, value) => (formDecode name, formDecode value)
    | none => (formDecode piece, [])

/-- `params.get(name)` of the pairs collected into a map: the last one counts. -/
def param (pairs : List (Text × Text)) (name : Text) : Option Text :=
  (pairs.reverse.find? fun p => p.1 = name).map Prod.snd

/-- Both handlers answer a preflight request themselves and refuse other methods than GET and HEAD
    (`reject_unless_get_or_head`, lines 72–78). -/
def guardMethod (method : Text) (reply : Reply) : Reply :=
  if method = utf8 "OPTIONS" then .preflight
  else if method = utf8 "GET" ∨ method = utf8 "HEAD" then reply
  else .refused .methodNotAllowed

def Reply.ofDestination : Except ProxyError Destination → Reply
  | .ok dest => .relay dest
  | .error e => .refused e

/-- `prefix_handler` (lines 97–127), on the decoded remainder of the path. -/
def prefixHandler (method restPath : Text) (query : Option Text) : Reply :=
  guardMethod method <|
    match splitOnce (ascii '/') restPath with
    | some (host, rest) =>
      let restWithSlash := if rest = [] then [] else ascii '/' :: rest
      .ofDestination (fromPrefix host restWithSlash query)
    | none => .ofDestination (fromPrefix restPath [] query)

/-- `encoded_handler` (lines 130–166). -/
def encodedHandler (C : UrlCrate) (method : Text) (query : Option Text) : Reply :=
  guardMethod method <|
    match query with
    | none => .refused (.badRequest (utf8 "missing ?url= parameter"))
    | some query =>
      match param (formUrlencodedParse query) (utf8 "url") with
      | none => .refused (.badRequest (utf8 "missing ?url= parameter"))
      | some rawUrl => .ofDestination (fromEncoded C rawUrl)

/-- `build_router` (lines 63–68). The route `/*rest` takes every path but the other two and `/`,
    and decodes it. -/
def handle (C : UrlCrate) (r : Request) : Reply :=
  if r.path = utf8 "/health" then
    if r.method = utf8 "GET" ∨ r.method = utf8 "HEAD" then .health else .routerError
  else if r.path = utf8 "/proxy" then encodedHandler C r.method r.query
  else
    match r.path with
    | slash :: rest =>
      if slash = ascii '/' ∧ rest ≠ [] then
        if (fromUtf8 (percentDecode rest)).isSome then
          prefixHandler r.method (percentDecode rest) r.query
        else .routerError
      else .routerError
    | [] => .routerError

/-! ## Where a relayed request goes -/

/-- What the documentation of the `url` crate says, as far as the proxy relies on it. -/
structure UrlCrate.Documented (C : UrlCrate) : Prop where
  /-- After `https://` a listed host, in either case, is read up to the path or the query, and kept
      in lower case. -/
  parse_https : ∀ {host rest : Text}, isAllowedRestHost host = true →
    (rest = [] ∨ rest.head? = some (ascii '/') ∨ rest.head? = some (ascii '?')) →
      ∃ u, C.parse (utf8 "https://" ++ host ++ rest) = .ok u ∧ C.scheme u = utf8 "https" ∧
        C.hostStr u = some (toAsciiLowercase host)
  /-- A URL that is written out and parsed again has the scheme and the host it had. -/
  parse_toText : ∀ {t : Text} {u : C.Url}, C.parse t = .ok u →
    ∃ v, C.parse (C.toText u) = .ok v ∧ C.scheme v = C.scheme u ∧ C.hostStr v = C.hostStr u

theorem fromPrefix_eq_ok {host rest : Text} {query : Option Text} {dest : Destination}
    (h : fromPrefix host rest query = .ok dest) :
    isAllowedRestHost host = true ∧ dest.host = toAsciiLowercase host ∧
      ∃ tail, dest.url = utf8 "https://" ++ host ++ tail ∧
        (tail = [] ∨ tail.head? = some (ascii '/') ∨ tail.head? = some (ascii '?')) := by
  simp only [fromPrefix] at h
  split at h
  · cases h
  · split at h
    · cases h
    · rename_i hallowed
      simp only [Bool.not_eq_true', Bool.not_eq_false] at hallowed
      simp only [Except.ok.injEq] at h
      subst h
      refine ⟨hallowed, rfl, ?_⟩
      -- with or without a query, the path is empty or starts with a slash
      split <;> split
      · rename_i q _ hrest
        refine ⟨rest ++ ascii '?' :: q, by simp only [List.append_assoc], ?_⟩
        rcases hrest with rfl | hrest
        · exact .inr (.inr rfl)
        · rw [List.head?_append, hrest]
          exact .inr (.inl rfl)
      · rename_i q _ _
        refine ⟨ascii '/' :: rest ++ ascii '?' :: q, by simp only [List.append_assoc], ?_⟩
        exact .inr (.inl rfl)
      · rename_i hrest
        exact ⟨rest, rfl, hrest.imp id .inl⟩
      · exact ⟨ascii '/' :: rest, rfl, .inr (.inl rfl)⟩

theorem fromEncoded_eq_ok {C : UrlCrate} {raw : Text} {dest : Destination}
    (h : fromEncoded C raw = .ok dest) :
    ∃ u host, C.parse raw = .ok u ∧ (C.scheme u = utf8 "http" ∨ C.scheme u = utf8 "https") ∧
      C.hostStr u = some host ∧ isAllowedRestHost host = true ∧
      dest = ⟨C.toText u, toAsciiLowercase host⟩ := by
  simp only [fromEncoded] at h
  split at h
  · cases h
  · split at h
    · cases h
    · rename_i parsed hparse
      split at h
      · cases h
      · rename_i hscheme
        rw [not_and_or, not_not, not_not] at hscheme
        split at h
        · cases h
        · rename_i host hhost
          split at h
          · cases h
          · rename_i hallowed
            simp only [Bool.not_eq_true', Bool.not_eq_false] at hallowed
            simp only [Except.ok.injEq] at h
            exact ⟨parsed, host, hparse, hscheme, hhost, hallowed, h.symm⟩

theorem guardMethod_eq_relay {method : Text} {reply : Reply} {dest : Destination}
    (h : guardMethod method reply = .relay dest) :
    reply = .relay dest ∧ (method = utf8 "GET" ∨ method = utf8 "HEAD") := by
  simp only [guardMethod] at h
  split at h
  · cases h
  · split at h
    · rename_i hmethod
      exact ⟨h, hmethod⟩
    · cases h

theorem ofDestination_eq_relay {result : Except ProxyError Destination} {dest : Destination}
    (h : Reply.ofDestination result = .relay dest) : result = .ok dest := by
  cases result with
  | ok d =>
    cases h
    rfl
  | error e => cases h

/-- A relayed request is a GET or HEAD, and its destination comes from one of the two shapes. -/
theorem handle_relay_cases {C : UrlCrate} {r : Request} {dest : Destination}
    (h : handle C r = .relay dest) :
    (r.method = utf8 "GET" ∨ r.method = utf8 "HEAD") ∧
      ((∃ host rest, fromPrefix host rest r.query = .ok dest) ∨
        ∃ raw, fromEncoded C raw = .ok dest) := by
  simp only [handle] at h
  split at h
  · split at h <;> cases h
  split at h
  · obtain ⟨hreply, hmethod⟩ := guardMethod_eq_relay h
    refine ⟨hmethod, .inr ?_⟩
    split at hreply
    · cases hreply
    · split at hreply
      · cases hreply
      · exact ⟨_, ofDestination_eq_relay hreply⟩
  · split at h
    · split at h
      · split at h
        · obtain ⟨hreply, hmethod⟩ := guardMethod_eq_relay h
          refine ⟨hmethod, .inl ?_⟩
          split at hreply
          · exact ⟨_, _, ofDestination_eq_relay hreply⟩
          · exact ⟨_, _, ofDestination_eq_relay hreply⟩
        · cases h
      · cases h
    · cases h

/-- The `url` crate reads an allowlisted host in every URL that is relayed to. -/
theorem host_of_relayed {C : UrlCrate} (hC : C.Documented) {r : Request} {dest : Destination}
    (h : handle C r = .relay dest) :
    ∃ u host, C.parse dest.url = .ok u ∧ (C.scheme u = utf8 "http" ∨ C.scheme u = utf8 "https") ∧
      C.hostStr u = some host ∧ isAllowedRestHost host = true := by
  obtain ⟨-, ⟨host, rest, hdest⟩ | ⟨raw, hdest⟩⟩ := handle_relay_cases h
  · obtain ⟨hallowed, -, tail, hurl, htail⟩ := fromPrefix_eq_ok hdest
    obtain ⟨u, hparse, hscheme, hhost⟩ := hC.parse_https hallowed htail
    rw [← isAllowedRestHost_toAsciiLowercase] at hallowed
    exact ⟨u, _, by rw [hurl, hparse], .inr hscheme, hhost, hallowed⟩
  · obtain ⟨u, host, hparse, hscheme, hhost, hallowed, rfl⟩ := fromEncoded_eq_ok hdest
    obtain ⟨v, hv, hvscheme, hvhost⟩ := hC.parse_toText hparse
    exact ⟨v, host, hv, by rwa [hvscheme], by rw [hvhost, hhost], hallowed⟩

end Digdigdig3.Proxy
