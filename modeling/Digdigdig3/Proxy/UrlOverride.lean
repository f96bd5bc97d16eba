import Digdigdig3.Lib.UrlDecoded
import Digdigdig3.Proxy.Relay

/-!
# Rewritten URLs

`assemble_rest_url` (`crates/digdigdig3/src/core/http/url_override.rs`) writes the URL of a request
into a URL of the proxy, and the proxy takes it out again.

* `undone_encoded`: the encoded shape gives the URL back.
* `undone_prefix_iff`: the prefix shape does when no escape of the path is lost by decoding.

The proxy decodes the path in prefix mode, and forwards it decoded. What the client's HTTP stack
does to the URL that it is handed is left out: the proxy receives it as it was assembled.
-/

namespace Digdigdig3.Proxy

/-! ## The client -/

/-- `URL_COMPONENT` (lines 26–55). Bytes from `0x80` on are always escaped. -/
def urlComponent (b : Byte) : Bool :=
  decide (b.val < 32 ∨ 127 ≤ b.val) ||
    (utf8 "\x20\x22#%<>[\x5c]^\x60\x7b|\x7d:/?&=+@").contains b

/-- The place of the target in a template. -/
def urlMark : Text := utf8 "\x7burl\x7d"

/-- `str::replace`, with so many bytes of an occurrence still to be passed over. -/
def replaceAll (pat rep : Text) : ℕ → Text → Text
  | _, [] => []
  | 0, b :: bs =>
    if pat.isPrefixOf (b :: bs) then rep ++ replaceAll pat rep (pat.length - 1) bs
    else b :: replaceAll pat rep 0 bs
  | skip + 1, _ :: bs => replaceAll pat rep skip bs

/-- `assemble_rest_url` (lines 68–83). -/
def assembleRestUrl (overrideBase : Option Text) (realBase path query : Text) : Text :=
  match overrideBase with
  | some ov =>
    if urlMark <:+: ov then
      replaceAll urlMark (percentEncode urlComponent (realBase ++ path ++ query)) 0 ov
    else ov ++ path ++ query
  | none => realBase ++ path ++ query

/-- The proxy served at `proxy`, in encoded mode. -/
def encodedOverride (proxy : Text) : Text := proxy ++ utf8 "/proxy?url=" ++ urlMark

/-- The proxy served at `proxy`, in prefix mode. -/
def prefixOverride (proxy host : Text) : Text := proxy ++ ascii '/' :: host

theorem replaceAll_skip (pat rep bs : Text) : replaceAll pat rep bs.length bs = [] := by
  induction bs with
  | nil => rfl
  | cons b bs ih => exact ih

/-- A template whose only mark stands at its end. -/
theorem replaceAll_append {c : Byte} {pat rep pre : Text} (h : c ∉ pre) :
    replaceAll (c :: pat) rep 0 (pre ++ c :: pat) = pre ++ rep := by
  induction pre with
  | nil =>
    have hself : (c :: pat).isPrefixOf (c :: pat) = true :=
      List.isPrefixOf_iff_prefix.mpr (List.prefix_refl _)
    rw [List.nil_append, replaceAll, if_pos hself, List.length_cons, Nat.add_sub_cancel,
      replaceAll_skip, List.append_nil, List.nil_append]
  | cons b pre ih =>
    rw [List.mem_cons, not_or] at h
    have hnot : ¬ (c :: pat).isPrefixOf (b :: (pre ++ c :: pat)) = true := by
      rw [List.isPrefixOf_iff_prefix, List.cons_prefix_cons]
      exact fun hpre => h.1 hpre.1
    rw [List.cons_append, replaceAll, if_neg hnot, ih h.2, List.cons_append]

theorem assembleRestUrl_encoded {proxy : Text} (hproxy : ascii '\x7b' ∉ proxy)
    (base path query : Text) :
    assembleRestUrl (some (encodedOverride proxy)) base path query =
      proxy ++ (utf8 "/proxy?url=" ++ percentEncode urlComponent (base ++ path ++ query)) := by
  have hmark : urlMark = ascii '\x7b' :: utf8 "url\x7d" := by decide
  have hpre : ascii '\x7b' ∉ proxy ++ utf8 "/proxy?url=" := by
    rw [List.mem_append, not_or]
    exact ⟨hproxy, by decide⟩
  have hinfix : urlMark <:+: encodedOverride proxy := ⟨_, [], List.append_nil _⟩
  rw [assembleRestUrl, if_pos hinfix, encodedOverride, hmark, replaceAll_append hpre,
    List.append_assoc]

theorem assembleRestUrl_prefixed {proxy host : Text} (hproxy : ascii '\x7b' ∉ proxy)
    (hhost : isAllowedRestHost host = true) (base path query : Text) :
    assembleRestUrl (some (prefixOverride proxy host)) base path query =
      proxy ++ (ascii '/' :: (host ++ path) ++ query) := by
  have hinfix : ¬ urlMark <:+: prefixOverride proxy host := by
    intro h
    have hmem : ascii '\x7b' ∈ prefixOverride proxy host := h.subset (by decide)
    rw [prefixOverride, List.mem_append, List.mem_cons] at hmem
    rcases hmem with hmem | hmem | hmem
    · exact hproxy hmem
    · exact absurd hmem (by decide)
    · exact notMem_of_allowed hhost (by decide) hmem
  rw [assembleRestUrl, if_neg hinfix, prefixOverride]
  simp only [List.append_assoc, List.cons_append]

/-! ## The proxy -/

/-- The request for a target, the part of the URL behind the authority. -/
def requestOf (method target : Text) (headers : List Header) : Request :=
  match splitOnce (ascii '?') target with
  | some (path, query) => ⟨method, path, some query, headers⟩
  | none => ⟨method, target, none, headers⟩

/-- What the documentation of the `url` crate says of URLs at a listed host. -/
structure UrlCrate.Normalizes (C : UrlCrate) (sets : EncodeSets) : Prop where
  parse_https : ∀ {host rest : Text}, isAllowedRestHost host = true →
    (rest = [] ∨ rest.head? = some (ascii '/') ∨ rest.head? = some (ascii '?')) →
      ∃ u, C.parse (utf8 "https://" ++ host ++ rest) = .ok u ∧ C.scheme u = utf8 "https" ∧
        C.hostStr u = some (toAsciiLowercase host) ∧
        C.toText u = utf8 "https://" ++ toAsciiLowercase host ++ normalizeRest sets rest

/-- Equal after normalisation by the `url` crate. -/
def SameUrl (C : UrlCrate) (a b : Text) : Prop :=
  ∃ u v, C.parse a = .ok u ∧ C.parse b = .ok v ∧ C.toText u = C.toText v

/-- The request that the client makes with the override reaches the proxy, which forwards it to
    the URL it was made from. -/
def Undone (C : UrlCrate) (proxy override base path query method : Text)
    (headers : List Header) : Prop :=
  ∃ target dest, assembleRestUrl (some override) base path query = proxy ++ target ∧
    handle C (requestOf method target headers) = .relay dest ∧
    SameUrl C dest.url (base ++ path ++ query)

section Proxy

variable {C : UrlCrate} {sets : EncodeSets}

theorem sameUrl_iff (hC : C.Normalizes sets) {host host' rest rest' : Text}
    (hallowed : isAllowedRestHost host = true)
    (hhost : toAsciiLowercase host' = toAsciiLowercase host)
    (hrest : rest = [] ∨ rest.head? = some (ascii '/') ∨ rest.head? = some (ascii '?'))
    (hrest' : rest' = [] ∨ rest'.head? = some (ascii '/') ∨ rest'.head? = some (ascii '?')) :
    SameUrl C (utf8 "https://" ++ host' ++ rest') (utf8 "https://" ++ host ++ rest) ↔
      normalizeRest sets rest' = normalizeRest sets rest := by
  have hallowed' : isAllowedRestHost host' = true := by
    rw [← isAllowedRestHost_toAsciiLowercase, hhost, isAllowedRestHost_toAsciiLowercase, hallowed]
  obtain ⟨u, hu, -, -, hutext⟩ := hC.parse_https hallowed hrest
  obtain ⟨v, hv, -, -, hvtext⟩ := hC.parse_https hallowed' hrest'
  rw [hhost] at hvtext
  constructor
  · rintro ⟨v', u', hv', hu', htext⟩
    rw [hv, Except.ok.injEq] at hv'
    rw [hu, Except.ok.injEq] at hu'
    subst hv' hu'
    rw [hvtext, hutext] at htext
    exact List.append_cancel_left htext
  · intro h
    exact ⟨v, u, hv, hu, by rw [hvtext, hutext, h]⟩

theorem head?_normalizeRest (rest : Text) :
    (normalizeRest sets rest).head? = some (ascii '/') := by
  simp only [normalizeRest]
  rw [normalizePath]
  cases hsegs : removeDots [] (pathSegments (percentEncode sets.path
      ((cutAt (ascii '?') (cutAt (ascii '#') (stripInvisible rest)).1).1.map normSlash))) with
  | nil => exact absurd hsegs (removeDots_ne_nil _ (pathSegments_ne_nil _))
  | cons seg segs => rfl

/-! ### The encoded shape -/

theorem utf8_of_ascii {t : Text} (h : ∀ b ∈ t, b.val < 128) : ∃ s, utf8 s = t := by
  induction t with
  | nil => exact ⟨"", rfl⟩
  | cons b t ih =>
    rw [List.forall_mem_cons] at h
    obtain ⟨s, hs⟩ := ih h.2
    have hchar : ∀ b : Byte, b.val < 128 → encodeChar (Char.ofNat b.val) = [b] := by
      decide +kernel
    refine ⟨String.ofList (Char.ofNat b.val :: s.toList), ?_⟩
    rw [utf8, String.toList_ofList, encodeChars, List.flatMap_cons, hchar b h.1,
      List.singleton_append]
    rw [← hs]
    rfl

theorem formDecode_of_ascii {t d : Text} (hplus : ascii '+' ∉ t) (hdecode : percentDecode t = d)
    (hascii : ∀ b ∈ d, b.val < 128) : formDecode t = d := by
  obtain ⟨s, hs⟩ := utf8_of_ascii hascii
  have hmap : (t.map fun b => if b = ascii '+' then ascii ' ' else b) = t := by
    refine (List.map_congr_left fun b hb => ?_).trans (List.map_id t)
    have hne : b ≠ ascii '+' := by
      rintro rfl
      exact hplus hb
    rw [if_neg hne]
    rfl
  rw [formDecode, hmap, hdecode, ← hs, fromUtf8Lossy_utf8]

theorem filter_ne_nil_singleton {t : Text} (h : t ≠ []) : [t].filter (· ≠ []) = [t] := by
  simp [h]

/-- The query of the encoded shape is one parameter, and decodes to the target. -/
theorem param_encoded {target : Text} (hascii : ∀ b ∈ target, b.val < 128) :
    param (formUrlencodedParse (utf8 "url=" ++ percentEncode urlComponent target)) (utf8 "url") =
      some target := by
  have hname : utf8 "url=" = utf8 "url" ++ [ascii '='] := by decide
  have hamp : ascii '&' ∉ utf8 "url=" ++ percentEncode urlComponent target := by
    rw [List.mem_append, not_or]
    exact ⟨by decide, notMem_percentEncode (by decide) (by decide)
      (by decide) target⟩
  have hplus : ascii '+' ∉ percentEncode urlComponent target :=
    notMem_percentEncode (by decide) (by decide) (by decide) target
  have hvalue : formDecode (percentEncode urlComponent target) = target :=
    formDecode_of_ascii hplus (percentDecode_percentEncode (by decide) target) hascii
  have hkey : formDecode (utf8 "url") = utf8 "url" :=
    formDecode_of_ascii (by decide +kernel) (by decide +kernel) (by decide +kernel)
  have hne : utf8 "url=" ++ percentEncode urlComponent target ≠ [] := by
    rw [hname]
    simp
  have hsplit : splitOnce (ascii '=') (utf8 "url=" ++ percentEncode urlComponent target) =
      some (utf8 "url", percentEncode urlComponent target) := by
    rw [hname, List.append_assoc, List.singleton_append]
    exact splitOnce_append (by decide) _
  rw [formUrlencodedParse, split_of_notMem hamp, filter_ne_nil_singleton hne, List.map_singleton,
    hsplit]
  simp only [hkey, hvalue]
  rw [param, List.reverse_singleton, List.find?_cons_of_pos (by simp), Option.map_some]

theorem fromEncoded_https (hC : C.Normalizes sets) {host rest : Text}
    (hallowed : isAllowedRestHost host = true)
    (hrest : rest = [] ∨ rest.head? = some (ascii '/') ∨ rest.head? = some (ascii '?')) :
    fromEncoded C (utf8 "https://" ++ host ++ rest) =
      .ok ⟨utf8 "https://" ++ toAsciiLowercase host ++ normalizeRest sets rest,
        toAsciiLowercase host⟩ := by
  obtain ⟨u, hu, hscheme, hhost, htext⟩ := hC.parse_https hallowed hrest
  have hne : utf8 "https://" ++ host ++ rest ≠ [] := by
    intro h
    rw [List.append_assoc, List.append_eq_nil_iff] at h
    exact absurd h.1 (by decide)
  have hlower : isAllowedRestHost (toAsciiLowercase host) = true := by
    rw [isAllowedRestHost_toAsciiLowercase, hallowed]
  have hhttps : ¬ (C.scheme u ≠ utf8 "http" ∧ C.scheme u ≠ utf8 "https") :=
    fun h => h.2 hscheme
  rw [fromEncoded, if_neg hne, hu]
  simp only
  rw [if_neg hhttps, hhost]
  simp only [hlower, Bool.not_true, Bool.false_eq_true, if_false, htext,
    toAsciiLowercase_toAsciiLowercase]

theorem guardMethod_eq {method : Text} (h : method = utf8 "GET" ∨ method = utf8 "HEAD")
    (reply : Reply) : guardMethod method reply = reply := by
  have hne : method ≠ utf8 "OPTIONS" := by
    rcases h with rfl | rfl <;> decide
  rw [guardMethod, if_neg hne, if_pos h]

theorem handle_proxy (method : Text) (query : Option Text) (headers : List Header) :
    handle C ⟨method, utf8 "/proxy", query, headers⟩ = encodedHandler C method query := by
  have hne : utf8 "/proxy" ≠ utf8 "/health" := by decide
  simp only [handle]
  rw [if_neg hne, if_pos trivial]

theorem host_lt {host : Text} (h : isAllowedRestHost host = true) {b : Byte} (hb : b ∈ host) :
    b.val < 128 := by
  have hall : ∀ b, isHostByte (lowerByte b) = true → b.val < 128 := by decide +kernel
  exact hall b (isHostByte_lowerByte h hb)

theorem urlByte_lt {b : Byte} (h : isQueryByte b = true ∨ b = ascii '%') : b.val < 128 := by
  have hall : ∀ b, isQueryByte b = true ∨ b = ascii '%' → b.val < 128 := by decide +kernel
  exact hall b h

theorem head?_append_of_path {path : Text} (h : path.head? = some (ascii '/')) (query : Text) :
    (path ++ query).head? = some (ascii '/') := by
  rw [List.head?_append, h]
  rfl

/-- The encoded shape gives every URL back. -/
theorem undone_encoded (hsets : sets.Proper) (hC : C.Normalizes sets)
    {proxy host path query method : Text} (headers : List Header)
    (hproxy : ascii '\x7b' ∉ proxy) (hallowed : isAllowedRestHost host = true)
    (hpath : IsUrlPath path) (hslash : path.head? = some (ascii '/'))
    (hquery : IsUrlQuery query) (hmethod : method = utf8 "GET" ∨ method = utf8 "HEAD") :
    Undone C proxy (encodedOverride proxy) (utf8 "https://" ++ host) path query method headers := by
  have hstart := head?_append_of_path hslash query
  have hascii : ∀ b ∈ utf8 "https://" ++ host ++ path ++ query, b.val < 128 := by
    intro b hb
    rw [List.append_assoc, List.mem_append, List.mem_append] at hb
    rcases hb with (hb | hb) | hb
    · have hall : ∀ b ∈ utf8 "https://", b.val < 128 := by decide +kernel
      exact hall b hb
    · exact host_lt hallowed hb
    · exact urlByte_lt (mem_path_query hpath hquery hb)
  have hcut : utf8 "/proxy?url=" = utf8 "/proxy" ++ ascii '?' :: utf8 "url=" := by decide
  refine ⟨_, ⟨utf8 "https://" ++ toAsciiLowercase host ++ normalizeRest sets (path ++ query),
    toAsciiLowercase host⟩, assembleRestUrl_encoded hproxy _ path query, ?_, ?_⟩
  · rw [requestOf, hcut, List.append_assoc, List.cons_append,
      splitOnce_append (by decide)]
    simp only [handle_proxy, encodedHandler, guardMethod_eq hmethod, param_encoded hascii]
    rw [List.append_assoc, fromEncoded_https hC hallowed (.inr (.inl hstart))]
    rfl
  · rw [List.append_assoc (utf8 "https://" ++ host)]
    rw [sameUrl_iff hC hallowed (toAsciiLowercase_toAsciiLowercase host) (.inr (.inl hstart))
      (.inr (.inl (head?_normalizeRest _)))]
    exact normalizeRest_idem hsets hpath hquery

/-! ### The prefix shape -/

theorem handle_prefixed {method host p : Text} (query : Option Text) (headers : List Header) :
    handle C ⟨method, ascii '/' :: (host ++ ascii '/' :: p), query, headers⟩ =
      if (fromUtf8 (percentDecode (host ++ ascii '/' :: p))).isSome then
        prefixHandler method (percentDecode (host ++ ascii '/' :: p)) query
      else .routerError := by
  have hne : ∀ route, (route.all fun b => b ≠ ascii '/') = true →
      ascii '/' :: (host ++ ascii '/' :: p) ≠ ascii '/' :: route := by
    intro route hroute h
    rw [List.cons.injEq] at h
    have hmem : ascii '/' ∈ route := by
      rw [← h.2]
      simp
    simpa using List.all_eq_true.mp hroute _ hmem
  have hhealth : utf8 "/health" = ascii '/' :: utf8 "health" := by decide
  have hproxy : utf8 "/proxy" = ascii '/' :: utf8 "proxy" := by decide
  have hsome : True ∧ host ++ ascii '/' :: p ≠ [] := ⟨trivial, by simp⟩
  simp only [handle]
  rw [hhealth, hproxy, if_neg (hne _ (by decide)), if_neg (hne _ (by decide)),
    if_pos hsome]

theorem percentDecode_append_of_notMem {a : Text} (h : ascii '%' ∉ a) (b : Text) :
    percentDecode (a ++ b) = a ++ percentDecode b := by
  induction a with
  | nil => rfl
  | cons c a ih =>
    rw [List.mem_cons, not_or] at h
    rw [List.cons_append, percentDecode_cons_of_ne (Ne.symm h.1), ih h.2, List.cons_append]

/-- What stands behind the host when the path decodes to `/` and `d`. -/
def restOf (d : Text) : Text := if d = [] then [] else ascii '/' :: d

/-- The query that `from_prefix` keeps. -/
def keptQuery (query : Text) : Text := if query = [ascii '?'] then [] else query

theorem restOf_start (d : Text) : restOf d = [] ∨ (restOf d).head? = some (ascii '/') := by
  rw [restOf]
  split
  · exact .inl rfl
  · exact .inr rfl

/-- The query of a request whose URL has this query text. -/
def queryOption : Text → Option Text
  | [] => none
  | _ :: query => some query

theorem fromPrefix_restOf {host : Text} (hallowed : isAllowedRestHost host = true) (d : Text)
    {query : Text} (hquery : IsUrlQuery query) :
    fromPrefix host (restOf d) (queryOption query) =
      .ok ⟨utf8 "https://" ++ host ++ (restOf d ++ keptQuery query), toAsciiLowercase host⟩ := by
  simp only [fromPrefix]
  rw [if_neg (ne_nil_of_allowed hallowed), if_pos (restOf_start d)]
  simp only [hallowed, Bool.not_true, Bool.false_eq_true, if_false]
  rcases hquery with rfl | ⟨q, rfl, -⟩
  · simp [queryOption, keptQuery]
  · cases q with
    | nil => simp [queryOption, keptQuery, Option.filter]
    | cons b q => simp [queryOption, keptQuery, Option.filter]

theorem isSome_fromUtf8_append {a : Text} (h : ∀ b ∈ a, b.val < 128) (t : Text) :
    (fromUtf8 (a ++ t)).isSome = (fromUtf8 t).isSome := by
  obtain ⟨s, rfl⟩ := utf8_of_ascii h
  rw [fromUtf8, fromUtf8, utf8, pieces_encodeChars_append, Option.isSome_map, Option.isSome_map]
  induction s.toList with
  | nil => rfl
  | cons c cs ih =>
    have hcons : ∀ l : List (Option Char),
        ((some c :: l).mapM id).isSome = (l.mapM id).isSome := by
      intro l
      rw [List.mapM_cons]
      cases l.mapM id <;> rfl
    rw [List.map_cons, List.cons_append, hcons, ih]

theorem requestOf_prefixed {host path query : Text} (hallowed : isAllowedRestHost host = true)
    (hpath : IsUrlPath path) (hquery : IsUrlQuery query) (method : Text) (headers : List Header) :
    requestOf method (ascii '/' :: (host ++ path) ++ query) headers =
      ⟨method, ascii '/' :: (host ++ path), queryOption query, headers⟩ := by
  have hmark : ascii '?' ∉ ascii '/' :: (host ++ path) := by
    rw [List.mem_cons, List.mem_append, not_or, not_or]
    exact ⟨by decide, notMem_of_allowed hallowed (by decide),
      question_notMem hpath⟩
  rcases hquery with rfl | ⟨q, rfl, -⟩
  · rw [List.append_nil, requestOf, splitOnce_of_notMem hmark]
    rfl
  · rw [requestOf, splitOnce_append hmark]
    rfl

/-- The proxy forwards the decoded path, if it is UTF-8. -/
theorem handle_requestOf_prefixed {host p query method : Text}
    (hallowed : isAllowedRestHost host = true) (hpath : IsUrlPath (ascii '/' :: p))
    (hquery : IsUrlQuery query) (hmethod : method = utf8 "GET" ∨ method = utf8 "HEAD")
    (headers : List Header) :
    handle C (requestOf method (ascii '/' :: (host ++ ascii '/' :: p) ++ query) headers) =
      if (fromUtf8 (percentDecode (ascii '/' :: p))).isSome then
        .relay ⟨utf8 "https://" ++ host ++ (restOf (percentDecode p) ++ keptQuery query),
          toAsciiLowercase host⟩
      else .routerError := by
  have hpercent : ascii '%' ∉ host := notMem_of_allowed hallowed (by decide)
  have hslash : ascii '/' ∉ host := notMem_of_allowed hallowed (by decide)
  have hdecode := percentDecode_cons_of_ne (by decide : ascii '/' ≠ ascii '%') p
  rw [requestOf_prefixed hallowed hpath hquery, handle_prefixed,
    percentDecode_append_of_notMem hpercent,
    isSome_fromUtf8_append fun b hb => host_lt hallowed hb]
  refine if_congr Iff.rfl ?_ rfl
  rw [prefixHandler, guardMethod_eq hmethod, hdecode, splitOnce_append hslash]
  show Reply.ofDestination (fromPrefix host (restOf (percentDecode p)) (queryOption query)) = _
  rw [fromPrefix_restOf hallowed _ hquery]
  rfl

theorem isUrlQuery_keptQuery {query : Text} (h : IsUrlQuery query) :
    IsUrlQuery (keptQuery query) := by
  rw [keptQuery]
  split
  · exact .inl rfl
  · exact h

theorem restOf_append_start (d : Text) {query : Text} (h : IsUrlQuery query) :
    restOf d ++ query = [] ∨ (restOf d ++ query).head? = some (ascii '/') ∨
      (restOf d ++ query).head? = some (ascii '?') := by
  rcases restOf_start d with hd | hd
  · rw [hd, List.nil_append]
    rcases h with rfl | ⟨q, rfl, -⟩
    · exact .inl rfl
    · exact .inr (.inr rfl)
  · rw [List.head?_append, hd]
    exact .inr (.inl rfl)

/-- An empty path is normalised to a slash. -/
theorem normalizeRest_restOf (hsets : sets.Proper) (d : Text) {query : Text}
    (h : IsUrlQuery query) :
    normalizeRest sets (restOf d ++ query) = normalizeRest sets (ascii '/' :: d ++ query) := by
  rw [restOf]
  split
  · rename_i hd
    have hnil : IsUrlPath [] := fun b hb => absurd hb List.not_mem_nil
    have hslash : IsUrlPath [ascii '/'] := by
      rw [IsUrlPath, List.forall_mem_singleton]
      exact .inl (by decide)
    rw [hd, normalizeRest_url hnil h, normalizeRest_url hslash h, normalizePath_eq hsets hnil,
      normalizePath_eq hsets hslash]
    rfl
  · rfl

/-- The prefix shape gives the URL back just when its decoded path is UTF-8 and the URL with the
    decoded path is normalised to the same one. -/
theorem undone_prefix_iff (hsets : sets.Proper) (hC : C.Normalizes sets)
    {proxy host path query method : Text} (headers : List Header)
    (hproxy : ascii '\x7b' ∉ proxy) (hallowed : isAllowedRestHost host = true)
    (hpath : IsUrlPath path) (hslash : path.head? = some (ascii '/'))
    (hquery : IsUrlQuery query) (hmethod : method = utf8 "GET" ∨ method = utf8 "HEAD") :
    Undone C proxy (prefixOverride proxy host) (utf8 "https://" ++ host) path query method headers ↔
      (fromUtf8 (percentDecode path)).isSome = true ∧
        normalizeRest sets (percentDecode path ++ keptQuery query) =
          normalizeRest sets (path ++ query) := by
  have hstart := head?_append_of_path hslash query
  cases path with
  | nil => cases hslash
  | cons slash p =>
  simp only [List.head?_cons, Option.some.injEq] at hslash
  subst hslash
  have hassemble := assembleRestUrl_prefixed hproxy hallowed (utf8 "https://" ++ host)
    (ascii '/' :: p) query
  have hhandle := handle_requestOf_prefixed (C := C) hallowed hpath hquery hmethod headers
  have hdecode := percentDecode_cons_of_ne (by decide : ascii '/' ≠ ascii '%') p
  have hkept := isUrlQuery_keptQuery hquery
  have hsame := sameUrl_iff hC hallowed rfl (.inr (.inl hstart))
    (restOf_append_start (percentDecode p) hkept)
  rw [normalizeRest_restOf hsets _ hkept, ← hdecode] at hsame
  constructor
  · rintro ⟨target, dest, htarget, hrelay, hurl⟩
    rw [hassemble] at htarget
    obtain rfl := List.append_cancel_left htarget
    rw [hhandle] at hrelay
    split at hrelay
    · rename_i hsome
      cases hrelay
      rw [List.append_assoc (utf8 "https://" ++ host) (ascii '/' :: p)] at hurl
      exact ⟨hsome, hsame.mp hurl⟩
    · cases hrelay
  · rintro ⟨hsome, heq⟩
    refine ⟨_, ⟨utf8 "https://" ++ host ++ (restOf (percentDecode p) ++ keptQuery query),
      toAsciiLowercase host⟩, hassemble, ?_, ?_⟩
    · rw [hhandle, if_pos hsome]
    · rw [List.append_assoc (utf8 "https://" ++ host) (ascii '/' :: p)]
      exact hsame.mpr heq

/-! ### Both shapes -/

/-- The client's rewriting is undone in both shapes. -/
structure RewritingUndone (C : UrlCrate) (proxy host path query method : Text)
    (headers : List Header) : Prop where
  encoded : Undone C proxy (encodedOverride proxy) (utf8 "https://" ++ host) path query method
    headers
  prefixed : Undone C proxy (prefixOverride proxy host) (utf8 "https://" ++ host) path query method
    headers

/-- Every escape of the path comes back when its decoded form is normalised, the decoded form is
    UTF-8 and is not trimmed, and the query is not a bare question mark. -/
structure SurvivesDecoding (sets : EncodeSets) (path query : Text) : Prop where
  escapes : KeptText (keptByte sets) path
  isUtf8 : (fromUtf8 (percentDecode path)).isSome = true
  last : query = [] → ∀ b ∈ (percentDecode path).getLast?, isControlOrSpace b = false
  query_ne : query ≠ [ascii '?']

/-- Neither the path nor the path that is forwarded has a dot segment. -/
structure NoDotSegments (sets : EncodeSets) (path query : Text) : Prop where
  given : ∀ seg ∈ pathSegments path, IsPlain seg
  forwarded : ∀ seg ∈ pathSegments (shownPath sets (percentDecode path ++ keptQuery query)),
    IsPlain seg

/-- **Main theorem.** The encoded shape is always undone. The prefix shape is undone when the path
    survives decoding, and without dot segments only then. -/
theorem rewritingUndone_iff (hsets : sets.Proper) (hC : C.Normalizes sets)
    {proxy host path query method : Text} (headers : List Header)
    (hproxy : ascii '\x7b' ∉ proxy) (hallowed : isAllowedRestHost host = true)
    (hpath : EscapedText isPathByte path) (hslash : path.head? = some (ascii '/'))
    (hquery : IsUrlQuery query) (hmethod : method = utf8 "GET" ∨ method = utf8 "HEAD") :
    Undone C proxy (encodedOverride proxy) (utf8 "https://" ++ host) path query method headers ∧
      (SurvivesDecoding sets path query →
        RewritingUndone C proxy host path query method headers) ∧
      (NoDotSegments sets path query →
        (RewritingUndone C proxy host path query method headers ↔
          SurvivesDecoding sets path query)) := by
  have hurl := isUrlPath_escapedText hpath
  have hencoded := undone_encoded hsets hC headers hproxy hallowed hurl hslash hquery hmethod
  have hiff := undone_prefix_iff hsets hC headers hproxy hallowed hurl hslash hquery hmethod
  have henough : SurvivesDecoding sets path query →
      RewritingUndone C proxy host path query method headers := by
    intro h
    have hkept : keptQuery query = query := if_neg h.query_ne
    refine ⟨hencoded, hiff.mpr ⟨h.isUtf8, ?_⟩⟩
    rw [hkept]
    exact normalizeRest_decoded_of_kept hsets hurl h.escapes hquery h.last
  refine ⟨hencoded, henough, fun hdots => ⟨fun h => ?_, henough⟩⟩
  obtain ⟨hutf8, heq⟩ := hiff.mp h.prefixed
  obtain ⟨hescapes, hencodeQuery, hlast⟩ := kept_of_normalizeRest_decoded hsets hpath hslash
    (isUrlQuery_keptQuery hquery) hquery hdots.given hdots.forwarded heq
  refine ⟨hescapes, hutf8, fun hnil => hlast (by rw [hnil]; rfl), fun hbare => ?_⟩
  rw [hbare, show keptQuery [ascii '?'] = [] from if_pos rfl] at hencodeQuery
  cases hencodeQuery

end Proxy

/-! ## Paths with escapes -/

/-- The encode sets of the `url` crate. -/
def urlSets : EncodeSets where
  path b := decide (b.val < 32 ∨ 127 ≤ b.val) || (utf8 "\x20\x22#<>?\x60\x7b\x7d").contains b
  query b := decide (b.val < 32 ∨ 127 ≤ b.val) || (utf8 "\x20\x22#<>'").contains b
  fragment b := decide (b.val < 32 ∨ 127 ≤ b.val) || (utf8 "\x20\x22<>\x60").contains b

theorem proper_urlSets : urlSets.Proper where
  path_byte := by
    have hall : ∀ b, isPathByte b = true → urlSets.path b = false := by decide +kernel
    exact fun {b} h => hall b h
  path_percent := by decide
  query_percent := by decide
  query_hexDigit := by
    have hall : ∀ n < 16, urlSets.query (hexDigit n) = false := by decide
    exact fun {n} h => hall n h

theorem normalizes_plainUrlCrate : (plainUrlCrate (normalizeRest urlSets)).Normalizes urlSets where
  parse_https := by
    intro host rest hallowed hrest
    have hhost : ∀ b ∈ host, isHostByte (lowerByte b) = true :=
      fun b hb => isHostByte_lowerByte hallowed hb
    have hscheme : utf8 "https" ++ utf8 "://" = utf8 "https://" := by decide
    refine ⟨(⟨true, toAsciiLowercase host, normalizeRest urlSets rest⟩ : PlainUrl), ?_, rfl, rfl,
      ?_⟩
    · rw [List.append_assoc]
      exact (parse_https _).trans
        (parseAuthority_append true (ne_nil_of_allowed hallowed) hhost hrest)
    · show utf8 "https" ++ utf8 "://" ++ (toAsciiLowercase host ++ normalizeRest urlSets rest) = _
      rw [hscheme, List.append_assoc]

/-- `/a%20b` -/
def spacePath : Text := [ascii '/', ascii 'a', ascii '%', ascii '2', ascii '0', ascii 'b']

/-- `/a%2Fb` -/
def slashPath : Text := [ascii '/', ascii 'a', ascii '%', ascii '2', ascii 'F', ascii 'b']

/-- A space that is escaped comes back. -/
theorem rewritingUndone_space :
    RewritingUndone (plainUrlCrate (normalizeRest urlSets)) (utf8 "https://proxy.example")
      (utf8 "api.binance.com") spacePath (utf8 "?x=1") (utf8 "GET") [] := by
  have hpath : EscapedText isPathByte spacePath :=
    .byte (by decide) (.byte (by decide)
      (.escape (h := 2) (l := 0) (by decide) (by decide)
        (.byte (by decide) .nil)))
  have hkept : KeptText (keptByte urlSets) spacePath := by
    have hform : spacePath = ascii '/' :: ascii 'a' :: (escape (ascii ' ') ++ [ascii 'b']) := by
      decide
    rw [hform]
    exact .byte (by decide) (.byte (by decide)
      (.escape (by decide) (.byte (by decide) .nil)))
  have hquery : IsUrlQuery (utf8 "?x=1") :=
    .inr ⟨utf8 "x=1", by decide +kernel, by decide +kernel⟩
  exact (rewritingUndone_iff proper_urlSets normalizes_plainUrlCrate [] (by decide)
    (by decide) hpath rfl hquery (.inl rfl)).2.1
      ⟨hkept, by decide, fun h => absurd h (by decide), by decide⟩

/-- A slash that is escaped does not. -/
theorem slash_not_undone :
    ¬ ∀ (C : UrlCrate) (sets : EncodeSets), sets.Proper → C.Normalizes sets →
      ∀ proxy host path query method : Text, ascii '\x7b' ∉ proxy →
        isAllowedRestHost host = true → EscapedText isPathByte path →
        path.head? = some (ascii '/') → IsUrlQuery query →
        (method = utf8 "GET" ∨ method = utf8 "HEAD") →
          RewritingUndone C proxy host path query method [] := by
  intro h
  have hpath : EscapedText isPathByte slashPath :=
    .byte (by decide) (.byte (by decide)
      (.escape (h := 2) (l := 15) (by decide) (by decide)
        (.byte (by decide) .nil)))
  have hproxy : ascii '\x7b' ∉ utf8 "https://proxy.example" := by decide
  have hhost : isAllowedRestHost (utf8 "api.binance.com") = true := by decide
  have hundone := h _ urlSets proper_urlSets normalizes_plainUrlCrate
    (utf8 "https://proxy.example") (utf8 "api.binance.com") slashPath [] (utf8 "GET") hproxy
    hhost hpath rfl (.inl rfl) (.inl rfl)
  have heq := ((undone_prefix_iff proper_urlSets normalizes_plainUrlCrate [] hproxy hhost
    (isUrlPath_escapedText hpath) rfl (.inl rfl) (.inl rfl)).mp hundone.prefixed).2
  exact absurd heq (by decide)

end Digdigdig3.Proxy
