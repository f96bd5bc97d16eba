import Digdigdig3.Lib.Affixes
import Digdigdig3.Lib.PercentEncoding

/-!
# What stands behind the host of a URL

Path, query and fragment of an `http` or `https` URL as a parser writes them out again: bytes at
the end that are not printable are trimmed, tabs and line ends are dropped, a backslash is a slash,
bytes of the encode sets are escaped, and dot segments are removed.

* `normalizeRest_of_plain`: a text on which only escaping and the removal of dot segments matter.
* `normalizeRest_idem`: normalising a text made of URL bytes once is enough.
-/

namespace Digdigdig3

/-! ## Bytes -/

/-- Unreserved bytes, sub-delimiters, colon, at sign and slash. -/
def isPathByte (b : Byte) : Bool :=
  decide (97 ≤ b.val ∧ b.val ≤ 122 ∨ 65 ≤ b.val ∧ b.val ≤ 90 ∨ 48 ≤ b.val ∧ b.val ≤ 57) ||
    (utf8 "-._~!$&'()*+,;=:@/").contains b

def isQueryByte (b : Byte) : Bool := isPathByte b || b = ascii '?'

def isTabOrNewline (b : Byte) : Bool := b.val = 9 || b.val = 10 || b.val = 13

def isControlOrSpace (b : Byte) : Bool := decide (b.val ≤ 32)

/-- The sets of bytes that are escaped in each part. -/
structure EncodeSets where
  path : Byte → Bool
  query : Byte → Bool
  fragment : Byte → Bool

/-- Bytes that may stand in a path are left alone, and so is what escapes are made of. -/
structure EncodeSets.Proper (sets : EncodeSets) : Prop where
  path_byte : ∀ {b}, isPathByte b = true → sets.path b = false
  path_percent : sets.path (ascii '%') = false
  query_percent : sets.query (ascii '%') = false
  query_hexDigit : ∀ {n}, n < 16 → sets.query (hexDigit n) = false

/-! ## Segments -/

/-- The segments of a path that is empty or starts with a slash. -/
def pathSegments : Bytes → List Bytes
  | [] => [[]]
  | _ :: rest => split (ascii '/') rest

def joinSegments (segs : List Bytes) : Bytes := segs.flatMap fun seg => ascii '/' :: seg

def isSingleDot (seg : Bytes) : Bool := ([".", "%2e", "%2E"].map utf8).contains seg

def isDoubleDot (seg : Bytes) : Bool :=
  (["..", "%2e%2e", "%2e%2E", "%2E%2e", "%2E%2E", "%2e.", "%2E.", ".%2e", ".%2E"].map
    utf8).contains seg

/-- The segments that remain behind the segments `done`, which are kept in reverse. A dot segment
    at the end leaves an empty one. -/
def removeDots (done : List Bytes) : List Bytes → List Bytes
  | [] => done.reverse
  | [seg] =>
    if isDoubleDot seg then done.tail.reverse ++ [[]]
    else if isSingleDot seg then done.reverse ++ [[]]
    else done.reverse ++ [seg]
  | seg :: next :: segs =>
    if isDoubleDot seg then removeDots done.tail (next :: segs)
    else if isSingleDot seg then removeDots done (next :: segs)
    else removeDots (seg :: done) (next :: segs)

/-- A segment that is kept. -/
def IsPlain (seg : Bytes) : Prop := isDoubleDot seg = false ∧ isSingleDot seg = false

theorem removeDots_of_plain {segs : List Bytes} (h : ∀ seg ∈ segs, IsPlain seg)
    (done : List Bytes) : removeDots done segs = done.reverse ++ segs := by
  induction done, segs using removeDots.induct with
  | case1 done => simp [removeDots]
  | case2 done seg hdouble => rw [(h seg (by simp)).1] at hdouble; cases hdouble
  | case3 done seg _ hsingle => rw [(h seg (by simp)).2] at hsingle; cases hsingle
  | case4 done seg hdouble hsingle => rw [removeDots, if_neg hdouble, if_neg hsingle]
  | case5 done seg next segs hdouble => rw [(h seg (by simp)).1] at hdouble; cases hdouble
  | case6 done seg next segs _ hsingle => rw [(h seg (by simp)).2] at hsingle; cases hsingle
  | case7 done seg next segs hdouble hsingle ih =>
    rw [removeDots, if_neg hdouble, if_neg hsingle,
      ih fun seg hseg => h seg (List.mem_cons_of_mem _ hseg), List.reverse_cons, List.append_assoc,
      List.singleton_append]

/-- What remains are segments of the path that are kept, or an empty one at the end. -/
theorem mem_removeDots {done segs : List Bytes} (hdone : ∀ seg ∈ done, IsPlain seg) {seg : Bytes}
    (h : seg ∈ removeDots done segs) : IsPlain seg ∧ (seg = [] ∨ seg ∈ done ∨ seg ∈ segs) := by
  have hempty : IsPlain [] := ⟨rfl, rfl⟩
  induction done, segs using removeDots.induct with
  | case1 done =>
    rw [removeDots, List.mem_reverse] at h
    exact ⟨hdone seg h, .inr (.inl h)⟩
  | case2 done last hdouble =>
    rw [removeDots, if_pos hdouble, List.mem_append, List.mem_reverse, List.mem_singleton] at h
    rcases h with h | rfl
    · exact ⟨hdone seg (List.mem_of_mem_tail h), .inr (.inl (List.mem_of_mem_tail h))⟩
    · exact ⟨hempty, .inl rfl⟩
  | case3 done last hdouble hsingle =>
    rw [removeDots, if_neg hdouble, if_pos hsingle, List.mem_append, List.mem_reverse,
      List.mem_singleton] at h
    rcases h with h | rfl
    · exact ⟨hdone seg h, .inr (.inl h)⟩
    · exact ⟨hempty, .inl rfl⟩
  | case4 done last hdouble hsingle =>
    rw [removeDots, if_neg hdouble, if_neg hsingle, List.mem_append, List.mem_reverse,
      List.mem_singleton] at h
    rcases h with h | rfl
    · exact ⟨hdone seg h, .inr (.inl h)⟩
    · refine ⟨⟨by simpa using hdouble, by simpa using hsingle⟩, .inr (.inr ?_)⟩
      exact List.mem_singleton_self _
  | case5 done first next segs hdouble ih =>
    rw [removeDots, if_pos hdouble] at h
    obtain ⟨hplain, hseg⟩ := ih (fun seg hseg => hdone seg (List.mem_of_mem_tail hseg)) h
    exact ⟨hplain, hseg.imp id (Or.imp List.mem_of_mem_tail (List.mem_cons_of_mem _))⟩
  | case6 done first next segs hdouble hsingle ih =>
    rw [removeDots, if_neg hdouble, if_pos hsingle] at h
    obtain ⟨hplain, hseg⟩ := ih hdone h
    exact ⟨hplain, hseg.imp id (Or.imp id (List.mem_cons_of_mem _))⟩
  | case7 done first next segs hdouble hsingle ih =>
    rw [removeDots, if_neg hdouble, if_neg hsingle] at h
    have hfirst : IsPlain first := ⟨by simpa using hdouble, by simpa using hsingle⟩
    obtain ⟨hplain, hseg⟩ := ih (List.forall_mem_cons.mpr ⟨hfirst, hdone⟩) h
    refine ⟨hplain, hseg.imp id ?_⟩
    rw [List.mem_cons, List.mem_cons (a := seg) (b := first)]
    rintro ((rfl | hseg) | hseg)
    · exact .inr (.inl rfl)
    · exact .inl hseg
    · exact .inr (.inr hseg)

theorem removeDots_ne_nil (done : List Bytes) {segs : List Bytes} (h : segs ≠ []) :
    removeDots done segs ≠ [] := by
  induction done, segs using removeDots.induct with
  | case1 done => exact absurd rfl h
  | case2 done seg hdouble => simp [removeDots, hdouble]
  | case3 done seg hdouble hsingle => simp [removeDots, hdouble, hsingle]
  | case4 done seg hdouble hsingle => simp [removeDots, hdouble, hsingle]
  | case5 done seg next segs hdouble ih =>
    rw [removeDots, if_pos hdouble]
    exact ih (List.cons_ne_nil _ _)
  | case6 done seg next segs hdouble hsingle ih =>
    rw [removeDots, if_neg hdouble, if_pos hsingle]
    exact ih (List.cons_ne_nil _ _)
  | case7 done seg next segs hdouble hsingle ih =>
    rw [removeDots, if_neg hdouble, if_neg hsingle]
    exact ih (List.cons_ne_nil _ _)

theorem joinSegments_cons (seg : Bytes) (segs : List Bytes) :
    joinSegments (seg :: segs) = ascii '/' :: (seg ++ joinSegments segs) := rfl

theorem pathSegments_joinSegments {segs : List Bytes} (hne : segs ≠ [])
    (h : ∀ seg ∈ segs, ascii '/' ∉ seg) : pathSegments (joinSegments segs) = segs := by
  induction segs with
  | nil => exact absurd rfl hne
  | cons seg segs ih =>
    rw [List.forall_mem_cons] at h
    rw [joinSegments_cons, pathSegments]
    cases segs with
    | nil => rw [joinSegments, List.flatMap_nil, List.append_nil, split_of_notMem h.1]
    | cons next segs =>
      have hrest := ih (List.cons_ne_nil _ _) h.2
      rw [joinSegments_cons, pathSegments] at hrest
      rw [joinSegments_cons, split_append h.1, hrest]

theorem mem_of_mem_split {sep : Byte} {s seg : Bytes} {b : Byte} (h : seg ∈ split sep s)
    (hb : b ∈ seg) : b ∈ s := by
  induction s generalizing seg b with
  | nil =>
    rw [split, List.mem_singleton] at h
    rwa [h] at hb
  | cons c s ih =>
    rw [split] at h
    rw [List.mem_cons]
    split at h
    · rw [List.mem_cons] at h
      rcases h with rfl | h
      · cases hb
      · exact .inr (ih h hb)
    · split at h
      · rw [List.mem_singleton] at h
        rw [h, List.mem_singleton] at hb
        exact .inl hb
      · rename_i part parts hsplit
        rw [hsplit] at ih
        rw [List.mem_cons] at h
        rcases h with rfl | h
        · rw [List.mem_cons] at hb
          exact hb.imp id (ih List.mem_cons_self)
        · exact .inr (ih (List.mem_cons_of_mem _ h) hb)

theorem pathSegments_ne_nil (path : Bytes) : pathSegments path ≠ [] := by
  cases path with
  | nil => exact List.cons_ne_nil _ _
  | cons c path => exact split_ne_nil _ _

theorem mem_pathSegments {path seg : Bytes} (h : seg ∈ pathSegments path) :
    ascii '/' ∉ seg ∧ ∀ b ∈ seg, b ∈ path := by
  cases path with
  | nil =>
    rw [pathSegments, List.mem_singleton] at h
    rw [h]
    exact ⟨List.not_mem_nil, fun b hb => absurd hb List.not_mem_nil⟩
  | cons c path =>
    exact ⟨notMem_of_mem_split h, fun b hb => List.mem_cons_of_mem _ (mem_of_mem_split h hb)⟩

/-! ## Normalisation -/

/-- A backslash is read as a slash. -/
def normSlash (b : Byte) : Byte := if b.val = 92 then ascii '/' else b

def normalizePath (sets : EncodeSets) (path : Bytes) : Bytes :=
  joinSegments (removeDots [] (pathSegments (percentEncode sets.path (path.map normSlash))))

/-- The text before the first `sep`, and the text after it if there is one. -/
def cutAt (sep : Byte) (s : Bytes) : Bytes × Option Bytes :=
  match splitOnce sep s with
  | some (a, b) => (a, some b)
  | none => (s, none)

def encodePart (mark : Char) (set : Byte → Bool) : Option Bytes → Bytes
  | some part => ascii mark :: percentEncode set part
  | none => []

/-- The text without the bytes at its end for which `p` holds. -/
def trimEnd (p : Byte → Bool) : Bytes → Bytes
  | [] => []
  | b :: bs => if p b && (trimEnd p bs).isEmpty then [] else b :: trimEnd p bs

/-- What a parser trims and drops before it looks for the parts. -/
def stripInvisible (rest : Bytes) : Bytes :=
  (trimEnd isControlOrSpace rest).filter fun b => !isTabOrNewline b

/-- The path, the query and the fragment of a URL, written out again. -/
def normalizeRest (sets : EncodeSets) (rest : Bytes) : Bytes :=
  let cut := cutAt (ascii '#') (stripInvisible rest)
  let parts := cutAt (ascii '?') cut.1
  normalizePath sets parts.1 ++ encodePart '?' sets.query parts.2 ++
    encodePart '#' sets.fragment cut.2

/-- A query that is empty or starts with its question mark. -/
def encodeQuery (sets : EncodeSets) : Bytes → Bytes
  | [] => []
  | mark :: query => mark :: percentEncode sets.query query

theorem cutAt_of_notMem {sep : Byte} {s : Bytes} (h : sep ∉ s) : cutAt sep s = (s, none) := by
  rw [cutAt, splitOnce_of_notMem h]

theorem cutAt_append {sep : Byte} {a : Bytes} (h : sep ∉ a) (b : Bytes) :
    cutAt sep (a ++ sep :: b) = (a, some b) := by
  rw [cutAt, splitOnce_append h]

theorem trimEnd_isPrefix (p : Byte → Bool) (bs : Bytes) : trimEnd p bs <+: bs := by
  induction bs with
  | nil => exact List.prefix_refl _
  | cons b bs ih =>
    rw [trimEnd]
    split
    · exact List.nil_prefix
    · exact List.cons_prefix_cons.mpr ⟨rfl, ih⟩

theorem trimEnd_eq_self {p : Byte → Bool} {bs : Bytes} :
    trimEnd p bs = bs ↔ ∀ b ∈ bs.getLast?, p b = false := by
  induction bs with
  | nil => simp [trimEnd]
  | cons b bs ih =>
    cases bs with
    | nil => simp [trimEnd]
    | cons c bs =>
      rw [List.getLast?_cons_cons, ← ih, trimEnd]
      constructor
      · intro h
        split at h
        · cases h
        · exact (List.cons.inj h).2
      · intro h
        rw [h]
        simp

theorem stripInvisible_eq_self {rest : Bytes} (h : ∀ b ∈ rest, isTabOrNewline b = false)
    (hlast : ∀ b ∈ rest.getLast?, isControlOrSpace b = false) : stripInvisible rest = rest := by
  rw [stripInvisible, trimEnd_eq_self.mpr hlast, List.filter_eq_self]
  intro b hb
  rw [h b hb]
  rfl

/-- Nothing is trimmed, dropped or cut off but the query. -/
theorem normalizeRest_of_plain {sets : EncodeSets} {path query : Bytes}
    (hquery : query = [] ∨ query.head? = some (ascii '?')) (hpath : ascii '?' ∉ path)
    (hplain : ∀ b ∈ path ++ query, isTabOrNewline b = false ∧ b ≠ ascii '#')
    (hlast : ∀ b ∈ (path ++ query).getLast?, isControlOrSpace b = false) :
    normalizeRest sets (path ++ query) = normalizePath sets path ++ encodeQuery sets query := by
  have hstrip : stripInvisible (path ++ query) = path ++ query :=
    stripInvisible_eq_self (fun b hb => (hplain b hb).1) hlast
  have hhash : ascii '#' ∉ path ++ query := fun h => (hplain _ h).2 rfl
  simp only [normalizeRest]
  rw [hstrip, cutAt_of_notMem hhash]
  rcases hquery with rfl | hquery
  · simp only [List.append_nil]
    rw [cutAt_of_notMem hpath]
    simp only [encodePart, encodeQuery, List.append_nil]
  · cases query with
    | nil => cases hquery
    | cons mark query =>
      simp only [List.head?_cons, Option.some.injEq] at hquery
      subst hquery
      simp only
      rw [cutAt_append hpath]
      simp only [encodePart, encodeQuery, List.append_nil]

/-! ## Texts of URL bytes -/

/-- Path bytes and percent signs. -/
def IsUrlPath (path : Bytes) : Prop := ∀ b ∈ path, isPathByte b = true ∨ b = ascii '%'

/-- Nothing, or a question mark and query bytes and percent signs. -/
def IsUrlQuery (query : Bytes) : Prop :=
  query = [] ∨ ∃ q, query = ascii '?' :: q ∧ ∀ b ∈ q, isQueryByte b = true ∨ b = ascii '%'

theorem urlByte_plain {b : Byte} (h : isQueryByte b = true ∨ b = ascii '%') :
    isTabOrNewline b = false ∧ b ≠ ascii '#' ∧ isControlOrSpace b = false ∧ normSlash b = b := by
  have hall : ∀ b, isQueryByte b = true ∨ b = ascii '%' → isTabOrNewline b = false ∧
      b ≠ ascii '#' ∧ isControlOrSpace b = false ∧ normSlash b = b := by decide +kernel
  exact hall b h

theorem isQueryByte_of_isPathByte {b : Byte} (h : isPathByte b = true ∨ b = ascii '%') :
    isQueryByte b = true ∨ b = ascii '%' := by
  refine h.imp (fun h => ?_) id
  rw [isQueryByte, h, Bool.true_or]

theorem question_notMem {path : Bytes} (h : IsUrlPath path) : ascii '?' ∉ path := by
  intro hmem
  exact absurd (h _ hmem) (by decide)

section Url

variable {sets : EncodeSets} (hsets : sets.Proper) {path query : Bytes}
include hsets

theorem percentEncode_path (hpath : IsUrlPath path) : percentEncode sets.path path = path := by
  refine percentEncode_eq_self fun b hb => ?_
  rcases hpath b hb with h | rfl
  · exact hsets.path_byte h
  · exact hsets.path_percent

theorem normalizePath_eq (hpath : IsUrlPath path) :
    normalizePath sets path = joinSegments (removeDots [] (pathSegments path)) := by
  have hslash : path.map normSlash = path := by
    refine (List.map_congr_left fun b hb => ?_).trans (List.map_id path)
    exact (urlByte_plain (isQueryByte_of_isPathByte (hpath b hb))).2.2.2
  rw [normalizePath, hslash, percentEncode_path hsets hpath]

theorem isUrlPath_normalizePath (hpath : IsUrlPath path) :
    IsUrlPath (normalizePath sets path) := by
  intro b hb
  rw [normalizePath_eq hsets hpath, joinSegments, List.mem_flatMap] at hb
  obtain ⟨seg, hseg, hb⟩ := hb
  rw [List.mem_cons] at hb
  rcases hb with rfl | hb
  · exact .inl (by decide)
  · rcases (mem_removeDots (fun _ h => absurd h List.not_mem_nil) hseg).2 with rfl | h | h
    · cases hb
    · cases h
    · exact hpath b ((mem_pathSegments h).2 b hb)

theorem normalizePath_idem (hpath : IsUrlPath path) :
    normalizePath sets (normalizePath sets path) = normalizePath sets path := by
  have hmem : ∀ seg ∈ removeDots [] (pathSegments path), IsPlain seg ∧ ascii '/' ∉ seg := by
    intro seg hseg
    obtain ⟨hplain, rfl | h | h⟩ := mem_removeDots (fun _ h => absurd h List.not_mem_nil) hseg
    · exact ⟨hplain, List.not_mem_nil⟩
    · cases h
    · exact ⟨hplain, (mem_pathSegments h).1⟩
  rw [normalizePath_eq hsets (isUrlPath_normalizePath hsets hpath), normalizePath_eq hsets hpath,
    pathSegments_joinSegments (removeDots_ne_nil _ (pathSegments_ne_nil path))
      fun seg h => (hmem seg h).2,
    removeDots_of_plain fun seg h => (hmem seg h).1]
  rfl

theorem encodeQuery_idem (query : Bytes) :
    encodeQuery sets (encodeQuery sets query) = encodeQuery sets query := by
  cases query with
  | nil => rfl
  | cons mark query =>
    rw [encodeQuery, encodeQuery]
    congr 1
    refine percentEncode_eq_self fun b hb => ?_
    rcases mem_percentEncode hb with rfl | ⟨n, hn, rfl⟩ | ⟨-, h⟩
    · exact hsets.query_percent
    · exact hsets.query_hexDigit hn
    · exact h

omit hsets in
theorem isUrlQuery_encodeQuery (hquery : IsUrlQuery query) :
    IsUrlQuery (encodeQuery sets query) := by
  rcases hquery with rfl | ⟨q, rfl, hq⟩
  · exact .inl rfl
  · refine .inr ⟨_, rfl, fun b hb => ?_⟩
    rcases mem_percentEncode hb with rfl | ⟨n, hn, rfl⟩ | ⟨h, -⟩
    · exact .inr rfl
    · have hall : ∀ n < 16, isQueryByte (hexDigit n) = true := by decide
      exact .inl (hall n hn)
    · exact hq b h

omit hsets in
theorem mem_query (hquery : IsUrlQuery query) {b : Byte} (hb : b ∈ query) :
    isQueryByte b = true ∨ b = ascii '%' := by
  rcases hquery with rfl | ⟨q, rfl, hq⟩
  · cases hb
  · rw [List.mem_cons] at hb
    rcases hb with rfl | hb
    · exact .inl (by decide)
    · exact hq b hb

omit hsets in
/-- A URL's path and query hold URL bytes only. -/
theorem mem_path_query (hpath : IsUrlPath path) (hquery : IsUrlQuery query) {b : Byte}
    (hb : b ∈ path ++ query) : isQueryByte b = true ∨ b = ascii '%' := by
  rw [List.mem_append] at hb
  rcases hb with hb | hb
  · exact isQueryByte_of_isPathByte (hpath b hb)
  · exact mem_query hquery hb

omit hsets in
theorem normalizeRest_url (hpath : IsUrlPath path) (hquery : IsUrlQuery query) :
    normalizeRest sets (path ++ query) = normalizePath sets path ++ encodeQuery sets query := by
  have hbyte : ∀ b ∈ path ++ query, isQueryByte b = true ∨ b = ascii '%' :=
    fun b hb => mem_path_query hpath hquery hb
  refine normalizeRest_of_plain ?_ (question_notMem hpath) (fun b hb => ?_) fun b hb => ?_
  · rcases hquery with rfl | ⟨q, rfl, -⟩
    · exact .inl rfl
    · exact .inr rfl
  · exact ⟨(urlByte_plain (hbyte b hb)).1, (urlByte_plain (hbyte b hb)).2.1⟩
  · exact (urlByte_plain (hbyte b (List.mem_of_getLast? hb))).2.2.1

/-- Normalising once is enough. -/
theorem normalizeRest_idem (hpath : IsUrlPath path) (hquery : IsUrlQuery query) :
    normalizeRest sets (normalizeRest sets (path ++ query)) =
      normalizeRest sets (path ++ query) := by
  rw [normalizeRest_url hpath hquery,
    normalizeRest_url (isUrlPath_normalizePath hsets hpath) (isUrlQuery_encodeQuery hquery),
    normalizePath_idem hsets hpath, encodeQuery_idem hsets]

end Url

end Digdigdig3
