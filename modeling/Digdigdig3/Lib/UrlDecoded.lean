import Digdigdig3.Lib.UrlRest

/-!
# URLs whose path was decoded

A path is decoded, and the URL with the decoded path is normalised. Escapes of bytes that the
parser escapes itself come back, in upper case; others are lost.

* `normalizeRest_decoded_of_kept`: a path all of whose escapes come back.
* `kept_of_normalizeRest_decoded`: without dot segments these are the only ones.
-/

namespace Digdigdig3

/-- A text of bytes for which `p` holds and of escapes. -/
inductive EscapedText (p : Byte → Bool) : Bytes → Prop
  | nil : EscapedText p []
  | byte {b : Byte} {rest : Bytes} : p b = true → EscapedText p rest → EscapedText p (b :: rest)
  | escape {hi lo : Byte} {h l : ℕ} {rest : Bytes} : hexValue hi = some h → hexValue lo = some l →
      EscapedText p rest → EscapedText p (ascii '%' :: hi :: lo :: rest)

/-- A path whose escapes are upper-case escapes of bytes for which `kept` holds. -/
inductive KeptText (kept : Byte → Bool) : Bytes → Prop
  | nil : KeptText kept []
  | byte {b : Byte} {rest : Bytes} : isPathByte b = true → KeptText kept rest →
      KeptText kept (b :: rest)
  | escape {b : Byte} {rest : Bytes} : kept b = true → KeptText kept rest →
      KeptText kept (escape b ++ rest)

/-- Bytes that a parser escapes where it finds them in a path. -/
def keptByte (sets : EncodeSets) (b : Byte) : Bool :=
  sets.path b && !isTabOrNewline b && b ≠ ascii '?' && b ≠ ascii '#' && b.val ≠ 92

/-- What a parser makes of a byte of a path. -/
def shown (sets : EncodeSets) (b : Byte) : Bytes :=
  if isTabOrNewline b then [] else encodeByte sets.path (normSlash b)

/-- The path of a URL before its dot segments are removed. -/
def shownPath (sets : EncodeSets) (rest : Bytes) : Bytes :=
  percentEncode sets.path
    ((cutAt (ascii '?') (cutAt (ascii '#') (stripInvisible rest)).1).1.map normSlash)

theorem hexValue_isPathByte {b : Byte} {n : ℕ} (h : hexValue b = some n) :
    isPathByte b = true := by
  have hall : ∀ b, hexValue b ≠ none → isPathByte b = true := by decide +kernel
  exact hall b (by rw [h]; exact Option.some_ne_none n)

theorem isUrlPath_escapedText {path : Bytes} (h : EscapedText isPathByte path) :
    IsUrlPath path := by
  induction h with
  | nil => exact fun b hb => absurd hb List.not_mem_nil
  | byte hb _ ih => exact List.forall_mem_cons.mpr ⟨.inl hb, ih⟩
  | escape hhi hlo _ ih =>
    simp only [IsUrlPath, List.forall_mem_cons]
    exact ⟨.inr trivial, .inl (hexValue_isPathByte hhi), .inl (hexValue_isPathByte hlo), ih⟩

theorem pathByte_plain {b : Byte} (h : isPathByte b = true) :
    b ≠ ascii '%' ∧ b ≠ ascii '?' ∧ b ≠ ascii '#' ∧ isTabOrNewline b = false ∧
      normSlash b = b := by
  have hall : ∀ b, isPathByte b = true → b ≠ ascii '%' ∧ b ≠ ascii '?' ∧ b ≠ ascii '#' ∧
      isTabOrNewline b = false ∧ normSlash b = b := by decide +kernel
  exact hall b h

section Decoded

variable {sets : EncodeSets} (hsets : sets.Proper) {path query : Bytes}
include hsets

/-! ## Escapes that come back -/

theorem percentEncode_decode_of_kept (h : KeptText (keptByte sets) path) :
    percentEncode sets.path (percentDecode path) = path ∧
      ∀ b ∈ percentDecode path, b ≠ ascii '?' ∧ b ≠ ascii '#' ∧ isTabOrNewline b = false ∧
        normSlash b = b := by
  induction h with
  | nil => exact ⟨rfl, fun b hb => absurd hb List.not_mem_nil⟩
  | @byte b rest hb _ ih =>
    obtain ⟨hpercent, hplain⟩ := pathByte_plain hb
    rw [percentDecode_cons_of_ne hpercent, percentEncode_cons, encodeByte, hsets.path_byte hb, ih.1]
    exact ⟨rfl, List.forall_mem_cons.mpr ⟨hplain, ih.2⟩⟩
  | @escape b rest hb _ ih =>
    simp only [keptByte, Bool.and_eq_true, Bool.not_eq_true', decide_eq_true_eq] at hb
    obtain ⟨⟨⟨⟨hset, htab⟩, hquestion⟩, hhash⟩, hback⟩ := hb
    rw [percentDecode_escape, percentEncode_cons, encodeByte, if_pos hset, ih.1]
    refine ⟨rfl, List.forall_mem_cons.mpr ⟨⟨hquestion, hhash, htab, ?_⟩, ih.2⟩⟩
    rw [normSlash, if_neg hback]

/-- All escapes come back, and no byte is trimmed from the end. -/
theorem normalizeRest_decoded_of_kept (hpath : IsUrlPath path)
    (hkept : KeptText (keptByte sets) path) (hquery : IsUrlQuery query)
    (hlast : query = [] → ∀ b ∈ (percentDecode path).getLast?, isControlOrSpace b = false) :
    normalizeRest sets (percentDecode path ++ query) = normalizeRest sets (path ++ query) := by
  obtain ⟨hencode, hplain⟩ := percentEncode_decode_of_kept hsets hkept
  have hslash : (percentDecode path).map normSlash = percentDecode path :=
    (List.map_congr_left fun b hb => (hplain b hb).2.2.2).trans (List.map_id _)
  have hnormal : normalizePath sets (percentDecode path) = normalizePath sets path := by
    rw [normalizePath_eq hsets hpath, normalizePath, hslash, hencode]
  have hq : ∀ b ∈ query, isQueryByte b = true ∨ b = ascii '%' := fun b hb => mem_query hquery hb
  rw [normalizeRest_url hpath hquery, ← hnormal]
  refine normalizeRest_of_plain ?_ (fun h => (hplain _ h).1 rfl) (fun b hb => ?_) fun b hb => ?_
  · rcases hquery with rfl | ⟨q, rfl, -⟩
    · exact .inl rfl
    · exact .inr rfl
  · rw [List.mem_append] at hb
    rcases hb with hb | hb
    · exact ⟨(hplain b hb).2.2.1, (hplain b hb).2.1⟩
    · exact ⟨(urlByte_plain (hq b hb)).1, (urlByte_plain (hq b hb)).2.1⟩
  · rw [List.getLast?_append] at hb
    cases hlastq : query.getLast? with
    | none =>
      rw [List.getLast?_eq_none_iff] at hlastq
      rw [hlastq] at hb
      exact hlast hlastq b (by simpa using hb)
    | some c =>
      rw [hlastq, Option.some_or, Option.mem_some] at hb
      subst hb
      exact (urlByte_plain (hq c (List.mem_of_getLast? hlastq))).2.2.1

/-! ## Escapes that are lost -/

omit hsets in
theorem length_encodeByte_le (b : Byte) : (encodeByte sets.path b).length ≤ 3 := by
  rw [encodeByte]
  split
  · exact le_refl 3
  · exact (by decide : 1 ≤ 3)

omit hsets in
theorem length_shown_le (b : Byte) : (shown sets b).length ≤ 3 := by
  rw [shown]
  split
  · exact Nat.zero_le 3
  · exact length_encodeByte_le _

theorem shown_pathByte {b : Byte} (h : isPathByte b = true) : shown sets b = [b] := by
  obtain ⟨-, -, -, htab, hslash⟩ := pathByte_plain h
  rw [shown, htab, hslash, encodeByte, hsets.path_byte h]
  rfl

/-- A byte that takes three bytes to show is escaped as it stands. -/
theorem shown_of_length {b : Byte} (h : (shown sets b).length = 3) :
    shown sets b = escape b ∧ sets.path b = true ∧ isTabOrNewline b = false ∧ b.val ≠ 92 := by
  rw [shown] at h ⊢
  split at h
  · cases h
  · rename_i htab
    have hset : sets.path (normSlash b) = true := by
      by_contra hset
      rw [encodeByte, if_neg hset] at h
      cases h
    have hback : b.val ≠ 92 := by
      intro hback
      rw [normSlash, if_pos hback, hsets.path_byte (by decide)] at hset
      cases hset
    rw [normSlash, if_neg hback] at hset
    rw [if_neg htab, normSlash, if_neg hback, encodeByte, if_pos hset]
    exact ⟨rfl, hset, by simpa using htab, hback⟩

/-- What is shown of a part of the decoded path is no longer than the path. -/
theorem length_flatMap_shown_le (hpath : EscapedText isPathByte path) {part : Bytes}
    (hpart : part <+: percentDecode path) : (part.flatMap (shown sets)).length ≤ path.length := by
  induction hpath generalizing part with
  | nil =>
    rw [show percentDecode [] = [] from rfl, List.prefix_nil] at hpart
    rw [hpart]
    exact le_refl 0
  | @byte b rest hb _ ih =>
    rw [percentDecode_cons_of_ne (pathByte_plain hb).1, List.prefix_cons_iff] at hpart
    rcases hpart with rfl | ⟨part, rfl, hpart⟩
    · exact Nat.zero_le _
    · rw [List.flatMap_cons, shown_pathByte hsets hb, List.singleton_append]
      exact Nat.succ_le_succ (ih hpart)
  | @escape hi lo h l rest hhi hlo _ ih =>
    rw [percentDecode_percent hhi hlo, List.prefix_cons_iff] at hpart
    rcases hpart with rfl | ⟨part, rfl, hpart⟩
    · exact Nat.zero_le _
    · have hle := ih hpart
      have hshown : (shown sets (byteOf (16 * h + l))).length ≤ 3 := length_shown_le _
      simp only [List.flatMap_cons, List.length_append, List.length_cons]
      omega

/-- When a part of the decoded path shows as the path, it is all of it and every escape came
    back. -/
theorem kept_of_flatMap_shown (hpath : EscapedText isPathByte path) {part : Bytes}
    (hpart : part <+: percentDecode path)
    (hmarks : ∀ b ∈ part, b ≠ ascii '?' ∧ b ≠ ascii '#')
    (h : part.flatMap (shown sets) = path) :
    KeptText (keptByte sets) path ∧ part = percentDecode path := by
  induction hpath generalizing part with
  | nil =>
    rw [show percentDecode [] = [] from rfl, List.prefix_nil] at hpart
    exact ⟨.nil, hpart⟩
  | @byte b rest hb _ ih =>
    rw [percentDecode_cons_of_ne (pathByte_plain hb).1] at hpart ⊢
    rw [List.prefix_cons_iff] at hpart
    rcases hpart with rfl | ⟨part, rfl, hpart⟩
    · cases h
    · rw [List.flatMap_cons, shown_pathByte hsets hb, List.singleton_append, List.cons.injEq] at h
      obtain ⟨hkept, rfl⟩ := ih hpart (fun c hc => hmarks c (List.mem_cons_of_mem _ hc)) h.2
      exact ⟨.byte hb hkept, rfl⟩
  | @escape hi lo n l rest hhi hlo hrest ih =>
    rw [percentDecode_percent hhi hlo] at hpart ⊢
    rw [List.prefix_cons_iff] at hpart
    rcases hpart with rfl | ⟨part, rfl, hpart⟩
    · cases h
    · -- both sides take three bytes for the escape, as neither part can be longer
      have hlength := congrArg List.length h
      have hle := length_flatMap_shown_le hsets hrest hpart
      have hthree : (shown sets (byteOf (16 * n + l))).length ≤ 3 := length_shown_le _
      simp only [List.flatMap_cons, List.length_append, List.length_cons] at hlength
      obtain ⟨hshown, hset, htab, hback⟩ :=
        shown_of_length hsets (b := byteOf (16 * n + l)) (by omega)
      rw [List.flatMap_cons, hshown] at h
      have hblocks : escape (byteOf (16 * n + l)) ++ part.flatMap (shown sets) =
          [ascii '%', hi, lo] ++ rest := h
      have hsplit := List.append_inj hblocks rfl
      obtain ⟨hkept, rfl⟩ := ih hpart (fun c hc => hmarks c (List.mem_cons_of_mem _ hc)) hsplit.2
      obtain ⟨hquestion, hhash⟩ := hmarks _ List.mem_cons_self
      have hkeptByte : keptByte sets (byteOf (16 * n + l)) = true := by
        simp only [keptByte, hset, htab, Bool.not_false, Bool.and_self, Bool.true_and,
          Bool.and_eq_true, decide_eq_true_eq]
        exact ⟨⟨hquestion, hhash⟩, hback⟩
      refine ⟨?_, rfl⟩
      have hescape := KeptText.escape hkeptByte hkept
      rw [hsplit.1] at hescape
      exact hescape

/-! ## Without dot segments -/

omit hsets in
theorem joinSegments_pathSegments {p : Bytes} :
    joinSegments (pathSegments (ascii '/' :: p)) = ascii '/' :: p := by
  rw [pathSegments]
  induction p with
  | nil => rfl
  | cons c p ih =>
    rw [split]
    split
    · rename_i hc
      rw [joinSegments_cons, ih, hc, List.nil_append]
    · split
      · rename_i hsplit
        exact absurd hsplit (split_ne_nil _ _)
      · rename_i part parts hsplit
        rw [hsplit, joinSegments_cons, List.cons.injEq] at ih
        rw [joinSegments_cons, List.cons_append, ih.2]

omit hsets in
theorem removeDots_pathSegments {p : Bytes}
    (h : ∀ seg ∈ pathSegments (ascii '/' :: p), IsPlain seg) :
    joinSegments (removeDots [] (pathSegments (ascii '/' :: p))) = ascii '/' :: p := by
  rw [removeDots_of_plain h]
  exact joinSegments_pathSegments

omit hsets in
theorem exists_prefix_of_filter {keep : Byte → Bool} {a bs : Bytes} (h : a <+: bs.filter keep) :
    ∃ part, part <+: bs ∧ a = part.filter keep := by
  induction bs generalizing a with
  | nil =>
    rw [List.filter_nil, List.prefix_nil] at h
    exact ⟨[], List.prefix_refl _, h⟩
  | cons b bs ih =>
    cases hb : keep b with
    | true =>
      rw [List.filter_cons_of_pos hb, List.prefix_cons_iff] at h
      rcases h with rfl | ⟨a, rfl, h⟩
      · exact ⟨[], List.nil_prefix, rfl⟩
      · obtain ⟨part, hpart, rfl⟩ := ih h
        exact ⟨b :: part, List.cons_prefix_cons.mpr ⟨rfl, hpart⟩,
          (List.filter_cons_of_pos hb).symm⟩
    | false =>
      rw [List.filter_cons_of_neg (by simp [hb])] at h
      obtain ⟨part, hpart, rfl⟩ := ih h
      exact ⟨b :: part, List.cons_prefix_cons.mpr ⟨rfl, hpart⟩,
        (List.filter_cons_of_neg (by simp [hb])).symm⟩

omit hsets in
/-- Two texts with a tail that is empty or starts with a mark, cut at the mark. -/
theorem append_inj_of_mark {sep : Byte} {a b u v : Bytes} (ha : sep ∉ a) (hb : sep ∉ b)
    (hu : u = [] ∨ u.head? = some sep) (hv : v = [] ∨ v.head? = some sep)
    (h : a ++ u = b ++ v) : a = b ∧ u = v := by
  induction a generalizing b with
  | nil =>
    cases b with
    | nil => exact ⟨rfl, h⟩
    | cons c b =>
      rcases hu with rfl | hu
      · cases h
      · rw [List.nil_append] at h
        rw [h, List.cons_append, List.head?_cons, Option.some.injEq] at hu
        exact absurd (hu ▸ List.mem_cons_self) hb
  | cons c a ih =>
    rw [List.mem_cons, not_or] at ha
    cases b with
    | nil =>
      rcases hv with rfl | hv
      · cases h
      · rw [List.nil_append] at h
        rw [← h, List.cons_append, List.head?_cons, Option.some.injEq] at hv
        exact absurd hv.symm ha.1
    | cons d b =>
      rw [List.mem_cons, not_or] at hb
      rw [List.cons_append, List.cons_append, List.cons.injEq] at h
      obtain ⟨rfl, htail⟩ := ih ha.2 hb.2 h.2
      exact ⟨by rw [h.1], htail⟩

omit hsets in
theorem cutAt_fst_isPrefix (sep : Byte) (s : Bytes) :
    (cutAt sep s).1 <+: s ∧ sep ∉ (cutAt sep s).1 := by
  rw [cutAt]
  split
  · rename_i a b h
    obtain ⟨rfl, ha⟩ := splitOnce_eq_some.mp h
    exact ⟨List.prefix_append _ _, ha⟩
  · rename_i h
    exact ⟨List.prefix_refl _, splitOnce_eq_none.mp h⟩

omit hsets in
theorem cutAt_cons {sep c : Byte} (h : c ≠ sep) (s : Bytes) :
    (cutAt sep (c :: s)).1 = c :: (cutAt sep s).1 := by
  rw [cutAt, cutAt, splitOnce, if_neg h]
  cases splitOnce sep s <;> rfl

omit hsets in
theorem stripInvisible_cons {c : Byte} (h : isControlOrSpace c = false)
    (htab : isTabOrNewline c = false) (s : Bytes) :
    stripInvisible (c :: s) = c :: stripInvisible s := by
  rw [stripInvisible, stripInvisible, trimEnd, h, Bool.false_and, if_neg Bool.false_ne_true,
    List.filter_cons_of_pos (by simp [htab])]

theorem exists_shownPath (rest : Bytes) :
    ∃ p, shownPath sets (ascii '/' :: rest) = ascii '/' :: p := by
  have hset : sets.path (ascii '/') = false := hsets.path_byte (by decide)
  have hslash : normSlash (ascii '/') = ascii '/' := by decide
  rw [shownPath, stripInvisible_cons (by decide) (by decide),
    cutAt_cons (by decide), cutAt_cons (by decide), List.map_cons, hslash,
    percentEncode_cons, encodeByte, hset]
  exact ⟨_, rfl⟩

omit hsets in
theorem percentEncode_filter_eq_flatMap (part : Bytes) :
    percentEncode sets.path ((part.filter fun b => !isTabOrNewline b).map normSlash) =
      part.flatMap (shown sets) := by
  induction part with
  | nil => rfl
  | cons b part ih =>
    rw [List.flatMap_cons, shown, ← ih]
    cases htab : isTabOrNewline b with
    | true =>
      rw [List.filter_cons_of_neg (by simp [htab]), if_pos rfl]
      rfl
    | false =>
      rw [List.filter_cons_of_pos (by simp [htab]), if_neg Bool.false_ne_true]
      rfl

omit hsets in
theorem notMem_percentEncode_of_notMem {set : Byte → Bool} {c : Byte} {bs : Bytes} (h : c ∉ bs)
    (hpercent : c ≠ ascii '%') (hhex : hexValue c = none) : c ∉ percentEncode set bs := by
  intro hmem
  rcases mem_percentEncode hmem with rfl | ⟨n, hn, rfl⟩ | ⟨hmem, -⟩
  · exact hpercent rfl
  · rw [hexValue_hexDigit hn] at hhex
    cases hhex
  · exact h hmem

omit hsets in
theorem mark_or_nil_encodePart (mark : Char) (set : Byte → Bool) (part : Option Bytes) :
    encodePart mark set part = [] ∨ (encodePart mark set part).head? = some (ascii mark) := by
  cases part with
  | none => exact .inl rfl
  | some part => exact .inr rfl

omit hsets in
theorem mark_or_nil_query {query : Bytes} (h : IsUrlQuery query) :
    encodeQuery sets query = [] ∨ (encodeQuery sets query).head? = some (ascii '?') := by
  rcases h with rfl | ⟨q, rfl, -⟩
  · exact .inl rfl
  · exact .inr rfl

omit hsets in
theorem hash_notMem_encodeQuery {query : Bytes} (h : IsUrlQuery query) :
    ascii '#' ∉ encodeQuery sets query := by
  intro hmem
  rcases @isUrlQuery_encodeQuery sets query h with hnil | ⟨q, heq, hq⟩
  · rw [hnil] at hmem
    cases hmem
  · rw [heq, List.mem_cons] at hmem
    rcases hmem with hmem | hmem
    · exact absurd hmem (by decide)
    · exact (urlByte_plain (hq _ hmem)).2.1 rfl

theorem normalizeRest_of_shownPath {rest : Bytes}
    (hdots : ∀ seg ∈ pathSegments (shownPath sets (ascii '/' :: rest)), IsPlain seg) :
    normalizeRest sets (ascii '/' :: rest) = shownPath sets (ascii '/' :: rest) ++
      encodePart '?' sets.query
        (cutAt (ascii '?') (cutAt (ascii '#') (stripInvisible (ascii '/' :: rest))).1).2 ++
      encodePart '#' sets.fragment (cutAt (ascii '#') (stripInvisible (ascii '/' :: rest))).2 := by
  obtain ⟨p, hp⟩ := exists_shownPath hsets rest
  have hjoin := removeDots_pathSegments (hp ▸ hdots)
  rw [← hp] at hjoin
  simp only [normalizeRest]
  congr 2

omit hsets in
theorem question_notMem_shownPath (rest : Bytes) : ascii '?' ∉ shownPath sets rest := by
  have hslash : ∀ b, normSlash b = ascii '?' → b = ascii '?' := by decide +kernel
  refine notMem_percentEncode_of_notMem (fun hmem => ?_) (by decide) (by decide)
  obtain ⟨b, hb, heq⟩ := List.mem_map.mp hmem
  rw [hslash b heq] at hb
  exact (cutAt_fst_isPrefix _ _).2 hb

omit hsets in
/-- The path that is shown is what is shown of a part of the text, and the part has no marks. -/
theorem exists_part_of_shownPath (rest : Bytes) (hhash : ascii '#' ∉ stripInvisible rest) :
    ∃ part, part <+: trimEnd isControlOrSpace rest ∧
      (∀ b ∈ part, b ≠ ascii '?' ∧ b ≠ ascii '#') ∧
      shownPath sets rest = part.flatMap (shown sets) := by
  obtain ⟨hpre, hquestion⟩ := cutAt_fst_isPrefix (ascii '?') (stripInvisible rest)
  obtain ⟨part, hpart, heq⟩ := exists_prefix_of_filter hpre
  have hmem : ∀ b ∈ part, isTabOrNewline b = false →
      b ∈ (cutAt (ascii '?') (stripInvisible rest)).1 := by
    intro b hb htab
    rw [heq, List.mem_filter]
    exact ⟨hb, by simp [htab]⟩
  refine ⟨part, hpart, fun b hb => ⟨?_, ?_⟩, ?_⟩
  · rintro rfl
    exact hquestion (hmem _ hb (by decide))
  · rintro rfl
    exact hhash (hpre.subset (hmem _ hb (by decide)))
  · rw [shownPath, cutAt_of_notMem hhash, ← percentEncode_filter_eq_flatMap, ← heq]

omit hsets in
/-- A prefix without marks of a path and a query is a prefix of the path. -/
theorem prefix_path_of_marks {d part : Bytes} (hquery : IsUrlQuery query)
    (hpart : part <+: d ++ query) (hmarks : ascii '?' ∉ part) : part <+: d := by
  rcases List.prefix_or_prefix_of_prefix hpart (List.prefix_append d query) with h | ⟨rest, rfl⟩
  · exact h
  · rw [List.prefix_append_right_inj] at hpart
    rcases hquery with rfl | ⟨q, rfl, -⟩
    · rw [List.prefix_nil] at hpart
      rw [hpart, List.append_nil]
    · rw [List.prefix_cons_iff] at hpart
      rcases hpart with rfl | ⟨rest, rfl, -⟩
      · rw [List.append_nil]
      · exact absurd (List.mem_append_right _ List.mem_cons_self) hmarks

/-- Without dot segments, only a path whose escapes all come back is normalised to the same URL,
    and the queries are the same. -/
theorem kept_of_normalizeRest_decoded {query' : Bytes} (hpath : EscapedText isPathByte path)
    (hslash : path.head? = some (ascii '/')) (hquery' : IsUrlQuery query')
    (hquery : IsUrlQuery query) (hdots : ∀ seg ∈ pathSegments path, IsPlain seg)
    (hdots' : ∀ seg ∈ pathSegments (shownPath sets (percentDecode path ++ query')), IsPlain seg)
    (h : normalizeRest sets (percentDecode path ++ query') = normalizeRest sets (path ++ query)) :
    KeptText (keptByte sets) path ∧ encodeQuery sets query' = encodeQuery sets query ∧
      (query' = [] → ∀ b ∈ (percentDecode path).getLast?, isControlOrSpace b = false) := by
  have hurl := isUrlPath_escapedText hpath
  cases path with
  | nil => cases hslash
  | cons slash p =>
  simp only [List.head?_cons, Option.some.injEq] at hslash
  subst hslash
  have hdecode := percentDecode_cons_of_ne (by decide : ascii '/' ≠ ascii '%') p
  rw [normalizeRest_url hurl hquery, normalizePath_eq hsets hurl,
    removeDots_pathSegments hdots] at h
  have hshape := h
  rw [hdecode, List.cons_append] at hshape hdots'
  rw [normalizeRest_of_shownPath hsets hdots'] at hshape
  -- the URL that is meant has no fragment, so the other one has none
  have hhash : ascii '#' ∉ stripInvisible (ascii '/' :: (percentDecode p ++ query')) := by
    intro hmem
    obtain ⟨a, b, hab, ha⟩ := List.eq_append_cons_of_mem hmem
    rw [hab, cutAt_append ha] at hshape
    have hright : ascii '#' ∈ ascii '/' :: p ++ encodeQuery sets query := by
      rw [← hshape]
      exact List.mem_append_right _ List.mem_cons_self
    rw [List.mem_append] at hright
    rcases hright with hright | hright
    · exact (urlByte_plain (isQueryByte_of_isPathByte (hurl _ hright))).2.1 rfl
    · exact hash_notMem_encodeQuery hquery hright
  obtain ⟨part, hpart, hmarks, hshown⟩ :=
    exists_part_of_shownPath (ascii '/' :: (percentDecode p ++ query')) hhash
  rw [cutAt_of_notMem hhash] at hshape
  simp only [encodePart, List.append_nil] at hshape
  have hpathEq := (append_inj_of_mark (question_notMem_shownPath _) (question_notMem hurl)
    (mark_or_nil_encodePart '?' _ _) (mark_or_nil_query hquery) hshape).1
  rw [hshown] at hpathEq
  have hprefix : part <+: percentDecode (ascii '/' :: p) := by
    refine prefix_path_of_marks hquery' ?_ fun hmem => (hmarks _ hmem).1 rfl
    rw [hdecode]
    exact hpart.trans (trimEnd_isPrefix _ _)
  obtain ⟨hkept, heq⟩ := kept_of_flatMap_shown hsets hpath hprefix hmarks hpathEq
  have hlast : query' = [] →
      ∀ b ∈ (percentDecode (ascii '/' :: p)).getLast?, isControlOrSpace b = false := by
    rintro rfl
    rw [List.append_nil, ← hdecode, heq] at hpart
    exact trimEnd_eq_self.mp ((trimEnd_isPrefix _ _).eq_of_length_le hpart.length_le)
  refine ⟨hkept, ?_, hlast⟩
  rw [normalizeRest_decoded_of_kept hsets hurl hkept hquery' hlast,
    normalizeRest_url hurl hquery', normalizePath_eq hsets hurl, removeDots_pathSegments hdots] at h
  exact List.append_cancel_left h

end Decoded

end Digdigdig3
