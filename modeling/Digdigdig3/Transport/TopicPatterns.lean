import Mathlib.Tactic
import Digdigdig3.Lib.Glob
import Digdigdig3.Transport.TradeFrames

/-!
# Topic patterns (`topic_registry.rs`)

`topic_pattern_matches` splits a pattern at its stars, tests the first literal as a prefix and
the last one as a suffix, and looks for the literals in between from left to right. `dispatch`
and `dispatch_all` go through the registered patterns in the order of their registration.

* `TopicRegistry.matchesGlob_iff`: the match is the glob language of the pattern except where the
  key is shorter than the two anchors that begin and end it; there the two overlap, and the
  function answers `true` or takes a slice of the key that ends before it begins.
* `TopicRegistry.dispatch_eq_some_iff`, `TopicRegistry.dispatchAll_spec`: what a registry does with
  a key in which no pattern's anchors overlap.
* `TopicRegistry.topicPatternMatches_trailing`: patterns with a star at the end only.
-/

namespace Digdigdig3

namespace TopicRegistry

/-! ## Model

Texts are lists of characters. The positions of the source are byte offsets; each of them stands
behind a whole literal or before one, so the comparisons of offsets are those of characters. The
outer `Option` of a result is `none` for a panic. -/

/-- `key[pos..limit]`. -/
def slice (key : List Char) (pos limit : ℕ) : Option (List Char) :=
  if pos ≤ limit ∧ limit ≤ key.length then some ((key.take limit).drop pos) else none

/-- The loop over the middle segments (lines 110–120): the position behind the last one, or
    `none` in the inner `Option` for its `return false`. -/
def scan (key : List Char) (limit : ℕ) : ℕ → List (List Char) → Option (Option ℕ)
  | pos, [] => some (some pos)
  | pos, seg :: segments =>
    if seg = [] then scan key limit pos segments
    else
      (slice key pos limit).bind fun window =>
        match leftmost seg window with
        | some off => scan key limit (pos + (off + seg.length)) segments
        | none => some none

/-- The `n =>` branch (lines 93–124), for the segments `pre`, `middle` and `suffix`. -/
def matchSegments (pre : List Char) (middle : List (List Char)) (suffix key : List Char) :
    Option Bool :=
  if ¬pre <+: key then some false
  else if suffix ≠ [] ∧ ¬suffix <:+ key then some false
  else
    let limit := key.length - suffix.length
    (scan key limit pre.length middle).map fun
      | some pos => decide (pos ≤ limit + suffix.length)
      | none => false

/-- `topic_pattern_matches` (lines 83–127). -/
def topicPatternMatches (pattern key : List Char) : Option Bool :=
  match split '*' pattern with
  | [] => some false
  | [_] => some (decide (pattern = key))
  | pre :: segment :: segments =>
    matchSegments pre (segment :: segments).dropLast ((segment :: segments).getLastD []) key

variable {Parser : Type} [DecidableEq Parser]

/-- `TopicRegistry::dispatch` (lines 181–188), on the list of the registered patterns. -/
def dispatch (key : List Char) : List (List Char × Parser) → Option (Option Parser)
  | [] => some none
  | (pattern, parser) :: rest =>
    (topicPatternMatches pattern key).bind fun matched =>
      if matched then some (some parser) else dispatch key rest

/-- The body of the loop of `dispatch_all` (lines 197–206). -/
def dispatchStep (key : List Char) (out : List Parser) (entry : List Char × Parser) :
    Option (List Parser) :=
  (topicPatternMatches entry.1 key).map fun matched =>
    if matched then if entry.2 ∈ out then out else out ++ [entry.2] else out

/-- `TopicRegistry::dispatch_all` (lines 195–208). -/
def dispatchAll (key : List Char) (registry : List (List Char × Parser)) :
    Option (List Parser) :=
  registry.foldlM (dispatchStep key) []

/-! ## Specification -/

/-- The call returns, and `true` just for the keys that come from the pattern when each of its
    stars is replaced by some text. -/
def MatchesGlob (pattern key : List Char) : Prop :=
  ∃ matched, topicPatternMatches pattern key = some matched ∧
    (matched = true ↔ Glob '*' pattern key)

/-- The literal before the first star begins the key and the one behind the last star ends it,
    and the key is shorter than the two together. -/
def AnchorsOverlap (pattern key : List Char) : Prop :=
  ∃ pre middle suffix, split '*' pattern = pre :: (middle ++ [suffix]) ∧
    pre <+: key ∧ suffix <:+ key ∧ key.length < pre.length + suffix.length

/-! ## The segments -/

theorem topicPatternMatches_of_split {pattern pre suffix : List Char} {middle : List (List Char)}
    (h : split '*' pattern = pre :: (middle ++ [suffix])) (key : List Char) :
    topicPatternMatches pattern key = matchSegments pre middle suffix key := by
  cases middle with
  | nil =>
    rw [topicPatternMatches, h]
    rfl
  | cons segment middle =>
    rw [topicPatternMatches, h]
    have hlast : (segment :: (middle ++ [suffix])).dropLast = segment :: middle := by
      rw [← List.cons_append, List.dropLast_concat]
    have hsuffix : (segment :: (middle ++ [suffix])).getLastD [] = suffix := by
      rw [← List.cons_append, List.getLastD_concat]
    simp only [List.cons_append, hlast, hsuffix]

/-- A pattern has a star or is its own only literal. -/
theorem split_cases (pattern : List Char) :
    ('*' ∉ pattern) ∨ ∃ pre middle suffix, split '*' pattern = pre :: (middle ++ [suffix]) := by
  by_cases h : '*' ∈ pattern
  · right
    obtain ⟨a, b, rfl, ha⟩ := List.eq_append_cons_of_mem h
    refine ⟨a, (split '*' b).dropLast, (split '*' b).getLast (split_ne_nil _ _), ?_⟩
    rw [split_append ha, List.dropLast_concat_getLast]
  · exact .inl h

theorem topicPatternMatches_of_notMem {pattern : List Char} (h : '*' ∉ pattern)
    (key : List Char) : topicPatternMatches pattern key = some (decide (pattern = key)) := by
  rw [topicPatternMatches, split_of_notMem h]

/-! ## The scan -/

/-- The slice of a key between its two anchors. -/
theorem slice_eq (pre inner suffix : List Char) {done : ℕ} (h : done ≤ inner.length) :
    slice (pre ++ (inner ++ suffix)) (pre.length + done) (pre.length + inner.length) =
      some (inner.drop done) := by
  have htake : (pre ++ (inner ++ suffix)).take (pre.length + inner.length) = pre ++ inner := by
    rw [← List.append_assoc, ← List.length_append, List.take_left]
  have hle : pre.length + inner.length ≤ (pre ++ (inner ++ suffix)).length := by
    simp only [List.length_append]
    omega
  rw [slice, if_pos ⟨by omega, hle⟩, htake, List.drop_append, List.drop_eq_nil_of_le (by omega)]
  simp

/-- The scan finds the segments just when they stand in order in what is left of the key, and
    then it ends before the suffix. -/
theorem scan_eq (pre inner suffix : List Char) (middle : List (List Char)) {done : ℕ}
    (hdone : done ≤ inner.length) :
    ∃ result, scan (pre ++ (inner ++ suffix)) (pre.length + inner.length) (pre.length + done)
        middle = some result ∧
      (result.isSome = true ↔ OccurInOrder middle (inner.drop done)) ∧
      ∀ pos ∈ result, pos ≤ pre.length + inner.length := by
  induction middle generalizing done with
  | nil =>
    refine ⟨some (pre.length + done), rfl, by simp [OccurInOrder], ?_⟩
    intro pos hpos
    cases hpos
    omega
  | cons seg middle ih =>
    rw [scan]
    split_ifs with hseg
    · rw [hseg, occurInOrder_nil_cons]
      exact ih hdone
    · rw [slice_eq pre inner suffix hdone, Option.bind_some, occurInOrder_cons_iff]
      cases hfind : leftmost seg (inner.drop done) with
      | none =>
        refine ⟨none, rfl, ?_, by simp⟩
        simp
      | some off =>
        obtain ⟨text, rest, hdrop, hlen⟩ := leftmost_eq_some hfind
        have hle : done + (off + seg.length) ≤ inner.length := by
          have := congrArg List.length hdrop
          simp only [List.length_drop, List.length_append] at this
          omega
        obtain ⟨result, hresult, hiff, hpos⟩ := ih hle
        refine ⟨result, ?_, ?_, hpos⟩
        · rw [← hresult, ← Nat.add_assoc]
        · rw [hiff, ← List.drop_drop]
          simp

/-- The scan of a key whose anchors overlap: a segment that is not empty is looked for in a slice
    that ends before it begins. -/
theorem scan_of_overlap {key : List Char} {limit pos : ℕ} (h : limit < pos)
    (middle : List (List Char)) :
    scan key limit pos middle = if ∀ seg ∈ middle, seg = [] then some (some pos) else none := by
  induction middle with
  | nil => simp [scan]
  | cons seg middle ih =>
    rw [scan]
    split_ifs with hseg hall hall
    · rw [ih, if_pos fun s hs => hall s (List.mem_cons_of_mem _ hs)]
    · rw [ih, if_neg]
      intro hmiddle
      exact hall (List.forall_mem_cons.mpr ⟨hseg, hmiddle⟩)
    · exact absurd (hall seg List.mem_cons_self) hseg
    · rw [slice, if_neg fun hle => absurd hle.1 (not_le.mpr h)]
      rfl

/-! ## The match -/

/-- Two anchors that do not overlap leave the text between them. -/
theorem eq_append_of_anchors {pre suffix key : List Char} (hpre : pre <+: key)
    (hsuffix : suffix <:+ key) (hlen : pre.length + suffix.length ≤ key.length) :
    ∃ inner, key = pre ++ (inner ++ suffix) := by
  obtain ⟨rest, rfl⟩ := hpre
  rw [List.length_append] at hlen
  have hrest : suffix <:+ rest :=
    List.suffix_of_suffix_length_le hsuffix (List.suffix_append pre rest) (by omega)
  obtain ⟨inner, rfl⟩ := hrest
  exact ⟨inner, rfl⟩

/-- Where the anchors fit, the answer is whether the middle segments stand in order between
    them. -/
theorem matchSegments_append (pre inner suffix : List Char) (middle : List (List Char)) :
    ∃ matched, matchSegments pre middle suffix (pre ++ (inner ++ suffix)) = some matched ∧
      (matched = true ↔ OccurInOrder middle inner) := by
  have hlimit : (pre ++ (inner ++ suffix)).length - suffix.length = pre.length + inner.length := by
    simp only [List.length_append]
    omega
  have hsuffix : suffix <:+ pre ++ (inner ++ suffix) :=
    (List.suffix_append inner suffix).trans (List.suffix_append pre _)
  rw [matchSegments, if_neg (not_not.mpr (List.prefix_append pre _)),
    if_neg fun h => h.2 hsuffix]
  simp only [hlimit]
  obtain ⟨result, hresult, hiff, hpos⟩ := scan_eq pre inner suffix middle (Nat.zero_le _)
  rw [Nat.add_zero] at hresult
  rw [hresult, Option.map_some]
  refine ⟨_, rfl, ?_⟩
  rw [List.drop_zero] at hiff
  rw [← hiff]
  cases result with
  | none => simp
  | some pos =>
    have := hpos pos rfl
    simp only [Option.isSome_some, iff_true, decide_eq_true_eq]
    omega

theorem matchSegments_of_not_anchored {pre suffix key : List Char} (middle : List (List Char))
    (h : ¬(pre <+: key ∧ suffix <:+ key)) :
    matchSegments pre middle suffix key = some false := by
  rw [matchSegments]
  by_cases hpre : pre <+: key
  · have hsuffix : ¬suffix <:+ key := fun hsuffix => h ⟨hpre, hsuffix⟩
    have hne : suffix ≠ [] := by
      rintro rfl
      exact hsuffix List.nil_suffix
    rw [if_neg (not_not.mpr hpre), if_pos ⟨hne, hsuffix⟩]
  · rw [if_pos hpre]

/-- Where the anchors overlap the call never returns `false`. -/
theorem matchSegments_of_overlap {pre suffix key : List Char} (middle : List (List Char))
    (hpre : pre <+: key) (hsuffix : suffix <:+ key)
    (hlen : key.length < pre.length + suffix.length) :
    matchSegments pre middle suffix key =
      if ∀ seg ∈ middle, seg = [] then some true else none := by
  have hle := hsuffix.length_le
  have hple := hpre.length_le
  rw [matchSegments, if_neg (not_not.mpr hpre), if_neg fun h => h.2 hsuffix]
  simp only
  rw [scan_of_overlap (by omega)]
  split_ifs with hall
  · have hle' : pre.length ≤ key.length - suffix.length + suffix.length := by omega
    simp [hle']
  · rfl

theorem glob_iff_anchors {pattern pre suffix : List Char} {middle : List (List Char)}
    (h : split '*' pattern = pre :: (middle ++ [suffix])) {key : List Char} :
    Glob '*' pattern key ↔ ∃ inner, key = pre ++ (inner ++ suffix) ∧ OccurInOrder middle inner := by
  rw [glob_iff_split, h, joined_iff]

theorem not_matchesGlob_of_overlap {pattern key : List Char} (h : AnchorsOverlap pattern key) :
    ¬MatchesGlob pattern key := by
  obtain ⟨pre, middle, suffix, hsplit, hpre, hsuffix, hlen⟩ := h
  rintro ⟨matched, hmatched, hiff⟩
  rw [topicPatternMatches_of_split hsplit,
    matchSegments_of_overlap middle hpre hsuffix hlen] at hmatched
  split_ifs at hmatched with hall
  cases hmatched
  obtain ⟨inner, rfl, -⟩ := (glob_iff_anchors hsplit).mp (hiff.mp rfl)
  simp only [List.length_append] at hlen
  omega

theorem matchesGlob_of_notMem {pattern : List Char} (h : '*' ∉ pattern) (key : List Char) :
    MatchesGlob pattern key := by
  refine ⟨_, topicPatternMatches_of_notMem h key, ?_⟩
  rw [decide_eq_true_eq, glob_of_notMem h]
  exact eq_comm

theorem matchesGlob_append {pattern pre suffix : List Char} {middle : List (List Char)}
    (h : split '*' pattern = pre :: (middle ++ [suffix])) (inner : List Char) :
    MatchesGlob pattern (pre ++ (inner ++ suffix)) := by
  obtain ⟨matched, hmatched, hiff⟩ := matchSegments_append pre inner suffix middle
  refine ⟨matched, (topicPatternMatches_of_split h _).trans hmatched, ?_⟩
  rw [hiff, glob_iff_anchors h]
  constructor
  · intro horder
    exact ⟨inner, rfl, horder⟩
  · rintro ⟨inner', heq, horder⟩
    rwa [List.append_cancel_right (List.append_cancel_left heq)]

theorem matchesGlob_of_not_anchored {pattern pre suffix key : List Char}
    {middle : List (List Char)} (h : split '*' pattern = pre :: (middle ++ [suffix]))
    (hanchors : ¬(pre <+: key ∧ suffix <:+ key)) : MatchesGlob pattern key := by
  refine ⟨false, (topicPatternMatches_of_split h key).trans
    (matchSegments_of_not_anchored middle hanchors), ?_⟩
  rw [glob_iff_anchors h]
  simp only [Bool.false_eq_true, false_iff, not_exists, not_and]
  rintro inner rfl
  exact absurd ⟨List.prefix_append _ _,
    (List.suffix_append inner suffix).trans (List.suffix_append pre _)⟩ hanchors

theorem matchesGlob_of_not_overlap {pattern key : List Char} (h : ¬AnchorsOverlap pattern key) :
    MatchesGlob pattern key := by
  rcases split_cases pattern with hstar | ⟨pre, middle, suffix, hsplit⟩
  · exact matchesGlob_of_notMem hstar key
  · by_cases hanchors : pre <+: key ∧ suffix <:+ key
    · have hlen : pre.length + suffix.length ≤ key.length := by
        by_contra hlt
        exact h ⟨pre, middle, suffix, hsplit, hanchors.1, hanchors.2, not_le.mp hlt⟩
      obtain ⟨inner, rfl⟩ := eq_append_of_anchors hanchors.1 hanchors.2 hlen
      exact matchesGlob_append hsplit inner
    · exact matchesGlob_of_not_anchored hsplit hanchors

/-- **Main theorem.** The match is the language of the pattern just when the two anchors of the
    pattern do not overlap in the key. -/
theorem matchesGlob_iff (pattern key : List Char) :
    MatchesGlob pattern key ↔ ¬AnchorsOverlap pattern key := by
  constructor
  · intro h hoverlap
    exact not_matchesGlob_of_overlap hoverlap h
  · exact matchesGlob_of_not_overlap

/-- `market.*.depth` matches `market.depth`, and `ab*x*ba` on `aba` is a panic. -/
theorem not_matchesGlob :
    ¬(∀ pattern key, MatchesGlob pattern key) ∧
      topicPatternMatches "market.*.depth".toList "market.depth".toList = some true ∧
      topicPatternMatches "ab*x*ba".toList "aba".toList = none := by
  refine ⟨fun h => ?_, by decide, by decide⟩
  refine not_matchesGlob_of_overlap ?_ (h "market.*.depth".toList "market.depth".toList)
  exact ⟨"market.".toList, [], ".depth".toList, by decide, by decide, by decide, by decide⟩

/-- A pattern whose only star, if any, is its last character. -/
theorem topicPatternMatches_trailing {pattern : List Char} (h : '*' ∉ pattern.dropLast)
    (key : List Char) :
    topicPatternMatches pattern key = some (TradeFrames.topicPatternMatches pattern key) := by
  by_cases hlast : pattern.getLast? = some '*'
  · have hpattern : pattern = pattern.dropLast ++ ['*'] :=
      (List.dropLast_append_getLast? _ hlast).symm
    have hsplit : split '*' pattern = pattern.dropLast :: ([] ++ [[]]) := by
      conv_lhs => rw [hpattern]
      rw [split_append h]
      rfl
    rw [topicPatternMatches_of_split hsplit, TradeFrames.topicPatternMatches, if_pos hlast]
    by_cases hpre : pattern.dropLast <+: key
    · have hle := hpre.length_le
      rw [matchSegments, if_neg (not_not.mpr hpre), if_neg fun hne => hne.1 rfl,
        List.isPrefixOf_iff_prefix.mpr hpre]
      simp only [scan, List.length_nil, Nat.sub_zero, Nat.add_zero, Option.map_some, hle,
        decide_true]
    · rw [matchSegments_of_not_anchored _ fun hanchors => hpre hanchors.1]
      rw [← List.isPrefixOf_iff_prefix, Bool.not_eq_true] at hpre
      rw [hpre]
  · have hstar : '*' ∉ pattern := by
      intro hmem
      rcases List.eq_nil_or_concat pattern with rfl | ⟨front, last, rfl⟩
      · exact absurd hmem List.not_mem_nil
      · rw [List.concat_eq_append] at h hmem hlast
        rw [List.dropLast_concat] at h
        rcases List.mem_append.mp hmem with hmem | hmem
        · exact h hmem
        · rw [List.mem_singleton.mp hmem] at hlast
          simp at hlast
    rw [topicPatternMatches_of_notMem hstar, TradeFrames.topicPatternMatches, if_neg hlast]

/-! ## The registry -/

omit [DecidableEq Parser] in
/-- A key is given to the first pattern in whose language it is. -/
theorem dispatch_eq_some_iff {key : List Char} {registry : List (List Char × Parser)}
    (h : ∀ entry ∈ registry, ¬AnchorsOverlap entry.1 key) (parser : Parser) :
    dispatch key registry = some (some parser) ↔
      ∃ earlier pattern later, registry = earlier ++ (pattern, parser) :: later ∧
        Glob '*' pattern key ∧ ∀ entry ∈ earlier, ¬Glob '*' entry.1 key := by
  induction registry with
  | nil => simp [dispatch]
  | cons entry rest ih =>
    obtain ⟨pattern, first⟩ := entry
    obtain ⟨hentry, hrest⟩ := List.forall_mem_cons.mp h
    obtain ⟨matched, hmatched, hiff⟩ := matchesGlob_of_not_overlap hentry
    rw [dispatch, hmatched, Option.bind_some]
    cases matched with
    | true =>
      have hglob := hiff.mp rfl
      rw [if_pos rfl, Option.some.injEq, Option.some.injEq]
      constructor
      · rintro rfl
        exact ⟨[], pattern, rest, rfl, hglob, by simp⟩
      · rintro ⟨earlier, pattern', later, heq, -, hearlier⟩
        cases earlier with
        | nil =>
          cases heq
          rfl
        | cons entry earlier =>
          cases heq
          exact absurd hglob (hearlier _ List.mem_cons_self)
    | false =>
      have hglob : ¬Glob '*' pattern key := fun hglob => Bool.false_ne_true (hiff.mpr hglob)
      rw [if_neg Bool.false_ne_true, ih hrest]
      constructor
      · rintro ⟨earlier, pattern', later, rfl, hpattern, hearlier⟩
        exact ⟨(pattern, first) :: earlier, pattern', later, rfl, hpattern,
          List.forall_mem_cons.mpr ⟨hglob, hearlier⟩⟩
      · rintro ⟨earlier, pattern', later, heq, hpattern, hearlier⟩
        cases earlier with
        | nil =>
          cases heq
          exact absurd hpattern hglob
        | cons entry earlier =>
          cases heq
          exact ⟨earlier, pattern', later, rfl, hpattern,
            fun e he => hearlier e (List.mem_cons_of_mem _ he)⟩

/-- One turn of the loop of `dispatch_all`. -/
theorem dispatchStep_spec {key : List Char} {entry : List Char × Parser}
    (h : ¬AnchorsOverlap entry.1 key) {out : List Parser} (hout : out.Nodup) :
    ∃ out', dispatchStep key out entry = some out' ∧ out'.Nodup ∧
      ∀ parser, parser ∈ out' ↔ parser ∈ out ∨ (parser = entry.2 ∧ Glob '*' entry.1 key) := by
  obtain ⟨matched, hmatched, hiff⟩ := matchesGlob_of_not_overlap h
  rw [dispatchStep, hmatched, Option.map_some]
  refine ⟨_, rfl, ?_⟩
  rw [← hiff]
  split_ifs with hm hmem
  · refine ⟨hout, fun parser => ⟨.inl, ?_⟩⟩
    rintro (hparser | ⟨rfl, -⟩)
    · exact hparser
    · exact hmem
  · refine ⟨List.nodup_append.mpr ⟨hout, List.nodup_singleton _, ?_⟩, ?_⟩
    · intro a ha b hb
      rw [List.mem_singleton.mp hb]
      rintro rfl
      exact hmem ha
    · intro parser
      simp [hm]
  · refine ⟨hout, fun parser => ?_⟩
    simp [hm]

theorem foldlM_dispatchStep {key : List Char} {registry : List (List Char × Parser)}
    (h : ∀ entry ∈ registry, ¬AnchorsOverlap entry.1 key) {out : List Parser}
    (hout : out.Nodup) :
    ∃ out', registry.foldlM (dispatchStep key) out = some out' ∧ out'.Nodup ∧
      ∀ parser, parser ∈ out' ↔
        parser ∈ out ∨ ∃ entry ∈ registry, parser = entry.2 ∧ Glob '*' entry.1 key := by
  induction registry generalizing out with
  | nil => exact ⟨out, rfl, hout, by simp⟩
  | cons entry registry ih =>
    obtain ⟨hentry, hrest⟩ := List.forall_mem_cons.mp h
    obtain ⟨out₁, hstep, hnodup, hmem⟩ := dispatchStep_spec hentry hout
    obtain ⟨out₂, hrun, hnodup', hmem'⟩ := ih hrest hnodup
    refine ⟨out₂, ?_, hnodup', fun parser => ?_⟩
    · rw [List.foldlM_cons, hstep]
      exact hrun
    · rw [hmem', hmem, List.exists_mem_cons_iff, or_assoc]

/-- Each parser that has a pattern for the key is called once, and no other. -/
theorem dispatchAll_spec {key : List Char} {registry : List (List Char × Parser)}
    (h : ∀ entry ∈ registry, ¬AnchorsOverlap entry.1 key) :
    ∃ out, dispatchAll key registry = some out ∧ out.Nodup ∧
      ∀ parser, parser ∈ out ↔ ∃ entry ∈ registry, parser = entry.2 ∧ Glob '*' entry.1 key := by
  obtain ⟨out, hout, hnodup, hmem⟩ := foldlM_dispatchStep h List.nodup_nil
  refine ⟨out, hout, hnodup, fun parser => ?_⟩
  rw [hmem, or_iff_right List.not_mem_nil]

end TopicRegistry

end Digdigdig3
