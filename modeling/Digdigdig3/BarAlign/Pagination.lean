import Mathlib.Data.List.MinMax
import Mathlib.Data.Finset.Sort
import Digdigdig3.Derived.Basic
import Digdigdig3.Lib.SortedWindow

/-!
# `paginate_klines`: history read backwards

`paginate_klines` (`crates/digdigdig3-station/src/bar_align.rs` lines 233–273) reads pages of bars
from the end of a range to its start. `fetch` may change between two calls, so its answers come by
the number of the call.

* `calls_le`: at most 512 calls, whatever the venue answers.
* `read_page`: what was read after a page are the bars from the next cursor on.
* `paginateKlines_complete`: where 256 pages are enough, every bar of the range is returned.
-/

namespace Digdigdig3.BarAlign

open Derived (BarPoint)

variable {E : Type}

/-! ## Model -/

/-- The answer to each call, by its number and the exclusive end that it asks for. -/
abbrev Fetch (E : Type) := ℕ → ℤ → Except E (List BarPoint)

/-- The variables of the loop (lines 238–239), and how many calls were made. -/
structure PageWalk where
  all : List BarPoint
  cursor : ℤ
  calls : ℕ

/-- A page, with one retry (lines 244–247), and how many calls were made. -/
def fetchPage (fetch : Fetch E) (w : PageWalk) : Except E (List BarPoint) × ℕ :=
  match fetch w.calls w.cursor with
  | .ok page => (.ok page, w.calls + 1)
  | .error _ => (fetch (w.calls + 1) w.cursor, w.calls + 2)

/-- The smallest `open_time` of a page (line 251). -/
def oldest (page : List BarPoint) (cursor : ℤ) : ℤ := (page.map BarPoint.openTime).min?.getD cursor

/-- The loop (lines 241–262), for the pages that are left of its bound. -/
def pageLoop (fetch : Fetch E) (start : ℤ) : ℕ → PageWalk → Except E (List BarPoint) × ℕ
  | 0, w => (.ok w.all, w.calls)
  | pages + 1, w =>
    match fetchPage fetch w with
    | (.error e, calls) => (.error e, calls)
    | (.ok page, calls) =>
      if page = [] then (.ok w.all, calls)
      else
        let all := w.all ++ page
        if oldest page w.cursor ≤ start then (.ok all, calls)
        else
          let next := oldest page w.cursor - 1
          if w.cursor ≤ next then (.ok all, calls)
          else pageLoop fetch start pages { all, cursor := next, calls }

/-- `retain`, the sort and `dedup_by_key` (lines 263–265). -/
def finishBars (start stop : ℤ) (all : List BarPoint) : List BarPoint :=
  dedupByKey BarPoint.openTime
    (sortByKey BarPoint.openTime (all.filter fun b => start ≤ b.openTime ∧ b.openTime < stop))

/-- `paginate_klines` (lines 233–267), and how many calls it makes. -/
def paginateKlines (fetch : Fetch E) (start stop : ℤ) : Except E (List BarPoint) × ℕ :=
  let result := pageLoop fetch start 256 { all := [], cursor := stop, calls := 0 }
  (result.1.map (finishBars start stop), result.2)

/-! ## Specification -/

/-- Two bars open at least two milliseconds apart. -/
def Spaced (bars : Finset BarPoint) : Prop :=
  ∀ a ∈ bars, ∀ b ∈ bars, a ≠ b → 2 ≤ |a.openTime - b.openTime|

/-- The page holds the newest bars before `cursor`, and at least one if there are any. -/
structure NewestBlock (bars : Finset BarPoint) (cursor : ℤ) (page : List BarPoint) : Prop where
  subset : ∀ b ∈ page, b ∈ bars ∧ b.openTime < cursor
  newest : ∀ b ∈ page, ∀ c ∈ bars, b.openTime ≤ c.openTime → c.openTime < cursor → c ∈ page
  nonempty : page = [] → ∀ b ∈ bars, cursor ≤ b.openTime

/-- Every call is answered by a block of the newest bars, of any size. -/
def Serves (bars : Finset BarPoint) (fetch : Fetch E) : Prop :=
  ∀ call cursor, ∃ page, fetch call cursor = .ok page ∧ NewestBlock bars cursor page

/-- The pages of a walk: each ends one millisecond before the oldest bar of the page before. -/
def walkPages (fetch : Fetch E) : ℕ → ℕ → ℤ → List (List BarPoint)
  | 0, _, _ => []
  | pages + 1, call, cursor =>
    match fetch call cursor with
    | .error _ => []
    | .ok page => page :: walkPages fetch pages (call + 1) (oldest page cursor - 1)

/-- The bars of the range. -/
def barsIn (bars : Finset BarPoint) (start stop : ℤ) : Finset BarPoint :=
  bars.filter fun b => start ≤ b.openTime ∧ b.openTime < stop

/-- The first 256 pages have as many bars as the range. -/
def Suffices (bars : Finset BarPoint) (fetch : Fetch E) (start stop : ℤ) : Prop :=
  (barsIn bars start stop).card ≤
    ((walkPages fetch 256 0 stop).map fun page => page.toFinset.card).sum

/-- The bars of the range, in order and each once. -/
structure Complete (bars : Finset BarPoint) (start stop : ℤ) (out : List BarPoint) : Prop where
  ascending : out.Pairwise fun a b => a.openTime < b.openTime
  mem_iff : ∀ b, b ∈ out ↔ b ∈ barsIn bars start stop

/-! ## Calls -/

theorem fetchPage_calls_le (fetch : Fetch E) (w : PageWalk) :
    (fetchPage fetch w).2 ≤ w.calls + 2 := by
  unfold fetchPage
  split <;> simp

theorem pageLoop_calls_le (fetch : Fetch E) (start : ℤ) (pages : ℕ) (w : PageWalk) :
    (pageLoop fetch start pages w).2 ≤ w.calls + 2 * pages := by
  induction pages generalizing w with
  | zero => exact le_rfl
  | succ pages ih =>
    have hcalls := fetchPage_calls_le fetch w
    unfold pageLoop
    rcases hpage : fetchPage fetch w with ⟨page | page, calls⟩
    · rw [hpage] at hcalls
      simp only at hcalls ⊢
      omega
    · rw [hpage] at hcalls
      simp only at hcalls ⊢
      split_ifs
      · simp only
        omega
      · simp only
        omega
      · simp only
        omega
      · have hrest := ih { all := w.all ++ page, cursor := oldest page w.cursor - 1, calls }
        simp only at hrest
        omega

/-- A misbehaving venue is called at most 512 times. -/
theorem calls_le (fetch : Fetch E) (start stop : ℤ) : (paginateKlines fetch start stop).2 ≤ 512 :=
  pageLoop_calls_le fetch start 256 { all := [], cursor := stop, calls := 0 }

/-! ## Pages -/

section Pages

variable {bars : Finset BarPoint} {cursor stop : ℤ} {page all : List BarPoint}

/-- The oldest bar of a page. -/
theorem exists_oldest (cursor : ℤ) (hpage : page ≠ []) :
    ∃ b ∈ page, b.openTime = oldest page cursor ∧ ∀ c ∈ page, oldest page cursor ≤ c.openTime := by
  rcases hmin : (page.map BarPoint.openTime).min? with _ | t
  · rw [List.min?_eq_none_iff, List.map_eq_nil_iff] at hmin
    exact absurd hmin hpage
  · have hold : oldest page cursor = t := by rw [oldest, hmin, Option.getD_some]
    obtain ⟨hmem, hle⟩ := List.min?_eq_some_iff.mp hmin
    obtain ⟨b, hb, hbt⟩ := List.mem_map.mp hmem
    refine ⟨b, hb, by rw [hold, hbt], fun c hc => ?_⟩
    rw [hold]
    exact hle _ (List.mem_map_of_mem hc)

theorem NewestBlock.oldest_lt (h : NewestBlock bars cursor page) (hpage : page ≠ []) :
    oldest page cursor < cursor := by
  obtain ⟨b, hb, hbt, -⟩ := exists_oldest cursor hpage
  rw [← hbt]
  exact (h.subset b hb).2

/-- The page holds the bars from its oldest one up to the cursor. -/
theorem NewestBlock.mem_iff (h : NewestBlock bars cursor page) (hpage : page ≠ []) (b : BarPoint) :
    b ∈ page ↔ b ∈ bars ∧ oldest page cursor ≤ b.openTime ∧ b.openTime < cursor := by
  obtain ⟨first, hfirst, hft, hle⟩ := exists_oldest cursor hpage
  constructor
  · exact fun hb => ⟨(h.subset b hb).1, hle b hb, (h.subset b hb).2⟩
  · rintro ⟨hb, hge, hlt⟩
    exact h.newest first hfirst b hb (by omega) hlt

/-- What was read are the bars from the cursor on. -/
def ReadFrom (bars : Finset BarPoint) (cursor stop : ℤ) (all : List BarPoint) : Prop :=
  ∀ b, b ∈ all ↔ b ∈ bars ∧ cursor ≤ b.openTime ∧ b.openTime < stop

/-- No bar lies in the millisecond that the next page leaves out. -/
theorem openTime_ne (hspaced : Spaced bars) (h : NewestBlock bars cursor page) (hpage : page ≠ [])
    {b : BarPoint} (hb : b ∈ bars) : b.openTime ≠ oldest page cursor - 1 := by
  intro heq
  obtain ⟨first, hfirst, hft, -⟩ := exists_oldest cursor hpage
  have hne : b ≠ first := by
    rintro rfl
    omega
  have hgap := hspaced b hb first (h.subset first hfirst).1 hne
  rw [heq, hft] at hgap
  norm_num at hgap

/-- After a page the bars from the next cursor on are read. -/
theorem read_page (hspaced : Spaced bars) (h : NewestBlock bars cursor page) (hpage : page ≠ [])
    (hcursor : cursor ≤ stop) (hread : ReadFrom bars cursor stop all) :
    ReadFrom bars (oldest page cursor - 1) stop (all ++ page) := by
  have hlt := h.oldest_lt hpage
  intro b
  rw [List.mem_append, hread b, h.mem_iff hpage b]
  constructor
  · rintro (⟨hb, hge, hlt'⟩ | ⟨hb, hge, hlt'⟩)
    · exact ⟨hb, by omega, hlt'⟩
    · exact ⟨hb, by omega, by omega⟩
  · rintro ⟨hb, hge, hlt'⟩
    have hne := openTime_ne hspaced h hpage hb
    by_cases hnew : cursor ≤ b.openTime
    · exact Or.inl ⟨hb, hnew, hlt'⟩
    · exact Or.inr ⟨hb, by omega, by omega⟩

/-- A page brings only bars that were not read before. -/
theorem card_read_page (h : NewestBlock bars cursor page) (hread : ReadFrom bars cursor stop all) :
    (all ++ page).toFinset.card = all.toFinset.card + page.toFinset.card := by
  rw [List.toFinset_append, Finset.card_union_of_disjoint]
  rw [Finset.disjoint_left]
  intro b hall hpage
  have hge := ((hread b).mp (List.mem_toFinset.mp hall)).2.1
  have hlt := (h.subset b (List.mem_toFinset.mp hpage)).2
  omega

/-- As many bars as the range has, read from its end on, are all bars of the range. -/
theorem covers_of_card_le {start : ℤ} (hread : ReadFrom bars cursor stop all)
    (hcard : (barsIn bars start stop).card ≤ all.toFinset.card) :
    ∀ b ∈ barsIn bars start stop, b ∈ all := by
  intro b hb
  by_contra hmissing
  obtain ⟨hbars, hge, hlt⟩ := Finset.mem_filter.mp hb
  have hbefore : b.openTime < cursor := by
    by_contra hcursor
    exact hmissing ((hread b).mpr ⟨hbars, not_lt.mp hcursor, hlt⟩)
  have hssubset : all.toFinset ⊂ barsIn bars start stop := by
    refine (Finset.ssubset_iff_of_subset fun c hc => ?_).mpr ⟨b, hb, ?_⟩
    · obtain ⟨hcbars, hcge, hclt⟩ := (hread c).mp (List.mem_toFinset.mp hc)
      exact Finset.mem_filter.mpr ⟨hcbars, by omega, hclt⟩
    · rwa [List.mem_toFinset]
  have := Finset.card_lt_card hssubset
  omega

end Pages

/-! ## The walk -/

section Walk

variable {bars : Finset BarPoint} {fetch : Fetch E} {start stop : ℤ}

/-- The loop ends with all bars of the range, if the pages that are left hold what is missing. -/
theorem pageLoop_covers (hspaced : Spaced bars) (hserves : Serves bars fetch) (pages : ℕ)
    {w : PageWalk} (hcursor : w.cursor ≤ stop) (hread : ReadFrom bars w.cursor stop w.all)
    (hcard : (barsIn bars start stop).card ≤ w.all.toFinset.card +
      ((walkPages fetch pages w.calls w.cursor).map fun page => page.toFinset.card).sum) :
    ∃ all, (pageLoop fetch start pages w).1 = .ok all ∧ (∀ b ∈ all, b ∈ bars) ∧
      ∀ b ∈ barsIn bars start stop, b ∈ all := by
  induction pages generalizing w with
  | zero =>
    refine ⟨w.all, rfl, fun b hb => ((hread b).mp hb).1, covers_of_card_le hread ?_⟩
    simpa [walkPages] using hcard
  | succ pages ih =>
    obtain ⟨page, hfetch, hblock⟩ := hserves w.calls w.cursor
    have hpage : fetchPage fetch w = (.ok page, w.calls + 1) := by rw [fetchPage, hfetch]
    rw [walkPages, hfetch, List.map_cons, List.sum_cons] at hcard
    unfold pageLoop
    rw [hpage]
    simp only
    by_cases hempty : page = []
    · rw [if_pos hempty]
      refine ⟨w.all, rfl, fun b hb => ((hread b).mp hb).1, fun b hb => ?_⟩
      obtain ⟨hbars, -, hlt⟩ := Finset.mem_filter.mp hb
      exact (hread b).mpr ⟨hbars, hblock.nonempty hempty b hbars, hlt⟩
    · have hlt := hblock.oldest_lt hempty
      have hnext := read_page hspaced hblock hempty hcursor hread
      rw [if_neg hempty]
      by_cases hstart : oldest page w.cursor ≤ start
      · rw [if_pos hstart]
        refine ⟨_, rfl, fun b hb => ((hnext b).mp hb).1, fun b hb => ?_⟩
        obtain ⟨hbars, hge, hltb⟩ := Finset.mem_filter.mp hb
        exact (hnext b).mpr ⟨hbars, by omega, hltb⟩
      · rw [if_neg hstart, if_neg (by omega)]
        refine ih (by simp only; omega) hnext ?_
        simp only
        rw [card_read_page hblock hread]
        omega

/-- What is kept of bars that cover the range is the range, in order. -/
theorem complete_finishBars (hspaced : Spaced bars) {all : List BarPoint}
    (hsub : ∀ b ∈ all, b ∈ bars) (hcovers : ∀ b ∈ barsIn bars start stop, b ∈ all) :
    Complete bars start stop (finishBars start stop all) := by
  have hsorted : (sortByKey BarPoint.openTime (all.filter fun b =>
      start ≤ b.openTime ∧ b.openTime < stop)).Pairwise fun x y => x.openTime ≤ y.openTime :=
    sorted_sortByKey _
  have hmem : ∀ b, b ∈ sortByKey BarPoint.openTime
      (all.filter fun b => start ≤ b.openTime ∧ b.openTime < stop) ↔
        b ∈ barsIn bars start stop := by
    intro b
    rw [mem_sortByKey, List.mem_filter, barsIn, Finset.mem_filter, decide_eq_true_iff]
    constructor
    · exact fun h => ⟨hsub b h.1, h.2⟩
    · exact fun h => ⟨hcovers b (Finset.mem_filter.mpr h), h.2⟩
  refine ⟨ascending_dedupByKey hsorted, fun b => ?_⟩
  rw [finishBars, mem_dedupByKey_iff hsorted, ← hmem]
  constructor
  · exact fun h => List.mem_of_find?_eq_some h
  · intro hb
    rcases hfind : (sortByKey BarPoint.openTime (all.filter fun b => start ≤ b.openTime ∧
        b.openTime < stop)).find? fun x => x.openTime = b.openTime with _ | c
    · have := List.find?_eq_none.mp hfind b hb
      simp at this
    · -- one bar for each time, so the first one found is the bar itself
      have hc := (hmem c).mp (List.mem_of_find?_eq_some hfind)
      have hkey : c.openTime = b.openTime := by simpa using List.find?_some hfind
      by_contra hne
      have hcb : c ≠ b := by
        rintro rfl
        exact hne hfind
      have hgap := hspaced c (Finset.mem_filter.mp hc).1 b
        (Finset.mem_filter.mp ((hmem b).mp hb)).1 hcb
      rw [hkey] at hgap
      norm_num at hgap

/-- **Main theorem.** The venue is called at most 512 times, and where its bars are two
    milliseconds apart, it answers with blocks of the newest bars and 256 of them are enough,
    the bars of the range are returned, in order and each once. -/
theorem paginateKlines_complete (fetch : Fetch E) (start stop : ℤ) :
    (paginateKlines fetch start stop).2 ≤ 512 ∧
      ∀ bars : Finset BarPoint, Spaced bars → Serves bars fetch → Suffices bars fetch start stop →
        ∃ out, (paginateKlines fetch start stop).1 = .ok out ∧ Complete bars start stop out := by
  refine ⟨calls_le fetch start stop, fun bars hspaced hserves hsuffices => ?_⟩
  have hread : ReadFrom bars stop stop [] := by
    intro b
    constructor
    · exact fun h => absurd h List.not_mem_nil
    · rintro ⟨-, hge, hlt⟩
      omega
  obtain ⟨all, hall, hsub, hcovers⟩ :=
    @pageLoop_covers _ bars fetch start stop hspaced hserves 256
      { all := [], cursor := stop, calls := 0 } le_rfl hread (by
        rw [List.toFinset_nil, Finset.card_empty, Nat.zero_add]
        exact hsuffices)
  refine ⟨finishBars start stop all, ?_, complete_finishBars hspaced hsub hcovers⟩
  rw [paginateKlines, hall]
  rfl

end Walk

/-- A bar of a price that does not move. -/
def flatBar (openTime : ℤ) : BarPoint :=
  { openTime, open_ := 1, high := 1, low := 1, close := 1, volume := 0, quoteVolume := 0
    tradesCount := 0 }

/-- A venue with two bars, which serves one of them a page. -/
def twoBars : Fetch Unit := fun _ cursor =>
  .ok (if 60000 < cursor then [flatBar 60000] else if 0 < cursor then [flatBar 0] else [])

theorem serves_twoBars : Serves {flatBar 0, flatBar 60000} twoBars := by
  intro call cursor
  refine ⟨_, rfl, ?_⟩
  have h0 : (flatBar 0).openTime = 0 := rfl
  have h60 : (flatBar 60000).openTime = 60000 := rfl
  split_ifs with hlate hmiddle
  · refine ⟨?_, ?_, by simp⟩
    · simp [h60, hlate]
    · simp only [List.mem_singleton, forall_eq, Finset.mem_insert, Finset.mem_singleton]
      rintro c (rfl | rfl) hle -
      · omega
      · rfl
  · refine ⟨?_, ?_, by simp⟩
    · simp [h0, hmiddle]
    · simp only [List.mem_singleton, forall_eq, Finset.mem_insert, Finset.mem_singleton]
      rintro c (rfl | rfl) - hlt
      · rfl
      · omega
  · refine ⟨by simp, by simp, fun _ => ?_⟩
    simp only [Finset.mem_insert, Finset.mem_singleton]
    rintro c (rfl | rfl) <;> omega

/-- Both bars are read. -/
theorem paginateKlines_twoBars :
    ∃ out, (paginateKlines twoBars 0 120000).1 = .ok out ∧
      Complete {flatBar 0, flatBar 60000} 0 120000 out := by
  refine (paginateKlines_complete twoBars 0 120000).2 {flatBar 0, flatBar 60000} ?_
    serves_twoBars ?_
  · unfold Spaced
    decide
  · unfold Suffices
    decide +kernel

end Digdigdig3.BarAlign
