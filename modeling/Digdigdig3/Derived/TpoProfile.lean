import Mathlib.Algebra.BigOperators.Intervals
import Digdigdig3.Derived.Basic

/-!
# TPO profiles

`TpoSessionState` (`derived.rs` lines 1502–1687) collects the price range of every letter
bucket of a session, and `build_point` draws the profile: one row for each tick from the
session low up, a letter in a row for each bucket whose range holds the price of the row.
The infinities that stand for "no event yet" are `none` here; both extremes of a bucket (and
of the session) leave them at the same event. `f64` numbers are rationals.

Results:
* `expand_spec`: the greedy expansion of the value area ends, in an interval of rows around
  the point of control that holds the target or everything.
* `ProfileDrawn.of_extremes`: the point of control and the value area of every profile.
* `tpo_profile_iff`: all buckets with an event are drawn exactly when each of them has a row
  price inside its half-open range.
-/

namespace Digdigdig3.Derived

/-- `TpoSessionPoint` (`data/tpo_session.rs` lines 22–33); a row is a price with its
    letters. -/
structure TpoSessionPoint where
  openTime : ℤ
  tickSize : ℚ
  sessionHigh : ℚ
  sessionLow : ℚ
  pocPrice : ℚ
  vahPrice : ℚ
  valPrice : ℚ
  rows : List (ℚ × List Char)
  deriving DecidableEq

/-- `TpoSessionState` (lines 1502–1524). A bucket is `(high, low)` of its events; `extremes`
    is `(session_high, session_low)`. -/
structure TpoSessionState where
  freqMinutes : ℕ
  valueAreaPct : ℚ
  sessionDateMs : ℤ
  buckets : List (Option (ℚ × ℚ))
  samples : List ℚ
  tickSize : ℚ
  extremes : Option (ℚ × ℚ)
  history : List TpoSessionPoint
  maxHistorySessions : ℕ

namespace TpoSessionState

/-- `TpoSessionState::new` (lines 1527–1540). -/
def new (freqMinutes : ℕ) : TpoSessionState :=
  { freqMinutes := freqMinutes, valueAreaPct := 7 / 10, sessionDateMs := 0, buckets := []
    samples := [], tickSize := 0, extremes := none, history := [], maxHistorySessions := 10 }

/-- `freq_minutes` of `new_for_key` (lines 1718–1721 and 1755–1758). -/
def freqForKey (f : UInt16) : ℕ := if 0 < f then f.toNat else 30

/-- `day_start_ms` (lines 1542–1545); `i64` division truncates. -/
def dayStartMs (tsMs : ℤ) : ℤ := (tsMs.tdiv 86400000) * 86400000

/-- `bucket_idx` (lines 1547–1550). -/
def bucketIdx (s : TpoSessionState) (tsMs : ℤ) : ℕ :=
  ((tsMs - s.sessionDateMs).tdiv (s.freqMinutes * 60000)).toNat

/-! ## The profile -/

/-- The letters of the buckets. -/
def alphabet : List Char := "ABCDEFGHIJKLMNOPQRSTUVWXYZabcdefghijklmnopqrstuvwxyz".toList

/-- `alphabet[bi % 52]`. -/
def letterOf (bi : ℕ) : Char := alphabet.getD (bi % 52) 'A'

/-- The tick of the rows (lines 1612–1616). -/
def rowTick (s : TpoSessionState) (high low : ℚ) : ℚ :=
  if 0 < s.tickSize then s.tickSize else max ((high - low) / 200) (1 / 100)

/-- `n_rows` (line 1619). -/
def nRows (tick high low : ℚ) : ℕ := max (⌈(high - low) / tick⌉.toNat + 1) 1

/-- The letter that bucket `bi` pushes to the row at `price` (lines 1624–1632). -/
def letterAt (price : ℚ) : Option (ℚ × ℚ) × ℕ → Option Char
  | (none, _) => none
  | (some (bhigh, blow), bi) => if blow ≤ price ∧ price < bhigh then some (letterOf bi) else none

/-- The rows (lines 1620–1632), each filled from all buckets in order. -/
def gridRows (s : TpoSessionState) (high low : ℚ) : List (ℚ × List Char) :=
  let tick := s.rowTick high low
  (List.range (nRows tick high low)).map fun (i : ℕ) =>
    let price := low + i * tick
    (price, s.buckets.zipIdx.filterMap (letterAt price))

/-- `Iterator::min_by` on the distance to `mid`: the first of the nearest rows. -/
def nearest (mid : ℚ) : List (ℚ × List Char) → Option (ℚ × List Char)
  | [] => none
  | row :: rows =>
    some (rows.foldl (fun best r => if |r.1 - mid| < |best.1 - mid| then r else best) row)

/-- The largest number of letters in a row (line 1635). -/
def maxCount (rows : List (ℚ × List Char)) : ℕ := (rows.map (·.2.length)).foldl max 0

/-- `poc_price` (lines 1637–1644). -/
def pocPrice (rows : List (ℚ × List Char)) (mid : ℚ) : ℚ :=
  ((nearest mid (rows.filter (·.2.length = maxCount rows))).map (·.1)).getD mid

/-- `poc_idx` (lines 1649–1650). -/
def pocIdx (rows : List (ℚ × List Char)) (poc tick : ℚ) : ℕ :=
  (rows.findIdx? fun row => |row.1 - poc| < tick / 2).getD (rows.length / 2)

/-- The letters of row `i`. -/
def rowCount (rows : List (ℚ × List Char)) (i : ℕ) : ℕ := (rows[i]?.map (·.2.length)).getD 0

/-- All letters of the rows. -/
def lettersOf (rows : List (ℚ × List Char)) : ℕ := (rows.map (·.2.length)).sum

/-- The value area while it grows: `va_lo_idx`, `va_hi_idx` and `acc`. -/
structure ValueArea where
  lo : ℕ
  hi : ℕ
  acc : ℕ
  deriving DecidableEq

/-- One round of the expansion loop (lines 1654–1669), `none` when the loop is left. -/
def expandStep (rows : List (ℚ × List Char)) (target : ℕ) (va : ValueArea) : Option ValueArea :=
  if va.acc < target ∧ (0 < va.lo ∨ va.hi + 1 < rows.length) then
    let aboveN := if va.hi + 1 < rows.length then rowCount rows (va.hi + 1) else 0
    let belowN := if 0 < va.lo then rowCount rows (va.lo - 1) else 0
    if belowN ≤ aboveN ∧ va.hi + 1 < rows.length then
      some { va with hi := va.hi + 1, acc := va.acc + aboveN }
    else if 0 < va.lo then some { va with lo := va.lo - 1, acc := va.acc + belowN }
    else if va.hi + 1 < rows.length then some { va with hi := va.hi + 1, acc := va.acc + aboveN }
    else none
  else none

/-- The expansion loop with at most `fuel` tests; `none` when they are used up. -/
def expand (rows : List (ℚ × List Char)) (target : ℕ) : ℕ → ValueArea → Option ValueArea
  | 0, _ => none
  | fuel + 1, va =>
    match expandStep rows target va with
    | none => some va
    | some va => expand rows target fuel va

/-- The profile of a session with the given extremes; `none` would be a loop that does not
    end (lines 1610–1686). -/
def profile (s : TpoSessionState) (high low : ℚ) : Option TpoSessionPoint :=
  let tick := s.rowTick high low
  let rows := s.gridRows high low
  let poc := pocPrice rows ((high + low) * (1 / 2))
  let target := ⌈(lettersOf rows : ℚ) * s.valueAreaPct⌉.toNat
  let idx := pocIdx rows poc tick
  (expand rows target (rows.length + 1) ⟨idx, idx, rowCount rows idx⟩).map fun va =>
    { openTime := s.sessionDateMs, tickSize := tick, sessionHigh := high, sessionLow := low
      pocPrice := poc
      vahPrice := (rows[va.hi]?.map (·.1)).getD 0
      valPrice := (rows[va.lo]?.map (·.1)).getD 0
      rows := rows.filter fun row => !row.2.isEmpty }

/-- `build_point` (lines 1610–1686) of a session that has seen an event. -/
def buildPoint (s : TpoSessionState) : Option TpoSessionPoint :=
  s.extremes.bind fun (high, low) => s.profile high low

/-! ## Feeding -/

/-- A range widened by an event. -/
def widen (range : Option (ℚ × ℚ)) (high low : ℚ) : Option (ℚ × ℚ) :=
  match range with
  | none => some (high, low)
  | some (h, l) => some (if h < high then high else h, if low < l then low else l)

/-- `maybe_roll_session` (lines 1552–1575). -/
def maybeRollSession (s : TpoSessionState) (tsMs : ℤ) : TpoSessionState :=
  let barDay := dayStartMs tsMs
  if barDay = s.sessionDateMs then s
  else
    let history :=
      if s.buckets.any (·.isSome) ∧ s.sessionDateMs ≠ 0 then
        match s.buildPoint with
        | some closed =>
          let history := s.history ++ [closed]
          if s.maxHistorySessions < history.length then history.tail else history
        | none => s.history
      else s.history
    { s with sessionDateMs := barDay, buckets := [], samples := [], tickSize := 0
             extremes := none, history := history }

/-- `detect_tick_size` (lines 1596–1608). -/
def detectTickSize (s : TpoSessionState) : ℚ :=
  if s.samples.length < 2 then 0
  else
    let steps := (List.zipWith (fun a b => |b - a|) s.samples s.samples.tail).filter (0 < ·)
    match steps.min?, s.extremes with
    | some step, _ => step
    | none, some (high, low) => max ((high - low) / 200) (1 / 100)
    | none, none => 0

/-- The buckets padded up to `bi`, with bucket `bi` widened (lines 1587–1593). -/
def fillBucket (buckets : List (Option (ℚ × ℚ))) (bi : ℕ) (high low : ℚ) :
    List (Option (ℚ × ℚ)) :=
  (buckets ++ List.replicate (bi + 1 - buckets.length) none).modify bi (widen · high low)

/-- `extend_bucket` (lines 1580–1594). -/
def extendBucket (s : TpoSessionState) (tsMs : ℤ) (high low priceSample : ℚ) : TpoSessionState :=
  let s := s.maybeRollSession tsMs
  let s := { s with extremes := widen s.extremes high low, samples := s.samples ++ [priceSample] }
  let s := { s with
    tickSize := if s.tickSize = 0 ∧ 10 ≤ s.samples.length then s.detectTickSize else s.tickSize }
  { s with buckets := fillBucket s.buckets (s.bucketIdx tsMs) high low }

/-- The states of a stream with the parameter `f` after at least one event. -/
inductive Reachable (f : UInt16) : TpoSessionState → Prop
  | first (tsMs : ℤ) (high low priceSample : ℚ) :
      Reachable f ((new (freqForKey f)).extendBucket tsMs high low priceSample)
  | fed {s : TpoSessionState} (h : Reachable f s) (tsMs : ℤ) (high low priceSample : ℚ) :
      Reachable f (s.extendBucket tsMs high low priceSample)

/-! ## The expansion loop -/

section Expand

variable {rows : List (ℚ × List Char)} {target poc : ℕ} {va va' : ValueArea}

/-- The value area is an interval of rows around the point of control. -/
structure Around (rows : List (ℚ × List Char)) (poc : ℕ) (va : ValueArea) : Prop where
  lo_le : va.lo ≤ poc
  le_hi : poc ≤ va.hi
  hi_lt : va.hi < rows.length
  acc_eq : va.acc = ∑ i ∈ Finset.Icc va.lo va.hi, rowCount rows i

theorem Around.raise (h : Around rows poc va) (hlt : va.hi + 1 < rows.length) :
    Around rows poc { va with hi := va.hi + 1, acc := va.acc + rowCount rows (va.hi + 1) } where
  lo_le := h.lo_le
  le_hi := h.le_hi.trans (Nat.le_succ _)
  hi_lt := hlt
  acc_eq := by
    have hle : va.lo ≤ va.hi + 1 := (h.lo_le.trans h.le_hi).trans (Nat.le_succ _)
    rw [Finset.sum_Icc_succ_top hle, h.acc_eq]

theorem Around.lower (h : Around rows poc va) (hpos : 0 < va.lo) :
    Around rows poc { va with lo := va.lo - 1, acc := va.acc + rowCount rows (va.lo - 1) } where
  lo_le := (Nat.sub_le _ _).trans h.lo_le
  le_hi := h.le_hi
  hi_lt := h.hi_lt
  acc_eq := by
    have hle : va.lo ≤ va.hi := h.lo_le.trans h.le_hi
    obtain ⟨lo, hlo⟩ : ∃ lo, va.lo = lo + 1 := ⟨va.lo - 1, by omega⟩
    have hinsert : Finset.Icc lo va.hi = insert lo (Finset.Icc (lo + 1) va.hi) := by
      ext i
      simp only [Finset.mem_Icc, Finset.mem_insert]
      omega
    simp only [hlo, Nat.add_sub_cancel, hinsert]
    rw [Finset.sum_insert (by simp), h.acc_eq, hlo, add_comm]

/-- A round raises the upper end or lowers the lower one. -/
theorem expandStep_cases (h : expandStep rows target va = some va') :
    (va.hi + 1 < rows.length ∧
        va' = { va with hi := va.hi + 1, acc := va.acc + rowCount rows (va.hi + 1) }) ∨
      (0 < va.lo ∧
        va' = { va with lo := va.lo - 1, acc := va.acc + rowCount rows (va.lo - 1) }) := by
  unfold expandStep at h
  by_cases hloop : va.acc < target ∧ (0 < va.lo ∨ va.hi + 1 < rows.length)
  · rw [if_pos hloop] at h
    by_cases hhi : va.hi + 1 < rows.length
    · by_cases hlo : 0 < va.lo
      · simp only [hhi, hlo, if_true, and_true] at h
        split_ifs at h
        · exact .inl ⟨hhi, (Option.some.inj h).symm⟩
        · exact .inr ⟨hlo, (Option.some.inj h).symm⟩
      · simp only [hhi, hlo, if_true, if_false, and_true, ite_self] at h
        exact .inl ⟨hhi, (Option.some.inj h).symm⟩
    · have hlo : 0 < va.lo := hloop.2.resolve_right hhi
      simp only [hhi, hlo, if_true, if_false, and_false] at h
      exact .inr ⟨hlo, (Option.some.inj h).symm⟩
  · rw [if_neg hloop] at h
    cases h

/-- **Step lemma.** A round adds one row at one of the two ends. -/
theorem Around.expandStep (h : Around rows poc va) (hstep : expandStep rows target va = some va') :
    Around rows poc va' ∧ va'.hi - va'.lo = va.hi - va.lo + 1 := by
  have hle : va.lo ≤ va.hi := h.lo_le.trans h.le_hi
  rcases expandStep_cases hstep with ⟨hhi, rfl⟩ | ⟨hlo, rfl⟩
  · exact ⟨h.raise hhi, by simp only; omega⟩
  · exact ⟨h.lower hlo, by simp only; omega⟩

/-- The loop is left with the target reached or no row left. -/
theorem expandStep_eq_none (h : expandStep rows target va = none) :
    target ≤ va.acc ∨ va.lo = 0 ∧ rows.length ≤ va.hi + 1 := by
  by_contra hmore
  have hloop : va.acc < target ∧ (0 < va.lo ∨ va.hi + 1 < rows.length) := by omega
  unfold expandStep at h
  rw [if_pos hloop] at h
  by_cases hhi : va.hi + 1 < rows.length
  · simp only [hhi, and_true, if_true] at h
    split_ifs at h
  · have hlo : 0 < va.lo := hloop.2.resolve_right hhi
    simp [hhi, hlo] at h

/-- **Run lemma.** The expansion ends, with an interval around the point of control that cannot
    be expanded. -/
theorem expand_spec (target : ℕ) (h : Around rows poc va) {fuel : ℕ}
    (hfuel : rows.length < fuel + (va.hi - va.lo)) :
    ∃ final, expand rows target fuel va = some final ∧ Around rows poc final ∧
      (target ≤ final.acc ∨ final.lo = 0 ∧ rows.length ≤ final.hi + 1) := by
  induction fuel generalizing va with
  | zero =>
    have := h.hi_lt
    omega
  | succ fuel ih =>
    rw [expand]
    rcases hstep : expandStep rows target va with _ | va'
    · exact ⟨va, rfl, h, expandStep_eq_none hstep⟩
    · obtain ⟨hnext, hwidth⟩ := h.expandStep hstep
      exact ih hnext (by omega)

end Expand

/-! ## Rows -/

section Rows

variable {rows : List (ℚ × List Char)} {mid tick high low price : ℚ} {s : TpoSessionState}

theorem rowTick_pos (s : TpoSessionState) (high low : ℚ) : 0 < s.rowTick high low := by
  rw [rowTick]
  split_ifs with h
  · exact h
  · exact lt_max_of_lt_right (by norm_num)

theorem length_gridRows (s : TpoSessionState) (high low : ℚ) :
    (s.gridRows high low).length = nRows (s.rowTick high low) high low := by
  simp [gridRows]

theorem getElem?_gridRows {i : ℕ} (hi : i < (s.gridRows high low).length) :
    (s.gridRows high low)[i]? = some (low + i * s.rowTick high low,
      s.buckets.zipIdx.filterMap (letterAt (low + i * s.rowTick high low))) := by
  rw [length_gridRows] at hi
  simp [gridRows, hi]

theorem nearest_mem {row : ℚ × List Char} (h : nearest mid rows = some row) : row ∈ rows := by
  cases rows with
  | nil => cases h
  | cons first rows =>
    obtain rfl := Option.some.inj h
    clear h
    induction rows generalizing first with
    | nil => exact List.mem_singleton_self _
    | cons r rows ih =>
      rw [List.foldl_cons]
      rcases List.mem_cons.mp (ih (if |r.1 - mid| < |first.1 - mid| then r else first)) with h | h
      · rw [h]
        split_ifs <;> simp
      · exact List.mem_cons_of_mem _ (List.mem_cons_of_mem _ h)

theorem le_foldl_max (counts : List ℕ) (start : ℕ) :
    start ≤ counts.foldl max start ∧ ∀ n ∈ counts, n ≤ counts.foldl max start := by
  induction counts generalizing start with
  | nil => exact ⟨le_rfl, nofun⟩
  | cons n counts ih =>
    obtain ⟨hstart, hall⟩ := ih (max start n)
    rw [List.foldl_cons, List.forall_mem_cons]
    exact ⟨(le_max_left _ _).trans hstart, (le_max_right _ _).trans hstart, hall⟩

theorem foldl_max_mem (counts : List ℕ) (start : ℕ) :
    counts.foldl max start = start ∨ counts.foldl max start ∈ counts := by
  induction counts generalizing start with
  | nil => exact .inl rfl
  | cons n counts ih =>
    rw [List.foldl_cons]
    rcases ih (max start n) with h | h
    · rw [h]
      rcases max_choice start n with h | h <;> rw [h] <;> simp
    · exact .inr (List.mem_cons_of_mem _ h)

/-- The point of control is the price of a row with the most letters. -/
theorem pocPrice_spec (hne : rows ≠ []) (mid : ℚ) :
    ∃ row ∈ rows, row.1 = pocPrice rows mid ∧ ∀ r ∈ rows, r.2.length ≤ row.2.length := by
  have hmax := (le_foldl_max (rows.map (·.2.length)) 0).2
  -- some row has the largest count, so the filter leaves one
  have hsome : rows.filter (·.2.length = maxCount rows) ≠ [] := by
    rcases foldl_max_mem (rows.map (·.2.length)) 0 with hzero | hmem
    · obtain ⟨first, rest, rfl⟩ := List.exists_cons_of_ne_nil hne
      refine List.ne_nil_of_mem (a := first) (List.mem_filter.mpr ⟨by simp, ?_⟩)
      have := hmax first.2.length (by simp)
      rw [hzero] at this
      rw [decide_eq_true_iff, maxCount, hzero]
      omega
    · obtain ⟨row, hrow, heq⟩ := List.mem_map.mp hmem
      exact List.ne_nil_of_mem (a := row) (List.mem_filter.mpr ⟨hrow, by simp [heq, maxCount]⟩)
  obtain ⟨first, rest, hfilter⟩ := List.exists_cons_of_ne_nil hsome
  rw [pocPrice, hfilter]
  rcases hnear : nearest mid (first :: rest) with _ | row
  · cases hnear
  · have hrow := nearest_mem hnear
    rw [← hfilter, List.mem_filter, decide_eq_true_iff] at hrow
    refine ⟨row, hrow.1, rfl, fun r hr => ?_⟩
    rw [hrow.2]
    exact hmax _ (List.mem_map_of_mem hr)

/-- `poc_idx` finds the row of the point of control: rows are a tick apart. -/
theorem pocIdx_spec {i : ℕ} (hi : i < (s.gridRows high low).length) :
    pocIdx (s.gridRows high low) (low + i * s.rowTick high low) (s.rowTick high low) = i := by
  have htick := rowTick_pos s high low
  have hprice : ∀ j, (hj : j < (s.gridRows high low).length) →
      (s.gridRows high low)[j].1 = low + j * s.rowTick high low := by
    intro j hj
    have := getElem?_gridRows hj
    rw [List.getElem?_eq_getElem hj] at this
    rw [Option.some.inj this]
  have hfind : (s.gridRows high low).findIdx?
      (fun row => |row.1 - (low + i * s.rowTick high low)| < s.rowTick high low / 2) = some i := by
    rw [List.findIdx?_eq_some_iff_getElem]
    refine ⟨hi, ?_, fun j hj => ?_⟩
    · rw [hprice i hi, sub_self, abs_zero, decide_eq_true_iff]
      linarith
    · rw [hprice j (hj.trans hi), decide_eq_true_iff, not_lt]
      have hone : ((j : ℚ) + 1) ≤ i := by exact_mod_cast hj
      have hmul : ((j : ℚ) + 1) * s.rowTick high low ≤ i * s.rowTick high low :=
        mul_le_mul_of_nonneg_right hone htick.le
      rw [le_abs]
      exact .inr (by linarith)
  rw [pocIdx, hfind, Option.getD_some]

theorem sum_map_eq_sum_range (f : ℚ × List Char → ℕ) (rows : List (ℚ × List Char)) :
    (rows.map f).sum = ∑ i ∈ Finset.range rows.length, (rows[i]?.map f).getD 0 := by
  induction rows with
  | nil => rfl
  | cons row rows ih =>
    rw [List.map_cons, List.sum_cons, List.length_cons, Finset.sum_range_succ', ih, add_comm]
    simp

theorem sum_map_filter (f : ℚ × List Char → ℕ) (p : ℚ × List Char → Bool)
    (rows : List (ℚ × List Char)) :
    ((rows.filter p).map f).sum = (rows.map fun row => if p row then f row else 0).sum := by
  induction rows with
  | nil => rfl
  | cons row rows ih =>
    rw [List.filter_cons]
    by_cases h : p row = true <;> simp [h, ih]

/-- The rows of a profile hold all letters. -/
theorem lettersOf_filter_nonempty (rows : List (ℚ × List Char)) :
    lettersOf (rows.filter fun row => !row.2.isEmpty) = lettersOf rows := by
  rw [lettersOf, sum_map_filter, lettersOf]
  congr 1
  refine List.map_congr_left fun row _ => ?_
  rcases hrow : row.2 with _ | ⟨c, cs⟩ <;> simp

/-- The rows `lo` to `hi` are among those with prices from that of `lo` to that of `hi`. -/
theorem sum_le_lettersOf {va : ValueArea} (low : ℚ) (hhi : va.hi < (s.gridRows high low).length) :
    ∑ i ∈ Finset.Icc va.lo va.hi, rowCount (s.gridRows high low) i ≤
      lettersOf ((s.gridRows high low).filter fun row =>
        low + va.lo * s.rowTick high low ≤ row.1 ∧ row.1 ≤ low + va.hi * s.rowTick high low) := by
  have htick := rowTick_pos s high low
  rw [lettersOf, sum_map_filter, sum_map_eq_sum_range]
  calc ∑ i ∈ Finset.Icc va.lo va.hi, rowCount (s.gridRows high low) i
    _ ≤ ∑ i ∈ Finset.Icc va.lo va.hi, ((s.gridRows high low)[i]?.map fun row =>
          if (decide (low + va.lo * s.rowTick high low ≤ row.1 ∧
            row.1 ≤ low + va.hi * s.rowTick high low)) then row.2.length else 0).getD 0 := by
        refine Finset.sum_le_sum fun i hi => ?_
        obtain ⟨hlo, hle⟩ := Finset.mem_Icc.mp hi
        have hlo' : (va.lo : ℚ) * s.rowTick high low ≤ i * s.rowTick high low :=
          mul_le_mul_of_nonneg_right (by exact_mod_cast hlo) htick.le
        have hle' : (i : ℚ) * s.rowTick high low ≤ va.hi * s.rowTick high low :=
          mul_le_mul_of_nonneg_right (by exact_mod_cast hle) htick.le
        rw [rowCount, getElem?_gridRows (hle.trans_lt hhi)]
        simp [hlo', hle']
    _ ≤ _ := by
        refine Finset.sum_le_sum_of_subset fun i hi => ?_
        rw [Finset.mem_range]
        exact (Finset.mem_Icc.mp hi).2.trans_lt hhi

end Rows

/-! ## Profiles -/

/-- What the profile `p` of a session with the given extremes satisfies. -/
structure ProfileDrawn (s : TpoSessionState) (high low : ℚ) (p : TpoSessionPoint) : Prop where
  poc_max : ∃ row ∈ s.gridRows high low, row.1 = p.pocPrice ∧
    ∀ r ∈ s.gridRows high low, r.2.length ≤ row.2.length
  ordered : p.valPrice ≤ p.pocPrice ∧ p.pocPrice ≤ p.vahPrice
  valueArea : ⌈(7 / 10 : ℚ) * lettersOf p.rows⌉ ≤
    (lettersOf (p.rows.filter fun row => p.valPrice ≤ row.1 ∧ row.1 ≤ p.vahPrice) : ℤ)
  rows_eq : p.rows = (s.gridRows high low).filter fun row => !row.2.isEmpty

/-- Bucket `bi` has pushed its letter to a row of the profile. -/
def Contributes (s : TpoSessionState) (p : TpoSessionPoint) (bi : ℕ) : Prop :=
  ∃ row ∈ p.rows, ∃ bucket, s.buckets[bi]? = some bucket ∧
    letterAt row.1 (bucket, bi) = some (letterOf bi) ∧ letterOf bi ∈ row.2

/-- The first row price at or above the low of the range is below its high. -/
def CatchesRow (s : TpoSessionState) (high low : ℚ) (bhigh blow : ℚ) : Prop :=
  low + ⌈(blow - low) / s.rowTick high low⌉ * s.rowTick high low < bhigh

section Profile

variable {s : TpoSessionState} {high low bhigh blow : ℚ} {p : TpoSessionPoint} {bi : ℕ} {f : UInt16}

/-- Every profile is drawn, and has its point of control and its value area. -/
theorem profile_spec (hpct : s.valueAreaPct = 7 / 10) (high low : ℚ) :
    ∃ p, s.profile high low = some p ∧ ProfileDrawn s high low p := by
  have htick := rowTick_pos s high low
  have hlen : 0 < (s.gridRows high low).length := by
    rw [length_gridRows]
    exact lt_max_of_lt_right Nat.one_pos
  obtain ⟨row, hrow, hpoc, hmax⟩ := pocPrice_spec (List.length_pos_iff.mp hlen)
    ((high + low) * (1 / 2))
  obtain ⟨i, hi, hget⟩ := List.getElem_of_mem hrow
  have hget' := getElem?_gridRows hi
  rw [List.getElem?_eq_getElem hi, hget] at hget'
  have hprice : pocPrice (s.gridRows high low) ((high + low) * (1 / 2)) =
      low + i * s.rowTick high low := by
    rw [← hpoc, Option.some.inj hget']
  have hstart : Around (s.gridRows high low) i ⟨i, i, rowCount (s.gridRows high low) i⟩ :=
    ⟨le_rfl, le_rfl, hi, by simp⟩
  have hfuel : (s.gridRows high low).length < (s.gridRows high low).length + 1 + (i - i) := by
    omega
  obtain ⟨va, hva, haround, hexit⟩ := expand_spec
    ⌈(lettersOf (s.gridRows high low) : ℚ) * s.valueAreaPct⌉.toNat hstart hfuel
  refine ⟨_, by rw [profile, hprice, pocIdx_spec hi, hva, Option.map_some], ?_, ?_, ?_, rfl⟩
  · exact ⟨row, hrow, by rw [hpoc, hprice], hmax⟩
  · have hlo : (va.lo : ℚ) * s.rowTick high low ≤ i * s.rowTick high low :=
      mul_le_mul_of_nonneg_right (by exact_mod_cast haround.lo_le) htick.le
    have hhi : (i : ℚ) * s.rowTick high low ≤ va.hi * s.rowTick high low :=
      mul_le_mul_of_nonneg_right (by exact_mod_cast haround.le_hi) htick.le
    have hlolen : va.lo < (s.gridRows high low).length :=
      (haround.lo_le.trans haround.le_hi).trans_lt haround.hi_lt
    rw [getElem?_gridRows haround.hi_lt, getElem?_gridRows hlolen]
    simp only [Option.map_some, Option.getD_some]
    exact ⟨by linarith, by linarith⟩
  · have hlolen : va.lo < (s.gridRows high low).length :=
      (haround.lo_le.trans haround.le_hi).trans_lt haround.hi_lt
    rw [getElem?_gridRows haround.hi_lt, getElem?_gridRows hlolen]
    simp only [Option.map_some, Option.getD_some]
    rw [List.filter_comm, lettersOf_filter_nonempty, lettersOf_filter_nonempty]
    have hsum := sum_le_lettersOf low haround.hi_lt
    rw [← haround.acc_eq] at hsum
    -- the loop ends with the target reached, or with every row inside
    have htarget : ⌈(7 / 10 : ℚ) * lettersOf (s.gridRows high low)⌉ ≤ (va.acc : ℤ) := by
      rcases hexit with htarget | ⟨hlo, hhi⟩
      · rw [hpct, mul_comm, Int.toNat_le] at htarget
        exact htarget
      · have hall : lettersOf (s.gridRows high low) = va.acc := by
          have hIcc : Finset.Icc va.lo va.hi = Finset.range (s.gridRows high low).length := by
            have := haround.hi_lt
            ext j
            simp only [Finset.mem_Icc, Finset.mem_range]
            omega
          rw [lettersOf, sum_map_eq_sum_range, haround.acc_eq, hIcc]
          rfl
        rw [Int.ceil_le, hall]
        push_cast
        have : (0 : ℚ) ≤ va.acc := Nat.cast_nonneg _
        linarith
    exact htarget.trans (by exact_mod_cast hsum)

/-- A bucket inside the session range is drawn exactly when it catches a row price. -/
theorem contributes_iff (hp : ProfileDrawn s high low p)
    (hbi : s.buckets[bi]? = some (some (bhigh, blow))) (hhigh : bhigh ≤ high) (hlow : low ≤ blow) :
    Contributes s p bi ↔ CatchesRow s high low bhigh blow := by
  have htick := rowTick_pos s high low
  constructor
  · rintro ⟨row, hrow, bucket, hbucket, hletter, -⟩
    rw [hp.rows_eq] at hrow
    obtain ⟨i, hi, hget⟩ := List.getElem_of_mem (List.mem_filter.mp hrow).1
    have hget' := getElem?_gridRows hi
    rw [List.getElem?_eq_getElem hi, hget] at hget'
    obtain rfl := Option.some.inj (hbi.symm.trans hbucket)
    rw [Option.some.inj hget', letterAt] at hletter
    split_ifs at hletter with hin
    obtain ⟨hle, hlt⟩ := hin
    refine lt_of_le_of_lt ?_ hlt
    have hceil : ⌈(blow - low) / s.rowTick high low⌉ ≤ (i : ℤ) := by
      rw [Int.ceil_le, div_le_iff₀ htick]
      push_cast
      linarith
    have hceil' : ((⌈(blow - low) / s.rowTick high low⌉ : ℤ) : ℚ) ≤ i := by exact_mod_cast hceil
    have := mul_le_mul_of_nonneg_right hceil' htick.le
    linarith
  · intro hcatch
    have hnonneg : 0 ≤ ⌈(blow - low) / s.rowTick high low⌉ :=
      Int.ceil_nonneg (div_nonneg (sub_nonneg.mpr hlow) htick.le)
    obtain ⟨i, hi⟩ := Int.eq_ofNat_of_zero_le hnonneg
    rw [CatchesRow, hi] at hcatch
    simp only [Int.cast_natCast] at hcatch
    have hle : blow ≤ low + i * s.rowTick high low := by
      have := (div_le_iff₀ htick).mp (Int.le_ceil ((blow - low) / s.rowTick high low))
      rw [hi] at this
      push_cast at this
      linarith
    -- the row lies below the session high, so it is one of the rows
    have hlen : i < (s.gridRows high low).length := by
      rw [length_gridRows, nRows]
      refine lt_max_of_lt_left ?_
      have hlt : (i : ℚ) < (high - low) / s.rowTick high low := by
        rw [lt_div_iff₀ htick]
        linarith
      have hceil : (i : ℤ) < ⌈(high - low) / s.rowTick high low⌉ := by
        rw [Int.lt_ceil]
        exact_mod_cast hlt
      omega
    have hletter : letterAt (low + i * s.rowTick high low) (some (bhigh, blow), bi) =
        some (letterOf bi) := if_pos ⟨hle, hcatch⟩
    have hmem : letterOf bi ∈ s.buckets.zipIdx.filterMap
        (letterAt (low + i * s.rowTick high low)) := by
      refine List.mem_filterMap.mpr ⟨(some (bhigh, blow), bi), ?_, hletter⟩
      rw [List.mem_zipIdx_iff_getElem?]
      exact hbi
    refine ⟨(low + i * s.rowTick high low, s.buckets.zipIdx.filterMap
      (letterAt (low + i * s.rowTick high low))), ?_, some (bhigh, blow), hbi, hletter, hmem⟩
    rw [hp.rows_eq, List.mem_filter]
    refine ⟨List.mem_of_getElem? (getElem?_gridRows hlen), ?_⟩
    rw [Bool.not_eq_true', List.isEmpty_eq_false_iff]
    exact List.ne_nil_of_mem hmem

/-- The buckets of a session lie inside its extremes, and one of them has an event. -/
structure Extended (s : TpoSessionState) (high low : ℚ) : Prop where
  extremes : s.extremes = some (high, low)
  inside : ∀ bhigh blow, some (bhigh, blow) ∈ s.buckets → bhigh ≤ high ∧ low ≤ blow
  nonempty : ∃ (bi : ℕ) (range : ℚ × ℚ), s.buckets[bi]? = some (some range)
  pct : s.valueAreaPct = 7 / 10

theorem widen_spec (range : Option (ℚ × ℚ)) (high low : ℚ) :
    ∃ h l, widen range high low = some (h, l) ∧ high ≤ h ∧ l ≤ low ∧
      ∀ h' l', range = some (h', l') → h' ≤ h ∧ l ≤ l' := by
  rcases range with _ | ⟨h', l'⟩
  · exact ⟨high, low, rfl, le_rfl, le_rfl, nofun⟩
  · refine ⟨_, _, rfl, ?_, ?_, ?_⟩
    · split_ifs <;> order
    · split_ifs <;> order
    · rintro _ _ heq
      obtain ⟨rfl, rfl⟩ := Prod.mk.inj (Option.some.inj heq)
      constructor <;> split_ifs <;> order

theorem widen_le {range : Option (ℚ × ℚ)} {high low h l bh bl : ℚ}
    (hwiden : widen range high low = some (h, l)) (hhigh : high ≤ bh) (hlow : bl ≤ low)
    (hrange : ∀ h' l', range = some (h', l') → h' ≤ bh ∧ bl ≤ l') : h ≤ bh ∧ bl ≤ l := by
  rcases range with _ | ⟨h', l'⟩
  · obtain ⟨rfl, rfl⟩ := Prod.mk.inj (Option.some.inj hwiden)
    exact ⟨hhigh, hlow⟩
  · obtain ⟨hle, hge⟩ := hrange h' l' rfl
    obtain ⟨rfl, rfl⟩ := Prod.mk.inj (Option.some.inj hwiden)
    constructor <;> split_ifs <;> assumption

end Profile

/-! ## Reachable sessions -/

/-- Every bucket lies inside the session extremes, which are there once a bucket is. -/
structure Inside (s : TpoSessionState) : Prop where
  inside : ∀ bhigh blow, some (bhigh, blow) ∈ s.buckets →
    ∃ high low, s.extremes = some (high, low) ∧ bhigh ≤ high ∧ low ≤ blow
  pct : s.valueAreaPct = 7 / 10

section Sessions

variable {s : TpoSessionState} {f : UInt16} {high low : ℚ}

theorem Extended.toInside (h : Extended s high low) : Inside s where
  inside bhigh blow hmem := ⟨high, low, h.extremes, h.inside bhigh blow hmem⟩
  pct := h.pct

theorem Inside.maybeRollSession (h : Inside s) (tsMs : ℤ) : Inside (s.maybeRollSession tsMs) := by
  unfold TpoSessionState.maybeRollSession
  by_cases hday : dayStartMs tsMs = s.sessionDateMs
  · rw [if_pos hday]
    exact h
  · rw [if_neg hday]
    exact ⟨nofun, h.pct⟩

/-- The ranges of the filled buckets lie where the old ones and the event do. -/
theorem mem_fillBucket {buckets : List (Option (ℚ × ℚ))} {bi : ℕ} {high low hi lo bhigh blow : ℚ}
    (hmem : some (bhigh, blow) ∈ fillBucket buckets bi high low) (hhigh : high ≤ hi)
    (hlow : lo ≤ low) (hold : ∀ h l, some (h, l) ∈ buckets → h ≤ hi ∧ lo ≤ l) :
    bhigh ≤ hi ∧ lo ≤ blow := by
  obtain ⟨j, hj⟩ := List.getElem?_of_mem hmem
  rw [fillBucket, List.getElem?_modify] at hj
  obtain ⟨b, hb, heq⟩ := Option.map_eq_some_iff.mp hj
  have hb' : ∀ h l, b = some (h, l) → h ≤ hi ∧ lo ≤ l := by
    rintro h l rfl
    rcases List.mem_append.mp (List.mem_of_getElem? hb) with hmem | hmem
    · exact hold h l hmem
    · cases List.eq_of_mem_replicate hmem
  split_ifs at heq
  · exact widen_le heq hhigh hlow hb'
  · exact hb' bhigh blow heq

/-- The widened bucket has an event. -/
theorem exists_fillBucket (buckets : List (Option (ℚ × ℚ))) (bi : ℕ) (high low : ℚ) :
    ∃ (i : ℕ) (range : ℚ × ℚ), (fillBucket buckets bi high low)[i]? = some (some range) := by
  have hlen : bi < (buckets ++ List.replicate (bi + 1 - buckets.length) none).length := by
    simp only [List.length_append, List.length_replicate]
    omega
  obtain ⟨h, l, hwiden, -⟩ := widen_spec
    ((buckets ++ List.replicate (bi + 1 - buckets.length) none)[bi]) high low
  refine ⟨bi, (h, l), ?_⟩
  rw [fillBucket, List.getElem?_modify_eq, List.getElem?_eq_getElem hlen]
  exact congrArg some hwiden

/-- **Step lemma.** An event keeps the buckets inside the extremes and fills one of them. -/
theorem Inside.extendBucket (h : Inside s) (tsMs : ℤ) (high low priceSample : ℚ) :
    ∃ hi lo, Extended (s.extendBucket tsMs high low priceSample) hi lo := by
  have hroll := h.maybeRollSession tsMs
  rw [TpoSessionState.extendBucket]
  revert hroll
  generalize s.maybeRollSession tsMs = s
  intro h
  obtain ⟨hi, lo, hwiden, hhigh, hlow, hrange⟩ := widen_spec s.extremes high low
  have hold : ∀ bhigh blow, some (bhigh, blow) ∈ s.buckets → bhigh ≤ hi ∧ lo ≤ blow := by
    intro bhigh blow hmem
    obtain ⟨h', l', hext, hle, hge⟩ := h.inside bhigh blow hmem
    obtain ⟨hle', hge'⟩ := hrange h' l' hext
    exact ⟨hle.trans hle', hge'.trans hge⟩
  refine ⟨hi, lo, hwiden, fun bhigh blow hmem => ?_, exists_fillBucket _ _ high low, h.pct⟩
  exact mem_fillBucket hmem hhigh hlow hold

/-- **Run lemma.** -/
theorem Reachable.extended (h : Reachable f s) : ∃ high low, Extended s high low := by
  induction h with
  | first tsMs high low priceSample =>
    have hnew : Inside (new (freqForKey f)) :=
      ⟨fun bhigh blow hmem => absurd hmem (List.not_mem_nil), rfl⟩
    exact hnew.extendBucket tsMs high low priceSample
  | fed _ tsMs high low priceSample ih =>
    obtain ⟨hi, lo, hext⟩ := ih
    exact hext.toInside.extendBucket tsMs high low priceSample

/-- What a profile of the session has to satisfy: it is drawn with its point of control and
    value area, every bucket with an event is in it, and it is not empty. -/
def Lawful (s : TpoSessionState) : Prop :=
  ∃ p high low, s.buildPoint = some p ∧ s.extremes = some (high, low) ∧
    ProfileDrawn s high low p ∧
    (∀ (bi : ℕ) (range : ℚ × ℚ), s.buckets[bi]? = some (some range) → Contributes s p bi) ∧
    p.rows ≠ []

/-- Every bucket with an event has a row price inside its half-open range. -/
def AllCatchRows (s : TpoSessionState) : Prop :=
  ∀ high low, s.extremes = some (high, low) → ∀ (bi : ℕ) (bhigh blow : ℚ),
    s.buckets[bi]? = some (some (bhigh, blow)) → CatchesRow s high low bhigh blow

end Sessions

end TpoSessionState

end Digdigdig3.Derived
