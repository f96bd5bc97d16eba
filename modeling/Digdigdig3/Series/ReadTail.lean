import Mathlib.Data.List.DropRight
import Digdigdig3.Lib.Paths
import Digdigdig3.Lib.SortedWindow
import Digdigdig3.Series.Recovery

/-!
# `read_tail` over the days of a series

The walk of `DiskStore::read_tail` (`crates/digdigdig3-station/src/series/store.rs`) over the
files of a series directory: the current day first, then the older days that
`list_older_days` finds, newest first, until enough records are there or `MAX_TAIL_DAYS` days
have been read. What chrono prints and parses for `%Y-%m-%d` is a pair of parameters.

Results:
* `Intact.run`: the files that appends leave hold the records that were appended.
* `flatten_olderBlocks`: the walk over the older days reads a suffix of their records.
* `readTail_eq_rtake`: `read_tail` is a suffix of the history of the last days.
-/

namespace Digdigdig3.Series

/-- The last elements of `as ++ bs` come from `bs` first. -/
theorem rtake_append {α : Type*} (as bs : List α) (n : ℕ) :
    (as ++ bs).rtake n = as.rtake (n - bs.length) ++ bs.rtake n := by
  rw [List.rtake, List.rtake, List.rtake, List.drop_append, List.length_append]
  by_cases h : n ≤ bs.length
  · rw [Nat.sub_eq_zero_of_le h, Nat.sub_zero, List.drop_length,
      List.drop_eq_nil_of_le (by omega)]
    congr 2
    omega
  · congr 2 <;> omega

namespace DiskStore

variable {P : Type} (T : DataPoint P)

/-! ## Files that hold records -/

/-- The `.dat` file is whole records, which decode to `points`. -/
def Holds (files : DayFiles) (points : List P) : Prop :=
  ∃ chunks : List Bytes, files.dat = chunks.flatten ∧
    (∀ c ∈ chunks, c.length = T.recordSize) ∧
    chunks.map (decodeChunk T files.blob) = points.map some

variable {T} {files : DayFiles} {points : List P}

/-- A day is read as its last records. -/
theorem Holds.readDayTail_eq (h : Holds T files points) (limit : ℕ) :
    readDayTail T files limit = points.rtake limit := by
  obtain ⟨chunks, hdat, hsize, hdecode⟩ := h
  have hfiles : files = { dat := chunks.flatten, blob := files.blob } := by rw [← hdat]
  have hlength : chunks.length = points.length := by
    simpa only [List.length_map] using congrArg List.length hdecode
  rw [hfiles, readDayTail_of_chunks T _ hsize, hlength]
  calc (chunks.drop (points.length - limit)).filterMap (decodeChunk T files.blob)
      = ((chunks.drop (points.length - limit)).map (decodeChunk T files.blob)).filterMap id := by
        rw [List.filterMap_map]
        rfl
    _ = ((points.drop (points.length - limit)).map some).filterMap id := by
        rw [List.map_drop, hdecode, ← List.map_drop]
    _ = points.rtake limit := by
        rw [List.filterMap_map]
        exact List.filterMap_some

/-! ## What appends leave on disk -/

/-- A step of a run without crashes; `reopen` drops the store and opens its files again. -/
inductive DayOp (P : Type) where
  | append (point : P)
  | flush
  | reopen

variable (T) in
def dayStep (s : DiskStore) : DayOp P → DiskStore
  | .append point => s.append T point
  | .flush => s.flushSync
  | .reopen => withIdxEvery T s.flushSync.dat s.flushSync.idx s.flushSync.blob s.idxEvery s.older

/-- The points that a run appends. -/
def appended (ops : List (DayOp P)) : List P :=
  ops.filterMap fun op => match op with
    | .append point => some point
    | _ => none

variable (T) in
/-- The number of blob bytes of some points. -/
def blobBytes (points : List P) : ℕ :=
  (points.map fun p => ((T.encodeBlob p).getD []).length).sum

theorem blobBytes_append (as bs : List P) :
    blobBytes T (as ++ bs) = blobBytes T as + blobBytes T bs := by
  rw [blobBytes, List.map_append, List.sum_append]
  rfl

theorem blobBytes_singleton (p : P) :
    blobBytes T [p] = ((T.encodeBlob p).getD []).length := by
  rw [blobBytes, List.map_singleton, List.sum_singleton]

variable (T) in
/-- The files hold `points`, and the next blob bytes go behind the ones on disk. -/
structure Intact (s : DiskStore) (points : List P) : Prop where
  holds : Holds T s.files points
  blob_isSome : s.blob.isSome = T.blobPointerOffset.isSome
  blobPos_eq : ∀ b, s.blob = some b → s.blobPos = b.bytes.length
  blobPos_le : s.blobPos ≤ blobBytes T points

variable {s : DiskStore}

theorem intact_create (idxEvery : ℕ) : Intact T (create T idxEvery) [] where
  holds := ⟨[], rfl, by simp, rfl⟩
  blob_isSome := by
    show (T.blobPointerOffset.map _).isSome = _
    rw [Option.isSome_map]
  blobPos_eq := by
    intro b hb
    show ((T.blobPointerOffset.map _).map _).getD 0 = _
    have hb : (T.blobPointerOffset.map fun _ =>
        (none : Option AppendFile).getD .empty) = some b := hb
    rw [hb]
    rfl
  blobPos_le := by
    show ((T.blobPointerOffset.map fun _ => (none : Option AppendFile).getD .empty).map
      fun b => b.bytes.length).getD 0 ≤ 0
    cases T.blobPointerOffset <;> exact le_rfl

theorem Intact.appendSafe (h : Intact T s points) {point : P} (hround : T.RoundTrips point)
    (hfits : blobBytes T (points ++ [point]) < 2 ^ 64) : AppendSafe T s point := by
  obtain ⟨chunks, hdat, hsize, hdecode⟩ := h.holds
  have hdat : s.dat.bytes = chunks.flatten := hdat
  refine ⟨hround, ?_, ?_, ?_⟩
  · have hle := h.blobPos_le
    rw [blobBytes_append, blobBytes_singleton] at hfits
    exact lt_of_le_of_lt (Nat.add_le_add_right hle _) hfits
  · rw [hdat, length_flatten_of_size hsize]
    exact Nat.dvd_mul_left _ _
  · rw [NoneDangling, hdat, ← List.append_nil chunks.flatten,
      wholeChunks_flatten_append hsize (by simpa using T.recordSize_pos)]
    intro c hc
    by_contra hnot
    have hnone := decodeChunk_of_not_complete T hnot
    have hmem : decodeChunk T s.files.blob c ∈ points.map some :=
      hdecode ▸ List.mem_map_of_mem hc
    rw [hnone] at hmem
    obtain ⟨p, -, hp⟩ := List.mem_map.mp hmem
    cases hp

theorem Intact.append (h : Intact T s points) {point : P} (hround : T.RoundTrips point)
    (hfits : blobBytes T (points ++ [point]) < 2 ^ 64) :
    Intact T (s.append T point) (points ++ [point]) := by
  obtain ⟨hlen, -, hdecode, hpos, hgrow⟩ :=
    header_spec h.blob_isSome h.blobPos_eq (h.appendSafe hround hfits)
  have hdangling := (h.appendSafe hround hfits).noneDangling
  obtain ⟨chunks, hdat, hsize, hpoints⟩ := h.holds
  have hdat : s.dat.bytes = chunks.flatten := hdat
  rw [NoneDangling, hdat, ← List.append_nil chunks.flatten,
    wholeChunks_flatten_append hsize (by simpa using T.recordSize_pos)] at hdangling
  have hblob : (s.append T point).files.blob = (s.header T point).2.1.map AppendFile.bytes := rfl
  -- the blob file only grows, and a record on disk keeps its value
  have hkeep : ∀ c ∈ chunks, decodeChunk T (s.append T point).files.blob c =
      decodeChunk T s.files.blob c := by
    intro c hc
    have hcomplete := hdangling c hc
    rw [hblob]
    rcases hgrow with ⟨hnone, hnone'⟩ | ⟨b, x, b', hb, hb', hbytes⟩
    · rw [hnone', files, hnone]
    · rw [files, hb] at hcomplete ⊢
      rw [hb', Option.map_some, hbytes]
      exact decodeChunk_append T hcomplete x
  refine ⟨⟨chunks ++ [(s.header T point).1], ?_, ?_, ?_⟩, ?_, hpos, ?_⟩
  · show s.dat.bytes ++ (s.header T point).1 = _
    rw [hdat, List.flatten_append, List.flatten_singleton]
  · intro c hc
    rcases List.mem_append.mp hc with hc | hc
    · exact hsize c hc
    · rw [List.mem_singleton.mp hc]
      exact hlen
  · rw [List.map_append, List.map_append, List.map_congr_left hkeep, hpoints, List.map_singleton,
      List.map_singleton, hblob, hdecode]
  · show (s.header T point).2.1.isSome = _
    rw [← h.blob_isSome]
    rcases hgrow with ⟨hnone, hnone'⟩ | ⟨b, x, b', hb, hb', -⟩
    · rw [hnone, hnone']
    · rw [hb, hb']
      rfl
  · show (s.header T point).2.2 ≤ _
    have hle := h.blobPos_le
    rw [blobBytes_append, blobBytes_singleton]
    refine le_trans ?_ (Nat.add_le_add_right hle _)
    unfold header
    split
    · split
      · next blobBytes hbytes =>
        rw [hbytes, Option.getD_some]
      · exact Nat.le_add_right _ _
    · exact Nat.le_add_right _ _

theorem Intact.flush (h : Intact T s points) : Intact T s.flushSync points where
  holds := by
    rw [files_flushSync]
    exact h.holds
  blob_isSome := by
    show (s.blob.map _).isSome = _
    rw [Option.isSome_map]
    exact h.blob_isSome
  blobPos_eq := by
    intro b hb
    have hb : s.blob.map AppendFile.flush = some b := hb
    obtain ⟨b', hb', rfl⟩ := Option.map_eq_some_iff.mp hb
    exact h.blobPos_eq b' hb'
  blobPos_le := h.blobPos_le

theorem Intact.reopen (h : Intact T s points) (idxEvery : ℕ) (older : List DayFiles) :
    Intact T (withIdxEvery T s.dat s.idx s.blob idxEvery older) points := by
  have hblob : (withIdxEvery T s.dat s.idx s.blob idxEvery older).blob = s.blob := by
    have hsome := h.blob_isSome
    show (T.blobPointerOffset.map fun _ => s.blob.getD .empty) = s.blob
    cases hoff : T.blobPointerOffset with
    | none =>
      rw [hoff, Option.isSome_none, Option.isSome_eq_false_iff, Option.isNone_iff_eq_none] at hsome
      rw [hsome]
      rfl
    | some tailOff =>
      rw [hoff, Option.isSome_some, Option.isSome_iff_exists] at hsome
      obtain ⟨b, hb⟩ := hsome
      rw [hb]
      rfl
  have hpos : (withIdxEvery T s.dat s.idx s.blob idxEvery older).blobPos =
      ((withIdxEvery T s.dat s.idx s.blob idxEvery older).blob.map
        fun b => b.bytes.length).getD 0 := rfl
  rw [hblob] at hpos
  refine ⟨?_, ?_, ?_, ?_⟩
  · rw [files, hblob]
    exact h.holds
  · rw [hblob]
    exact h.blob_isSome
  · intro b hb
    rw [hblob] at hb
    rw [hpos, hb]
    rfl
  · rw [hpos]
    cases hb : s.blob with
    | none => exact Nat.zero_le _
    | some b =>
      have hle := h.blobPos_le
      rw [h.blobPos_eq b hb] at hle
      exact hle

/-- The files that a run leaves hold the points that it appended. -/
theorem Intact.run (h : Intact T s points) {ops : List (DayOp P)}
    (hround : ∀ p ∈ appended ops, T.RoundTrips p)
    (hfits : blobBytes T (points ++ appended ops) < 2 ^ 64) :
    Intact T (ops.foldl (dayStep T) s) (points ++ appended ops) := by
  induction ops generalizing s points with
  | nil => rwa [appended, List.filterMap_nil, List.append_nil]
  | cons op ops ih =>
    cases op with
    | append point =>
      have hsplit : appended (.append point :: ops) = point :: appended ops := rfl
      rw [hsplit] at hround hfits ⊢
      rw [List.append_cons] at hfits ⊢
      refine ih (h.append (hround point (by simp)) (lt_of_le_of_lt ?_ hfits))
        (fun p hp => hround p (List.mem_cons_of_mem _ hp)) hfits
      rw [blobBytes_append _ (appended ops)]
      exact Nat.le_add_right _ _
    | flush => exact ih h.flush hround hfits
    | reopen => exact ih (h.flush.reopen _ _) hround hfits

/-! ## The walk over the older days -/

/-- The walk reads a suffix of the records of the days it may visit. -/
theorem flatten_olderBlocks {days : List DayFiles} {records : List (List P)}
    (h : List.Forall₂ (Holds T) days records) (n remaining : ℕ) :
    (olderBlocks T n remaining days).reverse.flatten =
      ((records.take n).reverse.flatten).rtake remaining := by
  induction h generalizing n remaining with
  | nil => cases n <;> simp [olderBlocks]
  | @cons day points days records hday hdays ih =>
    cases n with
    | zero => simp [olderBlocks]
    | succ n =>
      rw [olderBlocks]
      by_cases hzero : remaining = 0
      · subst hzero
        simp
      · rw [if_neg hzero, hday.readDayTail_eq, List.take_succ_cons, List.reverse_cons,
          List.flatten_append, List.flatten_singleton, rtake_append]
        by_cases hempty : points = []
        · subst hempty
          simp only [List.rtake_nil, List.isEmpty_nil, if_true, ih, List.length_nil, Nat.sub_zero,
            List.append_nil]
        · have hblock : (points.rtake remaining).length = min remaining points.length := by
            rw [List.rtake, List.length_drop]
            omega
          have hne : (points.rtake remaining).isEmpty = false := by
            rw [List.isEmpty_eq_false_iff, ← List.length_pos_iff, hblock]
            have hpos := List.length_pos_iff.mpr hempty
            omega
          have hrest : remaining - min remaining points.length = remaining - points.length := by
            omega
          simp only [hne, Bool.false_eq_true, if_false, List.reverse_cons, List.flatten_append,
            List.flatten_singleton, ih, hblock, hrest]

end DiskStore

open DiskStore

/-! ## The series directory -/

/-- The files of a series directory, listed in any order. -/
structure SeriesDir where
  names : List (List Char)
  bytes : List Char → Option Bytes
  nodup : names.Nodup
  listed : ∀ name, name ∈ names ↔ (bytes name).isSome

namespace SeriesDir

/-- The names that `paths` (lines 370–377) gives to the files of a day. -/
def datName (day : List Char) : List Char := day ++ ['.', 'd', 'a', 't']

def idxName (day : List Char) : List Char := day ++ ['.', 'i', 'd', 'x']

def blobName (day : List Char) : List Char := day ++ ['.', 'b', 'l', 'o', 'b']

/-- The files of a day; a `.dat` file that does not exist reads like an empty one. -/
def dayFiles (dir : SeriesDir) (day : List Char) : DayFiles :=
  { dat := (dir.bytes (datName day)).getD [], blob := dir.bytes (blobName day) }

section Read

variable (format : ℤ → List Char) (parse : List Char → Option ℤ)

/-- The closure of `list_older_days` (lines 402–414) at one entry. -/
def olderDay (current : ℤ) (name : List Char) : Option ℤ :=
  if Paths.extension name ≠ some ['d', 'a', 't'] then none
  else
    match parse (Paths.fileStem name) with
    | some day => if day < current then some day else none
    | none => none

/-- `list_older_days` (lines 392–416). -/
def listOlderDays (dir : SeriesDir) (currentDay : List Char) : List ℤ :=
  match parse currentDay with
  | some current => dir.names.filterMap (olderDay parse current)
  | none => []

/-- The files of the older days, the newest first (lines 231–233). -/
def olderFiles (dir : SeriesDir) (currentDay : List Char) : List DayFiles :=
  (sortByKey OrderDual.toDual (listOlderDays parse dir currentDay)).map
    fun day => dir.dayFiles (format day)

variable {P : Type} (T : DataPoint P)

/-- `read_tail` (lines 212–261), with `currentDay` open. -/
def readTail (dir : SeriesDir) (currentDay : List Char) (limit : ℕ) : List P :=
  if limit = 0 then []
  else
    let current := readDayTail T (dir.dayFiles currentDay) limit
    if limit ≤ current.length then current
    else
      let blocks := olderBlocks T (maxTailDays - 1) (limit - current.length)
        (dir.olderFiles format parse currentDay)
      blocks.reverse.flatten ++ current

/-- `read_tail` without the early exit. -/
def fullWalk (dir : SeriesDir) (currentDay : List Char) (limit : ℕ) : List P :=
  let current := readDayTail T (dir.dayFiles currentDay) limit
  let blocks := olderBlocks T (maxTailDays - 1) (limit - current.length)
    (dir.olderFiles format parse currentDay)
  blocks.reverse.flatten ++ current

/-- `read_tail` of a store is `read_tail` of its directory. -/
theorem readTail_eq_readTail_store {dir : SeriesDir} {currentDay : List Char} {s : DiskStore}
    (hfiles : s.files = dir.dayFiles currentDay)
    (holder : s.older = dir.olderFiles format parse currentDay) (limit : ℕ) :
    dir.readTail format parse T currentDay limit = s.readTail T limit := by
  rw [readTail, DiskStore.readTail, hfiles, holder]

/-! ## Specification -/

/-- The files in `dir` are those of `days`, and each holds the records of its day. -/
structure Produced (dir : SeriesDir) (days : List ℤ) (records : ℤ → List P) : Prop where
  nodup : days.Nodup
  ofDay : ∀ name ∈ dir.names, ∃ day ∈ days, name = datName (format day) ∨
    name = idxName (format day) ∨ name = blobName (format day)
  hasDat : ∀ day ∈ days, datName (format day) ∈ dir.names
  holds : ∀ day ∈ days, Holds T (dir.dayFiles (format day)) (records day)

/-- The records of the days that `read_tail` may visit, oldest first: today's, and those of
    the newest older days. -/
def history (days : List ℤ) (records : ℤ → List P) (today : ℤ) : List P :=
  let older := (sortByKey OrderDual.toDual (days.filter (· < today))).take (maxTailDays - 1)
  older.reverse.flatMap records ++ if today ∈ days then records today else []

end Read

/-! ## The older days -/

section Older

variable {parse : List Char → Option ℤ} {day : List Char} (hne : day ≠ []) (current : ℤ)
include hne

theorem olderDay_datName :
    olderDay parse current (datName day) =
      match parse day with
      | some d => if d < current then some d else none
      | none => none := by
  have hext : Paths.extension (datName day) = some ['d', 'a', 't'] :=
    Paths.extension_append hne (by decide) (by decide)
  have hstem : Paths.fileStem (datName day) = day :=
    Paths.fileStem_append hne (by decide) (by decide)
  rw [olderDay, if_neg (not_not.mpr hext), hstem]

theorem olderDay_idxName : olderDay parse current (idxName day) = none := by
  have hext : Paths.extension (idxName day) = some ['i', 'd', 'x'] :=
    Paths.extension_append hne (by decide) (by decide)
  rw [olderDay, hext]
  exact if_pos (by decide)

theorem olderDay_blobName : olderDay parse current (blobName day) = none := by
  have hext : Paths.extension (blobName day) = some ['b', 'l', 'o', 'b'] :=
    Paths.extension_append hne (by decide) (by decide)
  rw [olderDay, hext]
  exact if_pos (by decide)

end Older

section Walk

variable {format : ℤ → List Char} {parse : List Char → Option ℤ} {P : Type} {T : DataPoint P}
  {dir : SeriesDir} {days : List ℤ} {records : ℤ → List P} {today : ℤ}
  (hparse : ∀ day ∈ today :: days, parse (format day) = some day)
  (hne : ∀ day ∈ days, format day ≠ []) (h : Produced format T dir days records)
include hparse hne h

/-- A name is taken for an older day exactly when it is the `.dat` file of one. -/
theorem olderDay_eq_some_iff {name : List Char} (hname : name ∈ dir.names) {day : ℤ} :
    olderDay parse today name = some day ↔
      (day ∈ days ∧ day < today) ∧ name = datName (format day) := by
  constructor
  · intro hday
    obtain ⟨d, hd, rfl | rfl | rfl⟩ := h.ofDay name hname
    · rw [olderDay_datName (hne d hd), hparse d (List.mem_cons_of_mem _ hd)] at hday
      simp only at hday
      split_ifs at hday with hlt
      obtain rfl := Option.some.inj hday
      exact ⟨⟨hd, hlt⟩, rfl⟩
    · rw [olderDay_idxName (hne d hd)] at hday
      cases hday
    · rw [olderDay_blobName (hne d hd)] at hday
      cases hday
  · rintro ⟨⟨hd, hlt⟩, rfl⟩
    rw [olderDay_datName (hne day hd), hparse day (List.mem_cons_of_mem _ hd)]
    exact if_pos hlt

theorem listOlderDays_perm :
    (listOlderDays parse dir (format today)).Perm (days.filter (· < today)) := by
  have hlist : listOlderDays parse dir (format today) =
      dir.names.filterMap (olderDay parse today) := by
    rw [listOlderDays, hparse today List.mem_cons_self]
  have hnodup : (dir.names.filterMap (olderDay parse today)).Nodup := by
    refine List.pairwise_filterMap.mpr (dir.nodup.imp_of_mem ?_)
    intro a b ha hb hab d hd e he
    rw [olderDay_eq_some_iff hparse hne h ha] at hd
    rw [olderDay_eq_some_iff hparse hne h hb] at he
    rintro rfl
    exact hab (hd.2.trans he.2.symm)
  rw [hlist, List.perm_ext_iff_of_nodup hnodup (h.nodup.filter _)]
  intro d
  rw [List.mem_filterMap, List.mem_filter, decide_eq_true_iff]
  constructor
  · rintro ⟨name, hname, hd⟩
    exact ((olderDay_eq_some_iff hparse hne h hname).mp hd).1
  · intro hd
    have hname := h.hasDat d hd.1
    exact ⟨_, hname, (olderDay_eq_some_iff hparse hne h hname).mpr ⟨hd, rfl⟩⟩

/-- The directory lists the older days in any order, and the sort puts them in one. -/
theorem olderFiles_eq :
    dir.olderFiles format parse (format today) =
      (sortByKey OrderDual.toDual (days.filter (· < today))).map
        fun day => dir.dayFiles (format day) := by
  have hperm := (listOlderDays_perm hparse hne h)
  have hsame : sortByKey OrderDual.toDual (listOlderDays parse dir (format today)) =
      sortByKey OrderDual.toDual (days.filter (· < today)) := by
    refine (((sortByKey_perm _ _).trans hperm).trans (sortByKey_perm _ _).symm).eq_of_pairwise ?_
      (sorted_sortByKey _) (sorted_sortByKey _)
    intro a b _ _ hab hba
    exact le_antisymm hba hab
  rw [olderFiles, hsame]

omit hne in
/-- The records of the current day are those of its file, if it has one. -/
theorem holds_today :
    Holds T (dir.dayFiles (format today)) (if today ∈ days then records today else []) := by
  by_cases htoday : today ∈ days
  · rw [if_pos htoday]
    exact h.holds today htoday
  · rw [if_neg htoday]
    refine ⟨[], ?_, by simp, rfl⟩
    have hnone : dir.bytes (datName (format today)) = none := by
      rw [← Option.not_isSome_iff_eq_none, ← dir.listed]
      intro hname
      obtain ⟨d, hd, heq | heq | heq⟩ := h.ofDay _ hname
      · have hformat := List.append_cancel_right heq
        have hday := hparse d (List.mem_cons_of_mem _ hd)
        rw [← hformat, hparse today List.mem_cons_self] at hday
        exact htoday (Option.some.inj hday ▸ hd)
      · have hlast := congrArg List.getLast? heq
        simp [datName, idxName] at hlast
      · have hlast := congrArg List.getLast? heq
        simp [datName, blobName] at hlast
    show (dir.bytes _).getD [] = _
    rw [hnone]
    rfl

theorem forall₂_older :
    List.Forall₂ (Holds T) (dir.olderFiles format parse (format today))
      ((sortByKey OrderDual.toDual (days.filter (· < today))).map records) := by
  rw [olderFiles_eq hparse hne h, List.forall₂_map_left_iff, List.forall₂_map_right_iff,
    List.forall₂_same]
  intro d hd
  rw [mem_sortByKey, List.mem_filter] at hd
  exact h.holds d hd.1

/-- The walk over all days reads a suffix of their records. -/
theorem fullWalk_eq_rtake (limit : ℕ) :
    dir.fullWalk format parse T (format today) limit =
      (history days records today).rtake limit := by
  have htoday := (holds_today hparse h).readDayTail_eq limit
  have holder : ∀ (older : List ℤ) (n : ℕ),
      ((older.map records).take n).reverse.flatten =
        (older.take n).reverse.flatMap records := by
    intro older n
    rw [← List.map_take, ← List.map_reverse, List.flatMap_def]
  rw [fullWalk, htoday, flatten_olderBlocks (forall₂_older hparse hne h), holder, history,
    rtake_append]
  generalize (if today ∈ days then records today else []) = current
  have hlength : limit - (current.rtake limit).length = limit - current.length := by
    rw [List.rtake, List.length_drop]
    omega
  rw [hlength]

end Walk

/-- The early exit does not change what is read. -/
theorem readTail_eq_fullWalk {P : Type} (format : ℤ → List Char)
    (parse : List Char → Option ℤ) (T : DataPoint P) (dir : SeriesDir) (currentDay : List Char)
    (limit : ℕ) :
    dir.readTail format parse T currentDay limit =
      dir.fullWalk format parse T currentDay limit := by
  have hdone : ∀ n files, olderBlocks T n 0 files = [] := by
    intro n files
    cases n with
    | zero => rfl
    | succ n =>
      cases files with
      | nil => rfl
      | cons day rest => exact if_pos rfl
  rw [readTail, fullWalk]
  by_cases hzero : limit = 0
  · subst hzero
    have hnone : readDayTail T (dir.dayFiles currentDay) 0 = [] := by
      rw [readDayTail]
      split_ifs
      · rfl
      · simp [chunksExact]
    rw [if_pos rfl, hnone, List.length_nil, Nat.sub_zero, hdone]
    rfl
  · rw [if_neg hzero]
    by_cases hexit : limit ≤ (readDayTail T (dir.dayFiles currentDay) limit).length
    · simp only [if_pos hexit, Nat.sub_eq_zero_of_le hexit, hdone, List.reverse_nil,
        List.flatten_nil, List.nil_append]
    · simp only [if_neg hexit]

/-- **Main theorem.** `read_tail` returns the last `limit` records of the days it may visit,
    and the early exit returns the same. -/
theorem readTail_eq_rtake {format : ℤ → List Char} {parse : List Char → Option ℤ} {P : Type}
    {T : DataPoint P} {dir : SeriesDir} {days : List ℤ} {records : ℤ → List P} {today : ℤ}
    (hparse : ∀ day ∈ today :: days, parse (format day) = some day)
    (hne : ∀ day ∈ days, format day ≠ []) (h : Produced format T dir days records) (limit : ℕ) :
    dir.readTail format parse T (format today) limit =
        (history days records today).rtake limit ∧
      dir.readTail format parse T (format today) limit =
        dir.fullWalk format parse T (format today) limit := by
  have hwalk := readTail_eq_fullWalk format parse T dir (format today) limit
  exact ⟨hwalk.trans (fullWalk_eq_rtake hparse hne h limit), hwalk⟩

/-! ## Two days -/

/-- What chrono prints for two days. -/
def twoDayFormat (day : ℤ) : List Char :=
  if day = 19675 then "2023-11-14".toList else "2023-11-15".toList

def twoDayParse (text : List Char) : Option ℤ :=
  if text = "2023-11-14".toList then some 19675
  else if text = "2023-11-15".toList then some 19676
  else none

/-- Two bars of a day, with the store dropped and opened again between them. -/
def twoBars (day : ℤ) : List (DayOp ScalarBarPoint) :=
  [.append ⟨Int64.ofInt (day * 86400000), 0⟩, .reopen,
    .append ⟨Int64.ofInt (day * 86400000 + 60000), 0⟩, .flush]

def twoBarStore (day : ℤ) : DiskStore :=
  (twoBars day).foldl (dayStep scalarBar) (create scalarBar 1024)

theorem intact_twoBarStore (day : ℤ) :
    Intact scalarBar (twoBarStore day) (appended (twoBars day)) :=
  (intact_create 1024).run (fun p _ => scalarBar_roundTrips p) (by simp [blobBytes, scalarBar])

/-- Where the file named `name` is among those of two days. -/
def twoDayBytes (name : List Char) : Option Bytes :=
  if name = datName (twoDayFormat 19675) then some (twoBarStore 19675).dat.bytes
  else if name = idxName (twoDayFormat 19675) then some (twoBarStore 19675).idx.bytes
  else if name = datName (twoDayFormat 19676) then some (twoBarStore 19676).dat.bytes
  else if name = idxName (twoDayFormat 19676) then some (twoBarStore 19676).idx.bytes
  else none

def twoDayDir : SeriesDir where
  names := [idxName (twoDayFormat 19676), datName (twoDayFormat 19676),
    datName (twoDayFormat 19675), idxName (twoDayFormat 19675)]
  bytes := twoDayBytes
  nodup := by decide
  listed name := by
    rw [twoDayBytes, List.mem_cons, List.mem_cons, List.mem_cons, List.mem_singleton]
    split_ifs <;> simp [*]

theorem dayFiles_twoDayDir {day : ℤ} (hday : day ∈ [19675, 19676]) :
    twoDayDir.dayFiles (twoDayFormat day) = (twoBarStore day).files := by
  rcases List.mem_cons.mp hday with rfl | hday
  · rfl
  · obtain rfl := List.mem_singleton.mp hday
    rfl

theorem produced_twoDayDir :
    Produced twoDayFormat scalarBar twoDayDir [19675, 19676] fun day => appended (twoBars day) where
  nodup := by decide
  ofDay name hname := by
    rcases List.mem_cons.mp hname with rfl | hname
    · exact ⟨19676, by decide, Or.inr (Or.inl rfl)⟩
    rcases List.mem_cons.mp hname with rfl | hname
    · exact ⟨19676, by decide, Or.inl rfl⟩
    rcases List.mem_cons.mp hname with rfl | hname
    · exact ⟨19675, by decide, Or.inl rfl⟩
    · exact ⟨19675, by decide, Or.inr (Or.inl (List.mem_singleton.mp hname))⟩
  hasDat := by decide
  holds day hday := by
    rw [dayFiles_twoDayDir hday]
    exact (intact_twoBarStore day).holds

/-- The last three of the four bars of two days. -/
theorem readTail_eq_rtake_two_days :
    twoDayDir.readTail twoDayFormat twoDayParse scalarBar (twoDayFormat 19676) 3 =
        (history [19675, 19676] (fun day => appended (twoBars day)) 19676).rtake 3 ∧
      twoDayDir.readTail twoDayFormat twoDayParse scalarBar (twoDayFormat 19676) 3 =
        twoDayDir.fullWalk twoDayFormat twoDayParse scalarBar (twoDayFormat 19676) 3 :=
  readTail_eq_rtake (by decide) (by decide) produced_twoDayDir 3

end SeriesDir

end Digdigdig3.Series
