import Mathlib.Data.List.Basic
import Mathlib.Tactic
import Digdigdig3.Lib.Paths

/-!
# Retention sweeps

`retention::sweep` (`crates/digdigdig3-station/src/storage/retention.rs`) deletes the old
`{YYYY-MM-DD}.bin` files of a directory tree, and `DiskStore::sweep_retention`
(`series/store.rs`) the old files of one series directory. Both subtract the retention from
the current day, and chrono panics where there is no such day. What chrono parses for
`%Y-%m-%d` is a parameter; a date is the number of its day.

Results:
* `files_walkAndDelete`, `dirs_walkAndDelete`: a walk deletes the files that are before the
  cutoff, counts them, and keeps every directory.
* `files_removeStale`: the same for a series directory.
* `retention_lawful_iff`: the retentions for which both sweeps delete exactly the old files.
-/

namespace Digdigdig3.Storage

/-- The entries of a directory, one after the other. -/
inductive FileTree where
  | nil
  | file (name : List Char) (rest : FileTree)
  | dir (name : List Char) (entries rest : FileTree)
  deriving DecidableEq

namespace FileTree

/-- The files of a tree, each as the directories that lead to it and its name. -/
def files : FileTree → List (List (List Char) × List Char)
  | nil => []
  | file name rest => ([], name) :: rest.files
  | dir name entries rest => entries.files.map (fun f => (name :: f.1, f.2)) ++ rest.files

/-- The directories of a tree. -/
def dirs : FileTree → List (List (List Char))
  | nil => []
  | file _ rest => rest.dirs
  | dir name entries rest => [name] :: entries.dirs.map (name :: ·) ++ rest.dirs

end FileTree

namespace Retention

/-! ## Model -/

/-- `NaiveDate::MIN`, the first of January of the year -262143. -/
def minDate : ℤ := -96465292

/-- `today - Duration::days(retention_days as i64)`; `none` is the panic. -/
def cutoff (today : ℤ) (retentionDays : UInt32) : Option ℤ :=
  if minDate ≤ today - retentionDays.toNat then some (today - retentionDays.toNat) else none

section Sweep

variable (parse : List Char → Option ℤ)

/-- `parse_date_from_stem` (`retention.rs` lines 45–51). -/
def parseDateFromStem (name : List Char) : Option ℤ :=
  if Paths.extension name ≠ some ['b', 'i', 'n'] then none else parse (Paths.fileStem name)

/-- `walk_and_delete` (`retention.rs` lines 24–41): what is left, and the number of deleted
    files. -/
def walkAndDelete (cutoff : ℤ) : FileTree → FileTree × ℕ
  | .nil => (.nil, 0)
  | .file name rest =>
    let (left, deleted) := walkAndDelete cutoff rest
    match parseDateFromStem parse name with
    | some date => if date < cutoff then (left, deleted + 1) else (.file name left, deleted)
    | none => (.file name left, deleted)
  | .dir name entries rest =>
    let (inner, deleted) := walkAndDelete cutoff entries
    let (left, more) := walkAndDelete cutoff rest
    (.dir name inner left, deleted + more)

/-- `sweep` (`retention.rs` lines 17–22) on the day `today`; `none` is a panic, and a root that
    is no directory has no entries. -/
def sweep (root : FileTree) (today : ℤ) (retentionDays : UInt32) : Option (FileTree × ℕ) := do
  let cutoff ← cutoff today retentionDays
  return walkAndDelete parse cutoff root

/-- The loop of `sweep_retention` (`store.rs` lines 295–316). The `remove_file` of a directory
    fails, and is logged. -/
def removeStale (cutoff : ℤ) : FileTree → FileTree
  | .nil => .nil
  | .file name rest =>
    match parse (Paths.fileStem name) with
    | some day =>
      if cutoff ≤ day then .file name (removeStale cutoff rest) else removeStale cutoff rest
    | none => .file name (removeStale cutoff rest)
  | .dir name entries rest => .dir name entries (removeStale cutoff rest)

/-- `DiskStore::sweep_retention` (`store.rs` lines 280–318) on the series directory. -/
def sweepRetention (symDir : FileTree) (currentDay : List Char) (retentionDays : UInt32) :
    Option FileTree :=
  match parse currentDay with
  | none => some symDir
  | some today => (cutoff today retentionDays).map fun cutoff => removeStale parse cutoff symDir

end Sweep

/-- The `default_retention_days` that `ReplayHub::new` sets (`replay/hub.rs` lines 78–83). -/
def replayRetentionDays : UInt32 := 4294967295

/-! ## Specification -/

section Specification

variable (parse : List Char → Option ℤ)

/-- The date of the file is more than `retentionDays` days before `today`. -/
def Expired (today : ℤ) (retentionDays : UInt32) (date : Option ℤ) : Prop :=
  ∃ d ∈ date, (retentionDays.toNat : ℤ) < today - d

instance (today : ℤ) (retentionDays : UInt32) (date : Option ℤ) :
    Decidable (Expired today retentionDays date) :=
  inferInstanceAs (Decidable (∃ d ∈ date, _))

/-- The date of a file of a storage tree, and of a file of a series directory. -/
def binDate (f : List (List Char) × List Char) : Option ℤ := parseDateFromStem parse f.2

/-- Only the files in the directory itself are files of the series. -/
def dayDate (f : List (List Char) × List Char) : Option ℤ :=
  if f.1 = [] then parse (Paths.fileStem f.2) else none

/-- Neither sweep panics, both delete exactly the files that are more than `retentionDays`
    days old, and the files of the current day stay. -/
structure Lawful (root symDir : FileTree) (currentDay : List Char) (today : ℤ)
    (retentionDays : UInt32) : Prop where
  storage : ∃ left deleted, sweep parse root today retentionDays = some (left, deleted) ∧
    left.files = root.files.filter (fun f => ¬ Expired today retentionDays (binDate parse f)) ∧
    deleted = root.files.countP (fun f => Expired today retentionDays (binDate parse f)) ∧
    left.dirs = root.dirs ∧
    ∀ f ∈ root.files, binDate parse f = some today → f ∈ left.files
  series : ∃ left, sweepRetention parse symDir currentDay retentionDays = some left ∧
    left.files = symDir.files.filter (fun f => ¬ Expired today retentionDays (dayDate parse f)) ∧
    left.dirs = symDir.dirs ∧
    ∀ f ∈ symDir.files, dayDate parse f = some today → f ∈ left.files

end Specification

/-! ## The walks -/

/-- The file has a date, and it is before `cutoff`. -/
def Stale (cutoff : ℤ) (date : Option ℤ) : Prop := ∃ d ∈ date, d < cutoff

instance (cutoff : ℤ) (date : Option ℤ) : Decidable (Stale cutoff date) :=
  inferInstanceAs (Decidable (∃ d ∈ date, _))

theorem stale_iff_expired {today : ℤ} {retentionDays : UInt32} {date : Option ℤ} :
    Stale (today - retentionDays.toNat) date ↔ Expired today retentionDays date := by
  refine exists_congr fun d => and_congr_right fun _ => ?_
  omega

section Walk

variable (parse : List Char → Option ℤ) (cutoff : ℤ)

/-- What the walk does to a file. -/
theorem walkAndDelete_file (name : List Char) (rest : FileTree) :
    walkAndDelete parse cutoff (.file name rest) =
      if Stale cutoff (parseDateFromStem parse name) then
        ((walkAndDelete parse cutoff rest).1, (walkAndDelete parse cutoff rest).2 + 1)
      else
        (.file name (walkAndDelete parse cutoff rest).1, (walkAndDelete parse cutoff rest).2) := by
  rw [walkAndDelete]
  rcases hdate : parseDateFromStem parse name with _ | date
  · rw [if_neg (by simp [Stale])]
  · by_cases hlt : date < cutoff
    · simp only [if_pos hlt]
      rw [if_pos ⟨date, rfl, hlt⟩]
    · simp only [if_neg hlt]
      rw [if_neg (by simpa [Stale] using hlt)]

theorem files_walkAndDelete (tree : FileTree) :
    (walkAndDelete parse cutoff tree).1.files =
        tree.files.filter (fun f => ¬ Stale cutoff (binDate parse f)) ∧
      (walkAndDelete parse cutoff tree).2 =
        tree.files.countP (fun f => Stale cutoff (binDate parse f)) := by
  induction tree with
  | nil => exact ⟨rfl, rfl⟩
  | file name rest ih =>
    obtain ⟨hfiles, hcount⟩ := ih
    rw [walkAndDelete_file, FileTree.files]
    by_cases hstale : Stale cutoff (parseDateFromStem parse name)
    · have hbin : Stale cutoff (binDate parse ([], name)) := hstale
      rw [if_pos hstale, List.filter_cons_of_neg (by simpa using hbin),
        List.countP_cons_of_pos (by simpa using hbin), hcount]
      exact ⟨hfiles, rfl⟩
    · have hbin : ¬ Stale cutoff (binDate parse ([], name)) := hstale
      rw [if_neg hstale, List.filter_cons_of_pos (by simpa using hbin),
        List.countP_cons_of_neg (by simpa using hbin), ← hfiles]
      exact ⟨rfl, hcount⟩
  | dir name entries rest ihEntries ihRest =>
    rw [walkAndDelete]
    constructor
    · show (FileTree.dir name (walkAndDelete parse cutoff entries).1
        (walkAndDelete parse cutoff rest).1).files = _
      rw [FileTree.files, FileTree.files, List.filter_append, List.filter_map, ihEntries.1,
        ihRest.1]
      rfl
    · show (walkAndDelete parse cutoff entries).2 + (walkAndDelete parse cutoff rest).2 = _
      rw [FileTree.files, List.countP_append, List.countP_map, ihEntries.2, ihRest.2]
      rfl

theorem dirs_walkAndDelete (tree : FileTree) :
    (walkAndDelete parse cutoff tree).1.dirs = tree.dirs := by
  induction tree with
  | nil => rfl
  | file name rest ih =>
    rw [walkAndDelete_file]
    split_ifs <;> exact ih
  | dir name entries rest ihEntries ihRest =>
    rw [walkAndDelete]
    show (FileTree.dir name (walkAndDelete parse cutoff entries).1
      (walkAndDelete parse cutoff rest).1).dirs = _
    rw [FileTree.dirs, FileTree.dirs, ihEntries, ihRest]

theorem removeStale_file (name : List Char) (rest : FileTree) :
    removeStale parse cutoff (.file name rest) =
      if Stale cutoff (parse (Paths.fileStem name)) then removeStale parse cutoff rest
      else .file name (removeStale parse cutoff rest) := by
  rw [removeStale]
  rcases hday : parse (Paths.fileStem name) with _ | day
  · rw [if_neg (by simp [Stale])]
  · by_cases hle : cutoff ≤ day
    · simp only [if_pos hle]
      rw [if_neg (by simpa [Stale] using hle)]
    · simp only [if_neg hle]
      rw [if_pos ⟨day, rfl, not_le.mp hle⟩]

theorem files_removeStale (tree : FileTree) :
    (removeStale parse cutoff tree).files =
      tree.files.filter (fun f => ¬ Stale cutoff (dayDate parse f)) := by
  induction tree with
  | nil => rfl
  | file name rest ih =>
    rw [removeStale_file, FileTree.files]
    by_cases hstale : Stale cutoff (parse (Paths.fileStem name))
    · have hday : Stale cutoff (dayDate parse ([], name)) := hstale
      rw [if_pos hstale, List.filter_cons_of_neg (by simpa using hday), ih]
    · have hday : ¬ Stale cutoff (dayDate parse ([], name)) := hstale
      rw [if_neg hstale, List.filter_cons_of_pos (by simpa using hday), ← ih]
      rfl
  | dir name entries rest _ ih =>
    have hinner : (entries.files.map (fun f => (name :: f.1, f.2))).filter
        (fun f => ¬ Stale cutoff (dayDate parse f)) =
          entries.files.map fun f => (name :: f.1, f.2) := by
      refine List.filter_eq_self.mpr fun f hf => ?_
      obtain ⟨g, -, rfl⟩ := List.mem_map.mp hf
      simp [dayDate, Stale]
    rw [removeStale, FileTree.files, FileTree.files, List.filter_append, hinner, ih]

theorem dirs_removeStale (tree : FileTree) :
    (removeStale parse cutoff tree).dirs = tree.dirs := by
  induction tree with
  | nil => rfl
  | file name rest ih =>
    rw [removeStale_file]
    split_ifs <;> exact ih
  | dir name entries rest _ ih => rw [removeStale, FileTree.dirs, FileTree.dirs, ih]

end Walk

/-! ## The sweeps -/

/-- Nothing that a sweep deletes is of the current day. -/
theorem mem_filter_of_today {files : List (List (List Char) × List Char)}
    {date : List (List Char) × List Char → Option ℤ} {today : ℤ} {retentionDays : UInt32}
    {f : List (List Char) × List Char} (hf : f ∈ files) (htoday : date f = some today) :
    f ∈ files.filter (fun f => ¬ Expired today retentionDays (date f)) := by
  refine List.mem_filter.mpr ⟨hf, decide_eq_true ?_⟩
  rintro ⟨d, hd, hlt⟩
  rw [htoday] at hd
  obtain rfl := Option.some.inj hd
  omega

section Main

variable {parse : List Char → Option ℤ} {currentDay : List Char} {today : ℤ}
  {retentionDays : UInt32}

/-- A sweep that comes back has subtracted the retention. -/
theorem Lawful.reaches {root symDir : FileTree}
    (h : Lawful parse root symDir currentDay today retentionDays) :
    minDate ≤ today - retentionDays.toNat := by
  obtain ⟨left, deleted, hsweep, -⟩ := h.storage
  by_contra hnot
  rw [sweep, cutoff, if_neg hnot] at hsweep
  cases hsweep

/-- **Main theorem.** Both sweeps delete exactly the files that are too old exactly when the
    calendar reaches back to the cutoff; otherwise they panic. -/
theorem retention_lawful_iff (hparse : parse currentDay = some today) (root symDir : FileTree) :
    Lawful parse root symDir currentDay today retentionDays ↔
      minDate ≤ today - retentionDays.toNat := by
  refine ⟨Lawful.reaches, fun hreach => ⟨?_, ?_⟩⟩
  · obtain ⟨hfiles, hcount⟩ :=
      files_walkAndDelete parse (today - retentionDays.toNat) root
    have hdirs := dirs_walkAndDelete parse (today - retentionDays.toNat) root
    simp only [stale_iff_expired] at hfiles hcount
    have hsweep : sweep parse root today retentionDays =
        some (walkAndDelete parse (today - retentionDays.toNat) root) := by
      rw [sweep, cutoff, if_pos hreach]
      rfl
    refine ⟨_, _, hsweep, hfiles, hcount, hdirs, fun f hf htoday => ?_⟩
    rw [hfiles]
    exact mem_filter_of_today hf htoday
  · have hfiles := files_removeStale parse (today - retentionDays.toNat) symDir
    have hdirs := dirs_removeStale parse (today - retentionDays.toNat) symDir
    simp only [stale_iff_expired] at hfiles
    have hsweep : sweepRetention parse symDir currentDay retentionDays =
        some (removeStale parse (today - retentionDays.toNat) symDir) := by
      rw [sweepRetention, hparse]
      simp only [cutoff, if_pos hreach, Option.map_some]
    refine ⟨_, hsweep, hfiles, hdirs, fun f hf htoday => ?_⟩
    rw [hfiles]
    exact mem_filter_of_today hf htoday

end Main

/-! ## Retentions of a week and of `u32::MAX` days -/

/-- What chrono parses of two texts. -/
def sampleParse (text : List Char) : Option ℤ :=
  if text = "2023-11-14".toList then some 19675
  else if text = "2023-11-01".toList then some 19662
  else none

/-- Two files of a stream in a storage tree. -/
def sampleRoot : FileTree :=
  .dir "binance".toList
    (.file "2023-11-01.bin".toList (.file "2023-11-14.bin".toList .nil)) .nil

/-- The files of a series. -/
def sampleSeries : FileTree :=
  .file "2023-11-01.dat".toList (.file "2023-11-01.idx".toList (.file "2023-11-14.dat".toList .nil))

theorem retention_lawful_iff_week :
    Lawful sampleParse sampleRoot sampleSeries "2023-11-14".toList 19675 7 ↔
      minDate ≤ 19675 - (7 : UInt32).toNat :=
  retention_lawful_iff (by decide) sampleRoot sampleSeries

/-- The retention of a `ReplayHub`, which is to keep everything, panics. -/
theorem not_lawful_of_replayRetentionDays :
    ¬ Lawful sampleParse sampleRoot sampleSeries "2023-11-14".toList 19675
      replayRetentionDays := by
  intro h
  exact absurd h.reaches (by decide)

end Retention

end Digdigdig3.Storage
