import Digdigdig3.Lib.Bytes
import Digdigdig3.Lib.Paths
import Digdigdig3.Lib.SortedWindow

/-!
# Snapshots of stateful streams

`write_snapshot` (`crates/digdigdig3-station/src/storage/snapshot.rs`) puts a snapshot into
the file of its UTC second, and `find_latest_snapshot_before` looks for the newest one by
the milliseconds in the headers. What chrono prints for `%Y-%m-%d-%H-%M-%S` is a parameter.

Results:
* `mem_run_iff`: a snapshot is on disk exactly when no later one of its second was written.
* `find_spec`: the search finds the newest of the snapshots on disk.
* `snapshot_lawful_iff`: the writes for which the search finds the newest snapshot.
-/

namespace Digdigdig3.Storage

namespace Snapshot

/-! ## Model -/

/-- A call of `write_snapshot`, and the second at which it looks at the clock. -/
structure Write where
  nowSecs : ℤ
  tsMs : Int64
  payload : Bytes
  deriving DecidableEq

/-- The files of a `snapshots` directory, by name. -/
abbrev Files := List (List Char × Bytes)

/-- The UTC second of a millisecond. -/
def utcSecond (tsMs : Int64) : ℤ := tsMs.toInt / 1000

/-- The milliseconds for which `timestamp_millis_opt` has an answer. -/
def Representable (tsMs : Int64) : Prop :=
  -8334601228800000 ≤ tsMs.toInt ∧ tsMs.toInt ≤ 8210266876799999

instance (tsMs : Int64) : Decidable (Representable tsMs) := inferInstanceAs (Decidable (_ ∧ _))

section Directory

variable (format : ℤ → List Char)

/-- `snapshot_filename` (lines 20–26). -/
def snapshotFilename (nowSecs : ℤ) (tsMs : Int64) : List Char :=
  format (if Representable tsMs then utcSecond tsMs else nowSecs) ++ ['.', 'b', 'i', 'n']

/-- The name and the bytes of the file of a snapshot. -/
def file (w : Write) : List Char × Bytes :=
  (snapshotFilename format w.nowSecs w.tsMs,
    i64ToLe w.tsMs ++ (toLe 4 w.payload.length ++ w.payload))

/-- `write_snapshot` (lines 31–40); `none` is a directory that does not exist. -/
def writeSnapshot (dir : Option Files) (w : Write) : Option Files :=
  some (upsertBy Prod.fst (dir.getD []) (file format w))

/-- The directory after some writes. -/
def run (writes : List Write) : Option Files := writes.foldl (writeSnapshot format) none

end Directory

/-- The loop of `find_latest_snapshot_before` (lines 60–74) at one file. -/
def candidate (beforeMs : Int64) (entry : List Char × Bytes) : Option (Int64 × Bytes) :=
  if Paths.extension entry.1 ≠ some ['b', 'i', 'n'] then none
  else
    match readExact 8 entry.2 with
    | some (ts, _) =>
      if i64OfLe ts ≤ beforeMs then some (i64OfLe ts, entry.2) else none
    | none => none

/-- The reads behind the choice (lines 83–88); `none` is `UnexpectedEof`. -/
def readPayload (bytes : Bytes) : Option Bytes := do
  let (_, rest) ← readExact 8 bytes
  let (len, rest) ← readExact 4 rest
  let (payload, _) ← readExact (ofLe len) rest
  return payload

/-- `find_latest_snapshot_before` (lines 45–89), where `read_dir` lists the directory as
    `entries`; the outer `none` is an error. -/
def findLatestSnapshotBefore (entries : Option Files) (beforeMs : Int64) :
    Option (Option (Int64 × Bytes)) :=
  match entries with
  | none => some none
  | some entries =>
    let candidates := entries.filterMap (candidate beforeMs)
    match (sortByKey (fun c => c.1.toInt) candidates).getLast? with
    | none => some none
    | some (ts, bytes) => (readPayload bytes).map fun payload => some (ts, payload)

/-! ## Specification -/

/-- `w` is the newest of the snapshots that are not after `beforeMs`. -/
def Latest (writes : List Write) (beforeMs : Int64) (w : Write) : Prop :=
  (w ∈ writes ∧ w.tsMs ≤ beforeMs) ∧ ∀ v ∈ writes, v.tsMs ≤ beforeMs → v.tsMs ≤ w.tsMs

/-- The search finds the newest of the snapshots written, in whatever order the directory
    is listed, and nothing when there is none. -/
def Lawful (format : ℤ → List Char) (writes : List Write) (beforeMs : Int64) : Prop :=
  ∀ entries : Option Files, Option.Rel List.Perm entries (run format writes) →
    (∀ w, Latest writes beforeMs w →
      findLatestSnapshotBefore entries beforeMs = some (some (w.tsMs, w.payload))) ∧
    (findLatestSnapshotBefore entries beforeMs = some none ↔
      ∀ w ∈ writes, ¬ w.tsMs ≤ beforeMs)

/-- No later snapshot of the second of `w` was written. -/
def LastOfSecond (writes : List Write) (w : Write) : Prop :=
  ∃ pre post, writes = pre ++ w :: post ∧ ∀ v ∈ post, utcSecond v.tsMs ≠ utcSecond w.tsMs

/-- The newest snapshot is the last one of its second, and its length fits into the header. -/
def Kept (writes : List Write) (beforeMs : Int64) : Prop :=
  ∀ w, Latest writes beforeMs w → LastOfSecond writes w ∧ w.payload.length < 2 ^ 32

/-! ## The files on disk -/

section Disk

variable {format : ℤ → List Char} {writes : List Write}

theorem getD_run : (run format writes).getD [] = lastWins Prod.fst (writes.map (file format)) := by
  induction writes using List.reverseRecOn with
  | nil => rfl
  | append_singleton writes w ih =>
    rw [run, List.foldl_concat, ← run, writeSnapshot, Option.getD_some, ih, List.map_append,
      List.map_singleton, lastWins_concat]

theorem fst_file {w : Write} (h : Representable w.tsMs) :
    (file format w).1 = format (utcSecond w.tsMs) ++ ['.', 'b', 'i', 'n'] := by
  rw [file, snapshotFilename, if_pos h]

/-- Two snapshots have one file when they have one second. -/
theorem fst_file_eq_iff (hformat : Set.InjOn format (utcSecond '' {ts | Representable ts}))
    {v w : Write} (hv : Representable v.tsMs) (hw : Representable w.tsMs) :
    (file format v).1 = (file format w).1 ↔ utcSecond v.tsMs = utcSecond w.tsMs := by
  rw [fst_file hv, fst_file hw, List.append_cancel_right_eq]
  exact hformat.eq_iff ⟨_, hv, rfl⟩ ⟨_, hw, rfl⟩

/-- A snapshot is on disk exactly when no later one of its second was written. -/
theorem mem_run_iff (hformat : Set.InjOn format (utcSecond '' {ts | Representable ts}))
    (hrange : ∀ w ∈ writes, Representable w.tsMs) {entry : List Char × Bytes} :
    entry ∈ (run format writes).getD [] ↔
      ∃ w, LastOfSecond writes w ∧ entry = file format w := by
  rw [getD_run, mem_lastWins]
  constructor
  · rintro ⟨pre, post, hsplit, hpost⟩
    obtain ⟨pre, rest, rfl, rfl, hrest⟩ := List.map_eq_append_iff.mp hsplit
    obtain ⟨w, post, rfl, rfl, rfl⟩ := List.map_eq_cons_iff.mp hrest
    refine ⟨w, ⟨pre, post, rfl, fun v hv heq => ?_⟩, rfl⟩
    refine hpost _ (List.mem_map_of_mem hv) ?_
    exact (fst_file_eq_iff hformat (hrange v (by simp [hv])) (hrange w (by simp))).mpr heq
  · rintro ⟨w, ⟨pre, post, rfl, hpost⟩, rfl⟩
    refine ⟨_, _, List.map_append, fun entry hentry heq => ?_⟩
    obtain ⟨v, hv, rfl⟩ := List.mem_map.mp hentry
    exact hpost v hv
      ((fst_file_eq_iff hformat (hrange v (by simp [hv])) (hrange w (by simp))).mp heq)

theorem LastOfSecond.mem {w : Write} (h : LastOfSecond writes w) : w ∈ writes := by
  obtain ⟨pre, post, rfl, -⟩ := h
  simp

/-- What the reader makes of the file of a snapshot. -/
theorem readPayload_file (w : Write) :
    readPayload (file format w).2 = some (w.payload.take (w.payload.length % 2 ^ 32)) := by
  have hlen : ofLe (toLe 4 w.payload.length) = w.payload.length % 2 ^ 32 := ofLe_toLe _ _
  have hread : readExact (w.payload.length % 2 ^ 32) w.payload =
      some (w.payload.take (w.payload.length % 2 ^ 32),
        w.payload.drop (w.payload.length % 2 ^ 32)) := if_pos (Nat.mod_le _ _)
  simp only [readPayload, file, readExact_append (length_i64ToLe w.tsMs), Option.bind_eq_bind,
    Option.bind_some, readExact_append (length_toLe 4 w.payload.length), hlen, hread]
  rfl

theorem candidate_file (hstem : ∀ s, format s ≠ []) {w : Write} (hw : Representable w.tsMs)
    (beforeMs : Int64) :
    candidate beforeMs (file format w) =
      if w.tsMs ≤ beforeMs then some (w.tsMs, (file format w).2) else none := by
  have hext : Paths.extension (file format w).1 = some ['b', 'i', 'n'] := by
    rw [fst_file hw]
    exact Paths.extension_append (hstem _) (by decide) (by decide)
  have hread : readExact 8 (file format w).2 =
      some (i64ToLe w.tsMs, toLe 4 w.payload.length ++ w.payload) :=
    readExact_append (length_i64ToLe w.tsMs) _
  rw [candidate, if_neg (not_not.mpr hext), hread]
  simp only [i64OfLe_i64ToLe]

end Disk

/-! ## The search -/

theorem find_getD (entries : Option Files) (beforeMs : Int64) :
    findLatestSnapshotBefore entries beforeMs =
      findLatestSnapshotBefore (some (entries.getD [])) beforeMs := by
  cases entries with
  | none => simp [findLatestSnapshotBefore, sortByKey]
  | some entries => rfl

section Search

variable {format : ℤ → List Char}
  (hformat : Set.InjOn format (utcSecond '' {ts | Representable ts}))
  (hstem : ∀ s, format s ≠ []) {writes : List Write}
  (hrange : ∀ w ∈ writes, Representable w.tsMs)
include hformat hstem hrange

/-- The candidates are the snapshots on disk that are not too late. -/
theorem mem_candidates_iff {entries : Files} (hperm : entries.Perm ((run format writes).getD []))
    {beforeMs : Int64} {c : Int64 × Bytes} :
    c ∈ entries.filterMap (candidate beforeMs) ↔
      ∃ w, LastOfSecond writes w ∧ w.tsMs ≤ beforeMs ∧ c = (w.tsMs, (file format w).2) := by
  rw [List.mem_filterMap]
  constructor
  · rintro ⟨entry, hentry, hc⟩
    obtain ⟨w, hw, rfl⟩ := (mem_run_iff hformat hrange).mp (hperm.mem_iff.mp hentry)
    rw [candidate_file hstem (hrange w hw.mem)] at hc
    split_ifs at hc with hle
    exact ⟨w, hw, hle, (Option.some.inj hc).symm⟩
  · rintro ⟨w, hw, hle, rfl⟩
    refine ⟨file format w, hperm.mem_iff.mpr ((mem_run_iff hformat hrange).mpr ⟨w, hw, rfl⟩), ?_⟩
    rw [candidate_file hstem (hrange w hw.mem), if_pos hle]

/-- The search finds the newest of the snapshots that are on disk. -/
theorem find_spec {entries : Option Files} (hrel : Option.Rel List.Perm entries (run format writes))
    (beforeMs : Int64) :
    (findLatestSnapshotBefore entries beforeMs = some none ∧
        ∀ w, LastOfSecond writes w → ¬ w.tsMs ≤ beforeMs) ∨
      ∃ w, (LastOfSecond writes w ∧ w.tsMs ≤ beforeMs) ∧
        (∀ v, LastOfSecond writes v → v.tsMs ≤ beforeMs → v.tsMs ≤ w.tsMs) ∧
        findLatestSnapshotBefore entries beforeMs =
          some (some (w.tsMs, w.payload.take (w.payload.length % 2 ^ 32))) := by
  have hperm : (entries.getD []).Perm ((run format writes).getD []) := by
    generalize run format writes = dir at hrel ⊢
    revert hrel
    rintro (hperm | _)
    · exact hperm
    · exact List.Perm.refl _
  have hmem := fun c => @mem_candidates_iff _ hformat hstem _ hrange _ hperm beforeMs c
  rw [find_getD, findLatestSnapshotBefore]
  rcases hlast : (sortByKey (fun c : Int64 × Bytes => c.1.toInt)
      ((entries.getD []).filterMap (candidate beforeMs))).getLast? with _ | c
  · refine Or.inl ⟨rfl, fun w hw hle => ?_⟩
    have hc := (hmem _).mpr ⟨w, hw, hle, rfl⟩
    rw [← mem_sortByKey (fun c : Int64 × Bytes => c.1.toInt),
      List.getLast?_eq_none_iff.mp hlast] at hc
    cases hc
  · obtain ⟨hc, hmax⟩ := le_getLast_sortByKey hlast
    obtain ⟨w, hw, hle, rfl⟩ := (hmem c).mp hc
    refine Or.inr ⟨w, ⟨hw, hle⟩, fun v hv hle => ?_, ?_⟩
    · exact Int64.le_iff_toInt_le.mpr (hmax _ ((hmem _).mpr ⟨v, hv, hle, rfl⟩))
    · simp only [readPayload_file, Option.map_some]

end Search

/-- Some snapshot is the newest one, unless all are too late. -/
theorem exists_latest {writes : List Write} {beforeMs : Int64}
    (h : ∃ w ∈ writes, w.tsMs ≤ beforeMs) : ∃ w, Latest writes beforeMs w := by
  obtain ⟨w, hw, hle⟩ := h
  have hne : writes.filter (fun w => w.tsMs ≤ beforeMs) ≠ [] :=
    List.ne_nil_of_mem (List.mem_filter.mpr ⟨hw, decide_eq_true hle⟩)
  obtain ⟨m, hm⟩ : ∃ m, (sortByKey (fun w : Write => w.tsMs.toInt)
      (writes.filter fun w => w.tsMs ≤ beforeMs)).getLast? = some m := by
    refine Option.isSome_iff_exists.mp ?_
    rw [List.getLast?_isSome]
    intro hnil
    have hperm := sortByKey_perm (fun w : Write => w.tsMs.toInt)
      (writes.filter fun w => w.tsMs ≤ beforeMs)
    rw [hnil] at hperm
    exact hne hperm.nil_eq.symm
  obtain ⟨hmem, hmax⟩ := le_getLast_sortByKey hm
  rw [List.mem_filter, decide_eq_true_iff] at hmem
  refine ⟨m, hmem, fun v hv hle => Int64.le_iff_toInt_le.mpr ?_⟩
  exact hmax v (List.mem_filter.mpr ⟨hv, decide_eq_true hle⟩)

theorem rel_refl (dir : Option Files) : Option.Rel List.Perm dir dir := by
  cases dir with
  | none => exact Option.Rel.none
  | some files => exact Option.Rel.some (List.Perm.refl files)

section Main

variable {format : ℤ → List Char}
  (hformat : Set.InjOn format (utcSecond '' {ts | Representable ts}))
  (hstem : ∀ s, format s ≠ []) {writes : List Write}
  (hrange : ∀ w ∈ writes, Representable w.tsMs) (hdistinct : (writes.map Write.tsMs).Nodup)
include hformat hstem hrange hdistinct

/-- What the search finds is on disk, and as long as its header says. -/
theorem Lawful.kept {beforeMs : Int64} (h : Lawful format writes beforeMs) :
    Kept writes beforeMs := by
  intro w hw
  have hfound := (h _ (rel_refl _)).1 w hw
  rcases find_spec hformat hstem hrange (rel_refl _) beforeMs with
    ⟨hnone, -⟩ | ⟨v, ⟨hv, -⟩, -, hfind⟩
  · rw [hnone] at hfound
    cases hfound
  · rw [hfind, Option.some_inj, Option.some_inj, Prod.mk.injEq] at hfound
    obtain ⟨hts, hpayload⟩ := hfound
    obtain rfl := List.inj_on_of_nodup_map hdistinct hv.mem hw.1.1 hts
    refine ⟨hv, ?_⟩
    have hlength := congrArg List.length hpayload
    rw [List.length_take] at hlength
    have hlt := Nat.mod_lt v.payload.length (by decide : 0 < 2 ^ 32)
    omega

/-- What is on disk, and as long as its header says, is found. -/
theorem Kept.lawful {beforeMs : Int64} (h : Kept writes beforeMs) :
    Lawful format writes beforeMs := by
  intro entries hrel
  have hspec := find_spec hformat hstem hrange hrel beforeMs
  have hnewest : ∀ w, Latest writes beforeMs w →
      findLatestSnapshotBefore entries beforeMs = some (some (w.tsMs, w.payload)) := by
    intro w hw
    obtain ⟨hlast, hshort⟩ := h w hw
    rcases hspec with ⟨-, hlate⟩ | ⟨v, ⟨hv, hle⟩, hmax, hfind⟩
    · exact absurd hw.1.2 (hlate w hlast)
    · have hts : v.tsMs = w.tsMs :=
        Int64.le_antisymm (hw.2 v hv.mem hle) (hmax w hlast hw.1.2)
      obtain rfl := List.inj_on_of_nodup_map hdistinct hv.mem hw.1.1 hts
      rwa [Nat.mod_eq_of_lt hshort, List.take_length] at hfind
  refine ⟨hnewest, ?_, fun hlate => ?_⟩
  · intro hnone w hw hle
    obtain ⟨m, hm⟩ := exists_latest ⟨w, hw, hle⟩
    rw [hnewest m hm] at hnone
    cases hnone
  · rcases hspec with ⟨hnone, -⟩ | ⟨v, ⟨hv, hle⟩, -, -⟩
    · exact hnone
    · exact absurd hle (hlate v hv.mem)

/-- **Main theorem.** The search finds the newest of the snapshots that were written exactly
    when it is the last one of its second, and shorter than `2^32` bytes. -/
theorem snapshot_lawful_iff (beforeMs : Int64) :
    Lawful format writes beforeMs ↔ Kept writes beforeMs :=
  ⟨Lawful.kept hformat hstem hrange hdistinct, Kept.lawful hformat hstem hrange hdistinct⟩

end Main

/-! ## Two snapshots of one second -/

/-- What chrono prints for two seconds, and one text for each other second. -/
def sampleFormat (s : ℤ) : List Char :=
  if s = 1700000000 then "2023-11-14-22-13-20".toList
  else if s = 1700000001 then "2023-11-14-22-13-21".toList
  else List.replicate (2 * s.natAbs + (if s < 0 then 1 else 0) + 20) '0'

theorem length_sampleFormat (s : ℤ) :
    (sampleFormat s).length = if s = 1700000000 ∨ s = 1700000001 then 19
      else 2 * s.natAbs + (if s < 0 then 1 else 0) + 20 := by
  rw [sampleFormat]
  by_cases h₀ : s = 1700000000
  · rw [if_pos h₀, if_pos (Or.inl h₀)]
    decide
  · by_cases h₁ : s = 1700000001
    · rw [if_neg h₀, if_pos h₁, if_pos (Or.inr h₁)]
      decide
    · rw [if_neg h₀, if_neg h₁, if_neg (not_or.mpr ⟨h₀, h₁⟩), List.length_replicate]

theorem sampleFormat_injective : Function.Injective sampleFormat := by
  intro a b hab
  have hlength := congrArg List.length hab
  rw [length_sampleFormat, length_sampleFormat] at hlength
  by_cases ha : a = 1700000000 ∨ a = 1700000001
  · by_cases hb : b = 1700000000 ∨ b = 1700000001
    · rcases ha with rfl | rfl <;> rcases hb with rfl | rfl
      · rfl
      · exact absurd hab (by decide)
      · exact absurd hab (by decide)
      · rfl
    · rw [if_pos ha, if_neg hb] at hlength
      omega
  · rw [if_neg ha] at hlength
    split_ifs at hlength <;> omega

theorem sampleFormat_ne_nil (s : ℤ) : sampleFormat s ≠ [] := by
  refine List.ne_nil_of_length_pos ?_
  rw [length_sampleFormat]
  split_ifs <;> omega

/-- Two snapshots of one second. -/
def sameSecond : List Write :=
  [⟨1700000000, 1700000000000, toLe 1 1⟩, ⟨1700000000, 1700000000500, toLe 1 2⟩]

/-- Two snapshots of two seconds. -/
def twoSeconds : List Write :=
  [⟨1700000000, 1700000000000, toLe 1 1⟩, ⟨1700000001, 1700000001000, toLe 1 2⟩]

theorem snapshot_lawful_iff_two_seconds :
    Lawful sampleFormat twoSeconds 1700000000200 ↔ Kept twoSeconds 1700000000200 :=
  snapshot_lawful_iff sampleFormat_injective.injOn sampleFormat_ne_nil (by decide) (by decide) _

/-- The second snapshot of a second replaces the first, and nothing is left to find. -/
theorem not_lawful_of_same_second : ¬ Lawful sampleFormat sameSecond 1700000000200 := by
  intro h
  have hkept := h.kept sampleFormat_injective.injOn sampleFormat_ne_nil (by decide) (by decide)
  obtain ⟨⟨pre, post, hsplit, hpost⟩, -⟩ :=
    hkept ⟨1700000000, 1700000000000, toLe 1 1⟩ (by constructor <;> decide)
  have hfirst : pre = [] := by
    rcases pre with _ | ⟨v, pre⟩
    · rfl
    · have htail := (List.cons.inj hsplit).2
      have hmem : (⟨1700000000, 1700000000000, toLe 1 1⟩ : Write) ∈
          [(⟨1700000000, 1700000000500, toLe 1 2⟩ : Write)] := htail ▸ by simp
      exact absurd hmem (by decide)
  subst hfirst
  obtain rfl := (List.cons.inj hsplit).2
  exact hpost _ (List.mem_singleton_self _) (by decide)

end Snapshot

end Digdigdig3.Storage
