import Digdigdig3.Storage.Rotation
import Digdigdig3.Lib.Buckets
import Mathlib.Data.List.AList

/-!
# `StorageManager`: day files written by wall clock, read by timestamp

`StorageManager` (`crates/digdigdig3-station/src/storage/manager.rs`) keeps one
`RotatingWriter` per stream key. A record goes to the file of the wall-clock day on
which it is appended; `read_range` opens the files of the days of the queried timestamps
and keeps the records whose own timestamp is in range.

Which directory a key names is up to the file system: `resolve` stands for the joins of
`stream_dir` below `config.root`.

Results:
* `content_run`: every day file holds, once flushed, the records appended on that day.
* `readRange_perm`: what `read_range` returns.
* `read_range_complete_iff`: the runs after which a range is read back completely.
-/

namespace Digdigdig3.Storage

/-- `StreamKey` (lines 45–51). -/
structure StreamKey where
  exchange : String
  account : String
  symbol : String
  streamKind : String
  deriving DecidableEq

/-- `StorageManager` (lines 74–77). A directory that was never created is an empty one,
    which `read_range` reads alike. -/
structure StorageManager (Dir : Type) where
  dirs : Dir → StreamDir
  openWriters : AList fun _ : StreamKey => RotatingWriter

/-- `MAX_SAFE_MS` (line 199). -/
def maxSafeMs : ℤ := 253402300799999

/-- `ms_to_date` (lines 201–205): the UTC day of a timestamp, `None` outside the range of
    `chrono`'s dates. -/
def msToDate (tsMs : ℤ) : Option ℤ :=
  if -8334601228800000 ≤ tsMs ∧ tsMs ≤ 8210266876799999 then some (tsMs / 86400000) else none

namespace StorageManager

variable {Dir : Type} [DecidableEq Dir] (resolve : List String → Dir)

/-- `StorageManager::new` on a fresh root (lines 81–87). -/
def new : StorageManager Dir := { dirs := fun _ => ∅, openWriters := ∅ }

/-- `stream_dir` (lines 163–170). -/
def streamDir (key : StreamKey) : Dir :=
  resolve [key.exchange, key.account, key.symbol, key.streamKind]

/-- The state after the writer of `key` has become `s.1` and its directory `s.2`. -/
def store (m : StorageManager Dir) (key : StreamKey) (s : RotatingWriter × StreamDir) :
    StorageManager Dir :=
  { dirs := Function.update m.dirs (streamDir resolve key) s.2,
    openWriters := m.openWriters.insert key s.1 }

/-- `get_or_open` (lines 179–191), on the day `today`. -/
def getOrOpen (m : StorageManager Dir) (key : StreamKey) (today : ℤ) :
    RotatingWriter × StreamDir :=
  let files := m.dirs (streamDir resolve key)
  match m.openWriters.lookup key with
  | some w => (w, files)
  | none => RotatingWriter.new files today

/-- `append` (lines 92–96). `get_or_open` and `RotatingWriter::append` each look at the
    clock, so midnight may pass between them: `openDay` and `day` are what they see. -/
def append (m : StorageManager Dir) (key : StreamKey) (openDay day : ℤ) (r : EventRecord) :
    StorageManager Dir :=
  let (w, files) := m.getOrOpen resolve key openDay
  m.store resolve key (w.append files day r)

/-- Do something with the writer of `key`, if there is one. -/
def withWriter (m : StorageManager Dir) (key : StreamKey)
    (f : RotatingWriter → StreamDir → RotatingWriter × StreamDir) : StorageManager Dir :=
  match m.openWriters.lookup key with
  | none => m
  | some w => m.store resolve key (f w (m.dirs (streamDir resolve key)))

/-- `flush_all` (lines 99–105). -/
def flushAll (m : StorageManager Dir) : StorageManager Dir :=
  m.openWriters.keys.foldl (fun m key => m.withWriter resolve key RotatingWriter.flush) m

/-- `read_range` (lines 112–153). The listing of the directory is sorted by date. -/
def readRange (m : StorageManager Dir) (key : StreamKey) (fromMs toMs : ℤ) :
    Except String (List EventRecord) :=
  let files := m.dirs (streamDir resolve key)
  let fromMs := max fromMs 0
  let toMs := max 0 (min toMs maxSafeMs)
  if toMs < fromMs then .ok []
  else
    match msToDate fromMs with
    | none => .error "bad from_ms timestamp"
    | some fromDay =>
      match msToDate toMs with
      | none => .error "bad to_ms timestamp"
      | some toDay =>
        .ok ((files.toList.filter fun file => decide (fromDay ≤ file.1 ∧ file.1 ≤ toDay)).flatMap
          fun file => readFileRange file.2 fromMs toMs)

/-! ## Runs -/

/-- A call on the manager, or a `BufWriter` handing bytes to its file. -/
inductive Call where
  | append (key : StreamKey) (openDay day : ℤ) (r : EventRecord)
  | spill (key : StreamKey) (n : ℕ)
  | flushAll

def call (m : StorageManager Dir) : Call → StorageManager Dir
  | .append key openDay day r => m.append resolve key openDay day r
  | .spill key n => m.withWriter resolve key fun w files => w.spill files n
  | .flushAll => m.flushAll resolve

def run (calls : List Call) : StorageManager Dir := calls.foldl (call resolve) new

/-- The records appended under `key`, each with the wall-clock day of its append. -/
def appended (key : StreamKey) (calls : List Call) : List (ℤ × EventRecord) :=
  calls.filterMap fun c =>
    match c with
    | .append key' _ day r => if key' = key then some (day, r) else none
    | _ => none

/-- The keys that are appended to. -/
def appendedKeys (calls : List Call) : List StreamKey :=
  calls.filterMap fun c =>
    match c with
    | .append key _ _ _ => some key
    | _ => none

/-- The file of `key` and `day` as it will be once the writers are flushed. -/
def content (m : StorageManager Dir) (key : StreamKey) (day : ℤ) : Bytes :=
  match m.openWriters.lookup key with
  | none => (m.dirs (streamDir resolve key)).bytes day
  | some w => w.content (m.dirs (streamDir resolve key)) day

variable {m : StorageManager Dir} {key key' : StreamKey} (s : RotatingWriter × StreamDir)

theorem content_store_self (day : ℤ) :
    (m.store resolve key s).content resolve key day = s.1.content s.2 day := by
  simp only [content, store, AList.lookup_insert, Function.update_self]

/-- Another key with another directory sees nothing of a write. -/
theorem content_store_of_ne (hkey : key' ≠ key)
    (hdir : streamDir resolve key' ≠ streamDir resolve key) (day : ℤ) :
    (m.store resolve key' s).content resolve key day = m.content resolve key day := by
  simp only [content, store, AList.lookup_insert_ne (Ne.symm hkey),
    Function.update_of_ne (Ne.symm hdir)]

omit [DecidableEq Dir] in
theorem content_getOrOpen (today day : ℤ) :
    (m.getOrOpen resolve key today).1.content (m.getOrOpen resolve key today).2 day =
      m.content resolve key day := by
  unfold getOrOpen content
  cases m.openWriters.lookup key with
  | none => exact RotatingWriter.content_new _ today day
  | some w => rfl

theorem content_append_self (openDay day day' : ℤ) (r : EventRecord) :
    (m.append resolve key openDay day r).content resolve key day' =
      m.content resolve key day' ++ if day = day' then r.encode else [] := by
  rw [append, content_store_self, RotatingWriter.content_append, content_getOrOpen]

/-- Writer operations that leave the content alone do so through the manager. -/
theorem content_withWriter
    {f : RotatingWriter → StreamDir → RotatingWriter × StreamDir}
    (hf : ∀ w files day, (f w files).1.content (f w files).2 day = w.content files day)
    (hsep : key' ∈ m.openWriters → streamDir resolve key' = streamDir resolve key → key' = key)
    (day : ℤ) :
    (m.withWriter resolve key' f).content resolve key day = m.content resolve key day := by
  unfold withWriter
  cases h : m.openWriters.lookup key' with
  | none => rfl
  | some w =>
    have hmem : key' ∈ m.openWriters := by
      rw [← AList.lookup_isSome, h]
      rfl
    by_cases hkey : key' = key
    · subst hkey
      simp only
      rw [content_store_self, hf, content, h]
    · exact content_store_of_ne resolve _ hkey (fun hdir => hkey (hsep hmem hdir)) day

theorem mem_withWriter {k : StreamKey}
    {f : RotatingWriter → StreamDir → RotatingWriter × StreamDir} :
    k ∈ (m.withWriter resolve key f).openWriters ↔ k ∈ m.openWriters := by
  unfold withWriter
  cases h : m.openWriters.lookup key with
  | none => rfl
  | some w =>
    have hmem : key ∈ m.openWriters := by
      rw [← AList.lookup_isSome, h]
      rfl
    simp only [store, AList.mem_insert]
    constructor
    · rintro (rfl | hk)
      · exact hmem
      · exact hk
    · exact .inr

/-! ## Flushing -/

/-- The writer of `key` has nothing buffered. -/
def Flushed (m : StorageManager Dir) (key : StreamKey) : Prop :=
  ∀ w, m.openWriters.lookup key = some w → w.buf = []

omit [DecidableEq Dir] in
theorem bytes_of_flushed (h : m.Flushed key) (day : ℤ) :
    (m.dirs (streamDir resolve key)).bytes day = m.content resolve key day := by
  unfold content
  cases hw : m.openWriters.lookup key with
  | none => rfl
  | some w =>
    have hnil : w.pending day = [] := by
      rw [RotatingWriter.pending, h w hw, ite_self]
    simp only [RotatingWriter.content, hnil, List.append_nil]

theorem flushed_withWriter_flush (h : key' = key ∨ m.Flushed key) :
    (m.withWriter resolve key' RotatingWriter.flush).Flushed key := by
  intro w hw
  unfold withWriter at hw
  cases hk : m.openWriters.lookup key' with
  | none =>
    rw [hk] at hw
    rcases h with rfl | h
    · rw [hk] at hw
      cases hw
    · exact h w hw
  | some v =>
    rw [hk] at hw
    by_cases hkey : key = key'
    · subst hkey
      simp only [store, AList.lookup_insert, Option.some.injEq] at hw
      subst hw
      rfl
    · simp only [store, AList.lookup_insert_ne hkey] at hw
      rcases h with rfl | h
      · exact absurd rfl hkey
      · exact h w hw

/-- What a run needs of the file system to tell `key` from the keys it has open. -/
def Separated (m : StorageManager Dir) (key : StreamKey) : Prop :=
  ∀ k ∈ m.openWriters, streamDir resolve k = streamDir resolve key → k = key

theorem separated_withWriter {f : RotatingWriter → StreamDir → RotatingWriter × StreamDir}
    (key' : StreamKey) (h : m.Separated resolve key) :
    (m.withWriter resolve key' f).Separated resolve key := by
  intro k hk
  rw [mem_withWriter] at hk
  exact h k hk

theorem flushed_flushKeys (ks : List StreamKey) (h : key ∈ ks ∨ m.Flushed key) :
    (ks.foldl (fun m key => m.withWriter resolve key RotatingWriter.flush) m).Flushed key := by
  induction ks generalizing m with
  | nil =>
    rcases h with h | h
    · cases h
    · exact h
  | cons k ks ih =>
    apply ih
    rw [List.mem_cons] at h
    rcases h with (rfl | hk) | h
    · exact .inr (flushed_withWriter_flush resolve (.inl rfl))
    · exact .inl hk
    · exact .inr (flushed_withWriter_flush resolve (.inr h))

/-- After `flush_all` no writer has anything buffered. -/
theorem flushed_flushAll (m : StorageManager Dir) (key : StreamKey) :
    (m.flushAll resolve).Flushed key := by
  apply flushed_flushKeys
  by_cases hmem : key ∈ m.openWriters
  · exact .inl (AList.mem_keys.mp hmem)
  · right
    intro w hw
    rw [AList.lookup_eq_none.mpr hmem] at hw
    cases hw

theorem flushKeys_spec (ks : List StreamKey) (hsep : m.Separated resolve key) :
    let m' := ks.foldl (fun m key => m.withWriter resolve key RotatingWriter.flush) m
    m'.Separated resolve key ∧ ∀ day, m'.content resolve key day = m.content resolve key day := by
  induction ks generalizing m with
  | nil => exact ⟨hsep, fun _ => rfl⟩
  | cons k ks ih =>
    obtain ⟨hsep', hcontent⟩ := ih (separated_withWriter resolve k hsep)
    refine ⟨hsep', ?_⟩
    intro day
    rw [List.foldl_cons, hcontent]
    exact content_withWriter resolve RotatingWriter.content_flush (hsep k) day

theorem content_flushAll (hsep : m.Separated resolve key) (day : ℤ) :
    (m.flushAll resolve).content resolve key day = m.content resolve key day :=
  (flushKeys_spec resolve m.openWriters.keys hsep).2 day

/-- After `flush_all` the files hold everything. -/
theorem bytes_flushAll (hsep : m.Separated resolve key) (day : ℤ) :
    ((m.flushAll resolve).dirs (streamDir resolve key)).bytes day = m.content resolve key day := by
  rw [← content_flushAll resolve hsep day]
  exact bytes_of_flushed resolve (flushed_flushAll resolve m key) day

/-! ## What a call leaves alone -/

section

variable {f : RotatingWriter → StreamDir → RotatingWriter × StreamDir}

theorem lookup_withWriter_of_ne (h : key ≠ key') :
    (m.withWriter resolve key' f).openWriters.lookup key = m.openWriters.lookup key := by
  unfold withWriter
  cases m.openWriters.lookup key' with
  | none => rfl
  | some w => exact AList.lookup_insert_ne h

theorem dirs_withWriter_of_ne {d : Dir} (h : streamDir resolve key' ≠ d) :
    (m.withWriter resolve key' f).dirs d = m.dirs d := by
  unfold withWriter
  cases m.openWriters.lookup key' with
  | none => rfl
  | some w => exact Function.update_of_ne h.symm _ _

theorem lookup_append_of_ne (h : key ≠ key') (openDay day : ℤ) (r : EventRecord) :
    (m.append resolve key' openDay day r).openWriters.lookup key = m.openWriters.lookup key :=
  AList.lookup_insert_ne h

theorem dirs_append_of_ne {d : Dir} (h : streamDir resolve key' ≠ d) (openDay day : ℤ)
    (r : EventRecord) : (m.append resolve key' openDay day r).dirs d = m.dirs d :=
  Function.update_of_ne h.symm _ _

/-- Flushing an empty buffer writes nothing. -/
theorem bytes_withWriter_flush {d : Dir} (h : streamDir resolve key' = d → m.Flushed key')
    (day : ℤ) : ((m.withWriter resolve key' RotatingWriter.flush).dirs d).bytes day =
      (m.dirs d).bytes day := by
  by_cases hdir : streamDir resolve key' = d
  · subst hdir
    unfold withWriter
    cases hw : m.openWriters.lookup key' with
    | none => rfl
    | some w =>
      simp only [store, Function.update_self, RotatingWriter.flush, h rfl w hw]
      exact RotatingWriter.bytes_append_nil _ _ _
  · rw [dirs_withWriter_of_ne resolve hdir]

/-- `flush_all` leaves a directory alone whose writers have nothing buffered. -/
theorem bytes_flushAll_of_flushed {d : Dir}
    (h : ∀ k, streamDir resolve k = d → m.Flushed k) (day : ℤ) :
    ((m.flushAll resolve).dirs d).bytes day = (m.dirs d).bytes day := by
  unfold flushAll
  generalize m.openWriters.keys = ks
  induction ks generalizing m with
  | nil => rfl
  | cons k ks ih =>
    rw [List.foldl_cons, ih fun k' hk' => flushed_withWriter_flush resolve (.inr (h k' hk'))]
    exact bytes_withWriter_flush resolve (h k) day

end

/-! ## What the files hold -/

theorem appended_concat (calls : List Call) (c : Call) :
    appended key (calls ++ [c]) = appended key calls ++ appended key [c] :=
  List.filterMap_append

theorem appendedKeys_concat (calls : List Call) (c : Call) :
    appendedKeys (calls ++ [c]) = appendedKeys calls ++ appendedKeys [c] :=
  List.filterMap_append

theorem run_concat (calls : List Call) (c : Call) :
    run resolve (calls ++ [c]) = (run resolve calls).call resolve c := by
  rw [run, List.foldl_append]
  rfl

theorem mem_flushAll {k : StreamKey} :
    k ∈ (m.flushAll resolve).openWriters ↔ k ∈ m.openWriters := by
  unfold flushAll
  generalize m.openWriters.keys = ks
  induction ks generalizing m with
  | nil => rfl
  | cons k' ks ih => rw [List.foldl_cons, ih, mem_withWriter]

/-- Only keys that are appended to have a writer. -/
theorem mem_appendedKeys_of_mem (calls : List Call) :
    ∀ k ∈ (run resolve calls).openWriters, k ∈ appendedKeys calls := by
  induction calls using List.reverseRecOn with
  | nil =>
    intro k hk
    exact absurd hk (AList.notMem_empty k)
  | append_singleton calls c ih =>
    intro k hk
    rw [run_concat] at hk
    rw [appendedKeys_concat, List.mem_append]
    cases c with
    | append key' openDay day r =>
      simp only [call, append, store, AList.mem_insert] at hk
      rcases hk with rfl | hk
      · exact .inr List.mem_cons_self
      · exact .inl (ih k hk)
    | spill key' n => exact .inl (ih k ((mem_withWriter resolve).mp hk))
    | flushAll => exact .inl (ih k ((mem_flushAll resolve).mp hk))

/-- No key of the run shares the directory of `key`. -/
def OwnDir (calls : List Call) (key : StreamKey) : Prop :=
  ∀ k ∈ appendedKeys calls, streamDir resolve k = streamDir resolve key → k = key

theorem separated_run {calls : List Call} (hown : OwnDir resolve calls key) :
    (run resolve calls).Separated resolve key := by
  intro k hk
  exact hown k (mem_appendedKeys_of_mem resolve calls k hk)

/-- **Run lemma.** Every day file of a key with a directory of its own holds, once flushed,
    the records appended under the key on that day. -/
theorem content_run {calls : List Call} (hown : OwnDir resolve calls key) (day : ℤ) :
    (run resolve calls).content resolve key day =
      encodeRecords (bucket (appended key calls) day) := by
  induction calls using List.reverseRecOn with
  | nil => rfl
  | append_singleton calls c ih =>
    have hown' : OwnDir resolve calls key := by
      intro k hk
      apply hown k
      rw [appendedKeys_concat]
      exact List.mem_append_left _ hk
    have hsep := separated_run resolve hown'
    rw [run_concat, appended_concat, bucket_append, encodeRecords,
      recordFraming.encodeAll_append, ← encodeRecords, ← ih hown']
    cases c with
    | append key' openDay day' r =>
      by_cases hkey : key' = key
      · subst hkey
        rw [call, content_append_self]
        simp only [appended, List.filterMap_cons, List.filterMap_nil, if_true, bucket_singleton]
        by_cases hday : day' = day
        · simp [hday, recordFraming]
        · simp [hday]
      · have hdir : streamDir resolve key' ≠ streamDir resolve key := by
          intro hdir
          apply hkey
          apply hown key' _ hdir
          rw [appendedKeys_concat]
          exact List.mem_append_right _ List.mem_cons_self
        rw [call, append, content_store_of_ne resolve _ hkey hdir]
        simp [appended, hkey]
    | spill key' n =>
      rw [call, content_withWriter resolve (fun w files => w.content_spill files n) (hsep key')]
      simp [appended]
    | flushAll =>
      rw [call, content_flushAll resolve hsep]
      simp [appended]

/-! ## What a range read returns -/

/-- The UTC day of a timestamp. -/
def dayOf (tsMs : ℤ) : ℤ := tsMs / 86400000

theorem msToDate_of_safe {tsMs : ℤ} (h0 : 0 ≤ tsMs) (h1 : tsMs ≤ maxSafeMs) :
    msToDate tsMs = some (dayOf tsMs) := by
  unfold maxSafeMs at h1
  rw [msToDate, if_pos (by omega)]
  rfl

/-- The files that a range read opens, oldest first. -/
def filesBetween (files : StreamDir) (fromDay toDay : ℤ) : List (ℤ × Bytes) :=
  files.toList.filter fun file => decide (fromDay ≤ file.1 ∧ file.1 ≤ toDay)

omit [DecidableEq Dir] in
theorem readRange_of_safe (m : StorageManager Dir) (key : StreamKey) {fromMs toMs : ℤ}
    (h0 : 0 ≤ fromMs) (h1 : fromMs ≤ toMs) (h2 : toMs ≤ maxSafeMs) :
    m.readRange resolve key fromMs toMs =
      .ok ((filesBetween (m.dirs (streamDir resolve key)) (dayOf fromMs) (dayOf toMs)).flatMap
        fun file => readFileRange file.2 fromMs toMs) := by
  unfold readRange
  simp only
  rw [max_eq_left h0, min_eq_left h2, max_eq_right (h0.trans h1), if_neg (not_lt.mpr h1),
    msToDate_of_safe h0 (h1.trans h2), msToDate_of_safe (h0.trans h1) h2]
  rfl

theorem mem_filesBetween {files : StreamDir} {fromDay toDay day : ℤ} {bs : Bytes} :
    (day, bs) ∈ filesBetween files fromDay toDay ↔
      files[day]? = some bs ∧ fromDay ≤ day ∧ day ≤ toDay := by
  rw [filesBetween, List.mem_filter, Std.ExtTreeMap.mem_toList_iff_getElem?_eq_some,
    decide_eq_true_eq]

/-- The files of a listing are in the order of their days. -/
theorem sorted_filesBetween (files : StreamDir) (fromDay toDay : ℤ) :
    ((filesBetween files fromDay toDay).map Prod.fst).Pairwise (· < ·) := by
  have hlt : (files.toList.map Prod.fst).Pairwise fun a b => a < b := by
    rw [List.pairwise_map]
    refine (Std.ExtTreeMap.ordered_keys_toList).imp ?_
    intro a b h
    exact compare_lt_iff_lt.mp h
  have hsub : ((filesBetween files fromDay toDay).map Prod.fst).Sublist
      (files.toList.map Prod.fst) := List.filter_sublist.map Prod.fst
  exact hlt.sublist hsub

theorem nodup_filesBetween (files : StreamDir) (fromDay toDay : ℤ) :
    ((filesBetween files fromDay toDay).map Prod.fst).Nodup :=
  (sorted_filesBetween files fromDay toDay).imp fun h => h.ne

/-- A range read returns the records in range of the days in range, in the order of the
    days. -/
theorem flatMap_filesBetween {files : StreamDir} {ws : List (ℤ × EventRecord)}
    (hfiles : ∀ day, files.bytes day = encodeRecords (bucket ws day)) (fromMs toMs : ℤ)
    (fromDay toDay : ℤ) :
    (filesBetween files fromDay toDay).flatMap (fun file => readFileRange file.2 fromMs toMs) =
      (((filesBetween files fromDay toDay).map Prod.fst).flatMap (bucket ws)).filter
        (·.inRange fromMs toMs) := by
  rw [List.filter_flatMap, List.flatMap_map]
  apply List.flatMap_congr
  rintro ⟨day, bs⟩ hmem
  have hbs : bs = encodeRecords (bucket ws day) := by
    rw [← hfiles day, StreamDir.bytes, (mem_filesBetween.mp hmem).1]
    rfl
  rw [readFileRange_eq_filter, hbs]
  exact congrArg (List.filter _) (recordFraming.readAll_encodeAll _)

/-- A record's day has a file. -/
theorem mem_days_iff {files : StreamDir} {ws : List (ℤ × EventRecord)}
    (hfiles : ∀ day, files.bytes day = encodeRecords (bucket ws day)) {w : ℤ × EventRecord}
    (hw : w ∈ ws) (fromDay toDay : ℤ) :
    w.1 ∈ (filesBetween files fromDay toDay).map Prod.fst ↔ fromDay ≤ w.1 ∧ w.1 ≤ toDay := by
  rw [List.mem_map]
  constructor
  · rintro ⟨⟨day, bs⟩, hmem, rfl⟩
    exact (mem_filesBetween.mp hmem).2
  · intro hrange
    cases hbs : files[w.1]? with
    | some bs => exact ⟨(w.1, bs), mem_filesBetween.mpr ⟨hbs, hrange⟩, rfl⟩
    | none =>
      have hnil : recordFraming.readAll (files.bytes w.1) = bucket ws w.1 := by
        rw [hfiles]
        exact recordFraming.readAll_encodeAll _
      rw [StreamDir.bytes, hbs] at hnil
      exact absurd hnil.symm (bucket_ne_nil hw)

/-- The records that a range read finds in the files of a stream. -/
def rangeRecords (files : StreamDir) (fromMs toMs : ℤ) : List EventRecord :=
  (filesBetween files (dayOf fromMs) (dayOf toMs)).flatMap fun file =>
    readFileRange file.2 fromMs toMs

theorem rangeRecords_perm {files : StreamDir} {ws : List (ℤ × EventRecord)}
    (hfiles : ∀ day, files.bytes day = encodeRecords (bucket ws day)) (fromMs toMs : ℤ) :
    (rangeRecords files fromMs toMs).Perm (((ws.filter fun w =>
      decide (dayOf fromMs ≤ w.1 ∧ w.1 ≤ dayOf toMs)).map Prod.snd).filter
        (·.inRange fromMs toMs)) := by
  rw [rangeRecords, flatMap_filesBetween hfiles]
  apply List.Perm.filter
  refine (flatMap_bucket_perm (nodup_filesBetween _ _ _) _).trans (List.Perm.of_eq ?_)
  congr 1
  apply List.filter_congr
  intro w hw
  exact decide_eq_decide.mpr (mem_days_iff hfiles hw _ _)

theorem inRange_of_mem_rangeRecords {files : StreamDir} {fromMs toMs : ℤ} {r : EventRecord}
    (h : r ∈ rangeRecords files fromMs toMs) : r.inRange fromMs toMs = true := by
  obtain ⟨file, -, hr⟩ := List.mem_flatMap.mp h
  rw [readFileRange_eq_filter] at hr
  exact (List.mem_filter.mp hr).2

/-- The files of a key with a directory of its own, after a flush. -/
theorem bytes_flushAll_run {calls : List Call} (hown : OwnDir resolve calls key) (day : ℤ) :
    (((run resolve calls).flushAll resolve).dirs (streamDir resolve key)).bytes day =
      encodeRecords (bucket (appended key calls) day) := by
  rw [bytes_flushAll resolve (separated_run resolve hown), content_run resolve hown]

/-- What a range read returns after a flush: the records in range that were appended on a
    day in range. -/
theorem readRange_perm {calls : List Call} (hown : OwnDir resolve calls key) {fromMs toMs : ℤ}
    (h0 : 0 ≤ fromMs) (h1 : fromMs ≤ toMs) (h2 : toMs ≤ maxSafeMs) :
    ∃ out, ((run resolve calls).flushAll resolve).readRange resolve key fromMs toMs = .ok out ∧
      out.Perm ((((appended key calls).filter fun w =>
        decide (dayOf fromMs ≤ w.1 ∧ w.1 ≤ dayOf toMs)).map Prod.snd).filter
          (·.inRange fromMs toMs)) :=
  ⟨_, readRange_of_safe resolve _ key h0 h1 h2,
    rangeRecords_perm (bytes_flushAll_run resolve hown) fromMs toMs⟩

/-- The records that a range read finds after it has clamped its bounds. -/
def clampedRecords (files : StreamDir) (fromMs toMs : ℤ) : List EventRecord :=
  if max 0 (min toMs maxSafeMs) < max fromMs 0 then []
  else rangeRecords files (max fromMs 0) (max 0 (min toMs maxSafeMs))

omit [DecidableEq Dir] in
/-- A range read returns no error, whatever the bounds. -/
theorem readRange_eq_ok (m : StorageManager Dir) (key : StreamKey) (fromMs toMs : ℤ) :
    m.readRange resolve key fromMs toMs =
      .ok (clampedRecords (m.dirs (streamDir resolve key)) fromMs toMs) := by
  unfold clampedRecords
  have hsafe : max 0 (min toMs maxSafeMs) ≤ maxSafeMs := max_le (by decide) (min_le_right _ _)
  by_cases h : max 0 (min toMs maxSafeMs) < max fromMs 0
  · rw [if_pos h, readRange, if_pos h]
  · have hclamp : m.readRange resolve key fromMs toMs =
        m.readRange resolve key (max fromMs 0) (max 0 (min toMs maxSafeMs)) := by
      simp only [readRange, max_eq_left (le_max_right fromMs 0), min_eq_left hsafe,
        max_eq_right (le_max_left 0 (min toMs maxSafeMs))]
    rw [if_neg h, hclamp]
    exact readRange_of_safe resolve m key (le_max_right _ _) (not_lt.mp h) hsafe

/-- A range read depends on the bytes of the files, not on which empty files exist. -/
theorem clampedRecords_congr {files files' : StreamDir}
    (h : ∀ day, files.bytes day = files'.bytes day) (fromMs toMs : ℤ) :
    clampedRecords files fromMs toMs = clampedRecords files' fromMs toMs := by
  have hdays : ∀ (g : StreamDir) (f t : ℤ), rangeRecords g f t =
      ((filesBetween g (dayOf f) (dayOf t)).map Prod.fst).flatMap fun day =>
        readFileRange (g.bytes day) f t := by
    intro g f t
    rw [List.flatMap_map]
    apply List.flatMap_congr
    rintro ⟨day, bs⟩ hmem
    rw [StreamDir.bytes, (mem_filesBetween.mp hmem).1]
    rfl
  have hexists : ∀ {g : StreamDir} {f t day : ℤ}, readFileRange (g.bytes day) f t ≠ [] →
      (day ∈ (filesBetween g (dayOf f) (dayOf t)).map Prod.fst ↔
        dayOf f ≤ day ∧ day ≤ dayOf t) := by
    intro g f t day hne
    rw [List.mem_map]
    constructor
    · rintro ⟨⟨_, bs⟩, hmem, rfl⟩
      exact (mem_filesBetween.mp hmem).2
    · intro hrange
      cases hbs : g[day]? with
      | some bs => exact ⟨(day, bs), mem_filesBetween.mpr ⟨hbs, hrange⟩, rfl⟩
      | none =>
        rw [StreamDir.bytes, hbs] at hne
        exact absurd rfl hne
  unfold clampedRecords
  split_ifs with hempty
  · rfl
  · rw [hdays, hdays]
    simp only [← h]
    apply flatMap_eq_of_sorted (sorted_filesBetween _ _ _) (sorted_filesBetween _ _ _)
    intro day hne
    rw [hexists hne, hexists (by rw [← h]; exact hne)]

/-- **Main theorem.** After any run and a final flush, a range read returns exactly the
    records in range appended under its key, when and only when each of them was appended
    on a wall-clock day between the days of the two bounds. -/
theorem read_range_complete_iff {Dir : Type} [DecidableEq Dir] (resolve : List String → Dir)
    (calls : List Call) (key : StreamKey) (fromMs toMs : ℤ)
    (hown : ∀ k ∈ appendedKeys calls, streamDir resolve k = streamDir resolve key → k = key)
    (h0 : 0 ≤ fromMs) (h1 : fromMs ≤ toMs) (h2 : toMs ≤ maxSafeMs) :
    (∃ out, ((run resolve calls).flushAll resolve).readRange resolve key fromMs toMs = .ok out ∧
      out.Perm (((appended key calls).map Prod.snd).filter (·.inRange fromMs toMs))) ↔
    ∀ w ∈ appended key calls, w.2.inRange fromMs toMs = true →
      dayOf fromMs ≤ w.1 ∧ w.1 ≤ dayOf toMs := by
  obtain ⟨out, hout, hperm⟩ := readRange_perm resolve hown h0 h1 h2
  have hiff := filter_filter_perm_iff (appended key calls) (·.inRange fromMs toMs)
    fun w => decide (dayOf fromMs ≤ w.1 ∧ w.1 ≤ dayOf toMs)
  simp only [decide_eq_true_eq] at hiff
  rw [← hiff]
  constructor
  · rintro ⟨out', hout', hperm'⟩
    rw [hout] at hout'
    cases hout'
    exact hperm.symm.trans hperm'
  · intro h
    exact ⟨out, hout, hperm.trans h⟩

/-- Two records of one day, the second appended just after midnight; a range of that day
    ends with the first. -/
theorem read_range_complete_iff_late_record :
    let key : StreamKey := ⟨"binance", "spot", "BTCUSDT", "trade"⟩
    let calls := [Call.append key 19675 19675 ⟨1700000000000, [1], by decide⟩,
      .append key 19675 19676 ⟨1700006399000, [2], by decide⟩]
    (∃ out, ((run id calls).flushAll id).readRange id key 1699999000000 1700000000000 = .ok out ∧
      out.Perm (((appended key calls).map Prod.snd).filter
        (·.inRange 1699999000000 1700000000000))) := by
  intro key calls
  apply (read_range_complete_iff id calls key 1699999000000 1700000000000 ?_ (by decide)
    (by decide) (by decide)).mpr
  · decide
  · decide

/-- The same records, and a range that reaches to the end of the day: the late record lies
    in the file of the next day, which is not opened. -/
theorem not_complete_of_late_record :
    let key : StreamKey := ⟨"binance", "spot", "BTCUSDT", "trade"⟩
    let calls := [Call.append key 19675 19675 ⟨1700000000000, [1], by decide⟩,
      .append key 19675 19676 ⟨1700006399000, [2], by decide⟩]
    ¬ ∃ out, ((run id calls).flushAll id).readRange id key 1699999000000 1700006399999 = .ok out ∧
      out.Perm (((appended key calls).map Prod.snd).filter
        (·.inRange 1699999000000 1700006399999)) := by
  rintro key calls ⟨out, hout, hperm⟩
  have hread : ((run id calls).flushAll id).readRange id key 1699999000000 1700006399999 =
      .ok [⟨1700000000000, [1], by decide⟩] := by decide
  rw [hread] at hout
  cases hout
  exact absurd hperm.length_eq (by decide)

end StorageManager

end Digdigdig3.Storage
