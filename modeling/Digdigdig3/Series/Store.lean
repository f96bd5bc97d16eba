import Digdigdig3.Series.DataPoint
import Digdigdig3.Lib.AppendFile

/-!
# `DiskStore`: the day files of one series

`DiskStore` (`crates/digdigdig3-station/src/series/store.rs`) appends records of fixed
size to a `.dat` file, an index entry to `.idx` now and then, and variable-length bytes
to a `.blob` file, each through a buffer of its own. The model is one UTC day of one
store; the files of earlier days are read-only.

Results:
* `decodeChunk_append`: more blob bytes do not change what a complete record decodes to.
* `readDayTail_of_chunks`: what is read from a `.dat` file of whole records.
-/

namespace Digdigdig3.Series

/-- The `.dat` and `.blob` files of one day, the second where there is one. -/
structure DayFiles where
  dat : Bytes
  blob : Option Bytes

/-- `DiskStore` (lines 26–42) within one day. `older` are the files of the earlier days of
    the series directory, newest first. -/
structure DiskStore where
  dat : AppendFile
  idx : AppendFile
  blob : Option AppendFile
  blobPos : ℕ
  records : ℕ
  fileOffset : ℕ
  idxEvery : ℕ
  older : List DayFiles

/-- `MAX_TAIL_DAYS` (line 14). -/
def maxTailDays : ℕ := 14

namespace DiskStore

variable {P : Type} (T : DataPoint P)

/-- `with_idx_every` (lines 67–117), `open_pair` and `open_blob` (lines 500–517): open the
    files for appending and continue at their lengths. -/
def withIdxEvery (dat idx : AppendFile) (blob : Option AppendFile) (idxEvery : ℕ)
    (older : List DayFiles) : DiskStore :=
  let blob := T.blobPointerOffset.map fun _ => blob.getD .empty
  { dat := dat, idx := idx, blob := blob,
    blobPos := (blob.map fun b => b.bytes.length).getD 0,
    records := 0, fileOffset := dat.bytes.length, idxEvery := max idxEvery 1, older := older }

/-- The store in a directory without files. -/
def create (idxEvery : ℕ) : DiskStore := withIdxEvery T .empty .empty none idxEvery []

/-- The header of `point`, the `.blob` file and `blob_pos` after the blob bytes have been
    written (lines 137–149). -/
def header (s : DiskStore) (point : P) : Bytes × Option AppendFile × ℕ :=
  let buf := T.encode point
  match s.blob, T.blobPointerOffset with
  | some blob, some tailOff =>
    match T.encodeBlob point with
    | some blobBytes =>
      (pointed buf tailOff s.blobPos blobBytes.length, some (blob.write blobBytes),
        s.blobPos + blobBytes.length)
    | none => (buf, s.blob, s.blobPos)
  | _, _ => (buf, s.blob, s.blobPos)

/-- `append` (lines 134–163) on the current day. -/
def append (s : DiskStore) (point : P) : DiskStore :=
  let (buf, blob, blobPos) := s.header T point
  { s with
    dat := s.dat.write buf
    idx :=
      if s.records % s.idxEvery = 0 then
        s.idx.write (i64ToLe (T.timestampMs point) ++ toLe 8 s.fileOffset)
      else s.idx
    blob := blob
    blobPos := blobPos
    records := (s.records + 1) % 2 ^ 32
    fileOffset := s.fileOffset + T.recordSize }

/-- `flush_sync` (lines 180–187). -/
def flushSync (s : DiskStore) : DiskStore :=
  { s with dat := s.dat.flush, idx := s.idx.flush, blob := s.blob.map AppendFile.flush }

/-- A crash that leaves `nDat`, `nIdx` and `nBlob` bytes of the files, and the next open. -/
def crash (s : DiskStore) (nDat nIdx nBlob : ℕ) : DiskStore :=
  withIdxEvery T (s.dat.crash nDat) (s.idx.crash nIdx) (s.blob.map fun b => b.crash nBlob)
    s.idxEvery s.older

/-! ## Reading -/

/-- The header has no blob bytes, or its range passes the bounds test of `read_day_tail`
    (lines 468–473). -/
def Complete (blob : Option Bytes) (chunk : Bytes) : Prop :=
  match T.blobPointerOffset, blob with
  | some tailOff, some bf =>
    blobLen chunk tailOff = 0 ∨
      (blobOff chunk tailOff + blobLen chunk tailOff < 2 ^ 64 ∧
        blobOff chunk tailOff + blobLen chunk tailOff ≤ bf.length)
  | _, _ => True

instance (blob : Option Bytes) (chunk : Bytes) : Decidable (Complete T blob chunk) := by
  unfold Complete
  split <;> infer_instance

/-- The body of the reading loop of `read_day_tail` (lines 457–492). -/
def decodeChunk (blob : Option Bytes) (chunk : Bytes) : Option P :=
  match T.blobPointerOffset, blob with
  | some tailOff, some bf =>
    let off := blobOff chunk tailOff
    let len := blobLen chunk tailOff
    if len = 0 then T.decodeBlob chunk []
    else if 2 ^ 64 ≤ off + len ∨ bf.length < off + len then none
    else T.decodeBlob chunk (slice bf off len)
  | _, _ => T.decode chunk

/-- `read_day_tail` (lines 423–498) on the files of one day. -/
def readDayTail (files : DayFiles) (limit : ℕ) : List P :=
  let total := files.dat.length
  if total < T.recordSize then []
  else
    let maxRecords := total / T.recordSize
    let take := min limit maxRecords
    let offset := total - take * T.recordSize
    let buf := slice files.dat offset (take * T.recordSize)
    (chunksExact T.recordSize take buf).filterMap (decodeChunk T files.blob)

/-- The loop of `read_tail` over the earlier days (lines 234–246), `days` more days at
    most: the non-empty blocks, newest day first. -/
def olderBlocks : ℕ → ℕ → List DayFiles → List (List P)
  | 0, _, _ => []
  | _, _, [] => []
  | days + 1, remaining, day :: rest =>
    if remaining = 0 then []
    else
      let block := readDayTail T day remaining
      if block.isEmpty then olderBlocks days remaining rest
      else block :: olderBlocks days (remaining - block.length) rest

/-- The files of the current day. -/
def files (s : DiskStore) : DayFiles :=
  { dat := s.dat.bytes, blob := s.blob.map AppendFile.bytes }

/-- `read_tail` (lines 212–261). -/
def readTail (s : DiskStore) (limit : ℕ) : List P :=
  if limit = 0 then []
  else
    let current := readDayTail T s.files limit
    if limit ≤ current.length then current
    else
      let blocks := olderBlocks T (maxTailDays - 1) (limit - current.length) s.older
      blocks.reverse.flatten ++ current

/-! ## What a record decodes to -/

/-- Bytes behind a complete record's blob range do not matter. -/
theorem decodeChunk_append {bf : Bytes} {chunk : Bytes} (h : Complete T (some bf) chunk)
    (x : Bytes) : decodeChunk T (some (bf ++ x)) chunk = decodeChunk T (some bf) chunk := by
  unfold Complete at h
  unfold decodeChunk
  cases hoff : T.blobPointerOffset with
  | none => rfl
  | some tailOff =>
    rw [hoff] at h
    simp only at h ⊢
    rcases h with hzero | ⟨hlt, hle⟩
    · rw [if_pos hzero, if_pos hzero]
    · split_ifs with h1 h2 h3 h3
      · rfl
      · rfl
      · rw [List.length_append] at h2
        omega
      · omega
      · rw [slice_append_left hle]

theorem Complete.append {bf : Bytes} {chunk : Bytes} (h : Complete T (some bf) chunk)
    (x : Bytes) : Complete T (some (bf ++ x)) chunk := by
  unfold Complete at h ⊢
  cases hoff : T.blobPointerOffset with
  | none => trivial
  | some tailOff =>
    rw [hoff] at h
    simp only [List.length_append] at h ⊢
    rcases h with hzero | ⟨hlt, hle⟩
    · exact .inl hzero
    · exact .inr ⟨hlt, by omega⟩

/-- A record whose blob bytes are missing is skipped. -/
theorem decodeChunk_of_not_complete {blob : Option Bytes} {chunk : Bytes}
    (h : ¬ Complete T blob chunk) : decodeChunk T blob chunk = none := by
  unfold Complete at h
  unfold decodeChunk
  split at h
  · next tailOff bf hoff =>
    push Not at h
    obtain ⟨hzero, hend⟩ := h
    simp only
    rw [if_neg hzero, if_pos]
    by_cases hlt : blobOff chunk tailOff + blobLen chunk tailOff < 2 ^ 64
    · exact .inr (hend hlt)
    · exact .inl (not_lt.mp hlt)
  · exact absurd trivial h

/-- A `.dat` file of whole records, with less than a record behind the last, is read as
    the last `limit` of its records. -/
theorem readDayTail_of_chunks {chunks : List Bytes} (blob : Option Bytes)
    (hsize : ∀ c ∈ chunks, c.length = T.recordSize) (limit : ℕ) :
    readDayTail T { dat := chunks.flatten, blob := blob } limit =
      (chunks.drop (chunks.length - limit)).filterMap (decodeChunk T blob) := by
  have hpos := T.recordSize_pos
  have hlen := length_flatten_of_size hsize
  unfold readDayTail
  simp only [hlen]
  rw [Nat.mul_div_cancel _ hpos]
  by_cases hempty : chunks = []
  · subst hempty
    simp [hpos.ne']
  have hone : 0 < chunks.length := List.length_pos_iff.mpr hempty
  have hle : T.recordSize ≤ chunks.length * T.recordSize := Nat.le_mul_of_pos_left _ hone
  rw [if_neg (not_lt.mpr hle), ← Nat.sub_mul, slice, drop_flatten hsize]
  congr 1
  have hdrop : chunks.length - min limit chunks.length = chunks.length - limit := by omega
  have hcount : (chunks.drop (chunks.length - limit)).length = min limit chunks.length := by
    rw [List.length_drop]
    omega
  have hsize' : ∀ c ∈ chunks.drop (chunks.length - limit), c.length = T.recordSize :=
    fun c hc => hsize c (List.mem_of_mem_drop hc)
  rw [hdrop, List.take_of_length_le (by rw [length_flatten_of_size hsize', hcount]), ← hcount]
  have hchunks := chunksExact_flatten hsize' []
  rwa [List.append_nil] at hchunks

end DiskStore

end Digdigdig3.Series
