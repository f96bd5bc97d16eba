import Digdigdig3.Data.OrderBookPoints
import Digdigdig3.Series.Store
import Digdigdig3.Lib.Runs
import Digdigdig3.Storage.ManagerWasm

/-!
# `DiskStore` in the browser

`DiskStore` of `crates/digdigdig3-station/src/series/store_wasm.rs` keeps what `append`
encodes in three buffers, which `flush` writes one after the other to the `.dat`, `.idx` and
`.blob` files of the current day. The blob pointer of a record is `blob_pos`, which `append`
moves on, whatever becomes of the writes.

* `Intact.append`, `Intact.writeBufs`, `Intact.rotateDay`: what keeps the pointers right.
* `wasm_stores_keep_records`: the runs in which the stores keep what they claim to keep.
-/

namespace Digdigdig3.Series

open Storage (Outcome StreamDir)

/-- The wasm `DiskStore` (lines 76–102), with the files of its directory by day. -/
structure WasmStore where
  currentDay : ℤ
  datBuf : Bytes
  idxBuf : Bytes
  blobBuf : Option Bytes
  fileOffset : ℕ
  blobPos : ℕ
  records : ℕ
  idxEvery : ℕ
  dat : StreamDir
  idx : StreamDir
  blob : StreamDir

/-- The outcomes of the three writes of a flush, where it comes to them. -/
structure WriteOutcomes where
  dat : Outcome
  idx : Outcome
  blob : Outcome

/-- What a day rotation meets: its writes, whether it gets a handle of the directory, and
    whether it reads the sizes of the new files. -/
structure RotationOutcomes where
  writes : WriteOutcomes
  dirOk : Bool
  datSizeOk : Bool
  blobSizeOk : Bool

namespace WasmStore

variable {P : Type} (T : DataPoint P)

/-- `with_idx_every` (lines 118–152) on the day `day`. -/
def withIdxEvery (dat idx blob : StreamDir) (day : ℤ) (idxEvery : ℕ) : WasmStore where
  currentDay := day
  datBuf := []
  idxBuf := []
  blobBuf := T.blobPointerOffset.map fun _ => []
  fileOffset := (dat.bytes day).length
  blobPos := if T.blobPointerOffset.isSome then (blob.bytes day).length else 0
  records := 0
  idxEvery := max idxEvery 1
  dat := dat
  idx := idx
  blob := blob

/-- The record of `point`, with the pointer `off` if it has blob bytes (lines 161–178). -/
def record (point : P) (off : ℕ) : Bytes :=
  match T.blobPointerOffset, T.encodeBlob point with
  | some tailOff, some blobBytes => pointed (T.encode point) tailOff off blobBytes.length
  | _, _ => T.encode point

/-- The blob bytes of `point` that `append` buffers. -/
def blobBytes (point : P) : Bytes :=
  match T.blobPointerOffset with
  | some _ => (T.encodeBlob point).getD []
  | none => []

/-- `append` (lines 159–189). -/
def append (s : WasmStore) (point : P) : WasmStore :=
  { s with
    datBuf := s.datBuf ++ record T point s.blobPos
    idxBuf :=
      if s.records % s.idxEvery = 0 then
        s.idxBuf ++ (i64ToLe (T.timestampMs point) ++ toLe 8 s.fileOffset)
      else s.idxBuf
    blobBuf := s.blobBuf.map fun b => b ++ blobBytes T point
    blobPos := s.blobPos + (blobBytes T point).length
    records := (s.records + 1) % 2 ^ 32
    fileOffset := s.fileOffset + T.recordSize }

/-- Write a buffer to its file of `day`, unless it is empty, and clear it on success
    (lines 216–224 and the like): the file, the buffer, and whether it went on. -/
def writeBuf (file : StreamDir) (day : ℤ) (buf : Bytes) (o : Outcome) : StreamDir × Bytes × Bool :=
  if buf.isEmpty then (file, buf, true)
  else
    match o with
    | .written => (file.append day buf, [], true)
    | .skipped => (file, [], true)
    | .failed => (file, buf, false)

def writeDat (s : WasmStore) (o : Outcome) : WasmStore × Bool :=
  let r := writeBuf s.dat s.currentDay s.datBuf o
  ({ s with dat := r.1, datBuf := r.2.1 }, r.2.2)

def writeIdx (s : WasmStore) (o : Outcome) : WasmStore × Bool :=
  let r := writeBuf s.idx s.currentDay s.idxBuf o
  ({ s with idx := r.1, idxBuf := r.2.1 }, r.2.2)

def writeBlob (s : WasmStore) (o : Outcome) : WasmStore × Bool :=
  match s.blobBuf with
  | none => (s, true)
  | some b =>
    let r := writeBuf s.blob s.currentDay b o
    ({ s with blob := r.1, blobBuf := some r.2.1 }, r.2.2)

/-- The writes of `flush` (lines 216–241) and, up to the kind of error, of `rotate_day`
    (lines 317–348). -/
def writeBufs (s : WasmStore) (o : WriteOutcomes) : WasmStore × Bool :=
  let afterDat := s.writeDat o.dat
  if !afterDat.2 then afterDat
  else
    let afterIdx := afterDat.1.writeIdx o.idx
    if !afterIdx.2 then afterIdx else afterIdx.1.writeBlob o.blob

/-- `rotate_day` (lines 316–373). -/
def rotateDay (s : WasmStore) (newDay : ℤ) (o : RotationOutcomes) : WasmStore × Bool :=
  let (s, ok) := s.writeBufs o.writes
  if !ok || !o.dirOk then (s, false)
  else
    ({ s with
        currentDay := newDay
        fileOffset := if o.datSizeOk then (s.dat.bytes newDay).length else 0
        blobPos :=
          if T.blobPointerOffset.isSome then
            if o.blobSizeOk then (s.blob.bytes newDay).length else 0
          else 0
        records := 0 }, true)

/-- The store that `flush` writes from: rotated, if the day has changed; an error of the
    rotation is only logged (lines 202–213). -/
def rotated (s : WasmStore) (today : ℤ) (o : RotationOutcomes) : WasmStore :=
  if today ≠ s.currentDay then (s.rotateDay T today o).1 else s

/-- `flush` (lines 200–243) on the day `today`. -/
def flush (s : WasmStore) (today : ℤ) (rotation : RotationOutcomes) (o : WriteOutcomes) :
    WasmStore × Bool :=
  (s.rotated T today rotation).writeBufs o

/-! ## Runs -/

/-- A call on the store. -/
inductive Call (P : Type)
  | append (point : P)
  | flush (today : ℤ) (rotation : RotationOutcomes) (writes : WriteOutcomes)

def call (s : WasmStore) : Call P → WasmStore
  | .append point => s.append T point
  | .flush today rotation writes => (s.flush T today rotation writes).1

/-- The points appended by a run. -/
def appended (calls : List (Call P)) : List P :=
  calls.filterMap fun
    | .append point => some point
    | .flush .. => none

/-- The `.blob` file of a day and the bytes still buffered for it. -/
def blobs (s : WasmStore) (day : ℤ) : Bytes :=
  s.blob.bytes day ++ if s.currentDay = day then s.blobBuf.getD [] else []

/-- `blob_pos` is the end of the day's `.blob` file and the pending buffer. -/
def BlobPosExact (s : WasmStore) : Prop :=
  ∀ buf ∈ s.blobBuf, s.blobPos = (s.blob.bytes s.currentDay).length + buf.length

/-- The bytes that the pointer of a record leads to, `off` in `bytes`, are its own. -/
def Points (bytes : Bytes) (record : P × ℕ) : Prop :=
  record.2 + (blobBytes T record.1).length ≤ bytes.length ∧
    slice bytes record.2 (blobBytes T record.1).length = blobBytes T record.1

/-- Where the blob bytes of the records in a `.dat` file are looked for: in the `.blob` file,
    or there and in the pending buffer. -/
def source (fileOnly : Bool) (s : WasmStore) (day : ℤ) : Bytes :=
  if fileOnly then s.blob.bytes day else s.blobs day

/-- Every record in a `.dat` file or pending, but for those that were there before, is that of
    an appended point, and carries the blob bytes it was appended with. -/
structure Intact (fileOnly : Bool) (dat₀ : StreamDir) (points : List P) (s : WasmStore) :
    Prop where
  filed : ∀ day, ∃ records : List (P × ℕ), (∀ r ∈ records, r.1 ∈ points) ∧
    s.dat.bytes day = dat₀.bytes day ++ (records.flatMap fun r => record T r.1 r.2) ∧
      ∀ r ∈ records, Points T (source fileOnly s day) r
  pending : ∃ records : List (P × ℕ), (∀ r ∈ records, r.1 ∈ points) ∧
    s.datBuf = (records.flatMap fun r => record T r.1 r.2) ∧
      ∀ r ∈ records, Points T (s.blobs s.currentDay) r

/-- The flush comes to a `.blob` write that is skipped. -/
def SkipsBlob (s : WasmStore) (o : WriteOutcomes) : Prop :=
  (s.datBuf = [] ∨ o.dat ≠ .failed) ∧ (s.idxBuf = [] ∨ o.idx ≠ .failed) ∧
    s.blobBuf.getD [] ≠ [] ∧ o.blob = .skipped

/-- The flush writes to the `.dat` file and fails behind it. -/
def Splits (s : WasmStore) (o : WriteOutcomes) : Prop :=
  s.datBuf ≠ [] ∧ o.dat = .written ∧ (s.writeBufs o).2 = false

/-- No `.blob` write of the call is skipped, and a rotation that cannot read the size of the
    new `.blob` file finds none; and, for readers of the files alone, no write stops between
    the `.dat` and the `.blob` file. -/
def Orderly (fileOnly : Bool) (s : WasmStore) : Call P → Prop
  | .append _ => True
  | .flush today rotation writes =>
    (today ≠ s.currentDay → ¬ s.SkipsBlob rotation.writes ∧
      (fileOnly = true → ¬ s.Splits rotation.writes) ∧
        ((s.rotateDay T today rotation).2 = true → T.blobPointerOffset.isSome →
          rotation.blobSizeOk = true ∨ s.blob.bytes today = [])) ∧
      ¬ (s.rotated T today rotation).SkipsBlob writes ∧
        (fileOnly = true → ¬ (s.rotated T today rotation).Splits writes)

/-! ## Writes -/

theorem writeBuf_cases (file : StreamDir) (day : ℤ) (buf : Bytes) (o : Outcome) :
    (buf = [] ∧ writeBuf file day buf o = (file, [], true)) ∨
    (buf ≠ [] ∧ o = .written ∧ writeBuf file day buf o = (file.append day buf, [], true)) ∨
    (buf ≠ [] ∧ o = .skipped ∧ writeBuf file day buf o = (file, [], true)) ∨
    (buf ≠ [] ∧ o = .failed ∧ writeBuf file day buf o = (file, buf, false)) := by
  unfold writeBuf
  by_cases h : buf = []
  · simp [h]
  · cases o <;> simp [h]

theorem writeDat_spec (s : WasmStore) (o : Outcome) :
    (((s.writeDat o).1.dat = s.dat ∧
        ((s.writeDat o).1.datBuf = s.datBuf ∨ (s.writeDat o).1.datBuf = [])) ∨
      (s.datBuf ≠ [] ∧ o = .written ∧ (s.writeDat o).1.dat = s.dat.append s.currentDay s.datBuf ∧
        (s.writeDat o).1.datBuf = [])) ∧
    ((s.writeDat o).2 = true → (s.writeDat o).1.datBuf = [] ∧ (s.datBuf = [] ∨ o ≠ .failed)) := by
  unfold writeDat
  rcases writeBuf_cases s.dat s.currentDay s.datBuf o with
    ⟨hbuf, h⟩ | ⟨hbuf, rfl, h⟩ | ⟨hbuf, rfl, h⟩ | ⟨hbuf, rfl, h⟩ <;>
      simp only [h] <;> simp [hbuf]

theorem writeIdx_ok {s : WasmStore} {o : Outcome} (hok : (s.writeIdx o).2 = true) :
    s.idxBuf = [] ∨ o ≠ .failed := by
  unfold writeIdx at hok
  rcases writeBuf_cases s.idx s.currentDay s.idxBuf o with
    ⟨hbuf, h⟩ | ⟨hbuf, rfl, h⟩ | ⟨hbuf, rfl, h⟩ | ⟨hbuf, rfl, h⟩
  · exact .inl hbuf
  · exact .inr (by decide)
  · exact .inr (by decide)
  · simp [h] at hok

/-- The `.blob` write changes the `.blob` file and its buffer alone. -/
theorem writeBlob_frame (s : WasmStore) (o : Outcome) :
    (s.writeBlob o).1.currentDay = s.currentDay ∧ (s.writeBlob o).1.blobPos = s.blobPos ∧
      (s.writeBlob o).1.dat = s.dat ∧ (s.writeBlob o).1.datBuf = s.datBuf := by
  unfold writeBlob
  split <;> exact ⟨rfl, rfl, rfl, rfl⟩

theorem writeBlob_spec (s : WasmStore) (o : Outcome) :
    (((s.writeBlob o).1.blob = s.blob ∧ (s.writeBlob o).1.blobBuf = s.blobBuf) ∨
      ∃ b, s.blobBuf = some b ∧ (s.writeBlob o).1.blobBuf = some [] ∧
        ((s.writeBlob o).1.blob = s.blob.append s.currentDay b ∨ b ≠ [] ∧ o = .skipped)) ∧
    ((s.writeBlob o).2 = true → (s.writeBlob o).1.blobBuf.getD [] = []) := by
  unfold writeBlob
  cases hb : s.blobBuf with
  | none => exact ⟨.inl ⟨rfl, hb⟩, fun _ => by simp [hb]⟩
  | some b =>
    rcases writeBuf_cases s.blob s.currentDay b o with
      ⟨hbuf, h⟩ | ⟨hbuf, rfl, h⟩ | ⟨hbuf, rfl, h⟩ | ⟨hbuf, rfl, h⟩ <;>
        simp only [h] <;> simp [hbuf]

/-- What the writes of a flush do to the `.dat` and `.blob` files. -/
structure Written (s : WasmStore) (o : WriteOutcomes) (s' : WasmStore) (ok : Bool) : Prop where
  currentDay : s'.currentDay = s.currentDay
  blobPos : s'.blobPos = s.blobPos
  dat : (s'.dat = s.dat ∧ (s'.datBuf = s.datBuf ∨ s'.datBuf = [])) ∨
    (s.datBuf ≠ [] ∧ o.dat = .written ∧ s'.dat = s.dat.append s.currentDay s.datBuf ∧
      s'.datBuf = [])
  blob : (s'.blob = s.blob ∧ s'.blobBuf = s.blobBuf) ∨
    ∃ b, s.blobBuf = some b ∧ s'.blobBuf = some [] ∧
      (s'.blob = s.blob.append s.currentDay b ∨ s.SkipsBlob o)
  done : ok = true → s'.datBuf = [] ∧ s'.blobBuf.getD [] = []

theorem writeBufs_spec (s : WasmStore) (o : WriteOutcomes) :
    Written s o (s.writeBufs o).1 (s.writeBufs o).2 := by
  obtain ⟨hdat, hdatOk⟩ := writeDat_spec s o.dat
  cases hok : (s.writeDat o.dat).2 with
  | false =>
    have hstop : s.writeBufs o = s.writeDat o.dat := by simp [writeBufs, hok]
    rw [hstop, hok]
    exact ⟨rfl, rfl, hdat, .inl ⟨rfl, rfl⟩, fun h => by cases h⟩
  | true =>
    cases hok' : ((s.writeDat o.dat).1.writeIdx o.idx).2 with
    | false =>
      have hstop : s.writeBufs o = (s.writeDat o.dat).1.writeIdx o.idx := by
        simp [writeBufs, hok, hok']
      rw [hstop, hok']
      exact ⟨rfl, rfl, hdat, .inl ⟨rfl, rfl⟩, fun h => by cases h⟩
    | true =>
      have hend : s.writeBufs o = ((s.writeDat o.dat).1.writeIdx o.idx).1.writeBlob o.blob := by
        simp [writeBufs, hok, hok']
      obtain ⟨hday, hpos, hdat', hbuf'⟩ :=
        writeBlob_frame ((s.writeDat o.dat).1.writeIdx o.idx).1 o.blob
      obtain ⟨hblob, hdone⟩ := writeBlob_spec ((s.writeDat o.dat).1.writeIdx o.idx).1 o.blob
      rw [hend]
      refine ⟨hday, hpos, ?_, ?_, fun h => ⟨hbuf'.trans (hdatOk hok).1, hdone h⟩⟩
      · rw [hdat', hbuf']
        exact hdat
      · refine hblob.imp_right ?_
        rintro ⟨b, hb, hcleared, happended | ⟨hne, hskipped⟩⟩
        · exact ⟨b, hb, hcleared, .inl happended⟩
        · refine ⟨b, hb, hcleared, .inr ⟨(hdatOk hok).2, writeIdx_ok hok', ?_, hskipped⟩⟩
          rw [show s.blobBuf = some b from hb]
          exact hne

/-! ## What keeps the pointers right -/

variable {T}

theorem Points.mono {bytes bytes' : Bytes} {record : P × ℕ} (h : Points T bytes record)
    (hgrow : bytes <+: bytes') : Points T bytes' record := by
  obtain ⟨rest, rfl⟩ := hgrow
  refine ⟨h.1.trans (by rw [List.length_append]; exact Nat.le_add_right _ _), ?_⟩
  rw [slice_append_left h.1, h.2]

/-- Blob bytes put behind `bytes` are where their pointer leads to. -/
theorem points_append (bytes : Bytes) (point : P) :
    Points T (bytes ++ blobBytes T point) (point, bytes.length) := by
  have hmid := slice_append_mid bytes (blobBytes T point) []
  rw [List.append_nil] at hmid
  exact ⟨(List.length_append ..).ge, hmid⟩

theorem blobs_of_done {s : WasmStore} (h : s.blobBuf.getD [] = []) (day : ℤ) :
    s.blobs day = s.blob.bytes day := by
  rw [blobs, h, ite_self, List.append_nil]

/-- Unless a `.blob` write is skipped, the writes move blob bytes from the buffer to the
    file. -/
theorem Written.blobs {s s' : WasmStore} {o : WriteOutcomes} {ok : Bool}
    (h : Written s o s' ok) (hskip : ¬ s.SkipsBlob o) (day : ℤ) : s'.blobs day = s.blobs day := by
  rw [WasmStore.blobs, WasmStore.blobs, h.currentDay]
  rcases h.blob with ⟨hblob, hbuf⟩ | ⟨b, hb, hcleared, happended | hs⟩
  · rw [hblob, hbuf]
  · rw [hcleared, happended, hb, Storage.RotatingWriter.bytes_append]
    simp
  · exact absurd hs hskip

/-- The `.blob` files only grow. -/
theorem Written.blob_prefix {s s' : WasmStore} {o : WriteOutcomes} {ok : Bool}
    (h : Written s o s' ok) (hskip : ¬ s.SkipsBlob o) (day : ℤ) :
    s.blob.bytes day <+: s'.blob.bytes day := by
  rcases h.blob with ⟨hblob, -⟩ | ⟨b, -, -, happended | hs⟩
  · rw [hblob]
  · rw [happended, Storage.RotatingWriter.bytes_append]
    exact List.prefix_append _ _
  · exact absurd hs hskip

theorem Written.source_prefix {s s' : WasmStore} {o : WriteOutcomes} {ok : Bool}
    (h : Written s o s' ok) (hskip : ¬ s.SkipsBlob o) (fileOnly : Bool) (day : ℤ) :
    source fileOnly s day <+: source fileOnly s' day := by
  cases fileOnly with
  | true => exact h.blob_prefix hskip day
  | false =>
    show s.blobs day <+: s'.blobs day
    rw [h.blobs hskip]

/-- **Step lemma.** The writes of a flush keep the records intact, unless a `.blob` write is
    skipped; and for readers of the files alone, unless they stop between the files. -/
theorem Intact.writeBufs {fileOnly : Bool} {dat₀ : StreamDir} {points : List P} {s : WasmStore}
    {o : WriteOutcomes} (h : Intact T fileOnly dat₀ points s) (hskip : ¬ s.SkipsBlob o)
    (hsplit : fileOnly = true → ¬ s.Splits o) :
    Intact T fileOnly dat₀ points (s.writeBufs o).1 := by
  have hw := writeBufs_spec s o
  obtain ⟨pend, hpend, hbuf, hpoints⟩ := h.pending
  have hblobs : (s.writeBufs o).1.blobs (s.writeBufs o).1.currentDay = s.blobs s.currentDay := by
    rw [hw.blobs hskip, hw.currentDay]
  constructor
  · intro day
    obtain ⟨filed, hfiled, hdat, hin⟩ := h.filed day
    have hin' : ∀ r ∈ filed, Points T (source fileOnly (s.writeBufs o).1 day) r :=
      fun r hr => (hin r hr).mono (hw.source_prefix hskip fileOnly day)
    rcases hw.dat with ⟨hsame, -⟩ | ⟨hne, hwritten, happended, -⟩
    · exact ⟨filed, hfiled, by rw [hsame, hdat], hin'⟩
    · rw [happended, Storage.RotatingWriter.bytes_append]
      by_cases hday : s.currentDay = day
      · subst hday
        refine ⟨filed ++ pend, ?_, ?_, ?_⟩
        · exact fun r hr => (List.mem_append.mp hr).elim (hfiled r) (hpend r)
        · rw [if_pos rfl, hdat, hbuf, List.flatMap_append, List.append_assoc]
        · intro r hr
          rcases List.mem_append.mp hr with hr | hr
          · exact hin' r hr
          · have hsource : source fileOnly (s.writeBufs o).1 s.currentDay =
                s.blobs s.currentDay := by
              cases fileOnly with
              | false => exact hw.blobs hskip _
              | true =>
                -- the records just written are read from a `.blob` file that is complete
                have hok : (s.writeBufs o).2 = true := by
                  by_contra hstop
                  exact hsplit rfl ⟨hne, hwritten, Bool.eq_false_of_not_eq_true hstop⟩
                exact (blobs_of_done (hw.done hok).2 _).symm.trans (hw.blobs hskip _)
            rw [hsource]
            exact hpoints r hr
      · rw [if_neg hday, List.append_nil]
        exact ⟨filed, hfiled, hdat, hin'⟩
  · rw [hblobs]
    have hkept : (s.writeBufs o).1.datBuf = s.datBuf ∨ (s.writeBufs o).1.datBuf = [] := by
      rcases hw.dat with ⟨-, hbuf⟩ | ⟨-, -, -, hbuf⟩
      · exact hbuf
      · exact .inr hbuf
    rcases hkept with hkept | hkept
    · exact ⟨pend, hpend, hkept.trans hbuf, hpoints⟩
    · exact ⟨[], by simp, hkept, by simp⟩

/-- `blob_pos` and the pending buffer go with the type. -/
def Consistent (T : DataPoint P) (s : WasmStore) : Prop :=
  s.blobBuf.isSome = T.blobPointerOffset.isSome ∧
    (T.blobPointerOffset.isSome → s.blobPos = (s.blobs s.currentDay).length)

theorem Consistent.blobPosExact {s : WasmStore} (h : Consistent T s) : BlobPosExact s := by
  intro buf hbuf
  rw [Option.mem_def] at hbuf
  have hpos := h.2 (by rw [← h.1, hbuf]; rfl)
  rw [hpos, blobs, if_pos rfl, hbuf, Option.getD_some, List.length_append]

theorem blobs_append {s : WasmStore} (hs : Consistent T s) (point : P) (day : ℤ) :
    (s.append T point).blobs day =
      s.blobs day ++ if s.currentDay = day then blobBytes T point else [] := by
  show s.blob.bytes day ++ (if s.currentDay = day then
    (s.blobBuf.map fun b => b ++ blobBytes T point).getD [] else []) = _
  rw [blobs, List.append_assoc]
  congr 1
  by_cases hday : s.currentDay = day
  · rw [if_pos hday, if_pos hday, if_pos hday]
    cases hbuf : s.blobBuf with
    | some b => rfl
    | none =>
      have hptr : T.blobPointerOffset = none := by
        rw [← Option.isNone_iff_eq_none, ← Option.not_isSome, ← hs.1, hbuf]
        rfl
      simp [blobBytes, hptr]
  · rw [if_neg hday, if_neg hday, if_neg hday, List.append_nil]

/-- **Step lemma.** `append` puts the blob bytes where the pointer of the record leads to. -/
theorem Intact.append {fileOnly : Bool} {dat₀ : StreamDir} {points : List P} {s : WasmStore}
    (h : Intact T fileOnly dat₀ points s) (hs : Consistent T s) (point : P) :
    Intact T fileOnly dat₀ (points ++ [point]) (s.append T point) := by
  have hgrow : ∀ day, s.blobs day <+: (s.append T point).blobs day := by
    intro day
    rw [blobs_append hs]
    exact List.prefix_append _ _
  have hmem : ∀ {records : List (P × ℕ)}, (∀ r ∈ records, r.1 ∈ points) →
      ∀ r ∈ records, r.1 ∈ points ++ [point] :=
    fun hr r hmem => List.mem_append_left _ (hr r hmem)
  constructor
  · intro day
    obtain ⟨filed, hfiled, hdat, hin⟩ := h.filed day
    refine ⟨filed, hmem hfiled, hdat, fun r hr => (hin r hr).mono ?_⟩
    cases fileOnly with
    | true => exact List.prefix_refl _
    | false => exact hgrow day
  · obtain ⟨pend, hpend, hbuf, hpoints⟩ := h.pending
    have hrecord : record T point s.blobPos =
        record T point (s.blobs s.currentDay).length := by
      cases hptr : T.blobPointerOffset with
      | none => simp [record, hptr]
      | some tailOff => rw [hs.2 (by rw [hptr]; rfl)]
    refine ⟨pend ++ [(point, (s.blobs s.currentDay).length)], ?_, ?_, ?_⟩
    · intro r hr
      rcases List.mem_append.mp hr with hr | hr
      · exact hmem hpend r hr
      · rw [List.mem_singleton.mp hr]
        exact List.mem_append_right _ (List.mem_singleton_self _)
    · show s.datBuf ++ record T point s.blobPos = _
      rw [hbuf, hrecord, List.flatMap_append, List.flatMap_singleton]
    · intro r hr
      show Points T ((s.append T point).blobs s.currentDay) r
      rcases List.mem_append.mp hr with hr | hr
      · exact (hpoints r hr).mono (hgrow _)
      · rw [List.mem_singleton.mp hr, blobs_append hs, if_pos rfl]
        exact points_append _ _

theorem Consistent.append {s : WasmStore} (hs : Consistent T s) (point : P) :
    Consistent T (s.append T point) := by
  constructor
  · rw [← hs.1]
    exact Option.isSome_map
  · intro hptr
    show s.blobPos + _ = ((s.append T point).blobs s.currentDay).length
    rw [blobs_append hs, if_pos rfl, List.length_append, hs.2 hptr]

theorem Consistent.writeBufs {s : WasmStore} (hs : Consistent T s) {o : WriteOutcomes}
    (hskip : ¬ s.SkipsBlob o) : Consistent T (s.writeBufs o).1 := by
  have hw := writeBufs_spec s o
  constructor
  · rw [← hs.1]
    rcases hw.blob with ⟨-, hbuf⟩ | ⟨b, hb, hcleared, -⟩
    · rw [hbuf]
    · rw [hb, hcleared]
      rfl
  · intro hptr
    rw [hw.blobPos, hw.blobs hskip, hw.currentDay, hs.2 hptr]

/-! ## Rotation -/

/-- The store right after a rotation that got through: empty buffers and another day. -/
theorem rotateDay_cases (s : WasmStore) (newDay : ℤ) (o : RotationOutcomes) :
    ((s.rotateDay T newDay o).2 = false ∧
      (s.rotateDay T newDay o).1 = (s.writeBufs o.writes).1) ∨
    ((s.rotateDay T newDay o).2 = true ∧ (s.writeBufs o.writes).2 = true ∧
      (s.rotateDay T newDay o).1 =
        { (s.writeBufs o.writes).1 with
          currentDay := newDay
          fileOffset :=
            if o.datSizeOk then ((s.writeBufs o.writes).1.dat.bytes newDay).length else 0
          blobPos :=
            if T.blobPointerOffset.isSome then
              if o.blobSizeOk then ((s.writeBufs o.writes).1.blob.bytes newDay).length else 0
            else 0
          records := 0 }) := by
  unfold rotateDay
  cases hok : (s.writeBufs o.writes).2 <;> cases o.dirOk <;> simp [hok]

theorem Intact.rotateDay {fileOnly : Bool} {dat₀ : StreamDir} {points : List P} {s : WasmStore}
    {o : RotationOutcomes} (h : Intact T fileOnly dat₀ points s)
    (hskip : ¬ s.SkipsBlob o.writes) (hsplit : fileOnly = true → ¬ s.Splits o.writes)
    (newDay : ℤ) : Intact T fileOnly dat₀ points (s.rotateDay T newDay o).1 := by
  have hwrites := h.writeBufs hskip hsplit
  rcases rotateDay_cases s newDay o (T := T) with ⟨-, hs⟩ | ⟨-, hok, hs⟩
  · rw [hs]
    exact hwrites
  · obtain ⟨hbuf, hblob⟩ := (writeBufs_spec s o.writes).done hok
    rw [hs]
    constructor
    · intro day
      obtain ⟨filed, hfiled, hdat, hin⟩ := hwrites.filed day
      refine ⟨filed, hfiled, hdat, fun r hr => (hin r hr).mono ?_⟩
      cases fileOnly with
      | true => exact List.prefix_refl _
      | false =>
        show (s.writeBufs o.writes).1.blobs day <+: _
        rw [blobs_of_done hblob]
        exact List.prefix_append _ _
    · exact ⟨[], by simp, hbuf, by simp⟩

theorem Consistent.rotateDay {s : WasmStore} (hs : Consistent T s) {newDay : ℤ}
    {o : RotationOutcomes} (hskip : ¬ s.SkipsBlob o.writes) (hne : newDay ≠ s.currentDay)
    (hsize : (s.rotateDay T newDay o).2 = true → T.blobPointerOffset.isSome →
      o.blobSizeOk = true ∨ s.blob.bytes newDay = []) :
    Consistent T (s.rotateDay T newDay o).1 := by
  have hwrites := hs.writeBufs hskip
  rcases rotateDay_cases s newDay o (T := T) with ⟨-, hs'⟩ | ⟨hdone, hok, hs'⟩
  · rw [hs']
    exact hwrites
  · have hw := writeBufs_spec s o.writes
    obtain ⟨-, hblob⟩ := hw.done hok
    have hbuf : (s.rotateDay T newDay o).1.blobBuf = (s.writeBufs o.writes).1.blobBuf := by
      rw [hs']
    have hpos : (s.rotateDay T newDay o).1.blobPos =
        if T.blobPointerOffset.isSome then
          if o.blobSizeOk then ((s.writeBufs o.writes).1.blob.bytes newDay).length else 0
        else 0 := by
      rw [hs']
    have hblobs : (s.rotateDay T newDay o).1.blobs (s.rotateDay T newDay o).1.currentDay =
        (s.writeBufs o.writes).1.blob.bytes newDay := by
      rw [blobs_of_done (by rw [hbuf, hblob]), hs']
    refine ⟨by rw [hbuf, hwrites.1], fun hptr => ?_⟩
    rw [hblobs, hpos, if_pos hptr]
    rcases hsize hdone hptr with hsize | hempty
    · rw [if_pos hsize]
    · have hsame : (s.writeBufs o.writes).1.blob.bytes newDay = [] := by
        rcases hw.blob with ⟨hblob, -⟩ | ⟨b, -, -, happended | hs⟩
        · rw [hblob, hempty]
        · rw [happended, Storage.RotatingWriter.bytes_append, if_neg (Ne.symm hne), hempty]
          rfl
        · exact absurd hs hskip
      rw [hsame, List.length_nil, ite_self]

/-! ## Runs of the store -/

theorem intact_withIdxEvery (fileOnly : Bool) (dat idx blob : StreamDir) (day : ℤ)
    (idxEvery : ℕ) :
    Consistent T (withIdxEvery T dat idx blob day idxEvery) ∧
      Intact T fileOnly dat [] (withIdxEvery T dat idx blob day idxEvery) := by
  refine ⟨⟨Option.isSome_map, fun hptr => ?_⟩, fun d => ⟨[], ?_⟩, ⟨[], ?_⟩⟩
  · have hdone : (withIdxEvery T dat idx blob day idxEvery).blobBuf.getD [] = [] := by
      unfold withIdxEvery
      cases T.blobPointerOffset <;> rfl
    rw [blobs_of_done hdone]
    exact if_pos hptr
  · simp [withIdxEvery]
  · simp [withIdxEvery]

theorem appended_concat (calls : List (Call P)) (c : Call P) :
    appended (calls ++ [c]) = appended calls ++ appended [c] :=
  List.filterMap_append

/-- **Run lemma.** In a run of orderly calls `blob_pos` stays exact and the records stay
    intact. -/
theorem intact_run (fileOnly : Bool) (dat idx blob : StreamDir) (day : ℤ) (idxEvery : ℕ)
    {calls : List (Call P)}
    (h : StepsMeet (call T) (withIdxEvery T dat idx blob day idxEvery) (Orderly T fileOnly)
      calls) :
    Consistent T (calls.foldl (call T) (withIdxEvery T dat idx blob day idxEvery)) ∧
      Intact T fileOnly dat (appended calls)
        (calls.foldl (call T) (withIdxEvery T dat idx blob day idxEvery)) := by
  induction calls using List.reverseRecOn with
  | nil => exact intact_withIdxEvery fileOnly dat idx blob day idxEvery
  | append_singleton calls c ih =>
    rw [stepsMeet_concat] at h
    obtain ⟨hs, hintact⟩ := ih h.1
    obtain ⟨-, hc⟩ := h
    rw [List.foldl_concat, appended_concat]
    generalize calls.foldl (call T) (withIdxEvery T dat idx blob day idxEvery) = s at *
    cases c with
    | append point => exact ⟨hs.append point, hintact.append hs point⟩
    | flush today rotation writes =>
      obtain ⟨hrotation, hskip, hsplit⟩ := hc
      show Consistent T ((s.rotated T today rotation).writeBufs writes).1 ∧
        Intact T fileOnly dat (appended calls ++ [])
          ((s.rotated T today rotation).writeBufs writes).1
      have hrotated : Consistent T (s.rotated T today rotation) ∧
          Intact T fileOnly dat (appended calls) (s.rotated T today rotation) := by
        rw [rotated]
        split_ifs with htoday
        · obtain ⟨hskip, hsplit, hsize⟩ := hrotation htoday
          exact ⟨hs.rotateDay hskip htoday hsize, hintact.rotateDay hskip hsplit today⟩
        · exact ⟨hs, hintact⟩
      rw [List.append_nil]
      exact ⟨hrotated.1.writeBufs hskip, hrotated.2.writeBufs hskip hsplit⟩

end WasmStore

/-! ## Both stores -/

/-- **Main theorem.** A stream writer keeps its records through every flush that reports an
    error exactly when no write fails. In a run of a `DiskStore` whose calls are orderly,
    `blob_pos` is exact and every record carries its own blob bytes, in the files and the
    pending buffer, or in the files alone if no write stops between them. -/
theorem wasm_stores_keep_records (files : StreamDir)
    (pushes : List Storage.WasmStreamWriter.Call) {P : Type} (T : DataPoint P) (fileOnly : Bool)
    (dat idx blob : StreamDir) (day : ℤ) (idxEvery : ℕ) (calls : List (WasmStore.Call P)) :
    (Storage.WasmStreamWriter.KeptOnError files pushes ↔
      Storage.WasmStreamWriter.NoFailedWrite files pushes) ∧
    (StepsMeet (WasmStore.call T) (WasmStore.withIdxEvery T dat idx blob day idxEvery)
        (WasmStore.Orderly T fileOnly) calls →
      WasmStore.BlobPosExact
          (calls.foldl (WasmStore.call T) (WasmStore.withIdxEvery T dat idx blob day idxEvery)) ∧
        WasmStore.Intact T fileOnly dat (WasmStore.appended calls)
          (calls.foldl (WasmStore.call T)
            (WasmStore.withIdxEvery T dat idx blob day idxEvery))) := by
  refine ⟨Storage.WasmStreamWriter.keptOnError_iff files pushes, fun h => ?_⟩
  obtain ⟨hs, hintact⟩ := WasmStore.intact_run fileOnly dat idx blob day idxEvery h
  exact ⟨hs.blobPosExact, hintact⟩

/-- A book with one bid. -/
def oneBid : Data.ObSnapshotPoint := { tsMs := 0, bids := [(1, 1)], asks := [] }

/-- A flush on the first day, whose `.blob` write has the outcome `o`. -/
def firstFlush (o : Outcome) : WasmStore.Call Data.ObSnapshotPoint :=
  .flush 0 ⟨⟨.written, .written, .written⟩, true, true, true⟩ ⟨.written, .written, o⟩

theorem wasm_stores_keep_records_one_bid :
    WasmStore.BlobPosExact
        ([.append oneBid, firstFlush .written].foldl (WasmStore.call Data.obSnapshot.dataPoint)
          (WasmStore.withIdxEvery Data.obSnapshot.dataPoint ∅ ∅ ∅ 0 1024)) ∧
      WasmStore.Intact Data.obSnapshot.dataPoint true ∅
        (WasmStore.appended [.append oneBid, firstFlush .written])
        ([.append oneBid, firstFlush .written].foldl (WasmStore.call Data.obSnapshot.dataPoint)
          (WasmStore.withIdxEvery Data.obSnapshot.dataPoint ∅ ∅ ∅ 0 1024)) := by
  apply (wasm_stores_keep_records ∅ [] Data.obSnapshot.dataPoint true ∅ ∅ ∅ 0 1024 _).2
  rw [show [.append oneBid, firstFlush .written] = ([] ++ [.append oneBid]) ++
    [firstFlush .written] from rfl, stepsMeet_concat, stepsMeet_concat]
  refine ⟨⟨stepsMeet_nil _, trivial⟩, fun hday => absurd rfl hday, ?_, ?_⟩
  · rintro ⟨-, -, -, hskipped⟩
    cases hskipped
  · rintro - ⟨-, -, hstop⟩
    revert hstop
    decide +kernel

/-- A record that is lost with its bucket, and a pointer that is off after a skipped write. -/
theorem failed_writes_lose_records :
    ¬ Storage.WasmStreamWriter.KeptOnError ∅
        [.push ⟨0, [], by decide⟩, .flush ⟨id, fun _ => List.Perm.refl _⟩ fun _ => .failed] ∧
      ¬ WasmStore.BlobPosExact
        ([.append oneBid, firstFlush .skipped].foldl (WasmStore.call Data.obSnapshot.dataPoint)
          (WasmStore.withIdxEvery Data.obSnapshot.dataPoint ∅ ∅ ∅ 0 1024)) := by
  constructor
  · rw [Storage.WasmStreamWriter.keptOnError_iff]
    intro h
    refine h [.push ⟨0, [], by decide⟩] _ _ (List.prefix_refl _) 0 ?_ rfl
    decide +kernel
  · intro h
    have hpos := h [] (by decide +kernel)
    revert hpos
    decide +kernel

end Digdigdig3.Series
