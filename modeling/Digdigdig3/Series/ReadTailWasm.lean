import Digdigdig3.Series.Build
import Digdigdig3.Series.Store
import Digdigdig3.Lib.ReadEach

/-!
# `read_tail` in the browser

`DiskStore::read_tail` of `crates/digdigdig3-station/src/series/store_wasm.rs` reads the
day files that the native `read_day_tail` (`series/store.rs`) reads. It takes the blob
pointer `as usize` and reads an empty blob where the pointer leads out of the file.

* `readDayTailOn_eq`: the native reader without panics is `readDayTail`.
* `readTail_agrees_iff`: the exact condition for both readers to return the same points.
-/

namespace Digdigdig3.Series.DiskStore

variable {P : Type} {T : DataPoint P} (H : Hooks T) (b : Build)

/-- The last records of a `.dat` file, `limit` at most (`store.rs` lines 434–444,
    `store_wasm.rs` lines 262–269). -/
def tailChunks (T : DataPoint P) (dat : Bytes) (limit : ℕ) : List Bytes :=
  let total := dat.length
  let maxRecords := total / T.recordSize
  let take := min limit maxRecords
  let offset := total - take * T.recordSize
  chunksExact T.recordSize take (dat.drop offset)

/-! ## The native reader -/

/-- The body of the reading loop of `read_day_tail` (`store.rs` lines 457–492). -/
def decodeChunkOn (blob : Option Bytes) (chunk : Bytes) : Option (Option P) :=
  match T.blobPointerOffset, blob with
  | some tailOff, some bf =>
    let off := blobOff chunk tailOff
    let len := blobLen chunk tailOff
    if len = 0 then H.decodeBlob b chunk []
    else if 2 ^ 64 ≤ off + len ∨ bf.length < off + len then some none
    else H.decodeBlob b chunk (slice bf off len)
  | _, _ => H.decode b chunk

/-- `read_day_tail` (`store.rs` lines 423–498), with its panics. -/
def readDayTailOn (files : DayFiles) (limit : ℕ) : Option (List P) :=
  if files.dat.length < T.recordSize then some []
  else readEach (decodeChunkOn H b files.blob) (tailChunks T files.dat limit)

/-- The reader of the whole chunks is the reader of the slice they lie in. -/
theorem readDayTail_eq (T : DataPoint P) (files : DayFiles) (limit : ℕ) :
    readDayTail T files limit =
      if files.dat.length < T.recordSize then []
      else (tailChunks T files.dat limit).filterMap (decodeChunk T files.blob) := by
  have hle : min limit (files.dat.length / T.recordSize) * T.recordSize ≤ files.dat.length :=
    (Nat.mul_le_mul_right _ (min_le_right _ _)).trans (Nat.div_mul_le_self _ _)
  have hall : slice files.dat
      (files.dat.length - min limit (files.dat.length / T.recordSize) * T.recordSize)
      (min limit (files.dat.length / T.recordSize) * T.recordSize) =
        files.dat.drop
          (files.dat.length - min limit (files.dat.length / T.recordSize) * T.recordSize) := by
    rw [slice, List.take_of_length_le]
    rw [List.length_drop]
    omega
  simp only [readDayTail, tailChunks, hall]

/-- The native reader without panics is `readDayTail`. -/
theorem readDayTailOn_eq (files : DayFiles) (limit : ℕ)
    (h : ∀ chunk ∈ tailChunks T files.dat limit,
      decodeChunkOn H b files.blob chunk = some (decodeChunk T files.blob chunk)) :
    readDayTailOn H b files limit = some (readDayTail T files limit) := by
  rw [readDayTailOn, readDayTail_eq]
  split_ifs with hshort
  · rfl
  · rw [readEach_congr h, readEach_total]

/-! ## The reader for `wasm32` -/

/-- `bd.get(off..off + len).unwrap_or(&[])` with `off` and `len` `as usize`
    (`store_wasm.rs` lines 281–291). -/
def blobSlice (bd : Bytes) (off len : ℕ) : Option Bytes := do
  let off := off % 2 ^ b.usizeBits
  let stop ← b.usize (off + len % 2 ^ b.usizeBits)
  return if off ≤ stop ∧ stop ≤ bd.length then slice bd off (stop - off) else []

/-- The body of the loop of `read_tail` (`store_wasm.rs` lines 279–299). -/
def decodeChunkWasm (blobData : Option Bytes) (chunk : Bytes) : Option (Option P) :=
  match T.blobPointerOffset, blobData with
  | some tailOff, some bd => do
    let bytes ← blobSlice b bd (blobOff chunk tailOff) (blobLen chunk tailOff)
    H.decodeBlob b chunk bytes
  | _, _ => H.decode b chunk

/-- `read_tail` (`store_wasm.rs` lines 250–303). -/
def readTailWasm (files : DayFiles) (limit : ℕ) : Option (List P) :=
  if limit = 0 then some []
  else do
    let dat ← b.readAll files.dat
    if dat.length < T.recordSize then return []
    let blobData ←
      match T.blobPointerOffset, files.blob with
      | some _, some blob => (b.readAll blob).map some
      | _, _ => some none
    readEach (decodeChunkWasm H b blobData) (tailChunks T dat limit)

/-! ## One record -/

/-- What `blobSlice` selects of a file that fits: the bytes the wrapped pointer leads to, or
    none. -/
def selected (bd : Bytes) (off len : ℕ) : Bytes :=
  if off % 2 ^ b.usizeBits + len ≤ bd.length then slice bd (off % 2 ^ b.usizeBits) len else []

theorem blobSlice_eq {bd : Bytes} {off len : ℕ} (hbd : b.fits bd.length)
    (hbits : 0 < b.usizeBits) (hlen : len < 2 ^ b.usizeBits) :
    blobSlice b bd off len =
      if b.debug = true ∧ 2 ^ b.usizeBits ≤ off % 2 ^ b.usizeBits + len then none
      else some (selected b bd off len) := by
  have hhalf : 2 ^ b.usizeBits = 2 * 2 ^ (b.usizeBits - 1) := by
    rw [← pow_succ', Nat.sub_add_cancel (by omega)]
  have hfits : bd.length < 2 ^ (b.usizeBits - 1) := of_decide_eq_true hbd
  have hoff : off % 2 ^ b.usizeBits < 2 ^ b.usizeBits := Nat.mod_lt _ (by omega)
  rw [blobSlice, Nat.mod_eq_of_lt hlen]
  by_cases hsmall : off % 2 ^ b.usizeBits + len < 2 ^ b.usizeBits
  · rw [if_neg (by omega), b.usize_of_lt hsmall, selected]
    simp
  · have hselected : selected b bd off len = [] := if_neg (by omega)
    rw [hselected]
    cases hdebug : b.debug with
    | true =>
      rw [b.usize_of_debug (by omega) hdebug, if_pos ⟨rfl, by omega⟩]
      rfl
    | false =>
      have hwrap : (off % 2 ^ b.usizeBits + len) % 2 ^ b.usizeBits =
          off % 2 ^ b.usizeBits + len - 2 ^ b.usizeBits := by
        rw [Nat.mod_eq_sub_mod (by omega), Nat.mod_eq_of_lt (by omega)]
      rw [b.usize_of_release hdebug, hwrap, if_neg (by simp)]
      show some (if _ then _ else _) = _
      rw [if_neg (by omega)]

theorem selected_of_complete {bd : Bytes} {off len : ℕ} (hbd : b.fits bd.length)
    (h : len = 0 ∨ off + len ≤ bd.length) : selected b bd off len = slice bd off len := by
  have hfits : bd.length < 2 ^ (b.usizeBits - 1) := of_decide_eq_true hbd
  have hhalf : 2 ^ (b.usizeBits - 1) ≤ 2 ^ b.usizeBits :=
    Nat.pow_le_pow_right (by omega) (Nat.sub_le _ _)
  rw [selected]
  rcases h with rfl | h
  · simp [slice]
  · rw [Nat.mod_eq_of_lt (by omega), if_pos h]

theorem length_slice_le (bs : Bytes) (off len : ℕ) : (slice bs off len).length ≤ bs.length := by
  rw [slice, List.length_take, List.length_drop]
  omega

theorem length_selected_le (bd : Bytes) (off len : ℕ) :
    (selected b bd off len).length ≤ bd.length := by
  rw [selected]
  split_ifs
  · exact length_slice_le _ _ _
  · exact Nat.zero_le _

theorem blobLen_lt (chunk : Bytes) (tailOff : ℕ) : blobLen chunk tailOff < 256 ^ 4 := by
  refine (ofLe_lt _).trans_le (Nat.pow_le_pow_right (by omega) ?_)
  rw [slice, List.length_take]
  omega

section Chunk

variable (debugN debugW : Bool)

/-- Both readers make the same of a record, without panics. The native one skips a record
    whose pointer leads out of the file, the other one reads what the wrapped pointer
    selects. -/
def ReadsAlike (blob : Option Bytes) (chunk : Bytes) : Prop :=
  match T.blobPointerOffset, blob with
  | some tailOff, some bf =>
    let off := blobOff chunk tailOff
    let len := blobLen chunk tailOff
    if Complete T (some bf) chunk then
      H.blobPanics (.native debugN) chunk (slice bf off len) = false ∧
        H.blobPanics (.wasm debugW) chunk (slice bf off len) = false
    else
      (debugW = true → off % 2 ^ 32 + len < 2 ^ 32) ∧
        H.blobPanics (.wasm debugW) chunk (selected (.wasm debugW) bf off len) = false ∧
          T.decodeBlob chunk (selected (.wasm debugW) bf off len) = none
  | _, _ => H.panics (.native debugN) chunk = false ∧ H.panics (.wasm debugW) chunk = false

variable {debugN debugW}

theorem inRange_of_complete {tailOff : ℕ} (hptr : T.blobPointerOffset = some tailOff)
    {bf chunk : Bytes} (h : Complete T (some bf) chunk) :
    blobLen chunk tailOff = 0 ∨ blobOff chunk tailOff + blobLen chunk tailOff ≤ bf.length := by
  simp only [Complete, hptr] at h
  exact h.imp_right And.right

theorem decodeChunkOn_of_pointer {tailOff : ℕ} (hptr : T.blobPointerOffset = some tailOff)
    {bf : Bytes} (hbits : 3 ≤ b.usizeBits) (hbf : b.fits bf.length) (chunk : Bytes) :
    decodeChunkOn H b (some bf) chunk =
      if Complete T (some bf) chunk then
        if H.blobPanics b chunk (slice bf (blobOff chunk tailOff) (blobLen chunk tailOff)) then none
        else some (T.decodeBlob chunk
          (slice bf (blobOff chunk tailOff) (blobLen chunk tailOff)))
      else some none := by
  have hcomplete : Complete T (some bf) chunk ↔ blobLen chunk tailOff = 0 ∨
      (blobOff chunk tailOff + blobLen chunk tailOff < 2 ^ 64 ∧
        blobOff chunk tailOff + blobLen chunk tailOff ≤ bf.length) := by
    simp only [Complete, hptr]
  rw [← H.decodeBlob_eq b chunk _ hbits (b.fits_of_le hbf (length_slice_le _ _ _))]
  simp only [decodeChunkOn, hptr, hcomplete]
  by_cases hzero : blobLen chunk tailOff = 0
  · rw [if_pos hzero, if_pos (.inl hzero), hzero]
    simp [slice]
  · rw [if_neg hzero]
    by_cases hin : blobOff chunk tailOff + blobLen chunk tailOff < 2 ^ 64 ∧
        blobOff chunk tailOff + blobLen chunk tailOff ≤ bf.length
    · rw [if_neg (by omega), if_pos (.inr hin)]
    · rw [if_pos (by omega), if_neg (by omega)]

theorem decodeChunkWasm_of_pointer {tailOff : ℕ} (hptr : T.blobPointerOffset = some tailOff)
    {bf : Bytes} (hbits : 32 ≤ b.usizeBits) (hbf : b.fits bf.length) (chunk : Bytes) :
    decodeChunkWasm H b (some bf) chunk =
      if b.debug = true ∧
          2 ^ b.usizeBits ≤ blobOff chunk tailOff % 2 ^ b.usizeBits + blobLen chunk tailOff then
        none
      else
        if H.blobPanics b chunk
          (selected b bf (blobOff chunk tailOff) (blobLen chunk tailOff)) then none
        else some (T.decodeBlob chunk
          (selected b bf (blobOff chunk tailOff) (blobLen chunk tailOff))) := by
  have hlen : blobLen chunk tailOff < 2 ^ b.usizeBits :=
    (blobLen_lt chunk tailOff).trans_le (Nat.pow_le_pow_right (n := 2) (by omega) hbits)
  rw [← H.decodeBlob_eq b chunk _ (by omega) (b.fits_of_le hbf (length_selected_le _ _ _ _))]
  simp only [decodeChunkWasm, hptr]
  rw [blobSlice_eq b hbf (by omega) hlen]
  split_ifs <;> rfl

/-- Without a pointer, or without a blob file, both readers decode the record alone. -/
theorem decodeChunk_of_plain {blob : Option Bytes}
    (h : ∀ tailOff bf, T.blobPointerOffset = some tailOff → blob = some bf → False)
    (b b' : Build) (chunk : Bytes) :
    decodeChunkOn H b blob chunk =
        (if H.panics b chunk then none else some (T.decode chunk)) ∧
      decodeChunkWasm H b' blob chunk =
        (if H.panics b' chunk then none else some (T.decode chunk)) := by
  rw [← H.decode_eq, ← H.decode_eq]
  unfold decodeChunkOn decodeChunkWasm
  constructor
  · split
    next tailOff bf hptr => exact (h tailOff bf hptr rfl).elim
    next => rfl
  · split
    next tailOff bf hptr => exact (h tailOff bf hptr rfl).elim
    next => rfl

/-- The readers agree on a record exactly when `ReadsAlike` says so. -/
theorem readsAlike_iff {blob : Option Bytes}
    (hblob : T.blobPointerOffset.isSome → ∀ bf ∈ blob, (Build.wasm debugW).fits bf.length)
    (chunk : Bytes) :
    (∃ x, decodeChunkOn H (.native debugN) blob chunk = some x ∧
        decodeChunkWasm H (.wasm debugW) blob chunk = some x) ↔
      ReadsAlike H debugN debugW blob chunk := by
  unfold ReadsAlike
  split
  next tailOff bf hptr =>
    have hbf := hblob (by rw [hptr]; rfl) bf rfl
    have hlen := (Build.wasm debugW).lt_of_fits hbf
    rw [decodeChunkOn_of_pointer H (.native debugN) hptr (by simp)
      (Build.native_fits_of_wasm hbf),
      decodeChunkWasm_of_pointer H (.wasm debugW) hptr (by simp) hbf]
    simp only [Build.wasm_usizeBits, Build.wasm_debug] at hlen ⊢
    by_cases hcomplete : Complete T (some bf) chunk
    · have hin := inRange_of_complete hptr hcomplete
      have hover : ¬ (debugW = true ∧
          2 ^ 32 ≤ blobOff chunk tailOff % 2 ^ 32 + blobLen chunk tailOff) := by
        omega
      rw [selected_of_complete (.wasm debugW) hbf hin]
      simp only [if_pos hcomplete, hover, if_false]
      cases H.blobPanics (.native debugN) chunk _ <;> cases H.blobPanics (.wasm debugW) chunk _ <;>
        simp
    · simp only [if_neg hcomplete]
      cases H.blobPanics (.wasm debugW) chunk _ <;> cases debugW <;> simp [eq_comm]
  next hplain =>
    obtain ⟨hnative, hwasm⟩ := decodeChunk_of_plain H
      (fun tailOff bf hptr hbf => hplain tailOff bf hptr hbf) (.native debugN) (.wasm debugW) chunk
    rw [hnative, hwasm]
    cases H.panics (.native debugN) chunk <;> cases H.panics (.wasm debugW) chunk <;> simp

/-- Where they do not panic, the native reader skips the record or they agree. -/
theorem skips_or_eq {blob : Option Bytes}
    (hblob : T.blobPointerOffset.isSome → ∀ bf ∈ blob, (Build.wasm debugW).fits bf.length)
    {chunk : Bytes} {x y : Option P} (hx : decodeChunkOn H (.native debugN) blob chunk = some x)
    (hy : decodeChunkWasm H (.wasm debugW) blob chunk = some y) : x = none ∨ x = y := by
  by_cases hplain : ∀ tailOff bf, T.blobPointerOffset = some tailOff → blob = some bf → False
  · obtain ⟨hnative, hwasm⟩ := decodeChunk_of_plain H hplain (.native debugN) (.wasm debugW) chunk
    rw [hnative, Option.ite_none_left_eq_some] at hx
    rw [hwasm, Option.ite_none_left_eq_some] at hy
    exact .inr ((Option.some.inj hx.2).symm.trans (Option.some.inj hy.2))
  · push Not at hplain
    obtain ⟨tailOff, bf, hptr, rfl, -⟩ := hplain
    have hbf := hblob (by rw [hptr]; rfl) bf rfl
    rw [decodeChunkOn_of_pointer H (.native debugN) hptr (by simp)
      (Build.native_fits_of_wasm hbf)] at hx
    rw [decodeChunkWasm_of_pointer H (.wasm debugW) hptr (by simp) hbf,
      Option.ite_none_left_eq_some, Option.ite_none_left_eq_some] at hy
    by_cases hcomplete : Complete T (some bf) chunk
    · have hin := inRange_of_complete hptr hcomplete
      rw [if_pos hcomplete, Option.ite_none_left_eq_some] at hx
      rw [selected_of_complete (.wasm debugW) hbf hin] at hy
      exact .inr ((Option.some.inj hx.2).symm.trans (Option.some.inj hy.2.2))
    · rw [if_neg hcomplete] at hx
      exact .inl (Option.some.inj hx).symm

end Chunk

/-! ## All records -/

/-- The files can be read into the memory of a `wasm32` build: they are shorter than `2^31`
    bytes, the `.blob` file where the type has one. -/
def FitsWasm (T : DataPoint P) (debugW : Bool) (files : DayFiles) : Prop :=
  (Build.wasm debugW).fits files.dat.length ∧
    (T.recordSize ≤ files.dat.length → T.blobPointerOffset.isSome → ∀ bf ∈ files.blob,
      (Build.wasm debugW).fits bf.length)

theorem readTailWasm_eq {debugW : Bool} {files : DayFiles} {limit : ℕ} (hlimit : limit ≠ 0)
    (hfits : FitsWasm T debugW files) :
    readTailWasm H (.wasm debugW) files limit =
      if files.dat.length < T.recordSize then some []
      else readEach (decodeChunkWasm H (.wasm debugW) files.blob)
        (tailChunks T files.dat limit) := by
  rw [readTailWasm, if_neg hlimit, Build.readAll, if_pos hfits.1, Option.bind_eq_bind,
    Option.bind_some]
  by_cases hshort : files.dat.length < T.recordSize
  · rw [if_pos hshort, if_pos hshort]
    rfl
  rw [if_neg hshort, if_neg hshort]
  cases hptr : T.blobPointerOffset with
  | none =>
    refine readEach_congr fun chunk _ => ?_
    simp only [decodeChunkWasm, hptr]
  | some tailOff =>
    cases hblob : files.blob with
    | none => rfl
    | some bf =>
      have hbf := hfits.2 (not_lt.mp hshort) (by rw [hptr]; rfl) bf hblob
      simp only [Build.readAll, if_pos hbf, Option.map_some]
      rfl

theorem readTailWasm_of_not_fits {debugW : Bool} {files : DayFiles} {limit : ℕ}
    (hlimit : limit ≠ 0) (hfits : ¬ FitsWasm T debugW files) :
    readTailWasm H (.wasm debugW) files limit = none := by
  rw [readTailWasm, if_neg hlimit, Build.readAll]
  by_cases hdat : (Build.wasm debugW).fits files.dat.length
  · rw [FitsWasm] at hfits
    push Not at hfits
    obtain ⟨hlong, hptr, bf, hblob, hbf⟩ := hfits hdat
    obtain ⟨tailOff, hptr⟩ := Option.isSome_iff_exists.mp hptr
    rw [if_pos hdat, Option.bind_eq_bind, Option.bind_some, if_neg (not_lt.mpr hlong)]
    rw [Option.mem_def] at hblob
    simp only [hptr, hblob, Build.readAll, if_neg hbf, Option.map_none]
    rfl
  · rw [if_neg hdat]
    rfl

/-- **Main theorem.** The browser returns the points that the native reader returns, and
    neither panics, exactly when the files fit and both readers treat each of the records
    alike. -/
theorem readTail_agrees_iff {P : Type} {T : DataPoint P} (H : Hooks T) (debugN debugW : Bool)
    (files : DayFiles) (limit : ℕ) :
    (∃ ps, readDayTailOn H (.native debugN) files limit = some ps ∧
        readTailWasm H (.wasm debugW) files limit = some ps) ↔
      limit = 0 ∨ FitsWasm T debugW files ∧
        (T.recordSize ≤ files.dat.length → ∀ chunk ∈ tailChunks T files.dat limit,
          ReadsAlike H debugN debugW files.blob chunk) := by
  by_cases hlimit : limit = 0
  · subst hlimit
    have hnone : tailChunks T files.dat 0 = [] := by
      rw [tailChunks, Nat.zero_min]
      rfl
    refine iff_of_true ⟨[], ?_, if_pos rfl⟩ (.inl rfl)
    rw [readDayTailOn, hnone, readEach_nil, ite_self]
  by_cases hfits : FitsWasm T debugW files
  · rw [readTailWasm_eq H hlimit hfits, readDayTailOn]
    simp only [hlimit, hfits, true_and, false_or]
    by_cases hshort : files.dat.length < T.recordSize
    · simp [hshort, not_le.mpr hshort]
    · have hlong := not_lt.mp hshort
      simp only [if_neg hshort, hlong, forall_const]
      rw [readEach_agree_iff fun chunk _ x y hx hy => skips_or_eq H (hfits.2 hlong) hx hy]
      exact forall₂_congr fun chunk _ => readsAlike_iff H (hfits.2 hlong) chunk
  · rw [readTailWasm_of_not_fits H hlimit hfits]
    simp [hlimit, hfits]

end Digdigdig3.Series.DiskStore
