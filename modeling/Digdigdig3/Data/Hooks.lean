import Digdigdig3.Data.RoundTrip
import Digdigdig3.Series.ReadTailWasm

/-!
# The codecs in each build

`decode` and `decode_blob` of the types with a blob, with what panics in them: the sizes of
counted lists, which overflow a `usize` of 32 bits, and the `debug_assert`s of
`FundingRateFullPoint`. The other codecs compute nothing that could.

* `bookHooks`, `footprintHooks`, `fundingRateFullHooks`, `plainHooks`: the hooks.
* `readTail_differs_at_dangling_pointer`: a record that only the browser returns.
-/

namespace Digdigdig3.Data

open Series

/-- The hooks of a type in which nothing panics. -/
def plainHooks {P : Type} (T : DataPoint P) : Hooks T where
  decode _ header := some (T.decode header)
  decodeBlob _ header blob := some (T.decodeBlob header blob)
  panics _ _ := false
  blobPanics _ _ _ := false
  decode_eq _ _ := rfl
  decodeBlob_eq _ _ _ _ _ := rfl

def scalarBarHooks : Hooks scalarBar := plainHooks scalarBar

def tpoSessionHooks : Hooks tpoSession.dataPoint := plainHooks tpoSession.dataPoint

def orderbookL3Hooks : Hooks orderbookL3.dataPoint := plainHooks orderbookL3.dataPoint

def marketWarningHooks : Hooks marketWarning.dataPoint := plainHooks marketWarning.dataPoint

/-! ## Order book points -/

/-- `decodeSides` in the build `b`. -/
def decodeSidesOn (b : Build) (bids asks : List (F64 × F64)) (blob : Bytes) :
    Option (List (F64 × F64) × List (F64 × F64)) := do
  match ← decodeCountedOn levelItem b blob with
  | none => return (bids, asks)
  | some (bids, consumed) =>
    match ← decodeCountedOn levelItem b (blob.drop consumed) with
    | none => return (bids, asks)
    | some (asks, _) => return (bids, asks)

/-- The count of the first side, or of the second if the first is read, panics. -/
def sidesPanics (b : Build) (blob : Bytes) : Bool :=
  countPanics b 16 blob ||
    match decodeSideBlob blob with
    | none => false
    | some (_, consumed) => countPanics b 16 (blob.drop consumed)

theorem decodeSidesOn_eq (b : Build) (bids asks : List (F64 × F64)) {blob : Bytes}
    (hbits : 3 ≤ b.usizeBits) (hfits : b.fits blob.length) :
    decodeSidesOn b bids asks blob =
      if sidesPanics b blob then none else some (decodeSides bids asks blob) := by
  rw [decodeSidesOn, decodeCountedOn_eq levelItem b hbits hfits, sidesPanics, decodeSides,
    decodeSideBlob]
  show _ = if (countPanics b levelItem.width blob || _) = true then _ else _
  cases countPanics b levelItem.width blob with
  | true => rfl
  | false =>
    cases decodeCounted levelItem blob with
    | none => rfl
    | some r =>
      have hdrop : b.fits (blob.drop r.2).length := by
        refine b.fits_of_le hfits ?_
        rw [List.length_drop]
        exact Nat.sub_le _ _
      simp only [Bool.false_eq_true, if_false, Option.bind_eq_bind, Option.bind_some,
        decodeCountedOn_eq levelItem b hbits hdrop, Bool.false_or, decodeSideBlob]
      show _ = if countPanics b levelItem.width _ = true then _ else _
      cases countPanics b levelItem.width (blob.drop r.2) with
      | true => rfl
      | false => cases decodeCounted levelItem (blob.drop r.2) <;> rfl

/-- The hooks of a point with two sides. -/
def bookHooks {P : Type} (C : BlobCodec P) (bids asks : P → List (F64 × F64))
    (setSides : P → List (F64 × F64) × List (F64 × F64) → P)
    (h : ∀ header blob, C.decodeBlob header blob =
      (C.decode header).map fun p => setSides p (decodeSides (bids p) (asks p) blob)) :
    Hooks C.dataPoint where
  decode _ header := some (C.decode header)
  decodeBlob b header blob :=
    match C.decode header with
    | none => some none
    | some p => (decodeSidesOn b (bids p) (asks p) blob).map fun sides => some (setSides p sides)
  panics _ _ := false
  blobPanics b header blob := (C.decode header).isSome && sidesPanics b blob
  decode_eq _ _ := rfl
  decodeBlob_eq b header blob hbits hfits := by
    show _ = if _ then none else some (C.decodeBlob header blob)
    rw [h]
    cases C.decode header with
    | none => rfl
    | some p =>
      simp only [decodeSidesOn_eq b _ _ hbits hfits, Option.isSome_some, Bool.true_and]
      cases sidesPanics b blob <;> rfl

def obSnapshotHooks : Hooks obSnapshot.dataPoint :=
  bookHooks obSnapshot ObSnapshotPoint.bids ObSnapshotPoint.asks
    (fun p sides => { p with bids := sides.1, asks := sides.2 }) fun _ _ => rfl

def obDeltaHooks : Hooks obDelta.dataPoint :=
  bookHooks obDelta ObDeltaPoint.bidChanges ObDeltaPoint.askChanges
    (fun p sides => { p with bidChanges := sides.1, askChanges := sides.2 }) fun _ _ => rfl

def obSnapshotIndicatorsHooks : Hooks obSnapshotIndicators.dataPoint :=
  bookHooks obSnapshotIndicators ObSnapshotIndicatorsPoint.bids ObSnapshotIndicatorsPoint.asks
    (fun p sides => { p with bids := sides.1, asks := sides.2 }) fun _ _ => rfl

/-! ## The other types -/

/-- `FootprintPoint::decode_blob` in the build `b`. -/
def FootprintPoint.decodeBlobOn (b : Build) (header blob : Bytes) :
    Option (Option FootprintPoint) :=
  match FootprintPoint.decode header with
  | none => some none
  | some p => do
    match ← decodeCountedOn footprintItem b blob with
    | none => return some p
    | some (levels, _) => return some { p with levels := levels }

def footprintHooks : Hooks footprint.dataPoint where
  decode _ header := some (footprint.decode header)
  decodeBlob := FootprintPoint.decodeBlobOn
  panics _ _ := false
  blobPanics b header blob := (FootprintPoint.decode header).isSome && countPanics b 24 blob
  decode_eq _ _ := rfl
  decodeBlob_eq b header blob hbits hfits := by
    show _ = if _ then none else some (FootprintPoint.decodeBlob header blob)
    rw [FootprintPoint.decodeBlobOn, FootprintPoint.decodeBlob]
    cases FootprintPoint.decode header with
    | none => rfl
    | some p =>
      simp only [decodeCountedOn_eq footprintItem b hbits hfits, Option.isSome_some,
        Bool.true_and, Option.map_some]
      show _ = if countPanics b footprintItem.width blob = true then _ else _
      cases countPanics b footprintItem.width blob with
      | true => rfl
      | false => cases decodeCounted footprintItem blob <;> rfl

/-- `decode_fr_full_numeric` in the build `b`, with its `debug_assert_eq!`
    (`funding_rate_ext.rs` lines 250–293). -/
def decodeFrFullNumericOn (b : Build) (bytes : Bytes) : Option (Option FundingRateFullPoint) :=
  if bytes.length < fullBlobOffset then some none
  else if b.debug ∧ numericEnd ≠ fullBlobOffset then none
  else some (decodeFrFullNumeric bytes)

theorem decodeFrFullNumericOn_eq (b : Build) (bytes : Bytes) :
    decodeFrFullNumericOn b bytes =
      if b.debug && decide (fullBlobOffset ≤ bytes.length) then none
      else some (decodeFrFullNumeric bytes) := by
  rw [decodeFrFullNumericOn]
  by_cases hshort : bytes.length < fullBlobOffset
  · rw [if_pos hshort, decodeFrFullNumeric, if_pos hshort, if_neg (by simp [hshort])]
  · rw [if_neg hshort]
    have hlong := not_lt.mp hshort
    simp only [numericEnd_ne, ne_eq, not_false_eq_true, and_true, hlong, decide_true,
      Bool.and_true]

def fundingRateFullHooks : Hooks fundingRateFull.dataPoint where
  decode b header := if header.length ≠ 200 then some none else decodeFrFullNumericOn b header
  decodeBlob b header blob :=
    (decodeFrFullNumericOn b header).map fun p => p.map (FundingRateFullPoint.readStrs blob)
  panics b header := b.debug && decide (header.length = 200)
  blobPanics b header _ := b.debug && decide (fullBlobOffset ≤ header.length)
  decode_eq b header := by
    show _ = if _ then none else some (FundingRateFullPoint.decode header)
    rw [FundingRateFullPoint.decode]
    by_cases hlen : header.length = 200
    · rw [if_neg (not_not_intro hlen), if_neg (not_not_intro hlen), decodeFrFullNumericOn_eq,
        hlen]
      rfl
    · rw [if_pos hlen, if_pos hlen, if_neg (by simp [hlen])]
  decodeBlob_eq b header blob _ _ := by
    show _ = if _ then none else some (FundingRateFullPoint.decodeBlob header blob)
    rw [decodeFrFullNumericOn_eq, FundingRateFullPoint.decodeBlob]
    split_ifs <;> rfl

/-! ## A record that only the browser returns -/

/-- The day files of a book whose blob was never written. -/
def danglingFiles : DayFiles where
  dat := obSnapshot.header { tsMs := 5, bids := [], asks := [] } 0 8
  blob := some []

/-- The native reader skips the record with a warning, `read_tail` returns an empty book. -/
theorem readTail_differs_at_dangling_pointer :
    ¬ ∃ ps, DiskStore.readDayTailOn obSnapshotHooks (.native false) danglingFiles 1 = some ps ∧
      DiskStore.readTailWasm obSnapshotHooks (.wasm false) danglingFiles 1 = some ps := by
  have hnative : DiskStore.readDayTailOn obSnapshotHooks (.native false) danglingFiles 1 =
      some [] := by
    decide +kernel
  have hwasm : DiskStore.readTailWasm obSnapshotHooks (.wasm false) danglingFiles 1 =
      some [{ tsMs := 5, bids := [], asks := [] }] := by
    decide +kernel
  rintro ⟨ps, h, h'⟩
  rw [hnative, Option.some.injEq] at h
  rw [hwasm, Option.some.injEq, ← h] at h'
  cases h'

end Digdigdig3.Data
