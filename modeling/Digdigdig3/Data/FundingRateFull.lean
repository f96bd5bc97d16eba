import Digdigdig3.Data.Header
import Digdigdig3.Lib.Utf8

/-!
# `FundingRateFullPoint`

The codec of `FundingRateFullPoint`
(`crates/digdigdig3-station/src/data/funding_rate_ext.rs`): 23 numbers of 8 bytes in the
header, five optional strings in the blob. `encode` and `decode` count the bytes of the
numbers and assert, in debug builds, that they end where the blob pointer starts.

* `numericEnd_ne`: they do not, there is a gap of 4 bytes.
* `decodeStrs_encodeStrs_iff`: the strings read back that are neither empty nor cut.
* `fundingRateFull_readsBack_iff`: when the point does.
-/

namespace Digdigdig3.Data

/-! ## Optional strings -/

/-- `encode_str_blob` (lines 295–300). -/
def encodeStrBlob (s : Option String) : Bytes :=
  let bytes := utf8 (s.getD "")
  let len := min bytes.length 65535
  toLe 2 len ++ bytes.take len

/-- `decode_str_blob` (lines 302–314), with the new `offset`. -/
def decodeStrBlob (blob : Bytes) (offset : ℕ) : Option (Option String) × ℕ :=
  if offset + 2 > blob.length then (none, offset)
  else
    let slen := ofLe (slice blob offset 2)
    let offset := offset + 2
    if offset + slen > blob.length then (none, offset)
    else
      match fromUtf8 (slice blob offset slen) with
      | none => (none, offset)
      | some s => (some (if s = "" then none else some s), offset + slen)

/-- The optional strings that survive: no empty one, and none of 64 KiB or more. -/
def KeptStr (s : Option String) : Prop := s ≠ some "" ∧ (utf8 (s.getD "")).length ≤ 65535

theorem decodeStrBlob_append (s : Option String) (pre rest : Bytes) :
    decodeStrBlob (pre ++ (encodeStrBlob s ++ rest)) pre.length =
      match fromUtf8 ((utf8 (s.getD "")).take (min (utf8 (s.getD "")).length 65535)) with
      | none => (none, pre.length + 2)
      | some t => (some (if t = "" then none else some t), (pre ++ encodeStrBlob s).length) := by
  have hlt : min (utf8 (s.getD "")).length 65535 < 256 ^ 2 := by
    have := min_le_right (utf8 (s.getD "")).length 65535
    omega
  have hbody : ((utf8 (s.getD "")).take (min (utf8 (s.getD "")).length 65535)).length =
      min (utf8 (s.getD "")).length 65535 := by
    rw [List.length_take]
    omega
  have hlen := slice_append_mid pre (toLe 2 (min (utf8 (s.getD "")).length 65535))
    ((utf8 (s.getD "")).take (min (utf8 (s.getD "")).length 65535) ++ rest)
  have hslice := slice_append_mid (pre ++ toLe 2 (min (utf8 (s.getD "")).length 65535))
    ((utf8 (s.getD "")).take (min (utf8 (s.getD "")).length 65535)) rest
  rw [length_toLe] at hlen
  rw [List.length_append, length_toLe, List.append_assoc, hbody] at hslice
  rw [encodeStrBlob]
  simp only [List.append_assoc]
  rw [decodeStrBlob, if_neg (by simp only [List.length_append, length_toLe]; omega), hlen,
    ofLe_toLe_of_lt hlt]
  simp only
  rw [if_neg (by simp only [List.length_append, length_toLe, hbody]; omega), hslice]
  simp only [List.length_append, length_toLe, hbody, Nat.add_assoc]

/-- A surviving string reads back, and the next one is read from behind it. -/
theorem decodeStrBlob_of_kept {s : Option String} (h : KeptStr s) (pre rest : Bytes) :
    decodeStrBlob (pre ++ (encodeStrBlob s ++ rest)) pre.length =
      (some s, (pre ++ encodeStrBlob s).length) := by
  rw [decodeStrBlob_append, min_eq_left h.2, List.take_length, fromUtf8_utf8]
  cases s with
  | none => rfl
  | some t =>
    have hne : t ≠ "" := fun ht => h.1 (congrArg some ht)
    simp only [Option.getD_some, if_neg hne]

/-- Any other string does not read back. -/
theorem decodeStrBlob_ne {s : Option String} (h : ¬ KeptStr s) (pre rest : Bytes) :
    (decodeStrBlob (pre ++ (encodeStrBlob s ++ rest)) pre.length).1.getD none ≠ s := by
  intro heq
  rw [decodeStrBlob_append] at heq
  cases s with
  | none => exact h ⟨by simp, by decide⟩
  | some t =>
    cases hread : fromUtf8 ((utf8 t).take (min (utf8 t).length 65535)) with
    | none =>
      simp only [Option.getD_some, hread] at heq
      cases heq
    | some u =>
      simp only [Option.getD_some, hread] at heq
      split_ifs at heq with hu
      cases heq
      have hlen := congrArg List.length (utf8_of_fromUtf8 hread)
      rw [List.length_take] at hlen
      refine h ⟨fun ht => hu (Option.some.inj ht), ?_⟩
      rw [Option.getD_some]
      omega

/-- `n` strings, each read from behind the one before it. -/
def decodeStrs (blob : Bytes) : ℕ → ℕ → List (Option String)
  | 0, _ => []
  | n + 1, offset =>
    (decodeStrBlob blob offset).1.getD none :: decodeStrs blob n (decodeStrBlob blob offset).2

/-- Strings read back together exactly when each of them survives. -/
theorem decodeStrs_encodeStrs_iff (ss : List (Option String)) (pre : Bytes) :
    decodeStrs (pre ++ ss.flatMap encodeStrBlob) ss.length pre.length = ss ↔
      ∀ s ∈ ss, KeptStr s := by
  induction ss generalizing pre with
  | nil => simp [decodeStrs]
  | cons s ss ih =>
    rw [List.flatMap_cons, List.length_cons, decodeStrs, List.cons.injEq, List.forall_mem_cons]
    by_cases hs : KeptStr s
    · rw [decodeStrBlob_of_kept hs, ← List.append_assoc, ih (pre ++ encodeStrBlob s)]
      simp [hs]
    · have hne := decodeStrBlob_ne hs pre (ss.flatMap encodeStrBlob)
      simp [hs, hne]

/-! ## The point -/

/-- `FundingRateFullPoint` (lines 187–218). -/
structure FundingRateFullPoint where
  tsMs : Int64
  rate : F64
  nextFundingTimeMs : Option Int64
  markPrice : F64
  indexPrice : F64
  prevIndexPrice : F64
  realizedRate : F64
  estimatedRate : F64
  premium : F64
  interestRate : F64
  interest1h : F64
  interest8h : F64
  relativeFundingRate : F64
  avgPremiumIndex : F64
  impactValue : F64
  fundingIntervalHours : F64
  maxFundingRate : F64
  minFundingRate : F64
  settFundingRate : F64
  nextFundingRate : F64
  prevFundingTime : Option Int64
  accruedFunding : F64
  fundingStep : Option Int64
  symbol : Option String
  settState : Option String
  method : Option String
  formulaType : Option String
  feeAsset : Option String
  deriving DecidableEq

/-- `FULL_BLOB_OFFSET` (line 184). -/
def fullBlobOffset : ℕ := 188

/-- The numbers that `encode_fr_full_numeric` writes (lines 221–248), in order. -/
def frFullNumbers (p : FundingRateFullPoint) : List Bytes :=
  [i64ToLe p.tsMs, f64ToLe p.rate, i64ToLe (optI64Enc p.nextFundingTimeMs), f64ToLe p.markPrice,
    f64ToLe p.indexPrice, f64ToLe p.prevIndexPrice, f64ToLe p.realizedRate,
    f64ToLe p.estimatedRate, f64ToLe p.premium, f64ToLe p.interestRate, f64ToLe p.interest1h,
    f64ToLe p.interest8h, f64ToLe p.relativeFundingRate, f64ToLe p.avgPremiumIndex,
    f64ToLe p.impactValue, f64ToLe p.fundingIntervalHours, f64ToLe p.maxFundingRate,
    f64ToLe p.minFundingRate, f64ToLe p.settFundingRate, f64ToLe p.nextFundingRate,
    i64ToLe (optI64Enc p.prevFundingTime), f64ToLe p.accruedFunding,
    i64ToLe (optI64Enc p.fundingStep)]

/-- Eight bytes each, from `o` on. -/
def packed : ℕ → List Bytes → List (ℕ × Bytes)
  | _, [] => []
  | o, b :: bs => (o, b) :: packed (o + 8) bs

/-- The offset that `o` has reached behind the last number (lines 247 and 291). -/
def numericEnd : ℕ := 23 * 8

/-- The assertions at the end of `encode_fr_full_numeric` and `decode_fr_full_numeric` fail. -/
theorem numericEnd_ne : numericEnd ≠ fullBlobOffset := by decide

theorem inOrder_packed {bs : List Bytes} (h : ∀ b ∈ bs, b.length = 8) (o : ℕ) :
    InOrder o (packed o bs) (o + bs.length * 8) := by
  induction bs generalizing o with
  | nil => exact Nat.le_add_right _ _
  | cons b bs ih =>
    rw [List.forall_mem_cons] at h
    have htail := ih h.2 (o + 8)
    refine ⟨le_rfl, ?_⟩
    rw [h.1]
    rwa [List.length_cons, Nat.add_mul, one_mul, Nat.add_comm (bs.length * 8), ← Nat.add_assoc]

/-- `decode_fr_full_numeric` (lines 250–293). -/
def decodeFrFullNumeric (bytes : Bytes) : Option FundingRateFullPoint :=
  if bytes.length < fullBlobOffset then none
  else
    let rf64 o := f64OfLe (slice bytes o 8)
    let ru64 o := i64OfLe (slice bytes o 8)
    some
      { tsMs := ru64 0, rate := rf64 8, nextFundingTimeMs := optI64Dec (ru64 16),
        markPrice := rf64 24, indexPrice := rf64 32, prevIndexPrice := rf64 40,
        realizedRate := rf64 48, estimatedRate := rf64 56, premium := rf64 64,
        interestRate := rf64 72, interest1h := rf64 80, interest8h := rf64 88,
        relativeFundingRate := rf64 96, avgPremiumIndex := rf64 104, impactValue := rf64 112,
        fundingIntervalHours := rf64 120, maxFundingRate := rf64 128, minFundingRate := rf64 136,
        settFundingRate := rf64 144, nextFundingRate := rf64 152,
        prevFundingTime := optI64Dec (ru64 160), accruedFunding := rf64 168,
        fundingStep := optI64Dec (ru64 176), symbol := none, settState := none, method := none,
        formulaType := none, feeAsset := none }

/-- `FundingRateFullPoint::decode` (lines 359–364). -/
def FundingRateFullPoint.decode (bytes : Bytes) : Option FundingRateFullPoint :=
  if bytes.length ≠ 200 then none else decodeFrFullNumeric bytes

/-- The strings of a point, in the order of `encode_blob`. -/
def FundingRateFullPoint.strs (p : FundingRateFullPoint) : List (Option String) :=
  [p.symbol, p.settState, p.method, p.formulaType, p.feeAsset]

/-- `FundingRateFullPoint::encode_blob` (lines 405–413). -/
def FundingRateFullPoint.encodeBlob (p : FundingRateFullPoint) : Bytes :=
  p.strs.flatMap encodeStrBlob

/-- The strings that `decode_blob` reads into a point (lines 417–422). -/
def FundingRateFullPoint.readStrs (blob : Bytes) (p : FundingRateFullPoint) :
    FundingRateFullPoint :=
  let symbol := decodeStrBlob blob 0
  let settState := decodeStrBlob blob symbol.2
  let method := decodeStrBlob blob settState.2
  let formulaType := decodeStrBlob blob method.2
  let feeAsset := decodeStrBlob blob formulaType.2
  { p with symbol := symbol.1.getD none, settState := settState.1.getD none,
           method := method.1.getD none, formulaType := formulaType.1.getD none,
           feeAsset := feeAsset.1.getD none }

/-- `FundingRateFullPoint::decode_blob` (lines 415–424). -/
def FundingRateFullPoint.decodeBlob (header blob : Bytes) : Option FundingRateFullPoint :=
  (decodeFrFullNumeric header).map (FundingRateFullPoint.readStrs blob)

theorem strs_readStrs (blob : Bytes) (p : FundingRateFullPoint) :
    (p.readStrs blob).strs = decodeStrs blob 5 0 := by
  simp only [FundingRateFullPoint.readStrs, FundingRateFullPoint.strs, decodeStrs]

/-- `impl DataPoint for FundingRateFullPoint` (lines 352–427). -/
def fundingRateFull : BlobCodec FundingRateFullPoint where
  size := 200
  tailOff := fullBlobOffset
  fields p := packed 0 (frFullNumbers p)
  inOrder p := by
    have h : InOrder 0 (packed 0 (frFullNumbers p)) (0 + 23 * 8) :=
      inOrder_packed (by simp [frFullNumbers]) 0
    exact h.mono (by decide)
  tail_le := by decide
  decode := FundingRateFullPoint.decode
  timestampMs p := p.tsMs
  encodeBlob := FundingRateFullPoint.encodeBlob
  decodeBlob := FundingRateFullPoint.decodeBlob
  debugAsserts := decide (numericEnd = fullBlobOffset)

/-- The point with its optional integers as they come back. -/
def FundingRateFullPoint.sentinels (p : FundingRateFullPoint) : FundingRateFullPoint :=
  { p with nextFundingTimeMs := optI64Dec (optI64Enc p.nextFundingTimeMs),
           prevFundingTime := optI64Dec (optI64Enc p.prevFundingTime),
           fundingStep := optI64Dec (optI64Enc p.fundingStep) }

/-- The point without its strings. -/
def FundingRateFullPoint.numeric (p : FundingRateFullPoint) : FundingRateFullPoint :=
  { p with symbol := none, settState := none, method := none, formulaType := none,
           feeAsset := none }

theorem numeric_readStrs (blob : Bytes) (p : FundingRateFullPoint) :
    (p.readStrs blob).numeric = p.numeric := by
  simp only [FundingRateFullPoint.readStrs, FundingRateFullPoint.numeric]

@[simp] theorem numeric_numeric (p : FundingRateFullPoint) : p.numeric.numeric = p.numeric := rfl

/-- A point is its numbers and its strings. -/
theorem eq_iff_numeric_strs (p q : FundingRateFullPoint) :
    p = q ↔ p.numeric = q.numeric ∧ p.strs = q.strs := by
  constructor
  · rintro rfl
    exact ⟨rfl, rfl⟩
  · rintro ⟨hnum, hstrs⟩
    cases p
    cases q
    simp only [FundingRateFullPoint.numeric, FundingRateFullPoint.mk.injEq] at hnum
    simp only [FundingRateFullPoint.strs, List.cons.injEq] at hstrs
    simp only [hnum, hstrs]

theorem decodeFrFullNumeric_header (p : FundingRateFullPoint) (off len : ℕ) :
    decodeFrFullNumeric (fundingRateFull.header p off len) = some p.sentinels.numeric := by
  have hlen : (fundingRateFull.header p off len).length = 200 :=
    fundingRateFull.length_header p off len
  have hu : ∀ {a i : ℕ} {x : Int64}, (packed 0 (frFullNumbers p))[i]? = some (a, i64ToLe x) →
      i64OfLe (slice (fundingRateFull.header p off len) a 8) = x :=
    fun h => fundingRateFull.i64OfLe_header (List.mem_of_getElem? h) off len
  have hf : ∀ {a i : ℕ} {x : F64}, (packed 0 (frFullNumbers p))[i]? = some (a, f64ToLe x) →
      f64OfLe (slice (fundingRateFull.header p off len) a 8) = x :=
    fun h => fundingRateFull.f64OfLe_header (List.mem_of_getElem? h) off len
  rw [decodeFrFullNumeric, if_neg (by rw [hlen]; decide)]
  simp only
  rw [hu (i := 0) rfl, hf (i := 1) rfl, hu (i := 2) rfl, hf (i := 3) rfl, hf (i := 4) rfl,
    hf (i := 5) rfl, hf (i := 6) rfl, hf (i := 7) rfl, hf (i := 8) rfl, hf (i := 9) rfl,
    hf (i := 10) rfl, hf (i := 11) rfl, hf (i := 12) rfl, hf (i := 13) rfl, hf (i := 14) rfl,
    hf (i := 15) rfl, hf (i := 16) rfl, hf (i := 17) rfl, hf (i := 18) rfl, hf (i := 19) rfl,
    hu (i := 20) rfl, hf (i := 21) rfl, hu (i := 22) rfl]
  rfl

theorem numeric_sentinels_eq_iff (p : FundingRateFullPoint) :
    p.sentinels.numeric = p.numeric ↔ p.nextFundingTimeMs ≠ some Int64.minValue ∧
      p.prevFundingTime ≠ some Int64.minValue ∧ p.fundingStep ≠ some Int64.minValue := by
  rw [← optI64Dec_optI64Enc_iff, ← optI64Dec_optI64Enc_iff, ← optI64Dec_optI64Enc_iff]
  constructor
  · intro h
    exact ⟨congrArg FundingRateFullPoint.nextFundingTimeMs h,
      congrArg FundingRateFullPoint.prevFundingTime h,
      congrArg FundingRateFullPoint.fundingStep h⟩
  · rintro ⟨h1, h2, h3⟩
    rw [FundingRateFullPoint.sentinels, h1, h2, h3]

/-- A point reads back unless an optional integer is `i64::MIN`, or a string is there but
    empty or has 64 KiB or more. -/
theorem fundingRateFull_readsBack_iff (p : FundingRateFullPoint) :
    fundingRateFull.ReadsBack p ↔
      (p.nextFundingTimeMs ≠ some Int64.minValue ∧ p.prevFundingTime ≠ some Int64.minValue ∧
        p.fundingStep ≠ some Int64.minValue) ∧ ∀ s ∈ p.strs, KeptStr s := by
  have hread : ∀ off len, fundingRateFull.decodeBlob (fundingRateFull.header p off len)
      (fundingRateFull.encodeBlob p) =
        some (p.sentinels.numeric.readStrs (p.strs.flatMap encodeStrBlob)) := by
    intro off len
    rw [show fundingRateFull.decodeBlob = FundingRateFullPoint.decodeBlob from rfl,
      FundingRateFullPoint.decodeBlob, decodeFrFullNumeric_header, Option.map_some]
    rfl
  rw [← numeric_sentinels_eq_iff, ← decodeStrs_encodeStrs_iff p.strs []]
  simp only [BlobCodec.ReadsBack, hread, Option.some.injEq, forall_const]
  rw [eq_iff_numeric_strs, numeric_readStrs, numeric_numeric, strs_readStrs]
  rfl

end Digdigdig3.Data
