import Digdigdig3.Lib.Utf8
import Digdigdig3.Lib.WireFormat

/-!
# The protobuf reader of Yahoo

`parse_protobuf` of `crates/digdigdig3/src/l1/free/yahoo/websocket.rs`, a loop over positions in a
byte slice. An `f32` is its 32 bits; the schema is that of the fields which the code reads.

* `decodeVarint_append`, `exists_varint64`: a varint is read, and nothing else.
* `iteration_field`, `iteration_torn`, `iteration_malformed`: what one iteration does.
* `parseProtobuf_whole`, `parseProtobuf_torn`, `parseProtobuf_malformed`: what a run does.
-/

namespace Digdigdig3.Yahoo

open WireFormat

/-! ## Data -/

/-- The bits of an `f32`. -/
abbrev F32 := UInt32

/-- `PricingData` (lines 62–81). -/
structure PricingData where
  id : Option String
  price : Option F32
  time : Option Int64
  currency : Option String
  exchange : Option String
  changePercent : Option F32
  dayHigh : Option F32
  dayLow : Option F32
  dayOpen : Option F32
  previousClose : Option F32
  bid : Option F32
  ask : Option F32
  bidSize : Option Int64
  askSize : Option Int64
  volume : Option Int64
  change : Option F32
  shortName : Option String
  marketState : Option String
  deriving DecidableEq

/-- `PricingData::default()`. -/
def PricingData.default : PricingData :=
  ⟨none, none, none, none, none, none, none, none, none, none, none, none, none, none, none, none,
    none, none⟩

/-- `WireType` (lines 85–91). -/
inductive WireType
  | varint
  | fixed64
  | lengthDelimited
  | fixed32

/-- `WireType::from_u64` (lines 93–101). -/
def WireType.fromU64 : ℕ → Option WireType
  | 0 => some varint
  | 1 => some fixed64
  | 2 => some lengthDelimited
  | 5 => some fixed32
  | _ => none

/-! ## Decoding -/

/-- The loop of `decode_varint`, from the byte `i` on. -/
def decodeVarintFrom : Bytes → ℕ → ℕ → UInt64 → Option (UInt64 × ℕ)
  | [], _, _, _ => none
  | byte :: buf, i, shift, result =>
    if 64 ≤ shift then none
    else
      let result := result ||| UInt64.ofNat (byte.val % 128) <<< UInt64.ofNat shift
      if byte.val < 128 then some (result, i + 1)
      else decodeVarintFrom buf (i + 1) (shift + 7) result

/-- `decode_varint` (lines 105–119). -/
def decodeVarint (buf : Bytes) : Option (UInt64 × ℕ) := decodeVarintFrom buf 0 0 0

/-- `decode_sint64` (lines 123–125). -/
def decodeSint64 (val : UInt64) : Int64 := (val >>> 1).toInt64 ^^^ -(val &&& 1).toInt64

/-- `decode_f32` (lines 128–134). -/
def decodeF32 (buf : Bytes) : Option F32 :=
  if buf.length < 4 then none else some (UInt32.ofNat (ofLe (buf.take 4)))

/-- The fields of a varint (lines 167–181). -/
def applyVarint (result : PricingData) (fieldNumber : ℕ) (val : UInt64) : PricingData :=
  match fieldNumber with
  | 3 => { result with time := some (decodeSint64 val) }
  | 15 => { result with bidSize := some val.toInt64 }
  | 16 => { result with askSize := some val.toInt64 }
  | 17 => { result with volume := some val.toInt64 }
  | _ => result

/-- The fields of a text (lines 202–210). -/
def applyDelimited (result : PricingData) (fieldNumber : ℕ) (fieldData : Bytes) : PricingData :=
  match fieldNumber with
  | 1 => { result with id := fromUtf8 fieldData }
  | 4 => { result with currency := fromUtf8 fieldData }
  | 5 => { result with exchange := fromUtf8 fieldData }
  | 19 => { result with shortName := fromUtf8 fieldData }
  | 30 => { result with marketState := fromUtf8 fieldData }
  | _ => result

/-- The fields of a float (lines 220–234). -/
def applyFixed32 (result : PricingData) (fieldNumber : ℕ) (val : Option F32) : PricingData :=
  match fieldNumber with
  | 2 => { result with price := val }
  | 8 => { result with changePercent := val }
  | 9 => { result with dayHigh := val }
  | 10 => { result with dayLow := val }
  | 11 => { result with dayOpen := val }
  | 12 => { result with previousClose := val }
  | 13 => { result with bid := val }
  | 14 => { result with ask := val }
  | 18 => { result with change := val }
  | _ => result

/-- How an iteration ends. -/
inductive Iteration
  | next (pos : ℕ) (result : PricingData)
  | returned (result : Option PricingData)
  | panicked

/-- One iteration of `parse_protobuf` (lines 155–237). As `pos` is at most the length of a slice, no
    sum but that with a length of the message can overflow: then the sum panics, or, without
    overflow checks, the range that starts behind its end does. -/
def iteration (data : Bytes) (pos : ℕ) (result : PricingData) : Iteration :=
  match decodeVarint (data.drop pos) with
  | none => .returned none
  | some (tag, consumed) =>
    let pos := pos + consumed
    let fieldNumber := (tag >>> 3).toNat
    match WireType.fromU64 (tag &&& 7).toNat with
    | none => .returned none
    | some .varint =>
      match decodeVarint (data.drop pos) with
      | none => .returned none
      | some (val, consumed) => .next (pos + consumed) (applyVarint result fieldNumber val)
    | some .fixed64 =>
      if data.length < pos + 8 then .returned (some result) else .next (pos + 8) result
    | some .lengthDelimited =>
      match decodeVarint (data.drop pos) with
      | none => .returned none
      | some (len, consumed) =>
        let pos := pos + consumed
        let len := len.toNat
        if 2 ^ 64 ≤ pos + len then .panicked
        else if data.length < pos + len then .returned (some result)
        else .next (pos + len) (applyDelimited result fieldNumber (slice data pos len))
    | some .fixed32 =>
      if data.length < pos + 4 then .returned (some result)
      else .next (pos + 4) (applyFixed32 result fieldNumber (decodeF32 (data.drop pos)))

/-! ## Varints -/

theorem or_shiftLeft_eq {result : UInt64} {digit shift : ℕ} (hshift : shift < 64)
    (hresult : result.toNat < 2 ^ shift) (hdigit : digit < 128) :
    result ||| UInt64.ofNat digit <<< UInt64.ofNat shift =
      UInt64.ofNat (result.toNat + 2 ^ shift * digit) := by
  apply UInt64.toNat_inj.mp
  have hpow : (2 : ℕ) ^ 64 = 2 ^ shift * 2 ^ (64 - shift) := by
    rw [← pow_add]
    congr 1
    omega
  have hdigit64 : (UInt64.ofNat digit).toNat = digit := UInt64.toNat_ofNat_of_lt (by
    simp only [UInt64.size]
    omega)
  have hshift64 : (UInt64.ofNat shift).toNat = shift := UInt64.toNat_ofNat_of_lt (by
    simp only [UInt64.size]
    omega)
  rw [UInt64.toNat_or, UInt64.toNat_shiftLeft, hdigit64, hshift64, Nat.mod_eq_of_lt hshift,
    Nat.shiftLeft_eq, UInt64.toNat_ofNat', mul_comm digit, hpow, Nat.mul_mod_mul_left,
    Nat.or_comm, ← Nat.two_pow_add_eq_or_of_lt hresult]
  have hlow : result.toNat % (2 ^ shift * 2 ^ (64 - shift)) = result.toNat := by
    rw [← hpow]
    exact Nat.mod_eq_of_lt result.toNat_lt
  have hmod : (result.toNat + 2 ^ shift * digit) % (2 ^ shift * 2 ^ (64 - shift)) =
      result.toNat + 2 ^ shift * (digit % 2 ^ (64 - shift)) := by
    rw [Nat.mod_mul, Nat.add_mul_mod_self_left, Nat.mod_eq_of_lt hresult,
      Nat.add_mul_div_left _ _ (Nat.two_pow_pos shift), Nat.div_eq_of_lt hresult, zero_add]
  rw [hmod, add_comm]

/-- **Run lemma.** The loop reads the rest of a varint. -/
theorem decodeVarintFrom_append {bs : Bytes} {n : ℕ} (h : Varint bs n) {i : ℕ}
    (hi : i + bs.length ≤ 10) {result : UInt64} (hresult : result.toNat < 2 ^ (7 * i))
    (rest : Bytes) : decodeVarintFrom (bs ++ rest) i (7 * i) result =
      some (UInt64.ofNat (result.toNat + 2 ^ (7 * i) * n), i + bs.length) := by
  induction h generalizing i result with
  | @last b hb =>
    rw [List.length_singleton] at hi
    have hshift : ¬ 64 ≤ 7 * i := by omega
    rw [List.singleton_append, decodeVarintFrom, if_neg hshift]
    simp only
    rw [if_pos hb, or_shiftLeft_eq (by omega) hresult (Nat.mod_lt _ (by decide)),
      Nat.mod_eq_of_lt hb]
    rfl
  | @more b bs n hb hbs ih =>
    rw [List.length_cons] at hi
    have hlen := List.length_pos_iff.mpr hbs.ne_nil
    have hshift : ¬ 64 ≤ 7 * i := by omega
    have hdigit : b.val % 128 < 128 := Nat.mod_lt _ (by decide)
    have hle : 2 ^ (7 * (i + 1)) ≤ 2 ^ 64 := Nat.pow_le_pow_right (by decide) (by omega)
    have hpow : 2 ^ (7 * (i + 1)) = 2 ^ (7 * i) * 128 := by
      rw [show 7 * (i + 1) = 7 * i + 7 by ring, pow_add]
      rfl
    have hnext : result.toNat + 2 ^ (7 * i) * (b.val % 128) < 2 ^ (7 * (i + 1)) := by
      rw [hpow]
      nlinarith
    have hvalue : (UInt64.ofNat (result.toNat + 2 ^ (7 * i) * (b.val % 128))).toNat =
        result.toNat + 2 ^ (7 * i) * (b.val % 128) := UInt64.toNat_ofNat_of_lt (by
      simp only [UInt64.size]
      omega)
    rw [List.cons_append, decodeVarintFrom, if_neg hshift]
    simp only
    rw [if_neg (not_lt.mpr hb), or_shiftLeft_eq (by omega) hresult hdigit,
      show 7 * i + 7 = 7 * (i + 1) by ring, ih (by omega) (by rw [hvalue]; exact hnext), hvalue,
      List.length_cons, hpow]
    congr 2
    · congr 1
      ring
    · omega

/-- A varint is read, whatever follows. -/
theorem decodeVarint_append {bs : Bytes} {v : UInt64} (h : Varint64 bs v) (rest : Bytes) :
    decodeVarint (bs ++ rest) = some (v, bs.length) := by
  obtain ⟨n, hn, hlen, rfl⟩ := h
  have hzero : (0 : UInt64).toNat < 2 ^ (7 * 0) := by decide
  have hread := decodeVarintFrom_append hn (by omega) hzero rest
  simpa [decodeVarint] using hread

theorem exists_varint_of_decodeVarintFrom {buf : Bytes} {i k : ℕ} {result v : UInt64}
    (h : decodeVarintFrom buf i (7 * i) result = some (v, k)) :
    ∃ bs rest n, buf = bs ++ rest ∧ Varint bs n ∧ i + bs.length ≤ 10 := by
  induction buf generalizing i result with
  | nil => cases h
  | cons byte buf ih =>
    rw [decodeVarintFrom] at h
    simp only at h
    split_ifs at h with hshift hlast
    · exact ⟨[byte], buf, _, rfl, .last hlast, by simp only [List.length_singleton]; omega⟩
    · obtain ⟨bs, rest, n, rfl, hbs, hlen⟩ := ih (i := i + 1) h
      exact ⟨byte :: bs, rest, _, rfl, .more (not_lt.mp hlast) hbs, by
        rw [List.length_cons]; omega⟩

/-- What is read is a varint. -/
theorem exists_varint64 {buf : Bytes} {v : UInt64} {k : ℕ} (h : decodeVarint buf = some (v, k)) :
    ∃ bs rest, buf = bs ++ rest ∧ Varint64 bs v ∧ k = bs.length := by
  obtain ⟨bs, rest, n, rfl, hbs, hlen⟩ := exists_varint_of_decodeVarintFrom (i := 0) h
  have hvarint : Varint64 bs (UInt64.ofNat n) := ⟨n, hbs, by omega, rfl⟩
  rw [decodeVarint_append hvarint] at h
  obtain ⟨rfl, rfl⟩ := Prod.mk.inj (Option.some.inj h)
  exact ⟨bs, rest, rfl, hvarint, rfl⟩

/-! ## One iteration -/

theorem toNat_fieldNumber (tag : UInt64) : (tag >>> 3).toNat = tag.toNat / 8 := by
  rw [UInt64.toNat_shiftRight]
  exact Nat.shiftRight_eq_div_pow tag.toNat 3

theorem toNat_wireType (tag : UInt64) : (tag &&& 7).toNat = tag.toNat % 8 := by
  rw [UInt64.toNat_and]
  exact Nat.and_two_pow_sub_one_eq_mod tag.toNat 3

/-- The position after what has been read. -/
theorem drop_add {data a b : Bytes} {pos : ℕ} (h : data.drop pos = a ++ b) :
    data.drop (pos + a.length) = b := by
  rw [← List.drop_drop, h, List.drop_left]

theorem length_of_drop {data a b : Bytes} {pos : ℕ} (h : data.drop pos = a ++ b) (ha : a ≠ []) :
    data.length = pos + a.length + b.length := by
  have hlen := congrArg List.length h
  have hpos := List.length_pos_iff.mpr ha
  rw [List.length_drop, List.length_append] at hlen
  omega

theorem decodeF32_append {p : Bytes} (h : p.length = 4) (rest : Bytes) :
    decodeF32 (p ++ rest) = some (UInt32.ofNat (ofLe p)) := by
  rw [decodeF32, if_neg (by simp [h]), List.take_left' h]

/-- What a field does to the record. -/
def applyField (result : PricingData) (field : Field) : PricingData :=
  match field.payload with
  | .varint val => applyVarint result field.number val
  | .sized .fixed64 _ => result
  | .sized .delimited bytes => applyDelimited result field.number bytes
  | .sized .fixed32 bytes => applyFixed32 result field.number (some (UInt32.ofNat (ofLe bytes)))

variable {data : Bytes} {pos : ℕ} {result : PricingData}

/-- The tag that an iteration reads. -/
theorem iteration_tag {t rest : Bytes} {number wireType : ℕ} (htag : Tag t number wireType)
    (hdrop : data.drop pos = t ++ rest) :
    ∃ tag : UInt64, decodeVarint (data.drop pos) = some (tag, t.length) ∧
      (tag >>> 3).toNat = number ∧ (tag &&& 7).toNat = wireType := by
  obtain ⟨tag, hvarint, hnumber, hwire⟩ := htag
  refine ⟨tag, ?_, ?_, ?_⟩
  · rw [hdrop, decodeVarint_append hvarint]
  · rw [toNat_fieldNumber, hnumber]
  · rw [toNat_wireType, hwire]

/-- A whole field is applied, and the position moves behind it. -/
theorem iteration_field (hdata : data.length < 2 ^ 63) {e rest : Bytes} {f : Field}
    (he : Encodes e f) (hdrop : data.drop pos = e ++ rest) :
    iteration data pos result = .next (pos + e.length) (applyField result f) := by
  have hlength := length_of_drop hdrop (List.length_pos_iff.mp he.length_pos)
  cases he with
  | @varint t b number v htag hv =>
    rw [List.append_assoc] at hdrop
    obtain ⟨tag, hread, hnumber, hwire⟩ := iteration_tag htag hdrop
    have hvalue : decodeVarint (data.drop (pos + t.length)) = some (v, b.length) := by
      rw [drop_add hdrop, decodeVarint_append hv]
    simp only [iteration, hread, hwire, WireType.fromU64, hvalue, hnumber]
    rw [List.length_append, ← add_assoc]
    rfl
  | @sized h p number size wire hh hlen =>
    rw [List.append_assoc] at hdrop
    rw [List.length_append] at hlength
    cases hh with
    | fixed64 htag =>
      obtain ⟨tag, hread, hnumber, hwire⟩ := iteration_tag htag hdrop
      have hin : ¬ data.length < pos + h.length + 8 := by omega
      simp only [iteration, hread, hwire, WireType.fromU64, if_neg hin]
      rw [List.length_append, hlen, ← add_assoc]
      rfl
    | @delimited t l _ len htag hl =>
      rw [List.append_assoc] at hdrop
      rw [List.length_append] at hlength
      obtain ⟨tag, hread, hnumber, hwire⟩ := iteration_tag htag hdrop
      have hlenRead : decodeVarint (data.drop (pos + t.length)) = some (len, l.length) := by
        rw [drop_add hdrop, decodeVarint_append hl]
      have hpayload : slice data (pos + t.length + l.length) len.toNat = p := by
        rw [slice, drop_add (drop_add hdrop), List.take_left' hlen]
      have hover : ¬ 2 ^ 64 ≤ pos + t.length + l.length + len.toNat := by omega
      have hin : ¬ data.length < pos + t.length + l.length + len.toNat := by omega
      simp only [iteration, hread, hwire, WireType.fromU64, hlenRead, if_neg hover, if_neg hin,
        hpayload, hnumber]
      rw [List.length_append, List.length_append, hlen, ← add_assoc, ← add_assoc]
      rfl
    | fixed32 htag =>
      obtain ⟨tag, hread, hnumber, hwire⟩ := iteration_tag htag hdrop
      have hin : ¬ data.length < pos + h.length + 4 := by omega
      simp only [iteration, hread, hwire, WireType.fromU64, if_neg hin, hnumber]
      rw [drop_add hdrop, decodeF32_append hlen, List.length_append, hlen, ← add_assoc]
      rfl

/-- A cut payload ends the loop with what has been read, unless the sum overflows. -/
theorem iteration_torn (hdata : data.length < 2 ^ 63) {h p : Bytes} {number size : ℕ}
    {wire : Sized} (hh : Header h number wire size) (hdrop : data.drop pos = h ++ p)
    (hlt : p.length < size) : iteration data pos result =
      if 2 ^ 64 ≤ pos + h.length + size then .panicked else .returned (some result) := by
  have hlength := length_of_drop hdrop (List.length_pos_iff.mp hh.length_pos)
  cases hh with
  | fixed64 htag =>
    obtain ⟨tag, hread, hnumber, hwire⟩ := iteration_tag htag hdrop
    have hover : ¬ 2 ^ 64 ≤ pos + h.length + 8 := by omega
    have hout : data.length < pos + h.length + 8 := by omega
    simp only [iteration, hread, hwire, WireType.fromU64, if_pos hout, if_neg hover]
  | @delimited t l _ len htag hl =>
    rw [List.append_assoc] at hdrop
    rw [List.length_append] at hlength
    obtain ⟨tag, hread, hnumber, hwire⟩ := iteration_tag htag hdrop
    have hlenRead : decodeVarint (data.drop (pos + t.length)) = some (len, l.length) := by
      rw [drop_add hdrop, decodeVarint_append hl]
    have hout : data.length < pos + t.length + l.length + len.toNat := by omega
    simp only [iteration, hread, hwire, WireType.fromU64, hlenRead, if_pos hout,
      List.length_append, ← add_assoc]
  | fixed32 htag =>
    obtain ⟨tag, hread, hnumber, hwire⟩ := iteration_tag htag hdrop
    have hover : ¬ 2 ^ 64 ≤ pos + h.length + 4 := by omega
    have hout : data.length < pos + h.length + 4 := by omega
    simp only [iteration, hread, hwire, WireType.fromU64, if_pos hout, if_neg hover]

/-- The number of a wire type. -/
def WireType.number : WireType → ℕ
  | varint => 0
  | fixed64 => 1
  | lengthDelimited => 2
  | fixed32 => 5

theorem WireType.fromU64_eq_some {n : ℕ} {wire : WireType} (h : fromU64 n = some wire) :
    n = wire.number := by
  unfold fromU64 at h
  split at h <;> cases h <;> rfl

/-- What is neither a field nor a cut payload is rejected. -/
theorem iteration_malformed (hstarts : ¬ StartsWithField (data.drop pos))
    (htorn : ¬ Torn (data.drop pos)) : iteration data pos result = .returned none := by
  have hheader : ∀ {h rest : Bytes} {number size : ℕ} {wire : Sized},
      Header h number wire size → data.drop pos ≠ h ++ rest := by
    intro h rest number size wire hh heq
    rw [heq] at hstarts htorn
    exact (hh.starts_or_torn rest).elim hstarts htorn
  cases hread : decodeVarint (data.drop pos) with
  | none => simp only [iteration, hread]
  | some tagRead =>
    obtain ⟨tag, consumed⟩ := tagRead
    obtain ⟨t, rest, hdrop, htag, rfl⟩ := exists_varint64 hread
    have hTag : ∀ wireType, (tag &&& 7).toNat = wireType → Tag t (tag.toNat / 8) wireType :=
      fun wireType hwire => ⟨tag, htag, rfl, by rw [← toNat_wireType, hwire]⟩
    have hrest := drop_add hdrop
    cases hwire : WireType.fromU64 (tag &&& 7).toNat with
    | none => simp only [iteration, hread, hwire]
    | some wire =>
      have htype := hTag _ (WireType.fromU64_eq_some hwire)
      cases wire with
      | varint =>
        cases hvalue : decodeVarint (data.drop (pos + t.length)) with
        | none => simp only [iteration, hread, hwire, hvalue]
        | some valueRead =>
          obtain ⟨b, rest', hb, hv, -⟩ :=
            exists_varint64 (v := valueRead.1) (k := valueRead.2) hvalue
          refine absurd ⟨t ++ b, _, rest', .varint htype hv, ?_⟩ hstarts
          rw [hdrop, List.append_assoc, ← hb, hrest]
      | fixed64 => exact absurd hdrop (hheader (.fixed64 htype))
      | lengthDelimited =>
        cases hlen : decodeVarint (data.drop (pos + t.length)) with
        | none => simp only [iteration, hread, hwire, hlen]
        | some lenRead =>
          obtain ⟨l, rest', hl, hv, -⟩ := exists_varint64 (v := lenRead.1) (k := lenRead.2) hlen
          have hcut : data.drop pos = (t ++ l) ++ rest' := by
            rw [hdrop, List.append_assoc, ← hl, hrest]
          exact absurd hcut (hheader (.delimited htype hv))
      | fixed32 => exact absurd hdrop (hheader (.fixed32 htype))

/-! ## The loop -/

theorem decodeVarint_consumed {buf : Bytes} {v : UInt64} {k : ℕ}
    (h : decodeVarint buf = some (v, k)) : 0 < k := by
  obtain ⟨bs, rest, -, hbs, rfl⟩ := exists_varint64 h
  exact hbs.length_pos

theorem iteration_next_lt {pos' : ℕ} {result' : PricingData}
    (h : iteration data pos result = .next pos' result') : pos < pos' := by
  rw [iteration] at h
  split at h
  · cases h
  · next tag consumed hread =>
    have hconsumed := decodeVarint_consumed hread
    simp only at h
    split at h
    · cases h
    · split at h <;> cases h
      omega
    · split at h <;> cases h
      omega
    · split at h
      · cases h
      · split_ifs at h
        cases h
        omega
    · split at h <;> cases h
      omega

/-- `parse_protobuf` (lines 150–245) from a position on; `none` is a panic. -/
def parseFrom (data : Bytes) (pos : ℕ) (result : PricingData) : Option (Option PricingData) :=
  if pos < data.length then
    match h : iteration data pos result with
    | .next pos' result' =>
      have := iteration_next_lt h
      parseFrom data pos' result'
    | .returned result => some result
    | .panicked => none
  else some (if result.id.isSome then some result else none)
termination_by data.length - pos

/-- `parse_protobuf`. -/
def parseProtobuf (data : Bytes) : Option (Option PricingData) :=
  parseFrom data 0 PricingData.default

theorem parseFrom_next {pos' : ℕ} {result' : PricingData} (hpos : pos < data.length)
    (h : iteration data pos result = .next pos' result') :
    parseFrom data pos result = parseFrom data pos' result' := by
  rw [parseFrom, if_pos hpos]
  split <;> simp_all

theorem parseFrom_returned {returned : Option PricingData} (hpos : pos < data.length)
    (h : iteration data pos result = .returned returned) :
    parseFrom data pos result = some returned := by
  rw [parseFrom, if_pos hpos]
  split <;> simp_all

theorem parseFrom_panicked (hpos : pos < data.length)
    (h : iteration data pos result = .panicked) : parseFrom data pos result = none := by
  rw [parseFrom, if_pos hpos]
  split <;> simp_all

theorem parseFrom_end (hpos : data.length ≤ pos) :
    parseFrom data pos result = some (if result.id.isSome then some result else none) := by
  rw [parseFrom, if_neg (not_lt.mpr hpos)]

/-- The record of some fields. -/
def record (fields : List Field) : PricingData := fields.foldl applyField PricingData.default

/-- **Run lemma.** Whole fields are applied one after the other. -/
theorem parseFrom_fields (hdata : data.length < 2 ^ 63) {es tail : Bytes} {fs : List Field}
    (hes : EncodesAll es fs) (hdrop : data.drop pos = es ++ tail) :
    parseFrom data pos result = parseFrom data (pos + es.length) (fs.foldl applyField result) := by
  induction hes generalizing pos result with
  | nil => rfl
  | @cons e es f fs he _ ih =>
    rw [List.append_assoc] at hdrop
    have hpos : pos < data.length := by
      have hlen := length_of_drop hdrop (List.length_pos_iff.mp he.length_pos)
      have := he.length_pos
      omega
    rw [parseFrom_next hpos (iteration_field hdata he hdrop), ih (drop_add hdrop),
      List.length_append, add_assoc, List.foldl_cons]

/-- A message of whole fields. -/
theorem parseProtobuf_whole (hdata : data.length < 2 ^ 63) {fs : List Field}
    (hes : EncodesAll data fs) : parseProtobuf data =
      some (if (record fs).id.isSome then some (record fs) else none) := by
  have hdrop : data.drop 0 = data ++ [] := by simp
  rw [parseProtobuf, parseFrom_fields hdata hes hdrop, zero_add, parseFrom_end le_rfl]
  rfl

/-- A message whose last payload is cut. -/
theorem parseProtobuf_torn {es h p : Bytes} {fs : List Field} {number size : ℕ} {wire : Sized}
    (hdata : (es ++ (h ++ p)).length < 2 ^ 63) (hes : EncodesAll es fs)
    (hh : Header h number wire size) (hlt : p.length < size) : parseProtobuf (es ++ (h ++ p)) =
      if 2 ^ 64 ≤ es.length + h.length + size then none else some (some (record fs)) := by
  have hdrop : (es ++ (h ++ p)).drop es.length = h ++ p := List.drop_left
  have hpos : es.length < (es ++ (h ++ p)).length := by
    have := hh.length_pos
    simp only [List.length_append]
    omega
  have hiteration : iteration (es ++ (h ++ p)) es.length (record fs) = _ :=
    iteration_torn hdata hh hdrop hlt
  rw [parseProtobuf, parseFrom_fields hdata hes rfl, zero_add]
  split_ifs at hiteration ⊢
  · exact parseFrom_panicked hpos hiteration
  · exact parseFrom_returned hpos hiteration

/-- Anything else behind whole fields. -/
theorem parseProtobuf_malformed {es tail : Bytes} {fs : List Field}
    (hdata : (es ++ tail).length < 2 ^ 63) (hes : EncodesAll es fs) (hne : tail ≠ [])
    (hstarts : ¬ StartsWithField tail) (htorn : ¬ Torn tail) :
    parseProtobuf (es ++ tail) = some none := by
  have hdrop : (es ++ tail).drop es.length = tail := List.drop_left
  have hpos : es.length < (es ++ tail).length := by
    have := List.length_pos_iff.mpr hne
    rw [List.length_append]
    omega
  rw [parseProtobuf, parseFrom_fields hdata hes rfl, zero_add]
  apply parseFrom_returned hpos
  exact iteration_malformed (by rwa [hdrop]) (by rwa [hdrop])

end Digdigdig3.Yahoo
