import Digdigdig3.Yahoo.Protobuf

/-!
# Encodings of PricingData

The schema of `PricingData` as the reader knows it, the encodings of its fields, and what the reader
makes of them and of their prefixes.

* `decodeSint64_zigzag`: a zigzag number is read back.
* `isRecordOf_record`: each field has the value of its last occurrence.
* `parseProtobuf_safe_iff`: when the reader is total.
* `parseProtobuf_encoding`: a whole encoding.
* `parseProtobuf_cut_iff`: when a cut encoding gives a prefix of whole fields.
-/

namespace Digdigdig3.Yahoo

open WireFormat

/-! ## Schema -/

/-- The texts of `PricingData`. -/
inductive TextField
  | id
  | currency
  | exchange
  | shortName
  | marketState
  deriving DecidableEq

/-- The floats of `PricingData`. -/
inductive FloatField
  | price
  | changePercent
  | dayHigh
  | dayLow
  | dayOpen
  | previousClose
  | bid
  | ask
  | change
  deriving DecidableEq

/-- The integers of `PricingData` apart from the time. -/
inductive CountField
  | bidSize
  | askSize
  | volume
  deriving DecidableEq

def TextField.number : TextField → ℕ
  | id => 1
  | currency => 4
  | exchange => 5
  | shortName => 19
  | marketState => 30

def FloatField.number : FloatField → ℕ
  | price => 2
  | changePercent => 8
  | dayHigh => 9
  | dayLow => 10
  | dayOpen => 11
  | previousClose => 12
  | bid => 13
  | ask => 14
  | change => 18

def CountField.number : CountField → ℕ
  | bidSize => 15
  | askSize => 16
  | volume => 17

def PricingData.text (r : PricingData) : TextField → Option String
  | .id => r.id
  | .currency => r.currency
  | .exchange => r.exchange
  | .shortName => r.shortName
  | .marketState => r.marketState

def PricingData.float (r : PricingData) : FloatField → Option F32
  | .price => r.price
  | .changePercent => r.changePercent
  | .dayHigh => r.dayHigh
  | .dayLow => r.dayLow
  | .dayOpen => r.dayOpen
  | .previousClose => r.previousClose
  | .bid => r.bid
  | .ask => r.ask
  | .change => r.change

def PricingData.count (r : PricingData) : CountField → Option Int64
  | .bidSize => r.bidSize
  | .askSize => r.askSize
  | .volume => r.volume

/-- No field of the schema has this number with this wire type. -/
def Unknown (field : Field) : Prop :=
  match field.payload with
  | .varint _ => field.number ≠ 3 ∧ ∀ f : CountField, field.number ≠ f.number
  | .sized .fixed64 _ => True
  | .sized .delimited _ => ∀ f : TextField, field.number ≠ f.number
  | .sized .fixed32 _ => ∀ f : FloatField, field.number ≠ f.number

/-- A field of an encoding. -/
inductive PricingField
  | text (field : TextField) (value : String)
  | float (field : FloatField) (value : F32)
  | count (field : CountField) (value : Int64)
  | time (value : Int64)
  | unknown (field : Field) (unknown : Unknown field)

/-- The zigzag number of an integer. -/
def zigzag (value : Int64) : UInt64 :=
  UInt64.ofNat (if 0 ≤ value.toInt then 2 * value.toInt.toNat else 2 * (-value.toInt - 1).toNat + 1)

/-- The field on the wire. -/
def PricingField.wire : PricingField → Field
  | text field value => ⟨field.number, .sized .delimited (utf8 value)⟩
  | float field value => ⟨field.number, .sized .fixed32 (toLe 4 value.toNat)⟩
  | count field value => ⟨field.number, .varint value.toUInt64⟩
  | time value => ⟨3, .varint (zigzag value)⟩
  | unknown field _ => field

/-! ## Records -/

def PricingField.textOf (f : TextField) : PricingField → Option String
  | text field value => if field = f then some value else none
  | _ => none

def PricingField.floatOf (f : FloatField) : PricingField → Option F32
  | float field value => if field = f then some value else none
  | _ => none

def PricingField.countOf (f : CountField) : PricingField → Option Int64
  | count field value => if field = f then some value else none
  | _ => none

def PricingField.timeOf : PricingField → Option Int64
  | time value => some value
  | _ => none

/-- Each field of the record has the value of its last occurrence. -/
structure IsRecordOf (r : PricingData) (fields : List PricingField) : Prop where
  text_eq : ∀ f, r.text f = (fields.filterMap (PricingField.textOf f)).getLast?
  float_eq : ∀ f, r.float f = (fields.filterMap (PricingField.floatOf f)).getLast?
  count_eq : ∀ f, r.count f = (fields.filterMap (PricingField.countOf f)).getLast?
  time_eq : r.time = (fields.filterMap PricingField.timeOf).getLast?

theorem IsRecordOf.unique {r r' : PricingData} {fields : List PricingField}
    (h : IsRecordOf r fields) (h' : IsRecordOf r' fields) : r = r' := by
  have htext : ∀ f, r.text f = r'.text f := fun f => (h.text_eq f).trans (h'.text_eq f).symm
  have hfloat : ∀ f, r.float f = r'.float f := fun f => (h.float_eq f).trans (h'.float_eq f).symm
  have hcount : ∀ f, r.count f = r'.count f := fun f => (h.count_eq f).trans (h'.count_eq f).symm
  have htime := h.time_eq.trans h'.time_eq.symm
  cases r
  cases r'
  rw [PricingData.mk.injEq]
  exact ⟨htext .id, hfloat .price, htime, htext .currency, htext .exchange, hfloat .changePercent,
    hfloat .dayHigh, hfloat .dayLow, hfloat .dayOpen, hfloat .previousClose, hfloat .bid,
    hfloat .ask, hcount .bidSize, hcount .askSize, hcount .volume, hfloat .change,
    htext .shortName, htext .marketState⟩

theorem decodeSint64_ofNat {m : ℕ} (hm : m < 2 ^ 64) : decodeSint64 (UInt64.ofNat m) =
    if m % 2 = 0 then Int64.ofNat (m / 2) else ~~~ Int64.ofNat (m / 2) := by
  have hvalue : (UInt64.ofNat m).toNat = m := UInt64.toNat_ofNat_of_lt hm
  have hhalf : (UInt64.ofNat (m / 2)).toNat = m / 2 :=
    UInt64.toNat_ofNat_of_lt ((Nat.div_le_self m 2).trans_lt hm)
  have hbit : (UInt64.ofNat (m % 2)).toNat = m % 2 :=
    UInt64.toNat_ofNat_of_lt ((Nat.mod_le m 2).trans_lt hm)
  have hshift : UInt64.ofNat m >>> 1 = UInt64.ofNat (m / 2) := by
    apply UInt64.toNat_inj.mp
    rw [UInt64.toNat_shiftRight, hvalue, hhalf]
    exact Nat.shiftRight_eq_div_pow m 1
  have hand : UInt64.ofNat m &&& 1 = UInt64.ofNat (m % 2) := by
    apply UInt64.toNat_inj.mp
    rw [UInt64.toNat_and, hvalue, hbit]
    exact Nat.and_two_pow_sub_one_eq_mod m 1
  rw [decodeSint64, hshift, hand]
  rcases Nat.mod_two_eq_zero_or_one m with hzero | hone
  · rw [hzero, if_pos rfl]
    exact Int64.xor_zero
  · rw [hone, if_neg (by decide)]
    apply Int64.toBitVec_inj.mp
    exact BitVec.xor_allOnes

/-- A zigzag number is read back. -/
theorem decodeSint64_zigzag (value : Int64) : decodeSint64 (zigzag value) = value := by
  have hlt := value.toInt_lt
  have hle := value.le_toInt
  rw [zigzag, decodeSint64_ofNat (by split_ifs <;> omega)]
  apply Int64.toInt_inj.mp
  by_cases h : 0 ≤ value.toInt
  · have hhalf : 2 * value.toInt.toNat / 2 = value.toInt.toNat := by omega
    rw [if_pos h, if_pos (by omega), hhalf, Int64.toInt_ofNat_of_lt (by omega),
      Int.toNat_of_nonneg h]
  · have hhalf : (2 * (-value.toInt - 1).toNat + 1) / 2 = (-value.toInt - 1).toNat := by omega
    rw [if_neg h, if_neg (by omega), hhalf, Int64.not_eq_neg_sub, Int64.toInt_sub, Int64.toInt_neg,
      Int64.toInt_ofNat_of_lt (by omega), Int.toNat_of_nonneg (by omega)]
    have hone : (1 : Int64).toInt = 1 := rfl
    have hneg : (-(-value.toInt - 1)).bmod (2 ^ 64) = value.toInt + 1 := by
      rw [Int.bmod_eq_of_le (by omega) (by omega)]
      ring
    rw [hneg, hone, Int.bmod_eq_of_le (by omega) (by omega)]
    ring

/-! ## What a field overwrites -/

/-- What a field writes to a text. -/
def textWrite (f : TextField) (field : Field) : Option (Option String) :=
  match field.payload with
  | .sized .delimited bytes => if field.number = f.number then some (fromUtf8 bytes) else none
  | _ => none

def floatWrite (f : FloatField) (field : Field) : Option (Option F32) :=
  match field.payload with
  | .sized .fixed32 bytes =>
    if field.number = f.number then some (some (UInt32.ofNat (ofLe bytes))) else none
  | _ => none

def countWrite (f : CountField) (field : Field) : Option (Option Int64) :=
  match field.payload with
  | .varint value => if field.number = f.number then some (some value.toInt64) else none
  | _ => none

def timeWrite (field : Field) : Option (Option Int64) :=
  match field.payload with
  | .varint value => if field.number = 3 then some (some (decodeSint64 value)) else none
  | _ => none

theorem text_applyField (f : TextField) (r : PricingData) (field : Field) :
    (applyField r field).text f = (textWrite f field).getD (r.text f) := by
  obtain ⟨number, payload⟩ := field
  rcases payload with value | ⟨_ | _ | _, bytes⟩
  · simp only [applyField, applyVarint, textWrite, Option.getD_none]
    split <;> cases f <;> rfl
  · rfl
  · simp only [applyField, applyDelimited, textWrite]
    split <;> cases f <;> simp_all [TextField.number, PricingData.text]
  · simp only [applyField, applyFixed32, textWrite, Option.getD_none]
    split <;> cases f <;> rfl

theorem float_applyField (f : FloatField) (r : PricingData) (field : Field) :
    (applyField r field).float f = (floatWrite f field).getD (r.float f) := by
  obtain ⟨number, payload⟩ := field
  rcases payload with value | ⟨_ | _ | _, bytes⟩
  · simp only [applyField, applyVarint, floatWrite, Option.getD_none]
    split <;> cases f <;> rfl
  · rfl
  · simp only [applyField, applyDelimited, floatWrite, Option.getD_none]
    split <;> cases f <;> rfl
  · simp only [applyField, applyFixed32, floatWrite]
    split <;> cases f <;> simp_all [FloatField.number, PricingData.float]

theorem count_applyField (f : CountField) (r : PricingData) (field : Field) :
    (applyField r field).count f = (countWrite f field).getD (r.count f) := by
  obtain ⟨number, payload⟩ := field
  rcases payload with value | ⟨_ | _ | _, bytes⟩
  · simp only [applyField, applyVarint, countWrite]
    split <;> cases f <;> simp_all [CountField.number, PricingData.count]
  · rfl
  · simp only [applyField, applyDelimited, countWrite, Option.getD_none]
    split <;> cases f <;> rfl
  · simp only [applyField, applyFixed32, countWrite, Option.getD_none]
    split <;> cases f <;> rfl

theorem time_applyField (r : PricingData) (field : Field) :
    (applyField r field).time = (timeWrite field).getD r.time := by
  obtain ⟨number, payload⟩ := field
  rcases payload with value | ⟨_ | _ | _, bytes⟩
  · simp only [applyField, applyVarint, timeWrite]
    split <;> simp_all
  · rfl
  · simp only [applyField, applyDelimited, timeWrite, Option.getD_none]
    split <;> rfl
  · simp only [applyField, applyFixed32, timeWrite, Option.getD_none]
    split <;> rfl

theorem TextField.number_inj {f f' : TextField} : f.number = f'.number ↔ f = f' := by
  cases f <;> cases f' <;> decide

theorem FloatField.number_inj {f f' : FloatField} : f.number = f'.number ↔ f = f' := by
  cases f <;> cases f' <;> decide

theorem CountField.number_inj {f f' : CountField} : f.number = f'.number ↔ f = f' := by
  cases f <;> cases f' <;> decide

theorem CountField.number_ne_time (f : CountField) : f.number ≠ 3 := by
  cases f <;> decide

theorem textWrite_wire (f : TextField) (field : PricingField) :
    textWrite f field.wire = (field.textOf f).map some := by
  cases field with
  | text field value =>
    simp only [PricingField.wire, PricingField.textOf, textWrite, TextField.number_inj,
      fromUtf8_utf8]
    split_ifs <;> rfl
  | float field value => rfl
  | count field value => rfl
  | time value => rfl
  | unknown field hunknown =>
    obtain ⟨number, payload⟩ := field
    rcases payload with value | ⟨_ | _ | _, bytes⟩
    · rfl
    · rfl
    · exact if_neg (hunknown f)
    · rfl

theorem floatWrite_wire (f : FloatField) (field : PricingField) :
    floatWrite f field.wire = (field.floatOf f).map some := by
  cases field with
  | text field value => rfl
  | float field value =>
    have hbits : UInt32.ofNat (ofLe (toLe 4 value.toNat)) = value := by
      rw [ofLe_toLe_of_lt value.toNat_lt, UInt32.ofNat_toNat]
    simp only [PricingField.wire, PricingField.floatOf, floatWrite, FloatField.number_inj, hbits]
    split_ifs <;> rfl
  | count field value => rfl
  | time value => rfl
  | unknown field hunknown =>
    obtain ⟨number, payload⟩ := field
    rcases payload with value | ⟨_ | _ | _, bytes⟩
    · rfl
    · rfl
    · rfl
    · exact if_neg (hunknown f)

theorem countWrite_wire (f : CountField) (field : PricingField) :
    countWrite f field.wire = (field.countOf f).map some := by
  cases field with
  | text field value => rfl
  | float field value => rfl
  | count field value =>
    simp only [PricingField.wire, PricingField.countOf, countWrite, CountField.number_inj,
      Int64.toInt64_toUInt64]
    split_ifs <;> rfl
  | time value => exact if_neg (f.number_ne_time).symm
  | unknown field hunknown =>
    obtain ⟨number, payload⟩ := field
    rcases payload with value | ⟨_ | _ | _, bytes⟩
    · exact if_neg (hunknown.2 f)
    · rfl
    · rfl
    · rfl

theorem timeWrite_wire (field : PricingField) :
    timeWrite field.wire = field.timeOf.map some := by
  cases field with
  | text field value => rfl
  | float field value => rfl
  | count field value => exact if_neg field.number_ne_time
  | time value =>
    simp only [PricingField.wire, PricingField.timeOf, timeWrite, decodeSint64_zigzag]
    rfl
  | unknown field hunknown =>
    obtain ⟨number, payload⟩ := field
    rcases payload with value | ⟨_ | _ | _, bytes⟩
    · exact if_neg hunknown.1
    · rfl
    · rfl
    · rfl

/-- The value that a record has of fields that write it. -/
theorem get_record {β : Type*} (get : PricingData → Option β) {write : Field → Option (Option β)}
    {of : PricingField → Option β} (hdefault : get PricingData.default = none)
    (happly : ∀ r field, get (applyField r field) = (write field).getD (get r))
    (hwire : ∀ field : PricingField, write field.wire = (of field).map some)
    (fields : List PricingField) :
    get (record (fields.map PricingField.wire)) = (fields.filterMap of).getLast? := by
  have hwrites : (fields.map PricingField.wire).filterMap write =
      (fields.filterMap of).map some := by
    rw [List.filterMap_map, List.map_filterMap]
    exact List.filterMap_congr fun field _ => hwire field
  rw [record, foldl_lastWrite happly, hwrites, List.getLast?_map, hdefault]
  cases (fields.filterMap of).getLast? <;> rfl

/-- Each field has the value of its last occurrence. -/
theorem isRecordOf_record (fields : List PricingField) :
    IsRecordOf (record (fields.map PricingField.wire)) fields where
  text_eq f := get_record (fun r => r.text f) (by cases f <;> rfl) (text_applyField f)
    (textWrite_wire f) fields
  float_eq f := get_record (fun r => r.float f) (by cases f <;> rfl) (float_applyField f)
    (floatWrite_wire f) fields
  count_eq f := get_record (fun r => r.count f) (by cases f <;> rfl) (count_applyField f)
    (countWrite_wire f) fields
  time_eq := get_record PricingData.time rfl time_applyField timeWrite_wire fields

/-! ## Any bytes -/

/-- The id of some fields. -/
def idOf (fs : List Field) : Option String := ((fs.filterMap (textWrite .id)).getLast?).getD none

theorem record_id (fs : List Field) : (record fs).id = idOf fs := by
  have happly := text_applyField .id
  exact foldl_lastWrite happly fs PricingData.default

/-- The reader neither panics nor returns a record without an id. -/
def Safe (data : Bytes) : Prop :=
  ∃ result, parseProtobuf data = some result ∧ ∀ r, result = some r → r.id.isSome

/-- Behind whole fields, a length that overflows the position. -/
def Overflows (data : Bytes) : Prop :=
  ∃ es fs h number len p, EncodesAll es fs ∧ Header h number .delimited len ∧
    data = es ++ (h ++ p) ∧ 2 ^ 64 ≤ es.length + h.length + len

/-- Behind whole fields without an id, a payload that is cut. -/
def CutWithoutId (data : Bytes) : Prop :=
  ∃ es fs tail, EncodesAll es fs ∧ data = es ++ tail ∧ Torn tail ∧ idOf fs = none

variable {es tail : Bytes} {fs : List Field}

theorem cutWithoutId_iff (hes : EncodesAll es fs) (htail : ¬ StartsWithField tail) :
    CutWithoutId (es ++ tail) ↔ Torn tail ∧ idOf fs = none := by
  constructor
  · rintro ⟨es', fs', tail', hes', heq, htorn, hid⟩
    obtain ⟨rfl, rfl, rfl⟩ := hes.unique hes' htail htorn.not_starts heq
    exact ⟨htorn, hid⟩
  · rintro ⟨htorn, hid⟩
    exact ⟨es, fs, tail, hes, rfl, htorn, hid⟩

theorem overflows_iff (hdata : (es ++ tail).length < 2 ^ 63) (hes : EncodesAll es fs)
    (htail : ¬ StartsWithField tail) : Overflows (es ++ tail) ↔
      ∃ h number wire size p, Header h number wire size ∧ tail = h ++ p ∧ p.length < size ∧
        2 ^ 64 ≤ es.length + h.length + size := by
  constructor
  · rintro ⟨es', fs', h, number, len, p, hes', hh, heq, hover⟩
    have hlt : p.length < len := by
      rw [heq, List.length_append, List.length_append] at hdata
      omega
    have htorn : Torn (h ++ p) := ⟨h, number, _, len, p, hh, rfl, hlt⟩
    obtain ⟨rfl, rfl, rfl⟩ := hes.unique hes' htail htorn.not_starts heq
    exact ⟨h, number, _, len, p, hh, rfl, hlt, hover⟩
  · rintro ⟨h, number, wire, size, p, hh, rfl, -, hover⟩
    have hsize : size ≤ 8 → False := by
      intro hle
      rw [List.length_append, List.length_append] at hdata
      omega
    cases hh with
    | fixed64 htag => exact (hsize le_rfl).elim
    | delimited htag hlen => exact ⟨es, fs, _, number, _, p, hes, .delimited htag hlen, rfl, hover⟩
    | fixed32 htag => exact (hsize (by decide)).elim

/-- When the reader is total and returns ids only. -/
theorem parseProtobuf_safe_iff {data : Bytes} (hdata : data.length < 2 ^ 63) :
    Safe data ↔ ¬ Overflows data ∧ ¬ CutWithoutId data := by
  obtain ⟨fs, es, tail, rfl, hes, htail⟩ := exists_encodesAll data
  rw [overflows_iff hdata hes htail, cutWithoutId_iff hes htail]
  by_cases htorn : Torn tail
  · obtain ⟨h, number, wire, size, p, hh, rfl, hlt⟩ := htorn
    have hparse := parseProtobuf_torn hdata hes hh hlt
    by_cases hover : 2 ^ 64 ≤ es.length + h.length + size
    · rw [if_pos hover] at hparse
      refine iff_of_false ?_ fun hnot => hnot.1 ⟨h, number, wire, size, p, hh, rfl, hlt, hover⟩
      rintro ⟨result, hresult, -⟩
      rw [hparse] at hresult
      cases hresult
    · rw [if_neg hover] at hparse
      have hnone : ¬ ∃ h' number wire size p', Header h' number wire size ∧ h ++ p = h' ++ p' ∧
          p'.length < size ∧ 2 ^ 64 ≤ es.length + h'.length + size := by
        rintro ⟨h', number', wire', size', p', hh', heq, -, hover'⟩
        obtain ⟨rfl, -, -, rfl, -⟩ := hh.unique hh' heq
        exact hover hover'
      constructor
      · rintro ⟨result, hresult, hid⟩
        refine ⟨hnone, fun hcut => ?_⟩
        have hsome := hid (record fs) (Option.some.inj (hresult.symm.trans hparse))
        rw [record_id, hcut.2] at hsome
        cases hsome
      · rintro ⟨-, hcut⟩
        refine ⟨_, hparse, fun r hr => ?_⟩
        cases hr
        rw [record_id, Option.isSome_iff_ne_none]
        exact fun hid => hcut ⟨⟨h, number, wire, size, p, hh, rfl, hlt⟩, hid⟩
  · refine iff_of_true ?_ ⟨?_, fun hcut => htorn hcut.1⟩
    · by_cases hnil : tail = []
      · subst hnil
        rw [List.append_nil] at hdata ⊢
        refine ⟨_, parseProtobuf_whole hdata hes, fun r hr => ?_⟩
        split_ifs at hr with hid
        cases hr
        exact hid
      · exact ⟨none, parseProtobuf_malformed hdata hes hnil htail htorn, by simp⟩
    · rintro ⟨h, number, wire, size, p, hh, rfl, hlt, -⟩
      exact htorn ⟨h, number, wire, size, p, hh, rfl, hlt⟩

/-! ## Encodings and their prefixes -/

/-- A whole encoding gives the record of the last occurrences, if it has an id. -/
theorem parseProtobuf_encoding {bs : Bytes} {fields : List PricingField}
    (hbs : bs.length < 2 ^ 63) (henc : EncodesAll bs (fields.map PricingField.wire)) :
    ∃ r, IsRecordOf r fields ∧
      parseProtobuf bs = some (if r.id.isSome then some r else none) :=
  ⟨_, isRecordOf_record fields, parseProtobuf_whole hbs henc⟩

/-- Nothing, or the record of the first whole fields, which has an id. -/
def GivesPrefix (fields : List PricingField) (data : Bytes) : Prop :=
  parseProtobuf data = some none ∨ ∃ k es r,
    EncodesAll es ((fields.take k).map PricingField.wire) ∧ es <+: data ∧
      IsRecordOf r (fields.take k) ∧ r.id.isSome ∧ parseProtobuf data = some (some r)

/-- A cut encoding gives a prefix of its fields, unless it is cut in a payload with no id before. -/
theorem parseProtobuf_cut_iff {bs : Bytes} {fields : List PricingField} (hbs : bs.length < 2 ^ 63)
    (henc : EncodesAll bs (fields.map PricingField.wire)) (n : ℕ) :
    GivesPrefix fields (bs.take n) ↔ ¬ CutWithoutId (bs.take n) := by
  obtain ⟨k, es, tail, htake, hes, htail, hrest⟩ := henc.take n
  rw [← List.map_take] at hes
  have hlen : es.length + tail.length + (bs.drop n).length = bs.length := by
    have := congrArg List.length (List.take_append_drop n bs)
    rw [htake, List.length_append, List.length_append] at this
    exact this
  have hdata : (es ++ tail).length < 2 ^ 63 := by
    rw [List.length_append]
    omega
  have hrecord := isRecordOf_record (fields.take k)
  rw [htake, cutWithoutId_iff hes htail]
  by_cases htorn : Torn tail
  · obtain ⟨h, number, wire, size, p, hh, rfl, hlt⟩ := htorn
    -- the payload fits the message that was cut
    have hover : ¬ 2 ^ 64 ≤ es.length + h.length + size := by
      rw [List.append_assoc] at hrest
      have := hrest.size_le hh
      rw [List.length_append] at this hlen
      omega
    have hparse := parseProtobuf_torn hdata hes hh hlt
    rw [if_neg hover] at hparse
    constructor
    · rintro (hnone | ⟨k', es', r, -, -, -, hid, hr⟩) ⟨-, hidNone⟩
      · rw [hparse] at hnone
        cases hnone
      · rw [hparse] at hr
        cases hr
        rw [record_id, hidNone] at hid
        cases hid
    · intro hcut
      refine .inr ⟨k, es, _, hes, List.prefix_append _ _, hrecord, ?_, hparse⟩
      rw [record_id, Option.isSome_iff_ne_none]
      exact fun hid => hcut ⟨⟨h, number, wire, size, p, hh, rfl, hlt⟩, hid⟩
  · refine iff_of_true ?_ fun hcut => htorn hcut.1
    by_cases hnil : tail = []
    · subst hnil
      rw [List.append_nil] at hdata ⊢
      have hparse := parseProtobuf_whole hdata hes
      split_ifs at hparse with hid
      · exact .inr ⟨k, es, _, hes, List.prefix_rfl, hrecord, hid, hparse⟩
      · exact .inl hparse
    · exact .inl (parseProtobuf_malformed hdata hes hnil htail htorn)

/-- When the reader is total, what it makes of an encoding, and when it is right on a cut one. -/
theorem reader_iff {data bs : Bytes} {fields : List PricingField} (hdata : data.length < 2 ^ 63)
    (hbs : bs.length < 2 ^ 63) (henc : EncodesAll bs (fields.map PricingField.wire)) :
    (Safe data ↔ ¬ Overflows data ∧ ¬ CutWithoutId data) ∧
      (∃ r, IsRecordOf r fields ∧
        parseProtobuf bs = some (if r.id.isSome then some r else none)) ∧
      ∀ n, GivesPrefix fields (bs.take n) ↔ ¬ CutWithoutId (bs.take n) :=
  ⟨parseProtobuf_safe_iff hdata, parseProtobuf_encoding hbs henc, parseProtobuf_cut_iff hbs henc⟩

/-! ## Three messages -/

def bytesOf (values : List ℕ) : Bytes := values.flatMap (toLe 1)

theorem varint64_of_decodeVarint {bs : Bytes} {v : UInt64}
    (h : decodeVarint bs = some (v, bs.length)) : Varint64 bs v := by
  obtain ⟨bs', rest, hbs, hvarint, hlen⟩ := exists_varint64 h
  have hrest : rest = [] := by
    have := congrArg List.length hbs
    rw [List.length_append] at this
    exact List.length_eq_zero_iff.mp (by omega)
  rwa [hbs, hrest, List.append_nil]

/-- The header of the id with a length of `2 ^ 64 - 1`. -/
def hugeLength : Bytes := bytesOf [10, 255, 255, 255, 255, 255, 255, 255, 255, 255, 1]

theorem hugeLength_header : Header hugeLength 1 .delimited (2 ^ 64 - 1) := by
  have htag : Tag (bytesOf [10]) 1 2 := ⟨10, varint64_of_decodeVarint (by decide), by decide,
    by decide⟩
  have hlen : Varint64 (bytesOf [255, 255, 255, 255, 255, 255, 255, 255, 255, 1])
      18446744073709551615 := varint64_of_decodeVarint (by decide)
  exact .delimited htag hlen

/-- A price and an id. -/
def priceAndId : Bytes := bytesOf [21, 0, 0, 0, 0, 10, 1, 65]

theorem price_header : Header (bytesOf [21]) 2 .fixed32 4 :=
  .fixed32 ⟨21, varint64_of_decodeVarint (by decide), by decide, by decide⟩

theorem priceAndId_encodes : EncodesAll priceAndId
    ([.float .price 0, .text .id "A"].map PricingField.wire) := by
  have htag : Tag (bytesOf [10]) 1 2 := ⟨10, varint64_of_decodeVarint (by decide), by decide,
    by decide⟩
  have hlen : Varint64 (bytesOf [1]) 1 := varint64_of_decodeVarint (by decide)
  have hid : Header (bytesOf [10] ++ bytesOf [1]) 1 .delimited 1 := .delimited htag hlen
  have hbytes : priceAndId =
      (bytesOf [21] ++ toLe 4 0) ++ ((bytesOf [10] ++ bytesOf [1] ++ utf8 "A") ++ []) := by decide
  rw [hbytes]
  exact .cons (.sized price_header (by decide)) (.cons (.sized hid (by decide)) .nil)

theorem price_cutWithoutId : CutWithoutId (priceAndId.take 2) :=
  ⟨[], [], bytesOf [21, 0], .nil, rfl,
    ⟨bytesOf [21], 2, _, 4, bytesOf [0], price_header, rfl, by decide⟩, rfl⟩

theorem reader_iff_price :
    ¬ Safe hugeLength ∧
    (∃ r, IsRecordOf r [.float .price 0, .text .id "A"] ∧
      parseProtobuf priceAndId = some (if r.id.isSome then some r else none)) ∧
    ¬ GivesPrefix [.float .price 0, .text .id "A"] (priceAndId.take 2) := by
  have hlength : hugeLength.length < 2 ^ 63 := by decide
  obtain ⟨hsafe, hwhole, hcut⟩ := reader_iff hlength (by decide) priceAndId_encodes
  refine ⟨?_, hwhole, ?_⟩
  · rw [hsafe]
    exact fun hnot => hnot.1 ⟨[], [], hugeLength, 1, _, [], .nil, hugeLength_header, rfl, by decide⟩
  · rw [hcut 2, not_not]
    exact price_cutWithoutId

/-- A length of `2 ^ 64 - 1` panics, and a cut price is a record without an id. -/
theorem reader_not_total : parseProtobuf hugeLength = none ∧
    ∃ r, parseProtobuf (priceAndId.take 2) = some (some r) ∧ r.id = none := by
  constructor
  · have hparse := parseProtobuf_torn (p := []) (by decide) .nil hugeLength_header (by decide)
    rw [if_pos (by decide)] at hparse
    exact hparse
  · have hparse := parseProtobuf_torn (p := bytesOf [0]) (by decide) .nil price_header (by decide)
    rw [if_neg (by decide)] at hparse
    exact ⟨_, hparse, rfl⟩

end Digdigdig3.Yahoo
