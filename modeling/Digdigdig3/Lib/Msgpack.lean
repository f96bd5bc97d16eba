import Digdigdig3.Lib.Utf8

/-!
# MessagePack

The integers, booleans, strings, byte strings, arrays and maps with text keys of MessagePack: the
shortest encoding, and a decoder. The values without byte strings are those of JSON.

* `decode_encode_append`: an encoded value reads back, whatever follows it.
* `encode_append_inj`: encodings are self-delimiting and uniquely decodable.
* `fits_of_decode`: what the decoder returns can be encoded.
-/

namespace Digdigdig3.Msgpack

/-- A value; the fields of an object stand in the order of their keys. -/
inductive Value
  | nil
  | bool (b : Bool)
  | int (v : ℤ)
  | str (s : String)
  | bin (bs : Bytes)
  | array (items : List Value)
  | object (fields : List (String × Value))

/-! ## Big-endian numbers -/

/-- `n.to_be_bytes()` for an unsigned integer of `w` bytes. -/
def toBe (w n : ℕ) : Bytes := (toLe w n).reverse

/-- `from_be_bytes`, at any width. -/
def ofBe (bs : Bytes) : ℕ := ofLe bs.reverse

@[simp] theorem length_toBe (w n : ℕ) : (toBe w n).length = w := by
  rw [toBe, List.length_reverse, length_toLe]

theorem ofBe_toBe_of_lt {w n : ℕ} (h : n < 256 ^ w) : ofBe (toBe w n) = n := by
  rw [ofBe, toBe, List.reverse_reverse, ofLe_toLe_of_lt h]

theorem ofBe_lt (bs : Bytes) : ofBe bs < 256 ^ bs.length := by
  have hlt := ofLe_lt bs.reverse
  rwa [List.length_reverse] at hlt

theorem toBe_mod (w n : ℕ) : toBe w (n % 256 ^ w) = toBe w n := by
  have hread : ∀ m, ofLe (toLe w m) = m % 256 ^ w := ofLe_toLe w
  have heq : toLe w (n % 256 ^ w) = toLe w n := by
    rw [← toLe_ofLe (length_toLe w (n % 256 ^ w)), ← toLe_ofLe (length_toLe w n), hread, hread,
      Nat.mod_mod]
  rw [toBe, toBe, heq]

/-! ## Encoding -/

def encodeNat (n : ℕ) : Bytes :=
  if n ≤ 0x7f then [byteOf n]
  else if n ≤ 0xff then byteOf 0xcc :: toBe 1 n
  else if n ≤ 0xffff then byteOf 0xcd :: toBe 2 n
  else if n ≤ 0xffffffff then byteOf 0xce :: toBe 4 n
  else byteOf 0xcf :: toBe 8 n

/-- A negative number of `w` bytes, in two's complement. -/
def toBeNeg (w : ℕ) (v : ℤ) : Bytes := toBe w (v + 256 ^ w).toNat

def encodeInt (v : ℤ) : Bytes :=
  if 0 ≤ v then encodeNat v.toNat
  else if -32 ≤ v then toBeNeg 1 v
  else if -128 ≤ v then byteOf 0xd0 :: toBeNeg 1 v
  else if -32768 ≤ v then byteOf 0xd1 :: toBeNeg 2 v
  else if -2147483648 ≤ v then byteOf 0xd2 :: toBeNeg 4 v
  else byteOf 0xd3 :: toBeNeg 8 v

def strHead (n : ℕ) : Bytes :=
  if n ≤ 31 then [byteOf (0xa0 + n)]
  else if n ≤ 0xff then byteOf 0xd9 :: toBe 1 n
  else if n ≤ 0xffff then byteOf 0xda :: toBe 2 n
  else byteOf 0xdb :: toBe 4 n

def binHead (n : ℕ) : Bytes :=
  if n ≤ 0xff then byteOf 0xc4 :: toBe 1 n
  else if n ≤ 0xffff then byteOf 0xc5 :: toBe 2 n
  else byteOf 0xc6 :: toBe 4 n

def arrayHead (n : ℕ) : Bytes :=
  if n ≤ 15 then [byteOf (0x90 + n)]
  else if n ≤ 0xffff then byteOf 0xdc :: toBe 2 n
  else byteOf 0xdd :: toBe 4 n

def mapHead (n : ℕ) : Bytes :=
  if n ≤ 15 then [byteOf (0x80 + n)]
  else if n ≤ 0xffff then byteOf 0xde :: toBe 2 n
  else byteOf 0xdf :: toBe 4 n

def encodeStr (s : String) : Bytes := strHead (utf8 s).length ++ utf8 s

/-- The shortest encoding of a value. -/
def encode : Value → Bytes
  | .nil => [byteOf 0xc0]
  | .bool b => [byteOf (if b then 0xc3 else 0xc2)]
  | .int v => encodeInt v
  | .str s => encodeStr s
  | .bin bs => binHead bs.length ++ bs
  | .array items => arrayHead items.length ++ items.flatMap fun item => encode item
  | .object fields =>
    mapHead fields.length ++ fields.flatMap fun field => encodeStr field.1 ++ encode field.2
decreasing_by
  · exact Nat.lt_of_lt_of_le (List.sizeOf_lt_of_mem ‹_›) (by simp)
  · have hmem := List.sizeOf_lt_of_mem ‹field ∈ fields›
    obtain ⟨key, value⟩ := field
    simp at hmem ⊢
    omega

/-- An encoded field. -/
def encodeField (field : String × Value) : Bytes := encodeStr field.1 ++ encode field.2

theorem encode_str (s : String) : encode (.str s) = encodeStr s := by
  rw [encode]

theorem encode_array (items : List Value) :
    encode (.array items) = arrayHead items.length ++ items.flatMap encode := by
  rw [encode]

theorem encode_object (fields : List (String × Value)) :
    encode (.object fields) = mapHead fields.length ++ fields.flatMap encodeField := by
  rw [encode]
  rfl

/-! ## Decoding -/

/-- What the first bytes announce. -/
inductive Head
  | value (v : Value)
  | str (n : ℕ)
  | bin (n : ℕ)
  | array (n : ℕ)
  | map (n : ℕ)

/-- A number of `w` bytes that follows. -/
def readBe (w : ℕ) (head : ℕ → Head) (bs : Bytes) : Option (Head × Bytes) :=
  (readExact w bs).map fun read => (head (ofBe read.1), read.2)

/-- The signed number of `w` bytes whose bits are those of `n`. -/
def signed (w n : ℕ) : Head :=
  .value (.int (if n < 2 ^ (8 * w - 1) then n else n - 256 ^ w))

/-- What the first byte of a value announces. -/
def readHead : Bytes → Option (Head × Bytes)
  | [] => none
  | b :: bs =>
    if b.val < 0x80 then some (.value (.int b.val), bs)
    else if b.val < 0x90 then some (.map (b.val - 0x80), bs)
    else if b.val < 0xa0 then some (.array (b.val - 0x90), bs)
    else if b.val < 0xc0 then some (.str (b.val - 0xa0), bs)
    else if 0xe0 ≤ b.val then some (.value (.int (b.val - 256)), bs)
    else match b.val with
      | 0xc0 => some (.value .nil, bs)
      | 0xc2 => some (.value (.bool false), bs)
      | 0xc3 => some (.value (.bool true), bs)
      | 0xc4 => readBe 1 .bin bs
      | 0xc5 => readBe 2 .bin bs
      | 0xc6 => readBe 4 .bin bs
      | 0xcc => readBe 1 (fun n => .value (.int n)) bs
      | 0xcd => readBe 2 (fun n => .value (.int n)) bs
      | 0xce => readBe 4 (fun n => .value (.int n)) bs
      | 0xcf => readBe 8 (fun n => .value (.int n)) bs
      | 0xd0 => readBe 1 (signed 1) bs
      | 0xd1 => readBe 2 (signed 2) bs
      | 0xd2 => readBe 4 (signed 4) bs
      | 0xd3 => readBe 8 (signed 8) bs
      | 0xd9 => readBe 1 .str bs
      | 0xda => readBe 2 .str bs
      | 0xdb => readBe 4 .str bs
      | 0xdc => readBe 2 .array bs
      | 0xdd => readBe 4 .array bs
      | 0xde => readBe 2 .map bs
      | 0xdf => readBe 4 .map bs
      | _ => none

/-- So many items, one after the other. -/
def readItems {α : Type*} (read : Bytes → Option (α × Bytes)) : ℕ → Bytes → Option (List α × Bytes)
  | 0, bs => some ([], bs)
  | n + 1, bs =>
    (read bs).bind fun item => (readItems read n item.2).map fun items =>
      (item.1 :: items.1, items.2)

/-- A text key and its value. -/
def readField (read : Bytes → Option (Value × Bytes)) (bs : Bytes) :
    Option ((String × Value) × Bytes) :=
  (read bs).bind fun key =>
    match key.1 with
    | .str k => (read key.2).map fun value => ((k, value.1), value.2)
    | _ => none

/-- Text of `n` bytes. -/
def readStr (n : ℕ) (bs : Bytes) : Option (Value × Bytes) :=
  (readExact n bs).bind fun text => (fromUtf8 text.1).map fun s => (.str s, text.2)

/-- A value with at most `depth - 1` levels below it. -/
def decodeFuel : ℕ → Bytes → Option (Value × Bytes)
  | 0, _ => none
  | depth + 1, bs =>
    (readHead bs).bind fun head =>
      match head.1 with
      | .value v => some (v, head.2)
      | .str n => readStr n head.2
      | .bin n => (readExact n head.2).map fun data => (.bin data.1, data.2)
      | .array n => (readItems (decodeFuel depth) n head.2).map fun items =>
          (.array items.1, items.2)
      | .map n => (readItems (readField (decodeFuel depth)) n head.2).map fun fields =>
          (.object fields.1, fields.2)

/-- The value at the front. Every level takes at least one byte. -/
def decode (bs : Bytes) : Option (Value × Bytes) := decodeFuel bs.length bs

/-! ## Values that can be encoded -/

/-- Numbers of 64 bits, and lengths of 32. -/
inductive Fits : Value → Prop
  | nil : Fits .nil
  | bool (b : Bool) : Fits (.bool b)
  | int {v : ℤ} (hlow : -2 ^ 63 ≤ v) (hhigh : v < 2 ^ 64) : Fits (.int v)
  | str {s : String} (h : (utf8 s).length < 2 ^ 32) : Fits (.str s)
  | bin {bs : Bytes} (h : bs.length < 2 ^ 32) : Fits (.bin bs)
  | array {items : List Value} (h : items.length < 2 ^ 32)
      (hitems : ∀ item ∈ items, Fits item) : Fits (.array items)
  | object {fields : List (String × Value)} (h : fields.length < 2 ^ 32)
      (hkeys : ∀ field ∈ fields, (utf8 field.1).length < 2 ^ 32)
      (hvalues : ∀ field ∈ fields, Fits field.2) : Fits (.object fields)

/-! ## Reading back -/

theorem byteOf_val_of_lt {n : ℕ} (h : n < 256) : (byteOf n).val = n := by
  rw [byteOf_val, Nat.mod_eq_of_lt h]

theorem readBe_toBe_append (w : ℕ) {n : ℕ} (h : n < 256 ^ w) (head : ℕ → Head) (rest : Bytes) :
    readBe w head (toBe w n ++ rest) = some (head n, rest) := by
  rw [readBe, readExact_append (length_toBe w n), Option.map_some, ofBe_toBe_of_lt h]

theorem readHead_strHead_append {n : ℕ} (h : n < 2 ^ 32) (rest : Bytes) :
    readHead (strHead n ++ rest) = some (.str n, rest) := by
  unfold strHead
  split_ifs with h1 h2 h3
  · have hval : (byteOf (0xa0 + n)).val = 0xa0 + n := byteOf_val_of_lt (by omega)
    show readHead (byteOf (0xa0 + n) :: rest) = _
    rw [readHead, if_neg (by omega), if_neg (by omega), if_neg (by omega), if_pos (by omega), hval,
      Nat.add_sub_cancel_left]
  · exact readBe_toBe_append 1 (by omega) _ rest
  · exact readBe_toBe_append 2 (by omega) _ rest
  · exact readBe_toBe_append 4 (by omega) _ rest

theorem readHead_binHead_append {n : ℕ} (h : n < 2 ^ 32) (rest : Bytes) :
    readHead (binHead n ++ rest) = some (.bin n, rest) := by
  unfold binHead
  split_ifs with h1 h2
  · exact readBe_toBe_append 1 (by omega) _ rest
  · exact readBe_toBe_append 2 (by omega) _ rest
  · exact readBe_toBe_append 4 (by omega) _ rest

theorem readHead_arrayHead_append {n : ℕ} (h : n < 2 ^ 32) (rest : Bytes) :
    readHead (arrayHead n ++ rest) = some (.array n, rest) := by
  unfold arrayHead
  split_ifs with h1 h2
  · have hval : (byteOf (0x90 + n)).val = 0x90 + n := byteOf_val_of_lt (by omega)
    show readHead (byteOf (0x90 + n) :: rest) = _
    rw [readHead, if_neg (by omega), if_neg (by omega), if_pos (by omega), hval,
      Nat.add_sub_cancel_left]
  · exact readBe_toBe_append 2 (by omega) _ rest
  · exact readBe_toBe_append 4 (by omega) _ rest

theorem readHead_mapHead_append {n : ℕ} (h : n < 2 ^ 32) (rest : Bytes) :
    readHead (mapHead n ++ rest) = some (.map n, rest) := by
  unfold mapHead
  split_ifs with h1 h2
  · have hval : (byteOf (0x80 + n)).val = 0x80 + n := byteOf_val_of_lt (by omega)
    show readHead (byteOf (0x80 + n) :: rest) = _
    rw [readHead, if_neg (by omega), if_pos (by omega), hval, Nat.add_sub_cancel_left]
  · exact readBe_toBe_append 2 (by omega) _ rest
  · exact readBe_toBe_append 4 (by omega) _ rest

theorem readHead_encodeNat_append {n : ℕ} (h : n < 2 ^ 64) (rest : Bytes) :
    readHead (encodeNat n ++ rest) = some (.value (.int n), rest) := by
  unfold encodeNat
  split_ifs with h1 h2 h3 h4
  · have hval : (byteOf n).val = n := byteOf_val_of_lt (by omega)
    show readHead (byteOf n :: rest) = _
    rw [readHead, if_pos (by omega), hval]
  · exact readBe_toBe_append 1 (by omega) (fun n => .value (.int n)) rest
  · exact readBe_toBe_append 2 (by omega) (fun n => .value (.int n)) rest
  · exact readBe_toBe_append 4 (by omega) (fun n => .value (.int n)) rest
  · exact readBe_toBe_append 8 (by omega) (fun n => .value (.int n)) rest

/-- Two's complement of `w` bytes reads back. -/
theorem readBe_toBeNeg_append (w : ℕ) {v : ℤ} (hw : 0 < w) (hlow : -2 ^ (8 * w - 1) ≤ v)
    (hneg : v < 0) (rest : Bytes) :
    readBe w (signed w) (toBeNeg w v ++ rest) = some (.value (.int v), rest) := by
  have hpow : (256 : ℤ) ^ w = 2 * 2 ^ (8 * w - 1) := by
    rw [← pow_succ', show 8 * w - 1 + 1 = 8 * w by omega, pow_mul]
    norm_num
  have hpos : (0 : ℤ) < 2 ^ (8 * w - 1) := by positivity
  have hcast : ((v + 256 ^ w).toNat : ℤ) = v + 256 ^ w := Int.toNat_of_nonneg (by omega)
  have hlt : (v + 256 ^ w).toNat < 256 ^ w := by
    have hz : ((v + 256 ^ w).toNat : ℤ) < ((256 ^ w : ℕ) : ℤ) := by
      rw [hcast]
      push_cast
      omega
    exact_mod_cast hz
  have hhalf : ¬ (v + 256 ^ w).toNat < 2 ^ (8 * w - 1) := by
    intro hsmall
    have hz : ((v + 256 ^ w).toNat : ℤ) < ((2 ^ (8 * w - 1) : ℕ) : ℤ) := by exact_mod_cast hsmall
    rw [hcast] at hz
    push_cast at hz
    omega
  rw [toBeNeg, readBe_toBe_append w hlt, signed, if_neg hhalf, hcast, add_sub_cancel_right]

theorem readHead_encodeInt_append {v : ℤ} (hlow : -2 ^ 63 ≤ v) (hhigh : v < 2 ^ 64)
    (rest : Bytes) : readHead (encodeInt v ++ rest) = some (.value (.int v), rest) := by
  unfold encodeInt
  split_ifs with h0 h1 h2 h3 h4
  · have hnat : v.toNat < 2 ^ 64 := by omega
    rw [readHead_encodeNat_append hnat, Int.toNat_of_nonneg h0]
  · -- one byte above `0xe0`
    have hlt : (v + 256).toNat < 256 := by omega
    have hbyte : toBeNeg 1 v = [byteOf (v + 256).toNat] := rfl
    have hval := byteOf_val_of_lt hlt
    rw [hbyte]
    show readHead (byteOf (v + 256).toNat :: rest) = _
    rw [readHead, if_neg (by omega), if_neg (by omega), if_neg (by omega), if_neg (by omega),
      if_pos (by omega), hval, Int.toNat_of_nonneg (by omega), add_sub_cancel_right]
  · exact readBe_toBeNeg_append 1 (by decide) (by omega) (by omega) rest
  · exact readBe_toBeNeg_append 2 (by decide) (by omega) (by omega) rest
  · exact readBe_toBeNeg_append 4 (by decide) (by omega) (by omega) rest
  · exact readBe_toBeNeg_append 8 (by decide) (by omega) (by omega) rest

/-- Items that read back one by one read back as a list. -/
theorem readItems_flatMap_append {α : Type*} {read : Bytes → Option (α × Bytes)} {enc : α → Bytes}
    {items : List α} (h : ∀ item ∈ items, ∀ rest, read (enc item ++ rest) = some (item, rest))
    (rest : Bytes) :
    readItems read items.length (items.flatMap enc ++ rest) = some (items, rest) := by
  induction items with
  | nil => rfl
  | cons item items ih =>
    rw [List.forall_mem_cons] at h
    rw [List.flatMap_cons, List.append_assoc, List.length_cons, readItems, h.1, Option.bind_some,
      ih h.2]
    rfl

theorem readStr_utf8_append (s : String) (rest : Bytes) :
    readStr (utf8 s).length (utf8 s ++ rest) = some (.str s, rest) := by
  rw [readStr, readExact_append rfl, Option.bind_some, fromUtf8_utf8, Option.map_some]

theorem decodeFuel_encodeStr_append {s : String} (h : (utf8 s).length < 2 ^ 32) (depth : ℕ)
    (rest : Bytes) : decodeFuel (depth + 1) (encodeStr s ++ rest) = some (.str s, rest) := by
  rw [decodeFuel, encodeStr, List.append_assoc, readHead_strHead_append h, Option.bind_some]
  exact readStr_utf8_append s rest

theorem length_strHead_pos (n : ℕ) : 0 < (strHead n).length := by
  unfold strHead
  split_ifs <;> simp

theorem length_arrayHead_pos (n : ℕ) : 0 < (arrayHead n).length := by
  unfold arrayHead
  split_ifs <;> simp

theorem length_mapHead_pos (n : ℕ) : 0 < (mapHead n).length := by
  unfold mapHead
  split_ifs <;> simp

theorem length_encodeStr_pos (s : String) : 0 < (encodeStr s).length := by
  rw [encodeStr, List.length_append]
  exact Nat.add_pos_left (length_strHead_pos _) _

theorem length_le_flatMap {α : Type*} {f : α → Bytes} {items : List α} {item : α}
    (h : item ∈ items) : (f item).length ≤ (items.flatMap f).length := by
  obtain ⟨before, after, rfl⟩ := List.append_of_mem h
  rw [List.flatMap_append, List.flatMap_cons, List.length_append, List.length_append]
  omega

theorem length_encode_pos (v : Value) : 0 < (encode v).length := by
  cases v with
  | nil => rw [encode]; exact Nat.one_pos
  | bool b => rw [encode]; exact Nat.one_pos
  | int v =>
    rw [encode, encodeInt, encodeNat]
    split_ifs <;> simp [toBeNeg]
  | str s => rw [encode]; exact length_encodeStr_pos s
  | bin bs =>
    rw [encode, binHead]
    split_ifs <;> simp
  | array items =>
    rw [encode_array, List.length_append]
    exact Nat.add_pos_left (length_arrayHead_pos _) _
  | object fields =>
    rw [encode_object, List.length_append]
    exact Nat.add_pos_left (length_mapHead_pos _) _

/-- Induction on the value: its parts are shorter, so the depth suffices for them. -/
theorem decodeFuel_encode_append {v : Value} (h : Fits v) : ∀ {depth : ℕ},
    (encode v).length ≤ depth → ∀ rest, decodeFuel depth (encode v ++ rest) = some (v, rest) := by
  induction h with
  | nil =>
    rintro (_ | depth) hlen rest
    · exact absurd hlen (Nat.not_le_of_lt (length_encode_pos _))
    · rw [encode]
      rfl
  | bool b =>
    rintro (_ | depth) hlen rest
    · exact absurd hlen (Nat.not_le_of_lt (length_encode_pos _))
    · rw [encode]
      cases b <;> rfl
  | int hlow hhigh =>
    rintro (_ | depth) hlen rest
    · exact absurd hlen (Nat.not_le_of_lt (length_encode_pos _))
    · rw [encode, decodeFuel, readHead_encodeInt_append hlow hhigh, Option.bind_some]
  | str h =>
    rintro (_ | depth) hlen rest
    · exact absurd hlen (Nat.not_le_of_lt (length_encode_pos _))
    · rw [encode]
      exact decodeFuel_encodeStr_append h depth rest
  | @bin bs h =>
    rintro (_ | depth) hlen rest
    · exact absurd hlen (Nat.not_le_of_lt (length_encode_pos _))
    · rw [encode, decodeFuel, List.append_assoc, readHead_binHead_append h, Option.bind_some]
      show (readExact bs.length (bs ++ rest)).map _ = _
      rw [readExact_append rfl]
      rfl
  | @array items h hitems ih =>
    rintro (_ | depth) hlen rest
    · exact absurd hlen (Nat.not_le_of_lt (length_encode_pos _))
    · have hparts : ∀ item ∈ items, ∀ rest,
          decodeFuel depth (encode item ++ rest) = some (item, rest) := by
        intro item hitem
        apply ih item hitem
        have hle := length_le_flatMap (f := encode) hitem
        have hpos := length_arrayHead_pos items.length
        rw [encode_array, List.length_append] at hlen
        omega
      rw [encode_array, decodeFuel, List.append_assoc, readHead_arrayHead_append h,
        Option.bind_some]
      show (readItems (decodeFuel depth) items.length (items.flatMap encode ++ rest)).map _ = _
      rw [readItems_flatMap_append hparts]
      rfl
  | @object fields h hkeys hvalues ih =>
    rintro (_ | depth) hlen rest
    · exact absurd hlen (Nat.not_le_of_lt (length_encode_pos _))
    · have hparts : ∀ field ∈ fields, ∀ rest,
          readField (decodeFuel depth) (encodeField field ++ rest) = some (field, rest) := by
        intro field hfield rest
        have hle := length_le_flatMap (f := encodeField) hfield
        have hpos := length_mapHead_pos fields.length
        have hkey := length_encodeStr_pos field.1
        rw [encode_object, List.length_append] at hlen
        rw [encodeField, List.length_append] at hle
        obtain ⟨d, rfl⟩ : ∃ d, depth = d + 1 := ⟨depth - 1, by omega⟩
        rw [encodeField, List.append_assoc, readField,
          decodeFuel_encodeStr_append (hkeys field hfield), Option.bind_some]
        show (decodeFuel (d + 1) (encode field.2 ++ rest)).map _ = _
        rw [ih field hfield (by omega), Option.map_some]
      rw [encode_object, decodeFuel, List.append_assoc, readHead_mapHead_append h,
        Option.bind_some]
      show (readItems (readField (decodeFuel depth)) fields.length
        (fields.flatMap encodeField ++ rest)).map _ = _
      rw [readItems_flatMap_append hparts]
      rfl

/-- An encoded value reads back, whatever follows it. -/
theorem decode_encode_append {v : Value} (h : Fits v) (rest : Bytes) :
    decode (encode v ++ rest) = some (v, rest) := by
  apply decodeFuel_encode_append h
  rw [List.length_append]
  exact Nat.le_add_right _ _

/-- Encodings are self-delimiting and uniquely decodable. -/
theorem encode_append_inj {v v' : Value} (h : Fits v) (h' : Fits v') {rest rest' : Bytes}
    (heq : encode v ++ rest = encode v' ++ rest') : v = v' ∧ rest = rest' := by
  have hread := decode_encode_append h rest
  rw [heq, decode_encode_append h' rest', Option.some.injEq, Prod.mk.injEq] at hread
  exact ⟨hread.1.symm, hread.2.symm⟩

/-! ## What the decoder returns -/

/-- An announced value can be encoded, and an announced length has 32 bits. -/
def Head.Fits : Head → Prop
  | .value v => Msgpack.Fits v
  | .str n => n < 2 ^ 32
  | .bin n => n < 2 ^ 32
  | .array n => n < 2 ^ 32
  | .map n => n < 2 ^ 32

theorem fits_of_readBe (w : ℕ) {head : ℕ → Head} (hfits : ∀ n < 256 ^ w, (head n).Fits)
    {bs : Bytes} {read : Head × Bytes} (h : readBe w head bs = some read) : read.1.Fits := by
  obtain ⟨⟨data, rest⟩, hread, rfl⟩ := Option.map_eq_some_iff.mp h
  have hlt := ofBe_lt data
  rw [(readExact_eq_some hread).2] at hlt
  exact hfits _ hlt

theorem fits_signed (w : ℕ) (hw : 0 < w ∧ w ≤ 8) {n : ℕ} (h : n < 256 ^ w) :
    (signed w n).Fits := by
  obtain ⟨hpos, hle⟩ := hw
  show Msgpack.Fits (.int _)
  split_ifs with hhalf
  · have hpow : (2 : ℕ) ^ (8 * w - 1) ≤ 2 ^ 63 := Nat.pow_le_pow_right (by decide) (by omega)
    exact .int (by omega) (by omega)
  · have hpow : (256 : ℕ) ^ w = 2 * 2 ^ (8 * w - 1) := by
      rw [← pow_succ', show 8 * w - 1 + 1 = 8 * w by omega, pow_mul]
      norm_num
    have hmax : (2 : ℕ) ^ (8 * w - 1) ≤ 2 ^ 63 := Nat.pow_le_pow_right (by decide) (by omega)
    have hcast : ((256 : ℤ) ^ w) = ((256 ^ w : ℕ) : ℤ) := by norm_cast
    rw [hcast]
    exact .int (by omega) (by omega)

theorem fits_natHead {n : ℕ} (h : n < 2 ^ 64) : (Head.value (.int n)).Fits := by
  show Msgpack.Fits (.int n)
  exact .int (by omega) (by omega)

theorem fits_of_readHead {bs : Bytes} {head : Head × Bytes} (h : readHead bs = some head) :
    head.1.Fits := by
  cases bs with
  | nil => cases h
  | cons b bs =>
    have hb := b.isLt
    rw [readHead] at h
    split_ifs at h with h1 h2 h3 h4 h5
    · cases h
      exact .int (by omega) (by omega)
    · cases h
      show b.val - 0x80 < 2 ^ 32
      omega
    · cases h
      show b.val - 0x90 < 2 ^ 32
      omega
    · cases h
      show b.val - 0xa0 < 2 ^ 32
      omega
    · cases h
      exact .int (by omega) (by omega)
    · split at h
      · cases h
        exact .nil
      · cases h
        exact .bool false
      · cases h
        exact .bool true
      · exact fits_of_readBe 1 (fun n hn => by show n < 2 ^ 32; omega) h
      · exact fits_of_readBe 2 (fun n hn => by show n < 2 ^ 32; omega) h
      · exact fits_of_readBe 4 (fun n hn => by show n < 2 ^ 32; omega) h
      · exact fits_of_readBe 1 (fun n hn => fits_natHead (by omega)) h
      · exact fits_of_readBe 2 (fun n hn => fits_natHead (by omega)) h
      · exact fits_of_readBe 4 (fun n hn => fits_natHead (by omega)) h
      · exact fits_of_readBe 8 (fun n hn => fits_natHead (by omega)) h
      · exact fits_of_readBe 1 (fun n hn => fits_signed 1 (by decide) hn) h
      · exact fits_of_readBe 2 (fun n hn => fits_signed 2 (by decide) hn) h
      · exact fits_of_readBe 4 (fun n hn => fits_signed 4 (by decide) hn) h
      · exact fits_of_readBe 8 (fun n hn => fits_signed 8 (by decide) hn) h
      · exact fits_of_readBe 1 (fun n hn => by show n < 2 ^ 32; omega) h
      · exact fits_of_readBe 2 (fun n hn => by show n < 2 ^ 32; omega) h
      · exact fits_of_readBe 4 (fun n hn => by show n < 2 ^ 32; omega) h
      · exact fits_of_readBe 2 (fun n hn => by show n < 2 ^ 32; omega) h
      · exact fits_of_readBe 4 (fun n hn => by show n < 2 ^ 32; omega) h
      · exact fits_of_readBe 2 (fun n hn => by show n < 2 ^ 32; omega) h
      · exact fits_of_readBe 4 (fun n hn => by show n < 2 ^ 32; omega) h
      · cases h

/-- Every item of a list that was read is one that the reader returns. -/
theorem readItems_forall {α : Type*} {read : Bytes → Option (α × Bytes)} {P : α → Prop}
    (h : ∀ bs item, read bs = some item → P item.1) {n : ℕ} {bs : Bytes}
    {items : List α × Bytes} (hread : readItems read n bs = some items) :
    items.1.length = n ∧ ∀ item ∈ items.1, P item := by
  induction n generalizing bs items with
  | zero =>
    cases hread
    exact ⟨rfl, fun item hitem => nomatch hitem⟩
  | succ n ih =>
    obtain ⟨first, hfirst, hrest⟩ := Option.bind_eq_some_iff.mp hread
    obtain ⟨more, hmore, rfl⟩ := Option.map_eq_some_iff.mp hrest
    obtain ⟨hlen, hall⟩ := ih hmore
    refine ⟨by rw [List.length_cons, hlen], ?_⟩
    rw [List.forall_mem_cons]
    exact ⟨h bs first hfirst, hall⟩

theorem fits_of_decodeFuel {depth : ℕ} {bs : Bytes} {v : Value × Bytes}
    (h : decodeFuel depth bs = some v) : Fits v.1 := by
  induction depth generalizing bs v with
  | zero => cases h
  | succ depth ih =>
    obtain ⟨⟨head, rest⟩, hhead, hbody⟩ := Option.bind_eq_some_iff.mp h
    have hfits := fits_of_readHead hhead
    cases head with
    | value v' =>
      cases hbody
      exact hfits
    | str n =>
      obtain ⟨⟨text, rest'⟩, hread, hmap⟩ := Option.bind_eq_some_iff.mp hbody
      obtain ⟨s, hs, rfl⟩ := Option.map_eq_some_iff.mp hmap
      refine .str ?_
      rw [utf8_of_fromUtf8 hs, (readExact_eq_some hread).2]
      exact hfits
    | bin n =>
      obtain ⟨⟨data, rest'⟩, hread, rfl⟩ := Option.map_eq_some_iff.mp hbody
      refine .bin ?_
      rw [(readExact_eq_some hread).2]
      exact hfits
    | array n =>
      obtain ⟨⟨items, rest'⟩, hread, rfl⟩ := Option.map_eq_some_iff.mp hbody
      obtain ⟨hlen, hall⟩ := readItems_forall (P := Fits) (fun _ _ => ih) hread
      refine .array ?_ hall
      rw [hlen]
      exact hfits
    | map n =>
      obtain ⟨⟨fields, rest'⟩, hread, rfl⟩ := Option.map_eq_some_iff.mp hbody
      have hfield : ∀ bs field, readField (decodeFuel depth) bs = some field →
          (utf8 field.1.1).length < 2 ^ 32 ∧ Fits field.1.2 := by
        intro bs field hfield
        obtain ⟨⟨key, rest''⟩, hkey, hbody⟩ := Option.bind_eq_some_iff.mp hfield
        have hkeyFits := ih hkey
        cases key with
        | str k =>
          obtain ⟨value, hvalue, rfl⟩ := Option.map_eq_some_iff.mp hbody
          cases hkeyFits with
          | str hlt => exact ⟨hlt, ih hvalue⟩
        | _ => cases hbody
      obtain ⟨hlen, hall⟩ := readItems_forall
        (P := fun field : String × Value => (utf8 field.1).length < 2 ^ 32 ∧ Fits field.2)
        hfield hread
      refine .object ?_ (fun field hmem => (hall field hmem).1)
        fun field hmem => (hall field hmem).2
      rw [hlen]
      exact hfits

/-- What the decoder returns can be encoded. -/
theorem fits_of_decode {bs : Bytes} {v : Value} {rest : Bytes} (h : decode bs = some (v, rest)) :
    Fits v := fits_of_decodeFuel h

end Digdigdig3.Msgpack
