import Digdigdig3.Lib.Bytes

/-!
# UTF-8

Encoding and decoding of strings as byte strings. A decoder splits the bytes into
characters and invalid pieces, where an invalid piece is the longest start of a character
that the next byte does not continue (or a single byte that starts none). `fromUtf8` wants no
invalid piece; `fromUtf8Lossy` reads each as the replacement character.

* `fromUtf8_utf8`, `utf8_of_fromUtf8`: the strict decoder inverts the encoder.
* `fromUtf8Lossy_utf8`: the lossy decoder reads encoded strings back.
* `fromUtf8Lossy_take_ne`: it does not read a string back that lost more than 12 bytes.
-/

namespace Digdigdig3

theorem mod_byte_lt (n : ℕ) : n % 256 < 256 := Nat.mod_lt n (by decide)

/-- `n as u8`. -/
def byteOf (n : ℕ) : Byte := ⟨n % 256, mod_byte_lt n⟩

@[simp] theorem byteOf_val (n : ℕ) : (byteOf n).val = n % 256 := rfl

/-! ## Encoding -/

/-- The UTF-8 bytes of a character. -/
def encodeChar (c : Char) : Bytes :=
  let v := c.toNat
  if v < 0x80 then [byteOf v]
  else if v < 0x800 then [byteOf (0xC0 + v / 64), byteOf (0x80 + v % 64)]
  else if v < 0x10000 then
    [byteOf (0xE0 + v / 4096), byteOf (0x80 + v / 64 % 64), byteOf (0x80 + v % 64)]
  else
    [byteOf (0xF0 + v / 262144), byteOf (0x80 + v / 4096 % 64), byteOf (0x80 + v / 64 % 64),
      byteOf (0x80 + v % 64)]

/-- The bytes of the characters `cs`. -/
def encodeChars (cs : List Char) : Bytes := cs.flatMap encodeChar

/-- `s.as_bytes()`. -/
def utf8 (s : String) : Bytes := encodeChars s.toList

/-! ## Decoding -/

/-- A continuation byte. -/
def isCont (b : Byte) : Bool := decide (0x80 ≤ b.val ∧ b.val ≤ 0xBF)

/-- The second bytes that may follow the first byte `b` of three or four: no overlong
    encodings, no surrogates, nothing above `0x10FFFF`. -/
def isSecond (b c : Byte) : Bool :=
  decide (0x80 ≤ c.val ∧ c.val ≤ 0xBF ∧ (b.val = 0xE0 → 0xA0 ≤ c.val) ∧
    (b.val = 0xED → c.val ≤ 0x9F) ∧ (b.val = 0xF0 → 0x90 ≤ c.val) ∧
      (b.val = 0xF4 → c.val ≤ 0x8F))

/-- Go on with the next byte of a character, which has to satisfy `p`. -/
def expectByte (p : Byte → Bool) (rest : Bytes) (k : Byte → Bytes → Option Char × Bytes) :
    Option Char × Bytes :=
  match rest with
  | [] => (none, [])
  | c :: rest' => if p c then k c rest' else (none, rest)

/-- The character that starts with the byte `b`, or `none` for an invalid piece, and the
    bytes behind it. -/
def nextChar (b : Byte) (rest : Bytes) : Option Char × Bytes :=
  if b.val < 0x80 then (some (Char.ofNat b.val), rest)
  else if 0xC2 ≤ b.val ∧ b.val ≤ 0xDF then
    expectByte isCont rest fun c rest =>
      (some (Char.ofNat (b.val % 32 * 64 + c.val % 64)), rest)
  else if 0xE0 ≤ b.val ∧ b.val ≤ 0xEF then
    expectByte (isSecond b) rest fun c rest =>
      expectByte isCont rest fun d rest =>
        (some (Char.ofNat (b.val % 16 * 4096 + c.val % 64 * 64 + d.val % 64)), rest)
  else if 0xF0 ≤ b.val ∧ b.val ≤ 0xF4 then
    expectByte (isSecond b) rest fun c rest =>
      expectByte isCont rest fun d rest =>
        expectByte isCont rest fun e rest =>
          (some (Char.ofNat (b.val % 8 * 262144 + c.val % 64 * 4096 + d.val % 64 * 64 +
            e.val % 64)), rest)
  else (none, rest)

/-- The characters and invalid pieces (`none`) of `bs`, `fuel` of them at most. -/
def piecesFuel : ℕ → Bytes → List (Option Char)
  | 0, _ => []
  | _ + 1, [] => []
  | fuel + 1, b :: rest => (nextChar b rest).1 :: piecesFuel fuel (nextChar b rest).2

/-- The characters and invalid pieces of `bs`. -/
def pieces (bs : Bytes) : List (Option Char) := piecesFuel bs.length bs

/-- `std::str::from_utf8(bs).ok()`. -/
def fromUtf8 (bs : Bytes) : Option String := ((pieces bs).mapM id).map String.ofList

/-- `String::from_utf8_lossy(bs)`. -/
def fromUtf8Lossy (bs : Bytes) : String :=
  String.ofList ((pieces bs).map fun c => c.getD (Char.ofNat 0xFFFD))

/-! ## One character -/

theorem length_expectByte_le {p : Byte → Bool} {rest : Bytes}
    {k : Byte → Bytes → Option Char × Bytes}
    (hk : ∀ c rest', (k c rest').2.length ≤ rest'.length) :
    (expectByte p rest k).2.length ≤ rest.length := by
  cases rest with
  | nil => exact le_rfl
  | cons c rest =>
    rw [expectByte]
    split_ifs
    · exact (hk c rest).trans (Nat.le_succ _)
    · exact le_rfl

theorem expectByte_eq_some {p : Byte → Bool} {rest out : Bytes}
    {k : Byte → Bytes → Option Char × Bytes} {ch : Char}
    (h : expectByte p rest k = (some ch, out)) :
    ∃ c rest', rest = c :: rest' ∧ p c = true ∧ k c rest' = (some ch, out) := by
  cases rest with
  | nil => cases h
  | cons c rest =>
    rw [expectByte] at h
    split_ifs at h with hc
    · exact ⟨c, rest, rfl, hc, h⟩
    · cases h

theorem expectByte_cons {p : Byte → Bool} {c : Byte} (h : p c = true) (rest : Bytes)
    (k : Byte → Bytes → Option Char × Bytes) : expectByte p (c :: rest) k = k c rest := if_pos h

theorem length_nextChar_le (b : Byte) (rest : Bytes) :
    (nextChar b rest).2.length ≤ rest.length := by
  unfold nextChar
  split_ifs
  · exact le_rfl
  · exact length_expectByte_le fun _ _ => le_rfl
  · exact length_expectByte_le fun _ _ => length_expectByte_le fun _ _ => le_rfl
  · exact length_expectByte_le fun _ _ => length_expectByte_le fun _ _ =>
      length_expectByte_le fun _ _ => le_rfl
  · exact le_rfl

theorem toNat_ofNat {n : ℕ} (h : n.isValidChar) : (Char.ofNat n).toNat = n := by
  rw [Char.ofNat, dif_pos h]
  rfl

theorem length_encodeChar (c : Char) :
    0 < (encodeChar c).length ∧ (encodeChar c).length ≤ 4 := by
  unfold encodeChar
  simp only
  split_ifs <;> simp

theorem isCont_byteOf (n : ℕ) : isCont (byteOf (0x80 + n % 64)) = true := by
  apply decide_eq_true
  rw [byteOf_val]
  omega

/-- An encoded character is read first, whatever follows it. -/
theorem nextChar_encodeChar (ch : Char) (rest : Bytes) :
    ∃ b tail, encodeChar ch ++ rest = b :: tail ∧ nextChar b tail = (some ch, rest) := by
  have hvalid : ch.toNat < 0xD800 ∨ 0xDFFF < ch.toNat ∧ ch.toNat < 0x110000 := ch.valid
  have hch : ∀ {n : ℕ}, n = ch.toNat → some (Char.ofNat n) = some ch := by
    rintro n rfl
    rw [Char.ofNat_toNat]
  unfold encodeChar
  simp only
  split_ifs with h1 h2 h3
  · refine ⟨_, rest, rfl, ?_⟩
    rw [nextChar, if_pos (by rw [byteOf_val]; omega), hch (by rw [byteOf_val]; omega)]
  · refine ⟨_, _ :: rest, rfl, ?_⟩
    rw [nextChar, if_neg (by rw [byteOf_val]; omega), if_pos (by rw [byteOf_val]; omega),
      expectByte_cons (isCont_byteOf _), hch (by simp only [byteOf_val]; omega)]
  · refine ⟨_, _ :: _ :: rest, rfl, ?_⟩
    have hsecond : isSecond (byteOf (0xE0 + ch.toNat / 4096))
        (byteOf (0x80 + ch.toNat / 64 % 64)) = true := by
      apply decide_eq_true
      rw [byteOf_val, byteOf_val]
      omega
    rw [nextChar, if_neg (by rw [byteOf_val]; omega), if_neg (by rw [byteOf_val]; omega),
      if_pos (by rw [byteOf_val]; omega), expectByte_cons hsecond,
      expectByte_cons (isCont_byteOf _), hch (by simp only [byteOf_val]; omega)]
  · refine ⟨_, _ :: _ :: _ :: rest, rfl, ?_⟩
    have hsecond : isSecond (byteOf (0xF0 + ch.toNat / 262144))
        (byteOf (0x80 + ch.toNat / 4096 % 64)) = true := by
      apply decide_eq_true
      rw [byteOf_val, byteOf_val]
      omega
    rw [nextChar, if_neg (by rw [byteOf_val]; omega), if_neg (by rw [byteOf_val]; omega),
      if_neg (by rw [byteOf_val]; omega), if_pos (by rw [byteOf_val]; omega),
      expectByte_cons hsecond, expectByte_cons (isCont_byteOf _),
      expectByte_cons (isCont_byteOf _), hch (by simp only [byteOf_val]; omega)]

theorem eq_byteOf {x : Byte} {n : ℕ} (h : x.val = n) : x = byteOf n := by
  have := x.isLt
  apply Fin.ext
  rw [byteOf_val]
  omega

/-- A character that is read is there in encoded form. -/
theorem encodeChar_of_nextChar {b : Byte} {rest out : Bytes} {ch : Char}
    (h : nextChar b rest = (some ch, out)) : b :: rest = encodeChar ch ++ out := by
  have hb := b.isLt
  unfold nextChar at h
  split_ifs at h with h1 h2 h3 h4
  · cases h
    have hv := toNat_ofNat (n := b.val) (.inl (by omega))
    simp only [encodeChar, hv]
    rw [if_pos h1, ← eq_byteOf rfl]
    rfl
  · obtain ⟨c, r, rfl, hc, h⟩ := expectByte_eq_some h
    cases h
    simp only [isCont, decide_eq_true_eq] at hc
    have hv := toNat_ofNat (n := b.val % 32 * 64 + c.val % 64) (.inl (by omega))
    simp only [encodeChar, hv]
    rw [if_neg (by omega), if_pos (by omega), ← eq_byteOf (x := b) (by omega),
      ← eq_byteOf (x := c) (by omega)]
    rfl
  · obtain ⟨c, r, rfl, hc, h⟩ := expectByte_eq_some h
    obtain ⟨d, r, rfl, hd, h⟩ := expectByte_eq_some h
    cases h
    simp only [isCont, isSecond, decide_eq_true_eq] at hc hd
    have hv := toNat_ofNat (n := b.val % 16 * 4096 + c.val % 64 * 64 + d.val % 64) (by
      unfold Nat.isValidChar
      omega)
    simp only [encodeChar, hv]
    rw [if_neg (by omega), if_neg (by omega), if_pos (by omega), ← eq_byteOf (x := b) (by omega),
      ← eq_byteOf (x := c) (by omega), ← eq_byteOf (x := d) (by omega)]
    rfl
  · obtain ⟨c, r, rfl, hc, h⟩ := expectByte_eq_some h
    obtain ⟨d, r, rfl, hd, h⟩ := expectByte_eq_some h
    obtain ⟨e, r, rfl, he, h⟩ := expectByte_eq_some h
    cases h
    simp only [isCont, isSecond, decide_eq_true_eq] at hc hd he
    have hv := toNat_ofNat (n := b.val % 8 * 262144 + c.val % 64 * 4096 + d.val % 64 * 64 +
      e.val % 64) (by
        unfold Nat.isValidChar
        omega)
    simp only [encodeChar, hv]
    rw [if_neg (by omega), if_neg (by omega), if_neg (by omega), ← eq_byteOf (x := b) (by omega),
      ← eq_byteOf (x := c) (by omega), ← eq_byteOf (x := d) (by omega),
      ← eq_byteOf (x := e) (by omega)]
    rfl
  · cases h

/-! ## Strings -/

theorem piecesFuel_of_le {fuel : ℕ} {bs : Bytes} (h : bs.length ≤ fuel) :
    piecesFuel fuel bs = pieces bs := by
  have hmono : ∀ (n m : ℕ) (bs : Bytes), bs.length ≤ n → bs.length ≤ m →
      piecesFuel n bs = piecesFuel m bs := by
    intro n
    induction n with
    | zero =>
      intro m bs hn _
      rw [List.length_eq_zero_iff.mp (Nat.le_zero.mp hn)]
      cases m <;> rfl
    | succ n ih =>
      intro m bs hn hm
      cases bs with
      | nil => cases m <;> rfl
      | cons b rest =>
        cases m with
        | zero => simp at hm
        | succ m =>
          rw [List.length_cons] at hn hm
          have hle := length_nextChar_le b rest
          rw [piecesFuel, piecesFuel, ih m _ (by omega) (by omega)]
  exact hmono _ _ _ h le_rfl

theorem pieces_cons (b : Byte) (rest : Bytes) :
    pieces (b :: rest) = (nextChar b rest).1 :: pieces (nextChar b rest).2 := by
  show _ :: piecesFuel rest.length _ = _
  rw [piecesFuel_of_le (length_nextChar_le b rest)]

theorem pieces_encodeChar_append (c : Char) (rest : Bytes) :
    pieces (encodeChar c ++ rest) = some c :: pieces rest := by
  obtain ⟨b, tail, heq, hnext⟩ := nextChar_encodeChar c rest
  rw [heq, pieces_cons, hnext]

theorem pieces_encodeChars_append (cs : List Char) (rest : Bytes) :
    pieces (encodeChars cs ++ rest) = cs.map some ++ pieces rest := by
  induction cs with
  | nil => rfl
  | cons c cs ih =>
    rw [encodeChars, List.flatMap_cons, List.append_assoc, pieces_encodeChar_append,
      ← encodeChars, ih]
    rfl

theorem pieces_utf8 (s : String) : pieces (utf8 s) = s.toList.map some := by
  have h := pieces_encodeChars_append s.toList []
  rwa [List.append_nil, show pieces [] = [] from rfl, List.append_nil] at h

theorem length_pieces_le (bs : Bytes) : (pieces bs).length ≤ bs.length := by
  have hfuel : ∀ (n : ℕ) (bs : Bytes), (piecesFuel n bs).length ≤ n := by
    intro n
    induction n with
    | zero => exact fun _ => le_rfl
    | succ n ih =>
      intro bs
      cases bs with
      | nil => exact Nat.zero_le _
      | cons b rest => exact Nat.succ_le_succ (ih _)
  exact hfuel _ bs

/-- Encoded strings are read back. -/
theorem fromUtf8_utf8 (s : String) : fromUtf8 (utf8 s) = some s := by
  have hmap : ∀ cs : List Char, (cs.map some).mapM id = some cs := by
    intro cs
    induction cs with
    | nil => rfl
    | cons c cs ih => simp [ih]
  rw [fromUtf8, pieces_utf8, hmap, Option.map_some, String.ofList_toList]

/-- What is read without invalid pieces is there in encoded form. -/
theorem encodeChars_of_pieces {bs : Bytes} {cs : List Char} (h : pieces bs = cs.map some) :
    encodeChars cs = bs := by
  induction cs generalizing bs with
  | nil =>
    cases bs with
    | nil => rfl
    | cons b rest =>
      rw [pieces_cons] at h
      cases h
  | cons c cs ih =>
    cases bs with
    | nil => cases h
    | cons b rest =>
      rw [pieces_cons, List.map_cons, List.cons.injEq] at h
      have hnext : nextChar b rest = (some c, (nextChar b rest).2) := Prod.ext h.1 rfl
      rw [encodeChar_of_nextChar hnext, encodeChars, List.flatMap_cons, ← encodeChars, ih h.2]

theorem utf8_of_fromUtf8 {bs : Bytes} {s : String} (h : fromUtf8 bs = some s) : utf8 s = bs := by
  have hmap : ∀ (l : List (Option Char)) (cs : List Char), l.mapM id = some cs →
      l = cs.map some := by
    intro l
    induction l with
    | nil =>
      intro cs hcs
      cases hcs
      rfl
    | cons c l ih =>
      intro cs hcs
      simp only [List.mapM_cons, id, Option.bind_eq_bind, Option.bind_eq_some_iff, Option.pure_def,
        Option.some.injEq] at hcs
      obtain ⟨d, rfl, ds, hds, rfl⟩ := hcs
      rw [ih ds hds, List.map_cons]
  obtain ⟨cs, hcs, rfl⟩ := Option.map_eq_some_iff.mp h
  rw [utf8, String.toList_ofList]
  exact encodeChars_of_pieces (hmap _ cs hcs)

theorem fromUtf8Lossy_utf8 (s : String) : fromUtf8Lossy (utf8 s) = s := by
  rw [fromUtf8Lossy, pieces_utf8, List.map_map]
  show String.ofList (s.toList.map id) = s
  rw [List.map_id, String.ofList_toList]

/-- A cut that takes more than 12 bytes takes more pieces than it can leave behind. -/
theorem length_pieces_take_lt {cs : List Char} {n : ℕ} (h : n + 12 < (encodeChars cs).length) :
    (pieces ((encodeChars cs).take n)).length < cs.length := by
  induction cs generalizing n with
  | nil => simp [encodeChars] at h
  | cons c cs ih =>
    have hcons : encodeChars (c :: cs) = encodeChar c ++ encodeChars cs := rfl
    have hc := length_encodeChar c
    rw [hcons, List.length_append] at h
    rw [hcons, List.length_cons]
    by_cases hn : (encodeChar c).length ≤ n
    · rw [List.take_append, List.take_of_length_le hn, pieces_encodeChar_append, List.length_cons]
      have := @ih (n - (encodeChar c).length) (by omega)
      omega
    · have hlen : ∀ l : List Char, (encodeChars l).length ≤ 4 * l.length := by
        intro l
        induction l with
        | nil => exact le_rfl
        | cons d l ihl =>
          have hd := length_encodeChar d
          rw [encodeChars, List.flatMap_cons, List.length_append, List.length_cons, ← encodeChars]
          omega
      have hpieces := length_pieces_le ((encodeChar c ++ encodeChars cs).take n)
      rw [List.length_take] at hpieces
      have := hlen cs
      omega

/-- A string that has lost more than 12 bytes at its end does not read back. -/
theorem fromUtf8Lossy_take_ne {s : String} {n : ℕ} (h : n + 12 < (utf8 s).length) :
    fromUtf8Lossy ((utf8 s).take n) ≠ s := by
  intro heq
  have hlen := congrArg (fun t => t.toList.length) heq
  have hlt := length_pieces_take_lt h
  simp only [fromUtf8Lossy, String.toList_ofList, List.length_map] at hlen
  rw [← utf8] at hlt
  omega

end Digdigdig3
