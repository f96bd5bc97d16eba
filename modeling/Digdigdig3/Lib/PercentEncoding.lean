import Digdigdig3.Lib.Utf8

/-!
# Percent-encoding

A byte of the set `set` is written as `%` and two upper-case hex digits. The decoder reads every
`%` that two hex digits follow, and leaves other bytes alone.

* `percentDecode_percentEncode`: decoding inverts encoding when the set has `%`.
* `mem_percentEncode`: which bytes an encoded text is made of.
-/

namespace Digdigdig3

/-- The byte of an ASCII character. -/
def ascii (c : Char) : Byte := byteOf c.toNat

def hexDigit (n : ℕ) : Byte := byteOf (if n < 10 then 48 + n else 55 + n)

/-- The value of a hex digit in either case. -/
def hexValue (b : Byte) : Option ℕ :=
  if 48 ≤ b.val ∧ b.val ≤ 57 then some (b.val - 48)
  else if 65 ≤ b.val ∧ b.val ≤ 70 then some (b.val - 55)
  else if 97 ≤ b.val ∧ b.val ≤ 102 then some (b.val - 87)
  else none

def escape (b : Byte) : Bytes := [ascii '%', hexDigit (b.val / 16), hexDigit (b.val % 16)]

def encodeByte (set : Byte → Bool) (b : Byte) : Bytes := if set b then escape b else [b]

def percentEncode (set : Byte → Bool) (bs : Bytes) : Bytes := bs.flatMap (encodeByte set)

def percentDecode : Bytes → Bytes
  | b :: hi :: lo :: rest =>
    if b = ascii '%' then
      match hexValue hi, hexValue lo with
      | some h, some l => byteOf (16 * h + l) :: percentDecode rest
      | _, _ => b :: percentDecode (hi :: lo :: rest)
    else b :: percentDecode (hi :: lo :: rest)
  | bs => bs

variable {set : Byte → Bool} {b : Byte}

/-! ## Encoding -/

@[simp] theorem percentEncode_nil : percentEncode set [] = [] := rfl

@[simp] theorem percentEncode_cons (b : Byte) (bs : Bytes) :
    percentEncode set (b :: bs) = encodeByte set b ++ percentEncode set bs := rfl

@[simp] theorem percentEncode_append (a b : Bytes) :
    percentEncode set (a ++ b) = percentEncode set a ++ percentEncode set b :=
  List.flatMap_append

theorem percentEncode_eq_self {bs : Bytes} (h : ∀ b ∈ bs, set b = false) :
    percentEncode set bs = bs := by
  induction bs with
  | nil => rfl
  | cons b bs ih =>
    rw [List.forall_mem_cons] at h
    rw [percentEncode_cons, encodeByte, h.1, ih h.2]
    rfl

theorem hexDigit_mem_escape {c : Byte} (h : c ∈ escape b) :
    c = ascii '%' ∨ ∃ n < 16, c = hexDigit n := by
  simp only [escape, List.mem_cons, List.not_mem_nil, or_false] at h
  rcases h with rfl | rfl | rfl
  · exact .inl rfl
  · exact .inr ⟨b.val / 16, by omega, rfl⟩
  · exact .inr ⟨b.val % 16, by omega, rfl⟩

/-- An encoded text is made of escapes and of bytes outside the set. -/
theorem mem_percentEncode {c : Byte} {bs : Bytes} (h : c ∈ percentEncode set bs) :
    c = ascii '%' ∨ (∃ n < 16, c = hexDigit n) ∨ c ∈ bs ∧ set c = false := by
  obtain ⟨b, hb, hc⟩ := List.mem_flatMap.mp h
  rw [encodeByte] at hc
  split at hc
  · exact (hexDigit_mem_escape hc).imp id .inl
  · rename_i hset
    rw [List.mem_singleton] at hc
    subst hc
    exact .inr (.inr ⟨hb, by simpa using hset⟩)

theorem notMem_percentEncode {c : Byte} (hset : set c = true) (hc : c ≠ ascii '%')
    (hhex : hexValue c = none) (bs : Bytes) : c ∉ percentEncode set bs := by
  intro h
  rcases mem_percentEncode h with rfl | ⟨n, hn, rfl⟩ | ⟨-, hfalse⟩
  · exact hc rfl
  · have hsome : ∀ n < 16, hexValue (hexDigit n) ≠ none := by decide
    exact hsome n hn hhex
  · rw [hset] at hfalse
    cases hfalse

/-! ## Decoding -/

theorem hexValue_hexDigit {n : ℕ} (h : n < 16) : hexValue (hexDigit n) = some n := by
  have hall : ∀ n < 16, hexValue (hexDigit n) = some n := by decide
  exact hall n h

theorem percentDecode_cons_of_ne (h : b ≠ ascii '%') (rest : Bytes) :
    percentDecode (b :: rest) = b :: percentDecode rest := by
  match rest with
  | [] => rfl
  | [_] => rfl
  | hi :: lo :: rest => rw [percentDecode, if_neg h]

/-- An escape is read back, with digits in either case. -/
theorem percentDecode_percent {hi lo : Byte} {h l : ℕ} (hhi : hexValue hi = some h)
    (hlo : hexValue lo = some l) (rest : Bytes) :
    percentDecode (ascii '%' :: hi :: lo :: rest) = byteOf (16 * h + l) :: percentDecode rest := by
  rw [percentDecode, if_pos rfl, hhi, hlo]

theorem percentDecode_escape (b : Byte) (rest : Bytes) :
    percentDecode (escape b ++ rest) = b :: percentDecode rest := by
  have hb := b.isLt
  have hval : byteOf (16 * (b.val / 16) + b.val % 16) = b := by
    apply Fin.ext
    rw [byteOf_val, Nat.div_add_mod, Nat.mod_eq_of_lt hb]
  exact (percentDecode_percent (hexValue_hexDigit (by omega)) (hexValue_hexDigit (by omega))
    rest).trans (by rw [hval])

theorem percentDecode_percentEncode_append (hset : set (ascii '%') = true) (bs rest : Bytes) :
    percentDecode (percentEncode set bs ++ rest) = bs ++ percentDecode rest := by
  induction bs with
  | nil => rfl
  | cons b bs ih =>
    rw [percentEncode_cons, List.append_assoc, encodeByte]
    split
    · rw [percentDecode_escape, ih, List.cons_append]
    · rename_i hb
      have hne : b ≠ ascii '%' := by
        rintro rfl
        exact hb hset
      rw [List.singleton_append, percentDecode_cons_of_ne hne, ih, List.cons_append]

theorem percentDecode_percentEncode (hset : set (ascii '%') = true) (bs : Bytes) :
    percentDecode (percentEncode set bs) = bs := by
  simpa [percentDecode] using percentDecode_percentEncode_append hset bs []

end Digdigdig3
