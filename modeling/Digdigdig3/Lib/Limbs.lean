import Mathlib.Tactic
import Mathlib.Data.Nat.ModEq
import Digdigdig3.Lib.Bytes

/-!
# Numbers in words

A number is the list of its words from the lowest to the highest, to a base `B`. The loops here go
over the words with a carry, as the arithmetic of several machine words does.

* `value_addCarry`, `subBorrow_spec`, `mulAdd_spec`: sums, differences and rows of a product.
* `schoolbook_spec`: the product.
* `reduce_spec`: the reduction of Montgomery divides by a power of the base modulo a number.
* `value_shiftRight`: a shift over the words divides by a power of two.
* `value_ofBytes`, `ofLe_toBytes`: numbers in words of some bytes each.
-/

namespace Digdigdig3.Limbs

variable (B : ℕ)

/-- The number. -/
def value : List ℕ → ℕ
  | [] => 0
  | x :: xs => x + B * value xs

/-- All are words. -/
def Words (xs : List ℕ) : Prop := ∀ x ∈ xs, x < B

instance : DecidablePred (Words B) := fun xs => inferInstanceAs (Decidable (∀ x ∈ xs, x < B))

/-! ## Loops -/

/-- Words added one by one, with the carry in and out. Each is added twice: the word, then the
    carry. -/
def addCarry : ℕ → List ℕ → List ℕ → List ℕ × ℕ
  | carry, a :: as, b :: bs =>
    let s := (a + b) % B
    let rest := addCarry ((a + b) / B + (s + carry) / B) as bs
    ((s + carry) % B :: rest.1, rest.2)
  | carry, _, _ => ([], carry)

/-- `overflowing_sub`. -/
def overflowingSub (a b : ℕ) : ℕ × ℕ := if a < b then (a + B - b, 1) else (a - b, 0)

/-- Words subtracted one by one, with the borrow in and out. -/
def subBorrow : ℕ → List ℕ → List ℕ → List ℕ × ℕ
  | borrow, a :: as, b :: bs =>
    let s := overflowingSub B a b
    let s2 := overflowingSub B s.1 borrow
    let rest := subBorrow (s.2 + s2.2) as bs
    (s2.1 :: rest.1, rest.2)
  | borrow, _, _ => ([], borrow)

/-- A row of a product, added to words: `t + x * b`, with the carry in and out. -/
def mulAdd (x : ℕ) : ℕ → List ℕ → List ℕ → List ℕ × ℕ
  | carry, b :: bs, t :: ts =>
    let prod := x * b + t + carry
    let rest := mulAdd x (prod / B) bs ts
    (prod % B :: rest.1, rest.2)
  | carry, _, _ => ([], carry)

/-- A carry added to words as long as there is one; what is left at the end is dropped. -/
def propagate : ℕ → List ℕ → List ℕ
  | _, [] => []
  | carry, x :: xs =>
    if carry = 0 then x :: xs else (x + carry) % B :: propagate ((x + carry) / B) xs

/-- The schoolbook product into the words `t`: a row at each place, its carry put behind it. -/
def schoolbook (bs : List ℕ) : List ℕ → List ℕ → List ℕ
  | [], t => t
  | a :: as, t =>
    let row := mulAdd B a 0 bs (t.take bs.length)
    match row.1 ++ row.2 % B :: t.drop (bs.length + 1) with
    | [] => []
    | low :: t => low :: schoolbook bs as t

/-- The reduction: at each place a multiple of `n` that clears the lowest word, which is dropped. -/
def reduce (n : List ℕ) (n0i : ℕ) : ℕ → List ℕ → List ℕ
  | 0, acc => acc
  | places + 1, acc =>
    let q := acc.headD 0 * n0i % B
    let row := mulAdd B q 0 n (acc.take n.length)
    reduce n n0i places ((row.1 ++ propagate B row.2 (acc.drop n.length)).drop 1)

variable {B}

/-! ## Values -/

@[simp] theorem value_nil : value B [] = 0 := rfl

@[simp] theorem value_cons (x : ℕ) (xs : List ℕ) : value B (x :: xs) = x + B * value B xs := rfl

@[simp] theorem words_nil : Words B [] := fun _ hx => absurd hx List.not_mem_nil

theorem words_cons {x : ℕ} {xs : List ℕ} : Words B (x :: xs) ↔ x < B ∧ Words B xs :=
  List.forall_mem_cons

theorem Words.append {xs ys : List ℕ} (hx : Words B xs) (hy : Words B ys) : Words B (xs ++ ys) := by
  intro z hz
  rcases List.mem_append.mp hz with hz | hz
  · exact hx z hz
  · exact hy z hz

theorem Words.take {xs : List ℕ} (h : Words B xs) (k : ℕ) : Words B (xs.take k) :=
  fun x hx => h x (List.mem_of_mem_take hx)

theorem Words.drop {xs : List ℕ} (h : Words B xs) (k : ℕ) : Words B (xs.drop k) :=
  fun x hx => h x (List.mem_of_mem_drop hx)

theorem value_append (xs ys : List ℕ) :
    value B (xs ++ ys) = value B xs + B ^ xs.length * value B ys := by
  induction xs with
  | nil => simp
  | cons x xs ih =>
    rw [List.cons_append, value_cons, value_cons, ih, List.length_cons, pow_succ]
    ring

theorem value_lt {xs : List ℕ} (h : Words B xs) : value B xs < B ^ xs.length := by
  induction xs with
  | nil => simp
  | cons x xs ih =>
    obtain ⟨hx, hxs⟩ := words_cons.mp h
    have hlt := ih hxs
    rw [value_cons, List.length_cons, pow_succ]
    calc x + B * value B xs < B + B * value B xs := by omega
      _ = B * (value B xs + 1) := by ring
      _ ≤ B * B ^ xs.length := Nat.mul_le_mul_left B hlt
      _ = B ^ xs.length * B := Nat.mul_comm _ _

/-- Words of one length are told apart by their number. -/
theorem value_injective {xs ys : List ℕ} (hx : Words B xs) (hy : Words B ys)
    (hlen : xs.length = ys.length) (h : value B xs = value B ys) : xs = ys := by
  induction xs generalizing ys with
  | nil => exact (List.eq_nil_of_length_eq_zero hlen.symm).symm
  | cons x xs ih =>
    cases ys with
    | nil => cases hlen
    | cons y ys =>
      obtain ⟨hx, hxs⟩ := words_cons.mp hx
      obtain ⟨hy, hys⟩ := words_cons.mp hy
      rw [value_cons, value_cons] at h
      have hmod := congrArg (· % B) h
      simp only [Nat.add_mul_mod_self_left, Nat.mod_eq_of_lt hx, Nat.mod_eq_of_lt hy] at hmod
      subst hmod
      have hrest := Nat.eq_of_mul_eq_mul_left (by omega) (Nat.add_left_cancel h)
      rw [ih hxs hys (Nat.succ.inj hlen) hrest]

/-! ## Sums and differences -/

theorem words_addCarry (hB : 0 < B) (carry : ℕ) (as bs : List ℕ) :
    Words B (addCarry B carry as bs).1 := by
  induction as generalizing carry bs with
  | nil => exact words_nil
  | cons a as ih =>
    cases bs with
    | nil => exact words_nil
    | cons b bs => exact words_cons.mpr ⟨Nat.mod_lt _ hB, ih _ bs⟩

theorem length_addCarry (carry : ℕ) {as bs : List ℕ} (h : as.length = bs.length) :
    (addCarry B carry as bs).1.length = as.length := by
  induction as generalizing carry bs with
  | nil => rfl
  | cons a as ih =>
    cases bs with
    | nil => cases h
    | cons b bs => exact congrArg Nat.succ (ih _ (Nat.succ.inj h))

theorem value_addCarry (carry : ℕ) {as bs : List ℕ} (h : as.length = bs.length) :
    value B (addCarry B carry as bs).1 + B ^ as.length * (addCarry B carry as bs).2 =
      value B as + value B bs + carry := by
  induction as generalizing carry bs with
  | nil =>
    cases bs with
    | nil => simp [addCarry]
    | cons b bs => cases h
  | cons a as ih =>
    cases bs with
    | nil => cases h
    | cons b bs =>
      have hrest := ih ((a + b) / B + ((a + b) % B + carry) / B) (Nat.succ.inj h)
      have hsum := Nat.mod_add_div (a + b) B
      have hcarried := Nat.mod_add_div ((a + b) % B + carry) B
      simp only [addCarry, value_cons, List.length_cons, pow_succ]
      linear_combination B * hrest + hsum + hcarried

theorem overflowingSub_spec {a b : ℕ} (ha : a < B) (hb : b ≤ B) :
    (overflowingSub B a b).1 + b = a + B * (overflowingSub B a b).2 ∧
      (overflowingSub B a b).2 ≤ 1 ∧ (overflowingSub B a b).1 < B := by
  unfold overflowingSub
  split_ifs with h
  · exact ⟨by simp only; omega, le_rfl, by simp only; omega⟩
  · exact ⟨by simp only; omega, Nat.zero_le _, by simp only; omega⟩

/-- The two subtractions of a word borrow once at most. -/
theorem overflowingSub_twice {a b borrow : ℕ} (hB : 0 < B) (ha : a < B) (hb : b < B)
    (hborrow : borrow ≤ 1) :
    (overflowingSub B (overflowingSub B a b).1 borrow).1 + b + borrow =
        a + B * ((overflowingSub B a b).2 +
          (overflowingSub B (overflowingSub B a b).1 borrow).2) ∧
      (overflowingSub B a b).2 + (overflowingSub B (overflowingSub B a b).1 borrow).2 ≤ 1 ∧
        (overflowingSub B (overflowingSub B a b).1 borrow).1 < B := by
  obtain ⟨hfirst, hone, hlt⟩ := overflowingSub_spec ha hb.le
  obtain ⟨hsecond, hone', hlt'⟩ := overflowingSub_spec hlt (show borrow ≤ B by omega)
  refine ⟨by rw [Nat.mul_add]; omega, ?_, hlt'⟩
  by_contra hboth
  have htwo : (overflowingSub B a b).2 = 1 := by omega
  have htwo' : (overflowingSub B (overflowingSub B a b).1 borrow).2 = 1 := by omega
  rw [htwo] at hfirst
  rw [htwo'] at hsecond
  omega

theorem subBorrow_spec (hB : 0 < B) {borrow : ℕ} (hborrow : borrow ≤ 1) {as bs : List ℕ}
    (has : Words B as) (hbs : Words B bs) (h : as.length = bs.length) :
    value B (subBorrow B borrow as bs).1 + value B bs + borrow =
        value B as + B ^ as.length * (subBorrow B borrow as bs).2 ∧
      (subBorrow B borrow as bs).2 ≤ 1 ∧ Words B (subBorrow B borrow as bs).1 ∧
        (subBorrow B borrow as bs).1.length = as.length := by
  induction as generalizing borrow bs with
  | nil =>
    cases bs with
    | nil => exact ⟨by simp [subBorrow], hborrow, words_nil, rfl⟩
    | cons b bs => cases h
  | cons a as ih =>
    cases bs with
    | nil => cases h
    | cons b bs =>
      obtain ⟨ha, has⟩ := words_cons.mp has
      obtain ⟨hb, hbs⟩ := words_cons.mp hbs
      obtain ⟨hword, hone, hlt⟩ := overflowingSub_twice hB ha hb hborrow
      obtain ⟨hrest, hlast, hwords, hlen⟩ := ih hone has hbs (Nat.succ.inj h)
      refine ⟨?_, hlast, words_cons.mpr ⟨hlt, hwords⟩, congrArg Nat.succ hlen⟩
      simp only [subBorrow, value_cons, List.length_cons, pow_succ]
      linear_combination hword + B * hrest

/-! ## Products -/

theorem mulAdd_spec (hB : 0 < B) {x carry : ℕ} (hx : x < B) (hcarry : carry < B) {bs ts : List ℕ}
    (hbs : Words B bs) (hts : Words B ts) (h : bs.length = ts.length) :
    value B (mulAdd B x carry bs ts).1 + B ^ bs.length * (mulAdd B x carry bs ts).2 =
        value B ts + x * value B bs + carry ∧
      (mulAdd B x carry bs ts).2 < B ∧ Words B (mulAdd B x carry bs ts).1 ∧
        (mulAdd B x carry bs ts).1.length = bs.length := by
  induction bs generalizing carry ts with
  | nil =>
    cases ts with
    | nil => exact ⟨by simp [mulAdd], hcarry, words_nil, rfl⟩
    | cons t ts => cases h
  | cons b bs ih =>
    cases ts with
    | nil => cases h
    | cons t ts =>
      obtain ⟨hb, hbs⟩ := words_cons.mp hbs
      obtain ⟨ht, hts⟩ := words_cons.mp hts
      -- the product of two words leaves room for two more
      have hnext : (x * b + t + carry) / B < B := by
        apply Nat.div_lt_of_lt_mul
        have hxb : x * b ≤ (B - 1) * (B - 1) := Nat.mul_le_mul (by omega) (by omega)
        obtain ⟨m, rfl⟩ : ∃ m, B = m + 1 := ⟨B - 1, by omega⟩
        rw [Nat.add_sub_cancel] at hxb
        have hsq : (m + 1) * (m + 1) = m * m + 2 * m + 1 := by ring
        omega
      obtain ⟨hrest, hlast, hwords, hlen⟩ := ih hnext hbs hts (Nat.succ.inj h)
      refine ⟨?_, hlast, words_cons.mpr ⟨Nat.mod_lt _ hB, hwords⟩, congrArg Nat.succ hlen⟩
      have hprod := Nat.mod_add_div (x * b + t + carry) B
      simp only [mulAdd, value_cons, List.length_cons, pow_succ]
      linear_combination B * hrest + hprod

theorem propagate_spec (hB : 0 < B) (carry : ℕ) {xs : List ℕ} (hxs : Words B xs) :
    (∃ lost, value B (propagate B carry xs) + B ^ xs.length * lost = value B xs + carry) ∧
      Words B (propagate B carry xs) ∧ (propagate B carry xs).length = xs.length := by
  induction xs generalizing carry with
  | nil => exact ⟨⟨carry, by simp [propagate]⟩, words_nil, rfl⟩
  | cons x xs ih =>
    unfold propagate
    split_ifs with hzero
    · exact ⟨⟨0, by rw [hzero]; rfl⟩, hxs, rfl⟩
    · obtain ⟨⟨lost, hrest⟩, hwords, hlen⟩ := ih ((x + carry) / B) (words_cons.mp hxs).2
      refine ⟨⟨lost, ?_⟩, words_cons.mpr ⟨Nat.mod_lt _ hB, hwords⟩, congrArg Nat.succ hlen⟩
      have hsum := Nat.mod_add_div (x + carry) B
      simp only [value_cons, List.length_cons, pow_succ]
      linear_combination B * hrest + hsum

/-- Where the sum fits nothing is lost. -/
theorem value_propagate (hB : 0 < B) {carry : ℕ} {xs : List ℕ} (hxs : Words B xs)
    (hfits : value B xs + carry < B ^ xs.length) :
    value B (propagate B carry xs) = value B xs + carry := by
  obtain ⟨⟨lost, hsum⟩, -, -⟩ := propagate_spec hB carry hxs
  have hlost : lost = 0 := by
    by_contra hne
    have := Nat.le_mul_of_pos_right (B ^ xs.length) (Nat.pos_of_ne_zero hne)
    omega
  rw [hlost, Nat.mul_zero, Nat.add_zero] at hsum
  exact hsum

theorem value_zeros {xs : List ℕ} (h : ∀ x ∈ xs, x = 0) : value B xs = 0 := by
  induction xs with
  | nil => rfl
  | cons x xs ih =>
    obtain ⟨hx, hxs⟩ := List.forall_mem_cons.mp h
    rw [value_cons, hx, ih hxs, Nat.mul_zero]

theorem value_replicate_zero (k : ℕ) : value B (List.replicate k 0) = 0 :=
  value_zeros fun _ hx => List.eq_of_mem_replicate hx

/-- The schoolbook product, added to words behind which there are zeros. -/
theorem schoolbook_spec (hB : 0 < B) {bs as t : List ℕ} (hbs : Words B bs) (has : Words B as)
    (ht : Words B t) (hlen : t.length = bs.length + as.length)
    (hzeros : ∀ x ∈ t.drop bs.length, x = 0) :
    value B (schoolbook B bs as t) = value B t + value B as * value B bs ∧
      Words B (schoolbook B bs as t) ∧ (schoolbook B bs as t).length = t.length := by
  induction as generalizing t with
  | nil => exact ⟨by simp [schoolbook], ht, rfl⟩
  | cons a as ih =>
    obtain ⟨ha, has⟩ := words_cons.mp has
    rw [List.length_cons] at hlen
    have htake : (t.take bs.length).length = bs.length := by
      rw [List.length_take]
      omega
    obtain ⟨hrow, hcarry, hwords, hrowLen⟩ :=
      mulAdd_spec hB ha hB hbs (ht.take bs.length) htake.symm
    -- the place of the carry is empty
    obtain ⟨behind, hdrop⟩ : ∃ behind, t.drop bs.length = 0 :: behind := by
      rcases hd : t.drop bs.length with _ | ⟨z, behind⟩
      · have := congrArg List.length hd
        rw [List.length_drop, List.length_nil] at this
        omega
      · rw [hd] at hzeros
        exact ⟨behind, by rw [hzeros z List.mem_cons_self]⟩
    have hbehind : t.drop (bs.length + 1) = behind := by
      rw [← List.drop_drop, hdrop]
      rfl
    have hvalue : value B t =
        value B (t.take bs.length) + B ^ bs.length * (B * value B behind) := by
      conv_lhs => rw [← List.take_append_drop bs.length t]
      rw [value_append, hdrop, htake, value_cons, Nat.zero_add]
    rw [hdrop] at hzeros
    unfold schoolbook
    simp only
    generalize mulAdd B a 0 bs (t.take bs.length) = row at hrow hcarry hwords hrowLen ⊢
    obtain ⟨low, rest, hfull⟩ : ∃ low rest,
        row.1 ++ row.2 % B :: t.drop (bs.length + 1) = low :: rest := by
      rcases row.1 with _ | ⟨low, rest⟩
      · exact ⟨_, _, rfl⟩
      · exact ⟨_, _, rfl⟩
    have hsum : low + B * value B rest = value B t + a * value B bs := by
      rw [← value_cons, ← hfull, value_append, value_cons, Nat.mod_eq_of_lt hcarry, hbehind,
        hrowLen, hvalue]
      linear_combination hrow
    have hfullWords : Words B (low :: rest) := by
      rw [← hfull, hbehind]
      refine hwords.append (words_cons.mpr ⟨Nat.mod_lt _ hB, fun x hx => ?_⟩)
      rw [hzeros x (List.mem_cons_of_mem 0 hx)]
      exact hB
    have hrest : rest.drop bs.length = behind := by
      have hdropped := congrArg (List.drop (row.1.length + 1)) hfull
      rw [List.drop_length_add_append, List.drop_succ_cons, List.drop_succ_cons, List.drop_zero,
        hbehind, hrowLen] at hdropped
      exact hdropped.symm
    have hrestLen : rest.length = bs.length + as.length := by
      have hlens := congrArg List.length hfull
      rw [List.length_append, hrowLen, List.length_cons, List.length_cons, List.length_drop]
        at hlens
      omega
    obtain ⟨hrestValue, hrestWords, hlenRest⟩ := ih has (words_cons.mp hfullWords).2 hrestLen (by
      rw [hrest]
      exact fun x hx => hzeros x (List.mem_cons_of_mem 0 hx))
    rw [hfull]
    simp only
    refine ⟨?_, words_cons.mpr ⟨(words_cons.mp hfullWords).1, hrestWords⟩, ?_⟩
    · rw [value_cons, hrestValue, value_cons]
      linear_combination hsum
    · rw [List.length_cons, hlenRest, hrestLen, hlen]
      omega

/-! ## Reduction -/

/-- The multiple of `n` that clears the lowest word. -/
theorem mod_mul_add {x low n0 n0i : ℕ} (hn0 : (n0 * n0i + 1) % B = 0) (hx : x = low * n0i % B) :
    (x * n0 + low) % B = 0 := by
  have hmod : x * n0 + low ≡ low * (n0 * n0i + 1) [MOD B] := by
    have hx' : x ≡ low * n0i [MOD B] := by
      rw [hx]
      exact Nat.mod_modEq _ _
    calc x * n0 + low ≡ low * n0i * n0 + low [MOD B] := (hx'.mul_right n0).add_right low
      _ = low * (n0 * n0i + 1) := by ring
  have hzero : low * (n0 * n0i + 1) ≡ low * 0 [MOD B] := Nat.ModEq.mul_left low hn0
  exact hmod.trans hzero

/-- One place adds a multiple of `n` and divides by the base, if there is room. -/
theorem reduce_step (hB : 0 < B) {n0 n0i : ℕ} {ns : List ℕ} (hn : Words B (n0 :: ns))
    (hn0 : (n0 * n0i + 1) % B = 0) (places : ℕ) {acc : List ℕ} (hacc : Words B acc)
    (hlen : (n0 :: ns).length < acc.length)
    (hroom : ∀ q < B, value B acc + q * value B (n0 :: ns) < B ^ acc.length) :
    ∃ q < B, ∃ next,
      reduce B (n0 :: ns) n0i (places + 1) acc = reduce B (n0 :: ns) n0i places next ∧
      B * value B next = value B acc + q * value B (n0 :: ns) ∧ Words B next ∧
        next.length + 1 = acc.length := by
  obtain ⟨low, high, rfl⟩ : ∃ low high, acc = low :: high := by
    rcases acc with _ | ⟨low, high⟩
    · cases hlen
    · exact ⟨low, high, rfl⟩
  have hq : low * n0i % B < B := Nat.mod_lt _ hB
  have htake : ((low :: high).take (n0 :: ns).length).length = (n0 :: ns).length := by
    rw [List.length_take]
    omega
  have hdrop : ((low :: high).drop (n0 :: ns).length).length =
      (low :: high).length - (n0 :: ns).length := List.length_drop
  have hsplit : value B (low :: high) = value B ((low :: high).take (n0 :: ns).length) +
      B ^ (n0 :: ns).length * value B ((low :: high).drop (n0 :: ns).length) := by
    conv_lhs => rw [← List.take_append_drop (n0 :: ns).length (low :: high)]
    rw [value_append, htake]
  obtain ⟨hrow, hcarry, hwords, hrowLen⟩ :=
    mulAdd_spec hB hq hB hn (hacc.take (n0 :: ns).length) htake.symm
  -- the lowest word of the row is cleared
  obtain ⟨row, hclear⟩ : ∃ row, (mulAdd B (low * n0i % B) 0 (n0 :: ns)
      ((low :: high).take (n0 :: ns).length)).1 = 0 :: row := by
    refine ⟨_, congrArg (· :: _) ?_⟩
    show (low * n0i % B * n0 + low + 0) % B = 0
    rw [Nat.add_zero]
    exact mod_mul_add hn0 rfl
  refine ⟨low * n0i % B, hq, ?_⟩
  have hunfold : reduce B (n0 :: ns) n0i (places + 1) (low :: high) =
      reduce B (n0 :: ns) n0i places (((mulAdd B (low * n0i % B) 0 (n0 :: ns)
        ((low :: high).take (n0 :: ns).length)).1 ++ propagate B (mulAdd B (low * n0i % B) 0
          (n0 :: ns) ((low :: high).take (n0 :: ns).length)).2
            ((low :: high).drop (n0 :: ns).length)).drop 1) := rfl
  rw [hunfold]
  have hroom' := hroom _ hq
  generalize mulAdd B (low * n0i % B) 0 (n0 :: ns) ((low :: high).take (n0 :: ns).length) =
    product at hrow hcarry hwords hrowLen hclear ⊢
  generalize low * n0i % B = q at hrow hroom' ⊢
  have hfits : value B ((low :: high).drop (n0 :: ns).length) + product.2 <
      B ^ ((low :: high).drop (n0 :: ns).length).length := by
    have hpow : B ^ (low :: high).length =
        B ^ (n0 :: ns).length * B ^ ((low :: high).length - (n0 :: ns).length) := by
      rw [← pow_add, Nat.add_sub_cancel' hlen.le]
    rw [hdrop]
    apply lt_of_mul_lt_mul_left (a := B ^ (n0 :: ns).length) _ (Nat.zero_le _)
    rw [← hpow, Nat.mul_add]
    omega
  obtain ⟨-, hpropWords, hpropLen⟩ := propagate_spec hB product.2 (hacc.drop (n0 :: ns).length)
  have hprop := value_propagate hB (hacc.drop (n0 :: ns).length) hfits
  generalize propagate B product.2 ((low :: high).drop (n0 :: ns).length) = tail at *
  have hwhole : value B (product.1 ++ tail) = B * value B (row ++ tail) := by
    rw [hclear, List.cons_append, value_cons, Nat.zero_add]
  rw [hclear] at hwords hrowLen ⊢
  refine ⟨row ++ tail, rfl, ?_, (words_cons.mp hwords).2.append hpropWords, ?_⟩
  · rw [← hwhole, hclear, value_append, hrowLen, hprop, hsplit, ← hclear]
    linear_combination hrow
  · rw [List.length_append, hpropLen, hdrop]
    rw [List.length_cons, List.length_cons] at hrowLen
    rw [List.length_cons, List.length_cons] at hlen ⊢
    omega

/-- Whether or not there is room, a place drops one word. -/
theorem reduce_shape (hB : 0 < B) {n : List ℕ} (hn : Words B n) (n0i places : ℕ) {acc : List ℕ}
    (hacc : Words B acc) (hlen : acc.length = n.length + places) :
    Words B (reduce B n n0i places acc) ∧ (reduce B n n0i places acc).length = n.length := by
  induction places generalizing acc with
  | zero => exact ⟨hacc, hlen⟩
  | succ places ih =>
    have hq : acc.headD 0 * n0i % B < B := Nat.mod_lt _ hB
    have htake : (acc.take n.length).length = n.length := by
      rw [List.length_take]
      omega
    obtain ⟨-, -, hwords, hrowLen⟩ := mulAdd_spec hB hq hB hn (hacc.take n.length) htake.symm
    rw [reduce]
    generalize mulAdd B (acc.headD 0 * n0i % B) 0 n (acc.take n.length) = row at *
    obtain ⟨-, hpropWords, hpropLen⟩ := propagate_spec hB row.2 (hacc.drop n.length)
    refine ih ((hwords.append hpropWords).drop 1) ?_
    rw [List.length_drop, List.length_append, hrowLen, hpropLen, List.length_drop]
    omega

/-- Each place adds a multiple of `n` and divides by the base. -/
theorem reduce_spec (hB : 0 < B) {n : List ℕ} {n0i : ℕ} (hn : Words B n) (hne : n ≠ [])
    (hn0 : (n.headD 0 * n0i + 1) % B = 0) (places : ℕ) {acc : List ℕ} (hacc : Words B acc)
    (hlen : acc.length = n.length + places)
    (hroom : value B acc + B ^ places * value B n < B ^ acc.length + value B n) :
    ∃ m < B ^ places, value B (reduce B n n0i places acc) * B ^ places =
      value B acc + m * value B n := by
  obtain ⟨n0, ns, rfl⟩ := List.exists_cons_of_ne_nil hne
  induction places generalizing acc with
  | zero => exact ⟨0, by simp, by simp [reduce]⟩
  | succ places ih =>
    have hscale : ∀ q < B, (q + 1) * value B (n0 :: ns) ≤
        B ^ (places + 1) * value B (n0 :: ns) := by
      intro q hq
      refine Nat.mul_le_mul_right _ (Nat.succ_le_of_lt (lt_of_lt_of_le hq ?_))
      rw [pow_succ]
      exact Nat.le_mul_of_pos_left B (Nat.pow_pos hB)
    obtain ⟨q, hq, next, heq, hnext, hwords, hnextLen⟩ :=
      reduce_step hB hn hn0 places hacc (by omega) fun q hq => by
        have := hscale q hq
        rw [Nat.succ_mul] at this
        omega
    have hpowLen : B * B ^ next.length = B ^ acc.length := by rw [← hnextLen, pow_succ']
    have hpowPlaces : B * (B ^ places * value B (n0 :: ns)) =
        B ^ (places + 1) * value B (n0 :: ns) := by ring
    have hqn : (q + 1) * value B (n0 :: ns) ≤ B * value B (n0 :: ns) :=
      Nat.mul_le_mul_right _ hq
    rw [Nat.succ_mul] at hqn
    obtain ⟨m, hm, hsum⟩ := ih hwords (by omega) (by
      apply lt_of_mul_lt_mul_left (a := B) _ (Nat.zero_le _)
      rw [Nat.mul_add, Nat.mul_add, hnext, hpowPlaces, hpowLen]
      omega)
    rw [heq]
    refine ⟨q + B * m, ?_, ?_⟩
    · calc q + B * m < B + B * m := Nat.add_lt_add_right hq _
        _ = B * (m + 1) := by ring
        _ ≤ B * B ^ places := Nat.mul_le_mul_left B hm
        _ = B ^ (places + 1) := (pow_succ' B places).symm
    · rw [pow_succ]
      linear_combination B * hsum + hnext

/-! ## Shifts -/

/-- Each word shifted right, with the low bits of the next one on top. -/
def shiftRight (size w : ℕ) : List ℕ → List ℕ
  | [] => []
  | [x] => [x >>> w]
  | x :: y :: xs => (x >>> w ||| (y <<< (size - w)) % 2 ^ size) :: shiftRight size w (y :: xs)

@[simp] theorem length_shiftRight (size w : ℕ) (xs : List ℕ) :
    (shiftRight size w xs).length = xs.length := by
  induction xs with
  | nil => rfl
  | cons x xs ih =>
    cases xs with
    | nil => rfl
    | cons y xs => exact congrArg Nat.succ ih

/-- The low bits of a word, on top of the high ones of another. -/
theorem shift_or {size w x y : ℕ} (hw : w ≤ size) (hx : x < 2 ^ size) :
    x >>> w ||| (y <<< (size - w)) % 2 ^ size = x / 2 ^ w + 2 ^ (size - w) * (y % 2 ^ w) := by
  have hpow : 2 ^ size = 2 ^ (size - w) * 2 ^ w := by
    rw [← pow_add]
    congr 1
    omega
  have hlow : x / 2 ^ w < 2 ^ (size - w) := by
    apply Nat.div_lt_of_lt_mul
    rwa [mul_comm, ← hpow]
  have hhigh : (y <<< (size - w)) % 2 ^ size = 2 ^ (size - w) * (y % 2 ^ w) := by
    rw [Nat.shiftLeft_eq, hpow, mul_comm y, Nat.mul_mod_mul_left]
  rw [hhigh, Nat.shiftRight_eq_div_pow, Nat.or_comm, ← Nat.two_pow_add_eq_or_of_lt hlow, add_comm]

theorem words_shiftRight {size w : ℕ} {xs : List ℕ} (h : Words (2 ^ size) xs) :
    Words (2 ^ size) (shiftRight size w xs) := by
  induction xs with
  | nil => exact h
  | cons x xs ih =>
    obtain ⟨hx, hxs⟩ := words_cons.mp h
    have hshift : x >>> w < 2 ^ size := (Nat.shiftRight_le x w).trans_lt hx
    cases xs with
    | nil => exact words_cons.mpr ⟨hshift, words_nil⟩
    | cons y xs =>
      refine words_cons.mpr ⟨?_, ih hxs⟩
      exact Nat.or_lt_two_pow hshift (Nat.mod_lt _ (Nat.two_pow_pos size))

/-- The number is divided by `2^w`. -/
theorem value_shiftRight {size w : ℕ} (hw : w ≤ size) {xs : List ℕ} (h : Words (2 ^ size) xs) :
    value (2 ^ size) (shiftRight size w xs) = value (2 ^ size) xs / 2 ^ w := by
  induction xs with
  | nil => exact (Nat.zero_div _).symm
  | cons x xs ih =>
    obtain ⟨hx, hxs⟩ := words_cons.mp h
    have hpow : 2 ^ size = 2 ^ w * 2 ^ (size - w) := by
      rw [← pow_add]
      congr 1
      omega
    cases xs with
    | nil => simp [shiftRight, Nat.shiftRight_eq_div_pow]
    | cons y xs =>
      rw [shiftRight, value_cons, ih hxs, shift_or hw hx, value_cons _ (x := x)]
      generalize hrest : value (2 ^ size) (y :: xs) = rest
      have hmod : y % 2 ^ w = rest % 2 ^ w := by
        rw [← hrest, value_cons, hpow, mul_assoc, Nat.add_mul_mod_self_left]
      have hsplit := Nat.mod_add_div rest (2 ^ w)
      have hdiv : (x + 2 ^ w * (2 ^ (size - w) * rest)) / 2 ^ w =
          x / 2 ^ w + 2 ^ (size - w) * rest := Nat.add_mul_div_left _ _ (Nat.two_pow_pos w)
      rw [hmod, hpow, mul_assoc, mul_assoc, hdiv, add_assoc, mul_left_comm, ← mul_add, hsplit]

/-! ## Words of bytes -/

theorem ofLe_append (as bs : Bytes) : ofLe (as ++ bs) = ofLe as + 256 ^ as.length * ofLe bs := by
  induction as with
  | nil => simp [ofLe]
  | cons a as ih =>
    rw [List.cons_append, ofLe, ofLe, ih, List.length_cons, pow_succ]
    ring

theorem ofLe_zeros (k : ℕ) : ofLe (List.replicate k 0) = 0 := by
  induction k with
  | zero => rfl
  | succ k ih =>
    rw [List.replicate_succ, ofLe, ih]
    rfl

/-- The words of `w` bytes each that stand in the first bytes of a string. -/
def ofBytes (w k : ℕ) (bs : Bytes) : List ℕ := (List.range k).map fun i => ofLe (slice bs (w * i) w)

@[simp] theorem length_ofBytes (w k : ℕ) (bs : Bytes) : (ofBytes w k bs).length = k := by
  simp [ofBytes]

theorem words_ofBytes (w k : ℕ) (bs : Bytes) : Words (256 ^ w) (ofBytes w k bs) := by
  intro x hx
  obtain ⟨i, -, rfl⟩ := List.mem_map.mp hx
  apply (ofLe_lt _).trans_le
  apply Nat.pow_le_pow_right (by norm_num)
  exact List.length_take_le _ _

theorem value_ofBytes {w k : ℕ} {bs : Bytes} (h : w * k ≤ bs.length) :
    value (256 ^ w) (ofBytes w k bs) = ofLe (bs.take (w * k)) := by
  induction k with
  | zero => simp [ofBytes, ofLe]
  | succ k ih =>
    rw [Nat.mul_succ] at h
    have hpart : value (256 ^ w) (ofBytes w k bs) = ofLe (bs.take (w * k)) := ih (by omega)
    have hsucc : ofBytes w (k + 1) bs = ofBytes w k bs ++ [ofLe (slice bs (w * k) w)] := by
      simp [ofBytes, List.range_succ]
    have htake : bs.take (w * (k + 1)) = bs.take (w * k) ++ slice bs (w * k) w := by
      rw [Nat.mul_succ, slice, List.take_add]
    have hlen : (bs.take (w * k)).length = w * k := by
      rw [List.length_take]
      omega
    rw [hsucc, htake, value_append, ofLe_append, hpart, hlen, length_ofBytes, value_cons, value_nil,
      ← pow_mul]
    ring

/-- The bytes of words of `w` bytes each. -/
def toBytes (w : ℕ) (xs : List ℕ) : Bytes := xs.flatMap (toLe w)

@[simp] theorem length_toBytes (w : ℕ) (xs : List ℕ) : (toBytes w xs).length = w * xs.length := by
  induction xs with
  | nil => rfl
  | cons x xs ih =>
    rw [toBytes, List.flatMap_cons, List.length_append, length_toLe, ← toBytes, ih,
      List.length_cons, Nat.mul_succ]
    omega

theorem ofLe_toBytes {w : ℕ} {xs : List ℕ} (h : Words (256 ^ w) xs) :
    ofLe (toBytes w xs) = value (256 ^ w) xs := by
  induction xs with
  | nil => rfl
  | cons x xs ih =>
    obtain ⟨hx, hxs⟩ := words_cons.mp h
    rw [toBytes, List.flatMap_cons, ofLe_append, ofLe_toLe_of_lt hx, length_toLe, ← toBytes, ih hxs,
      value_cons]

/-! ## Pieces of one length -/

theorem length_flatten_pieces {w : ℕ} {cs : List Bytes} (h : ∀ c ∈ cs, c.length = w) :
    cs.flatten.length = w * cs.length := by
  induction cs with
  | nil => rfl
  | cons c cs ih =>
    rw [List.flatten_cons, List.length_append, h c List.mem_cons_self,
      ih fun d hd => h d (List.mem_cons_of_mem c hd), List.length_cons, Nat.mul_succ, add_comm]

theorem ofLe_flatten {w : ℕ} {cs : List Bytes} (h : ∀ c ∈ cs, c.length = w) :
    ofLe cs.flatten = value (256 ^ w) (cs.map ofLe) := by
  induction cs with
  | nil => rfl
  | cons c cs ih =>
    rw [List.flatten_cons, ofLe_append, h c List.mem_cons_self,
      ih fun d hd => h d (List.mem_cons_of_mem c hd), List.map_cons, value_cons]

theorem map_slice_flatten {w : ℕ} {cs : List Bytes} (h : ∀ c ∈ cs, c.length = w) :
    ((List.range cs.length).map fun i => slice cs.flatten (w * i) w) = cs := by
  induction cs with
  | nil => rfl
  | cons c cs ih =>
    have hc : c.length = w := h c List.mem_cons_self
    have hnext : ∀ i, slice (c :: cs).flatten (w * (i + 1)) w = slice cs.flatten (w * i) w := by
      intro i
      rw [slice, slice, List.flatten_cons, Nat.mul_succ, add_comm, ← hc,
        List.drop_length_add_append]
    have hfirst : slice (c :: cs).flatten (w * 0) w = c := by
      rw [slice, Nat.mul_zero, List.drop_zero, List.flatten_cons, List.take_left' hc]
    rw [List.length_cons, List.range_succ_eq_map, List.map_cons, List.map_map, hfirst]
    conv_rhs => rw [← ih fun d hd => h d (List.mem_cons_of_mem c hd)]
    exact congrArg (c :: ·) (List.map_congr_left fun i _ => hnext i)

/-- A string is its pieces one behind the other. -/
theorem flatten_map_slice {w k : ℕ} {bs : Bytes} (h : bs.length = w * k) :
    ((List.range k).map fun i => slice bs (w * i) w).flatten = bs := by
  induction k generalizing bs with
  | zero => simpa using (List.length_eq_zero_iff.mp h).symm
  | succ k ih =>
    rw [Nat.mul_succ] at h
    have hinit : (bs.take (w * k)).length = w * k := by
      rw [List.length_take]
      omega
    have hlow : ((List.range k).map fun i => slice bs (w * i) w) =
        (List.range k).map fun i => slice (bs.take (w * k)) (w * i) w := by
      apply List.map_congr_left
      intro i hi
      have hnext : w * (i + 1) ≤ w * k := Nat.mul_le_mul_left w (List.mem_range.mp hi)
      rw [Nat.mul_succ] at hnext
      conv_lhs => rw [← List.take_append_drop (w * k) bs]
      exact slice_append_left (by omega)
    have hlast : slice bs (w * k) w = bs.drop (w * k) := by
      apply List.take_of_length_le
      rw [List.length_drop]
      omega
    rw [List.range_succ, List.map_append, List.flatten_append, hlow, ih hinit, List.map_singleton,
      List.flatten_singleton, hlast, List.take_append_drop]

theorem length_of_mem_slices {w k : ℕ} {bs : Bytes} (h : bs.length = w * k) :
    ∀ c ∈ (List.range k).map fun i => slice bs (w * i) w, c.length = w := by
  intro c hc
  obtain ⟨i, hi, rfl⟩ := List.mem_map.mp hc
  have hnext : w * (i + 1) ≤ w * k := Nat.mul_le_mul_left w (List.mem_range.mp hi)
  rw [Nat.mul_succ] at hnext
  rw [slice, List.length_take, List.length_drop]
  omega

end Digdigdig3.Limbs
