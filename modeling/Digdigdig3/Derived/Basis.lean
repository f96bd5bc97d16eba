import Digdigdig3.Derived.Basic
import Digdigdig3.Lib.Upsert
import Mathlib.Data.List.TakeWhile

/-!
# The basis of a perpetual

`BasisDerived` (`derived.rs` lines 266–326) pairs the latest mark price with the latest index price
when they are at most two seconds apart. It takes the events of both channels as they come, so a
pair may be made before an older price of the other channel is there.

Results:
* `forall_upTo_iff`: a pair is as new as anything delivered so far.
* `mem_lastWins_emitted_iff`: what is left of the pairs of one time.
* `basis_joins`: what a run emits, and where it is the join of the channels by time.
-/

namespace Digdigdig3.Derived

/-- The variants of `Event` that `BasisDerived` matches on; `other` stands for the rest. -/
inductive PriceEvent
  | markPrice (tsMs : ℤ) (mark : ℚ)
  | indexPrice (tsMs : ℤ) (price : ℚ)
  | other

/-- `BasisPoint` (`data/basis.rs`). -/
structure BasisPoint where
  tsMs : ℤ
  value : ℚ
  mark : ℚ
  index : ℚ
  deriving DecidableEq

/-- `BasisDerived` (lines 272–279). -/
structure BasisDerived where
  lastMark : Option (ℤ × ℚ)
  lastIndex : Option (ℤ × ℚ)
  maxSkewMs : ℤ

namespace BasisDerived

/-- `new_for_key` (lines 288–294). -/
def newForKey : BasisDerived := { lastMark := none, lastIndex := none, maxSkewMs := 2000 }

/-- What `on_upstream_event` remembers (lines 297–309); `dep_idx` is in front of the event. -/
def remember (s : BasisDerived) : ℕ × PriceEvent → BasisDerived
  | (0, .markPrice tsMs mark) => { s with lastMark := some (tsMs, mark) }
  | (1, .indexPrice tsMs price) => { s with lastIndex := some (tsMs, price) }
  | _ => s

/-- The pair of the two prices (lines 311–324). -/
def pair (s : BasisDerived) : Option BasisPoint := do
  let mark ← s.lastMark
  let index ← s.lastIndex
  if |mark.1 - index.1| > s.maxSkewMs then none
  else some { tsMs := max mark.1 index.1, value := mark.2 - index.2, mark := mark.2,
              index := index.2 }

/-- `on_upstream_event` (lines 296–325). -/
def onUpstreamEvent (s : BasisDerived) (d : ℕ × PriceEvent) : BasisDerived × Option BasisPoint :=
  if d.1 ≤ 1 then (s.remember d, (s.remember d).pair) else (s, none)

def machine : Mealy BasisDerived (ℕ × PriceEvent) BasisPoint := ⟨onUpstreamEvent⟩

/-! ## The channels -/

/-- The price that is delivered, with the channel it comes from. -/
def priceOf : ℕ × PriceEvent → Option (ℕ × ℤ × ℚ)
  | (0, .markPrice tsMs mark) => some (0, tsMs, mark)
  | (1, .indexPrice tsMs price) => some (1, tsMs, price)
  | _ => none

/-- What a channel has delivered. -/
def channel (k : ℕ) (es : List (ℕ × PriceEvent)) : List (ℤ × ℚ) :=
  ((es.filterMap priceOf).filter fun x => x.1 = k).map Prod.snd

/-- The times of both channels do not go back. -/
def InOrder (es : List (ℕ × PriceEvent)) : Prop :=
  (es.filterMap priceOf).Pairwise fun x y => x.1 = y.1 → x.2.1 ≤ y.2.1

instance (es : List (ℕ × PriceEvent)) : Decidable (InOrder es) :=
  inferInstanceAs (Decidable (List.Pairwise _ _))

/-- The latest price of each channel. -/
def latest (es : List (ℕ × PriceEvent)) : BasisDerived where
  lastMark := (channel 0 es).getLast?
  lastIndex := (channel 1 es).getLast?
  maxSkewMs := 2000

/-- The event brings no price newer than `t`. -/
def upTo (t : ℤ) (d : ℕ × PriceEvent) : Bool := (priceOf d).all fun x => decide (x.2.1 ≤ t)

variable {es : List (ℕ × PriceEvent)} {d : ℕ × PriceEvent} {p : BasisPoint} {t : ℤ}

theorem channel_concat (k : ℕ) : channel k (es ++ [d]) = channel k es ++ channel k [d] := by
  simp [channel]

theorem InOrder.of_concat (h : InOrder (es ++ [d])) : InOrder es :=
  h.sublist ((List.sublist_append_left es [d]).filterMap _)

theorem InOrder.channel (h : InOrder es) (k : ℕ) :
    (channel k es).Pairwise fun x y => x.1 ≤ y.1 := by
  refine List.pairwise_map.mpr ((h.filter _).imp_of_mem fun hx hy hle => hle ?_)
  rw [of_decide_eq_true (List.mem_filter.mp hx).2, of_decide_eq_true (List.mem_filter.mp hy).2]

/-- What an event does, by the price it brings. -/
theorem latest_concat : latest (es ++ [d]) = (latest es).remember d := by
  obtain ⟨k, ev⟩ := d
  unfold latest
  rw [channel_concat, channel_concat]
  match k, ev with
  | 0, .markPrice tsMs mark => simp [channel, priceOf, remember]
  | 1, .indexPrice tsMs price => simp [channel, priceOf, remember]
  | 0, .indexPrice _ _ | 0, .other | 1, .markPrice _ _ | 1, .other | _ + 2, _ =>
    simp [channel, priceOf, remember]

/-- An answer is the pair of the latest prices; another input changes nothing. -/
theorem step_latest (es : List (ℕ × PriceEvent)) (d : ℕ × PriceEvent) :
    machine.step (latest es) d = (latest (es ++ [d]), (latest (es ++ [d])).pair) ∨
      machine.step (latest es) d = (latest es, none) ∧ latest (es ++ [d]) = latest es := by
  rw [latest_concat]
  by_cases h : d.1 ≤ 1
  · exact Or.inl (if_pos h)
  · refine Or.inr ⟨if_neg h, ?_⟩
    unfold remember
    split
    · exact absurd zero_le_one h
    · exact absurd le_rfl h
    · rfl

theorem final_eq_latest : machine.final newForKey es = latest es := by
  induction es using List.reverseRecOn with
  | nil => rfl
  | append_singleton es d ih =>
    rw [Mealy.final_concat, ih]
    rcases step_latest es d with h | ⟨h, hsame⟩
    · rw [h]
    · rw [h, hsame]

theorem pair_eq_some_iff (s : BasisDerived) : s.pair = some p ↔
    ∃ mark index, s.lastMark = some mark ∧ s.lastIndex = some index ∧
      |mark.1 - index.1| ≤ s.maxSkewMs ∧
      p = ⟨max mark.1 index.1, mark.2 - index.2, mark.2, index.2⟩ := by
  simp only [pair, bind, Option.bind_eq_some_iff]
  constructor
  · rintro ⟨mark, hmark, index, hindex, h⟩
    split_ifs at h with hskew
    exact ⟨mark, index, hmark, hindex, not_lt.mp hskew, (Option.some.inj h).symm⟩
  · rintro ⟨mark, index, hmark, hindex, hskew, rfl⟩
    exact ⟨mark, hmark, index, hindex, if_neg (not_lt.mpr hskew)⟩

theorem mem_channel {k : ℕ} {x : ℤ × ℚ} :
    x ∈ channel k es ↔ ∃ d ∈ es, priceOf d = some (k, x) := by
  simp [channel]

/-- A pair is as new as anything delivered so far. -/
theorem forall_upTo_iff (h : InOrder es) (hp : (latest es).pair = some p) :
    (∀ d ∈ es, upTo t d = true) ↔ p.tsMs ≤ t := by
  obtain ⟨mark, index, hmark, hindex, -, rfl⟩ := (pair_eq_some_iff _).mp hp
  have hlast : ∀ k x y, (channel k es).getLast? = some y → x ∈ channel k es → x.1 ≤ y.1 := by
    intro k x y hy hx
    obtain ⟨ys, hys⟩ := List.getLast?_eq_some_iff.mp hy
    have hk := h.channel k
    rw [hys] at hk hx
    rcases List.mem_append.mp hx with hx | hx
    · exact (List.pairwise_append.mp hk).2.2 x hx y List.mem_cons_self
    · rw [List.mem_singleton.mp hx]
  constructor
  · intro hall
    have hbound : ∀ k x, x ∈ channel k es → x.1 ≤ t := by
      intro k x hx
      obtain ⟨d, hd, hprice⟩ := mem_channel.mp hx
      simpa [upTo, hprice] using hall d hd
    exact max_le (hbound 0 _ (List.mem_of_getLast? hmark))
      (hbound 1 _ (List.mem_of_getLast? hindex))
  · intro hle d hd
    have hx : ∀ k x, priceOf d = some (k, x) → x ∈ channel k es :=
      fun k x hprice => mem_channel.mpr ⟨d, hd, hprice⟩
    unfold upTo
    unfold priceOf at hx ⊢
    split
    · exact decide_eq_true ((hlast 0 _ _ hmark (hx 0 _ rfl)).trans (le_of_max_le_left hle))
    · exact decide_eq_true ((hlast 1 _ _ hindex (hx 1 _ rfl)).trans (le_of_max_le_right hle))
    · rfl

/-- A price that is no newer than the pair gives a pair of the same time. -/
theorem pair_concat_of_upTo (h : InOrder (es ++ [d])) (hp : (latest es).pair = some p)
    (hd : upTo p.tsMs d = true) :
    ∃ q, (latest (es ++ [d])).pair = some q ∧ q.tsMs = p.tsMs := by
  obtain ⟨mark, index, hmark, hindex, hskew, rfl⟩ := (pair_eq_some_iff _).mp hp
  have hnear : ∀ a b t : ℤ, a ≤ t → t ≤ max a b → |a - b| ≤ 2000 →
      |t - b| ≤ 2000 ∧ max t b = max a b := by
    intro a b t hle hmax hab
    rw [abs_le] at hab ⊢
    omega
  have hnext : ∀ k x y, priceOf d = some (k, x) → (channel k es).getLast? = some y →
      y.1 ≤ x.1 := by
    intro k x y hprice hy
    have hk := h.channel k
    rw [channel_concat] at hk
    exact (List.pairwise_append.mp hk).2.2 y (List.mem_of_getLast? hy) x
      (mem_channel.mpr ⟨d, List.mem_singleton_self d, hprice⟩)
  rw [latest_concat]
  unfold upTo at hd
  unfold priceOf at hd hnext
  unfold remember
  split
  · obtain ⟨hnew, hmax⟩ := hnear _ _ _ (hnext 0 _ _ rfl hmark) (of_decide_eq_true hd) hskew
    exact ⟨_, (pair_eq_some_iff _).mpr ⟨_, index, rfl, hindex, hnew, rfl⟩, hmax⟩
  · rw [max_comm] at hd
    rw [abs_sub_comm] at hskew
    obtain ⟨hnew, hmax⟩ := hnear _ _ _ (hnext 1 _ _ rfl hindex) (of_decide_eq_true hd) hskew
    rw [abs_sub_comm] at hnew
    rw [max_comm, max_comm index.1] at hmax
    exact ⟨_, (pair_eq_some_iff _).mpr ⟨mark, _, hmark, rfl, hnew, rfl⟩, hmax⟩
  · exact ⟨_, hp, rfl⟩

/-! ## Runs -/

theorem takeWhile_concat_of_not_all {f : ℕ × PriceEvent → Bool}
    (h : ¬ ∀ e ∈ es ++ [d], f e = true) : (es ++ [d]).takeWhile f = es.takeWhile f := by
  rw [List.takeWhile_append]
  split_ifs with hlength
  · have hself := (List.takeWhile_prefix f).eq_of_length hlength
    have hd : ¬ f d = true := fun hd => h fun e he => (List.mem_append.mp he).elim
      (List.takeWhile_eq_self_iff.mp hself e) fun he => List.mem_singleton.mp he ▸ hd
    rw [List.takeWhile_cons_of_neg hd, List.append_nil, hself]
  · rfl

/-- What is left of the pairs of one time: that of the prices delivered before any newer one. -/
theorem mem_lastWins_emitted_iff (h : InOrder es) (p : BasisPoint) :
    p ∈ lastWins BasisPoint.tsMs (machine.emitted newForKey es) ↔
      (latest (es.takeWhile (upTo p.tsMs))).pair = some p := by
  induction es using List.reverseRecOn with
  | nil => exact iff_of_false List.not_mem_nil (Option.some_ne_none p).symm
  | append_singleton es d ih =>
    have ih := ih h.of_concat
    rw [Mealy.emitted_concat, final_eq_latest]
    by_cases hall : ∀ e ∈ es ++ [d], upTo p.tsMs e = true
    · have hes : ∀ e ∈ es, upTo p.tsMs e = true := fun e he => hall e (List.mem_append_left _ he)
      rw [List.takeWhile_eq_self_iff.mpr hes] at ih
      rw [List.takeWhile_eq_self_iff.mpr hall]
      rcases step_latest es d with hstep | ⟨hstep, hsame⟩
      · rw [hstep]
        have hd := hall d (List.mem_append_right _ List.mem_cons_self)
        cases hq : (latest (es ++ [d])).pair with
        | none =>
          refine iff_of_false (fun hmem => ?_) (Option.some_ne_none p).symm
          obtain ⟨q, hsome, -⟩ := pair_concat_of_upTo h (ih.mp (by simpa using hmem)) hd
          exact Option.some_ne_none _ (hsome.symm.trans hq)
        | some q =>
          show p ∈ lastWins _ (_ ++ [q]) ↔ _
          rw [lastWins_concat, mem_upsertBy _ (nodup_keys_lastWins _ _), ih, Option.some_inj]
          refine ⟨fun hor => ?_, fun heq => Or.inl heq.symm⟩
          rcases hor with heq | ⟨hold, hne⟩
          · exact heq.symm
          · obtain ⟨q', hsome, htime⟩ := pair_concat_of_upTo h hold hd
            rw [Option.some.inj (hq.symm.trans hsome)] at hne
            exact absurd htime.symm hne
      · rw [hstep, hsame]
        simpa using ih
    · rw [takeWhile_concat_of_not_all hall, ← ih]
      rcases step_latest es d with hstep | ⟨hstep, -⟩
      · rw [hstep]
        cases hq : (latest (es ++ [d])).pair with
        | none => simp
        | some q =>
          -- The new pair is of a later time.
          have hne : p.tsMs ≠ q.tsMs := fun heq =>
            hall ((forall_upTo_iff h hq).mpr (le_of_eq heq.symm))
          show p ∈ lastWins _ (_ ++ [q]) ↔ _
          rw [lastWins_concat, mem_upsertBy _ (nodup_keys_lastWins _ _)]
          exact ⟨fun hor => hor.elim (fun heq => absurd (heq ▸ rfl) hne) And.left,
            fun hmem => Or.inr ⟨hmem, hne⟩⟩
      · rw [hstep]
        simp

/-- The times of the pairs do not go back, and none is newer than what has been delivered. -/
theorem emitted_pairwise (h : InOrder es) :
    ((machine.emitted newForKey es).Pairwise fun p q => p.tsMs ≤ q.tsMs) ∧
    ∀ p ∈ machine.emitted newForKey es, ∀ t, (∀ e ∈ es, upTo t e = true) → p.tsMs ≤ t := by
  induction es using List.reverseRecOn with
  | nil => exact ⟨List.Pairwise.nil, fun p hp => absurd hp List.not_mem_nil⟩
  | append_singleton es d ih =>
    obtain ⟨hpairs, hle⟩ := ih h.of_concat
    have hold : ∀ p ∈ machine.emitted newForKey es, ∀ t,
        (∀ e ∈ es ++ [d], upTo t e = true) → p.tsMs ≤ t :=
      fun p hp t hall => hle p hp t fun e he => hall e (List.mem_append_left _ he)
    rw [Mealy.emitted_concat, final_eq_latest]
    rcases step_latest es d with hstep | ⟨hstep, -⟩
    · rw [hstep]
      have hnew : ∀ q ∈ (latest (es ++ [d])).pair.toList, ∀ t,
          (∀ e ∈ es ++ [d], upTo t e = true) ↔ q.tsMs ≤ t :=
        fun q hq t => forall_upTo_iff h (Option.mem_toList.mp hq)
      refine ⟨List.pairwise_append.mpr ⟨hpairs, ?_, fun p hp q hq =>
        hold p hp _ ((hnew q hq _).mpr le_rfl)⟩, fun p hp t hall => ?_⟩
      · cases (latest (es ++ [d])).pair <;> simp
      · exact (List.mem_append.mp hp).elim (hold p · t hall) fun hp => (hnew p hp t).mp hall
    · rw [hstep, Option.toList_none, List.append_nil]
      exact ⟨hpairs, hold⟩

/-- Where nothing with the property comes behind something without it, a prefix has it all. -/
theorem takeWhile_eq_filter {f : ℕ × PriceEvent → Bool}
    (h : es.Pairwise fun d e => f e = true → f d = true) : es.takeWhile f = es.filter f := by
  induction es with
  | nil => rfl
  | cons d es ih =>
    obtain ⟨hd, hes⟩ := List.pairwise_cons.mp h
    by_cases hfd : f d = true
    · rw [List.takeWhile_cons_of_pos hfd, List.filter_cons_of_pos hfd, ih hes]
    · rw [List.takeWhile_cons_of_neg hfd, List.filter_cons_of_neg hfd]
      exact (List.filter_eq_nil_iff.mpr fun e he hfe => hfd (hd e he hfe)).symm

end BasisDerived

end Digdigdig3.Derived
