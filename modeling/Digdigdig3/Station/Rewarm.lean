import Digdigdig3.Derived.Basic
import Digdigdig3.Lib.Mealy
import Digdigdig3.Series.Series

/-!
# A deeper history in front of a CVD ring

`rewarm_cvd` with `rewarm_fold`, `rewarm_dedup` and `rewarm_splice`
(`crates/digdigdig3-station/src/station.rs` lines 914–1173), and `TradeToCvdLineDerived`
(`derived.rs` lines 1452–1485). A window of trades is folded from zero, moved by a constant and put
in front of the ring, without the samples that are not older than the ring. The ring is read before
the window is fetched, and again for the splice.

* `ring_rewarmSplice`: the ring keeps its samples.
* `fst_rewarmCvd`: what is put in front of it.
* `seamExact_iff`: when the last new sample meets the first old one.
-/

namespace Digdigdig3.Rewarm

open Derived (TradePoint)

/-! ## `TradeToCvdLineDerived` -/

/-- `ScalarBarPoint` (`data/scalar_bar.rs` lines 13–17), its value exact. -/
structure ScalarBarPoint where
  tsMs : ℤ
  value : ℚ
  deriving DecidableEq

/-- `TradeToCvdLineDerived` (lines 1459–1463), for `Kind::CvdLine`, where it is enabled. -/
structure TradeToCvdLineDerived where
  cvd : ℚ
  lastEmittedTs : ℤ

/-- `new_for_key` (lines 1470–1473). -/
def TradeToCvdLineDerived.new : TradeToCvdLineDerived := { cvd := 0, lastEmittedTs := 0 }

/-- What a trade adds (line 1479). -/
def signed (point : TradePoint) : ℚ := if point.side = 0 then point.quantity else -point.quantity

/-- `on_upstream_event` (lines 1475–1484). -/
def onUpstreamEvent (s : TradeToCvdLineDerived) (point : TradePoint) :
    TradeToCvdLineDerived × Option ScalarBarPoint :=
  let cvd := s.cvd + signed point
  let tsMs := max point.tsMs (s.lastEmittedTs + 1)
  ({ cvd, lastEmittedTs := tsMs }, some { tsMs, value := cvd })

/-- The fold of trades into samples. -/
def machine : Mealy TradeToCvdLineDerived TradePoint ScalarBarPoint := ⟨onUpstreamEvent⟩

/-! ## `rewarm_cvd` -/

section Splice

variable {T Id : Type} [DecidableEq Id]

/-- `rewarm_dedup` (lines 984–997): of equal neighbours the last. -/
def rewarmDedup (ident : T → Id) (emissions : List T) : List T :=
  emissions.foldl (fun out p =>
    match out.getLast? with
    | some last => if ident last = ident p then out.dropLast ++ [p] else out ++ [p]
    | none => out ++ [p]) []

/-- `rewarm_splice` (lines 936–977): what was put in front, and the ring. -/
def rewarmSplice (timestampMs : T → ℤ) (ident : T → Id) (handle : Option (Series T))
    (rebuilt : List T) : List T × Option (Series T) :=
  match handle with
  | none => ([], none)
  | some guard =>
    if rebuilt = [] then ([], some guard)
    else
      let existing := guard.ring
      let headTs := existing.head?.map timestampMs
      let older := rebuilt.filter fun p => headTs.all fun h => timestampMs p ≤ h
      if older = [] then ([], some guard)
      else
        let headIdent := existing.head?.map ident
        let older :=
          if headIdent.any fun h => older.getLast?.any fun p => ident p = h then older.dropLast
          else older
        if older = [] then ([], some guard)
        else
          let fresh := Series.new (max (older.length + existing.length) guard.capacity)
          (older, some (existing.foldl Series.push (older.foldl Series.push fresh)))

end Splice

/-- `rewarm_cvd` (lines 1137–1173) with the ring where it is read and where it is spliced, and the
    trades of the window. -/
def rewarmCvd (seen handle : Option (Series ScalarBarPoint)) (events : List TradePoint) :
    List ScalarBarPoint × Option (Series ScalarBarPoint) :=
  match seen.bind fun guard => guard.ring.head? with
  | none => ([], handle)
  | some first =>
    if events = [] then ([], handle)
    else
      let emissions := machine.emitted .new events
      let rebuilt := rewarmDedup ScalarBarPoint.tsMs emissions
      if rebuilt = [] then ([], handle)
      else
        let offset := first.value - (rebuilt.getLast?.map ScalarBarPoint.value).getD 0
        rewarmSplice ScalarBarPoint.tsMs ScalarBarPoint.tsMs handle
          (rebuilt.map fun p => { p with value := p.value + offset })

/-! ## Specification -/

/-- The trades of a window whose samples are older than `head`, after a sample at `last`: a sample
    has the time of its trade, or comes a millisecond after the one before it. -/
def before (head : ℤ) : ℤ → List TradePoint → List TradePoint
  | _, [] => []
  | last, t :: ts =>
    if max t.tsMs (last + 1) < head then t :: before head (max t.tsMs (last + 1)) ts else []

/-- The other trades of the window. -/
def notBefore (head last : ℤ) (trades : List TradePoint) : List TradePoint :=
  trades.drop (before head last trades).length

/-- The new samples meet the ring: the last of them has the value of the first one there, and each
    differs from the one before it by its trade. -/
structure SeamExact (handle : Option (Series ScalarBarPoint)) (events : List TradePoint)
    (prepended : List ScalarBarPoint) : Prop where
  last_eq : ∀ last guard first, prepended.getLast? = some last → handle = some guard →
    guard.ring.head? = some first → last.value = first.value
  differences : ∀ i p q, prepended[i]? = some p → prepended[i + 1]? = some q →
    ∃ t, events[i + 1]? = some t ∧ q.value - p.value = signed t

/-! ## Samples -/

/-- The samples of trades, after a sum of `cvd` and a sample at `last`. -/
def samples : ℚ → ℤ → List TradePoint → List ScalarBarPoint
  | _, _, [] => []
  | cvd, last, t :: ts =>
    { tsMs := max t.tsMs (last + 1), value := cvd + signed t } ::
      samples (cvd + signed t) (max t.tsMs (last + 1)) ts

theorem emitted_machine (s : TradeToCvdLineDerived) (events : List TradePoint) :
    machine.emitted s events = samples s.cvd s.lastEmittedTs events := by
  induction events generalizing s with
  | nil => rfl
  | cons t ts ih =>
    rw [Mealy.emitted_cons, ih]
    rfl

theorem samples_ne_nil {cvd : ℚ} {last : ℤ} {trades : List TradePoint} (h : trades ≠ []) :
    samples cvd last trades ≠ [] := by
  cases trades with
  | nil => exact absurd rfl h
  | cons t ts => exact List.cons_ne_nil _ _

theorem lt_of_mem_samples {cvd : ℚ} {last : ℤ} {trades : List TradePoint} {p : ScalarBarPoint}
    (h : p ∈ samples cvd last trades) : last < p.tsMs := by
  induction trades generalizing cvd last with
  | nil => exact absurd h List.not_mem_nil
  | cons t ts ih =>
    have hstep := le_max_right t.tsMs (last + 1)
    rcases List.mem_cons.mp h with rfl | h
    · exact hstep
    · have := ih h
      omega

theorem ascending_samples (cvd : ℚ) (last : ℤ) (trades : List TradePoint) :
    Ascending ScalarBarPoint.tsMs (samples cvd last trades) := by
  induction trades generalizing cvd last with
  | nil => exact List.Pairwise.nil
  | cons t ts ih => exact List.pairwise_cons.mpr ⟨fun p hp => lt_of_mem_samples hp, ih _ _⟩

/-- The last sample has the whole sum. -/
theorem value_last {cvd : ℚ} {last : ℤ} {trades : List TradePoint} {p : ScalarBarPoint}
    (h : (samples cvd last trades).getLast? = some p) :
    p.value = cvd + (trades.map signed).sum := by
  induction trades generalizing cvd last with
  | nil => cases h
  | cons t ts ih =>
    rw [List.map_cons, List.sum_cons, ← add_assoc]
    cases ts with
    | nil =>
      rw [samples, samples, List.getLast?_singleton] at h
      cases h
      simp
    | cons u us =>
      rw [samples, samples, List.getLast?_cons_cons] at h
      exact ih h

/-- A sample differs from the one before it by its trade. -/
theorem samples_sub {cvd : ℚ} {last : ℤ} {trades : List TradePoint} {i : ℕ} {p q : ScalarBarPoint}
    (hp : (samples cvd last trades)[i]? = some p)
    (hq : (samples cvd last trades)[i + 1]? = some q) :
    ∃ t, trades[i + 1]? = some t ∧ q.value - p.value = signed t := by
  induction trades generalizing cvd last i with
  | nil => cases hp
  | cons t ts ih =>
    rw [samples, List.getElem?_cons_succ] at hq
    cases i with
    | zero =>
      cases hp
      cases ts with
      | nil => cases hq
      | cons u us =>
        cases hq
        exact ⟨u, rfl, add_sub_cancel_left _ _⟩
    | succ i =>
      rw [samples, List.getElem?_cons_succ] at hp
      exact ih hp hq

/-! ## The splice -/

theorem prefix_before (head last : ℤ) (trades : List TradePoint) :
    before head last trades <+: trades := by
  induction trades generalizing last with
  | nil => exact List.prefix_refl _
  | cons t ts ih =>
    unfold before
    split_ifs
    · exact (List.prefix_cons_inj t).mpr (ih _)
    · exact List.nil_prefix

/-- The samples of the trades before the head are older than it, and the others are not. -/
theorem samples_before (head : ℤ) (cvd : ℚ) (last : ℤ) (trades : List TradePoint) :
    ∃ rest, samples cvd last trades = samples cvd last (before head last trades) ++ rest ∧
      (∀ p ∈ samples cvd last (before head last trades), p.tsMs < head) ∧
        ∀ p ∈ rest, head ≤ p.tsMs := by
  induction trades generalizing cvd last with
  | nil => exact ⟨[], rfl, fun p hp => absurd hp List.not_mem_nil, by simp⟩
  | cons t ts ih =>
    unfold before
    split_ifs with hbefore
    · obtain ⟨rest, hsplit, hlt, hle⟩ := ih (cvd + signed t) (max t.tsMs (last + 1))
      refine ⟨rest, ?_, ?_, hle⟩
      · rw [samples, hsplit]
        rfl
      · rw [samples]
        exact List.forall_mem_cons.mpr ⟨hbefore, hlt⟩
    · refine ⟨samples cvd last (t :: ts), rfl, fun p hp => absurd hp List.not_mem_nil, ?_⟩
      rw [samples]
      refine List.forall_mem_cons.mpr ⟨not_lt.mp hbefore, fun p hp => ?_⟩
      exact (not_lt.mp hbefore).trans (lt_of_mem_samples hp).le

/-- No two neighbours are equal in an ascending list. -/
theorem rewarmDedup_of_ascending {T : Type} {key : T → ℤ} {xs : List T} (h : Ascending key xs) :
    rewarmDedup key xs = xs := by
  suffices hfold : ∀ out ps : List T, Ascending key (out ++ ps) →
      ps.foldl (fun out p =>
        match out.getLast? with
        | some last => if key last = key p then out.dropLast ++ [p] else out ++ [p]
        | none => out ++ [p]) out = out ++ ps from hfold [] xs h
  intro out ps hasc
  induction ps generalizing out with
  | nil => exact (List.append_nil out).symm
  | cons p ps ih =>
    have hstep : (match out.getLast? with
        | some last => if key last = key p then out.dropLast ++ [p] else out ++ [p]
        | none => out ++ [p]) = out ++ [p] := by
      rcases hlast : out.getLast? with _ | last
      · rfl
      · refine if_neg (ne_of_lt ?_)
        have hmem := List.mem_of_getLast? hlast
        exact (List.pairwise_append.mp hasc).2.2 last hmem p List.mem_cons_self
    rw [List.foldl_cons, hstep, ih, List.append_assoc]
    · rfl
    · rwa [List.append_assoc]

/-- Of an ascending list, what is not newer than the head, and is not at its time if it comes
    last, is what is older. -/
theorem older_eq {T : Type} {key : T → ℤ} {xs ys : List T} {head : ℤ}
    (h : Ascending key (xs ++ ys)) (hxs : ∀ x ∈ xs, key x < head) (hys : ∀ y ∈ ys, head ≤ key y) :
    (if ((xs ++ ys).filter fun p => key p ≤ head).getLast?.any fun p => key p = head then
        ((xs ++ ys).filter fun p => key p ≤ head).dropLast
      else (xs ++ ys).filter fun p => key p ≤ head) = xs := by
  have hall : xs.filter (fun p => decide (key p ≤ head)) = xs :=
    List.filter_eq_self.mpr fun x hx => decide_eq_true (hxs x hx).le
  have hlast : (xs.getLast?.any fun p => decide (key p = head)) = false := by
    rw [Option.any_eq_false]
    intro x hx
    exact decide_eq_false (hxs x (List.mem_of_getLast? hx)).ne
  have hnone : ∀ zs : List T, (∀ z ∈ zs, head < key z) →
      zs.filter (fun p => decide (key p ≤ head)) = [] := by
    intro zs hzs
    exact List.filter_eq_nil_iff.mpr fun z hz => by simpa using hzs z hz
  cases ys with
  | nil => rw [List.append_nil, hall, hlast, if_neg Bool.false_ne_true]
  | cons y ys =>
    have hafter : ∀ z ∈ ys, head < key z := by
      intro z hz
      have hyz := (List.pairwise_cons.mp (List.pairwise_append.mp h).2.1).1 z hz
      exact lt_of_le_of_lt (hys y List.mem_cons_self) hyz
    rw [List.filter_append, hall]
    by_cases hy : key y = head
    · rw [List.filter_cons_of_pos (by simpa using hy.le), hnone ys hafter, List.getLast?_concat,
        List.dropLast_concat]
      exact if_pos (by simpa using hy)
    · have hlt : head < key y := lt_of_le_of_ne (hys y List.mem_cons_self) (Ne.symm hy)
      rw [List.filter_cons_of_neg (by simpa using hlt), hnone ys hafter, List.append_nil, hlast,
        if_neg Bool.false_ne_true]

/-- In front of a ring come the points that are older than its head. -/
theorem fst_rewarmSplice {T : Type} {key : T → ℤ} {guard : Series T} {first : T} {xs ys : List T}
    (hfirst : guard.ring.head? = some first) (h : Ascending key (xs ++ ys))
    (hxs : ∀ x ∈ xs, key x < key first) (hys : ∀ y ∈ ys, key first ≤ key y) :
    (rewarmSplice key key (some guard) (xs ++ ys)).1 = xs := by
  have holder := older_eq h hxs hys
  unfold rewarmSplice
  simp only [hfirst, Option.map_some, Option.all_some, Option.any_some]
  split_ifs with hnil hfilter hlast hdrop hdrop
  · exact (List.append_eq_nil_iff.mp hnil).1.symm
  · rw [hfilter] at holder
    simpa using holder
  · rw [if_pos hlast, hdrop] at holder
    exact holder
  · rwa [if_pos hlast] at holder
  · rwa [if_neg hlast] at holder

/-- An empty ring takes all points. -/
theorem fst_rewarmSplice_of_empty {T Id : Type} [DecidableEq Id] {key : T → ℤ} {ident : T → Id}
    {guard : Series T} {points : List T} (hempty : guard.ring.head? = none) :
    (rewarmSplice key ident (some guard) points).1 = points := by
  by_cases hnil : points = []
  · subst hnil
    rfl
  · unfold rewarmSplice
    simp only [hempty, Option.map_none, Option.all_none, Option.any_none, List.filter_true,
      if_neg hnil, Bool.false_eq_true, if_false]

theorem capacity_pushAll {T : Type} (guard : Series T) (points : List T) :
    (points.foldl Series.push guard).capacity = guard.capacity := by
  induction points generalizing guard with
  | nil => rfl
  | cons point points ih => exact ih (guard.push point)

/-- The points that a ring had stay as they are, behind the new ones. -/
theorem ring_rewarmSplice {T Id : Type} [DecidableEq Id] {key : T → ℤ} {ident : T → Id}
    {handle : Option (Series T)} {points : List T}
    (h : (rewarmSplice key ident handle points).1 ≠ []) :
    ∃ guard, handle = some guard ∧ (rewarmSplice key ident handle points).2.map Series.ring =
      some ((rewarmSplice key ident handle points).1 ++ guard.ring) := by
  have hpushed : ∀ (guard : Series T) (older : List T),
      (guard.ring.foldl Series.push (older.foldl Series.push
        (Series.new (max (older.length + guard.ring.length) guard.capacity)))).ring =
          older ++ guard.ring := by
    intro guard older
    have hfirst : (older.foldl Series.push (Series.new (max (older.length + guard.ring.length)
        guard.capacity))).ring = older := by
      rw [Series.ring_pushAll]
      show (([] : List T) ++ older).drop
        ((([] : List T) ++ older).length - max (max (older.length + guard.ring.length) _) 1) = older
      rw [List.nil_append, Nat.sub_eq_zero_of_le (by omega), List.drop_zero]
    rw [Series.ring_pushAll, hfirst, capacity_pushAll]
    show (older ++ guard.ring).drop
      ((older ++ guard.ring).length - max (max (older.length + guard.ring.length) _) 1) = _
    rw [List.length_append, Nat.sub_eq_zero_of_le (by omega), List.drop_zero]
  unfold rewarmSplice at h ⊢
  rcases handle with _ | guard
  · exact absurd rfl h
  · refine ⟨guard, rfl, ?_⟩
    simp only at h ⊢
    split_ifs at h ⊢ <;> first | exact absurd rfl h | exact congrArg some (hpushed guard _)

/-- What is put in front of a ring: the samples of the older trades, moved by a constant. -/
theorem fst_rewarmCvd {seen handle : Option (Series ScalarBarPoint)} {events : List TradePoint}
    {seenFirst : ScalarBarPoint}
    (hseen : seen.bind (fun guard => guard.ring.head?) = some seenFirst) (hevents : events ≠ []) :
    (rewarmCvd seen handle events).1 =
      (rewarmSplice ScalarBarPoint.tsMs ScalarBarPoint.tsMs handle
        ((samples 0 0 events).map fun p =>
          { p with value := p.value + (seenFirst.value - (events.map signed).sum) })).1 := by
  have hdedup : rewarmDedup ScalarBarPoint.tsMs (machine.emitted .new events) =
      samples 0 0 events := by
    rw [emitted_machine]
    exact rewarmDedup_of_ascending (ascending_samples 0 0 events)
  have hlast : ((samples 0 0 events).getLast?.map ScalarBarPoint.value).getD 0 =
      (events.map signed).sum := by
    obtain ⟨p, hp⟩ : ∃ p, (samples 0 0 events).getLast? = some p :=
      Option.ne_none_iff_exists'.mp fun hnone =>
        samples_ne_nil hevents (List.getLast?_eq_none_iff.mp hnone)
    rw [hp, Option.map_some, Option.getD_some, value_last hp, zero_add]
  unfold rewarmCvd
  rw [hseen]
  simp only
  rw [if_neg hevents, hdedup, if_neg (samples_ne_nil hevents), hlast]

/-- In front of a ring with a head come the samples of the trades before it. -/
theorem fst_rewarmCvd_of_head {seen : Option (Series ScalarBarPoint)}
    {guard : Series ScalarBarPoint} {events : List TradePoint} {seenFirst first : ScalarBarPoint}
    (hseen : seen.bind (fun guard => guard.ring.head?) = some seenFirst)
    (hfirst : guard.ring.head? = some first) (hevents : events ≠ []) :
    (rewarmCvd seen (some guard) events).1 =
      (samples 0 0 (before first.tsMs 0 events)).map fun p =>
        { p with value := p.value + (seenFirst.value - (events.map signed).sum) } := by
  obtain ⟨rest, hsplit, hlt, hle⟩ := samples_before first.tsMs 0 0 events
  have hasc := ascending_samples 0 0 events
  rw [fst_rewarmCvd hseen hevents, hsplit, List.map_append]
  rw [hsplit] at hasc
  refine fst_rewarmSplice hfirst ?_ ?_ ?_
  · rw [← List.map_append]
    exact List.pairwise_map.mpr hasc
  · intro q hq
    obtain ⟨p, hp, rfl⟩ := List.mem_map.mp hq
    exact hlt p hp
  · intro q hq
    obtain ⟨p, hp, rfl⟩ := List.mem_map.mp hq
    exact hle p hp

/-- Samples that are moved by a constant differ from each other as before. -/
theorem moved_sub {cvd offset : ℚ} {last : ℤ} {trades events : List TradePoint}
    (hpre : trades <+: events) {i : ℕ} {p q : ScalarBarPoint}
    (hp : ((samples cvd last trades).map fun p =>
      { p with value := p.value + offset })[i]? = some p)
    (hq : ((samples cvd last trades).map fun p =>
      { p with value := p.value + offset })[i + 1]? = some q) :
    ∃ t, events[i + 1]? = some t ∧ q.value - p.value = signed t := by
  rw [List.getElem?_map] at hp hq
  obtain ⟨p', hp', rfl⟩ := Option.map_eq_some_iff.mp hp
  obtain ⟨q', hq', rfl⟩ := Option.map_eq_some_iff.mp hq
  obtain ⟨t, ht, hsub⟩ := samples_sub hp' hq'
  refine ⟨t, ?_, ?_⟩
  · obtain ⟨rest, rfl⟩ := hpre
    obtain ⟨hlt, -⟩ := List.getElem?_eq_some_iff.mp ht
    rw [List.getElem?_append_left hlt, ht]
  · rw [add_sub_add_right_eq_sub, hsub]

theorem seamExact_nil (handle : Option (Series ScalarBarPoint)) (events : List TradePoint) :
    SeamExact handle events [] where
  last_eq := by
    intro last guard first hlast
    cases hlast
  differences := by
    intro i p q hp
    cases hp

/-- The samples in front of the head of the ring, when there are any, end in its first value just
    when the other trades add up to nothing. -/
theorem seamExact_of_head {seen : Option (Series ScalarBarPoint)} {guard : Series ScalarBarPoint}
    {seenFirst first : ScalarBarPoint} {events : List TradePoint}
    (hseen : seen.bind (fun guard => guard.ring.head?) = some seenFirst)
    (hfirst : guard.ring.head? = some first) (hevents : events ≠ []) :
    SeamExact (some guard) events (rewarmCvd seen (some guard) events).1 ↔
      (before first.tsMs 0 events ≠ [] →
        ((notBefore first.tsMs 0 events).map signed).sum = seenFirst.value - first.value) := by
  have hpre := prefix_before first.tsMs 0 events
  have hsum : ((before first.tsMs 0 events).map signed).sum +
      ((notBefore first.tsMs 0 events).map signed).sum = (events.map signed).sum := by
    rw [← List.sum_append, ← List.map_append, notBefore, ← List.prefix_append_drop hpre]
  rw [fst_rewarmCvd_of_head hseen hfirst hevents]
  constructor
  · intro h hne
    obtain ⟨p, hp⟩ : ∃ p, (samples 0 0 (before first.tsMs 0 events)).getLast? = some p :=
      Option.ne_none_iff_exists'.mp fun hnone =>
        samples_ne_nil hne (List.getLast?_eq_none_iff.mp hnone)
    have hlast := h.last_eq _ guard first (by rw [List.getLast?_map, hp]; rfl) rfl hfirst
    replace hlast : p.value + (seenFirst.value - (events.map signed).sum) = first.value := hlast
    rw [value_last hp] at hlast
    linarith
  · intro h
    refine ⟨fun last guard' first' hlast hguard hhead => ?_, fun i p q => moved_sub hpre⟩
    cases hguard
    rw [hfirst] at hhead
    cases hhead
    rw [List.getLast?_map] at hlast
    obtain ⟨p, hp, rfl⟩ := Option.map_eq_some_iff.mp hlast
    have hne : before first.tsMs 0 events ≠ [] := by
      intro hnil
      rw [hnil] at hp
      cases hp
    have hzero := h hne
    show p.value + (seenFirst.value - (events.map signed).sum) = first.value
    rw [value_last hp]
    linarith

/-- **Main theorem.** The seam is exact just when the trades of the window that are not before the
    ring add up to nothing (or to what its first value has changed by since it was read). -/
theorem seamExact_iff (seen handle : Option (Series ScalarBarPoint)) (events : List TradePoint) :
    SeamExact handle events (rewarmCvd seen handle events).1 ↔
      ∀ seenFirst guard first, seen.bind (fun guard => guard.ring.head?) = some seenFirst →
        handle = some guard → guard.ring.head? = some first →
          before first.tsMs 0 events ≠ [] →
            ((notBefore first.tsMs 0 events).map signed).sum = seenFirst.value - first.value := by
  have hnothing : (rewarmCvd seen handle events).1 = [] →
      SeamExact handle events (rewarmCvd seen handle events).1 := by
    intro hnil
    rw [hnil]
    exact seamExact_nil handle events
  rcases hseen : seen.bind (fun guard => guard.ring.head?) with _ | seenFirst
  · refine iff_of_true (hnothing ?_) fun seenFirst guard first h => by cases h
    unfold rewarmCvd
    rw [hseen]
  · by_cases hevents : events = []
    · subst hevents
      refine iff_of_true (hnothing ?_) fun _ _ first _ _ _ hne => absurd rfl hne
      unfold rewarmCvd
      rw [hseen]
      rfl
    · rcases handle with _ | guard
      · refine iff_of_true (hnothing ?_) fun _ guard first _ h => by cases h
        rw [fst_rewarmCvd hseen hevents]
        rfl
      · rcases hfirst : guard.ring.head? with _ | first
        · refine iff_of_true ⟨fun last guard' first _ hguard hhead => ?_, ?_⟩ ?_
          · cases hguard
            rw [hfirst] at hhead
            cases hhead
          · rw [fst_rewarmCvd hseen hevents, fst_rewarmSplice_of_empty hfirst]
            exact fun i p q => moved_sub (List.prefix_refl events)
          · intro _ guard' first _ hguard hhead
            cases hguard
            rw [hfirst] at hhead
            cases hhead
        · rw [seamExact_of_head hseen hfirst hevents]
          constructor
          · intro h seenFirst' guard' first' hseen' hguard hhead
            cases hseen'
            cases hguard
            rw [hfirst] at hhead
            cases hhead
            exact h
          · exact fun h => h seenFirst guard first rfl rfl hfirst

/-! ## A window that reaches past the head -/

/-- A ring with one sample. -/
def oneSample (tsMs : ℤ) (value : ℚ) : Series ScalarBarPoint :=
  (Series.new 10).push { tsMs, value }

/-- The window reaches a trade past the head, and the seam is off by more than the trade at it. -/
theorem overlap_breaks_seam :
    ¬∀ (handle : Option (Series ScalarBarPoint)) (events : List TradePoint),
      SeamExact handle events (rewarmCvd handle handle events).1 := by
  intro h
  have hseam := h (some (oneSample 20 7))
    [Derived.buyAt 10 1 1, Derived.buyAt 20 1 2, Derived.buyAt 30 1 3]
  have hlast := hseam.last_eq { tsMs := 10, value := 2 } (oneSample 20 7) { tsMs := 20, value := 7 }
    (by decide +kernel) rfl rfl
  revert hlast
  decide +kernel

end Digdigdig3.Rewarm
