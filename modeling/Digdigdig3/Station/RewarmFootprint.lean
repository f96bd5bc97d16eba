import Digdigdig3.Derived.Footprint
import Digdigdig3.Station.RewarmSplice

/-!
# A deeper history in front of a footprint ring

`rewarm_footprint` (`crates/digdigdig3-station/src/station.rs` lines 590–701). A window of trades is
folded in chunks by a new `TradeToFootprintDerived`, of the emissions for a bucket the last one
stays, and those that are not later than the head of the ring are put in front of it; the head goes
when the last of them has its time. The live forwarder pushes a point for every trade, so a ring may
hold a bucket many times, and what it shows of a bucket is the last point it has of it.

* `foldChunks_eq`: the fold in chunks is the fold of the whole window.
* `mem_rewarmDedup_iff`: what stays of emissions whose times do not go back.
* `rewarmFootprint_rebuilds`: what the ring shows of every bucket, and that doing it again changes
  nothing.
-/

namespace Digdigdig3.Rewarm

open Derived

/-! ## `rewarm_footprint` -/

/-- `xs.chunks(n)`. -/
def chunks {α : Type} (n : ℕ) (xs : List α) : List (List α) :=
  (List.range ((xs.length + n - 1) / n)).map fun i => (xs.drop (i * n)).take n

/-- The loop over the chunks (lines 652–661). -/
def foldChunks (state : KeyedFootprint) (chunks : List (List Event)) :
    KeyedFootprint × List FootprintPoint :=
  chunks.foldl (fun acc chunk =>
    (KeyedFootprint.machine.final acc.1 chunk,
      acc.2 ++ KeyedFootprint.machine.emitted acc.1 chunk)) (state, [])

/-- `rewarm_footprint` (lines 590–701) for `Kind::Footprint(interval)`, with the ring as it is found
    under the lock and the trades that the pager returned. -/
def rewarmFootprint (interval : KlineInterval) (exchange : ExchangeId) (rawSymbol : String)
    (handle : Option (Series FootprintPoint)) (warmN : ℕ) (window : List TradePoint) :
    List FootprintPoint × Option (Series FootprintPoint) :=
  match handle with
  | none => ([], none)
  | some guard =>
    if warmN = 0 then ([], some guard)
    else
      let seedEvents := window.map (.trade exchange rawSymbol)
      if seedEvents = [] then ([], some guard)
      else
        let emissions := (foldChunks (.newForKey interval) (chunks 5000 seedEvents)).2
        let rebuilt := rewarmDedup FootprintPoint.openTime emissions
        if rebuilt = [] then ([], some guard)
        else
          let existing := guard.ring
          let headTs := existing.head?.map FootprintPoint.openTime
          let older := rebuilt.filter fun p => headTs.all fun h => p.openTime ≤ h
          if older = [] then ([], some guard)
          else
            let boundaryReplaced := headTs.any fun h => older.getLast?.any fun p => p.openTime = h
            let keepFrom := if boundaryReplaced then 1 else 0
            let mergedLen := older.length + (existing.length - keepFrom)
            let fresh := Series.new (max mergedLen guard.capacity)
            (older,
              some ((existing.drop keepFrom).foldl Series.push (older.foldl Series.push fresh)))

/-! ## Specification -/

/-- What `points` and the ring behind them have to do with the trades of `window` and the ring that
    was there: a bucket is rebuilt from its trades when it is not later than the head of the ring
    and the rest of the ring has no point of it; every other one shows what it showed before. -/
structure Rebuilds (intervalMs : ℤ) (window : List TradePoint) (guard : Series FootprintPoint)
    (points : List FootprintPoint) (after : Series FootprintPoint) : Prop where
  ring_eq : ∃ n ≤ 1, after.ring = points ++ guard.ring.drop n
  ascending : points.Pairwise (·.openTime < ·.openTime)
  footprint : ∀ p ∈ points, ∃ k, p.openTime = k * intervalMs ∧
    FootprintOf (tradesIn intervalMs (k * intervalMs) window) p
  returned : ∀ k, (∃ p ∈ points, p.openTime = k * intervalMs) ↔
    tradesIn intervalMs (k * intervalMs) window ≠ [] ∧
      ∀ first ∈ guard.ring.head?, k * intervalMs ≤ first.openTime
  shows : ∀ k, ((∃ p ∈ points, p.openTime = k * intervalMs) ∧
        ∀ p ∈ guard.ring.drop 1, p.openTime ≠ k * intervalMs) →
      ∃ p ∈ points, lastAt FootprintPoint.openTime after.ring (k * intervalMs) = some p
  keeps : ∀ k, ¬ ((∃ p ∈ points, p.openTime = k * intervalMs) ∧
        ∀ p ∈ guard.ring.drop 1, p.openTime ≠ k * intervalMs) →
      lastAt FootprintPoint.openTime after.ring (k * intervalMs) =
        lastAt FootprintPoint.openTime guard.ring (k * intervalMs)
  sorted : guard.ring.Pairwise (·.openTime ≤ ·.openTime) →
    after.ring.Pairwise (·.openTime ≤ ·.openTime)
  capacity : guard.capacity ≤ after.capacity

/-! ## The fold -/

theorem flatten_chunks {α : Type} {n : ℕ} (hn : 0 < n) (xs : List α) :
    (chunks n xs).flatten = xs := by
  have hfirst : ∀ m, ((List.range m).map fun i => (xs.drop (i * n)).take n).flatten =
      xs.take (m * n) := by
    intro m
    induction m with
    | zero => simp
    | succ m ih =>
      rw [List.range_succ, List.map_append, List.flatten_append, ih, List.map_singleton,
        List.flatten_singleton, Nat.succ_mul, List.take_add]
  rw [chunks, hfirst]
  refine List.take_of_length_le ?_
  have := Nat.div_add_mod (xs.length + n - 1) n
  have := Nat.mod_lt (xs.length + n - 1) hn
  rw [mul_comm]
  omega

/-- The fold in chunks is the fold of the whole window. -/
theorem foldChunks_eq (state : KeyedFootprint) (cs : List (List Event)) :
    foldChunks state cs = (KeyedFootprint.machine.final state cs.flatten,
      KeyedFootprint.machine.emitted state cs.flatten) := by
  have hacc : ∀ (cs : List (List Event)) (s : KeyedFootprint) (out : List FootprintPoint),
      cs.foldl (fun acc chunk => (KeyedFootprint.machine.final acc.1 chunk,
        acc.2 ++ KeyedFootprint.machine.emitted acc.1 chunk)) (s, out) =
      (KeyedFootprint.machine.final s cs.flatten,
        out ++ KeyedFootprint.machine.emitted s cs.flatten) := by
    intro cs
    induction cs with
    | nil => simp
    | cons c cs ih =>
      intro s out
      rw [List.foldl_cons, ih, List.flatten_cons, Mealy.final_append, Mealy.emitted_append,
        List.append_assoc]
  rw [foldChunks, hacc, List.nil_append]

section Emissions

variable {T : Type} {key : T → ℤ}

theorem lastAt_cons (key : T → ℤ) (x : T) (xs : List T) (t : ℤ) :
    lastAt key (x :: xs) t = (lastAt key xs t).or (if key x = t then some x else none) := by
  unfold lastAt
  by_cases h : key x = t
  · rw [List.filter_cons_of_pos (by simpa using h), if_pos h]
    cases hrest : xs.filter fun o => decide (key o = t) with
    | nil => rfl
    | cons y ys =>
      rw [List.getLast?_cons_cons, Option.or_of_isSome (by simp)]
  · rw [List.filter_cons_of_neg (by simpa using h), if_neg h, Option.or_none]

theorem lastAt_append (key : T → ℤ) (xs ys : List T) (t : ℤ) :
    lastAt key (xs ++ ys) t = (lastAt key ys t).or (lastAt key xs t) := by
  unfold lastAt
  rw [List.filter_append, List.getLast?_append]

theorem lastAt_eq_none_iff {xs : List T} {t : ℤ} :
    lastAt key xs t = none ↔ ∀ x ∈ xs, key x ≠ t := by
  unfold lastAt
  rw [List.getLast?_eq_none_iff, List.filter_eq_nil_iff]
  simp

theorem mem_of_lastAt {xs : List T} {t : ℤ} {x : T} (h : lastAt key xs t = some x) :
    x ∈ xs ∧ key x = t := by
  simpa using List.mem_filter.mp (List.mem_of_getLast? h)

/-- What stays of emissions whose times do not go back is the last one for each time. -/
theorem mem_rewarmDedup_iff {xs : List T} (h : xs.Pairwise fun a b => key a ≤ key b) {p : T} :
    p ∈ rewarmDedup key xs ↔ lastAt key xs (key p) = some p := by
  induction xs with
  | nil => exact iff_of_false List.not_mem_nil nofun
  | cons x xs ih =>
    obtain ⟨hx, htail⟩ := List.pairwise_cons.mp h
    have ih := ih htail
    rw [lastAt_cons]
    cases xs with
    | nil =>
      show p ∈ [x] ↔ (none : Option T).or _ = some p
      rw [List.mem_singleton, Option.none_or]
      split_ifs with hkey
      · exact ⟨fun h => by rw [h], fun h => (Option.some.inj h).symm⟩
      · exact iff_of_false (fun h => hkey (by rw [h])) nofun
    | cons y ys =>
      rw [rewarmDedup_cons_cons]
      by_cases hsame : key x = key y
      · -- the next one has the same time
        rw [if_pos hsame, ih]
        by_cases hkey : key x = key p
        · have hsome : lastAt key (y :: ys) (key p) ≠ none := fun hnone =>
            lastAt_eq_none_iff.mp hnone y List.mem_cons_self (hsame.symm.trans hkey)
          obtain ⟨q, hq⟩ := Option.ne_none_iff_exists'.mp hsome
          rw [hq, Option.some_or]
        · rw [if_neg hkey, Option.or_none]
      · -- it is later, and so are all
        have hlt : ∀ z ∈ y :: ys, key x < key z := by
          intro z hz
          refine (lt_of_le_of_ne (hx y List.mem_cons_self) hsame).trans_le ?_
          rcases List.mem_cons.mp hz with rfl | hz
          · exact le_rfl
          · exact (List.pairwise_cons.mp htail).1 z hz
        rw [if_neg hsame, List.mem_cons, ih]
        by_cases hkey : key x = key p
        · have hnone : lastAt key (y :: ys) (key p) = none :=
            lastAt_eq_none_iff.mpr fun z hz heq => (hlt z hz).ne (hkey.trans heq.symm)
          rw [hnone, Option.none_or, if_pos hkey]
          exact ⟨fun h => h.elim (fun h => by rw [h]) nofun, fun h => .inl (Option.some.inj h).symm⟩
        · rw [if_neg hkey, Option.or_none]
          exact or_iff_right fun h => hkey (by rw [h])

/-- Points of different times: each is the last one of its time. -/
theorem lastAt_eq_some_iff {xs : List T} (h : xs.Pairwise fun a b => key a < key b) {t : ℤ}
    {p : T} :
    lastAt key xs t = some p ↔ p ∈ xs ∧ key p = t := by
  refine ⟨mem_of_lastAt, ?_⟩
  rintro ⟨hp, rfl⟩
  cases hlast : lastAt key xs (key p) with
  | none => exact absurd rfl (lastAt_eq_none_iff.mp hlast p hp)
  | some q =>
    obtain ⟨hq, hkey⟩ := mem_of_lastAt hlast
    have hinj : (xs.map key).Nodup := List.pairwise_map.mpr (h.imp fun hlt => hlt.ne)
    rw [List.inj_on_of_nodup_map hinj hq hp hkey]

end Emissions

/-- The emissions of a bucketing machine have times of buckets, and their times do not go back. -/
theorem sorted_bucketing {ο : Type} {intervalMs : ℤ} {time : ο → ℤ} {opened : TradePoint → ο}
    {updated : ο → TradePoint → ο} (hopened : ∀ p, time (opened p) = bucketStart intervalMs p.tsMs)
    (hupdated : ∀ o p, time (updated o p) = time o) (trades : List TradePoint) :
    ((bucketing intervalMs time opened updated).emitted none trades).Pairwise
        (fun a b => time a ≤ time b) ∧
      ∀ o ∈ (bucketing intervalMs time opened updated).emitted none trades,
        ∃ k, time o = k * intervalMs := by
  -- from a current point on, nothing is earlier than it
  have hfrom : ∀ (trades : List TradePoint) (o : ο), (∃ k, time o = k * intervalMs) →
      (o :: (bucketing intervalMs time opened updated).emitted (some o) trades).Pairwise
          (fun a b => time a ≤ time b) ∧
        ∀ q ∈ (bucketing intervalMs time opened updated).emitted (some o) trades,
          ∃ k, time q = k * intervalMs := by
    intro trades
    induction trades with
    | nil => exact fun o _ => ⟨List.pairwise_singleton _ o, fun q hq => absurd hq List.not_mem_nil⟩
    | cons point trades ih =>
      intro o ho
      obtain ⟨q, hstep, hle, hq⟩ : ∃ q, (bucketing intervalMs time opened updated).step (some o)
          point = (some q, some q) ∧ time o ≤ time q ∧ ∃ k, time q = k * intervalMs := by
        simp only [bucketing]
        by_cases hroll : time o < bucketStart intervalMs point.tsMs
        · rw [if_pos hroll]
          exact ⟨_, rfl, by rw [hopened]; exact hroll.le, _, hopened point⟩
        · rw [if_neg hroll]
          exact ⟨_, rfl, (hupdated o point).ge, by rwa [hupdated]⟩
      obtain ⟨hsorted, htimes⟩ := ih q hq
      rw [Mealy.emitted_cons, hstep]
      refine ⟨List.pairwise_cons.mpr ⟨fun z hz => ?_, hsorted⟩,
        List.forall_mem_cons.mpr ⟨hq, htimes⟩⟩
      rcases List.mem_cons.mp hz with rfl | hz
      · exact hle
      · exact hle.trans ((List.pairwise_cons.mp hsorted).1 z hz)
  cases trades with
  | nil => exact ⟨List.Pairwise.nil, fun o ho => absurd ho List.not_mem_nil⟩
  | cons point trades =>
    have htime : ∃ k, time (opened point) = k * intervalMs := ⟨_, hopened point⟩
    obtain ⟨hsorted, htimes⟩ := hfrom trades (opened point) htime
    exact ⟨hsorted, List.forall_mem_cons.mpr ⟨htime, htimes⟩⟩

/-! ## The splice -/

/-- The points that are put in front: those of `rebuilt` that are not later than the head. -/
def olderThan (ring rebuilt : List FootprintPoint) : List FootprintPoint :=
  rebuilt.filter fun p => (ring.head?.map FootprintPoint.openTime).all fun h => p.openTime ≤ h

/-- Whether the head of the ring goes. -/
def keepFrom (ring older : List FootprintPoint) : ℕ :=
  if (ring.head?.map FootprintPoint.openTime).any fun h =>
    older.getLast?.any fun p => p.openTime = h
  then 1 else 0

/-- What the fold of a window comes to. -/
def rebuiltFrom (interval : KlineInterval) (exchange : ExchangeId) (rawSymbol : String)
    (window : List TradePoint) : List FootprintPoint :=
  rewarmDedup FootprintPoint.openTime
    (KeyedFootprint.machine.emitted (.newForKey interval) (window.map (.trade exchange rawSymbol)))

variable {interval : KlineInterval} {exchange : ExchangeId} {rawSymbol : String} {intervalMs : ℤ}
  {window : List TradePoint} {guard : Series FootprintPoint} {warmN : ℕ}
  {ring rebuilt points : List FootprintPoint}

theorem ring_pushInto {T : Type} {capacity : ℕ} {xs ys : List T}
    (h : xs.length + ys.length ≤ capacity) :
    (ys.foldl Series.push (xs.foldl Series.push (Series.new capacity))).ring = xs ++ ys := by
  rw [← List.foldl_append, Series.ring_pushAll]
  show (([] : List T) ++ (xs ++ ys)).drop
    ((([] : List T) ++ (xs ++ ys)).length - max capacity 1) = xs ++ ys
  rw [List.nil_append, List.length_append, Nat.sub_eq_zero_of_le (by omega), List.drop_zero]

/-- What a call with a window returns, and the ring it leaves. -/
theorem rewarmFootprint_some (hwarm : 0 < warmN) (interval : KlineInterval) (exchange : ExchangeId)
    (rawSymbol : String) (guard : Series FootprintPoint) (window : List TradePoint) :
    ∃ after, rewarmFootprint interval exchange rawSymbol (some guard) warmN window =
        (olderThan guard.ring (rebuiltFrom interval exchange rawSymbol window), some after) ∧
      after.ring = olderThan guard.ring (rebuiltFrom interval exchange rawSymbol window) ++
        guard.ring.drop (keepFrom guard.ring
          (olderThan guard.ring (rebuiltFrom interval exchange rawSymbol window))) ∧
      guard.capacity ≤ after.capacity := by
  have hnil : ∀ older : List FootprintPoint, older = [] →
      guard.ring = older ++ guard.ring.drop (keepFrom guard.ring older) := by
    rintro _ rfl
    have hkeep : keepFrom guard.ring [] = 0 := by
      unfold keepFrom
      cases guard.ring.head? <;> rfl
    rw [hkeep, List.drop_zero, List.nil_append]
  have hfold : (foldChunks (.newForKey interval)
      (chunks 5000 (window.map (.trade exchange rawSymbol)))).2 =
      KeyedFootprint.machine.emitted (.newForKey interval)
        (window.map (.trade exchange rawSymbol)) := by
    rw [foldChunks_eq, flatten_chunks (by decide)]
  have hpush : ∀ (older : List FootprintPoint) (n : ℕ), n = keepFrom guard.ring older →
      ((guard.ring.drop n).foldl Series.push (older.foldl Series.push (Series.new
        (max (older.length + (guard.ring.length - n)) guard.capacity)))).ring =
          older ++ guard.ring.drop (keepFrom guard.ring older) := by
    rintro older _ rfl
    refine ring_pushInto ?_
    rw [List.length_drop]
    exact le_max_left _ _
  have hcapacity : ∀ (older : List FootprintPoint) (n : ℕ), guard.capacity ≤
      ((guard.ring.drop n).foldl Series.push (older.foldl Series.push (Series.new
        (max (older.length + (guard.ring.length - n)) guard.capacity)))).capacity := by
    intro older n
    rw [capacity_pushAll, capacity_pushAll]
    exact (le_max_right _ _).trans (le_max_left _ _)
  unfold rewarmFootprint
  simp only [if_neg hwarm.ne', hfold]
  rw [← rebuiltFrom]
  split_ifs with hempty hrebuilt holder hkeep
  · have : olderThan guard.ring (rebuiltFrom interval exchange rawSymbol window) = [] := by
      unfold rebuiltFrom
      rw [hempty]
      rfl
    exact ⟨guard, by rw [this], hnil _ this, le_rfl⟩
  · have : olderThan guard.ring (rebuiltFrom interval exchange rawSymbol window) = [] := by
      rw [hrebuilt]
      rfl
    exact ⟨guard, by rw [this], hnil _ this, le_rfl⟩
  · exact ⟨guard, by rw [olderThan, holder], hnil _ holder, le_rfl⟩
  · exact ⟨_, rfl, hpush _ 1 (if_pos hkeep).symm, hcapacity _ 1⟩
  · exact ⟨_, rfl, hpush _ 0 (if_neg hkeep).symm, hcapacity _ 0⟩

theorem mem_olderThan {p : FootprintPoint} :
    p ∈ olderThan ring rebuilt ↔
      p ∈ rebuilt ∧ ∀ first ∈ ring.head?, p.openTime ≤ first.openTime := by
  unfold olderThan
  cases ring.head? <;> simp

/-- The head of the ring goes just when the last of the new points has its time. -/
theorem keepFrom_eq_one_iff : keepFrom ring points = 1 ↔
    ∃ first last, ring.head? = some first ∧ points.getLast? = some last ∧
      last.openTime = first.openTime := by
  unfold keepFrom
  cases ring.head? <;> cases points.getLast? <;> simp

theorem keepFrom_le (ring points : List FootprintPoint) : keepFrom ring points ≤ 1 := by
  unfold keepFrom
  split_ifs <;> omega

/-- Of new points not later than the head, one has its time just when the head goes. -/
theorem keepFrom_eq_one_iff_mem (hpoints : points.Pairwise (·.openTime < ·.openTime))
    {first : FootprintPoint} (hfirst : ring.head? = some first)
    (hle : ∀ p ∈ points, p.openTime ≤ first.openTime) :
    keepFrom ring points = 1 ↔ ∃ p ∈ points, p.openTime = first.openTime := by
  rw [keepFrom_eq_one_iff]
  constructor
  · rintro ⟨first', last, hfirst', hlast, htime⟩
    cases hfirst.symm.trans hfirst'
    exact ⟨last, List.mem_of_getLast? hlast, htime⟩
  · rintro ⟨p, hp, htime⟩
    obtain ⟨last, hlast⟩ : ∃ last, points.getLast? = some last :=
      Option.ne_none_iff_exists'.mp fun hnone => by
        rw [List.getLast?_eq_none_iff.mp hnone] at hp
        exact absurd hp List.not_mem_nil
    obtain ⟨front, rfl⟩ := List.getLast?_eq_some_iff.mp hlast
    refine ⟨first, last, hfirst, hlast, le_antisymm (hle last (by simp)) ?_⟩
    rcases List.mem_append.mp hp with hp | hp
    · have := (List.pairwise_append.mp hpoints).2.2 p hp last (List.mem_singleton_self _)
      omega
    · rw [← htime, List.mem_singleton.mp hp]

/-- What a ring shows of a time behind new points: theirs, if the rest of the ring has none. -/
theorem lastAt_spliced (hpoints : points.Pairwise (·.openTime < ·.openTime))
    (hle : ∀ p ∈ points, ∀ first ∈ ring.head?, p.openTime ≤ first.openTime) (t : ℤ) :
    (((∃ p ∈ points, p.openTime = t) ∧ ∀ p ∈ ring.drop 1, p.openTime ≠ t) →
      ∃ p ∈ points, lastAt FootprintPoint.openTime
        (points ++ ring.drop (keepFrom ring points)) t = some p) ∧
    (¬ ((∃ p ∈ points, p.openTime = t) ∧ ∀ p ∈ ring.drop 1, p.openTime ≠ t) →
      lastAt FootprintPoint.openTime (points ++ ring.drop (keepFrom ring points)) t =
        lastAt FootprintPoint.openTime ring t) := by
  rw [lastAt_append]
  have hnone : (∀ p ∈ points, p.openTime ≠ t) → lastAt FootprintPoint.openTime points t = none :=
    lastAt_eq_none_iff.mpr
  cases ring with
  | nil =>
    rw [List.drop_nil, List.drop_nil]
    refine ⟨fun h => ?_, fun h => ?_⟩
    · obtain ⟨p, hp, htime⟩ := h.1
      exact ⟨p, hp, (lastAt_eq_some_iff hpoints).mpr ⟨hp, htime⟩⟩
    · refine hnone fun p hp htime => h ⟨⟨p, hp, htime⟩, fun q hq => absurd hq List.not_mem_nil⟩
  | cons first rest =>
    have hhead : (first :: rest).head? = some first := rfl
    have hgoes := keepFrom_eq_one_iff_mem hpoints hhead fun p hp => hle p hp first rfl
    rw [List.drop_one, List.tail_cons]
    refine ⟨fun h => ?_, fun h => ?_⟩
    · -- the new point shows
      obtain ⟨⟨p, hp, htime⟩, hrest⟩ := h
      have hlast := (lastAt_eq_some_iff hpoints).mpr ⟨hp, htime⟩
      refine ⟨p, hp, ?_⟩
      have hbehind : lastAt FootprintPoint.openTime ((first :: rest).drop
          (keepFrom (first :: rest) points)) t = none := by
        refine lastAt_eq_none_iff.mpr fun q hq hqt => ?_
        by_cases hkeep : keepFrom (first :: rest) points = 1
        · rw [hkeep, List.drop_one, List.tail_cons] at hq
          exact hrest q hq hqt
        · rcases List.mem_cons.mp (List.mem_of_mem_drop hq) with rfl | hq
          · exact hkeep (hgoes.mpr ⟨p, hp, htime.trans hqt.symm⟩)
          · exact hrest q hq hqt
      rw [hbehind, Option.none_or, hlast]
    · by_cases hkeep : keepFrom (first :: rest) points = 1
      · rw [hkeep, List.drop_one, List.tail_cons, lastAt_cons]
        by_cases hnew : ∃ p ∈ points, p.openTime = t
        · -- the ring has a later point of it
          obtain ⟨q, hq, hqt⟩ : ∃ q ∈ rest, q.openTime = t := by
            by_contra hnot
            exact h ⟨hnew, fun q hq hqt => hnot ⟨q, hq, hqt⟩⟩
          obtain ⟨q', hq'⟩ := Option.ne_none_iff_exists'.mp fun hnone =>
            lastAt_eq_none_iff.mp hnone q hq hqt
          rw [hq', Option.some_or, Option.some_or]
        · have hfirst : first.openTime ≠ t := by
            obtain ⟨p, hp, htime⟩ := hgoes.mp hkeep
            exact fun heq => hnew ⟨p, hp, htime.trans heq⟩
          rw [hnone fun p hp htime => hnew ⟨p, hp, htime⟩, Option.or_none, if_neg hfirst,
            Option.or_none]
      · have hzero : keepFrom (first :: rest) points = 0 := by
          have := keepFrom_le (first :: rest) points
          omega
        rw [hzero, List.drop_zero]
        by_cases hnew : ∃ p ∈ points, p.openTime = t
        · obtain ⟨q, hq, hqt⟩ : ∃ q ∈ rest, q.openTime = t := by
            by_contra hnot
            exact h ⟨hnew, fun q hq hqt => hnot ⟨q, hq, hqt⟩⟩
          obtain ⟨q', hq'⟩ := Option.ne_none_iff_exists'.mp fun hnone =>
            lastAt_eq_none_iff.mp hnone q (List.mem_cons_of_mem first hq) hqt
          rw [hq', Option.some_or]
        · rw [hnone fun p hp htime => hnew ⟨p, hp, htime⟩, Option.or_none]

/-! ## The whole call -/

/-- The rebuilt points: one for each bucket with trades, made of them, in order. -/
theorem rebuiltFrom_spec (hinterval : intervalToMs interval.text = some intervalMs)
    (hpos : 0 < intervalMs) (exchange : ExchangeId) (rawSymbol : String)
    (hts : ∀ p ∈ window, 0 ≤ p.tsMs) (hsorted : window.Pairwise (·.tsMs ≤ ·.tsMs))
    (hprice : ∀ p ∈ window, Float64.IsPositiveDouble p.price) :
    (rebuiltFrom interval exchange rawSymbol window).Pairwise (·.openTime < ·.openTime) ∧
      (∀ p ∈ rebuiltFrom interval exchange rawSymbol window, ∃ k, p.openTime = k * intervalMs ∧
        FootprintOf (tradesIn intervalMs (k * intervalMs) window) p) ∧
      ∀ k, (∃ p ∈ rebuiltFrom interval exchange rawSymbol window, p.openTime = k * intervalMs) ↔
        tradesIn intervalMs (k * intervalMs) window ≠ [] := by
  have hms : (KeyedFootprint.newForKey interval).intervalMs = intervalMs := by
    rw [KeyedFootprint.newForKey, hinterval, Option.getD_some]
  have hplain : (TradeToFootprintDerived.newForKey interval).intervalMs = intervalMs := hms
  have hemitted : KeyedFootprint.machine.emitted (.newForKey interval)
      (window.map (.trade exchange rawSymbol)) = (bucketing intervalMs FootprintPoint.openTime
        (TradeToFootprintDerived.rolled intervalMs) TradeToFootprintDerived.updated).emitted none
        window := by
    rw [KeyedFootprint.keyed_emitted_eq (by rw [hms]; exact hpos.ne') _ _ hprice,
      TradeToFootprintDerived.emitted_eq, hplain]
    rfl
  have hopened : ∀ p, (TradeToFootprintDerived.rolled intervalMs p).openTime =
      bucketStart intervalMs p.tsMs := fun _ => rfl
  have hupdated : ∀ o p, (TradeToFootprintDerived.updated o p).openTime = o.openTime :=
    fun _ _ => rfl
  obtain ⟨hle, htimes⟩ := sorted_bucketing hopened hupdated window
  have hshows := bucketing_shows hpos hts hsorted hopened hupdated (FootprintOf.open intervalMs)
    fun _ _ p h => h.update p
  have hmem : ∀ p, p ∈ rebuiltFrom interval exchange rawSymbol window ↔
      lastAt FootprintPoint.openTime ((bucketing intervalMs FootprintPoint.openTime
        (TradeToFootprintDerived.rolled intervalMs) TradeToFootprintDerived.updated).emitted none
        window) p.openTime = some p := fun p => by
    rw [rebuiltFrom, hemitted]
    exact mem_rewarmDedup_iff hle
  refine ⟨?_, fun p hp => ?_, fun k => ⟨?_, fun hblock => ?_⟩⟩
  · rw [rebuiltFrom, hemitted]
    exact (inStep_of_sorted hle).apart.imp And.right
  · have hlast := (hmem p).mp hp
    obtain ⟨k, hk⟩ := htimes p (mem_of_lastAt hlast).1
    have hfootprint := hshows k
    rw [← hk, hlast] at hfootprint
    exact ⟨k, hk, hk ▸ hfootprint⟩
  · rintro ⟨p, hp, hk⟩ hnil
    have hfootprint := hshows k
    rw [← hk, (hmem p).mp hp, hk, hnil] at hfootprint
    obtain ⟨_, hsum, -⟩ := hfootprint.bar
    exact hsum.ne_nil rfl
  · have hfootprint := hshows k
    cases hlast : lastAt FootprintPoint.openTime ((bucketing intervalMs FootprintPoint.openTime
        (TradeToFootprintDerived.rolled intervalMs) TradeToFootprintDerived.updated).emitted none
        window) (k * intervalMs) with
    | none =>
      rw [hlast] at hfootprint
      exact absurd hfootprint hblock
    | some p =>
      have htime := (mem_of_lastAt hlast).2
      exact ⟨p, (hmem p).mpr (htime ▸ hlast), htime⟩

/-- Once more, the first of the points replaces itself. -/
theorem olderThan_again (hrebuilt : rebuilt.Pairwise (·.openTime < ·.openTime)) {n : ℕ}
    (hn : n = keepFrom ring (olderThan ring rebuilt)) :
    olderThan (olderThan ring rebuilt ++ ring.drop n) rebuilt ++
        (olderThan ring rebuilt ++ ring.drop n).drop
          (keepFrom (olderThan ring rebuilt ++ ring.drop n)
            (olderThan (olderThan ring rebuilt ++ ring.drop n) rebuilt)) =
      olderThan ring rebuilt ++ ring.drop n := by
  cases holder : olderThan ring rebuilt with
  | nil =>
    have hzero : keepFrom ring [] = 0 := by
      rw [keepFrom]
      cases ring.head? <;> rfl
    rw [holder, hzero] at hn
    subst hn
    rw [List.nil_append, List.drop_zero, holder, hzero, List.drop_zero, List.nil_append]
  | cons b bs =>
    have hb : b ∈ olderThan ring rebuilt := by
      rw [holder]
      exact List.mem_cons_self
    obtain ⟨hbmem, hble⟩ := mem_olderThan.mp hb
    have hagain : olderThan (b :: bs ++ ring.drop n) rebuilt = [b] := by
      cases rebuilt with
      | nil => exact absurd hbmem List.not_mem_nil
      | cons a as =>
        obtain ⟨ha, -⟩ := List.pairwise_cons.mp hrebuilt
        obtain rfl : a = b := by
          have hfirst : a ∈ olderThan ring (a :: as) := mem_olderThan.mpr
            ⟨List.mem_cons_self, fun first hfirst => by
              rcases List.mem_cons.mp hbmem with rfl | hmem
              · exact hble first hfirst
              · exact (ha b hmem).le.trans (hble first hfirst)⟩
          have hcons : olderThan ring (a :: as) = a :: olderThan ring as :=
            List.filter_cons_of_pos (List.mem_filter.mp hfirst).2
          exact (List.cons.inj (hcons.symm.trans holder)).1
        have hrest : as.filter (fun p => decide (p.openTime ≤ a.openTime)) = [] :=
          List.filter_eq_nil_iff.mpr fun p hp hle => by
            have := ha p hp
            have : p.openTime ≤ a.openTime := of_decide_eq_true hle
            omega
        show (a :: as).filter (fun p => decide (p.openTime ≤ a.openTime)) = [a]
        rw [List.filter_cons_of_pos (by simp), hrest]
    rw [hagain]
    have hgoes : keepFrom (b :: bs ++ ring.drop n) [b] = 1 :=
      keepFrom_eq_one_iff.mpr ⟨b, b, rfl, rfl, rfl⟩
    rw [hgoes]
    rfl

/-- **Main theorem.** A call with any window of trades in order at positive prices puts the rebuilt
    buckets that are not later than the head in front of any ring, and the ring shows of every
    bucket the rebuilt one just when the rest of the ring has no point of it. To call it again with
    that window leaves the ring as it is. -/
theorem rewarmFootprint_rebuilds (hinterval : intervalToMs interval.text = some intervalMs)
    (hpos : 0 < intervalMs) (exchange : ExchangeId) (rawSymbol : String)
    (guard : Series FootprintPoint) (hwarm : 0 < warmN) (hts : ∀ p ∈ window, 0 ≤ p.tsMs)
    (hsorted : window.Pairwise (·.tsMs ≤ ·.tsMs))
    (hprice : ∀ p ∈ window, Float64.IsPositiveDouble p.price) :
    ∃ points after, rewarmFootprint interval exchange rawSymbol (some guard) warmN window =
        (points, some after) ∧ Rebuilds intervalMs window guard points after ∧
      (rewarmFootprint interval exchange rawSymbol (some after) warmN window).2.map Series.ring =
        some after.ring := by
  obtain ⟨hascending, hfootprints, hbuckets⟩ :=
    rebuiltFrom_spec hinterval hpos exchange rawSymbol hts hsorted hprice
  obtain ⟨after, hcall, hring, hcapacity⟩ :=
    rewarmFootprint_some hwarm interval exchange rawSymbol guard window
  have hpoints : (olderThan guard.ring (rebuiltFrom interval exchange rawSymbol window)).Pairwise
      (·.openTime < ·.openTime) := hascending.sublist List.filter_sublist
  have hle : ∀ p ∈ olderThan guard.ring (rebuiltFrom interval exchange rawSymbol window),
      ∀ first ∈ guard.ring.head?, p.openTime ≤ first.openTime := fun p hp => (mem_olderThan.mp hp).2
  have hreturned : ∀ k,
      (∃ p ∈ olderThan guard.ring (rebuiltFrom interval exchange rawSymbol window),
      p.openTime = k * intervalMs) ↔ tradesIn intervalMs (k * intervalMs) window ≠ [] ∧
        ∀ first ∈ guard.ring.head?, k * intervalMs ≤ first.openTime := by
    intro k
    rw [← hbuckets]
    constructor
    · rintro ⟨p, hp, hk⟩
      obtain ⟨hmem, hhead⟩ := mem_olderThan.mp hp
      exact ⟨⟨p, hmem, hk⟩, hk ▸ hhead⟩
    · rintro ⟨⟨p, hmem, hk⟩, hhead⟩
      exact ⟨p, mem_olderThan.mpr ⟨hmem, hk.symm ▸ hhead⟩, hk⟩
  refine ⟨_, after, hcall, ⟨⟨_, keepFrom_le _ _, hring⟩, hpoints, fun p hp => ?_, hreturned,
    fun k => ?_, fun k => ?_, fun hguard => ?_, hcapacity⟩, ?_⟩
  · exact hfootprints p (mem_olderThan.mp hp).1
  · rw [hring]
    exact (lastAt_spliced hpoints hle _).1
  · rw [hring]
    exact (lastAt_spliced hpoints hle _).2
  · rw [hring]
    refine List.pairwise_append.mpr ⟨hpoints.imp fun h => h.le,
      hguard.sublist (List.drop_sublist _ _), fun p hp q hq => ?_⟩
    have hq := List.mem_of_mem_drop hq
    cases hhead : guard.ring with
    | nil =>
      rw [hhead] at hq
      exact absurd hq List.not_mem_nil
    | cons first rest =>
      rw [hhead] at hq hguard
      have hfirst := hle p hp first (by rw [hhead]; rfl)
      rcases List.mem_cons.mp hq with rfl | hq
      · exact hfirst
      · exact hfirst.trans ((List.pairwise_cons.mp hguard).1 q hq)
  · obtain ⟨after', hcall', hring', -⟩ :=
      rewarmFootprint_some hwarm interval exchange rawSymbol after window
    rw [hcall', Option.map_some, hring']
    congr 1
    rw [hring]
    exact olderThan_again hascending rfl

/-- A ring with the first trade of a minute, and a window from the minute before it. -/
theorem rewarmFootprint_rebuilds_minute :
    ∃ points after, rewarmFootprint ⟨"1m"⟩ .binance "BTCUSDT"
        (some ((Series.new 2).push (TradeToFootprintDerived.rolled 60000 (buyAt 60000 2 1)))) 1000
        [buyAt 1000 1 3, buyAt 60000 2 1, buyAt 61000 1 1] = (points, some after) ∧
      Rebuilds 60000 [buyAt 1000 1 3, buyAt 60000 2 1, buyAt 61000 1 1]
        ((Series.new 2).push (TradeToFootprintDerived.rolled 60000 (buyAt 60000 2 1)))
        points after ∧
      (rewarmFootprint ⟨"1m"⟩ .binance "BTCUSDT" (some after) 1000
        [buyAt 1000 1 3, buyAt 60000 2 1, buyAt 61000 1 1]).2.map Series.ring =
          some after.ring := by
  have hone : Float64.IsPositiveDouble 1 :=
    ⟨4607182418800017408, by decide, by decide, by norm_num [Float64.ofBits]⟩
  have htwo : Float64.IsPositiveDouble 2 :=
    ⟨4611686018427387904, by decide, by decide, by norm_num [Float64.ofBits]⟩
  refine rewarmFootprint_rebuilds (by decide) (by decide) .binance "BTCUSDT" _ (by decide) ?_ ?_ ?_
  · decide
  · decide
  · intro p hp
    simp only [List.mem_cons, List.not_mem_nil, or_false] at hp
    rcases hp with rfl | rfl | rfl
    · exact hone
    · exact htwo
    · exact hone

end Digdigdig3.Rewarm
