import Digdigdig3.Core.Json
import Digdigdig3.Orderbook
import Digdigdig3.Lib.Mealy
import Digdigdig3.Lib.Utf8
import Digdigdig3.Storage.Manager

/-!
# `GapDetector`: breaks of the update-id chain in stored order-book records

`GapDetector::detect` (`crates/digdigdig3-station/src/cure/gap.rs` lines 43–89) replays the
records of a range through an `OrderBookTracker` and reports every delta at which the tracker
returns `SequenceGap`. The tracker leaves its book alone then, so the deltas behind a break
are held against the id in front of it until one continues that id or a snapshot is applied.

`value`, `decodeDelta` and `decodeBook` stand for `serde_json::from_slice` at the types
`Value`, `OrderbookDelta` and `OrderBook`.

Results:
* `tracker_eq_applied`: the tracker knows the id of the last record that was applied.
* `gaps_reported`: the deltas at which `detect` reports a gap, and what it reports.
-/

namespace Digdigdig3.Cure

open Storage OrderBookTracker

/-- `GapInfo` (lines 17–24). -/
structure GapInfo where
  tsMs : Int64
  expected : ℕ
  got : ℕ
  deriving DecidableEq

/-- A recorded payload is decoded by `serde_json::from_slice`. -/
structure Decoder (F : Type) where
  value : Bytes → Option Json
  decodeDelta : Bytes → Option (OrderbookDelta F)
  decodeBook : Bytes → Option (OrderBook F)

variable {Dir F D : Type} [LinearOrder D] [Zero D]

namespace GapDetector

/-- The gap that an update is reported as (lines 66–75 and 78–86). -/
def gapOf (tsMs : Int64) : Except (OrderBookError F) Unit → Option GapInfo
  | .error (.sequenceGap last got) => some ⟨tsMs, last, got⟩
  | _ => none

/-- `is_delta` (lines 59–62). -/
def isDelta (decoder : Decoder F) (payload : Bytes) : Bool :=
  ((decoder.value payload).bind (·.get? "prev_update_id")).isSome

/-- The body of the loop (lines 54–87). -/
def scanRecord (decoder : Decoder F) (tryFrom : F → Option D) (tracker : OrderBookTracker D)
    (r : EventRecord) : OrderBookTracker D × Option GapInfo :=
  if isDelta decoder r.payload then
    match decoder.decodeDelta r.payload with
    | some delta =>
      ((tracker.applyDelta tryFrom delta).1, gapOf r.tsMs (tracker.applyDelta tryFrom delta).2)
    | none => (tracker, none)
  else
    match decoder.decodeBook r.payload with
    | some snapshot =>
      ((tracker.applySnapshot tryFrom snapshot).1,
        gapOf r.tsMs (tracker.applySnapshot tryFrom snapshot).2)
    | none => (tracker, none)

/-- The loop of `detect`. -/
def scan (decoder : Decoder F) (tryFrom : F → Option D) :
    Mealy (OrderBookTracker D) EventRecord GapInfo :=
  ⟨scanRecord decoder tryFrom⟩

/-- `GapDetector::detect` (lines 43–89). -/
def detect (decoder : Decoder F) (tryFrom : F → Option D) (resolve : List String → Dir)
    (storage : StorageManager Dir) (key : StreamKey) (fromMs toMs : ℤ) :
    Except String (List GapInfo) :=
  match storage.readRange resolve key fromMs toMs with
  | .error e => .error e
  | .ok records => .ok ((scan decoder tryFrom).emitted (OrderBookTracker.new "replay") records)

/-- What is reported at the record `r` behind the records `pre`. -/
def reportAt (decoder : Decoder F) (tryFrom : F → Option D) (pre : List EventRecord)
    (r : EventRecord) : Option GapInfo :=
  ((scan decoder tryFrom).step
    ((scan decoder tryFrom).final (OrderBookTracker.new "replay") pre) r).2

/-! ## Specification -/

/-- The id that a record carries. -/
def carriedId : Update F → Option ℕ
  | .snapshot s => s.lastUpdateId
  | .delta d => d.lastUpdateId

/-- The record decodes to the update `u`, as a snapshot with an id, or as a delta with both. -/
def Recognised (decoder : Decoder F) (r : EventRecord) : Update F → Prop
  | .snapshot s => isDelta decoder r.payload = false ∧ decoder.decodeBook r.payload = some s ∧
      s.lastUpdateId.isSome
  | .delta d => isDelta decoder r.payload = true ∧ decoder.decodeDelta r.payload = some d ∧
      d.prevUpdateId.isSome ∧ d.lastUpdateId.isSome

/-- The id of the book after the update `u` on a book with the id `applied`, none before the
    first snapshot: a snapshot is applied when its levels convert, a delta when it continues the
    id as well. -/
def applyId (tryFrom : F → Option D) (applied : Option ℕ) : Update F → Option ℕ
  | .snapshot s =>
    if AllConvertible tryFrom s.bids ∧ AllConvertible tryFrom s.asks then s.lastUpdateId
    else applied
  | .delta d =>
    if applied.isSome ∧ d.prevUpdateId = applied ∧ AllConvertible tryFrom d.bids ∧
      AllConvertible tryFrom d.asks then d.lastUpdateId
    else applied

/-- The id of the last update of `us` that was applied. -/
def appliedId (tryFrom : F → Option D) (us : List (Update F)) : Option ℕ :=
  us.foldl (applyId tryFrom) none

/-- The id of the nearest of the updates `us`, counted from behind, that carries one. -/
def nearestId (us : List (Update F)) : Option ℕ := (us.filterMap carriedId).getLast?

/-- A gap is reported exactly at the deltas whose previous id is not `lastId` of the updates in
    front of them, with the two ids. -/
def ReportsBreaks (decoder : Decoder F) (tryFrom : F → Option D)
    (lastId : List (Update F) → Option ℕ) (records : List (EventRecord × Update F)) : Prop :=
  ∀ pre r post, records = pre ++ r :: post → ∀ gap,
    reportAt decoder tryFrom (pre.map Prod.fst) r.1 = some gap ↔
      ∃ delta expected got, r.2 = .delta delta ∧ delta.prevUpdateId = some got ∧
        lastId (pre.map Prod.snd) = some expected ∧ got ≠ expected ∧
        gap = ⟨r.1.tsMs, expected, got⟩

/-! ## The tracker's id -/

variable {decoder : Decoder F} {tryFrom : F → Option D}

/-- The ids of the tracker are those of the updates applied so far. -/
structure Knows (t : OrderBookTracker D) (applied : Option ℕ) : Prop where
  id_eq : t.lastUpdateId = applied
  snapshot_iff : t.hasSnapshot = true ↔ applied.isSome

/-- A recognised record is one update of the tracker. -/
theorem scanRecord_eq {r : EventRecord} {u : Update F} (h : Recognised decoder r u)
    (t : OrderBookTracker D) : scanRecord decoder tryFrom t r =
      ((t.applyUpdate tryFrom u).1, gapOf r.tsMs (t.applyUpdate tryFrom u).2) := by
  cases u with
  | snapshot s =>
    obtain ⟨hkind, hdecode, -⟩ := h
    rw [scanRecord, hkind, if_neg Bool.false_ne_true, hdecode]
    rfl
  | delta d =>
    obtain ⟨hkind, hdecode, -, -⟩ := h
    rw [scanRecord, hkind, if_pos rfl, hdecode]
    rfl

omit [Zero D] in
theorem sequenceGap?_eq {t : OrderBookTracker D} {d : OrderbookDelta F} {last got : ℕ}
    (hlast : t.lastUpdateId = some last) (hgot : d.prevUpdateId = some got) :
    t.sequenceGap? d = if got ≠ last then some (last, got) else none := by
  rw [sequenceGap?, hlast, hgot]

theorem Knows.snapshot {t : OrderBookTracker D} {applied : Option ℕ} (h : Knows t applied)
    {s : OrderBook F} (hid : s.lastUpdateId.isSome) (tsMs : Int64) :
    Knows (t.applySnapshot tryFrom s).1 (applyId tryFrom applied (.snapshot s)) ∧
      gapOf tsMs (t.applySnapshot tryFrom s).2 = none := by
  rcases t.applySnapshot_spec tryFrom s with ⟨hb, ha, heq⟩ | ⟨hconv, value, -, heq⟩
  · rw [heq, applyId, if_pos ⟨hb, ha⟩]
    exact ⟨⟨rfl, iff_of_true rfl hid⟩, rfl⟩
  · rw [heq, applyId, if_neg hconv]
    exact ⟨⟨h.id_eq, h.snapshot_iff⟩, rfl⟩

theorem Knows.delta {t : OrderBookTracker D} {applied : Option ℕ} (h : Knows t applied)
    {d : OrderbookDelta F} {got : ℕ} (hgot : d.prevUpdateId = some got)
    (hid : d.lastUpdateId.isSome) (tsMs : Int64) :
    Knows (t.applyDelta tryFrom d).1 (applyId tryFrom applied (.delta d)) ∧
      ∀ gap, gapOf tsMs (t.applyDelta tryFrom d).2 = some gap ↔
        ∃ expected, applied = some expected ∧ got ≠ expected ∧ gap = ⟨tsMs, expected, got⟩ := by
  obtain ⟨hsame, hsnapshot⟩ := h
  rcases applied with _ | last
  · -- before the first snapshot the delta is refused
    have hnone : ¬ t.hasSnapshot = true := by simp [hsnapshot]
    rw [applyDelta, if_pos hnone, applyId, if_neg (by simp)]
    exact ⟨⟨hsame, hsnapshot⟩, fun gap => by simp [gapOf]⟩
  · have hsome : t.hasSnapshot = true := hsnapshot.mpr rfl
    have hgap := sequenceGap?_eq hsame hgot
    by_cases hbreak : got ≠ last
    · -- a break: the tracker stays as it is
      rw [if_pos hbreak] at hgap
      have heq : t.applyDelta tryFrom d = (t, .error (.sequenceGap last got)) := by
        rw [applyDelta, if_neg (not_not_intro hsome), hgap]
      have happly : applyId tryFrom (some last) (.delta d) = some last := by
        refine if_neg fun hcont => hbreak ?_
        exact Option.some.inj (hgot.symm.trans hcont.2.1)
      rw [heq, happly]
      refine ⟨⟨hsame, hsnapshot⟩, fun gap => ?_⟩
      simp [gapOf, hbreak, eq_comm]
    · rw [if_neg hbreak] at hgap
      obtain rfl := not_not.mp hbreak
      have hnogap : ∀ gap : GapInfo, ¬ ∃ expected, some got = some expected ∧ got ≠ expected ∧
          gap = ⟨tsMs, expected, got⟩ := by
        rintro gap ⟨expected, heq, hne, -⟩
        exact hne (Option.some.inj heq)
      rcases t.applyDelta_spec tryFrom d with
        ⟨hrejected, -⟩ | ⟨-, -, hb, ha, heq⟩ | ⟨-, -, hconv, value, -, heq⟩
      · exact absurd ⟨hsome, hgap⟩ hrejected
      · have happly : applyId tryFrom (some got) (.delta d) = d.lastUpdateId :=
          if_pos ⟨rfl, hgot, hb, ha⟩
        obtain ⟨id, hid⟩ := Option.isSome_iff_exists.mp hid
        rw [heq, happly]
        refine ⟨⟨?_, iff_of_true hsome (by simp [hid])⟩, fun gap => ?_⟩
        · rw [hid]
          rfl
        · exact iff_of_false nofun (hnogap gap)
      · have happly : applyId tryFrom (some got) (.delta d) = some got :=
          if_neg fun hcont => hconv ⟨hcont.2.2.1, hcont.2.2.2⟩
        rw [heq, happly]
        exact ⟨⟨hsame, hsnapshot⟩, fun gap => iff_of_false nofun (hnogap gap)⟩

/-- **Run lemma.** -/
theorem tracker_eq_applied {records : List (EventRecord × Update F)}
    (hrec : ∀ r ∈ records, Recognised decoder r.1 r.2) :
    Knows ((scan decoder tryFrom).final (OrderBookTracker.new "replay") (records.map Prod.fst))
      (appliedId tryFrom (records.map Prod.snd)) := by
  induction records using List.reverseRecOn with
  | nil => exact ⟨rfl, iff_of_false Bool.false_ne_true nofun⟩
  | append_singleton records r ih =>
    obtain ⟨hrec, hr⟩ := List.forall_mem_append.mp hrec
    have hr := List.forall_mem_singleton.mp hr
    have h := ih hrec
    rw [List.map_append, List.map_append, List.map_singleton, List.map_singleton,
      Mealy.final_concat, appliedId, List.foldl_concat, ← appliedId]
    change Knows (scanRecord decoder tryFrom _ r.1).1 _
    rw [scanRecord_eq hr]
    obtain ⟨stored, u⟩ := r
    cases u with
    | snapshot s => exact (h.snapshot hr.2.2 stored.tsMs).1
    | delta d =>
      obtain ⟨got, hgot⟩ := Option.isSome_iff_exists.mp hr.2.2.1
      exact (h.delta hgot hr.2.2.2 stored.tsMs).1

theorem reportsBreaks {records : List (EventRecord × Update F)}
    (hrec : ∀ r ∈ records, Recognised decoder r.1 r.2) :
    ReportsBreaks decoder tryFrom (appliedId tryFrom) records := by
  rintro pre ⟨stored, u⟩ post rfl gap
  obtain ⟨hpre, hpost⟩ := List.forall_mem_append.mp hrec
  have hr := (List.forall_mem_cons.mp hpost).1
  have h : Knows ((scan decoder tryFrom).final (OrderBookTracker.new "replay")
      (pre.map Prod.fst)) (appliedId tryFrom (pre.map Prod.snd)) := tracker_eq_applied hpre
  change (scanRecord decoder tryFrom _ stored).2 = some gap ↔ _
  rw [scanRecord_eq hr]
  cases u with
  | snapshot s =>
    refine iff_of_false ?_ ?_
    · change ¬ gapOf stored.tsMs (applySnapshot tryFrom _ s).2 = some gap
      rw [(h.snapshot hr.2.2 stored.tsMs).2]
      exact nofun
    · rintro ⟨delta, expected, got, hdelta, -⟩
      cases hdelta
  | delta d =>
    obtain ⟨got, hgot⟩ := Option.isSome_iff_exists.mp hr.2.2.1
    refine ((h.delta hgot hr.2.2.2 stored.tsMs).2 gap).trans ?_
    constructor
    · rintro ⟨expected, happlied, hne, rfl⟩
      exact ⟨d, expected, got, rfl, hgot, happlied, hne, rfl⟩
    · rintro ⟨delta, expected, got', hdelta, hgot', happlied, hne, rfl⟩
      cases hdelta
      obtain rfl := Option.some.inj (hgot.symm.trans hgot')
      exact ⟨expected, happlied, hne, rfl⟩

/-- **Main theorem.** `detect` reads the range and reports a gap exactly at the deltas whose
    previous id is not the id of the last record that was applied. -/
theorem gaps_reported (decoder : Decoder F) (tryFrom : F → Option D)
    (resolve : List String → Dir) (storage : StorageManager Dir) (key : StreamKey)
    (fromMs toMs : ℤ) {records : List (EventRecord × Update F)}
    (hread : storage.readRange resolve key fromMs toMs = .ok (records.map Prod.fst))
    (hrec : ∀ r ∈ records, Recognised decoder r.1 r.2) :
    detect decoder tryFrom resolve storage key fromMs toMs =
        .ok ((scan decoder tryFrom).emitted (OrderBookTracker.new "replay")
          (records.map Prod.fst)) ∧
      ReportsBreaks decoder tryFrom (appliedId tryFrom) records := by
  refine ⟨?_, reportsBreaks hrec⟩
  rw [detect, hread]

/-! ## A break -/

/-- A stored update without levels. -/
def bookText : String :=
  "\x7b\"bids\":[],\"asks\":[],\"timestamp\":1,\"last_update_id\":1\x7d"

def breakText : String :=
  "\x7b\"prev_update_id\":5,\"last_update_id\":6,\"bids\":[],\"asks\":[],\"timestamp\":2\x7d"

def chainedText : String :=
  "\x7b\"prev_update_id\":6,\"last_update_id\":7,\"bids\":[],\"asks\":[],\"timestamp\":3\x7d"

/-- The object with the members of a delta. -/
def deltaJson (prev last timestamp : ℕ) : Json :=
  .obj [("prev_update_id", .int prev), ("last_update_id", .int last), ("bids", .arr []),
    ("asks", .arr []), ("timestamp", .int timestamp)]

def bookUpdate : OrderBook ℚ := ⟨[], [], 1, some 1⟩

def breakUpdate : OrderbookDelta ℚ := ⟨[], [], 2, some 6, some 5⟩

def chainedUpdate : OrderbookDelta ℚ := ⟨[], [], 3, some 7, some 6⟩

/-- What `from_slice` makes of the three texts. -/
def textDecoder : Decoder ℚ where
  value payload :=
    if payload = utf8 bookText then
      some (.obj [("bids", .arr []), ("asks", .arr []), ("timestamp", .int 1),
        ("last_update_id", .int 1)])
    else if payload = utf8 breakText then some (deltaJson 5 6 2)
    else if payload = utf8 chainedText then some (deltaJson 6 7 3)
    else none
  decodeDelta payload :=
    if payload = utf8 breakText then some breakUpdate
    else if payload = utf8 chainedText then some chainedUpdate
    else none
  decodeBook payload := if payload = utf8 bookText then some bookUpdate else none

/-- A snapshot, a delta that does not continue it, and one that continues the delta. -/
def brokenChain : List (EventRecord × Update ℚ) :=
  [(⟨1700000000000, utf8 bookText, by decide⟩, .snapshot bookUpdate),
   (⟨1700000000001, utf8 breakText, by decide⟩, .delta breakUpdate),
   (⟨1700000000002, utf8 chainedText, by decide⟩, .delta chainedUpdate)]

theorem recognised_brokenChain : ∀ r ∈ brokenChain, Recognised textDecoder r.1 r.2 := by
  have hbreak : utf8 breakText ≠ utf8 bookText := by decide
  have hchained : utf8 chainedText ≠ utf8 bookText ∧ utf8 chainedText ≠ utf8 breakText := by
    decide
  intro r hr
  simp only [brokenChain, List.mem_cons, List.not_mem_nil, or_false] at hr
  rcases hr with rfl | rfl | rfl
  · refine ⟨?_, ?_, rfl⟩
    · simp [isDelta, textDecoder, Json.get?]
    · simp [textDecoder]
  · refine ⟨?_, ?_, rfl, rfl⟩
    · simp [isDelta, textDecoder, deltaJson, Json.get?, hbreak]
    · simp [textDecoder]
  · refine ⟨?_, ?_, rfl, rfl⟩
    · simp [isDelta, textDecoder, deltaJson, Json.get?, hchained]
    · simp [textDecoder, hchained]

/-- The calls that store the three records. -/
def brokenChainCalls (key : StreamKey) : List StorageManager.Call :=
  brokenChain.map fun r => .append key 19675 19675 r.1

theorem gaps_reported_broken_chain :
    let key : StreamKey := ⟨"binance", "spot", "BTCUSDT", "orderbook_delta"⟩
    let storage := (StorageManager.run id (brokenChainCalls key)).flushAll id
    detect textDecoder some id storage key 1700000000000 1700000000002 =
        .ok ((scan textDecoder some).emitted (OrderBookTracker.new (D := ℚ) "replay")
          (brokenChain.map Prod.fst)) ∧
      ReportsBreaks textDecoder (D := ℚ) some (appliedId (D := ℚ) some) brokenChain := by
  intro key storage
  refine gaps_reported textDecoder some id storage key 1700000000000 1700000000002 ?_
    recognised_brokenChain
  decide +kernel

/-- The third record continues the second, which carries the id `6`, and is reported as a gap
    behind the snapshot. -/
theorem not_reportsBreaks_of_broken_chain :
    (∀ r ∈ brokenChain, Recognised textDecoder r.1 r.2) ∧
      ¬ ReportsBreaks textDecoder (D := ℚ) some nearestId brokenChain := by
  refine ⟨recognised_brokenChain, fun h => ?_⟩
  have hreports : ReportsBreaks textDecoder (D := ℚ) some (appliedId (D := ℚ) some) brokenChain :=
    reportsBreaks recognised_brokenChain
  have hreported := (hreports (brokenChain.take 2) (brokenChain.getLast (by decide)) [] rfl
    ⟨1700000000002, 1, 6⟩).mpr ⟨chainedUpdate, 1, 6, rfl, rfl, rfl, by decide, rfl⟩
  obtain ⟨delta, expected, got, hdelta, hgot, hnearest, hne, -⟩ :=
    (h (brokenChain.take 2) (brokenChain.getLast (by decide)) [] rfl _).mp hreported
  cases hdelta
  cases hgot
  cases hnearest
  exact hne rfl

end GapDetector

end Digdigdig3.Cure
