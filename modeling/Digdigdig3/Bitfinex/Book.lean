import Digdigdig3.Core.Json
import Digdigdig3.Lib.Runs
import Digdigdig3.Orderbook

/-!
# Bitfinex `book` frames

`parse_book_frame` (`bitfinex/protocol.rs` lines 538–570) turns the data frames of a `book`
channel into order book deltas. The parser behind it (`bitfinex/parser.rs` lines 665–703)
reads a list of levels only and drops every level with `COUNT = 0`, so neither single
updates nor deletions become events. The wall-clock stamp of a delta is left out.

Results:
* `parseBookFrame_snapshot`, `parseBookFrame_update`: what becomes of a frame.
* `snapshot_iff`: what dropping the deletions of a snapshot changes.
* `book_inStep_iff`: the local book stays in step exactly when the server's book does not
  change after the snapshot.
-/

namespace Digdigdig3.Bitfinex

/-! ## The parser -/

/-- `OrderBookLevel` with the order count (`core/types/market_data.rs` lines 219–243). -/
structure BookLevel extends OrderBookLevel ℚ where
  orderCount : ℕ
  deriving DecidableEq

/-- The sides of an `OrderbookDelta` (`core/types/market_data.rs` lines 351–365); the ids and
    the checksum are `None` in a Bitfinex delta. -/
structure BookDelta where
  bids : List BookLevel
  asks : List BookLevel
  deriving DecidableEq

/-- The errors of `parse_book_frame`. -/
inductive FrameError
  | parse (text : String)
  | fieldAbsent (text : String)
  deriving DecidableEq

/-- `require_f64` (`parser.rs` lines 58–72). -/
def requireF64 (level : List Json) (index : ℕ) : Except String ℚ :=
  match (level[index]?).bind Json.asF64 with
  | some q => .ok q
  | none => .error s!"Missing f64 at index {index}"

/-- `get_i64` (`parser.rs` lines 86–88). -/
def getI64 (level : List Json) (index : ℕ) : Option ℤ := (level[index]?).bind Json.asI64

/-- `count as u32`. -/
def asU32 (count : ℤ) : ℕ := (count % 2 ^ 32).toNat

/-- The loop body of `parse_ws_orderbook_delta` (lines 669–688): the side (`true` for a bid)
    and the level of an entry, `none` for an entry that is skipped. -/
def parseEntry (entry : Json) : Except String (Option (Bool × BookLevel)) :=
  match entry.asArray with
  | none => .ok none
  | some level =>
    if level.length < 3 then .ok none
    else do
      let price ← requireF64 level 0
      let count := (getI64 level 1).getD 0
      let amount ← requireF64 level 2
      if 0 < count then
        if 0 < amount then
          return some (true, { price := price, size := amount, orderCount := asU32 count })
        else return some (false, { price := price, size := |amount|, orderCount := asU32 count })
      else return none

/-- `parse_ws_orderbook_delta` (lines 665–703). -/
def parseWsOrderbookDelta (delta : BookDelta) : List Json → Except String BookDelta
  | [] => .ok delta
  | entry :: data =>
    match parseEntry entry with
    | .error e => .error e
    | .ok none => parseWsOrderbookDelta delta data
    | .ok (some (true, level)) =>
      parseWsOrderbookDelta { delta with bids := delta.bids ++ [level] } data
    | .ok (some (false, level)) =>
      parseWsOrderbookDelta { delta with asks := delta.asks ++ [level] } data

/-- `parse_book_frame` (`protocol.rs` lines 538–570); `symbol` is the content of the
    thread-local symbol. -/
def parseBookFrame (symbol : String) (raw : Json) : Except FrameError (String × BookDelta) :=
  match raw.asArray with
  | none => .error (.parse "bitfinex book: expected array")
  | some arr =>
    if arr.length < 2 then .error (.fieldAbsent "book data")
    else
      match (arr[1]?).bind Json.asArray with
      | none => .error (.fieldAbsent "book data[1] not array")
      | some data =>
        match parseWsOrderbookDelta ⟨[], []⟩ data with
        | .error e => .error (.parse ("bitfinex book: " ++ e))
        | .ok delta =>
          if delta.bids = [] ∧ delta.asks = [] then
            .error (.fieldAbsent "bitfinex book: pure-remove delta suppressed")
          else .ok (symbol, delta)

/-! ## The channel -/

/-- A number as it stands in a frame. -/
inductive Number
  | int (n : ℤ)
  | float (q : ℚ)

/-- The value of a number. -/
def Number.value : Number → ℚ
  | int n => n
  | float q => q

/-- The JSON of a number. -/
def Number.json : Number → Json
  | int n => .int n
  | float q => .float q

/-- `[PRICE, COUNT, AMOUNT]`: the sign of `AMOUNT` gives the side. -/
structure Entry where
  price : Number
  count : ℕ
  amount : Number
  count_lt : count < 2 ^ 63
  amount_ne : amount.value ≠ 0

namespace Entry

/-- The JSON of an entry. -/
def json (e : Entry) : Json := .arr [e.price.json, .int e.count, e.amount.json]

/-- The entry is about the bids. -/
def isBid (e : Entry) : Bool := decide (0 < e.amount.value)

/-- What the entry writes at its price: the amount, or a deletion. -/
def write (e : Entry) : ℚ × Option ℚ :=
  (e.price.value, if e.count = 0 then none else some |e.amount.value|)

/-- The level of an entry with `COUNT > 0`. -/
def level (e : Entry) : BookLevel :=
  { price := e.price.value, size := |e.amount.value|, orderCount := asU32 e.count }

end Entry

/-- The frames of a `book` channel after the snapshot. -/
inductive BookFrame
  | update (e : Entry)
  | heartbeat

/-- The JSON of a snapshot. -/
def snapshotJson (chanId : ℕ) (entries : List Entry) : Json :=
  .arr [.int chanId, .arr (entries.map Entry.json)]

/-- The JSON of a later frame. -/
def BookFrame.json (chanId : ℕ) : BookFrame → Json
  | update e => .arr [.int chanId, e.json]
  | heartbeat => .arr [.int chanId, .str "hb"]

/-- Both sides of a book. -/
@[ext]
structure Book where
  bids : Side ℚ
  asks : Side ℚ

namespace Book

/-- One side of a book. -/
def side (book : Book) (bid : Bool) : Side ℚ := if bid then book.bids else book.asks

/-- An empty book. -/
def empty : Book := ⟨∅, ∅⟩

/-- The server's book after an entry: `COUNT > 0` sets the level, `COUNT = 0` deletes it. -/
def applyEntry (book : Book) (e : Entry) : Book :=
  if e.isBid then { book with bids := applyWrite book.bids e.write }
  else { book with asks := applyWrite book.asks e.write }

/-- The server's book after a frame. -/
def serve (book : Book) : BookFrame → Book
  | .update e => book.applyEntry e
  | .heartbeat => book

/-- The local book after a delta, each level written as `OrderBookTracker::apply_delta` does. -/
def applyDelta (book : Book) (delta : BookDelta) : Book :=
  { bids := delta.bids.foldl
      (fun side l => OrderBookTracker.setLevel side l.price l.size) book.bids
    asks := delta.asks.foldl
      (fun side l => OrderBookTracker.setLevel side l.price l.size) book.asks }

/-- The local book after the event of a frame, if there is one. -/
def receive (symbol : String) (book : Book) (raw : Json) : Book :=
  match parseBookFrame symbol raw with
  | .ok (_, delta) => book.applyDelta delta
  | .error _ => book

end Book

/-- The server's book after the snapshot and later frames. -/
def serverBook (snapshot : List Entry) (frames : List BookFrame) : Book :=
  frames.foldl Book.serve (snapshot.foldl Book.applyEntry .empty)

/-- The local book after the snapshot and later frames. -/
def localBook (symbol : String) (chanId : ℕ) (snapshot : List Entry) (frames : List BookFrame) :
    Book :=
  (frames.map (·.json chanId)).foldl (Book.receive symbol)
    (Book.receive symbol .empty (snapshotJson chanId snapshot))

/-! ## What becomes of a frame -/

section Frames

variable {symbol : String} {chanId : ℕ} {e : Entry} {entries : List Entry} {delta : BookDelta}

theorem asF64_json (n : Number) : n.json.asF64 = some n.value := by
  cases n <;> rfl

theorem asI64_count (e : Entry) : (Json.int e.count).asI64 = some (e.count : ℤ) := by
  have hlt := e.count_lt
  rw [Json.asI64, if_pos (by omega)]

theorem parseEntry_json (e : Entry) : parseEntry e.json =
    .ok (if e.count = 0 then none else some (e.isBid, e.level)) := by
  have hcount := asI64_count e
  have hprice : requireF64 [e.price.json, .int e.count, e.amount.json] 0 = .ok e.price.value := by
    simp [requireF64, asF64_json]
  have hamount : requireF64 [e.price.json, .int e.count, e.amount.json] 2 = .ok e.amount.value := by
    simp [requireF64, asF64_json]
  have hget : (getI64 [e.price.json, .int e.count, e.amount.json] 1).getD 0 = e.count := by
    rw [getI64]
    show ((Json.int e.count).asI64).getD 0 = e.count
    rw [hcount, Option.getD_some]
  have hlen : ¬ [e.price.json, Json.int e.count, e.amount.json].length < 3 := by simp
  simp only [parseEntry, Entry.json, Json.asArray_arr, if_neg hlen, hprice, hamount, hget,
    bind, Except.bind, pure, Except.pure]
  by_cases hzero : e.count = 0
  · have hneg : ¬ (0 : ℤ) < e.count := by omega
    rw [if_neg hneg, if_pos hzero]
  · have hpos : (0 : ℤ) < e.count := by omega
    by_cases hbid : 0 < e.amount.value
    · simp only [hzero, hpos, hbid, Entry.isBid, Entry.level, abs_of_pos hbid, decide_true,
        if_true, if_false]
    · simp only [hzero, hpos, hbid, Entry.isBid, Entry.level, decide_false, if_true,
        if_false]

/-- The parser collects the levels with `COUNT > 0` of either side. -/
theorem parseWsOrderbookDelta_json (delta : BookDelta) (entries : List Entry) :
    parseWsOrderbookDelta delta (entries.map Entry.json) =
      .ok { bids := delta.bids ++
              ((entries.filter fun e => e.count ≠ 0 ∧ e.isBid).map Entry.level)
            asks := delta.asks ++
              ((entries.filter fun e => e.count ≠ 0 ∧ ¬ e.isBid).map Entry.level) } := by
  induction entries generalizing delta with
  | nil => simp [parseWsOrderbookDelta]
  | cons e entries ih =>
    rw [List.map_cons, parseWsOrderbookDelta, parseEntry_json]
    by_cases hzero : e.count = 0
    · simp only [hzero, if_true]
      rw [ih]
      simp [hzero]
    · cases hbid : e.isBid with
      | true =>
        simp only [hzero, if_false]
        rw [ih]
        simp [hzero, hbid]
      | false =>
        simp only [hzero, if_false]
        rw [ih]
        simp [hzero, hbid]

theorem parseBookFrame_snapshot (symbol : String) (chanId : ℕ) (entries : List Entry) :
    parseBookFrame symbol (snapshotJson chanId entries) =
      if (entries.filter fun e => e.count ≠ 0) = [] then
        .error (.fieldAbsent "bitfinex book: pure-remove delta suppressed")
      else .ok (symbol,
        { bids := (entries.filter fun e => e.count ≠ 0 ∧ e.isBid).map Entry.level
          asks := (entries.filter fun e => e.count ≠ 0 ∧ ¬ e.isBid).map Entry.level }) := by
  simp only [parseBookFrame, snapshotJson, Json.asArray_arr, List.length_cons, List.length_nil]
  rw [if_neg (by omega)]
  simp only [List.getElem?_cons_succ, List.getElem?_cons_zero, Option.bind_some,
    Json.asArray_arr, parseWsOrderbookDelta_json, List.nil_append]
  refine if_congr ?_ rfl rfl
  simp only [List.map_eq_nil_iff, List.filter_eq_nil_iff]
  constructor
  · rintro ⟨hbids, hasks⟩ e he hne
    cases hbid : e.isBid with
    | true => exact hbids e he (by simpa [hbid] using hne)
    | false => exact hasks e he (by simpa [hbid] using hne)
  · intro h
    exact ⟨fun e he hne => h e he (by simp_all), fun e he hne => h e he (by simp_all)⟩

/-- A single update is read as a list of levels, none of which is one: no event. -/
theorem parseBookFrame_update (symbol : String) (chanId : ℕ) (e : Entry) :
    parseBookFrame symbol ((BookFrame.update e).json chanId) =
      .error (.fieldAbsent "bitfinex book: pure-remove delta suppressed") := by
  have hskip : ∀ n : Number, parseEntry n.json = .ok none := by
    intro n
    cases n <;> rfl
  have hcount : parseEntry (.int e.count) = .ok none := rfl
  simp [parseBookFrame, BookFrame.json, Entry.json, parseWsOrderbookDelta, hskip, hcount]

theorem parseBookFrame_heartbeat (symbol : String) (chanId : ℕ) :
    parseBookFrame symbol (BookFrame.heartbeat.json chanId) =
      .error (.fieldAbsent "book data[1] not array") := by
  simp [parseBookFrame, BookFrame.json]

/-- No frame after the snapshot changes the local book. -/
theorem receive_json (symbol : String) (chanId : ℕ) (book : Book) (frame : BookFrame) :
    book.receive symbol (frame.json chanId) = book := by
  cases frame with
  | update e => rw [Book.receive, parseBookFrame_update]
  | heartbeat => rw [Book.receive, parseBookFrame_heartbeat]

theorem localBook_eq (symbol : String) (chanId : ℕ) (snapshot : List Entry)
    (frames : List BookFrame) :
    localBook symbol chanId snapshot frames =
      Book.receive symbol .empty (snapshotJson chanId snapshot) := by
  rw [localBook]
  generalize Book.receive symbol .empty (snapshotJson chanId snapshot) = book
  induction frames with
  | nil => rfl
  | cons frame frames ih => rw [List.map_cons, List.foldl_cons, receive_json, ih]

end Frames

/-! ## Both books as writes -/

/-- The writes of the entries to one side. -/
def writesTo (bid : Bool) (entries : List Entry) : List (ℚ × Option ℚ) :=
  (entries.filter (·.isBid = bid)).map Entry.write

/-- The entries that set a level. -/
def sets (entries : List Entry) : List Entry := entries.filter fun e => e.count ≠ 0

section Writes

variable {symbol : String} {chanId : ℕ} {book book' : Book} {e : Entry} {snapshot : List Entry}
  {frames : List BookFrame} {frame : BookFrame}

theorem Book.ext_side (h : ∀ bid, book.side bid = book'.side bid) : book = book' :=
  Book.ext (h true) (h false)

theorem side_applyEntry (book : Book) (e : Entry) (bid : Bool) :
    (book.applyEntry e).side bid =
      if e.isBid = bid then applyWrite (book.side bid) e.write else book.side bid := by
  cases bid <;> cases h : e.isBid <;> simp [Book.applyEntry, Book.side, h]

theorem side_foldl_applyEntry (book : Book) (entries : List Entry) (bid : Bool) :
    (entries.foldl Book.applyEntry book).side bid =
      applyWrites (book.side bid) (writesTo bid entries) := by
  induction entries generalizing book with
  | nil => rfl
  | cons e entries ih =>
    rw [List.foldl_cons, ih, side_applyEntry]
    by_cases h : e.isBid = bid
    · simp [writesTo, h, applyWrites]
    · simp [writesTo, h]

/-- Writing the levels of entries that set one is performing their writes. -/
theorem foldl_setLevel (side : Side ℚ) (entries : List Entry) (h : ∀ e ∈ entries, e.count ≠ 0) :
    (entries.map Entry.level).foldl (fun side l => OrderBookTracker.setLevel side l.price l.size)
      side = applyWrites side (entries.map Entry.write) := by
  induction entries generalizing side with
  | nil => rfl
  | cons e entries ih =>
    have hne : |e.amount.value| ≠ 0 := abs_ne_zero.mpr e.amount_ne
    have hstep : OrderBookTracker.setLevel side e.level.price e.level.size =
        applyWrite side e.write := by
      simp [OrderBookTracker.setLevel, applyWrite, Entry.level, Entry.write, hne, h e (by simp)]
    rw [List.map_cons, List.foldl_cons, hstep, ih _ fun e he => h e (List.mem_cons_of_mem _ he)]
    rfl

/-- The local book after the snapshot holds the levels that the snapshot sets. -/
theorem side_receive_snapshot (symbol : String) (chanId : ℕ) (snapshot : List Entry) (bid : Bool) :
    (Book.receive symbol .empty (snapshotJson chanId snapshot)).side bid =
      applyWrites ∅ (writesTo bid (sets snapshot)) := by
  rw [Book.receive, parseBookFrame_snapshot]
  have hsplit : ∀ b : Bool, (sets snapshot).filter (·.isBid = b) =
      snapshot.filter fun e => e.count ≠ 0 ∧ e.isBid = b := by
    intro b
    rw [sets, List.filter_filter]
    refine List.filter_congr fun e _ => ?_
    rw [Bool.decide_and, Bool.and_comm]
  by_cases hnil : snapshot.filter (fun e => e.count ≠ 0) = []
  · have hnone : writesTo bid (sets snapshot) = [] := by
      rw [writesTo, sets, hnil]
      rfl
    rw [if_pos hnil, hnone]
    cases bid <;> rfl
  · rw [if_neg hnil]
    have hcount : ∀ b : Bool, ∀ e ∈ (sets snapshot).filter (·.isBid = b), e.count ≠ 0 := by
      intro b e he
      simpa using (List.mem_filter.mp (List.mem_filter.mp he).1).2
    cases bid with
    | true =>
      have hfold := foldl_setLevel ∅ _ (hcount true)
      rw [hsplit] at hfold
      simp only [Book.applyDelta, Book.side, Book.empty, if_true]
      rw [writesTo, hsplit]
      exact hfold
    | false =>
      have hfold := foldl_setLevel ∅ _ (hcount false)
      rw [hsplit] at hfold
      simp only [Book.applyDelta, Book.side, Book.empty, Bool.false_eq_true, if_false,
        Bool.not_eq_true]
      rw [writesTo, hsplit]
      exact hfold

/-- Leaving out the deletions keeps the last write of a key if it is no deletion. -/
theorem lastWrite_sets (entries : List Entry) (bid : Bool) (price : ℚ) :
    lastWrite (writesTo bid (sets entries)) price =
        lastWrite (writesTo bid entries) price ∨
      lastWrite (writesTo bid entries) price = some none := by
  induction entries with
  | nil => exact .inl rfl
  | cons e entries ih =>
    by_cases hside : e.isBid = bid
    · have hwrites : writesTo bid (e :: entries) = e.write :: writesTo bid entries := by
        simp [writesTo, hside]
      rw [hwrites, lastWrite_cons]
      by_cases hzero : e.count = 0
      · have hsets : writesTo bid (sets (e :: entries)) = writesTo bid (sets entries) := by
          simp [sets, hzero]
        rw [hsets]
        rcases hlast : lastWrite (writesTo bid entries) price with _ | w
        · rcases ih with ih | ih
          · rw [ih, hlast, Option.none_or]
            by_cases hprice : e.write.1 = price
            · exact .inr (by rw [if_pos hprice, Entry.write, if_pos hzero])
            · exact .inl (by simp [hprice])
          · rw [hlast] at ih
            cases ih
        · rw [hlast] at ih
          exact ih
      · have hsets : writesTo bid (sets (e :: entries)) =
            e.write :: writesTo bid (sets entries) := by
          simp [sets, writesTo, hzero, hside]
        rw [hsets, lastWrite_cons]
        rcases ih with ih | ih
        · exact .inl (by rw [ih])
        · exact .inr (by rw [ih, Option.some_or])
    · have hwrites : writesTo bid (e :: entries) = writesTo bid entries := by
        simp [writesTo, hside]
      have hsets : writesTo bid (sets (e :: entries)) = writesTo bid (sets entries) := by
        by_cases hzero : e.count = 0 <;> simp [sets, writesTo, hzero, hside]
      rw [hwrites, hsets]
      exact ih

/-! ## The books in step -/

/-- The books are equal after the snapshot and after every later frame. -/
def InStep (symbol : String) (chanId : ℕ) (snapshot : List Entry) (frames : List BookFrame) :
    Prop :=
  ∀ pre, pre <+: frames → localBook symbol chanId snapshot pre = serverBook snapshot pre

/-- Every level that the snapshot sets is there when all its entries are applied. -/
def KeepsLevels (snapshot : List Entry) : Prop :=
  ∀ e ∈ snapshot, e.count ≠ 0 →
    ((serverBook snapshot []).side e.isBid)[e.price.value]? ≠ none

/-- The frame sets a level to the amount it has or deletes one that is not there. -/
def BookFrame.Idle (book : Book) : BookFrame → Prop
  | update e => (book.side e.isBid)[e.write.1]? = e.write.2
  | heartbeat => True

theorem serve_eq_self_iff : book.serve frame = book ↔ frame.Idle book := by
  cases frame with
  | heartbeat => exact iff_of_true rfl trivial
  | update e =>
    have hwrite : applyWrite (book.side e.isBid) e.write = book.side e.isBid ↔
        (book.side e.isBid)[e.write.1]? = e.write.2 := by
      have hself := applyWrites_eq_self_iff (book.side e.isBid) [e.write]
      rw [show applyWrites (book.side e.isBid) [e.write] =
        applyWrite (book.side e.isBid) e.write from rfl] at hself
      rw [hself]
      constructor
      · intro h
        exact h e.write.1 e.write.2 (by simp [lastWrite_cons])
      · rintro h k v hk
        rw [lastWrite_cons, lastWrite_nil, Option.none_or] at hk
        split_ifs at hk with hkey
        rw [← hkey, h, Option.some.inj hk]
    rw [BookFrame.Idle, ← hwrite]
    constructor
    · intro h
      have hside := side_applyEntry book e e.isBid
      rw [if_pos rfl] at hside
      rw [← hside]
      exact congrArg (·.side e.isBid) h
    · intro h
      refine Book.ext_side fun bid => ?_
      show (book.applyEntry e).side bid = _
      rw [side_applyEntry]
      split_ifs with hbid
      · rw [← hbid, h]
      · rfl

/-- The books agree after the snapshot exactly when no level that it sets is deleted by it. -/
theorem snapshot_iff : localBook symbol chanId snapshot [] = serverBook snapshot [] ↔
    KeepsLevels snapshot := by
  have hlocal : ∀ bid (price : ℚ), ((localBook symbol chanId snapshot []).side bid)[price]? =
      (lastWrite (writesTo bid (sets snapshot)) price).getD none := by
    intro bid price
    rw [localBook_eq, side_receive_snapshot, getElem?_applyWrites]
    simp
  have hserver : ∀ bid (price : ℚ), ((serverBook snapshot []).side bid)[price]? =
      (lastWrite (writesTo bid snapshot) price).getD none := by
    intro bid price
    have hempty : Book.empty.side bid = ∅ := by cases bid <;> rfl
    show ((snapshot.foldl Book.applyEntry .empty).side bid)[price]? = _
    rw [side_foldl_applyEntry, getElem?_applyWrites, hempty]
    simp
  -- a write that is left in has an entry that sets a level
  have hset : ∀ bid price v, lastWrite (writesTo bid (sets snapshot)) price = some v →
      ∃ e ∈ snapshot, e.count ≠ 0 ∧ e.isBid = bid ∧ e.price.value = price ∧ v ≠ none := by
    intro bid price v hlast
    obtain ⟨e, he, heq⟩ := List.mem_map.mp (lastWrite_mem hlast)
    obtain ⟨hsets, hbid⟩ := List.mem_filter.mp he
    obtain ⟨hmem, hcount⟩ := List.mem_filter.mp hsets
    have hcount' : e.count ≠ 0 := by simpa using hcount
    obtain ⟨hprice, hv⟩ := Prod.mk.inj heq
    exact ⟨e, hmem, hcount', by simpa using hbid, hprice, by simp [← hv, hcount']⟩
  constructor
  · intro h e he hcount
    rw [← h, hlocal]
    have hmem : e.write ∈ writesTo e.isBid (sets snapshot) :=
      List.mem_map_of_mem (List.mem_filter.mpr ⟨List.mem_filter.mpr ⟨he, by simpa using hcount⟩,
        by simp⟩)
    obtain ⟨v, hv⟩ := exists_lastWrite_of_mem hmem
    obtain ⟨-, -, -, -, -, hne⟩ := hset _ _ _ hv
    rw [show e.price.value = e.write.1 from rfl, hv]
    exact hne
  · intro h
    refine Book.ext_side fun bid => Std.ExtTreeMap.ext_getElem? fun price => ?_
    rw [hlocal, hserver]
    rcases lastWrite_sets snapshot bid price with heq | hdelete
    · rw [heq]
    · rw [hdelete]
      rcases hlast : lastWrite (writesTo bid (sets snapshot)) price with _ | v
      · rfl
      · obtain ⟨e, he, hcount, rfl, rfl, -⟩ := hset bid price v hlast
        have hkept := h e he hcount
        rw [hserver, hdelete] at hkept
        exact absurd rfl hkept

/-- **Main theorem.** The local book is in step with the server's exactly when the snapshot
    deletes none of the levels it sets and every later update finds the server's book as it
    would leave it: the events never change the local book after the snapshot. -/
theorem book_inStep_iff (symbol : String) (chanId : ℕ) (snapshot : List Entry)
    (frames : List BookFrame) :
    InStep symbol chanId snapshot frames ↔ KeepsLevels snapshot ∧
      ∀ pre frame, pre ++ [frame] <+: frames → frame.Idle (serverBook snapshot pre) := by
  have hconst : ∀ pre, localBook symbol chanId snapshot pre = localBook symbol chanId snapshot [] :=
    fun pre => (localBook_eq _ _ _ _).trans (localBook_eq _ _ _ _).symm
  have hserve : ∀ pre frame, serverBook snapshot (pre ++ [frame]) =
      (serverBook snapshot pre).serve frame := fun pre frame => List.foldl_concat _ _ _ _
  constructor
  · intro h
    refine ⟨snapshot_iff.mp (h [] (List.nil_prefix)), fun pre frame hpre => ?_⟩
    rw [← serve_eq_self_iff, ← hserve, ← h _ hpre,
      ← h pre ((List.prefix_append _ _).trans hpre), hconst, hconst pre]
  · rintro ⟨hkeeps, hidle⟩ pre hpre
    induction pre using List.reverseRecOn with
    | nil => exact snapshot_iff.mpr hkeeps
    | append_singleton pre frame ih =>
      rw [hserve, serve_eq_self_iff.mpr (hidle pre frame hpre),
        ← ih ((List.prefix_append _ _).trans hpre), hconst, hconst pre]

end Writes

/-- A snapshot with a bid of `1` at `100`, and an update that deletes it: the bid stays in the
    local book. -/
theorem not_inStep_of_deletion :
    ¬ InStep "tBTCUSD" 17
      [{ price := .int 100, count := 1, amount := .int 1, count_lt := by decide
         amount_ne := by decide }]
      [.update { price := .int 100, count := 0, amount := .int 1, count_lt := by decide
                 amount_ne := by decide }] := by
  intro h
  have hstep := h _ (List.prefix_refl _)
  have hbids := congrArg (fun book => (book.side true)[(100 : ℚ)]?) hstep
  rw [localBook_eq, side_receive_snapshot] at hbids
  exact absurd hbids (by decide +kernel)

end Digdigdig3.Bitfinex
