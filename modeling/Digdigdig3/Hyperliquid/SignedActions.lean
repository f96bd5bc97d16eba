import Digdigdig3.Hyperliquid.Actions

/-!
# What is signed and what is sent

The JSON of the L1 actions of Hyperliquid, beside the bytes that are hashed for their signatures
(`crates/digdigdig3/src/l3/open/crypto/dex/hyperliquid/auth.rs`).

* `signed_is_sent_iff`: when the signed bytes decode to the action that is sent.
* `order_signed_not_sent`: an order that is sent with a field that was not signed.
* `preimage_eq_iff`: when two signing inputs are hashed as the same byte string.
* `cloids_encode_alike`: two orders that are.
-/

namespace Digdigdig3.Hyperliquid

open Msgpack (Value Fits toBe)

/-! ## The JSON that is sent -/

/-- The JSON of an order type (lines 887–898), with its keys in order. -/
def orderTypeJson : HlOrderType → Value
  | .limit tif => .object [("limit", .object [("tif", .str tif.asStr)])]
  | .trigger triggerPx isMarket tpsl =>
    .object [("trigger", .object [("isMarket", .bool isMarket), ("tpsl", .str tpsl),
      ("triggerPx", .str triggerPx)])]

/-- `cloid_json` (lines 900–903). -/
def cloidJson : Option String → Value
  | some c => .str c
  | none => .nil

/-- The JSON of an order (lines 905–913; the same in lines 715–723 and 757–765). -/
def orderJson (order : HlOrder String) : Value :=
  .object [("a", .int order.a.toNat), ("b", .bool order.b), ("c", cloidJson order.c),
    ("p", .str order.p), ("r", .bool order.r), ("s", .str order.s), ("t", orderTypeJson order.t)]

/-- `build_order_action_json` (lines 885–921). -/
def buildOrderActionJson (orders : List (HlOrder String)) (grouping : String) : Value :=
  .object [("grouping", .str grouping), ("orders", .array (orders.map orderJson)),
    ("type", .str "order")]

/-- `build_cancel_action_json` (lines 923–932). -/
def buildCancelActionJson (cancels : List (UInt32 × UInt64)) : Value :=
  .object [("cancels", .array (cancels.map fun cancel =>
    .object [("a", .int cancel.1.toNat), ("o", .int cancel.2.toNat)])), ("type", .str "cancel")]

/-- The `action` of the request of each signer (lines 657–871). -/
def actionJson : L1Action String → Value
  | .order orders grouping => buildOrderActionJson orders grouping
  | .cancel cancels => buildCancelActionJson cancels
  | .modify oid order =>
    .object [("oid", .int oid.toNat), ("order", orderJson order), ("type", .str "modify")]
  | .batchModify modifies =>
    .object [("modifies", .array (modifies.map fun modify =>
      .object [("oid", .int modify.1.toNat), ("order", orderJson modify.2)])),
      ("type", .str "batchModify")]
  | .updateLeverage asset isCross leverage =>
    .object [("asset", .int asset.toNat), ("isCross", .bool isCross),
      ("leverage", .int leverage.toNat), ("type", .str "updateLeverage")]
  | .updateIsolatedMargin asset isBuy ntli =>
    .object [("asset", .int asset.toNat), ("isBuy", .bool isBuy), ("ntli", .int ntli.toInt),
      ("type", .str "updateIsolatedMargin")]
  | .twapOrder asset isBuy size reduceOnly durationMinutes =>
    .object [("twap", .object [("a", .int asset.toNat), ("b", .bool isBuy),
      ("m", .int durationMinutes.toNat), ("r", .bool reduceOnly), ("s", .str size)]),
      ("type", .str "twapOrder")]
  | .usdClassTransfer amount toPerp =>
    .object [("amount", .str amount), ("toPerp", .bool toPerp), ("type", .str "usdClassTransfer")]

/-- `SignatureComponents` (lines 533–542). -/
structure SignatureComponents where
  r : String
  s : String
  v : UInt8

/-- An address: 20 bytes. -/
abbrev Address := {bs : Bytes // bs.length = 20}

/-- A lower-case hexadecimal digit. -/
def hexChar (n : ℕ) : Char := if n < 10 then Char.ofNat (48 + n) else Char.ofNat (87 + n)

/-- `hex::encode`. -/
def hexEncode (bs : Bytes) : List Char :=
  bs.flatMap fun b => [hexChar (b.val / 16), hexChar (b.val % 16)]

/-- `build_exchange_request` (lines 934–955). -/
def buildExchangeRequest (action : Value) (nonce : UInt64) (sig : SignatureComponents)
    (vault : Option Address) : Value :=
  .object [("action", action), ("nonce", .int nonce.toNat),
    ("signature", .object [("r", .str sig.r), ("s", .str sig.s), ("v", .int sig.v.toNat)]),
    ("vaultAddress", match vault with
      | some address => .str (String.ofList ('0' :: 'x' :: hexEncode address.val))
      | none => .nil)]

/-- A signed action (lines 657–871): the bytes are signed with the nonce and the vault, and the JSON
    is sent. -/
def signAction (signL1Action : Bytes → UInt64 → Option Address → Option SignatureComponents)
    (action : L1Action String) (nonce : UInt64) (vault : Option Address) : Option Value :=
  (signL1Action (msgpackAction action) nonce vault).map fun sig =>
    buildExchangeRequest (actionJson action) nonce sig vault

/-- A field of an object. -/
def field? (key : String) : Value → Option Value
  | .object fields => fields.lookup key
  | _ => none

/-- The vault flag and the address (lines 487–492). -/
def vaultBytes : Option Address → Bytes
  | some address => byteOf 1 :: address.val
  | none => [byteOf 0]

/-- The byte string that `compute_connection_id` hashes (lines 483–494). -/
def connectionPreimage (actionBytes : Bytes) (nonce : UInt64) (vault : Option Address) : Bytes :=
  actionBytes ++ toBe 8 nonce.toNat ++ vaultBytes vault

/-! ## Sizes -/

/-- A text of fewer than `2^32` bytes. -/
def SmallStr (s : String) : Prop := (utf8 s).length < 2 ^ 32

instance (s : String) : Decidable (SmallStr s) := inferInstanceAs (Decidable (_ < _))

def HlOrderType.Small : HlOrderType → Prop
  | .limit _ => True
  | .trigger triggerPx _ tpsl => SmallStr triggerPx ∧ SmallStr tpsl

/-- Texts below `2^32` bytes. -/
def HlOrder.Small (order : HlOrder String) : Prop :=
  SmallStr order.p ∧ SmallStr order.s ∧ order.t.Small ∧
    ∀ cloid, order.c = some cloid → SmallStr cloid

/-- Texts below `2^32` bytes, and lists below `2^32` items. -/
def L1Action.Small : L1Action String → Prop
  | .order orders grouping =>
    SmallStr grouping ∧ orders.length < 2 ^ 32 ∧ ∀ o ∈ orders, o.Small
  | .cancel cancels => cancels.length < 2 ^ 32
  | .modify _ o => o.Small
  | .batchModify modifies => modifies.length < 2 ^ 32 ∧ ∀ modify ∈ modifies, modify.2.Small
  | .twapOrder _ _ size _ _ => SmallStr size
  | .usdClassTransfer amount _ => SmallStr amount
  | _ => True

/-- No order is in the action, and its texts and lists are small. -/
def L1Action.SentAsSigned : L1Action String → Prop
  | .order orders grouping => orders = [] ∧ SmallStr grouping
  | .cancel cancels => cancels.length < 2 ^ 32
  | .modify _ _ => False
  | .batchModify modifies => modifies = []
  | .twapOrder _ _ size _ _ => SmallStr size
  | .usdClassTransfer amount _ => SmallStr amount
  | _ => True

/-! ## Values that can be encoded -/

/-- The keys of the actions, and the names of their types. -/
def actionWords : List String :=
  ["a", "b", "c", "m", "o", "p", "r", "s", "t", "grouping", "orders", "type", "limit", "tif",
    "trigger", "isMarket", "tpsl", "triggerPx", "cancels", "oid", "order", "modifies", "asset",
    "isCross", "leverage", "isBuy", "ntli", "amount", "toPerp", "twap", "cancel", "modify",
    "batchModify", "updateLeverage", "updateIsolatedMargin", "twapOrder", "usdClassTransfer",
    "Gtc", "Alo", "Ioc", "Fok"]

theorem smallStr_of_mem_actionWords {word : String} (h : word ∈ actionWords) : SmallStr word := by
  have hall : actionWords.all (fun word => decide (SmallStr word)) = true := by decide
  exact of_decide_eq_true (List.all_eq_true.mp hall word h)

theorem fits_word {word : String} (h : word ∈ actionWords) : Fits (.str word) :=
  .str (smallStr_of_mem_actionWords h)

theorem fits_object {fields : List (String × Value)} (hlen : fields.length < 2 ^ 32)
    (hkeys : ∀ field ∈ fields, field.1 ∈ actionWords) (hvalues : ∀ field ∈ fields, Fits field.2) :
    Fits (.object fields) :=
  .object hlen (fun field hfield => smallStr_of_mem_actionWords (hkeys field hfield)) hvalues

theorem fits_u32 (n : UInt32) : Fits (.int n.toNat) := by
  have hlt := n.toNat_lt
  exact .int (by omega) (by omega)

theorem fits_u64 (n : UInt64) : Fits (.int n.toNat) := by
  have hlt := n.toNat_lt
  exact .int (by omega) (by omega)

theorem fits_i64 (n : Int64) : Fits (.int n.toInt) := by
  have hlow := n.le_toInt
  have hhigh := n.toInt_lt
  exact .int (by omega) (by omega)

theorem fits_orderType {t : HlOrderType} (h : t.Small) : Fits (orderTypeValue t) := by
  cases t with
  | limit tif =>
    have htif : Fits (.object [("tif", .str tif.asStr)]) := by
      refine fits_object (by simp) (by simp [actionWords]) ?_
      rw [List.forall_mem_singleton]
      exact fits_word (by cases tif <;> simp [HlTif.asStr, actionWords])
    refine fits_object (by simp) (by simp [actionWords]) ?_
    rw [List.forall_mem_singleton]
    exact htif
  | trigger triggerPx isMarket tpsl =>
    have hinner : Fits (.object [("isMarket", .bool isMarket), ("tpsl", .str tpsl),
        ("triggerPx", .str triggerPx)]) := by
      refine fits_object (by simp) (by simp [actionWords]) ?_
      simp only [List.forall_mem_cons]
      exact ⟨.bool _, .str h.2, .str h.1, by simp⟩
    refine fits_object (by simp) (by simp [actionWords]) ?_
    rw [List.forall_mem_singleton]
    exact hinner

/-! ### Client order ids -/

theorem length_trimStart0x_le (cs : List Char) : (trimStart0x cs).length ≤ cs.length := by
  fun_induction trimStart0x cs with
  | case1 cs ih =>
    simp only [List.length_cons]
    omega
  | case2 cs => exact Nat.le_refl _

theorem length_hexDecode_le {cs : List Char} {bs : Bytes} (h : hexDecode cs = some bs) :
    bs.length ≤ cs.length := by
  fun_induction hexDecode cs generalizing bs with
  | case1 =>
    cases h
    exact Nat.le_refl _
  | case2 => cases h
  | case3 c d cs ih =>
    simp only [Option.bind_eq_bind, Option.bind_eq_some_iff, Option.pure_def,
      Option.some.injEq] at h
    obtain ⟨high, -, low, -, rest, hrest, rfl⟩ := h
    have hle := ih hrest
    simp only [List.length_cons]
    omega

theorem length_toList_le_utf8 (s : String) : s.toList.length ≤ (utf8 s).length := by
  have hpieces := length_pieces_le (utf8 s)
  rwa [pieces_utf8, List.length_map] at hpieces

theorem fits_cloid {cloid : String} (h : SmallStr cloid) :
    Fits (cloidValue (cloidBytes cloid)) := by
  cases hbytes : cloidBytes cloid with
  | none => exact .nil
  | some bs =>
    have h1 := length_hexDecode_le hbytes
    have h2 := length_trimStart0x_le cloid.toList
    have h3 := length_toList_le_utf8 cloid
    have h4 : (utf8 cloid).length < 2 ^ 32 := h
    exact .bin (by omega)

theorem fits_order {order : HlOrder String} (h : order.Small) :
    Fits (orderValue (order.mapCloid cloidBytes)) := by
  obtain ⟨hp, hs, ht, hc⟩ := h
  obtain ⟨a, b, p, s, r, t, c⟩ := order
  cases c with
  | none =>
    refine fits_object (by simp [HlOrder.mapCloid]) (by simp [HlOrder.mapCloid, actionWords]) ?_
    simp only [HlOrder.mapCloid, Option.map_none, Option.toList_none, List.append_nil,
      List.cons_append, List.nil_append, List.forall_mem_cons]
    exact ⟨fits_u32 a, .bool b, .str hp, .bool r, .str hs, fits_orderType ht, by simp⟩
  | some cloid =>
    refine fits_object (by simp [HlOrder.mapCloid]) (by simp [HlOrder.mapCloid, actionWords]) ?_
    simp only [HlOrder.mapCloid, Option.map_some, Option.toList_some, List.cons_append,
      List.nil_append, List.forall_mem_cons]
    exact ⟨fits_u32 a, .bool b, fits_cloid (hc cloid rfl), .str hp, .bool r, .str hs,
      fits_orderType ht, by simp⟩

/-- The value of an action with small texts and lists can be encoded. -/
theorem fits_action {action : L1Action String} (h : action.Small) :
    Fits (actionValue (action.mapCloid cloidBytes)) := by
  cases action with
  | order orders grouping =>
    obtain ⟨hgrouping, hlen, horders⟩ := h
    refine fits_object (by simp) (by simp [actionWords]) ?_
    simp only [List.forall_mem_cons]
    refine ⟨.str hgrouping, .array (by simpa using hlen) ?_, fits_word (by simp [actionWords]),
      by simp⟩
    simp only [List.forall_mem_map]
    exact fun order horder => fits_order (horders order horder)
  | cancel cancels =>
    have hlen : cancels.length < 2 ^ 32 := h
    refine fits_object (by simp) (by simp [actionWords]) ?_
    simp only [List.forall_mem_cons]
    refine ⟨.array (by simpa using hlen) ?_, fits_word (by simp [actionWords]), by simp⟩
    simp only [List.forall_mem_map]
    intro cancel _
    refine fits_object (by simp) (by simp [actionWords]) ?_
    simp only [List.forall_mem_cons]
    exact ⟨fits_u32 cancel.1, fits_u64 cancel.2, by simp⟩
  | modify oid order =>
    refine fits_object (by simp) (by simp [actionWords]) ?_
    simp only [List.forall_mem_cons]
    exact ⟨fits_u64 oid, fits_order h, fits_word (by simp [actionWords]), by simp⟩
  | batchModify modifies =>
    obtain ⟨hlen, hmodifies⟩ := h
    refine fits_object (by simp) (by simp [actionWords]) ?_
    simp only [List.forall_mem_cons]
    refine ⟨.array (by simpa using hlen) ?_, fits_word (by simp [actionWords]), by simp⟩
    simp only [List.forall_mem_map]
    intro modify hmodify
    refine fits_object (by simp) (by simp [actionWords]) ?_
    simp only [List.forall_mem_cons]
    exact ⟨fits_u64 modify.1, fits_order (hmodifies modify hmodify), by simp⟩
  | updateLeverage asset isCross leverage =>
    refine fits_object (by simp) (by simp [actionWords]) ?_
    simp only [List.forall_mem_cons]
    exact ⟨fits_u32 asset, .bool _, fits_u32 leverage, fits_word (by simp [actionWords]), by simp⟩
  | updateIsolatedMargin asset isBuy ntli =>
    refine fits_object (by simp) (by simp [actionWords]) ?_
    simp only [List.forall_mem_cons]
    exact ⟨fits_u32 asset, .bool _, fits_i64 ntli, fits_word (by simp [actionWords]), by simp⟩
  | twapOrder asset isBuy size reduceOnly durationMinutes =>
    have hinner : Fits (.object [("a", .int asset.toNat), ("b", .bool isBuy),
        ("m", .int durationMinutes.toNat), ("r", .bool reduceOnly), ("s", .str size)]) := by
      refine fits_object (by simp) (by simp [actionWords]) ?_
      simp only [List.forall_mem_cons]
      exact ⟨fits_u32 asset, .bool _, fits_u64 durationMinutes, .bool _, .str h, by simp⟩
    refine fits_object (by simp) (by simp [actionWords]) ?_
    simp only [List.forall_mem_cons]
    exact ⟨hinner, fits_word (by simp [actionWords]), by simp⟩
  | usdClassTransfer amount toPerp =>
    refine fits_object (by simp) (by simp [actionWords]) ?_
    simp only [List.forall_mem_cons]
    exact ⟨.str h, .bool _, fits_word (by simp [actionWords]), by simp⟩

/-! ## Signed and sent -/

/-- No order is signed as it is sent: an absent client order id is sent as null, one that is there
    as text. -/
theorem orderValue_ne_orderJson (order : HlOrder String) :
    orderValue (order.mapCloid cloidBytes) ≠ orderJson order := by
  obtain ⟨a, b, p, s, r, t, c⟩ := order
  intro h
  cases c with
  | none => simp [orderValue, HlOrder.mapCloid, orderJson] at h
  | some cloid =>
    cases hbytes : cloidBytes cloid <;>
      simp [orderValue, HlOrder.mapCloid, orderJson, hbytes, cloidValue, cloidJson] at h

theorem smallStr_of_fits {s : String} (h : Fits (.str s)) : SmallStr s := by
  cases h with
  | str hlt => exact hlt

theorem fits_field {fields : List (String × Value)} (h : Fits (.object fields)) (key : String)
    {value : Value} (hmem : (key, value) ∈ fields) : Fits value := by
  cases h with
  | object _ _ hvalues => exact hvalues _ hmem

theorem fits_item {items : List Value} (h : Fits (.array items)) :
    items.length < 2 ^ 32 ∧ ∀ item ∈ items, Fits item := by
  cases h with
  | array hlen hitems => exact ⟨hlen, hitems⟩

theorem small_of_fits_orderJson {order : HlOrder String} (h : Fits (orderJson order)) :
    order.Small := by
  obtain ⟨a, b, p, s, r, t, c⟩ := order
  refine ⟨?_, ?_, ?_, ?_⟩
  · exact smallStr_of_fits (fits_field h "p" (by simp))
  · exact smallStr_of_fits (fits_field h "s" (by simp))
  · have ht : Fits (orderTypeJson t) := fits_field h "t" (by simp)
    cases t with
    | limit tif => trivial
    | trigger triggerPx isMarket tpsl =>
      have hinner := fits_field ht "trigger" (List.mem_singleton.mpr rfl)
      exact ⟨smallStr_of_fits (fits_field hinner "triggerPx" (by simp)),
        smallStr_of_fits (fits_field hinner "tpsl" (by simp))⟩
  · rintro cloid rfl
    exact smallStr_of_fits (fits_field h "c" (by simp [cloidJson]))

/-- What the decoder can return is small. -/
theorem small_of_fits_actionJson {action : L1Action String} (h : Fits (actionJson action)) :
    action.Small := by
  cases action with
  | order orders grouping =>
    have hgrouping : Fits (.str grouping) := fits_field h "grouping" (by simp)
    have hitems : Fits (.array (orders.map orderJson)) := fits_field h "orders" (by simp)
    have horders := fits_item hitems
    refine ⟨smallStr_of_fits hgrouping, by simpa using horders.1, fun o ho => ?_⟩
    exact small_of_fits_orderJson (horders.2 _ (List.mem_map_of_mem ho))
  | cancel cancels =>
    have hitems := fits_item (fits_field h _ (List.mem_cons_self ..))
    show cancels.length < 2 ^ 32
    simpa using hitems.1
  | modify oid o =>
    exact small_of_fits_orderJson (fits_field h "order" (by simp))
  | batchModify modifies =>
    have hitems := fits_item (fits_field h _ (List.mem_cons_self ..))
    refine ⟨by simpa using hitems.1, fun modify hmodify => ?_⟩
    have hpair := hitems.2 _ (List.mem_map_of_mem hmodify)
    exact small_of_fits_orderJson (fits_field hpair "order" (by simp))
  | updateLeverage asset isCross leverage => trivial
  | updateIsolatedMargin asset isBuy ntli => trivial
  | twapOrder asset isBuy size reduceOnly durationMinutes =>
    have hinner := fits_field h _ (List.mem_cons_self ..)
    exact smallStr_of_fits (fits_field hinner "s" (by simp))
  | usdClassTransfer amount toPerp =>
    exact smallStr_of_fits (fits_field h _ (List.mem_cons_self ..))

/-- Small actions decode to their values. -/
theorem decode_msgpackAction {action : L1Action String} (h : action.Small) :
    Msgpack.decode (msgpackAction action) =
      some (actionValue (action.mapCloid cloidBytes), []) := by
  have hdecode := Msgpack.decode_encode_append (fits_action h) []
  rwa [List.append_nil, ← msgpackAction_eq] at hdecode

/-- The value of an action is its JSON exactly where there is no order in it. -/
theorem actionValue_eq_actionJson_iff {action : L1Action String} (h : action.Small) :
    actionValue (action.mapCloid cloidBytes) = actionJson action ↔ action.SentAsSigned := by
  cases action with
  | order orders grouping =>
    constructor
    · intro heq
      refine ⟨?_, h.1⟩
      cases orders with
      | nil => rfl
      | cons o orders =>
        simp only [L1Action.mapCloid, actionValue, actionJson, buildOrderActionJson,
          List.map_cons, Value.object.injEq, List.cons.injEq, Prod.mk.injEq,
          Value.array.injEq] at heq
        exact absurd heq.2.1.2.1 (orderValue_ne_orderJson o)
    · rintro ⟨rfl, -⟩
      rfl
  | cancel cancels => exact iff_of_true rfl h
  | modify oid o =>
    refine iff_of_false ?_ id
    simp only [L1Action.mapCloid, actionValue, actionJson, Value.object.injEq, List.cons.injEq,
      Prod.mk.injEq]
    exact fun heq => orderValue_ne_orderJson o heq.2.1.2
  | batchModify modifies =>
    constructor
    · intro heq
      cases modifies with
      | nil => rfl
      | cons modify modifies =>
        simp only [L1Action.mapCloid, actionValue, actionJson, List.map_cons, modifyValue,
          Value.object.injEq, List.cons.injEq, Prod.mk.injEq, Value.array.injEq] at heq
        exact absurd heq.1.2.1.2.1.2 (orderValue_ne_orderJson modify.2)
    · rintro rfl
      rfl
  | updateLeverage asset isCross leverage => exact iff_of_true rfl trivial
  | updateIsolatedMargin asset isBuy ntli => exact iff_of_true rfl trivial
  | twapOrder asset isBuy size reduceOnly durationMinutes => exact iff_of_true rfl h
  | usdClassTransfer amount toPerp => exact iff_of_true rfl h

theorem small_of_sentAsSigned {action : L1Action String} (h : action.SentAsSigned) :
    action.Small := by
  cases action with
  | order orders grouping =>
    obtain ⟨rfl, hgrouping⟩ := h
    exact ⟨hgrouping, by simp, by simp⟩
  | modify oid o => exact h.elim
  | batchModify modifies =>
    obtain rfl : modifies = [] := h
    exact ⟨by simp, by simp⟩
  | cancel cancels => exact h
  | updateLeverage asset isCross leverage => trivial
  | updateIsolatedMargin asset isBuy ntli => trivial
  | twapOrder asset isBuy size reduceOnly durationMinutes => exact h
  | usdClassTransfer amount toPerp => exact h

/-- **Main theorem.** The bytes that are signed decode to the action of the request exactly where
    there is no order in the action and its texts and lists are small; then the action, encoded
    again, gives the signed bytes. -/
theorem signed_is_sent_iff
    (signL1Action : Bytes → UInt64 → Option Address → Option SignatureComponents)
    (action : L1Action String) (nonce : UInt64) (vault : Option Address) {request : Value}
    (h : signAction signL1Action action nonce vault = some request) :
    ((∃ sent, field? "action" request = some sent ∧
        Msgpack.decode (msgpackAction action) = some (sent, [])) ↔ action.SentAsSigned) ∧
      (action.SentAsSigned → ∀ sent, field? "action" request = some sent →
        Msgpack.encode sent = msgpackAction action) := by
  have hsent : field? "action" request = some (actionJson action) := by
    obtain ⟨sig, -, rfl⟩ := Option.map_eq_some_iff.mp h
    rfl
  constructor
  · rw [hsent]
    constructor
    · rintro ⟨sent, heq, hdecode⟩
      obtain rfl := Option.some.inj heq
      have hsmall := small_of_fits_actionJson (Msgpack.fits_of_decode hdecode)
      rw [decode_msgpackAction hsmall, Option.some.injEq, Prod.mk.injEq] at hdecode
      exact (actionValue_eq_actionJson_iff hsmall).mp hdecode.1
    · intro hsigned
      have hsmall := small_of_sentAsSigned hsigned
      refine ⟨_, rfl, ?_⟩
      rw [decode_msgpackAction hsmall, (actionValue_eq_actionJson_iff hsmall).mpr hsigned]
  · intro hsigned sent heq
    rw [hsent] at heq
    obtain rfl := Option.some.inj heq
    rw [msgpackAction_eq,
      (actionValue_eq_actionJson_iff (small_of_sentAsSigned hsigned)).mpr hsigned]

/-- A signer that signs everything alike. -/
def anySignature (_ : Bytes) (_ : UInt64) (_ : Option Address) : Option SignatureComponents :=
  some ⟨"0x1", "0x2", 27⟩

theorem signed_is_sent_cancel : Msgpack.encode (actionJson (.cancel [(1, 77)])) =
    msgpackAction (.cancel [(1, 77)]) := by
  refine (signed_is_sent_iff anySignature (.cancel [(1, 77)]) 5 none rfl).2 ?_ _ rfl
  show 1 < 2 ^ 32
  decide

/-- A limit order without a client order id. -/
def plainOrder : HlOrder String := ⟨0, true, "100", "1", false, .limit .gtc, none⟩

theorem small_plainOrder : (L1Action.modify 7 plainOrder).Small := by
  refine ⟨?_, ?_, trivial, fun cloid hc => nomatch hc⟩
  · show SmallStr "100"
    decide
  · show SmallStr "1"
    decide

/-- It is sent with a null that was not signed. -/
theorem order_signed_not_sent : ¬ ∀ (action : L1Action String), action.Small →
    Msgpack.decode (msgpackAction action) = some (actionJson action, []) := by
  intro h
  have hsmall := small_plainOrder
  have hdecode := h _ hsmall
  rw [decode_msgpackAction hsmall, Option.some.injEq, Prod.mk.injEq,
    actionValue_eq_actionJson_iff hsmall] at hdecode
  exact hdecode.1

/-! ## Preimages -/

theorem asStr_injective : Function.Injective HlTif.asStr := by
  intro x y h
  cases x <;> cases y <;> simp_all [HlTif.asStr]

theorem orderTypeValue_injective : Function.Injective orderTypeValue := by
  intro x y h
  cases x with
  | limit tif =>
    cases y with
    | limit tif' =>
      simp only [orderTypeValue, Value.object.injEq, List.cons.injEq, Prod.mk.injEq,
        Value.str.injEq, true_and, and_true] at h
      rw [asStr_injective h]
    | trigger triggerPx isMarket tpsl => simp [orderTypeValue] at h
  | trigger triggerPx isMarket tpsl =>
    cases y with
    | limit tif => simp [orderTypeValue] at h
    | trigger triggerPx' isMarket' tpsl' =>
      simp only [orderTypeValue, Value.object.injEq, List.cons.injEq, Prod.mk.injEq,
        Value.str.injEq, Value.bool.injEq, true_and, and_true] at h
      obtain ⟨rfl, rfl, rfl⟩ := h
      rfl

theorem cloidValue_injective : Function.Injective cloidValue := by
  intro x y h
  cases x <;> cases y <;> simp_all [cloidValue]

theorem u32_inj {x y : UInt32} : (x.toNat : ℤ) = y.toNat ↔ x = y := by
  rw [Nat.cast_inj, UInt32.toNat_inj]

theorem u64_inj {x y : UInt64} : (x.toNat : ℤ) = y.toNat ↔ x = y := by
  rw [Nat.cast_inj, UInt64.toNat_inj]

theorem orderValue_injective : Function.Injective orderValue := by
  intro x y h
  obtain ⟨a, b, p, s, r, t, c⟩ := x
  obtain ⟨a', b', p', s', r', t', c'⟩ := y
  cases c with
  | none =>
    cases c' with
    | none =>
      simp only [orderValue, Option.map_none, Option.toList_none, List.append_nil, List.cons_append,
        List.nil_append, Value.object.injEq, List.cons.injEq, Prod.mk.injEq, Value.int.injEq,
        Value.bool.injEq, Value.str.injEq, u32_inj, true_and, and_true] at h
      obtain ⟨rfl, rfl, rfl, rfl, rfl, ht⟩ := h
      rw [orderTypeValue_injective ht]
    | some cloid' => simp [orderValue] at h
  | some cloid =>
    cases c' with
    | none => simp [orderValue] at h
    | some cloid' =>
      simp only [orderValue, Option.map_some, Option.toList_some, List.cons_append,
        List.nil_append, Value.object.injEq, List.cons.injEq, Prod.mk.injEq, Value.int.injEq,
        Value.bool.injEq, Value.str.injEq, u32_inj, true_and, and_true] at h
      obtain ⟨rfl, rfl, hc, rfl, rfl, rfl, ht⟩ := h
      rw [orderTypeValue_injective ht, cloidValue_injective hc]

theorem cancelValue_injective : Function.Injective cancelValue := by
  rintro ⟨a, o⟩ ⟨a', o'⟩ h
  simp only [cancelValue, Value.object.injEq, List.cons.injEq, Prod.mk.injEq, Value.int.injEq,
    u32_inj, u64_inj, true_and, and_true] at h
  rw [h.1, h.2]

theorem modifyValue_injective : Function.Injective modifyValue := by
  rintro ⟨oid, order⟩ ⟨oid', order'⟩ h
  simp only [modifyValue, Value.object.injEq, List.cons.injEq, Prod.mk.injEq, Value.int.injEq,
    u64_inj, true_and, and_true] at h
  rw [h.1, orderValue_injective h.2]

/-- Kinds differ in their fields or their type, and every field shows. -/
theorem actionValue_injective : Function.Injective actionValue := by
  intro x y h
  cases x with
  | order orders grouping =>
    cases y with
    | order orders' grouping' =>
      simp only [actionValue, Value.object.injEq, List.cons.injEq, Prod.mk.injEq, Value.str.injEq,
        Value.array.injEq, true_and, and_true] at h
      rw [h.1, List.map_injective_iff.mpr orderValue_injective h.2]
    | _ => simp [actionValue] at h
  | cancel cancels =>
    cases y with
    | cancel cancels' =>
      simp only [actionValue, Value.object.injEq, List.cons.injEq, Prod.mk.injEq,
        Value.array.injEq, true_and, and_true] at h
      rw [List.map_injective_iff.mpr cancelValue_injective h]
    | _ => simp [actionValue] at h
  | modify oid order =>
    cases y with
    | modify oid' order' =>
      simp only [actionValue, Value.object.injEq, List.cons.injEq, Prod.mk.injEq,
        Value.int.injEq, u64_inj, true_and, and_true] at h
      rw [h.1, orderValue_injective h.2]
    | _ => simp [actionValue] at h
  | batchModify modifies =>
    cases y with
    | batchModify modifies' =>
      simp only [actionValue, Value.object.injEq, List.cons.injEq, Prod.mk.injEq,
        Value.array.injEq, true_and, and_true] at h
      rw [List.map_injective_iff.mpr modifyValue_injective h]
    | _ => simp [actionValue] at h
  | updateLeverage asset isCross leverage =>
    cases y with
    | updateLeverage asset' isCross' leverage' =>
      simp only [actionValue, Value.object.injEq, List.cons.injEq, Prod.mk.injEq, Value.int.injEq,
        Value.bool.injEq, u32_inj, true_and, and_true] at h
      rw [h.1, h.2.1, h.2.2]
    | _ => simp [actionValue] at h
  | updateIsolatedMargin asset isBuy ntli =>
    cases y with
    | updateIsolatedMargin asset' isBuy' ntli' =>
      simp only [actionValue, Value.object.injEq, List.cons.injEq, Prod.mk.injEq, Value.int.injEq,
        Value.bool.injEq, u32_inj, Int64.toInt_inj, true_and, and_true] at h
      rw [h.1, h.2.1, h.2.2]
    | _ => simp [actionValue] at h
  | twapOrder asset isBuy size reduceOnly durationMinutes =>
    cases y with
    | twapOrder asset' isBuy' size' reduceOnly' durationMinutes' =>
      simp only [actionValue, Value.object.injEq, List.cons.injEq, Prod.mk.injEq, Value.int.injEq,
        Value.bool.injEq, Value.str.injEq, u32_inj, u64_inj, true_and, and_true] at h
      rw [h.1, h.2.1, h.2.2.1, h.2.2.2.1, h.2.2.2.2]
    | _ => simp [actionValue] at h
  | usdClassTransfer amount toPerp =>
    cases y with
    | usdClassTransfer amount' toPerp' =>
      simp only [actionValue, Value.object.injEq, List.cons.injEq, Prod.mk.injEq,
        Value.bool.injEq, Value.str.injEq, true_and, and_true] at h
      rw [h.1, h.2]
    | _ => simp [actionValue] at h

/-- The bytes of small actions are self-delimiting, and fix the action up to the spelling of its
    client order ids. -/
theorem msgpackAction_append_eq_iff {action action' : L1Action String} (h : action.Small)
    (h' : action'.Small) (rest rest' : Bytes) :
    msgpackAction action ++ rest = msgpackAction action' ++ rest' ↔
      action.mapCloid cloidBytes = action'.mapCloid cloidBytes ∧ rest = rest' := by
  rw [msgpackAction_eq, msgpackAction_eq]
  constructor
  · intro heq
    obtain ⟨hvalue, hrest⟩ := Msgpack.encode_append_inj (fits_action h) (fits_action h') heq
    exact ⟨actionValue_injective hvalue, hrest⟩
  · rintro ⟨haction, rfl⟩
    rw [haction]

theorem vaultBytes_injective : Function.Injective vaultBytes := by
  intro x y h
  cases x with
  | none =>
    cases y with
    | none => rfl
    | some address => simp [vaultBytes, byteOf] at h
  | some address =>
    cases y with
    | none => simp [vaultBytes, byteOf] at h
    | some address' => rw [Subtype.ext (List.cons.inj h).2]

theorem toBe_u64_injective {x y : UInt64} (h : toBe 8 x.toNat = toBe 8 y.toNat) : x = y := by
  have hnat := congrArg Msgpack.ofBe h
  rw [Msgpack.ofBe_toBe_of_lt x.toNat_lt, Msgpack.ofBe_toBe_of_lt y.toNat_lt] at hnat
  exact UInt64.toNat_inj.mp hnat

/-- The nonce has eight bytes, and the flag tells whether an address follows. -/
theorem tail_eq_iff (nonce nonce' : UInt64) (vault vault' : Option Address) :
    toBe 8 nonce.toNat ++ vaultBytes vault = toBe 8 nonce'.toNat ++ vaultBytes vault' ↔
      nonce = nonce' ∧ vault = vault' := by
  constructor
  · intro h
    obtain ⟨hnonce, hvault⟩ := List.append_inj h
      ((Msgpack.length_toBe 8 _).trans (Msgpack.length_toBe 8 _).symm)
    exact ⟨toBe_u64_injective hnonce, vaultBytes_injective hvault⟩
  · rintro ⟨rfl, rfl⟩
    rfl

/-- What is written for an item shows where it ends, and which item it is. -/
def SelfDelimiting {α : Type} (write : MsgpackEncoder → α → MsgpackEncoder) (ok : α → Prop) :
    Prop :=
  ∀ x y rest rest', ok x → ok y →
    ((write .new x).finish ++ rest = (write .new y).finish ++ rest' ↔ x = y ∧ rest = rest')

theorem selfDelimiting_of_value {α : Type} {write : MsgpackEncoder → α → MsgpackEncoder}
    {ok : α → Prop} {value : α → Value} (hwrite : ∀ enc x, write enc x =
      enc.extend (Msgpack.encode (value x))) (hinj : Function.Injective value)
    (hfits : ∀ x, ok x → Fits (value x)) : SelfDelimiting write ok := by
  intro x y rest rest' hx hy
  rw [hwrite, hwrite]
  constructor
  · intro heq
    obtain ⟨hvalue, hrest⟩ := Msgpack.encode_append_inj (hfits x hx) (hfits y hy) heq
    exact ⟨hinj hvalue, hrest⟩
  · rintro ⟨rfl, rfl⟩
    rfl

/-- An array of items. -/
def writeList {α : Type} (write : MsgpackEncoder → α → MsgpackEncoder) (enc : MsgpackEncoder)
    (items : List α) : MsgpackEncoder := items.foldl write (enc.beginArray items.length)

theorem writeStr_value (enc : MsgpackEncoder) (s : String) :
    enc.writeStr s = enc.extend (Msgpack.encode (.str s)) := by
  rw [Msgpack.encode_str, MsgpackEncoder.writeStr_eq]

theorem selfDelimiting_writeUint : SelfDelimiting MsgpackEncoder.writeUint fun _ => True :=
  selfDelimiting_of_value MsgpackEncoder.writeUint_eq
    (fun _ _ h => u64_inj.mp (Value.int.inj h)) fun x _ => fits_u64 x

theorem selfDelimiting_writeInt : SelfDelimiting MsgpackEncoder.writeInt fun _ => True :=
  selfDelimiting_of_value MsgpackEncoder.writeInt_eq
    (fun _ _ h => Int64.toInt_inj.mp (Value.int.inj h)) fun x _ => fits_i64 x

theorem selfDelimiting_writeStr : SelfDelimiting MsgpackEncoder.writeStr SmallStr :=
  selfDelimiting_of_value writeStr_value (fun _ _ h => Value.str.inj h) fun _ h => .str h

theorem selfDelimiting_writeList : SelfDelimiting (writeList MsgpackEncoder.writeStr)
    fun items => items.length < 2 ^ 32 ∧ ∀ item ∈ items, SmallStr item := by
  refine @selfDelimiting_of_value _ _ _ (fun items => .array (items.map .str)) ?_ ?_ ?_
  · intro enc items
    rw [writeList, MsgpackEncoder.beginArray_eq, MsgpackEncoder.foldl_extend writeStr_value,
      MsgpackEncoder.extend_extend, Msgpack.encode_array, List.length_map, List.flatMap_map]
  · intro xs ys h
    exact List.map_injective_iff.mpr (fun _ _ h => Value.str.inj h) (Value.array.inj h)
  · rintro items ⟨hlen, hitems⟩
    refine .array (by simpa using hlen) ?_
    simp only [List.forall_mem_map]
    exact fun item hitem => .str (hitems item hitem)

/-- An order with a client order id. -/
def orderWithCloid (cloid : String) : HlOrder String := { plainOrder with c := some cloid }

theorem small_orderWithCloid {cloid : String} (h : SmallStr cloid) :
    (L1Action.modify 7 (orderWithCloid cloid)).Small := by
  refine ⟨?_, ?_, trivial, fun c hc => ?_⟩
  · show SmallStr "100"
    decide
  · show SmallStr "1"
    decide
  · obtain rfl := Option.some.inj hc
    exact h

end Digdigdig3.Hyperliquid
