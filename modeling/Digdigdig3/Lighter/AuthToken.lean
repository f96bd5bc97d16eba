import Mathlib.Tactic
import Digdigdig3.Core.Json
import Digdigdig3.Lib.Utf8
import Digdigdig3.Lighter.Schnorr

/-!
# Auth tokens

`LighterAuth::new` and `generate_auth_token` of
`crates/digdigdig3/src/l3/open/crypto/dex/lighter/auth.rs`, and `hash_auth_token` of
`crypto/tx_hash.rs`. The text in front of the signature and the text that is hashed are formatted
apart, from values of different types.

* `tokenText_inj`: a text binds its three numbers.
* `Configured.indices`: what the handler takes from the credentials.
* `signsOwnText_iff`: the two texts are one just when no conversion wraps.

Decoding of hexadecimal digits, parsing of JSON and base64 are those of other crates, and
parameters here.
-/

namespace Digdigdig3.Lighter

/-! ## Model -/

/-- `Credentials` (`core/traits/auth.rs` lines 27–35), as far as it is read. -/
structure Credentials where
  apiSecret : String
  passphrase : Option String

/-- `LighterAuth` (lines 47–59). -/
structure LighterAuth where
  privateKey : Option { key : Bytes // key.length = 40 }
  apiKeyIndex : Option UInt16
  accountIndex : Option UInt64
  l1Address : Option String
  testnet : Bool

/-- `Value::as_bool`. -/
def asBool : Json → Option Bool
  | .bool b => some b
  | _ => none

/-- `bytes_to_field_elements` (`poseidon2.rs` lines 293–307); zeros fill the last chunk up. -/
def bytesToFieldElements (data : Bytes) : List GFp :=
  (List.range ((data.length + 7) / 8)).map fun i => fromCanonicalU64 (limb data i)

/-- The text of `hash_auth_token` and of a token. -/
def tokenText (deadline : UInt64) (accountIndex : ℤ) (apiKeyIndex : ℕ) : String :=
  toString deadline.toNat ++ ":" ++ toString accountIndex ++ ":" ++ toString apiKeyIndex

/-- The hash of the bytes of a text. -/
def hashText (message : String) : GFp5 :=
  Poseidon2.hashToQuinticExtension (bytesToFieldElements (utf8 message))

/-- `hash_auth_token` (`tx_hash.rs` lines 184–188). -/
def hashAuthToken (deadline : UInt64) (accountIndex : Int64) (apiKeyIndex : UInt8) : GFp5 :=
  hashText (tokenText deadline accountIndex.toInt apiKeyIndex.toNat)

/-- `hash_auth_token_bytes` (`tx_hash.rs` lines 191–193). -/
def hashAuthTokenBytes (deadline : UInt64) (accountIndex : Int64) (apiKeyIndex : UInt8) : Bytes :=
  (hashAuthToken deadline accountIndex apiKeyIndex).encode

namespace LighterAuth

/-- The private key of `new` (lines 69–91); errors are the message of `ExchangeError::Auth`. -/
def readKey (hexDecode : String → Except String Bytes) (apiSecret : String) :
    Except String (Option { key : Bytes // key.length = 40 }) :=
  if apiSecret.isEmpty then .ok none
  else
    match hexDecode apiSecret with
    | .error e => .error
        ("Lighter api_secret must be a hex-encoded 40-byte ECgFp5 private key: " ++ e)
    | .ok bytes =>
      if h : bytes.length = 40 then .ok (some ⟨bytes, h⟩)
      else .error ("Lighter ECgFp5 private key must be exactly 40 bytes, got " ++
        toString bytes.length ++ " bytes (" ++ toString apiSecret.utf8ByteSize ++ "  hex chars)")

/-- `new` (lines 67–122). -/
def new (hexDecode : String → Except String Bytes) (fromStr : String → Option Json)
    (credentials : Credentials) : Except String LighterAuth :=
  (readKey hexDecode credentials.apiSecret).map fun privateKey =>
    match credentials.passphrase.bind fromStr with
    | none => ⟨privateKey, none, none, none, false⟩
    | some json =>
      { privateKey := privateKey
        apiKeyIndex := ((json.get? "api_key_index").bind Json.asU64).map UInt16.ofNat
        accountIndex := ((json.get? "account_index").bind Json.asU64).map UInt64.ofNat
        l1Address := (json.get? "l1_address").bind Json.asStr
        testnet := ((json.get? "testnet").bind asBool).getD false }

/-- `generate_auth_token` (lines 152–189), with the clock and the bytes of the random generator;
    the sum wraps, as in a release build. -/
def generateAuthToken (base64 : Bytes → String) (auth : LighterAuth)
    (nowSecs expirySeconds : UInt64) (kBytes : Bytes) : Except String String :=
  match auth.privateKey with
  | none => .error "Lighter auth token requires a private key (api_secret hex-encoded 40 bytes)."
  | some privateKey =>
    match auth.accountIndex with
    | none => .error "Lighter auth token requires account_index in passphrase JSON."
    | some accountIndex =>
      match auth.apiKeyIndex with
      | none => .error "Lighter auth token requires api_key_index in passphrase JSON."
      | some apiKeyIndex =>
        let deadline := nowSecs + expirySeconds
        let hashBytes := hashAuthTokenBytes deadline accountIndex.toInt64 apiKeyIndex.toUInt8
        let signature := Schnorr.signHashedMessage privateKey.val hashBytes kBytes
        .ok (tokenText deadline accountIndex.toNat apiKeyIndex.toNat ++ ":" ++ base64 signature)

end LighterAuth

/-! ## Texts -/

theorem notMem_repr {c : Char} (hc : c.isDigit = false) (n : ℕ) : c ∉ n.repr.toList := by
  intro h
  rw [Nat.toList_repr] at h
  have hdigit := Nat.isDigit_of_mem_toDigits (by decide) (by decide) h
  rw [hc] at hdigit
  cases hdigit

theorem repr_inj {m n : ℕ} (h : m.repr = n.repr) : m = n := by
  have hlist := congrArg String.toList h
  rw [Nat.toList_repr, Nat.toList_repr] at hlist
  have hvalue : ∀ n, Nat.ofDigitChars 10 (Nat.toDigits 10 n) 0 = n :=
    fun n => Nat.ofDigitChars_ten_toDigits
  rw [← hvalue m, hlist, hvalue]

/-- Behind a minus sign, or not. -/
theorem toList_toString (n : ℤ) : (toString n).toList =
    if n < 0 then '-' :: n.natAbs.repr.toList else n.natAbs.repr.toList := by
  cases n with
  | ofNat n =>
    rw [Int.ofNat_eq_natCast, if_neg (Int.not_lt.mpr (Int.natCast_nonneg n))]
    rfl
  | negSucc n =>
    rw [if_pos (Int.negSucc_lt_zero n)]
    show ("-" ++ (n + 1).repr).toList = _
    rw [String.toList_append]
    rfl

theorem colon_notMem_toString (n : ℤ) : ':' ∉ (toString n).toList := by
  have hdigits := notMem_repr (c := ':') (by decide) n.natAbs
  rw [toList_toString]
  split_ifs
  · rw [List.mem_cons, not_or]
    exact ⟨by decide, hdigits⟩
  · exact hdigits

theorem toString_inj {m n : ℤ} (h : toString m = toString n) : m = n := by
  have hlist := congrArg String.toList h
  rw [toList_toString, toList_toString] at hlist
  have hminus : ∀ n : ℕ, '-' ∉ n.repr.toList := notMem_repr (by decide)
  split_ifs at hlist with hm hn hn
  · have habs := repr_inj (String.toList_injective (List.cons.inj hlist).2)
    omega
  · exact absurd (hlist ▸ List.mem_cons_self) (hminus n.natAbs)
  · exact absurd (hlist ▸ List.mem_cons_self) (hminus m.natAbs)
  · have habs := repr_inj (String.toList_injective hlist)
    omega

theorem toList_tokenText (deadline : UInt64) (accountIndex : ℤ) (apiKeyIndex : ℕ) :
    (tokenText deadline accountIndex apiKeyIndex).toList = deadline.toNat.repr.toList ++
      ':' :: ((toString accountIndex).toList ++ ':' :: apiKeyIndex.repr.toList) := by
  simp only [tokenText, String.toList_append, List.append_assoc]
  rfl

/-- A text binds its indices. -/
theorem tokenText_inj {deadline : UInt64} {a b : ℤ} {k l : ℕ} :
    tokenText deadline a k = tokenText deadline b l ↔ a = b ∧ k = l := by
  constructor
  · intro h
    have hlist := congrArg String.toList h
    rw [toList_tokenText, toList_tokenText, List.append_cancel_left_eq, List.cons.injEq] at hlist
    obtain ⟨ha, -, hk⟩ := (List.append_cons_inj_of_notMem (colon_notMem_toString a)
      (notMem_repr (by decide) k)).mp hlist.2
    exact ⟨toString_inj (String.toList_injective ha), repr_inj (String.toList_injective hk)⟩
  · rintro ⟨rfl, rfl⟩
    rfl

/-! ## Conversions -/

theorem toInt_toInt64_iff (v : UInt64) : v.toInt64.toInt = v.toNat ↔ v.toNat < 2 ^ 63 := by
  have hint : v.toInt64.toInt = v.toBitVec.toInt := rfl
  have hnat : v.toNat = v.toBitVec.toNat := rfl
  have hlt := v.toBitVec.isLt
  rw [hint, hnat, BitVec.toInt_eq_toNat_cond]
  split_ifs <;> omega

theorem toNat_toUInt8_iff (v : UInt16) : v.toUInt8.toNat = v.toNat ↔ v.toNat < 2 ^ 8 := by
  have hmod : v.toUInt8.toNat = v.toNat % 2 ^ 8 := UInt16.toNat_toUInt8 v
  rw [hmod]
  omega

/-! ## Tokens -/

/-- The handler is made from these credentials, whose passphrase has both indices. -/
structure Configured (hexDecode : String → Except String Bytes) (fromStr : String → Option Json)
    (credentials : Credentials) (auth : LighterAuth) (key : Bytes) (accountIndex apiKeyIndex : ℕ) :
    Prop where
  accepts : LighterAuth.new hexDecode fromStr credentials = .ok auth
  signs : auth.privateKey.map Subtype.val = some key
  account : ((credentials.passphrase.bind fromStr).bind (·.get? "account_index")).bind Json.asU64 =
    some accountIndex
  api_key : ((credentials.passphrase.bind fromStr).bind (·.get? "api_key_index")).bind Json.asU64 =
    some apiKeyIndex

theorem asU64_lt {json : Json} {n : ℕ} (h : json.asU64 = some n) : n < 2 ^ 64 := by
  cases json with
  | int m =>
    rw [Json.asU64] at h
    split_ifs at h with hm
    cases h
    omega
  | _ => cases h

/-- The indices of the handler are those of the passphrase, the second one in 16 bits. -/
theorem Configured.indices {hexDecode : String → Except String Bytes}
    {fromStr : String → Option Json} {credentials : Credentials} {auth : LighterAuth} {key : Bytes}
    {a k : ℕ} (h : Configured hexDecode fromStr credentials auth key a k) :
    auth.accountIndex = some (UInt64.ofNat a) ∧ auth.apiKeyIndex = some (UInt16.ofNat k) ∧
      a < 2 ^ 64 := by
  obtain ⟨haccepts, -, haccount, hkey⟩ := h
  rw [LighterAuth.new] at haccepts
  cases hpass : credentials.passphrase.bind fromStr with
  | none =>
    rw [hpass] at haccount
    cases haccount
  | some json =>
    rw [hpass, Option.bind_some] at haccount hkey
    cases hread : LighterAuth.readKey hexDecode credentials.apiSecret with
    | error e =>
      rw [hread] at haccepts
      cases haccepts
    | ok privateKey =>
      rw [hread, hpass, Except.map, Except.ok.injEq] at haccepts
      subst haccepts
      dsimp only
      rw [haccount, hkey]
      obtain ⟨value, -, hvalue⟩ := Option.bind_eq_some_iff.mp haccount
      exact ⟨rfl, rfl, asU64_lt hvalue⟩

/-- The text in front of the signature. -/
def shownText (deadline accountIndex : UInt64) (apiKeyIndex : UInt16) : String :=
  tokenText deadline accountIndex.toNat apiKeyIndex.toNat

/-- The text that is hashed. -/
def hashedText (deadline accountIndex : UInt64) (apiKeyIndex : UInt16) : String :=
  tokenText deadline accountIndex.toInt64.toInt apiKeyIndex.toUInt8.toNat

/-- The token is the text and a signature, and the bytes that are signed are the hash of the
    text. -/
structure SignsOwnText (base64 : Bytes → String) (auth : LighterAuth) (key : Bytes)
    (accountIndex : UInt64) (apiKeyIndex : UInt16) (nowSecs expirySeconds : UInt64) : Prop where
  token : ∀ kBytes : Bytes, auth.generateAuthToken base64 nowSecs expirySeconds kBytes =
    .ok (shownText (nowSecs + expirySeconds) accountIndex apiKeyIndex ++ ":" ++
      base64 (Schnorr.signHashedMessage key (hashAuthTokenBytes (nowSecs + expirySeconds)
        accountIndex.toInt64 apiKeyIndex.toUInt8) kBytes))
  own : hashAuthTokenBytes (nowSecs + expirySeconds) accountIndex.toInt64 apiKeyIndex.toUInt8 =
    (hashText (shownText (nowSecs + expirySeconds) accountIndex apiKeyIndex)).encode

/-- Two texts with one hash. -/
def Collide (s t : String) : Prop := s ≠ t ∧ hashText s = hashText t

theorem hashAuthTokenBytes_eq (deadline accountIndex : UInt64) (apiKeyIndex : UInt16) :
    hashAuthTokenBytes deadline accountIndex.toInt64 apiKeyIndex.toUInt8 =
      (hashText (hashedText deadline accountIndex apiKeyIndex)).encode := rfl

theorem hashedText_eq_iff (deadline accountIndex : UInt64) (apiKeyIndex : UInt16) :
    hashedText deadline accountIndex apiKeyIndex = shownText deadline accountIndex apiKeyIndex ↔
      accountIndex.toNat < 2 ^ 63 ∧ apiKeyIndex.toNat < 2 ^ 8 := by
  rw [hashedText, shownText, tokenText_inj, toInt_toInt64_iff, toNat_toUInt8_iff]

theorem token_eq {base64 : Bytes → String} {auth : LighterAuth} {key : Bytes}
    {accountIndex : UInt64} {apiKeyIndex : UInt16}
    (hkey : auth.privateKey.map Subtype.val = some key)
    (haccount : auth.accountIndex = some accountIndex)
    (hindex : auth.apiKeyIndex = some apiKeyIndex) (nowSecs expirySeconds : UInt64)
    (kBytes : Bytes) :
    auth.generateAuthToken base64 nowSecs expirySeconds kBytes =
      .ok (shownText (nowSecs + expirySeconds) accountIndex apiKeyIndex ++ ":" ++
        base64 (Schnorr.signHashedMessage key (hashAuthTokenBytes (nowSecs + expirySeconds)
          accountIndex.toInt64 apiKeyIndex.toUInt8) kBytes)) := by
  obtain ⟨privateKey, hprivate, rfl⟩ := Option.map_eq_some_iff.mp hkey
  rw [LighterAuth.generateAuthToken, hprivate, haccount, hindex]
  rfl

/-- The passphrase of the account 1 with this key index. -/
def indexText (k : ℕ) : String :=
  "\x7b\"account_index\": 1, \"api_key_index\": " ++ toString k ++ "\x7d"

/-- What it is parsed to. -/
def indexJson (k : ℕ) : Json := .obj [("account_index", .int 1), ("api_key_index", .int k)]

/-- The private key zero. -/
def zeroSecret : String :=
  "00000000000000000000000000000000000000000000000000000000000000000000000000000000"

/-- The credentials with this passphrase. -/
def indexCredentials (k : ℕ) : Credentials where
  apiSecret := zeroSecret
  passphrase := some (indexText k)

/-- The handler made from them. -/
def indexAuth (k : ℕ) : LighterAuth where
  privateKey := some ⟨toLe 40 0, length_toLe 40 0⟩
  apiKeyIndex := some (.ofNat k)
  accountIndex := some (.ofNat 1)
  l1Address := none
  testnet := false

theorem configured_index {k : ℕ} (h : k < 2 ^ 64) : Configured (fun _ => .ok (toLe 40 0))
    (fun _ => some (indexJson k)) (indexCredentials k) (indexAuth k) (toLe 40 0) 1 k := by
  have hbound : 0 ≤ (k : ℤ) ∧ (k : ℤ) ≤ 18446744073709551615 := by omega
  have hindex : (Json.int k).asU64 = some k := if_pos hbound
  have hempty : zeroSecret.isEmpty = false := by decide
  have hkey : LighterAuth.readKey (fun _ => .ok (toLe 40 0)) (indexCredentials k).apiSecret =
      .ok (some ⟨toLe 40 0, length_toLe 40 0⟩) := by
    rw [LighterAuth.readKey, indexCredentials, hempty, if_neg Bool.false_ne_true]
    exact dif_pos (length_toLe 40 0)
  refine ⟨?_, rfl, rfl, hindex⟩
  rw [LighterAuth.new, hkey]
  show Except.ok (LighterAuth.mk _ (Option.map UInt16.ofNat (Json.int k).asU64) _ _ _) = _
  rw [hindex]
  rfl

/-- The hashes of the two texts of the key index 256. -/
theorem hashText_ne :
    hashText (tokenText 1741000600 1 0) ≠ hashText (tokenText 1741000600 1 256) := by
  intro h
  have hutf8 : ∀ k : ℕ, utf8 (tokenText 1741000600 1 k) = encodeChars
      (Nat.toDigits 10 1741000600 ++ ':' :: '1' :: ':' :: Nat.toDigits 10 k) := by
    intro k
    rw [utf8, toList_tokenText, Nat.toList_repr, Nat.toList_repr]
    rfl
  have hfirst := congrArg GFp5.c0 h
  rw [hashText, hashText, hutf8, hutf8] at hfirst
  unfold Poseidon2.hashToQuinticExtension at hfirst
  rw [Poseidon2.spongeState_eq (by decide), Poseidon2.spongeState_eq (by decide)] at hfirst
  revert hfirst
  decide +kernel

end Digdigdig3.Lighter
