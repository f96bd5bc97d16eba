import Digdigdig3.Hyperliquid.SignedActions

/-!
# EIP-712 messages of Hyperliquid

The user-signed actions and the phantom-agent scheme of `Eip712Signer`
(`crates/digdigdig3/src/l3/open/crypto/dex/hyperliquid/eip712.rs`), and the phantom-agent scheme of
`HyperliquidAuth` (`auth.rs` in the same directory). `keccak` is a parameter: results that need
different digests for different byte strings assume it of the strings that are hashed.

* `userMessage_eq_iff`: messages of different actions differ.
* `network_signatures`: what the network of a signer does to its messages and its actions.
* `mainnet_signs_testnet`: a signer for mainnet that names the testnet.
-/

namespace Digdigdig3.Hyperliquid

open Msgpack (Value toBe)

/-- A hash: 32 bytes. -/
abbrev Digest := {bs : Bytes // bs.length = 32}

/-- `vec![0u8; n]`. -/
def zeros (n : ℕ) : Bytes := List.replicate n (byteOf 0)

/-- A `u64` in a word of 32 bytes. -/
def wordOfU64 (n : UInt64) : Bytes := zeros 24 ++ toBe 8 n.toNat

/-- The sentinel address of the phantom agent (lines 504–507). -/
def phantomSource : Bytes := toBe 20 0xa0b86991c6218b36c1d19d4a2e9eb0ce3606eb48

/-- The bytes `"\x19\x01"`, the domain separator and the struct hash: what is hashed and signed
    (`auth.rs` lines 521–527, `eip712.rs` lines 549–555). -/
def eip712Message (domainSeparator structHash : Digest) : Bytes :=
  toBe 2 0x1901 ++ domainSeparator.val ++ structHash.val

section Schemes

variable (keccak : Bytes → Digest)

/-- What is hashed for a domain separator: the type, the name, the version, the chain and the zero
    address. -/
def domainPreimage (name : String) (chainId : UInt64) : Bytes :=
  (keccak (utf8
    "EIP712Domain(string name,string version,uint256 chainId,address verifyingContract)")).val ++
    (keccak (utf8 name)).val ++ (keccak (utf8 "1")).val ++ wordOfU64 chainId ++ zeros 32

/-! ## `HyperliquidAuth` -/

/-- `compute_domain_separator` (lines 459–479). -/
def computeDomainSeparator (chainId : UInt64) : Digest :=
  keccak (domainPreimage keccak "Exchange" chainId)

/-- `compute_connection_id` (lines 483–494). -/
def computeConnectionId (actionBytes : Bytes) (nonce : UInt64) (vault : Option Address) : Digest :=
  keccak (connectionPreimage actionBytes nonce vault)

/-- `compute_agent_hash` (lines 501–518). -/
def computeAgentHash (connectionId : Digest) : Digest :=
  keccak ((keccak (utf8 "Agent(address source,bytes32 connectionId)")).val ++ zeros 12 ++
    phantomSource ++ connectionId.val)

/-- `chain_id` (lines 616–618). -/
def HyperliquidAuth.chainId (isTestnet : Bool) : UInt64 := if isTestnet then 421614 else 42161

/-- The message of `sign_l1_action` (lines 642–654). -/
def HyperliquidAuth.l1Message (isTestnet : Bool) (actionBytes : Bytes) (nonce : UInt64)
    (vault : Option Address) : Bytes :=
  eip712Message (computeDomainSeparator keccak (chainId isTestnet))
    (computeAgentHash keccak (computeConnectionId keccak actionBytes nonce vault))

/-! ## `Eip712Signer` -/

/-- `HyperliquidDomain` (lines 50–59). -/
structure HyperliquidDomain where
  chainId : UInt64

def HyperliquidDomain.mainnet : HyperliquidDomain := ⟨421614⟩

def HyperliquidDomain.testnet : HyperliquidDomain := ⟨421614⟩

/-- `separator` (lines 61–82). -/
def HyperliquidDomain.separator (domain : HyperliquidDomain) : Digest :=
  keccak (domainPreimage keccak "HyperliquidSignTransaction" domain.chainId)

/-- `Credentials`, with the fields that the signer reads. -/
structure Credentials where
  apiKey : String
  apiSecret : String

/-- `Eip712Signer` (lines 178–185). -/
structure Eip712Signer (Wallet : Type) where
  wallet : Wallet
  domain : HyperliquidDomain
  walletAddress : String

/-- `EvmWallet`: its constructor, its address, and its signatures. -/
structure WalletOps (Wallet : Type) where
  fromHex : String → Except String Wallet
  addressHex : Wallet → String
  signPrehash : Wallet → Digest → Except String SignatureComponents

/-- `Eip712Signer::new` (lines 192–215). -/
def Eip712Signer.new {Wallet : Type} (ops : WalletOps Wallet) (toLowercase : String → String)
    (credentials : Credentials) (isTestnet : Bool) : Except String (Eip712Signer Wallet) :=
  if credentials.apiSecret = "" then
    .error "HyperLiquid requires private key in api_secret field"
  else
    match ops.fromHex credentials.apiSecret with
    | .error e => .error ("Invalid private key: " ++ e)
    | .ok wallet =>
      let walletAddress :=
        if credentials.apiKey ≠ "" then toLowercase credentials.apiKey else ops.addressHex wallet
      let domain := if isTestnet then HyperliquidDomain.testnet else HyperliquidDomain.mainnet
      .ok ⟨wallet, domain, walletAddress⟩

/-- The user-signed actions with the arguments of their signers (lines 255–379). -/
inductive UserAction
  | withdrawFromBridge (destination amount : String) (time : UInt64)
  | usdSend (destination amount : String) (time : UInt64)
  | spotSend (destination token amount : String) (time : UInt64)

namespace UserAction

/-- The type string of `withdraw_from_bridge_struct_hash` (lines 420–422). -/
def withdrawType : String :=
  "HyperliquidTransaction:WithdrawFromBridge2(string hyperliquidChain,string destination," ++
    "string amount,uint64 time)"

/-- The type string of `usd_send_struct_hash` (lines 442–444). -/
def usdSendType : String :=
  "HyperliquidTransaction:UsdSend(string hyperliquidChain,string destination," ++
    "string amount,uint64 time)"

/-- The type string of `spot_send_struct_hash` (lines 464–466). -/
def spotSendType : String :=
  "HyperliquidTransaction:SpotSend(string hyperliquidChain,string destination," ++
    "string token,string amount,uint64 time)"

def typeString : UserAction → String
  | .withdrawFromBridge _ _ _ => withdrawType
  | .usdSend _ _ _ => usdSendType
  | .spotSend _ _ _ _ => spotSendType

def time : UserAction → UInt64
  | .withdrawFromBridge _ _ time => time
  | .usdSend _ _ time => time
  | .spotSend _ _ _ time => time

/-- The texts of an action, in the order in which they are hashed. -/
def texts (chain : String) : UserAction → List String
  | .withdrawFromBridge destination amount _ => [chain, destination, amount]
  | .usdSend destination amount _ => [chain, destination, amount]
  | .spotSend destination token amount _ => [chain, destination, token, amount]

/-- What is hashed for the struct: the digests of the type and of the texts, and the time
    (`withdraw_from_bridge_struct_hash`, `usd_send_struct_hash`, `spot_send_struct_hash`). -/
def encoded (chain : String) (action : UserAction) : Bytes :=
  (keccak (utf8 action.typeString)).val ++
    (action.texts chain).flatMap (fun text => (keccak (utf8 text)).val) ++ wordOfU64 action.time

/-- The struct hash. -/
def structHash (chain : String) (action : UserAction) : Digest :=
  keccak (action.encoded keccak chain)

/-- All byte strings that are hashed for the struct. -/
def hashed (chain : String) (action : UserAction) : List Bytes :=
  utf8 action.typeString :: (action.texts chain).map utf8 ++ [action.encoded keccak chain]

/-- `format!("0x{:x}", chain_id)`. -/
def signatureChainId (chainId : UInt64) : String :=
  String.ofList ('0' :: 'x' :: (Nat.toDigits 16 chainId.toNat))

/-- The JSON that is sent, with its keys in order (lines 277–284, 318–325, 361–369). -/
def json (chain : String) (chainId : UInt64) : UserAction → Value
  | .withdrawFromBridge destination amount time =>
    .object [("amount", .str amount), ("destination", .str destination),
      ("hyperliquidChain", .str chain), ("signatureChainId", .str (signatureChainId chainId)),
      ("time", .int time.toNat), ("type", .str "withdraw3")]
  | .usdSend destination amount time =>
    .object [("amount", .str amount), ("destination", .str destination),
      ("hyperliquidChain", .str chain), ("signatureChainId", .str (signatureChainId chainId)),
      ("time", .int time.toNat), ("type", .str "usdSend")]
  | .spotSend destination token amount time =>
    .object [("amount", .str amount), ("destination", .str destination),
      ("hyperliquidChain", .str chain), ("signatureChainId", .str (signatureChainId chainId)),
      ("time", .int time.toNat), ("token", .str token), ("type", .str "spotSend")]

end UserAction

namespace Eip712Signer

variable {Wallet : Type}

/-- `chain_name` in each signer (lines 261, 305, 350). -/
def chainName (signer : Eip712Signer Wallet) : String :=
  if signer.domain.chainId = 421614 then "Testnet" else "Mainnet"

/-- The message of `sign_struct_hash` (lines 231–244) for a user-signed action. -/
def userMessage (signer : Eip712Signer Wallet) (action : UserAction) : Bytes :=
  eip712Message (signer.domain.separator keccak) (action.structHash keccak signer.chainName)

/-- `SignedUserAction` (lines 140–150). -/
structure SignedUserAction where
  action : Value
  nonce : UInt64
  signature : SignatureComponents

/-- `sign_withdraw_from_bridge`, `sign_usd_send` and `sign_spot_send` (lines 255–379). -/
def signUserAction (ops : WalletOps Wallet) (signer : Eip712Signer Wallet) (action : UserAction) :
    Except String SignedUserAction :=
  match ops.signPrehash signer.wallet (keccak (signer.userMessage keccak action)) with
  | .error e => .error ("EIP-712 sign failed: " ++ e)
  | .ok signature =>
    .ok ⟨action.json signer.chainName signer.domain.chainId, action.time, signature⟩

/-- `l1_domain_separator` (lines 491–510). -/
def l1DomainSeparator (chainId : UInt64) : Digest :=
  keccak (domainPreimage keccak "Exchange" chainId)

/-- `l1_connection_id` (lines 512–528): the same bytes as `compute_connection_id`. -/
def l1ConnectionId (actionBytes : Bytes) (nonce : UInt64) (vault : Option Address) : Digest :=
  keccak (connectionPreimage actionBytes nonce vault)

/-- `l1_agent_struct_hash` (lines 531–546). -/
def l1AgentStructHash (connectionId : Digest) : Digest :=
  keccak ((keccak (utf8 "Agent(address source,bytes32 connectionId)")).val ++ zeros 12 ++
    phantomSource ++ connectionId.val)

/-- The message of `sign_l1_action_raw` (lines 391–412). -/
def l1Message (signer : Eip712Signer Wallet) (actionBytes : Bytes) (nonce : UInt64)
    (vault : Option Address) : Bytes :=
  eip712Message (l1DomainSeparator keccak signer.domain.chainId)
    (l1AgentStructHash keccak (l1ConnectionId keccak actionBytes nonce vault))

end Eip712Signer

end Schemes

/-! ## Messages -/

theorem utf8_injective : Function.Injective utf8 := by
  intro s t h
  have hread := fromUtf8_utf8 s
  rw [h, fromUtf8_utf8, Option.some.injEq] at hread
  exact hread.symm

theorem wordOfU64_injective : Function.Injective wordOfU64 := by
  intro x y h
  exact toBe_u64_injective (List.append_cancel_left h)

theorem eip712Message_injective (domainSeparator : Digest) :
    Function.Injective (eip712Message domainSeparator) := by
  intro x y h
  exact Subtype.ext (List.append_cancel_left h)

variable {keccak : Bytes → Digest}

/-- Digests stand side by side, each of 32 bytes. -/
theorem digests_append_inj {xs ys : List String} {w w' : Bytes} (hlen : xs.length = ys.length)
    (h : xs.flatMap (fun text => (keccak (utf8 text)).val) ++ w =
      ys.flatMap (fun text => (keccak (utf8 text)).val) ++ w') :
    xs.map (fun text => keccak (utf8 text)) = ys.map (fun text => keccak (utf8 text)) ∧ w = w' := by
  induction xs generalizing ys with
  | nil =>
    obtain rfl := List.length_eq_zero_iff.mp hlen.symm
    exact ⟨rfl, h⟩
  | cons x xs ih =>
    cases ys with
    | nil => cases hlen
    | cons y ys =>
      rw [List.flatMap_cons, List.flatMap_cons, List.append_assoc, List.append_assoc] at h
      obtain ⟨hhead, htail⟩ := List.append_inj h
        ((keccak (utf8 x)).property.trans (keccak (utf8 y)).property.symm)
      obtain ⟨hrest, hw⟩ := ih (Nat.succ.inj hlen) htail
      rw [List.map_cons, List.map_cons, hrest, Subtype.ext hhead]
      exact ⟨rfl, hw⟩

/-- Texts with the same digests are the same, where the digests are told apart. -/
theorem texts_eq_of_digests {P : Set Bytes} (hinj : Set.InjOn keccak P) {xs ys : List String}
    (hxs : ∀ text ∈ xs, utf8 text ∈ P) (hys : ∀ text ∈ ys, utf8 text ∈ P)
    (h : xs.map (fun text => keccak (utf8 text)) = ys.map (fun text => keccak (utf8 text))) :
    xs = ys := by
  induction xs generalizing ys with
  | nil => exact (List.map_eq_nil_iff.mp h.symm).symm
  | cons x xs ih =>
    cases ys with
    | nil => cases h
    | cons y ys =>
      rw [List.forall_mem_cons] at hxs hys
      obtain ⟨hhead, htail⟩ := List.cons.inj h
      rw [utf8_injective (hinj hxs.1 hys.1 hhead), ih hxs.2 hys.2 htail]

/-- The byte strings that are hashed for either of two actions. -/
def hashedFor (keccak : Bytes → Digest) (chain : String) (action action' : UserAction) :
    Set Bytes :=
  {x | x ∈ action.hashed keccak chain ∨ x ∈ action'.hashed keccak chain}

theorem UserAction.withdrawType_ne_usdSendType : withdrawType ≠ usdSendType := by decide

theorem UserAction.withdrawType_ne_spotSendType : withdrawType ≠ spotSendType := by decide

theorem UserAction.usdSendType_ne_spotSendType : usdSendType ≠ spotSendType := by decide

theorem UserAction.length_texts (chain : String) (action : UserAction) :
    (action.texts chain).length = if action.typeString = spotSendType then 4 else 3 := by
  cases action with
  | withdrawFromBridge destination amount time => exact (if_neg withdrawType_ne_spotSendType).symm
  | usdSend destination amount time => exact (if_neg usdSendType_ne_spotSendType).symm
  | spotSend destination token amount time => exact (if_pos rfl).symm

/-- The type, the texts and the time make up the action. -/
theorem UserAction.eq_of_typeString {chain : String} {action action' : UserAction}
    (htype : action.typeString = action'.typeString)
    (htexts : action.texts chain = action'.texts chain) (htime : action.time = action'.time) :
    action = action' := by
  cases action with
  | withdrawFromBridge destination amount time =>
    cases action' with
    | withdrawFromBridge destination' amount' time' =>
      simp only [texts, List.cons.injEq, true_and, and_true] at htexts
      obtain ⟨rfl, rfl⟩ := htexts
      obtain rfl : time = time' := htime
      rfl
    | usdSend destination' amount' time' => exact absurd htype withdrawType_ne_usdSendType
    | spotSend destination' token' amount' time' => exact absurd htype withdrawType_ne_spotSendType
  | usdSend destination amount time =>
    cases action' with
    | withdrawFromBridge destination' amount' time' =>
      exact absurd htype.symm withdrawType_ne_usdSendType
    | usdSend destination' amount' time' =>
      simp only [texts, List.cons.injEq, true_and, and_true] at htexts
      obtain ⟨rfl, rfl⟩ := htexts
      obtain rfl : time = time' := htime
      rfl
    | spotSend destination' token' amount' time' => exact absurd htype usdSendType_ne_spotSendType
  | spotSend destination token amount time =>
    cases action' with
    | withdrawFromBridge destination' amount' time' =>
      exact absurd htype.symm withdrawType_ne_spotSendType
    | usdSend destination' amount' time' => exact absurd htype.symm usdSendType_ne_spotSendType
    | spotSend destination' token' amount' time' =>
      simp only [texts, List.cons.injEq, true_and, and_true] at htexts
      obtain ⟨rfl, rfl, rfl⟩ := htexts
      obtain rfl : time = time' := htime
      rfl

theorem UserAction.encoded_inj {chain : String} {action action' : UserAction}
    (hinj : Set.InjOn keccak (hashedFor keccak chain action action'))
    (h : action.encoded keccak chain = action'.encoded keccak chain) : action = action' := by
  rw [encoded, encoded, List.append_assoc, List.append_assoc] at h
  obtain ⟨htype, hbody⟩ := List.append_inj h
    ((keccak (utf8 action.typeString)).property.trans
      (keccak (utf8 action'.typeString)).property.symm)
  have htypes : action.typeString = action'.typeString := by
    apply utf8_injective
    exact hinj (Or.inl (List.mem_cons_self ..)) (Or.inr (List.mem_cons_self ..)) (Subtype.ext htype)
  have hlen : (action.texts chain).length = (action'.texts chain).length := by
    rw [length_texts, length_texts, htypes]
  obtain ⟨hdigests, hword⟩ := digests_append_inj hlen hbody
  have htexts : action.texts chain = action'.texts chain := by
    refine texts_eq_of_digests hinj (fun text htext => Or.inl ?_) (fun text htext => Or.inr ?_)
      hdigests
    · exact List.mem_cons_of_mem _ (List.mem_append_left _ (List.mem_map_of_mem htext))
    · exact List.mem_cons_of_mem _ (List.mem_append_left _ (List.mem_map_of_mem htext))
  exact eq_of_typeString htypes htexts (wordOfU64_injective hword)

/-- Messages of different actions differ, where the digests that are made are told apart. -/
theorem Eip712Signer.userMessage_eq_iff {Wallet : Type} (signer : Eip712Signer Wallet)
    {action action' : UserAction}
    (hinj : Set.InjOn keccak (hashedFor keccak signer.chainName action action')) :
    signer.userMessage keccak action = signer.userMessage keccak action' ↔ action = action' := by
  constructor
  · intro h
    have hstruct := eip712Message_injective _ h
    refine UserAction.encoded_inj hinj (hinj (Or.inl ?_) (Or.inr ?_) hstruct)
    · exact List.mem_cons_of_mem _ (List.mem_append_right _ (List.mem_singleton.mpr rfl))
    · exact List.mem_cons_of_mem _ (List.mem_append_right _ (List.mem_singleton.mpr rfl))
  · rintro rfl
    rfl

/-- Domains of different chains differ. -/
theorem domainPreimage_inj {name : String} {chainId chainId' : UInt64}
    (h : domainPreimage keccak name chainId = domainPreimage keccak name chainId') :
    chainId = chainId' := by
  rw [domainPreimage, domainPreimage, List.append_cancel_right_eq, List.append_cancel_left_eq] at h
  exact wordOfU64_injective h

/-! ## Networks -/

/-- The name of the network that a signer is built for. -/
def networkName (isTestnet : Bool) : String := if isTestnet then "Testnet" else "Mainnet"

section Signers

variable {Wallet : Type} {ops : WalletOps Wallet} {toLowercase : String → String}
  {credentials : Credentials}

/-- Both networks have the same domain. -/
theorem Eip712Signer.domain_of_new {isTestnet : Bool} {signer : Eip712Signer Wallet}
    (h : Eip712Signer.new ops toLowercase credentials isTestnet = .ok signer) :
    signer.domain = ⟨421614⟩ := by
  unfold Eip712Signer.new at h
  split at h
  · cases h
  · split at h
    · cases h
    · cases h
      cases isTestnet <;> rfl

theorem Eip712Signer.userMessage_congr {signer other : Eip712Signer Wallet}
    (h : signer.domain = other.domain) (action : UserAction) :
    signer.userMessage keccak action = other.userMessage keccak action := by
  rw [userMessage, userMessage, chainName, chainName, h]

/-- What is sent names the testnet. -/
theorem Eip712Signer.hyperliquidChain_of_sign {signer : Eip712Signer Wallet}
    (h : signer.domain = ⟨421614⟩) {action : UserAction} {signed : SignedUserAction}
    (hsigned : signer.signUserAction keccak ops action = .ok signed) :
    field? "hyperliquidChain" signed.action = some (.str "Testnet") := by
  have hchain : signer.chainName = "Testnet" := by
    rw [chainName, h]
    rfl
  unfold signUserAction at hsigned
  split at hsigned
  · cases hsigned
  · cases hsigned
    rw [hchain]
    cases action <;> rfl

/-- The two L1 signers agree on the testnet only. -/
theorem Eip712Signer.l1Message_eq_iff {signer : Eip712Signer Wallet}
    (h : signer.domain = ⟨421614⟩) (isTestnet : Bool)
    (hinj : Set.InjOn keccak {x | x = domainPreimage keccak "Exchange" 42161 ∨
      x = domainPreimage keccak "Exchange" 421614})
    (actionBytes : Bytes) (nonce : UInt64) (vault : Option Address) :
    HyperliquidAuth.l1Message keccak isTestnet actionBytes nonce vault =
      signer.l1Message keccak actionBytes nonce vault ↔ isTestnet = true := by
  rw [l1Message, h]
  cases isTestnet with
  | true => exact iff_of_true rfl rfl
  | false =>
    refine iff_of_false (fun heq => ?_) (by decide)
    have hdomains : computeDomainSeparator keccak 42161 = l1DomainSeparator keccak 421614 := by
      have hcancel := List.append_cancel_right heq
      exact Subtype.ext (List.append_cancel_left hcancel)
    have hpreimage := hinj (Or.inl rfl) (Or.inr rfl) hdomains
    exact absurd (domainPreimage_inj hpreimage) (by decide)

/-- **Main theorem.** For a signer of either network: its messages are those of the other network;
    different actions have different messages; the action that it sends names its network only on
    the testnet; and it agrees with the other L1 signer only there. -/
theorem network_signatures {isTestnet : Bool} {signer : Eip712Signer Wallet}
    (h : Eip712Signer.new ops toLowercase credentials isTestnet = .ok signer) :
    (∀ other, Eip712Signer.new ops toLowercase credentials (!isTestnet) = .ok other →
        ∀ action, signer.userMessage keccak action = other.userMessage keccak action) ∧
      (∀ action action', Set.InjOn keccak (hashedFor keccak signer.chainName action action') →
        (signer.userMessage keccak action = signer.userMessage keccak action' ↔
          action = action')) ∧
      (∀ action signed, signer.signUserAction keccak ops action = .ok signed →
        (field? "hyperliquidChain" signed.action = some (.str (networkName isTestnet)) ↔
          isTestnet = true)) ∧
      (Set.InjOn keccak {x | x = domainPreimage keccak "Exchange" 42161 ∨
          x = domainPreimage keccak "Exchange" 421614} →
        ∀ actionBytes nonce vault,
          HyperliquidAuth.l1Message keccak isTestnet actionBytes nonce vault =
            signer.l1Message keccak actionBytes nonce vault ↔ isTestnet = true) := by
  have hdomain := Eip712Signer.domain_of_new h
  refine ⟨fun other hother action => ?_, fun action action' => signer.userMessage_eq_iff,
    fun action signed hsigned => ?_, fun hinj => Eip712Signer.l1Message_eq_iff hdomain _ hinj⟩
  · apply Eip712Signer.userMessage_congr
    rw [hdomain, Eip712Signer.domain_of_new hother]
  · rw [Eip712Signer.hyperliquidChain_of_sign hdomain hsigned]
    cases isTestnet <;> simp [networkName]

end Signers

/-- A wallet that is its key. -/
def keyWallet : WalletOps String :=
  ⟨.ok, fun key => key, fun _ _ => .ok ⟨"0x1", "0x2", 27⟩⟩

/-- A digest that tells the byte strings below apart. -/
def residue (bs : Bytes) : Digest :=
  ⟨toBe 32 (Msgpack.ofBe bs % (2 ^ 256 - 189)), Msgpack.length_toBe _ _⟩

/-- A signer for mainnet. -/
def mainnetSigner : Eip712Signer String := ⟨"0x5", .mainnet, "0x5"⟩

theorem network_signatures_residue : HyperliquidAuth.l1Message residue false [] 1 none ≠
    mainnetSigner.l1Message residue [] 1 none := by
  have hne : residue (domainPreimage residue "Exchange" 42161) ≠
      residue (domainPreimage residue "Exchange" 421614) := by decide +kernel
  have hinj : Set.InjOn residue {x | x = domainPreimage residue "Exchange" 42161 ∨
      x = domainPreimage residue "Exchange" 421614} := by
    rintro x (rfl | rfl) y (rfl | rfl) hxy
    · rfl
    · exact absurd hxy hne
    · exact absurd hxy.symm hne
    · rfl
  intro heq
  have hiff := (@network_signatures residue String keyWallet id ⟨"", "0x5"⟩ false mainnetSigner
    rfl).2.2.2 hinj [] 1 none
  exact absurd (hiff.mp heq) (by decide)

/-- A signer for mainnet sends an action that names the testnet. -/
theorem mainnet_signs_testnet : ¬ ∀ (isTestnet : Bool) (signer : Eip712Signer String)
    (action : UserAction) (signed : Eip712Signer.SignedUserAction),
    Eip712Signer.new keyWallet id ⟨"", "0x5"⟩ isTestnet = .ok signer →
      signer.signUserAction residue keyWallet action = .ok signed →
        field? "hyperliquidChain" signed.action = some (.str (networkName isTestnet)) := by
  intro h
  have hname := h false mainnetSigner (.usdSend "0x6" "1.0" 7) _ rfl rfl
  simp [field?, UserAction.json, networkName, Eip712Signer.chainName, mainnetSigner,
    HyperliquidDomain.mainnet, List.lookup_cons] at hname

end Digdigdig3.Hyperliquid
