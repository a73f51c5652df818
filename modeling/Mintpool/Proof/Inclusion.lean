import Mintpool.Proof.Crash

/-!
# Claims and receipts

A checker turns a log it is sent into a claim, and a verifier looks the claim up in a
receipt and compares the two. Soundness is in good order: a claim that passes names
the premint by an id that spells out the chain, so the log is the mint of the one row
that is then marked. Completeness is not: the claim carries the log's index in its
block, and the verifier uses it as the position in the receipt. The two agree only in
the first transaction of a block that logs anything.
-/

namespace Mintpool.Proof

open Mintpool PremintStorage

section Inclusion

variable [Alloy]

/-! ## What a verified claim says -/

/-- **Everything `verify_claim` compares.** -/
theorem verifyClaim_iff {Config : Type} [Namespace Config] {p : ZoraPremint Config}
    {chainId : UInt64} {tx : TransactionReceipt} {log : Log} {claim : InclusionClaim} :
    p.verifyClaim chainId tx log claim = true
      ↔ ∃ event, Alloy.decodePremintedV2 log.topics log.data = .ok event
        ∧ log.address = PREMINT_FACTORY_ADDR
        ∧ log.transactionHash.getD 0 = tx.transactionHash
        ∧ claim.txHash = tx.transactionHash
        ∧ claim.logIndex = log.logIndex.getD 0
        ∧ claim.premintId = ZoraPremint.eventToGuid chainId event
        ∧ claim.kind = "zora_premint_v2"
        ∧ claim.chainId = chainId
        ∧ p.collectionAddress = event.contractAddress
        ∧ p.premint.uid = event.uid := by
  unfold ZoraPremint.verifyClaim
  cases Alloy.decodePremintedV2 log.topics log.data with
  | error e => simp
  | ok event =>
      simp only [List.all_cons, List.all_nil, Bool.and_eq_true, Bool.and_true, decide_eq_true_eq,
        Except.ok.injEq, exists_eq_left']

/-- The check succeeds exactly when the premint verifies the log that the receipt has at
the claim's index. -/
theorem inclusionClaimCorrect_iff {chains : Chains} {premint : PremintTypes}
    {claim : InclusionClaim} :
    inclusionClaimCorrect chains premint claim = .ret (.ok true)
      ↔ ∃ chain tx log, chains.getRpc claim.chainId = .ok chain
        ∧ chain.getTransactionReceipt claim.txHash = .ok (some tx)
        ∧ tx.logs[claim.logIndex.toNat]? = some log
        ∧ premint.verifyClaim claim.chainId tx log claim = .ret true := by
  unfold inclusionClaimCorrect
  constructor
  · intro h
    split at h
    · cases h
    · rename_i chain hchain
      split at h
      · cases h
      · cases h
      · rename_i tx htx
        split at h
        · cases h
        · rename_i log hlog
          refine ⟨chain, tx, log, hchain, htx, hlog, ?_⟩
          split at h
          · rename_i hverify; cases h; exact hverify
          · cases h
  · rintro ⟨chain, tx, log, hchain, htx, hlog, hverify⟩
    simp only [hchain, htx, hlog, hverify]

theorem verifyClaim_zoraV2 {p : V2} {chainId : UInt64} {tx : TransactionReceipt} {log : Log}
    {claim : InclusionClaim} :
    (PremintTypes.zoraV2 p).verifyClaim chainId tx log claim = .ret true
      ↔ p.verifyClaim chainId tx log claim = true :=
  ⟨fun h => Outcome.ret.inj h, congrArg Outcome.ret⟩

/-- Whatever the premint, a claim that verifies is of the V2 kind. -/
theorem kind_of_verifyClaim {premint : PremintTypes} {chainId : UInt64} {tx : TransactionReceipt}
    {log : Log} {claim : InclusionClaim}
    (h : premint.verifyClaim chainId tx log claim = .ret true) :
    claim.kind = "zora_premint_v2" := by
  cases premint with
  | simple q => cases h
  | zoraV2 q =>
      obtain ⟨_, _, _, _, _, _, _, hkind, _⟩ := verifyClaim_iff.mp (Outcome.ret.inj h)
      exact hkind
  | zoraERC20V1 q =>
      obtain ⟨_, _, _, _, _, _, _, hkind, _⟩ := verifyClaim_iff.mp (Outcome.ret.inj h)
      exact hkind

/-! ## Completeness -/

/-- A receipt as the JSON-RPC has it: its logs carry its hash, and follow each other in
the block from index `base` on. -/
structure Mined (base : Nat) (tx : TransactionReceipt) : Prop where
  hash : ∀ log ∈ tx.logs, log.transactionHash = some tx.transactionHash
  index : ∀ i log, tx.logs[i]? = some log → log.logIndex = some (UInt64.ofNat (base + i))
  inBlock : base + tx.logs.length ≤ 2 ^ 64

/-- A log of the transaction that brings the premint on chain. -/
structure Mints (chainId : UInt64) (log : Log) (event : PremintedV2) (p : V2) : Prop where
  factory : log.address = PREMINT_FACTORY_ADDR
  decodes : Alloy.decodePremintedV2 log.topics log.data = .ok event
  chain : p.chainId = chainId
  collection : p.collectionAddress = event.contractAddress
  uid : p.premint.uid = event.uid

/-- The claim a checker makes of it. -/
theorem mapClaim_of_mints {chainId : UInt64} {log : Log} {event : PremintedV2} {p : V2}
    (h : Mints chainId log event p) :
    ZoraPremint.mapClaim IZoraPremintV2.TokenCreationConfig chainId log = .ok {
      premintId := ZoraPremint.eventToGuid chainId event
      chainId := chainId
      txHash := log.transactionHash.getD 0
      logIndex := log.logIndex.getD 0
      kind := "zora_premint_v2" } := by
  unfold ZoraPremint.mapClaim
  rw [h.decodes]
  rfl

omit [Alloy] in
/-- In a block, a position and an index are told apart by the base. -/
theorem logIndex_eq_iff {base i j : Nat} (hi : base + i < 2 ^ 64) (hj : base + j < 2 ^ 64) :
    UInt64.ofNat (base + i) = UInt64.ofNat (base + j) ↔ i = j := by
  constructor
  · intro h
    have htoNat := congrArg UInt64.toNat h
    simp only [UInt64.toNat_ofNat'] at htoNat
    rw [Nat.mod_eq_of_lt hi, Nat.mod_eq_of_lt hj] at htoNat
    omega
  · rintro rfl; rfl

/--
**A genuine claim is accepted exactly when its transaction's logs are the first of the
block.**

For every chain, every receipt, every position in it and every premint.
-/
theorem genuine_claim_accepted_iff {chains : Chains} {chain : Provider} {chainId : UInt64}
    {base i : Nat} {tx : TransactionReceipt} {log : Log} {event : PremintedV2} {p : V2}
    {claim : InclusionClaim} (hchain : chains.getRpc chainId = .ok chain)
    (hreceipt : chain.getTransactionReceipt tx.transactionHash = .ok (some tx))
    (hmined : Mined base tx) (hlog : tx.logs[i]? = some log) (hmints : Mints chainId log event p)
    (hclaim : ZoraPremint.mapClaim IZoraPremintV2.TokenCreationConfig chainId log = .ok claim) :
    inclusionClaimCorrect chains (.zoraV2 p) claim = .ret (.ok true) ↔ base = 0 := by
  rw [mapClaim_of_mints hmints] at hclaim
  obtain rfl := Except.ok.inj hclaim
  have hlt : i < tx.logs.length := (List.getElem?_eq_some_iff.mp hlog).1
  have hbound := hmined.inBlock
  have hhash : log.transactionHash.getD 0 = tx.transactionHash := by
    rw [hmined.hash log (List.mem_of_getElem? hlog)]; rfl
  have hindex : log.logIndex.getD 0 = UInt64.ofNat (base + i) := by
    rw [hmined.index i log hlog]; rfl
  have hposition : (UInt64.ofNat (base + i)).toNat = base + i := by
    rw [UInt64.toNat_ofNat', Nat.mod_eq_of_lt (by omega)]
  rw [inclusionClaimCorrect_iff]
  dsimp only
  rw [hhash, hindex, hposition]
  constructor
  · rintro ⟨chain', tx', log', hchain', htx', hlog', hverify⟩
    rw [hchain] at hchain'
    obtain rfl := Except.ok.inj hchain'
    rw [hreceipt] at htx'
    obtain rfl := Option.some.inj (Except.ok.inj htx')
    -- the log found there carries the index of its own position
    obtain ⟨_, _, _, _, _, hsame, _⟩ := verifyClaim_iff.mp (verifyClaim_zoraV2.mp hverify)
    rw [hmined.index _ log' hlog'] at hsame
    have hlt' : base + i < tx.logs.length := (List.getElem?_eq_some_iff.mp hlog').1
    have := (logIndex_eq_iff (by omega) (by omega)).mp hsame
    omega
  · rintro rfl
    refine ⟨chain, tx, log, hchain, hreceipt, by rw [Nat.zero_add]; exact hlog, ?_⟩
    rw [verifyClaim_zoraV2, verifyClaim_iff]
    exact ⟨event, hmints.decodes, hmints.factory, hhash, rfl, hindex.symm, rfl, rfl, rfl,
      hmints.collection, hmints.uid⟩

/-! ## Soundness -/

variable {Text : Type} [Codec Text]

/-- The table with one row deleted, or marked. -/
def retireRow (s : PremintStorage Text) (r : Row Text) : List (Row Text) :=
  if s.pruneMintedPremints then s.table.rows.filter (fun r' => r'.key ≠ r.key)
  else s.table.rows.map (fun r' => if r'.key = r.key then markRow r' else r')

omit [Alloy] [Codec Text] in
/-- **A claim that matches a row retires that row alone.** -/
theorem mark_rows {s : PremintStorage Text} {claim : InclusionClaim} {r : Row Text}
    (hmem : r ∈ s.table.rows) (hmatches : claimMatches claim r = true) :
    (s.markSeenOnChain claim).table.rows = retireRow s r := by
  -- kind and id are the key, so the claim matches this row and no other
  have hiff : ∀ r' ∈ s.table.rows, claimMatches claim r' = decide (r'.key = r.key) := by
    intro r' hmem'
    rw [Bool.eq_iff_iff, decide_eq_true_eq]
    constructor
    · intro h
      simp only [claimMatches, Bool.and_eq_true, decide_eq_true_eq] at h hmatches
      rw [Row.key, Row.key, h.2, h.1.1, hmatches.2, hmatches.1.1]
    · intro h
      rw [Lib.KeyedTable.eq_of_key_eq hmem' hmem h, hmatches]
  unfold markSeenOnChain retireRow
  split
  · refine List.filter_congr fun r' hmem' => ?_
    rw [hiff r' hmem', decide_not]
  · refine List.map_congr_left fun r' hmem' => ?_
    simp only [hiff r' hmem', decide_eq_true_eq]

/-- The receipt that the premint's own chain returns for the claim's transaction has, at
the claim's position, a log of the factory that mints the premint. -/
def MintOnChain (chains : Chains) (p : V2) (claim : InclusionClaim) : Prop :=
  ∃ chain tx log event, chains.getRpc p.chainId = .ok chain
    ∧ chain.getTransactionReceipt claim.txHash = .ok (some tx)
    ∧ tx.logs[claim.logIndex.toNat]? = some log ∧ Mints p.chainId log event p

/-- **A correct claim about a stored premint is about a mint on the premint's chain.** -/
theorem mintOnChain_of_correct {chains : Chains} {p : V2} {claim : InclusionClaim}
    (hid : claim.premintId = p.metadata.id)
    (h : inclusionClaimCorrect chains (.zoraV2 p) claim = .ret (.ok true)) :
    claim.chainId = p.chainId ∧ MintOnChain chains p claim := by
  obtain ⟨chain, tx, log, hchain, htx, hlog, hverify⟩ := inclusionClaimCorrect_iff.mp h
  obtain ⟨event, hdecode, hfactory, _, _, _, hguid, _, _, hcollection, huid⟩ :=
    verifyClaim_iff.mp (verifyClaim_zoraV2.mp hverify)
  -- the id spells out the chain it is on
  have hsame : p.chainId = claim.chainId :=
    (formatId_inj (hid.symm.trans hguid)).1
  refine ⟨hsame.symm, chain, tx, log, event, by rw [hsame]; exact hchain, htx, hlog, ?_⟩
  exact ⟨hfactory, hdecode, rfl, hcollection, huid⟩

/-- What a node that checks may do with a claim in this state. -/
structure PrunesSoundly [Libp2p] (c : Controller Text) (chains : Chains) (claim : InclusionClaim)
    (c' : Controller Text) : Prop where
  /-- If the table changes, exactly one V2 row is retired, and its premint is minted. -/
  minted : c'.store.table ≠ c.store.table →
    ∃ r ∈ c.store.table.rows, ∃ p : V2, Holds r (.zoraV2 p)
      ∧ c'.store.table.rows = retireRow c.store r ∧ MintOnChain chains p claim
  /-- If the claim is not correct of the premint it names, nothing changes. -/
  incorrect : (∀ premint, c.store.getForIdAndKind claim.premintId ⟨claim.kind⟩ = .ok premint →
      inclusionClaimCorrect chains premint claim ≠ .ret (.ok true)) →
    c'.store.table = c.store.table

/--
**Pruning is sound.** In every reachable state of a node that checks or verifies, for
every claim and whatever the chains answer.
-/
theorem pruning_sound [LawfulCodec Text] [Libp2p] {config : Config} {rules : RulesEngine Text}
    {is : List Controller.Input} {c c' : Controller Text} {m : Moment}
    {peerClaim : PeerInclusionClaim} {result : Except Report Unit}
    (hrun : Controller.Run (.new config rules) is c)
    (hmode : config.chainInclusionMode ≠ .trust)
    (h : c.handleEventOnchainClaim m peerClaim = .ret (result, c')) :
    PrunesSoundly c m.chains peerClaim.claim c' := by
  have hconfig := (run_same hrun).2
  rw [handleEventOnchainClaim_of_ne_trust m peerClaim (by rw [hconfig]; exact hmode)] at h
  rcases checkClaim_cases h with rfl | ⟨premint, hget, hcorrect, rfl⟩
  · exact ⟨fun hne => absurd rfl hne, fun _ => rfl⟩
  · refine ⟨fun _ => ?_, fun hincorrect => absurd hcorrect (hincorrect premint hget)⟩
    -- the row that the claim names holds a V2 premint
    obtain ⟨r, hmem, hkey, hjson⟩ := getForIdAndKind_ok hget
    obtain ⟨q, hq⟩ := allHold_run hrun r hmem
    have hqp : q = premint := Except.ok.inj (hq.json.symm.trans hjson)
    have hpkey : premintKey premint = (peerClaim.claim.kind, peerClaim.claim.premintId) := by
      rw [← hqp, ← hq.key, hkey]
    obtain ⟨_, _, _, _, _, _, hverify⟩ := inclusionClaimCorrect_iff.mp hcorrect
    obtain ⟨p, rfl⟩ := kind_zoraV2_iff.mp
      ((congrArg Prod.fst hpkey).trans (kind_of_verifyClaim hverify))
    -- so the claim is about its mint, and matches its row
    obtain ⟨hchain, hmint⟩ :=
      mintOnChain_of_correct (congrArg Prod.snd hpkey).symm hcorrect
    rw [hqp] at hq
    have hmatches : claimMatches peerClaim.claim r = true := by
      have hrowChain : r.chainId = peerClaim.claim.chainId.toInt64 := by
        rw [hq.chainId, hchain]; rfl
      obtain ⟨hkind, hid⟩ := Prod.mk.inj hkey
      simp [claimMatches, hkind, hid, hrowChain]
    exact ⟨r, hmem, p, hq, mark_rows hmem hmatches, hmint⟩

end Inclusion

/-! ## The second transaction of a block -/

section Example

open Sample

attribute [local instance] Sample.alloy Sample.libp2p

/-- The event's words after its topics: the uid, the minter and the quantity. -/
def mintData : List UInt8 :=
  List.replicate 31 0 ++ [1] ++ List.replicate 31 0 ++ [9] ++ List.replicate 31 0 ++ [1]

/-- A transaction with one log, which mints `validPremint`, at this index of its block. -/
def mintReceipt (index : UInt64) : TransactionReceipt where
  transactionHash := 5
  logs := [{
    address := PREMINT_FACTORY_ADDR
    topics := [premintedV2Topic, 1, 1, 1]
    data := mintData
    transactionHash := some 5
    logIndex := some index }]

def mintEvent : PremintedV2 := ⟨1, 1, true, 1, 9, 1⟩

/-- A chain with this one transaction. -/
def oneReceipt (tx : TransactionReceipt) : Provider where
  getTransactionReceipt hash := .ok (if hash = tx.transactionHash then some tx else none)
  isAuthorizedToCreatePremint _ _ _ := .ok true
  premintStatus _ _ := .ok (true, 1)
  supportedPremintSignatureVersions _ := .ok ["2"]

theorem mintReceipt_mined (base : Nat) (h : base + 1 ≤ 2 ^ 64) :
    Mined base (mintReceipt (UInt64.ofNat base)) where
  hash log hlog := by
    rw [List.mem_singleton.mp hlog]; rfl
  index i log hlog := by
    cases i with
    | zero => cases hlog; rfl
    | succ i => simp [mintReceipt] at hlog
  inBlock := h

theorem mintReceipt_mints (base : Nat) : ∀ log ∈ (mintReceipt (UInt64.ofNat base)).logs,
    Mints 7777777 log mintEvent validPremint := by
  have hdecode : Alloy.decodePremintedV2 [premintedV2Topic, 1, 1, 1] mintData
      = .ok mintEvent := by decide +kernel
  intro log hlog
  rw [List.mem_singleton.mp hlog]
  exact ⟨rfl, hdecode, rfl, rfl, rfl⟩

/-- A node's view of the chain. -/
def mintChains (index : UInt64) : Chains := ⟨fun _ => .ok (oneReceipt (mintReceipt index))⟩

/-- The claim a checker makes of the log. -/
def mintClaim (index : UInt64) : InclusionClaim :=
  ⟨(PremintTypes.zoraV2 validPremint).metadata.id, 7777777, 5, index, "zora_premint_v2"⟩

/-- **The mint is the second log of its block, and its claim is not accepted.** -/
theorem second_log_not_accepted :
    Mined 1 (mintReceipt 1)
      ∧ (∀ log ∈ (mintReceipt 1).logs, Mints 7777777 log mintEvent validPremint
        ∧ ZoraPremint.mapClaim IZoraPremintV2.TokenCreationConfig 7777777 log = .ok (mintClaim 1))
      ∧ inclusionClaimCorrect (mintChains 1) (.zoraV2 validPremint) (mintClaim 1)
        = .ret (.error (.msg "log index not found: 1")) := by
  refine ⟨mintReceipt_mined 1 (by decide), fun log hlog => ?_, rfl⟩
  have hmints := mintReceipt_mints 1 log hlog
  refine ⟨hmints, ?_⟩
  rw [mapClaim_of_mints hmints, List.mem_singleton.mp hlog]
  rfl

/-- As the first log of a block it is. -/
theorem first_log_accepted :
    inclusionClaimCorrect (mintChains 0) (.zoraV2 validPremint) (mintClaim 0)
      = .ret (.ok true) := by
  have hmints := mintReceipt_mints 0 _ List.mem_cons_self
  refine (genuine_claim_accepted_iff (i := 0) rfl rfl (mintReceipt_mined 0 (by decide)) rfl hmints
    ?_).mpr rfl
  rw [mapClaim_of_mints hmints]
  rfl

/-- A verifying node that has the premint. -/
def mintNode : Controller Wire := ((node {}).validateAndInsert offline (.zoraV2 validPremint)).2

/-- Given the claim, it does what it may: it deletes the row. -/
theorem first_log_pruned :
    PrunesSoundly mintNode (mintChains 0) (mintClaim 0)
      { mintNode with store := mintNode.store.markSeenOnChain (mintClaim 0) } := by
  have hrun :
      Controller.Run (node {}) [.event (.premintReceived (.zoraV2 validPremint))] mintNode :=
    .snoc .nil (.event (.premintReceived offline _))
  have hhandle : mintNode.handleEventOnchainClaim ⟨mintChains 0, ⟨0, 0⟩⟩ ⟨mintClaim 0, peerId "a"⟩
      = .ret (.ok (), { mintNode with store := mintNode.store.markSeenOnChain (mintClaim 0) }) := by
    have hget : mintNode.store.getForIdAndKind (mintClaim 0).premintId ⟨(mintClaim 0).kind⟩
        = .ok (.zoraV2 validPremint) := by decide +kernel
    have hcorrect : inclusionClaimCorrect (mintChains 0) (.zoraV2 validPremint) (mintClaim 0)
        = .ret (.ok true) := by decide +kernel
    rw [handleEventOnchainClaim_of_ne_trust _ _ (by decide +kernel)]
    unfold checkClaim
    dsimp only
    rw [hget]
    dsimp only
    rw [hcorrect]
  exact pruning_sound hrun (by decide) hhandle

end Example

end Mintpool.Proof
