import Mintpool.Proof.Inclusion

/-!
# From a log to a row and back

`map_claim` writes an id from an event, `metadata` writes one from a premint, and neither
knows of the other. They spell the same three values in the same way, so a claim that a
checker makes hits the row of the premint that was minted, and no other.

`verify_claim` undoes `map_claim` only for the kind it was first written for: it compares
the claim's kind with a literal, where `map_claim` writes the kind of the macro's invocation.
-/

namespace Mintpool.Proof

open Mintpool PremintStorage

/-! ## The row of a mint -/

section Row

variable {Text : Type} [Alloy] [Codec Text]

/-- The row holds the V2 premint that the event brings on the chain. -/
def HoldsMinted (chainId : UInt64) (event : PremintedV2) (r : Row Text) : Prop :=
  ∃ p : V2, PremintTypes.fromJson r.json = .ok (.zoraV2 p) ∧ p.chainId = chainId
    ∧ p.collectionAddress = event.contractAddress ∧ p.premint.uid = event.uid

/-- The claim of this kind that a log with this event makes. -/
def mappedClaim (kind : String) (chainId : UInt64) (log : Log) (event : PremintedV2) :
    InclusionClaim where
  premintId := ZoraPremint.eventToGuid chainId event
  chainId := chainId
  txHash := log.transactionHash.getD 0
  logIndex := log.logIndex.getD 0
  kind := kind

theorem mapClaim_of_decodes (Config : Type) [Namespace Config] (chainId : UInt64) {log : Log}
    {event : PremintedV2} (h : Alloy.decodePremintedV2 log.topics log.data = .ok event) :
    ZoraPremint.mapClaim Config chainId log
      = .ok (mappedClaim (Namespace.kind Config) chainId log event) := by
  unfold ZoraPremint.mapClaim
  rw [h]
  rfl

omit [Codec Text] [Alloy] in
/-- **The id of an event is the id of a premint exactly when they agree on all three.** -/
theorem eventToGuid_eq_id_iff {Config : Type} [Namespace Config] {p : ZoraPremint Config}
    {chainId : UInt64} {event : PremintedV2} :
    p.metadata.id = ZoraPremint.eventToGuid chainId event
      ↔ p.chainId = chainId ∧ p.collectionAddress = event.contractAddress
        ∧ p.premint.uid = event.uid := by
  refine ⟨fun h => ?_, fun ⟨hchain, hcollection, huid⟩ => ?_⟩
  · obtain ⟨hchain, hcollection, huid⟩ := formatId_inj h
    exact ⟨hchain, hcollection, UInt32.toNat_inj.mp huid⟩
  · show formatId p.chainId p.collectionAddress p.premint.uid.toNat = _
    rw [hchain, hcollection, huid]
    rfl

/-- **The three columns of the statement pick out the row of the mint.** -/
theorem claimMatches_iff_holdsMinted {chainId : UInt64} {log : Log} {event : PremintedV2}
    {claim : InclusionClaim} {r : Row Text} {q : PremintTypes} (hq : Holds r q)
    (hdecode : Alloy.decodePremintedV2 log.topics log.data = .ok event)
    (hclaim : ZoraPremint.mapClaim IZoraPremintV2.TokenCreationConfig chainId log = .ok claim) :
    claimMatches claim r = true ↔ HoldsMinted chainId event r := by
  rw [mapClaim_of_decodes _ chainId hdecode] at hclaim
  obtain rfl := Except.ok.inj hclaim
  obtain ⟨hkind, hid⟩ := Prod.mk.inj hq.key
  simp only [claimMatches, Bool.and_eq_true, decide_eq_true_eq]
  refine ⟨fun hmatches => ?_, fun hholds => ?_⟩
  · -- the row has the claim's kind and id, so its premint is a V2 premint of that id
    obtain ⟨⟨hid', _⟩, hkind'⟩ := hmatches
    obtain ⟨p, rfl⟩ := kind_zoraV2_iff.mp (hkind.symm.trans hkind')
    obtain ⟨hchain, hcollection, huid⟩ := eventToGuid_eq_id_iff.mp (hid.symm.trans hid')
    exact ⟨p, hq.json, hchain, hcollection, huid⟩
  · -- the claim's id is made of the fields that the premint shares with the event
    obtain ⟨p, hjson, hchain, hcollection, huid⟩ := hholds
    obtain rfl : q = .zoraV2 p := Except.ok.inj (hq.json.symm.trans hjson)
    have hguid := eventToGuid_eq_id_iff.mpr ⟨hchain, hcollection, huid⟩
    refine ⟨⟨hid.trans hguid, ?_⟩, hkind⟩
    rw [hq.chainId, ← hchain]
    rfl

/-- What handling the claim of an event has to do to the rows. -/
structure RetiresMinted (c : Controller Text) (chainId : UInt64) (event : PremintedV2)
    (c' : Controller Text) : Prop where
  /-- There is no second row of the mint. -/
  unique : ∀ r ∈ c.store.table.rows, ∀ r' ∈ c.store.table.rows,
    HoldsMinted chainId event r → HoldsMinted chainId event r' → r = r'
  /-- The row of the mint is deleted or marked, and every other row stays. -/
  retires : ∀ r ∈ c.store.table.rows, HoldsMinted chainId event r →
    c'.store.table.rows = retireRow c.store r
  /-- Without such a row nothing changes. -/
  absent : (∀ r ∈ c.store.table.rows, ¬ HoldsMinted chainId event r) →
    c'.store.table = c.store.table

/--
**An event retires the row of its premint, and no other.** In every reachable state of any
node, for every chain and every log that decodes.
-/
theorem event_retires_its_row [LawfulCodec Text] [Libp2p] {config : Config}
    {rules : RulesEngine Text} {is : List Controller.Input} {c : Controller Text}
    (hrun : Controller.Run (.new config rules) is c) {chainId : UInt64} {log : Log}
    {event : PremintedV2} {claim : InclusionClaim}
    (hdecode : Alloy.decodePremintedV2 log.topics log.data = .ok event)
    (hclaim : ZoraPremint.mapClaim IZoraPremintV2.TokenCreationConfig chainId log = .ok claim)
    (m : Moment) :
    ∃ c', c.handleCommand m (.resolveOnchainMint claim) = .ret (.none, .ok (), c')
      ∧ RetiresMinted c chainId event c' := by
  have hmatches : ∀ r ∈ c.store.table.rows,
      (claimMatches claim r = true ↔ HoldsMinted chainId event r) := fun r hr => by
    obtain ⟨q, hq⟩ := allHold_run hrun r hr
    exact claimMatches_iff_holdsMinted hq hdecode hclaim
  have hhandled : ∃ c', c.handleCommand m (.resolveOnchainMint claim) = .ret (.none, .ok (), c')
      ∧ c'.store = c.store.markSeenOnChain claim := by
    unfold Controller.handleCommand
    dsimp only
    split
    · exact ⟨_, rfl, (sendSwarm_same _ _).1⟩
    · exact ⟨_, rfl, rfl⟩
  obtain ⟨c', hc', hstore⟩ := hhandled
  refine ⟨c', hc', ⟨fun r hr r' hr' h h' => ?_, fun r hr h => ?_, fun hnone => ?_⟩⟩
  · -- the claim names one kind and one id, which are the key of the table
    have hm := (hmatches r hr).mpr h
    have hm' := (hmatches r' hr').mpr h'
    simp only [claimMatches, Bool.and_eq_true, decide_eq_true_eq] at hm hm'
    refine Lib.KeyedTable.eq_of_key_eq hr hr' ?_
    rw [Row.key, Row.key, hm.2, hm.1.1, hm'.2, hm'.1.1]
  · rw [hstore, mark_rows hr ((hmatches r hr).mpr h)]
  · rw [hstore]
    by_contra hne
    obtain ⟨r, hr, hmark, _⟩ := mark_table_ne_iff.mp hne
    exact hnone r hr ((hmatches r hr).mp hmark)

end Row

/-! ## Mapping a claim and verifying it -/

section Verify

variable [Alloy] {Config : Type} [Namespace Config]

/-- The event is of this premint. -/
def EventOf (p : ZoraPremint Config) (event : PremintedV2) : Prop :=
  event.contractAddress = p.collectionAddress ∧ event.uid = p.premint.uid

/-- A log of the receipt, from the factory and complete, with this event. -/
structure FactoryLog (tx : TransactionReceipt) (log : Log) (event : PremintedV2) : Prop where
  inReceipt : log ∈ tx.logs
  factory : log.address = PREMINT_FACTORY_ADDR
  hash : log.transactionHash = some tx.transactionHash
  index : log.logIndex.isSome
  decodes : Alloy.decodePremintedV2 log.topics log.data = .ok event

/-- Whether `verify_claim` answers to the claim that `map_claim` makes, and to no other. -/
structure VerifiesMapped (p : ZoraPremint Config) (tx : TransactionReceipt) (log : Log)
    (event : PremintedV2) : Prop where
  mapped : ∀ claim, ZoraPremint.mapClaim Config p.chainId log = .ok claim →
    (p.verifyClaim p.chainId tx log claim = true ↔ EventOf p event)
  others : ∀ claim, ZoraPremint.mapClaim Config p.chainId log ≠ .ok claim →
    p.verifyClaim p.chainId tx log claim = false

/-- **What verifies is the mapped claim of an event of the premint, with the V2 kind.** -/
theorem verifyClaim_factoryLog_iff {p : ZoraPremint Config} {tx : TransactionReceipt} {log : Log}
    {event : PremintedV2} (hlog : FactoryLog tx log event) {claim : InclusionClaim} :
    p.verifyClaim p.chainId tx log claim = true
      ↔ EventOf p event ∧ claim = mappedClaim "zora_premint_v2" p.chainId log event := by
  have hhash : log.transactionHash.getD 0 = tx.transactionHash := by rw [hlog.hash]; rfl
  rw [verifyClaim_iff]
  refine ⟨?_, fun ⟨⟨hcollection, huid⟩, hclaim⟩ => ?_⟩
  · rintro ⟨event', hevent, _, _, htx, hindex, hguid, hkind, hchain, hcollection, huid⟩
    obtain rfl : event' = event := Except.ok.inj (hevent.symm.trans hlog.decodes)
    refine ⟨⟨hcollection.symm, huid.symm⟩, ?_⟩
    cases claim
    simp only [mappedClaim, InclusionClaim.mk.injEq]
    exact ⟨hguid, hchain, htx.trans hhash.symm, hindex, hkind⟩
  · rw [hclaim]
    exact ⟨event, hlog.decodes, hlog.factory, hhash, hhash, rfl, rfl, rfl, rfl,
      hcollection.symm, huid.symm⟩

/--
**Exactly when mapping and verifying agree.** For every invocation of the macro: its kind is
the one `verify_claim` has in mind, or the log is not of the premint at all.
-/
theorem verifiesMapped_iff {p : ZoraPremint Config} {tx : TransactionReceipt} {log : Log}
    {event : PremintedV2} (hlog : FactoryLog tx log event) :
    VerifiesMapped p tx log event
      ↔ Namespace.kind Config = "zora_premint_v2" ∨ ¬ EventOf p event := by
  have hmap := mapClaim_of_decodes Config p.chainId hlog.decodes
  refine ⟨fun ⟨hmapped, _⟩ => ?_, fun h => ⟨fun claim hclaim => ?_, fun claim hclaim => ?_⟩⟩
  · by_cases hevent : EventOf p event
    · -- the mapped claim verifies, so its kind is the literal
      have hverify := (hmapped _ hmap).mpr hevent
      exact .inl (congrArg InclusionClaim.kind ((verifyClaim_factoryLog_iff hlog).mp hverify).2)
    · exact .inr hevent
  · rw [hmap] at hclaim
    obtain rfl := Except.ok.inj hclaim
    rw [verifyClaim_factoryLog_iff hlog]
    refine ⟨And.left, fun hevent => ⟨hevent, ?_⟩⟩
    rw [h.resolve_right (not_not_intro hevent)]
  · rw [Bool.eq_false_iff]
    intro hverify
    obtain ⟨hevent, rfl⟩ := (verifyClaim_factoryLog_iff hlog).mp hverify
    rw [hmap, h.resolve_right (not_not_intro hevent)] at hclaim
    exact hclaim rfl

end Verify

/-! ## An ERC20 mint -/

section Example

open Sample

attribute [local instance] Sample.alloy Sample.libp2p

/-- The premint of `mintReceipt`'s token, in either namespace. -/
def mintedPremint {Config : Type} (config : Config) : ZoraPremint Config where
  collectionAddress := 1
  chainId := 7777777
  premint := { tokenConfig := config, uid := 1 }

theorem mintReceipt_factoryLog :
    ∃ log ∈ (mintReceipt 0).logs, FactoryLog (mintReceipt 0) log mintEvent := by
  have hmints := mintReceipt_mints 0 _ List.mem_cons_self
  exact ⟨_, List.mem_cons_self, List.mem_cons_self, rfl, rfl, rfl, hmints.decodes⟩

/-- **The claim of its own mint does not verify against an ERC20 premint.** -/
theorem erc20_claim_not_verified : ∃ log, FactoryLog (mintReceipt 0) log mintEvent
    ∧ ¬ VerifiesMapped (mintedPremint ({} : IZoraPremintERC20V1.TokenCreationConfig))
      (mintReceipt 0) log mintEvent := by
  obtain ⟨log, _, hlog⟩ := mintReceipt_factoryLog
  refine ⟨log, hlog, fun h => ?_⟩
  have hmap := mapClaim_of_decodes IZoraPremintERC20V1.TokenCreationConfig 7777777 hlog.decodes
  have hverify := (h.mapped _ hmap).mpr ⟨rfl, rfl⟩
  obtain ⟨_, _, _, _, _, _, _, hliteral, _⟩ := verifyClaim_iff.mp hverify
  have hkind : "zora_premint_erc20v1" = "zora_premint_v2" := hliteral
  exact absurd hkind (by decide)

/-- Against a V2 premint it does. -/
theorem v2_claim_verified : ∃ log,
    VerifiesMapped (mintedPremint ({} : IZoraPremintV2.TokenCreationConfig)) (mintReceipt 0) log
      mintEvent := by
  obtain ⟨log, _, hlog⟩ := mintReceipt_factoryLog
  exact ⟨log, (verifiesMapped_iff hlog).mpr (.inl rfl)⟩

/-- A node that has the premint is told of its mint: the table is empty again. -/
theorem minted_row_retired : ∃ c', mintNode.handleCommand offline
      (.resolveOnchainMint (mintClaim 0)) = .ret (.none, .ok (), c')
    ∧ RetiresMinted mintNode 7777777 mintEvent c' := by
  have hrun :
      Controller.Run (node {}) [.event (.premintReceived (.zoraV2 validPremint))] mintNode :=
    .snoc .nil (.event (.premintReceived offline _))
  have hmints := mintReceipt_mints 0 _ List.mem_cons_self
  exact event_retires_its_row hrun hmints.decodes (mapClaim_of_mints hmints) offline

end Example

end Mintpool.Proof
