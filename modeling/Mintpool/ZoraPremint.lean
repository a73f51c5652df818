import Mintpool.Types

/-!
# Zora premints

One macro, `implement_zora_premint_traits!`, generates a premint type and its
`Premint` implementation from a contract namespace, a kind and a version. Here the
macro is a definition over a class of namespaces, and its two invocations are the
two instances.

`verify_claim` compares the claim's kind with a literal, not with the macro's
`$kind` parameter.
-/

namespace Mintpool

/-- The parameters of one invocation of the macro. -/
class Namespace (Config : Type) where
  /-- `$kind` -/
  kind : String
  /-- `$version` -/
  version : String
  tokenURI : Config → String
  /-- `SolStruct::eip712_signing_hash` of the namespace's `CreatorAttribution` -/
  signingHash [Alloy] : Eip712Domain → CreatorAttribution Config → B256

instance : Namespace IZoraPremintV2.TokenCreationConfig where
  kind := "zora_premint_v2"
  version := "2"
  tokenURI := IZoraPremintV2.TokenCreationConfig.tokenURI
  signingHash := Alloy.signingHashV2

instance : Namespace IZoraPremintERC20V1.TokenCreationConfig where
  kind := "zora_premint_erc20v1"
  version := "ERC20_1"
  tokenURI := IZoraPremintERC20V1.TokenCreationConfig.tokenURI
  signingHash := Alloy.signingHashERC20V1

/-- The struct the macro declares. -/
structure ZoraPremint (Config : Type) where
  collectionAddress : Address := 0
  chainId : UInt64 := 0
  collection : ContractCreationConfig := {}
  premint : CreatorAttribution Config
  signature : String := ""
  deriving DecidableEq, Repr

abbrev V2 := ZoraPremint IZoraPremintV2.TokenCreationConfig
abbrev ERC20V1 := ZoraPremint IZoraPremintERC20V1.TokenCreationConfig

namespace ZoraPremint

variable {Config : Type} [Namespace Config]

def eventToGuid (chainId : UInt64) (event : PremintedV2) : String :=
  formatId chainId event.contractAddress event.uid.toNat

def eip712Domain (p : ZoraPremint Config) : Eip712Domain where
  name := "Preminter"
  version := Namespace.version Config
  chainId := BitVec.ofNat 256 p.chainId.toNat
  verifyingContract := p.collectionAddress

def metadata (p : ZoraPremint Config) : PremintMetadata where
  id := formatId p.chainId p.collectionAddress p.premint.uid.toNat
  version := p.premint.version.toUInt64
  kind := ⟨Namespace.kind Config⟩
  signer := p.collection.contractAdmin
  chainId := p.chainId
  collectionAddress := p.collectionAddress
  tokenId := BitVec.ofNat 256 p.premint.uid.toNat
  uri := Namespace.tokenURI p.premint.tokenConfig

variable [Alloy]

/-- The claim that a log of chain `chainId` makes. -/
def mapClaim (Config : Type) [Namespace Config] (chainId : UInt64) (log : Log) :
    Except Report InclusionClaim := do
  let event ← Alloy.decodePremintedV2 log.topics log.data
  return {
    premintId := eventToGuid chainId event
    chainId := chainId
    txHash := log.transactionHash.getD 0
    logIndex := log.logIndex.getD 0
    kind := Namespace.kind Config }

def verifyClaim (p : ZoraPremint Config) (chainId : UInt64) (tx : TransactionReceipt)
    (log : Log) (claim : InclusionClaim) : Bool :=
  match Alloy.decodePremintedV2 log.topics log.data with
  | .ok event =>
      let conditions : List Bool := [
        log.address = PREMINT_FACTORY_ADDR,
        log.transactionHash.getD 0 = tx.transactionHash,
        claim.txHash = tx.transactionHash,
        claim.logIndex = log.logIndex.getD 0,
        claim.premintId = eventToGuid chainId event,
        claim.kind = "zora_premint_v2",
        claim.chainId = chainId,
        p.collectionAddress = event.contractAddress,
        p.premint.uid = event.uid]
      -- confirm all conditions are true
      conditions.all (fun x => x)
  | .error _ => false

end ZoraPremint

end Mintpool
