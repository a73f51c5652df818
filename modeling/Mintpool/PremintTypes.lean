import Mintpool.ZoraPremint

/-!
# The premint types of a node

`PremintTypes` is the closed set of premints that travel between nodes, and
`every_arm_fn!` dispatches the `Premint` trait over it. `SimplePremint` implements
only `metadata`: the methods that deal with the chain are `todo!()`.
-/

namespace Mintpool

structure SimplePremint where
  version : UInt64 := 0
  chainId : UInt64 := 0
  sender : Address := 0
  tokenId : UInt64 := 0
  media : String := ""
  deriving DecidableEq, Repr

namespace SimplePremint

def metadata (p : SimplePremint) : PremintMetadata where
  id := formatId p.chainId p.sender p.tokenId.toNat
  version := p.version
  kind := ⟨"simple"⟩
  signer := p.sender
  chainId := p.chainId
  collectionAddress := 0
  tokenId := BitVec.ofNat 256 p.tokenId.toNat
  uri := p.media

/-- `todo!()` -/
def verifyClaim (_ : SimplePremint) (_chainId : UInt64) (_tx : TransactionReceipt) (_log : Log)
    (_claim : InclusionClaim) : Outcome Bool :=
  .panic

end SimplePremint

inductive PremintTypes where
  | simple (p : SimplePremint)
  | zoraV2 (p : V2)
  | zoraERC20V1 (p : ERC20V1)
  deriving DecidableEq, Repr

namespace PremintTypes

def metadata : PremintTypes → PremintMetadata
  | simple p => p.metadata
  | zoraV2 p => p.metadata
  | zoraERC20V1 p => p.metadata

def verifyClaim [Alloy] (premint : PremintTypes) (chainId : UInt64) (tx : TransactionReceipt)
    (log : Log) (claim : InclusionClaim) : Outcome Bool :=
  match premint with
  | simple p => p.verifyClaim chainId tx log claim
  | zoraV2 p => .ret (p.verifyClaim chainId tx log claim)
  | zoraERC20V1 p => .ret (p.verifyClaim chainId tx log claim)

end PremintTypes

end Mintpool
