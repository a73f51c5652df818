import Mintpool.Alloy

/-!
# Names, metadata and claims

The plain records of `types.rs`. Everything the store, the rules and the gossip
layer know about a premint without knowing its type is its `PremintMetadata`.
-/

namespace Mintpool

/-- `PremintName(pub String)` -/
structure PremintName where
  name : String
  deriving DecidableEq, Repr

structure PremintMetadata where
  id : String
  version : UInt64
  kind : PremintName
  signer : Address
  chainId : UInt64
  collectionAddress : Address
  tokenId : U256
  uri : String
  deriving DecidableEq, Repr

structure InclusionClaim where
  premintId : String
  chainId : UInt64
  txHash : B256
  logIndex : UInt64
  kind : String
  deriving DecidableEq, Repr

/-- `libp2p::PeerId`, the multihash of a public key. -/
structure PeerId where
  multihash : List UInt8
  deriving DecidableEq, Repr

structure PeerInclusionClaim where
  claim : InclusionClaim
  fromPeerId : PeerId
  deriving DecidableEq, Repr

end Mintpool
