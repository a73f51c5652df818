import Mintpool.Types

/-!
# RPC providers

`CHAINS` hands out a provider for a chain id, or an error when the chain is not
listed, has no usable URL, or cannot be reached. What a provider answers is not
under the node's control, so a `Chains` value stands for the answers given during
one step of the node; different steps may use different ones.
-/

namespace Mintpool

/-- The answers of one provider. The contract calls are `view_contract_call` against
`PREMINT_FACTORY_ADDR`, already decoded. -/
structure Provider where
  getTransactionReceipt : B256 → Except Report (Option TransactionReceipt)
  isAuthorizedToCreatePremint (contractAddress signer contractAdmin : Address) :
    Except Report Bool
  /-- `contractCreated` and `tokenIdForPremint` -/
  premintStatus (contractAddress : Address) (uid : UInt32) : Except Report (Bool × U256)
  supportedPremintSignatureVersions (contractAddress : Address) : Except Report (List String)

structure Chains where
  getRpc (chainId : UInt64) : Except Report Provider

/-- No chain can be reached. -/
def Chains.unreachable : Chains where
  getRpc _ := .error (.msg "No suitable RPC URL found for chain")

end Mintpool
