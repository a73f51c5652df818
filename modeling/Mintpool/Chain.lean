import Mintpool.Registry
import Mintpool.ZoraPremint

/-!
# Reading the chain

`chain.rs` reads logs in two ways. The node asks once for all the boot nodes that the
registry has ever announced, and keeps those that it still trusts. And a mint checker
follows the factory's logs for as long as the node runs: over a subscription that may break
at any time, and that it then opens again from the highest block it has seen.

The providers are not under the node's control. What a subscription delivers is a
definition here, `Polling.backlog` and `Polling.step`, because the checker's promise is
about it.
-/

namespace Mintpool

/-! ## Filters -/

/-- `Filter`, as far as the node sets one up. -/
structure Filter where
  address : Address
  /-- The hash of the event's signature. -/
  topic0 : B256
  fromBlock : Option UInt64 := none
  deriving DecidableEq, Repr

namespace Filter

/-- Whether the filter lets the log through; a log without a block number is yet to come. -/
def admits (filter : Filter) (log : Log) : Bool :=
  log.address = filter.address && log.topics.head? = some filter.topic0
    && (match filter.fromBlock with
        | none => true
        | some first => log.blockNumber.all (fun block => first ≤ block))

end Filter

/-! ## Boot nodes -/

/-- `MintpoolTrustedBootnodes::TrustedNodeAdded` -/
structure TrustedNodeAdded where
  node : String
  deriving DecidableEq, Repr

/-- What `sol!` generates from the registry's ABI. -/
class MintpoolTrustedBootnodes where
  /-- `TrustedNodeAdded::decode_raw_log(topics, data, true)` -/
  decodeTrustedNodeAdded : List B256 → List UInt8 → Except Report TrustedNodeAdded

/-- The answers of a provider to these reads; the view call is `view_contract_call`, with
its result decoded. -/
structure ChainListProvider where
  getLogs : Filter → Except Report (List Log)
  /-- `isTrustedNode_1Call { _nodes }` -/
  isTrustedNode1 (address : Address) (nodes : List String) : Except Report (List Bool)

def BOOTNODES_CONTRACT_ADDRESS : Address := 0x7777770105719d36De7E5A0a26536D6482234Ccd#160
def BOOTNODES_CONTRACT_DEPLOY_BLOCK : UInt64 := 13699230

section BootNodes

variable [Keccak] [MintpoolTrustedBootnodes]

/-- `Filter::new().address(…).event(…).from_block(…)` -/
def bootNodesFilter : Filter where
  address := BOOTNODES_CONTRACT_ADDRESS
  topic0 := Keccak.eventTopic "TrustedNodeAdded(string)"
  fromBlock := some BOOTNODES_CONTRACT_DEPLOY_BLOCK

def getContractBootNodes (getRpc : UInt64 → Except Report ChainListProvider) :
    Except Report (List String) := do
  let chain ← getRpc 7777777
  let logs ← chain.getLogs bootNodesFilter
  let events := logs.filterMap (fun log =>
    (MintpoolTrustedBootnodes.decodeTrustedNodeAdded log.topics log.data).toOption)
  let nodes := events.map TrustedNodeAdded.node
  let result ← chain.isTrustedNode1 BOOTNODES_CONTRACT_ADDRESS nodes
  let validNodes := (result.zip nodes).filterMap (fun (isTrusted, node) =>
    if isTrusted then some node else none)
  return validNodes

end BootNodes

/-! ## The mint checker -/

/-- `check_filter`; the event has one signature in both ABI files. -/
def ZoraPremint.checkFilter [Keccak] (chainId : UInt64) : Option Filter :=
  let supportedChains : List UInt64 := [7777777, 8453]
  if !supportedChains.contains chainId then none
  else some {
    address := PREMINT_FACTORY_ADDR
    topic0 := Keccak.eventTopic "PremintedV2(address,uint256,bool,uint32,address,uint256)" }

/-- The variables of `poll_for_new_mints`. -/
structure MintChecker where
  chainId : UInt64
  highestBlock : Option UInt64 := none
  filter : Filter
  deriving DecidableEq, Repr

namespace MintChecker

/-- Up to the loop; without a filter there is none, `MintCheckerResult::NoFilter`. -/
def start [Keccak] (chainId : UInt64) : Option MintChecker :=
  (ZoraPremint.checkFilter chainId).map (fun filter => { chainId, filter })

/-- set start block in case of WS disconnect -/
def setStartBlock (c : MintChecker) : MintChecker :=
  match c.highestBlock with
  | none => c
  | some highestBlock => { c with filter := { c.filter with fromBlock := some highestBlock } }

/-- The claim to send, if any. -/
def claimOf [Alloy] (Config : Type) [Namespace Config] (c : MintChecker) (log : Log) :
    List InclusionClaim :=
  match ZoraPremint.mapClaim Config c.chainId log with
  | .ok claim => [claim]
  | .error _ => []

def sawLog (c : MintChecker) (log : Log) : MintChecker :=
  match log.blockNumber with
  | none => c
  | some blockNumber => { c with highestBlock := some blockNumber }

end MintChecker

/-- A mint checker and the chain that it watches. -/
structure Polling where
  /-- The logs of the chain so far, in the order of its blocks. -/
  chain : List Log := []
  checker : MintChecker
  /-- The logs that the open subscription has not delivered yet. -/
  stream : Option (List Log) := none
  /-- The claims sent to the controller, oldest first. -/
  sent : List InclusionClaim := []
  /-- How many logs there were when the first subscription succeeded. -/
  subscribedAt : Option Nat := none

namespace Polling

/-- With a first block, a subscription begins with what is there of it and after. -/
def backlog (filter : Filter) (chain : List Log) : List Log :=
  match filter.fromBlock with
  | none => []
  | some _ => chain.filter filter.admits

inductive Input where
  /-- A block of the chain has this log. -/
  | emit (log : Log)
  /-- `make_provider` fails. -/
  | noProvider
  /-- `subscribe_logs` fails. -/
  | refused
  | subscribed
  /-- `stream.next()` returns the next log. -/
  | deliver
  /-- `stream.next()` returns `None`. -/
  | disconnect
  deriving DecidableEq, Repr

/-- What happens next; where the loop is not at the place for it, nothing does. -/
def step [Alloy] (Config : Type) [Namespace Config] (s : Polling) : Input → Polling
  | .emit log => { s with
      chain := s.chain ++ [log]
      stream := s.stream.map (fun pending =>
        if s.checker.filter.admits log then pending ++ [log] else pending) }
  | .noProvider => s
  | .refused =>
      match s.stream with
      | some _ => s
      | none => { s with checker := s.checker.setStartBlock }
  | .subscribed =>
      match s.stream with
      | some _ => s
      | none => { s with
          checker := s.checker.setStartBlock
          stream := some (backlog s.checker.setStartBlock.filter s.chain)
          subscribedAt := s.subscribedAt <|> some s.chain.length }
  | .deliver =>
      match s.stream with
      | some (log :: pending) => { s with
          checker := s.checker.sawLog log
          stream := some pending
          sent := s.sent ++ s.checker.claimOf Config log }
      | _ => s
  | .disconnect => { s with stream := none }

end Polling

end Mintpool
