import Mathlib.Logic.Function.Basic
import Mintpool.Alloy

/-!
# The registry of trusted nodes

`MintpoolTrustedNodeRegistry.sol` and the `Owned.sol` it inherits from. The contract keeps
a map from the hashes of node strings to flags, and beside it a counter that `initialize`
reads as "nobody has initialized me yet".

A call either runs to its end or reverts, and a call that reverts leaves no trace: neither
in the storage nor among the events.
-/

namespace Mintpool

/-- What the contract and its readers take from keccak256. -/
class Keccak where
  /-- `keccak256(abi.encode(s))` -/
  hashString : String → B256
  /-- The first topic of an event: the hash of its signature. -/
  eventTopic : String → B256

/-- Why a call reverts. -/
inductive Revert where
  /-- `require(…, reason)` -/
  | error (reason : String)
  /-- A check that the compiler puts in; `0x11` is arithmetic over- or underflow. -/
  | panic (code : Nat)
  deriving DecidableEq, Repr

inductive RegistryEvent where
  | ownershipTransferred (user newOwner : Address)
  | trustedNodeAdded (node : String)
  | trustedNodeRemoved (node : String)
  deriving DecidableEq, Repr

/-- The storage of the contract, and the events it has emitted, oldest first. -/
structure Registry where
  owner : Address := 0
  trustedNodeMap : B256 → Bool := fun _ => false
  trustedNodeCount : U256 := 0
  emitted : List RegistryEvent := []

/-- `count++` -/
def checkedIncrement (count : U256) : Except Revert U256 :=
  if count = BitVec.allOnes 256 then .error (.panic 0x11) else .ok (count + 1)

/-- `count--` -/
def checkedDecrement (count : U256) : Except Revert U256 :=
  if count = 0 then .error (.panic 0x11) else .ok (count - 1)

def require (condition : Bool) (reason : String) : Except Revert Unit :=
  if condition then .ok () else .error (.error reason)

namespace Registry

/-! ## `Owned` -/

def onlyOwner (s : Registry) (sender : Address) : Except Revert Unit :=
  require (sender = s.owner) "UNAUTHORIZED"

def initOwner (s : Registry) (newOwner : Address) : Registry :=
  { s with
    owner := newOwner
    emitted := s.emitted ++ [.ownershipTransferred 0 newOwner] }

def transferOwnership (s : Registry) (sender newOwner : Address) : Except Revert Registry := do
  s.onlyOwner sender
  return { s with
    owner := newOwner
    emitted := s.emitted ++ [.ownershipTransferred sender newOwner] }

/-! ## `MintpoolTrustedNodeRegistry` -/

variable [Keccak]

def hashNode (node : String) : B256 := Keccak.hashString node

def isTrustedNode (s : Registry) (node : String) : Bool := s.trustedNodeMap (hashNode node)

/-- `isTrustedNode(string[])`, one flag for each node in the order of the nodes. -/
def isTrustedNodes (s : Registry) (nodes : List String) : List Bool := nodes.map s.isTrustedNode

/-- `_addTrustedNode` -/
def addTrustedNodePrivate (s : Registry) (node : String) : Except Revert Registry := do
  let nodeHash := hashNode node
  require (!s.trustedNodeMap nodeHash) "NODE_ALREADY_TRUSTED"
  let count ← checkedIncrement s.trustedNodeCount
  return { s with
    trustedNodeMap := Function.update s.trustedNodeMap nodeHash true
    trustedNodeCount := count
    emitted := s.emitted ++ [.trustedNodeAdded node] }

/-- `initialize`, a keyword in Lean -/
def initializeWith (s : Registry) (trustedNodes : List String) (owner : Address) :
    Except Revert Registry := do
  require (s.trustedNodeCount = 0) "ALREADY_INITIALIZED"
  let s ← trustedNodes.foldlM addTrustedNodePrivate s
  return s.initOwner owner

def addTrustedNode (s : Registry) (sender : Address) (node : String) :
    Except Revert Registry := do
  s.onlyOwner sender
  s.addTrustedNodePrivate node

def addTrustedNodeBatch (s : Registry) (sender : Address) (nodes : List String) :
    Except Revert Registry := do
  s.onlyOwner sender
  nodes.foldlM addTrustedNodePrivate s

def removeTrustedNode (s : Registry) (sender : Address) (node : String) :
    Except Revert Registry := do
  s.onlyOwner sender
  let nodeHash := hashNode node
  -- whether the node was trusted is not asked
  let count ← checkedDecrement s.trustedNodeCount
  return { s with
    trustedNodeMap := Function.update s.trustedNodeMap nodeHash false
    trustedNodeCount := count
    emitted := s.emitted ++ [.trustedNodeRemoved node] }

def removeTrustedNodeBatch (s : Registry) (sender : Address) (nodes : List String) :
    Except Revert Registry := do
  s.onlyOwner sender
  nodes.foldlM (fun s node => s.removeTrustedNode sender node) s

/-! ## Transactions -/

/-- The functions that anyone may call and that are not `view`. -/
inductive Call where
  | initializeWith (trustedNodes : List String) (owner : Address)
  | addTrustedNode (node : String)
  | addTrustedNodeBatch (nodes : List String)
  | removeTrustedNode (node : String)
  | removeTrustedNodeBatch (nodes : List String)
  | transferOwnership (newOwner : Address)
  deriving DecidableEq, Repr

structure Transaction where
  sender : Address
  call : Call
  deriving DecidableEq, Repr

def execute (s : Registry) (tx : Transaction) : Except Revert Registry :=
  match tx.call with
  | .initializeWith trustedNodes owner => s.initializeWith trustedNodes owner
  | .addTrustedNode node => s.addTrustedNode tx.sender node
  | .addTrustedNodeBatch nodes => s.addTrustedNodeBatch tx.sender nodes
  | .removeTrustedNode node => s.removeTrustedNode tx.sender node
  | .removeTrustedNodeBatch nodes => s.removeTrustedNodeBatch tx.sender nodes
  | .transferOwnership newOwner => s.transferOwnership tx.sender newOwner

/-- The contract after a transaction; one that reverts changes nothing. -/
def transact (s : Registry) (tx : Transaction) : Registry :=
  match s.execute tx with
  | .ok s' => s'
  | .error _ => s

end Registry

end Mintpool
