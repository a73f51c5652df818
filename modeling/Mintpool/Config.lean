import Mintpool.Types

/-!
# Configuration

The settings that decide what a node does with premints and claims. Lists come from
the environment as one comma separated string.
-/

namespace Mintpool

/-- What the node takes from libp2p and the sha256 crate. -/
class Libp2p where
  /-- `PeerId::from_str` -/
  peerIdFromStr : String → Option PeerId
  /-- Whether `str::parse::<Multiaddr>` succeeds. -/
  isMultiaddr : String → Bool
  /-- `sha256::digest`, in hexadecimal -/
  digest : String → String

inductive ChainInclusionMode where
  /-- node will check chains for new premints getting included -/
  | check
  /-- node will verify claims of other nodes -/
  | verify
  /-- node will trust claims of other trusted nodes -/
  | trust
  deriving DecidableEq, Repr

/-- `split(',')` -/
def splitComma : List Char → List (List Char)
  | [] => [[]]
  | c :: cs =>
      if c = ',' then [] :: splitComma cs
      else match splitComma cs with
        | [] => [[c]]
        | word :: words => (c :: word) :: words

structure Config where
  pruneMintedPremints : Bool := true
  supportedPremintTypes : String := "zora_premint_v2"
  chainInclusionMode : ChainInclusionMode := .verify
  /-- The value of `TRUSTED_PEERS`. -/
  trustedPeerList : Option String := none
  enableRpc : Bool := true
  syncLookbackHours : Nat := 6
  deriving DecidableEq, Repr

namespace Config

def premintNames (config : Config) : List PremintName :=
  (splitComma config.supportedPremintTypes.toList).map (fun s => ⟨String.ofList s⟩)

/-- The peers that parse; the others are dropped. -/
def trustedPeers [Libp2p] (config : Config) : List PeerId :=
  match config.trustedPeerList with
  | none => []
  | some peers =>
      (splitComma peers.toList).filterMap (fun s => Libp2p.peerIdFromStr (String.ofList s))

end Config

end Mintpool
