import Mintpool.Controller

/-!
# Gossip

Three kinds of message travel over gossipsub: announcements, premints and inclusion
claims, each on topics of its own. What a node does with a message depends on its
topic; what gossipsub does with it depends on its id, which `gossipsub_message_id`
computes.

Gossipsub itself is `libp2p` and enters with one fact: a peer remembers the ids it
has seen for a while, and a message whose id it remembers goes no further there.
-/

namespace Mintpool

/-! ## Topics -/

/-- Rust's tables of printable and of grapheme-extending characters, beyond ASCII. -/
class Unicode where
  isPrintable : Char → Bool
  isGraphemeExtended : Char → Bool

section Topics

variable [Unicode]

/-- One character of `{:?}` of a string. -/
def escapeDebug (c : Char) : List Char :=
  if c = Char.ofNat 0 then ['\\', '0']
  else if c = '\t' then ['\\', 't']
  else if c = '\r' then ['\\', 'r']
  else if c = '\n' then ['\\', 'n']
  else if c = '\\' || c = '"' then ['\\', c]
  else if (if c.toNat < 128 then 32 ≤ c.toNat && c.toNat < 127
      else Unicode.isPrintable c && !Unicode.isGraphemeExtended c) then [c]
  else ['\\', 'u', '\x7b'] ++ Nat.toDigits 16 c.toNat ++ ['\x7d']

/-- `{:?}` of a string. -/
def debugString (s : String) : String :=
  "\"" ++ String.ofList (s.toList.flatMap escapeDebug) ++ "\""

namespace PremintName

/-- The derived `{:?}`. -/
def debug (self : PremintName) : String := "PremintName(" ++ debugString self.name ++ ")"

def msgTopic (self : PremintName) : String := "mintpool::premint::" ++ self.debug

def claimsTopic (self : PremintName) : String := "chain::claims::" ++ self.debug

end PremintName

/-- An `IdentTopic` is its own hash. -/
def claimsTopicHashes (names : List PremintName) : List String :=
  names.map PremintName.claimsTopic

end Topics

def announceTopic : String := "mintpool::announce"

/-! ## Messages -/

structure Message (Text : Type) where
  /-- The author, who signed the message. -/
  source : PeerId
  topic : String
  data : Text
  deriving DecidableEq, Repr

variable {Text : Type} [Codec Text]

/-- What gossipsub takes for the identity of a message. -/
def gossipsubMessageId [Libp2p] (message : Message Text) : String :=
  if message.topic = announceTopic then Libp2p.digest (Codec.asString message.data)
  else
    match PremintTypes.fromJson message.data with
    | .ok premint => Libp2p.digest premint.metadata.id
    | .error _ => "likely_spam"

section Broadcast

variable [Unicode]

/-- The message `broadcast_message` publishes. -/
def broadcastMessage (localPeerId : PeerId) (message : PremintTypes) : Message Text :=
  ⟨localPeerId, message.metadata.kind.msgTopic, message.toJson⟩

/-- The message `broadcast_claim` publishes. -/
def broadcastClaim (localPeerId : PeerId) (claim : InclusionClaim) : Message Text :=
  ⟨localPeerId, (PremintName.mk claim.kind).claimsTopic, Codec.claimToJson claim⟩

/-- The topics `run` subscribes to. -/
def subscriptions (premintNames : List PremintName) : List String :=
  announceTopic :: premintNames.flatMap (fun name => [name.msgTopic, name.claimsTopic])

/-- What a message makes the swarm do. -/
inductive GossipAction where
  | dial (address : String)
  | send (event : P2PEvent)
  | ignore
  deriving DecidableEq, Repr

/-- `handle_gossipsub_event` on `Event::Message`. -/
def handleGossipsubEvent [Libp2p] (premintNames : List PremintName) (propagationSource : PeerId)
    (message : Message Text) : Except Report GossipAction :=
  if message.topic = announceTopic then
    let msg := Codec.asString message.data
    if Libp2p.isMultiaddr msg then .ok (.dial msg)
    else .error (.msg ("invalid address found from announce: " ++ msg))
  else if (claimsTopicHashes premintNames).contains message.topic then
    match Codec.claimFromJson message.data with
    | .error _ => .error (.msg "Error parsing inclusion claim")
    | .ok claim => .ok (.send (.mintSeenOnchain ⟨claim, propagationSource⟩))
  else
    match PremintTypes.fromJson message.data with
    | .ok premint => .ok (.send (.premintReceived premint))
    | .error _ => .ok .ignore

end Broadcast

/-! ## The seen-message cache -/

/-- The ids of the messages a peer has published or received lately. -/
abbrev SeenCache := List String

namespace SeenCache

/-- A message with this id is let through and remembered, unless it is remembered already. -/
def insert (cache : SeenCache) (id : String) : Option SeenCache :=
  if cache.contains id then none else some (id :: cache)

/-- Ids are forgotten after a while. -/
def expire (cache : SeenCache) (ids : List String) : SeenCache :=
  cache.filter (fun id => !ids.contains id)

end SeenCache

end Mintpool
