import Mathlib.Data.List.Lex
import Mathlib.Order.Fin.Basic
import Mintpool.Chain
import Mintpool.Network
import Mintpool.Sync

/-!
# Libraries to evaluate with

Concrete stand-ins for the classes, so that the definitions can be run. The event
decoder reads what the ABI encodes; the cryptography is a toy in which every signature of the
right length recovers to the zero address. Nodes are evaluated without RPC and with
text that is what it spells.
-/

namespace Mintpool.Sample

/-- Big-endian bytes as a number. -/
def ofBytes (bytes : List UInt8) : Nat := bytes.foldl (fun n b => n * 256 + b.toNat) 0

/-- `keccak256("PremintedV2(address,uint256,bool,uint32,address,uint256)")` -/
def premintedV2Topic : B256 :=
  0xd7f3736994092942aacd1d75026379ceeaf4e28b6183b15f2decc9237334429b#256

/-- The event as the ABI encodes it. The library's decoder takes more: it reads past the first topic
and past the padding of the indexed words, and both are checked here. -/
def decodePremintedV2 (topics : List B256) (data : List UInt8) : Except Report PremintedV2 :=
  match topics with
  | [topic, contractAddress, tokenId, createdNewContract] =>
      let uid := ofBytes (data.take 32)
      let minter := ofBytes ((data.drop 32).take 32)
      if topic = premintedV2Topic && data.length = 96 && contractAddress.toNat < 2 ^ 160
          && createdNewContract.toNat < 2 && uid < 2 ^ 32 && minter < 2 ^ 160 then
        .ok {
          contractAddress := contractAddress.setWidth 160
          tokenId := tokenId
          createdNewContract := createdNewContract = 1
          uid := UInt32.ofNat uid
          minter := BitVec.ofNat 160 minter
          quantityMinted := BitVec.ofNat 256 (ofBytes (data.drop 64)) }
      else .error (.msg "type check failed")
  | _ => .error (.msg "topic list length mismatch")

@[reducible] def alloy : Alloy where
  checksumUpper _ _ := false
  signatureFromStr s :=
    if s.toList.length = 132 then .ok ⟨0, 0, false⟩
    else .error (.msg "invalid signature length")
  recoverAddressFromPrehash signature _ := .ok (signature.r.setWidth 160)
  signingHashV2 domain premint := domain.chainId + BitVec.ofNat 256 premint.uid.toNat
  signingHashERC20V1 domain premint := domain.chainId + BitVec.ofNat 256 premint.uid.toNat
  decodePremintedV2 := decodePremintedV2

@[reducible] def libp2p : Libp2p where
  peerIdFromStr s :=
    if s.isEmpty then none else some ⟨s.toList.map (fun c => UInt8.ofNat c.toNat)⟩
  isMultiaddr s := "/".toList.isPrefixOf s.toList
  digest s := s

@[reducible] def unicode : Unicode where
  isPrintable _ := true
  isGraphemeExtended _ := false

/-- `keccak256("TrustedNodeAdded(string)")` -/
def trustedNodeAddedTopic : B256 :=
  0x8f95125be1a08fd393426193587ff719a43ca451452c07ce27ab36eb174f3ec6#256

/-- A hash that tells two node strings from each other and from all others. -/
@[reducible] def keccak : Keccak where
  hashString s := if s = "/node/1" then 1 else if s = "/node/2" then 2 else 0
  eventTopic signature :=
    if signature = "TrustedNodeAdded(string)" then trustedNodeAddedTopic else premintedV2Topic

/-- ASCII only. -/
def decodeTrustedNodeAdded (topics : List B256) (data : List UInt8) :
    Except Report TrustedNodeAdded :=
  let node := (data.drop 64).take (ofBytes ((data.drop 32).take 32))
  if topics = [trustedNodeAddedTopic] && ofBytes (data.take 32) = 32
      && node.length = ofBytes ((data.drop 32).take 32) then
    .ok ⟨String.ofList (node.map (fun b => Char.ofNat b.toNat))⟩
  else .error (.msg "type check failed")

@[reducible] def mintpoolTrustedBootnodes : MintpoolTrustedBootnodes where
  decodeTrustedNodeAdded := decodeTrustedNodeAdded

attribute [local instance] alloy libp2p unicode

/-- An instant at which no chain answers. -/
def offline : Moment := ⟨.unreachable, ⟨0, 0⟩⟩

/-- The default rules without RPC. -/
def offlineRules : RulesEngine Wire := .newWithDefaultRules false

/-- A node that has just been started. -/
def node (config : Config) : Controller Wire := .new config offlineRules

/-- The id that `peerIdFromStr` reads from this name. -/
def peerId (name : String) : PeerId := ⟨name.toList.map (fun c => UInt8.ofNat c.toNat)⟩

def peer (name : String) (config : Config) : Peer Wire where
  peerId := peerId name
  controller := node config

/-- A premint that every rule accepts or ignores. -/
def validPremint : V2 where
  collectionAddress := 1
  chainId := 7777777
  premint := { tokenConfig := { tokenURI := "ipfs://a" }, uid := 1, version := 1 }
  signature := String.ofList (List.replicate 132 '0')

/-- A version of it. -/
def validVersion (version : UInt32) : V2 :=
  { validPremint with premint := { validPremint.premint with version := version } }

/-! ## Trees -/

/-- Values of a tree. -/
abbrev Bytes := List (Fin 256)

@[reducible] def asRefBytes : AsRef Bytes := ⟨fun bytes => bytes.map fun b => UInt8.ofNat b.val⟩

/-- A digest that tells short strings apart. -/
@[reducible] def xxh3 : Xxh3 := ⟨fun bytes => bytes.foldl (fun h b => h * 257 + b.toUInt64 + 1) 0⟩

/-- The same in the upper half of the word, which `U64Buffer` drops. -/
@[reducible] def xxh3Upper : Xxh3 := ⟨fun bytes => xxh3.digest bytes <<< 32⟩

end Mintpool.Sample
