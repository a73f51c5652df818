import Mintpool.Lib.Digits

/-!
# What the node takes from alloy

The primitive types, the types that `sol!` generates from the two ABI files, and
the handful of operations whose code is in the `alloy` crates: signature parsing
and recovery, EIP-712 hashing, event decoding, and the letter case of a
checksummed address. The operations are a class, so that everything proved here
holds whatever they compute; the laws that a result needs are its hypotheses.
-/

namespace Mintpool

/-- `eyre::Report`, as far as the code looks into one. -/
inductive Report where
  /-- `sqlx::Error::RowNotFound`, the one error that is ever downcast to. -/
  | rowNotFound
  | msg (text : String)
  deriving DecidableEq, Repr

/-- `Display` -/
def Report.text : Report → String
  | rowNotFound => "no rows returned by a query that expected to return at least one row"
  | msg text => text

/-- How a computation ends: with a value, or in a panic. -/
inductive Outcome (α : Type) where
  | ret (value : α)
  | panic
  deriving DecidableEq, Repr

abbrev Address := BitVec 160
abbrev B256 := BitVec 256
abbrev U256 := BitVec 256
/-- `uint96` in the ABI, `u128` in Rust. -/
abbrev U128 := BitVec 128

/-- `{:?}` of an address: all 40 hexadecimal digits, lower case. -/
def Address.debug (a : Address) : String := "0x" ++ String.ofList (Lib.hexChars 40 a.toNat)

/-- `format!("{:?}:{:?}:{:?}", …)`, as every premint id is made. -/
def formatId (chainId : UInt64) (address : Address) (n : Nat) : String :=
  chainId.toNat.repr ++ ":" ++ address.debug ++ ":" ++ n.repr

theorem Address.toList_debug (a : Address) :
    a.debug.toList = '0' :: 'x' :: Lib.hexChars 40 a.toNat := by
  have h0x : "0x".toList = ['0', 'x'] := rfl
  rw [Address.debug, String.toList_append, h0x, String.toList_ofList, List.cons_append,
    List.cons_append, List.nil_append]

theorem Address.debug_inj {a a' : Address} (h : a.debug = a'.debug) : a = a' := by
  have hlist := congrArg String.toList h
  rw [Address.toList_debug, Address.toList_debug, List.cons.injEq, List.cons.injEq] at hlist
  exact BitVec.eq_of_toNat_eq (Lib.hexChars_inj a.isLt a'.isLt hlist.2.2)

theorem Address.colon_not_mem_debug (a : Address) : ':' ∉ a.debug.toList := by
  rw [Address.toList_debug, List.mem_cons, List.mem_cons, not_or, not_or]
  exact ⟨by decide, by decide, Lib.colon_not_mem_hexChars 40 a.toNat⟩

/-- **A premint id determines the three values it was made from.** -/
theorem formatId_inj {c c' : UInt64} {a a' : Address} {n n' : Nat}
    (h : formatId c a n = formatId c' a' n') : c = c' ∧ a = a' ∧ n = n' := by
  have hlist := congrArg String.toList h
  have hsep : ":".toList = [':'] := rfl
  simp only [formatId, String.toList_append, List.append_assoc, hsep, List.cons_append,
    List.nil_append] at hlist
  obtain ⟨h1, h2, h3⟩ := Lib.join_inj (Lib.colon_not_mem_repr _) (Lib.colon_not_mem_repr _)
    a.colon_not_mem_debug a'.colon_not_mem_debug hlist
  exact ⟨UInt64.toNat_inj.mp (Lib.repr_inj (String.toList_inj.mp h1)),
    Address.debug_inj (String.toList_inj.mp h2), Lib.repr_inj (String.toList_inj.mp h3)⟩

/-! ## Types generated by `sol!` -/

/-- The same in both ABI files. -/
structure ContractCreationConfig where
  contractAdmin : Address := 0
  contractURI : String := ""
  contractName : String := ""
  deriving DecidableEq, Repr

namespace IZoraPremintV2

structure TokenCreationConfig where
  tokenURI : String := ""
  maxSupply : U256 := 0
  maxTokensPerAddress : UInt64 := 0
  pricePerToken : U128 := 0
  mintStart : UInt64 := 0
  mintDuration : UInt64 := 0
  royaltyBPS : UInt32 := 0
  payoutRecipient : Address := 0
  fixedPriceMinter : Address := 0
  createReferral : Address := 0
  deriving DecidableEq, Repr

end IZoraPremintV2

namespace IZoraPremintERC20V1

structure TokenCreationConfig where
  tokenURI : String := ""
  maxSupply : U256 := 0
  maxTokensPerAddress : UInt64 := 0
  pricePerToken : U128 := 0
  mintStart : UInt64 := 0
  mintDuration : UInt64 := 0
  royaltyMintSchedule : UInt32 := 0
  royaltyBPS : UInt32 := 0
  royaltyRecipient : Address := 0
  fixedPriceMinter : Address := 0
  deriving DecidableEq, Repr

end IZoraPremintERC20V1

/-- The signed part of a premint, over the namespace's token configuration. -/
structure CreatorAttribution (Config : Type) where
  tokenConfig : Config
  uid : UInt32 := 0
  version : UInt32 := 0
  deleted : Bool := false
  deriving DecidableEq, Repr

/-- The event both executors emit when a premint is brought on chain. -/
structure PremintedV2 where
  contractAddress : Address
  tokenId : U256
  createdNewContract : Bool
  uid : UInt32
  minter : Address
  quantityMinted : U256
  deriving DecidableEq, Repr

def PREMINT_FACTORY_ADDR : Address := 0x7777773606e7e46C8Ba8B98C08f5cD218e31d340#160

/-! ## RPC types -/

/-- `rpc::types::eth::Log`. `log_index` counts logs over the whole block. -/
structure Log where
  address : Address
  topics : List B256
  data : List UInt8
  blockNumber : Option UInt64 := none
  transactionHash : Option B256 := none
  logIndex : Option UInt64 := none
  deriving DecidableEq, Repr

structure TransactionReceipt where
  transactionHash : B256
  /-- `tx.inner.logs()` -/
  logs : List Log
  deriving DecidableEq, Repr

structure Eip712Domain where
  name : String
  version : String
  chainId : U256
  verifyingContract : Address
  deriving DecidableEq, Repr

structure Signature where
  r : U256
  s : U256
  yParity : Bool
  deriving DecidableEq, Repr

/-- The operations of the crate. -/
class Alloy where
  /-- Whether EIP-55 writes the hexadecimal digit at this position in upper case. -/
  checksumUpper : Address → Nat → Bool
  /-- `Signature::from_str` -/
  signatureFromStr : String → Except Report Signature
  recoverAddressFromPrehash : Signature → B256 → Except Report Address
  /-- `eip712_signing_hash` of the V2 struct type -/
  signingHashV2 :
    Eip712Domain → CreatorAttribution IZoraPremintV2.TokenCreationConfig → B256
  /-- `eip712_signing_hash` of the ERC20V1 struct type -/
  signingHashERC20V1 :
    Eip712Domain → CreatorAttribution IZoraPremintERC20V1.TokenCreationConfig → B256
  /-- `PremintedV2::decode_raw_log(topics, data, true)`; the event's name and inputs are
  the same in both ABI files, so both namespaces decode alike. -/
  decodePremintedV2 : List B256 → List UInt8 → Except Report PremintedV2

variable [Alloy]

/-- `Address::to_checksum(None)`, which is also its `Display`. -/
def Address.toChecksum (a : Address) : String :=
  "0x" ++ String.ofList ((Lib.hexChars 40 a.toNat).mapIdx
    (fun i c => if Alloy.checksumUpper a i then c.toUpper else c))

/-- **Two addresses have one checksummed text only if they are the same.** -/
theorem Address.toChecksum_inj {a a' : Address} (h : a.toChecksum = a'.toChecksum) : a = a' := by
  -- in lower case, a checksummed text is the address's digits
  have hlower : ∀ b : Address, (b.toChecksum.toList.drop 2).map Char.toLower
      = Lib.hexChars 40 b.toNat := by
    intro b
    have h0x : "0x".toList = ['0', 'x'] := rfl
    rw [Address.toChecksum, String.toList_append, h0x, String.toList_ofList]
    refine List.ext_getElem (by simp) fun i hi hi' => ?_
    have hmem := Lib.toLower_of_mem_hexChars (List.getElem_mem hi')
    simp only [List.cons_append, List.nil_append, List.drop_succ_cons, List.drop_zero,
      List.getElem_map, List.getElem_mapIdx]
    split
    · exact hmem.2
    · exact hmem.1
  have hdigits := hlower a
  rw [h, hlower a'] at hdigits
  exact BitVec.eq_of_toNat_eq (Lib.hexChars_inj a.isLt a'.isLt hdigits.symm)

end Mintpool
