import Mathlib.Data.Set.Function
import Mintpool.Sample

/-!
# What a signature covers

`is_valid_signature` hashes the EIP-712 domain and the creator attribution, and asks whether
the signature recovers from that hash to the contract admin. The domain has the chain and the
collection's address, the attribution has the token and its version. The name and the uri of
the contract are in neither. So two premints that carry one signature of one admin are the
same in everything but these two, and in these two they can be anything.
-/

namespace Mintpool.Proof

open Mintpool

section Signed

variable [Alloy] {Config : Type} [Namespace Config] {Text : Type}

/-- The signature parses, and recovers to the contract admin. -/
def Signed (p : ZoraPremint Config) : Prop :=
  ∃ signature, Alloy.signatureFromStr p.signature = .ok signature
    ∧ Alloy.recoverAddressFromPrehash signature
        (Namespace.signingHash p.eip712Domain p.premint) = .ok p.collection.contractAdmin

/-- What the rule neither fails on nor rejects is signed. -/
theorem signed_of_isValidSignature {p : ZoraPremint Config} {context : RuleContext Text}
    {evaluation : Evaluation} (h : p.isValidSignature context = .ok evaluation)
    (hrej : evaluation.isReject = false) : Signed p := by
  unfold ZoraPremint.isValidSignature at h
  cases hparse : Alloy.signatureFromStr p.signature with
  | error e => rw [hparse] at h; cases h
  | ok sig =>
      rw [hparse] at h
      simp only [bind, Except.bind, pure, Except.pure] at h
      cases hrecover : Alloy.recoverAddressFromPrehash sig
          (Namespace.signingHash p.eip712Domain p.premint) with
      | error e => rw [hrecover] at h; cases h
      | ok signer =>
          rw [hrecover] at h
          dsimp only at h
          split at h
          · cases h
            cases hrej
          · rename_i heq
            have hadmin : signer = p.collection.contractAdmin := by simpa using heq
            exact ⟨sig, hparse, by rw [hrecover, hadmin]⟩

/-- **The rule accepts what is signed, and nothing else.** -/
theorem isValidSignature_accept_iff {p : ZoraPremint Config} {context : RuleContext Text} :
    p.isValidSignature context = .ok .accept ↔ Signed p := by
  refine ⟨fun h => signed_of_isValidSignature h rfl, fun ⟨signature, hparse, hrecover⟩ => ?_⟩
  unfold ZoraPremint.isValidSignature
  rw [hparse]
  simp only [bind, Except.bind, pure, Except.pure, hrecover, bne_self_eq_false,
    Bool.false_eq_true, if_false]

/-! ## Two premints with one signature -/

/-- What the signature of a premint is over. -/
def message (p : ZoraPremint Config) : Eip712Domain × CreatorAttribution Config :=
  (p.eip712Domain, p.premint)

/--
What is assumed of the cryptography, for the messages at hand: no two of them have one hash,
and from no two of their hashes does a signature recover to one address.
-/
structure Binding (messages : Set (Eip712Domain × CreatorAttribution Config)) : Prop where
  hash : Set.InjOn (fun x => Namespace.signingHash x.1 x.2) messages
  recover : ∀ x ∈ messages, ∀ y ∈ messages, ∀ signature address,
    Alloy.recoverAddressFromPrehash signature (Namespace.signingHash x.1 x.2) = .ok address →
    Alloy.recoverAddressFromPrehash signature (Namespace.signingHash y.1 y.2) = .ok address →
    Namespace.signingHash x.1 x.2 = Namespace.signingHash y.1 y.2

variable {messages : Set (Eip712Domain × CreatorAttribution Config)} {p q : ZoraPremint Config}

/-- One signature of one admin is over one message. -/
theorem message_eq_of_signed (h : Binding messages) (hp : message p ∈ messages)
    (hq : message q ∈ messages) (hadmin : p.collection.contractAdmin = q.collection.contractAdmin)
    (hsignature : p.signature = q.signature) (hsp : Signed p) (hsq : Signed q) :
    message p = message q := by
  obtain ⟨signature, hparse, hrecover⟩ := hsp
  obtain ⟨signature', hparse', hrecover'⟩ := hsq
  -- one text parses to one signature
  have hsame : signature = signature' := by
    rw [hsignature, hparse'] at hparse
    exact (Except.ok.inj hparse).symm
  subst hsame
  rw [← hadmin] at hrecover'
  exact h.hash hp hq (h.recover _ hp _ hq signature _ hrecover hrecover')

omit [Alloy] in
/-- The domain has the chain and the collection's address. -/
theorem eq_of_message_eq (h : message p = message q) :
    p.collectionAddress = q.collectionAddress ∧ p.chainId = q.chainId ∧ p.premint = q.premint := by
  obtain ⟨hdomain, hpremint⟩ := Prod.mk.inj h
  have hchain := congrArg (fun d : Eip712Domain => d.chainId.toNat) hdomain
  have hbound : ∀ n : UInt64, n.toNat < 2 ^ 256 := fun n => n.toNat_lt.trans (by decide)
  simp only [ZoraPremint.eip712Domain, BitVec.toNat_ofNat, Nat.mod_eq_of_lt (hbound _)] at hchain
  exact ⟨congrArg Eip712Domain.verifyingContract hdomain, UInt64.toNat_inj.mp hchain, hpremint⟩

/-- The premint with another uri and name for its contract. -/
def relabel (p : ZoraPremint Config) (contractURI contractName : String) : ZoraPremint Config :=
  { p with collection := { p.collection with contractURI, contractName } }

theorem signed_relabel_iff {contractURI contractName : String} :
    Signed (relabel p contractURI contractName) ↔ Signed p := Iff.rfl

end Signed

/--
**A signed premint can be changed in the contract's uri and name, and in nothing else.** Of
two V2 premints with one contract admin and one signature, where the rule accepts the first,
it accepts the second exactly when the two differ in these fields at most.
-/
theorem tamper_evident_iff [Alloy] {Text : Type}
    {messages : Set (Eip712Domain × CreatorAttribution IZoraPremintV2.TokenCreationConfig)}
    (h : Binding messages) {p q : V2} (hp : message p ∈ messages) (hq : message q ∈ messages)
    (hadmin : p.collection.contractAdmin = q.collection.contractAdmin)
    (hsignature : p.signature = q.signature) {context context' : RuleContext Text}
    (haccept : p.isValidSignature context = .ok .accept) :
    q.isValidSignature context' = .ok .accept
      ↔ q = relabel p q.collection.contractURI q.collection.contractName := by
  have hsp := isValidSignature_accept_iff.mp haccept
  rw [isValidSignature_accept_iff]
  refine ⟨fun hsq => ?_, fun heq => ?_⟩
  · obtain ⟨haddress, hchain, hpremint⟩ :=
      eq_of_message_eq (message_eq_of_signed h hp hq hadmin hsignature hsp hsq)
    -- all fields but the uri and the name are the same by now
    obtain ⟨address, chainId, ⟨admin, uri, name⟩, premint, signature⟩ := p
    obtain ⟨address', chainId', ⟨admin', uri', name'⟩, premint', signature'⟩ := q
    dsimp only at haddress hchain hpremint hadmin hsignature
    subst haddress hchain hpremint hadmin hsignature
    rfl
  · rw [heq]
    exact signed_relabel_iff.mpr hsp

/-! ## A premint under another name -/

section Example

open Sample

/-- Signing that can be evaluated: the hash is the version, and one hash recovers. -/
@[reducible] def versionSigning : Alloy :=
  { Sample.alloy with
    signatureFromStr := fun _ => .ok ⟨1, 0, false⟩
    recoverAddressFromPrehash := fun signature hash =>
      if hash = signature.r then .ok (signature.s.setWidth 160)
      else .error (.msg "signature error")
    signingHashV2 := fun _ premint => BitVec.ofNat 256 premint.version.toNat }

attribute [local instance] versionSigning

/-- The messages of all versions of one premint. -/
def versionMessages : Set (Eip712Domain × CreatorAttribution IZoraPremintV2.TokenCreationConfig) :=
  Set.range fun version => message (validVersion version)

theorem binding_versionMessages : Binding versionMessages where
  hash := by
    intro x hx y hy h
    obtain ⟨v, rfl⟩ := hx
    obtain ⟨w, rfl⟩ := hy
    have hlt : ∀ n : UInt32, n.toNat < 2 ^ 256 := fun n => n.toNat_lt.trans (by decide)
    have hversion : v.toNat % 2 ^ 256 = w.toNat % 2 ^ 256 := congrArg BitVec.toNat h
    rw [Nat.mod_eq_of_lt (hlt v), Nat.mod_eq_of_lt (hlt w)] at hversion
    rw [UInt32.toNat_inj.mp hversion]
  recover := by
    intro x _ y _ signature address hx hy
    have hr : ∀ {hash : B256}, Alloy.recoverAddressFromPrehash signature hash = .ok address →
        hash = signature.r := by
      intro hash h
      by_contra hne
      have herror : Alloy.recoverAddressFromPrehash signature hash
          = .error (.msg "signature error") := if_neg hne
      rw [herror] at h
      cases h
    rw [hr hx, hr hy]

/-- The context of a node that has nothing and asks nothing. -/
def noContext : RuleContext Wire := ⟨.new true, none, none⟩

/-- The same premint for a contract with another name. -/
def otherName : V2 := relabel validPremint "" "b"

/-- **Both are accepted, and they are not the same.** -/
theorem other_name_accepted :
    Binding versionMessages ∧ message validPremint ∈ versionMessages
    ∧ message otherName ∈ versionMessages
    ∧ validPremint.collection.contractAdmin = otherName.collection.contractAdmin
    ∧ validPremint.signature = otherName.signature
    ∧ validPremint.isValidSignature noContext = .ok .accept
    ∧ otherName.isValidSignature noContext = .ok .accept ∧ validPremint ≠ otherName := by
  have hsigned : Signed validPremint := ⟨⟨1, 0, false⟩, rfl, by decide +kernel⟩
  refine ⟨binding_versionMessages, ⟨1, rfl⟩, ⟨1, rfl⟩, rfl, rfl, ?_, ?_, by decide⟩
  · exact isValidSignature_accept_iff.mpr hsigned
  · exact isValidSignature_accept_iff.mpr (signed_relabel_iff.mpr hsigned)

/-- Another version under the same signature is not. -/
theorem second_version_not_accepted :
    (validVersion 2).isValidSignature noContext ≠ .ok .accept := by
  have hsigned : Signed validPremint := ⟨⟨1, 0, false⟩, rfl, by decide +kernel⟩
  have haccept : validPremint.isValidSignature noContext = .ok .accept :=
    isValidSignature_accept_iff.mpr hsigned
  intro h
  have heq : validVersion 2 = relabel validPremint "" "" :=
    (tamper_evident_iff binding_versionMessages ⟨1, rfl⟩ ⟨2, rfl⟩ rfl rfl haccept).mp h
  exact absurd heq (by decide)

end Example

end Mintpool.Proof
