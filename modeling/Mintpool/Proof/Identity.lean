import Mintpool.PremintTypes

/-!
# What a kind and an id determine

The table is keyed by two strings, and everything that is written once per row
relies on them: the chain, the collection and the token are spelled out in the id,
and the kind says which arm of `PremintTypes` the premint is. The signer and the uri
are not part of either.
-/

namespace Mintpool.Proof

open Mintpool

/-- The two strings a premint is keyed by. -/
def premintKey (p : PremintTypes) : String × String := (p.metadata.kind.name, p.metadata.id)

theorem kind_simple_iff {p : PremintTypes} :
    p.metadata.kind.name = "simple" ↔ ∃ q, p = .simple q := by
  cases p with
  | simple q => exact ⟨fun _ => ⟨q, rfl⟩, fun _ => rfl⟩
  | zoraV2 q =>
      refine ⟨fun h => ?_, fun ⟨_, h⟩ => by cases h⟩
      exact absurd (show "zora_premint_v2" = "simple" from h) (by decide)
  | zoraERC20V1 q =>
      refine ⟨fun h => ?_, fun ⟨_, h⟩ => by cases h⟩
      exact absurd (show "zora_premint_erc20v1" = "simple" from h) (by decide)

theorem kind_zoraV2_iff {p : PremintTypes} :
    p.metadata.kind.name = "zora_premint_v2" ↔ ∃ q, p = .zoraV2 q := by
  cases p with
  | simple q =>
      refine ⟨fun h => ?_, fun ⟨_, h⟩ => by cases h⟩
      exact absurd (show "simple" = "zora_premint_v2" from h) (by decide)
  | zoraV2 q => exact ⟨fun _ => ⟨q, rfl⟩, fun _ => rfl⟩
  | zoraERC20V1 q =>
      refine ⟨fun h => ?_, fun ⟨_, h⟩ => by cases h⟩
      exact absurd (show "zora_premint_erc20v1" = "zora_premint_v2" from h) (by decide)

/-- **Kind and id pin down the chain, the collection and the token.** -/
theorem metadata_of_key {p q : PremintTypes} (h : premintKey p = premintKey q) :
    p.metadata.chainId = q.metadata.chainId
      ∧ p.metadata.collectionAddress = q.metadata.collectionAddress
      ∧ p.metadata.tokenId = q.metadata.tokenId := by
  obtain ⟨hkind, hid⟩ := Prod.mk.inj h
  cases p with
  | simple p =>
      obtain ⟨q, rfl⟩ := kind_simple_iff.mp hkind.symm
      obtain ⟨hc, _, hn⟩ := formatId_inj hid
      exact ⟨hc, rfl, congrArg (BitVec.ofNat 256) hn⟩
  | zoraV2 p =>
      obtain ⟨q, rfl⟩ := kind_zoraV2_iff.mp hkind.symm
      obtain ⟨hc, ha, hn⟩ := formatId_inj hid
      exact ⟨hc, ha, congrArg (BitVec.ofNat 256) hn⟩
  | zoraERC20V1 p =>
      cases q with
      | simple q => exact absurd (show "zora_premint_erc20v1" = "simple" from hkind) (by decide)
      | zoraV2 q =>
          exact absurd (show "zora_premint_erc20v1" = "zora_premint_v2" from hkind) (by decide)
      | zoraERC20V1 q =>
          obtain ⟨hc, ha, hn⟩ := formatId_inj hid
          exact ⟨hc, ha, congrArg (BitVec.ofNat 256) hn⟩

end Mintpool.Proof
