import Mintpool.Proof.Checked
import Mintpool.Proof.Signed

/-!
# Whose signature a stored premint carries

`is_valid_signature` and `is_chain_supported` are written once for all Zora premints,
and both modules list them. But only the rules of `v2` are registered: to a premint of
the other type each of them answers "Wrong type", and no rule looks at its signature
or its chain. So a stored V2 premint is signed by its contract admin, on every way
into the store; an ERC20V1 premint is if whoever sent it saw to it.
-/

namespace Mintpool.Proof

open Mintpool PremintStorage

section Authentic

variable [Alloy]

/-- The signature recovers to the contract admin, and the chain is supported. -/
def Authentic {Config : Type} [Namespace Config] (p : ZoraPremint Config) : Prop :=
  (∃ signature, Alloy.signatureFromStr p.signature = .ok signature
      ∧ Alloy.recoverAddressFromPrehash signature
          (Namespace.signingHash p.eip712Domain p.premint) = .ok p.collection.contractAdmin)
    ∧ p.chainId ∈ ZoraPremint.supportedChains

/-- A Zora premint, of either type, is authentic. -/
def AuthenticZora : PremintTypes → Prop
  | .simple _ => True
  | .zoraV2 p => Authentic p
  | .zoraERC20V1 p => Authentic p

/-- So is every stored one. -/
def AllAuthentic {Text : Type} [Codec Text] (s : PremintStorage Text) : Prop :=
  ∀ r ∈ s.table.rows, ∀ p, PremintTypes.fromJson r.json = .ok p → AuthenticZora p

variable {Text : Type} [Codec Text]

/-! ## The two rules -/

omit [Codec Text] in
/-- **What is neither failed nor rejected by the two rules is authentic.** -/
theorem authentic_of_rules {Config : Type} [Namespace Config] {p : ZoraPremint Config}
    {context : RuleContext Text} {signature chain : Evaluation}
    (hsignature : p.isValidSignature context = .ok signature) (hsig : signature.isReject = false)
    (hchain : p.isChainSupported context = .ok chain) (hch : chain.isReject = false) :
    Authentic p := by
  refine ⟨signed_of_isValidSignature hsignature hsig, ?_⟩
  unfold ZoraPremint.isChainSupported at hchain
  split at hchain
  · rename_i hsupported
    exact List.contains_iff_mem.mp hsupported
  · cases hchain
    cases hch

/-- A V2 premint that the default rules let through is authentic. -/
theorem authentic_of_vetted {enableRpc : Bool} {p : V2}
    (h : Vetted (.newWithDefaultRules enableRpc : RulesEngine Text) (.zoraV2 p)) :
    Authentic p := by
  obtain ⟨context, hrules⟩ := h
  have hregistered : ∀ rule ∈ (V2.allV2Rules : List (Rule Text)),
      rule ∈ (RulesEngine.newWithDefaultRules enableRpc : RulesEngine Text).rules :=
    fun rule hrule => List.mem_append_right _ hrule
  obtain ⟨signature, hsignature, hsig⟩ := hrules _ (hregistered
    (typedRule "PremintTypes::ZoraV2" "V2::is_valid_signature" _ ZoraPremint.isValidSignature)
    (List.mem_cons_of_mem _ List.mem_cons_self))
  obtain ⟨chain, hchain, hch⟩ := hrules _ (hregistered
    (typedRule "PremintTypes::ZoraV2" "V2::is_chain_supported" _ ZoraPremint.isChainSupported)
    (List.mem_cons_of_mem _ (List.mem_cons_of_mem _ List.mem_cons_self)))
  have hsignature' : p.isValidSignature context = .ok signature := hsignature
  have hchain' : p.isChainSupported context = .ok chain := hchain
  exact authentic_of_rules hsignature' hsig hchain' hch

/-! ## The condition -/

/-- An ERC20V1 premint that a turn inserts is authentic, or kept out for another reason. -/
def BringsAuthentic (engine : RulesEngine Text) (s : PremintStorage Text) : Turn → Prop
  | .insert m p => ∀ q, p = .zoraERC20V1 q → Objected engine m s p ∨ Refused s p ∨ Authentic q
  | .markSeenOnChain _ => True

/-- So is an ERC20V1 premint that a task of a sync response is about to store. -/
def StoresAuthentic (s : PremintStorage Text) (t : Task) : Prop :=
  ∀ evaluation q, t.state = .accepted evaluation → t.premint = .zoraERC20V1 q →
    Refused s t.premint ∨ Authentic q

/-- A step in which no check fails and every ERC20V1 premint let in is authentic. -/
def AuthenticStep [Libp2p] (engine : RulesEngine Text) :
    Controller Text → Controller.Input → Controller Text → Prop :=
  StepIf engine (fun s t => ChecksOk engine s t ∧ BringsAuthentic engine s t)
    (fun m s t => ActChecked engine m s t ∧ StoresAuthentic s t)

/--
**Every stored premint is authentic, as long as every ERC20V1 premint let in is.**

For every run with the default rules in which no check fails: gossip, sync responses
under any schedule, and commands.
-/
theorem allAuthentic_run [LawfulCodec Text] [Libp2p] (config : Config) (enableRpc : Bool)
    {is : List Controller.Input} {c : Controller Text}
    (h : Lib.Run (AuthenticStep (.newWithDefaultRules enableRpc))
      (.new config (.newWithDefaultRules enableRpc)) is c) : AllAuthentic c.store := by
  -- V2 premints are authentic by what the rules found, the others by the condition
  have hv2 : ∀ p : PremintTypes, Vetted (.newWithDefaultRules enableRpc : RulesEngine Text) p →
      (∀ q, p = .zoraERC20V1 q → Authentic q) → AuthenticZora p := by
    intro p hvetted herc
    cases p with
    | simple q => trivial
    | zoraV2 q => exact authentic_of_vetted hvetted
    | zoraERC20V1 q => exact herc q rfl
  have hstored : AllStored AuthenticZora c.store := by
    refine allStored_run (A := Vetted (.newWithDefaultRules enableRpc : RulesEngine Text))
      ?_ ?_ ?_ ?_ h
    · rintro m s p evaluation ⟨hok, hbrings⟩ hev hacc href
      refine hv2 p (vetted_of_insert hok hev hacc) fun q hq => ?_
      rcases hbrings q hq with hobj | href' | hauth
      · rw [not_isAccept_of_objected hev hobj hok] at hacc
        cases hacc
      · exact absurd href' href
      · exact hauth
    · rintro m s t existing ⟨hok, _⟩ hst hacc
      exact vetted_of_checkRules (hok existing hst) hacc
    · rintro m s t evaluation ⟨_, hstores⟩ hst hvetted
      by_cases href : Refused s t.premint
      · exact .inl href
      · refine .inr (hv2 _ hvetted fun q hq => ?_)
        exact (hstores evaluation q hst hq).resolve_left href
    · intro r hr
      cases hr
  intro r hr p hp
  obtain ⟨q, hq, hauth⟩ := hstored r hr
  rw [hq.json] at hp
  cases hp
  exact hauth

end Authentic

/-! ## An ERC20V1 premint without a signature -/

section Example

open Sample

attribute [local instance] Sample.alloy Sample.libp2p

/-- A premint with the given signature, on a chain that is not supported. -/
def erc20Premint (chainId : UInt64) (signature : String) : ERC20V1 where
  collectionAddress := 1
  chainId := chainId
  premint := { tokenConfig := { tokenURI := "ipfs://a" }, uid := 1, version := 1 }
  signature := signature

def received (p : ERC20V1) : Controller Wire :=
  ((node {}).validateAndInsert offline (.zoraERC20V1 p)).2

/-- **It is stored, and no check failed.** -/
theorem unsigned_erc20_stored :
    Lib.Run (CheckedStep offlineRules) (.new {} offlineRules)
        [.event (.premintReceived (.zoraERC20V1 (erc20Premint 1 "")))]
        (received (erc20Premint 1 ""))
      ∧ ¬ AllAuthentic (received (erc20Premint 1 "")).store := by
  refine ⟨.snoc .nil (receive_stepIf rfl (not_failed_of_isErr (by decide +kernel))), ?_⟩
  intro h
  have hrows : (received (erc20Premint 1 "")).store.table.rows
      = [newRow 0 (.zoraERC20V1 (erc20Premint 1 ""))] := by
    decide +kernel
  unfold AllAuthentic at h
  rw [hrows] at h
  obtain ⟨⟨signature, hsignature, _⟩, _⟩ := h _ List.mem_cons_self _
    (PremintTypes.fromJson_toJson (.zoraERC20V1 (erc20Premint 1 "")))
  cases hsignature

/-- A signed one on a supported chain. -/
def signedErc20 : ERC20V1 :=
  erc20Premint 7777777 (String.ofList (List.replicate 132 '0'))

theorem signed_erc20_authentic : AllAuthentic (received signedErc20).store := by
  have hauth : Authentic signedErc20 :=
    ⟨⟨⟨0, 0, false⟩, by decide +kernel, by decide +kernel⟩, by decide⟩
  have hstep : AuthenticStep offlineRules (node {})
      (.event (.premintReceived (.zoraERC20V1 signedErc20))) (received signedErc20) := by
    refine receive_stepIf rfl ⟨not_failed_of_isErr (by decide +kernel), ?_⟩
    intro q hq
    cases hq
    exact .inr (.inr hauth)
  exact allAuthentic_run {} false (.snoc .nil hstep)

end Example

end Mintpool.Proof
