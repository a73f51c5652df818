import Mintpool.Proof.Checked

/-!
# Who may replace a premint, and by what

Two rules guard a row that is there: the new premint must have the signer of the old
one, and a higher version. The upsert then compares the versions again, as 64-bit
signed numbers, and can only refuse more. So as long as the rules answer, a row that
survives a step keeps its signer, and its version only goes up. Marking a row leaves
the premint alone; a row that is deleted and inserted anew is another row.
-/

namespace Mintpool.Proof

open Mintpool PremintStorage

section Ownership

variable {Text : Type} [Codec Text] [Alloy]

/-- The premint of a row that is there before and after is the same, or of a higher version
by the same signer. -/
def Advances (s s' : PremintStorage Text) : Prop :=
  ∀ k r r', s.table.lookup k = some r → s'.table.lookup k = some r' →
    ∃ p p', PremintTypes.fromJson r.json = .ok p ∧ PremintTypes.fromJson r'.json = .ok p'
      ∧ p'.metadata.signer = p.metadata.signer
      ∧ (p' = p ∨ p.metadata.version < p'.metadata.version)

theorem advances_refl {s : PremintStorage Text} (h : AllHold s) : Advances s s := by
  intro k r r' hr hr'
  rw [hr] at hr'
  cases hr'
  obtain ⟨p, hp⟩ := h r (Lib.KeyedTable.lookup_some hr).1
  exact ⟨p, p, hp.json, hp.json, rfl, .inl rfl⟩

theorem advances_mark {s : PremintStorage Text} (h : AllHold s) (claim : InclusionClaim) :
    Advances s (s.markSeenOnChain claim) := by
  intro k r r' hr hr'
  obtain ⟨p, hp⟩ := h r (Lib.KeyedTable.lookup_some hr).1
  obtain ⟨r₀, hr₀, heq⟩ := lookup_of_lookup_mark hr'
  rw [hr] at hr₀
  cases hr₀
  refine ⟨p, p, hp.json, ?_, rfl, .inl rfl⟩
  rcases heq with rfl | rfl <;> exact hp.json

/-! ## The two rules -/

/-- What the rules see of a row that is there. -/
theorem readExisting_of_lookup {s : PremintStorage Text} {p q : PremintTypes} {r : Row Text}
    (hl : s.table.lookup (premintKey p) = some r) (hq : Holds r q) :
    RulesEngine.readExisting s.clone p = .ok (some q) := by
  have hl' : s.clone.table.lookup (p.metadata.kind.name, p.metadata.id) = some r := hl
  unfold RulesEngine.readExisting getForIdAndKind decodeOne
  rw [hl']
  dsimp only
  rw [hq.json]

/-- **A premint no rule objects to has the signer of the one it replaces, and a higher
version.** -/
theorem advances_of_not_objected {enableRpc : Bool} {m : Moment} {s : PremintStorage Text}
    {p q : PremintTypes} {r : Row Text} (hl : s.table.lookup (premintKey p) = some r)
    (hq : Holds r q) (hobj : ¬ Objected (.newWithDefaultRules enableRpc) m s p) :
    p.metadata.signer = q.metadata.signer ∧ q.metadata.version < p.metadata.version := by
  have hread := readExisting_of_lookup hl hq
  have hsigner : metadataRule "signer_matches" General.signerMatches
      ∈ (RulesEngine.newWithDefaultRules enableRpc : RulesEngine Text).rules := by
    simp [RulesEngine.newWithDefaultRules, allRules, General.allRules]
  have hversion : metadataRule "version_is_higher" General.versionIsHigher
      ∈ (RulesEngine.newWithDefaultRules enableRpc : RulesEngine Text).rules := by
    simp [RulesEngine.newWithDefaultRules, allRules, General.allRules]
  constructor
  · by_contra hne
    refine hobj ⟨_, hread, _, hsigner, .inl ⟨"Signer does not match", ?_⟩⟩
    unfold answer metadataRule General.signerMatches
    exact if_neg (fun heq => hne heq.symm)
  · by_contra hnot
    refine hobj ⟨_, hread, _, hversion, .inl ?_⟩
    unfold answer metadataRule General.versionIsHigher
    exact ⟨_, if_neg hnot⟩

/-! ## One turn -/

theorem advances_insert [LawfulCodec Text] {enableRpc : Bool} {m : Moment}
    {s : PremintStorage Text} {p : PremintTypes} (h : AllHold s)
    (hok : ¬ Failed (.newWithDefaultRules enableRpc) m s p) :
    Advances s (validateAndInsert (.newWithDefaultRules enableRpc) m s p).2 := by
  by_cases hblocked : Objected (.newWithDefaultRules enableRpc) m s p ∨ Refused s p
  · rw [insert_of_objected_or_refused hok hblocked]
    exact advances_refl h
  · -- no rule objects and the storage takes it, so this premint is the one row that changes
    obtain ⟨hobj, href⟩ := not_or.mp hblocked
    obtain ⟨existing, hread⟩ := readExisting_of_allHold h p
    rw [insert_of_not_objected hread hobj href]
    intro k r r' hr hr'
    by_cases hk : k = premintKey p
    · subst hk
      obtain ⟨q, hq⟩ := h r (Lib.KeyedTable.lookup_some hr).1
      obtain ⟨hsigner, hversion⟩ := advances_of_not_objected hr hq hobj
      obtain ⟨r₁, hr₁, _, hjson⟩ := stored_of_not_refused m.clock.secs href
      rw [write, hr₁] at hr'
      cases hr'
      exact ⟨q, p, hq.json, hjson, hsigner, .inr hversion⟩
    · rw [write, lookup_store_of_ne hk, hr] at hr'
      cases hr'
      exact advances_refl h k r r hr hr

theorem advances_turn [LawfulCodec Text] {enableRpc : Bool} {s : PremintStorage Text} {t : Turn}
    (h : AllHold s) (hok : ChecksOk (.newWithDefaultRules enableRpc) s t) :
    Advances s (turn (.newWithDefaultRules enableRpc) s t) := by
  cases t with
  | insert m p => exact advances_insert h hok
  | markSeenOnChain claim => exact advances_mark h claim

/--
**A row keeps its signer, and its version only goes up.**

In every run with the default rules in which no check fails and no sync response is
handled, at every step.
-/
theorem ownership_kept [LawfulCodec Text] [Libp2p] (config : Config) (enableRpc : Bool)
    {is : List Controller.Input} {i : Controller.Input} {c c' : Controller Text}
    (hrun : Lib.Run (CheckedStep (.newWithDefaultRules enableRpc))
      (.new config (.newWithDefaultRules enableRpc)) is c)
    (hstep : CheckedStep (.newWithDefaultRules enableRpc) c i c')
    (hserial : ∀ j ∈ is ++ [i], ∀ ps, j ≠ .event (.syncResponse ps)) :
    Advances c.store c'.store := by
  have hold : AllHold c.store := allHold_run (run_of_stepIf hrun)
  obtain ⟨_, hs⟩ := hstep
  generalize c'.store = s' at hs
  cases hs with
  | same => exact advances_refl hold
  | turn _ hok => exact advances_turn hold hok
  | batch hi _ _ => exact absurd hi (hserial i (by simp) _)

end Ownership

/-! ## A premint and its next version -/

section Example

open Sample

attribute [local instance] Sample.alloy Sample.libp2p

/-- The node once it has received the first version. -/
def receivedOnce : Controller Wire :=
  ((node {}).validateAndInsert offline (.zoraV2 (validVersion 1))).2

theorem receivedOnce_rules : receivedOnce.rules = offlineRules := by
  rw [receivedOnce, validateAndInsert_rules]
  rfl

/-- **Its row goes to the next version.** -/
theorem next_version_advances :
    Advances receivedOnce.store
      (receivedOnce.validateAndInsert offline (.zoraV2 (validVersion 2))).2.store := by
  have hfirst : CheckedStep offlineRules (node {})
      (.event (.premintReceived (.zoraV2 (validVersion 1)))) receivedOnce :=
    receive_stepIf rfl (not_failed_of_isErr (by decide +kernel))
  have hsecond : CheckedStep offlineRules receivedOnce
      (.event (.premintReceived (.zoraV2 (validVersion 2))))
      (receivedOnce.validateAndInsert offline (.zoraV2 (validVersion 2))).2 :=
    receive_stepIf receivedOnce_rules (not_failed_of_isErr (by decide +kernel))
  exact ownership_kept {} false (.snoc .nil hfirst) hsecond (by simp)

end Example

end Mintpool.Proof
