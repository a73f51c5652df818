import Mintpool.Proof.Columns

/-!
# Minted premints stay gone

A node has no memory of a minted premint other than its row. Without pruning the row
stays, `seen_on_chain` and all: an upgrade writes neither the flag nor the key, so no
copy and no higher version is ever listed. With pruning the row is deleted, and the
node has forgotten: it is the `not_minted` rule that keeps a copy out, by asking the
chain. Where the rule cannot ask, a copy that arrives later is let in and listed like
any other premint. A claim that is handled before its premint leaves no trace at all.
-/

namespace Mintpool.Proof

open Mintpool PremintStorage

section Minted

variable {Text : Type} [Codec Text] [Alloy]

/-! ## What is listed -/

/-- The premint is in the result of one of the two list queries. -/
def Listed (s : PremintStorage Text) (p : PremintTypes) : Prop :=
  p ∈ s.listAll ∨ ∃ options, p ∈ s.listAllWithOptions options

/-- **A listed premint is in a row that is not marked.** -/
theorem row_of_listed {s : PremintStorage Text} {p : PremintTypes} (hholds : AllHold s)
    (h : Listed s p) :
    ∃ r, s.table.lookup (premintKey p) = some r ∧ r.seenOnChain = false := by
  have hrow : ∃ r ∈ s.table.rows, r.seenOnChain = false
      ∧ PremintTypes.fromJson r.json = .ok p := by
    rcases h with h | ⟨options, h⟩
    · obtain ⟨r, hr, hjson⟩ := mem_decodeRows_iff.mp h
      obtain ⟨hmem, hseen⟩ := List.mem_filter.mp hr
      exact ⟨r, hmem, by simpa using hseen, hjson⟩
    · obtain ⟨r, hr, hjson⟩ := mem_decodeRows_iff.mp h
      obtain ⟨hmem, hquery⟩ := List.mem_filter.mp hr
      refine ⟨r, hmem, ?_, hjson⟩
      simp only [buildQuery, Bool.and_eq_true, Bool.not_eq_true'] at hquery
      exact hquery.1.1.1.1.1.1
  obtain ⟨r, hmem, hseen, hjson⟩ := hrow
  -- the row under the key is this one, which is not marked
  obtain ⟨q, hq⟩ := hholds r hmem
  have hqp : q = p := Except.ok.inj (hq.json.symm.trans hjson)
  have hkey : r.key = premintKey p := by rw [hq.key, hqp]
  exact ⟨r, by rw [← hkey]; exact Lib.KeyedTable.mem_iff_lookup.mp hmem, hseen⟩

/-! ## Without pruning: the mark stays -/

/-- The row is there, and marked. -/
def SeenRow (s : PremintStorage Text) (k : String × String) : Prop :=
  s.pruneMintedPremints = false ∧ ∃ r, s.table.lookup k = some r ∧ r.seenOnChain = true

/-- **Preserved by every write**, upgrades of the row itself included. -/
theorem seenRow_write {k : String × String} (s : PremintStorage Text) (w : Write)
    (h : SeenRow s k) : SeenRow (write s w) k := by
  obtain ⟨hprune, r, hr, hseen⟩ := h
  refine ⟨by rw [write_prune, hprune], ?_⟩
  cases w with
  | store now p =>
      by_cases hk : k = premintKey p
      · subst hk
        rcases store_self_cases s now p with ⟨hnone, _⟩ | ⟨old, hold, _, hup⟩ | ⟨_, hsame⟩
        · rw [hnone] at hr; cases hr
        · -- the upgrade writes `version` and `json`, and keeps the flag
          rw [hold] at hr
          cases hr
          exact ⟨_, hup, hseen⟩
        · exact ⟨r, by rw [write, hsame, hr], hseen⟩
      · exact ⟨r, by rw [write, lookup_store_of_ne hk, hr], hseen⟩
  | markSeenOnChain claim =>
      cases hm : claimMatches claim r with
      | false =>
          refine ⟨r, ?_, hseen⟩
          rw [write, lookup_mark_of_not_matches (fun r' hr' => by
            rw [hr] at hr'; cases hr'; exact hm), hr]
      | true =>
          refine ⟨markRow r, ?_, rfl⟩
          rw [write, lookup_mark_of_matches hr hm, hprune]
          rfl

/-! ## With pruning: the row is gone until a copy is let in -/

/-- The node has no row under this key, and after the step it has one. -/
def LetsIn (k : String × String) (c c' : Controller Text) : Prop :=
  c.store.table.lookup k = none ∧ c'.store.table.lookup k ≠ none

/-- No row under this key is unmarked. -/
def Gone (s : PremintStorage Text) (k : String × String) : Prop :=
  SeenRow s k ∨ s.table.lookup k = none

theorem not_listed_of_gone {s : PremintStorage Text} (hholds : AllHold s) {p : PremintTypes}
    (h : Gone s (premintKey p)) : ¬ Listed s p := by
  intro hlisted
  obtain ⟨r, hr, hseen⟩ := row_of_listed hholds hlisted
  rcases h with ⟨_, r', hr', hseen'⟩ | hnone
  · rw [hr] at hr'
    cases hr'
    rw [hseen] at hseen'
    cases hseen'
  · rw [hr] at hnone
    cases hnone

/-- An unmarked row is listed, with the premint that it holds. -/
theorem listed_of_row {s : PremintStorage Text} (hholds : AllHold s) {k : String × String}
    {r : Row Text} (hr : s.table.lookup k = some r) (hseen : r.seenOnChain = false) :
    ∃ p, premintKey p = k ∧ Listed s p := by
  obtain ⟨hmem, hkey⟩ := Lib.KeyedTable.lookup_some hr
  obtain ⟨p, hp⟩ := hholds r hmem
  refine ⟨p, hp.key.symm.trans hkey, .inl (mem_decodeRows_iff.mpr ⟨r, ?_, hp.json⟩)⟩
  exact List.mem_filter.mpr ⟨hmem, by simp [hseen]⟩

theorem lookup_none_marks {k : String × String} {s : PremintStorage Text} {ws : List Write}
    (hmarks : ∀ w ∈ ws, ∃ claim, w = .markSeenOnChain claim) (h : s.table.lookup k = none) :
    (ws.foldl write s).table.lookup k = none := by
  refine Lib.foldl_invariant (I := fun s : PremintStorage Text => s.table.lookup k = none)
    (fun s w hw h => ?_) h
  obtain ⟨claim, rfl⟩ := hmarks w hw
  rw [write, lookup_mark_of_not_matches (fun r hr => by rw [h] at hr; cases hr), h]

/-- Stores mark nothing: what they bring in, and what they upgrade, is unmarked. -/
theorem unmarked_stores {k : String × String} {s : PremintStorage Text} {ws : List Write}
    (hstores : ∀ w ∈ ws, ∃ now p, w = .store now p)
    (h : ∀ r, s.table.lookup k = some r → r.seenOnChain = false) :
    ∀ r, (ws.foldl write s).table.lookup k = some r → r.seenOnChain = false := by
  refine Lib.foldl_invariant (I := fun s : PremintStorage Text =>
    ∀ r, s.table.lookup k = some r → r.seenOnChain = false) (fun s w hw h r hr => ?_) h
  obtain ⟨now, p, rfl⟩ := hstores w hw
  by_cases hk : k = premintKey p
  · subst hk
    rcases store_self_cases s now p with ⟨_, hnew⟩ | ⟨old, hold, _, hup⟩ | ⟨_, hsame⟩
    · rw [write, hnew] at hr
      cases hr
      rfl
    · -- the upgrade keeps the flag of the row
      rw [write, hup] at hr
      cases hr
      exact h old hold
    · rw [write, hsame] at hr
      exact h r hr
  · rw [write, lookup_store_of_ne hk] at hr
    exact h r hr

/-! ## Over a run of the node -/

variable [Libp2p]

omit [Codec Text] [Alloy] [Libp2p] in
/-- An input that leads to something else than a mark leads to stores only. -/
theorem store_of_causes {i : Controller.Input} {w w₀ : Write} (h : Causes i w)
    (h₀ : Causes i w₀) (hnot : ¬ ∃ claim, w₀ = .markSeenOnChain claim) :
    ∃ now p, w = .store now p := by
  cases w₀ with
  | markSeenOnChain claim => exact absurd ⟨claim, rfl⟩ hnot
  | store now₀ p₀ =>
      cases w with
      | store now p => exact ⟨now, p, rfl⟩
      | markSeenOnChain claim =>
          unfold Causes at h h₀
          split at h <;> simp_all

/-- Handling the input accepts the claim: the node's own checker found the mint, or a
peer's claim got as far as `mark_seen_on_chain`. -/
inductive Accepts (c : Controller Text) (claim : InclusionClaim) : Controller Text → Prop
  | resolve {c' : Controller Text}
      (h : Controller.Step c (.command (.resolveOnchainMint claim)) c') : Accepts c claim c'
  | peer (fromPeerId : PeerId) {c' : Controller Text}
      (h : Controller.Step c (.event (.mintSeenOnchain ⟨claim, fromPeerId⟩)) c')
      (hreached : c'.store = c.store.markSeenOnChain claim) : Accepts c claim c'

theorem store_of_accepts {c c' : Controller Text} {claim : InclusionClaim}
    (h : Accepts c claim c') : c'.store = c.store.markSeenOnChain claim := by
  cases h with
  | peer fromPeerId h hreached => exact hreached
  | resolve h =>
      cases h with
      | command m h =>
          unfold Controller.handleCommand at h
          dsimp only at h
          split at h
          · cases h
            exact (sendSwarm_same { c with store := c.store.markSeenOnChain claim } _).1
          · cases h; rfl

/-- Every state after an accepted claim holds premints. -/
theorem allHold_of_accepts [LawfulCodec Text] {config : Config} {rules : RulesEngine Text}
    {is is' : List Controller.Input} {c c' c'' : Controller Text} {claim : InclusionClaim}
    (hrun : Controller.Run (.new config rules) is c) (haccepts : Accepts c claim c')
    (hrun' : Controller.Run c' is' c'') : AllHold c''.store := by
  have hholds : AllHold c'.store := by
    rw [store_of_accepts haccepts]
    exact allHold_write c.store (.markSeenOnChain claim) (allHold_run hrun)
  exact run_invariant allHold_write hholds hrun'

/-- **What an accepted claim leaves behind**: a marked row, or none. -/
theorem gone_of_accepts {c c' : Controller Text} {claim : InclusionClaim}
    (hchain : ∀ r, c.store.table.lookup (claim.kind, claim.premintId) = some r →
      r.chainId = claim.chainId.toInt64)
    (haccepts : Accepts c claim c') : Gone c'.store (claim.kind, claim.premintId) := by
  rw [store_of_accepts haccepts]
  cases hl : c.store.table.lookup (claim.kind, claim.premintId) with
  | none =>
      refine .inr ?_
      rw [lookup_mark_of_not_matches (fun r hr => by rw [hl] at hr; cases hr), hl]
  | some r =>
      -- the row has kind and id of the claim by its key, and the chain by hypothesis
      have hmatches : claimMatches claim r = true := by
        obtain ⟨hkind, hid⟩ := Prod.mk.inj (Lib.KeyedTable.lookup_some hl).2
        simp [claimMatches, hkind, hid, hchain r hl]
      have hmarked := lookup_mark_of_matches hl hmatches
      cases hp : c.store.pruneMintedPremints with
      | true => exact .inr (by rw [hmarked, hp, if_pos rfl])
      | false =>
          rw [hp, if_neg (by simp)] at hmarked
          exact .inl ⟨by rw [mark_prune, hp], _, hmarked, rfl⟩

/-- **It stays so, unless the step lets a copy in.** -/
theorem gone_step {k : String × String} {c d : Controller Text} {i : Controller.Input}
    (h : Gone c.store k) (hs : Controller.Step c i d) (hlets : ¬ LetsIn k c d) :
    Gone d.store k := by
  rcases h with hseenRow | hnone
  · exact .inl (run_invariant seenRow_write hseenRow (.single hs))
  · exact .inr (by_contra fun hsome => hlets ⟨hnone, hsome⟩)

/-- **And a copy that is let in is listed at once.** -/
theorem listed_of_letsIn {k : String × String} {c d : Controller Text} {i : Controller.Input}
    (hholds : AllHold d.store) (hs : Controller.Step c i d) (h : LetsIn k c d) :
    ∃ p, premintKey p = k ∧ Listed d.store p := by
  obtain ⟨hnone, hsome⟩ := h
  obtain ⟨r, hr⟩ := Option.ne_none_iff_exists'.mp hsome
  obtain ⟨ws, hws, hst⟩ := storeStep_writes (stepped_step hs).store
  rw [hst] at hr
  -- no input leads both to a mark and to a store
  have hkinds : (∀ w ∈ ws, ∃ claim, w = .markSeenOnChain claim)
      ∨ ∀ w ∈ ws, ∃ now p, w = .store now p := by
    by_cases hmarks : ∀ w ∈ ws, ∃ claim, w = Write.markSeenOnChain claim
    · exact .inl hmarks
    · refine .inr fun w hw => ?_
      obtain ⟨w₀, hw₀, hnot⟩ : ∃ w₀ ∈ ws, ¬ ∃ claim, w₀ = Write.markSeenOnChain claim := by
        simpa only [not_forall, exists_prop] using hmarks
      exact store_of_causes (hws w hw) (hws w₀ hw₀) hnot
  rcases hkinds with hmarks | hstores
  · rw [lookup_none_marks hmarks hnone] at hr
    cases hr
  · have hseen := unmarked_stores hstores (fun r hr => by rw [hnone] at hr; cases hr) r hr
    exact listed_of_row hholds (by rw [hst]; exact hr) hseen

/--
**Once a claim is accepted, its premint is not listed until a copy is let in**, and then it is.
For both settings of pruning and whatever is received: a copy that the rules turn away, or that
upgrades a row that the node has kept, does not bring it back.
-/
theorem minted_not_listed [LawfulCodec Text] {config : Config} {rules : RulesEngine Text}
    {is is' : List Controller.Input} {c c' c'' : Controller Text} {claim : InclusionClaim}
    (hrun : Controller.Run (.new config rules) is c)
    (hchain : ∀ r, c.store.table.lookup (claim.kind, claim.premintId) = some r →
      r.chainId = claim.chainId.toInt64)
    (haccepts : Accepts c claim c')
    (hrun' : Lib.Run (fun c i d =>
      Controller.Step c i d ∧ ¬ LetsIn (claim.kind, claim.premintId) c d) c' is' c'') :
    (∀ p, Listed c''.store p → premintKey p ≠ (claim.kind, claim.premintId))
      ∧ ∀ i d, Controller.Step c'' i d →
        ((∃ p, premintKey p = (claim.kind, claim.premintId) ∧ Listed d.store p)
          ↔ LetsIn (claim.kind, claim.premintId) c'' d) := by
  have hgone : Gone c''.store (claim.kind, claim.premintId) :=
    Lib.Run.invariant (P := fun d : Controller Text => Gone d.store (claim.kind, claim.premintId))
      (gone_of_accepts hchain haccepts) (fun _ _ _ h hs => gone_step h hs.1 hs.2) hrun'
  have hsteps : Controller.Run c' is' c'' := hrun'.mono And.left
  refine ⟨fun p hlisted hkey => ?_, fun i d hs => ⟨fun ⟨p, hkey, hlisted⟩ => ?_, fun hlets => ?_⟩⟩
  · exact not_listed_of_gone (allHold_of_accepts hrun haccepts hsteps) (hkey ▸ hgone) hlisted
  · by_contra hlets
    have hgone' := gone_step hgone hs hlets
    exact not_listed_of_gone (allHold_of_accepts hrun haccepts (hsteps.snoc hs)) (hkey ▸ hgone')
      hlisted
  · exact listed_of_letsIn (allHold_of_accepts hrun haccepts (hsteps.snoc hs)) hs hlets

end Minted

/-! ## Copies after the mint -/

section Example

open Sample

attribute [local instance] Sample.alloy Sample.libp2p

def mintable (version : UInt32) : PremintTypes :=
  .zoraV2 { validPremint with premint := { validPremint.premint with version := version } }

/-- The claim of a checker that sees it minted. -/
def mintableClaim : InclusionClaim :=
  ⟨(mintable 1).metadata.id, 7777777, 5, 0, "zora_premint_v2"⟩

def receive (c : Controller Wire) (p : PremintTypes) : Controller Wire :=
  (c.validateAndInsert offline p).2

theorem receive_run (c : Controller Wire) (p : PremintTypes) :
    Controller.Run c [.event (.premintReceived p)] (receive c p) :=
  .snoc .nil (.event (.premintReceived offline p))

theorem receive_config (c : Controller Wire) (p : PremintTypes) :
    (receive c p).config = c.config := rfl

/-- A claim of a checker of another chain. -/
def otherChainClaim : InclusionClaim := { mintableClaim with chainId := 1 }

/-- One of the node's own checkers found the mint. -/
def resolve (c : Controller Wire) (claim : InclusionClaim) : Controller Wire :=
  { c with store := c.store.markSeenOnChain claim }

theorem resolve_accepts {c : Controller Wire} (h : c.config.chainInclusionMode ≠ .check)
    (claim : InclusionClaim) : Accepts c claim (resolve c claim) := by
  have hcommand : c.handleCommand offline (.resolveOnchainMint claim)
      = .ret (.none, .ok (), resolve c claim) := if_neg h
  exact .resolve (.command offline hcommand)

/-- A node without RPC, which deletes what is minted, or keeps it. -/
def fresh (prune : Bool) : Controller Wire :=
  node { pruneMintedPremints := prune, enableRpc := false }

/--
**A deleted premint is listed again when a copy arrives; and a claim that comes before its
premint is forgotten even by a node that deletes nothing, as is one that names another chain.**
-/
theorem minted_listed_again :
    (∃ c c' c'', Controller.Run (fresh true) [.event (.premintReceived (mintable 1))] c
        ∧ Accepts c mintableClaim c'
        ∧ Controller.Run c' [.event (.premintReceived (mintable 1))] c''
        ∧ Listed c''.store (mintable 1))
      ∧ (∃ c' c'', Accepts (fresh false) mintableClaim c'
        ∧ Controller.Run c' [.event (.premintReceived (mintable 1))] c''
        ∧ Listed c''.store (mintable 1))
      ∧ ∃ c c', Controller.Run (fresh false) [.event (.premintReceived (mintable 1))] c
        ∧ Accepts c otherChainClaim c' ∧ Listed c'.store (mintable 1) := by
  refine ⟨⟨_, _, _, receive_run _ _, resolve_accepts (by rw [receive_config]; decide) _,
    receive_run _ _, .inl ?_⟩, ⟨_, _, resolve_accepts (by decide) _, receive_run _ _, .inl ?_⟩,
    _, _, receive_run _ _, resolve_accepts (by rw [receive_config]; decide) _, .inl ?_⟩ <;>
  decide +kernel

/-- A node that asks the chains, and deletes what is minted. -/
def online : Controller Wire := .new {} (.newWithDefaultRules true)

/-- An instant at which the chain has the premint as minted. -/
def minted : Moment where
  chains := { getRpc := fun _ => .ok {
    getTransactionReceipt := fun _ => .ok none
    isAuthorizedToCreatePremint := fun _ _ _ => .ok true
    premintStatus := fun _ _ => .ok (true, 1)
    supportedPremintSignatureVersions := fun _ => .ok ["2"] } }
  clock := offline.clock

/-- The node stores the premint while no chain answers, and finds the mint. -/
def afterMint : Controller Wire := resolve (receive online (mintable 1)) mintableClaim

/-- A copy that is received when the chain answers is not let in, and so not listed. -/
theorem copy_turned_away : ∃ c,
    Controller.Run afterMint [.event (.premintReceived (mintable 1))] c
      ∧ ∀ p, Listed c.store p → premintKey p ≠ (mintableClaim.kind, mintableClaim.premintId) := by
  have hrow : (receive online (mintable 1)).store.table.lookup
      (mintableClaim.kind, mintableClaim.premintId) = some (newRow 0 (mintable 1)) := by
    decide +kernel
  have hout : ¬ LetsIn (mintableClaim.kind, mintableClaim.premintId) afterMint
      (afterMint.validateAndInsert minted (mintable 1)).2 := by
    rintro ⟨_, hsome⟩
    exact hsome (by decide +kernel)
  have hrun' : Lib.Run (fun c i d =>
      Controller.Step c i d ∧ ¬ LetsIn (mintableClaim.kind, mintableClaim.premintId) c d)
      afterMint [.event (.premintReceived (mintable 1))]
      (afterMint.validateAndInsert minted (mintable 1)).2 :=
    .single ⟨.event (.premintReceived minted (mintable 1)), hout⟩
  refine ⟨_, hrun'.mono And.left, (minted_not_listed (receive_run online (mintable 1))
    (fun r hr => ?_) (resolve_accepts (by rw [receive_config]; decide) mintableClaim) hrun').1⟩
  rw [hrow] at hr
  cases hr
  rfl

end Example

end Mintpool.Proof
