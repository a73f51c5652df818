import Mintpool.Proof.Propagation

/-!
# Topics and kinds

A node subscribes to two topics for each kind that it is to process, and then takes the
topic only as a hint at how to parse: what is parsed names a kind of its own, a premint by
its variant and a claim by a string, and nothing compares it with the topic's. So a message
stays with its topic exactly when its body does, or when the node has other reasons not to
act on it.
-/

namespace Mintpool.Proof

open Mintpool PremintStorage

section Topics

variable {Text : Type} [Codec Text] [Alloy] [Libp2p]

/-! ## What a node acts on -/

/-- The rules accept the premint, and so does the table. -/
def Admits (c : Controller Text) (m : Moment) (p : PremintTypes) : Prop :=
  (∃ evaluation, c.rules.evaluate m.chains p c.store.clone = .ok evaluation
    ∧ evaluation.isAccept = true) ∧ ¬ Refused c.store p

/-- The inclusion mode has the node act on this claim from this peer. -/
def ActsOn (c : Controller Text) (m : Moment) (peerClaim : PeerInclusionClaim) : Prop :=
  match c.config.chainInclusionMode with
  | .check | .verify =>
      ∃ premint, c.store.getForIdAndKind peerClaim.claim.premintId ⟨peerClaim.claim.kind⟩
          = .ok premint
        ∧ inclusionClaimCorrect m.chains premint peerClaim.claim = .ret (.ok true)
  | .trust => c.config.trustedPeers.contains peerClaim.fromPeerId = true

omit [Libp2p] in
theorem validateAndInsert_of_admits {c : Controller Text} {m : Moment} {p : PremintTypes}
    (h : Admits c m p) :
    (c.validateAndInsert m p).2 = { c with store := (c.store.store m.clock.secs p).2 } := by
  obtain ⟨⟨evaluation, hev, hacc⟩, href⟩ := h
  unfold Controller.validateAndInsert
  rw [validateAndInsert_of_accept hev hacc href]

omit [Libp2p] in
theorem validateAndInsert_of_not_admits {c : Controller Text} {m : Moment} {p : PremintTypes}
    (h : ¬ Admits c m p) : (c.validateAndInsert m p).2 = c := by
  rcases validateAndInsert_cases c.rules m c.store p with ⟨e, herror⟩ | ⟨_, hev, hacc, href, _⟩
  · unfold Controller.validateAndInsert
    rw [herror]
  · exact absurd ⟨⟨_, hev, hacc⟩, href⟩ h

theorem handleEventOnchainClaim_of_actsOn {c : Controller Text} {m : Moment}
    {peerClaim : PeerInclusionClaim} (h : ActsOn c m peerClaim) :
    c.handleEventOnchainClaim m peerClaim
      = .ret (.ok (), { c with store := c.store.markSeenOnChain peerClaim.claim }) := by
  by_cases hmode : c.config.chainInclusionMode = .trust
  · unfold ActsOn at h
    rw [hmode] at h
    rw [handleEventOnchainClaim_of_trust m peerClaim hmode, if_pos h]
  · have hcheck : ∃ premint,
        c.store.getForIdAndKind peerClaim.claim.premintId ⟨peerClaim.claim.kind⟩ = .ok premint
          ∧ inclusionClaimCorrect m.chains premint peerClaim.claim = .ret (.ok true) := by
      unfold ActsOn at h
      split at h
      · exact h
      · exact h
      · rename_i htrust
        exact absurd htrust hmode
    obtain ⟨premint, hget, hcorrect⟩ := hcheck
    rw [handleEventOnchainClaim_of_ne_trust m peerClaim hmode, checkClaim, hget]
    dsimp only
    rw [hcorrect]

/-- **A claim is marked only if the mode has the node act on it.** -/
theorem actsOn_of_handled {c c' : Controller Text} {m : Moment} {peerClaim : PeerInclusionClaim}
    {result : Except Report Unit}
    (h : c.handleEventOnchainClaim m peerClaim = .ret (result, c')) :
    c' = c ∨ ActsOn c m peerClaim
      ∧ c' = { c with store := c.store.markSeenOnChain peerClaim.claim } := by
  by_cases hmode : c.config.chainInclusionMode = .trust
  · rw [handleEventOnchainClaim_of_trust m peerClaim hmode] at h
    cases h
    split
    · rename_i htrusted
      refine .inr ⟨?_, rfl⟩
      unfold ActsOn
      rw [hmode]
      exact htrusted
    · exact .inl rfl
  · rw [handleEventOnchainClaim_of_ne_trust m peerClaim hmode] at h
    rcases checkClaim_cases h with hsame | ⟨premint, hget, hcorrect, hmark⟩
    · exact .inl hsame
    · refine .inr ⟨?_, hmark⟩
      unfold ActsOn
      split
      · exact ⟨premint, hget, hcorrect⟩
      · exact ⟨premint, hget, hcorrect⟩
      · rename_i htrust
        exact absurd htrust hmode

/-! ## What it changes -/

/-- From `c` to `c'`, only rows of this kind have changed, and only rows of kinds that the
node lists are new. -/
structure Confined (kind : PremintName) (c c' : Controller Text) : Prop where
  only : ∀ key : String × String, key.1 ≠ kind.name →
    c'.store.table.lookup key = c.store.table.lookup key
  listed : ∀ r ∈ c'.store.table.rows, c.store.table.lookup r.key = none →
    ⟨r.kind⟩ ∈ c.config.premintNames

omit [Codec Text] [Alloy] [Libp2p] in
/-- For a kind that is listed, the second follows from the first. -/
theorem confined_of_only {kind : PremintName} {c c' : Controller Text}
    (hlisted : kind ∈ c.config.premintNames)
    (h : ∀ key : String × String, key.1 ≠ kind.name →
      c'.store.table.lookup key = c.store.table.lookup key) : Confined kind c c' := by
  refine ⟨h, fun r hr hnone => ?_⟩
  have hkind : r.kind = kind.name := by
    by_contra hne
    have hsame := h r.key hne
    rw [hnone, Lib.KeyedTable.mem_iff_lookup.mp hr] at hsame
    cases hsame
  rw [hkind]
  exact hlisted

omit [Codec Text] [Alloy] [Libp2p] in
theorem confined_refl {kind : PremintName} (c : Controller Text)
    (hlisted : kind ∈ c.config.premintNames) : Confined kind c c :=
  confined_of_only hlisted fun _ _ => rfl

omit [Libp2p] in
/-- **An upsert that is not refused changes the row of its premint.** -/
theorem lookup_store_ne {s : PremintStorage Text} {p : PremintTypes} (now : Int)
    (h : ¬ Refused s p) :
    (s.store now p).2.table.lookup (premintKey p) ≠ s.table.lookup (premintKey p) := by
  rcases store_self_cases s now p with ⟨hnone, hnew⟩ | ⟨old, hold, hlt, hup⟩ | ⟨href, _⟩
  · rw [hnew, hnone]
    exact nofun
  · rw [hup, hold]
    intro hsame
    have hversion : p.metadata.version.toInt64 = old.version :=
      congrArg Row.version (Option.some.inj hsame)
    rw [hversion] at hlt
    exact Int64.lt_irrefl hlt
  · exact absurd href h

omit [Codec Text] [Alloy] [Libp2p] in
/-- And a mark changes every row that it is to change. -/
theorem lookup_mark_ne {s : PremintStorage Text} {claim : InclusionClaim} {r : Row Text}
    (hr : r ∈ s.table.rows) (h : Marks s claim r) :
    (s.markSeenOnChain claim).table.lookup r.key ≠ s.table.lookup r.key := by
  obtain ⟨hmatches, hstate⟩ := h
  have hl := Lib.KeyedTable.mem_iff_lookup.mp hr
  rw [lookup_mark_of_matches hl hmatches, hl]
  split
  · exact nofun
  · rename_i hprune
    intro hsame
    have hseen : true = r.seenOnChain := congrArg Row.seenOnChain (Option.some.inj hsame)
    rw [hstate.resolve_left hprune] at hseen
    cases hseen

omit [Libp2p] in
theorem confined_insert_iff {kind : PremintName} {c : Controller Text} {m : Moment}
    {p : PremintTypes} (hlisted : kind ∈ c.config.premintNames) :
    Confined kind c (c.validateAndInsert m p).2 ↔ p.metadata.kind = kind ∨ ¬ Admits c m p := by
  by_cases hadmits : Admits c m p
  · rw [validateAndInsert_of_admits hadmits]
    refine ⟨fun h => .inl (by_contra fun hne => ?_), fun h => confined_of_only hlisted ?_⟩
    · refine lookup_store_ne m.clock.secs hadmits.2 (h.only (premintKey p) fun hkind => hne ?_)
      exact congrArg PremintName.mk hkind
    · intro key hkey
      refine lookup_store_of_ne fun hsame => hkey ?_
      rw [hsame, ← h.resolve_right (not_not_intro hadmits)]
      rfl
  · rw [validateAndInsert_of_not_admits hadmits]
    exact ⟨fun _ => .inr hadmits, fun _ => confined_refl c hlisted⟩

omit [Codec Text] [Alloy] [Libp2p] in
theorem confined_mark_iff {kind : PremintName} {c : Controller Text} {claim : InclusionClaim}
    (hlisted : kind ∈ c.config.premintNames) :
    Confined kind c { c with store := c.store.markSeenOnChain claim }
      ↔ claim.kind = kind.name ∨ ∀ r ∈ c.store.table.rows, ¬ Marks c.store claim r := by
  refine ⟨fun h => ?_, fun h => confined_of_only hlisted fun key hkey => ?_⟩
  · by_cases hkind : claim.kind = kind.name
    · exact .inl hkind
    · refine .inr fun r hr hmarks => lookup_mark_ne hr hmarks (h.only r.key ?_)
      have hmatches := hmarks.1
      simp only [claimMatches, Bool.and_eq_true, decide_eq_true_eq] at hmatches
      intro hsame
      exact hkind (hmatches.2.symm.trans hsame)
  · rcases h with hkind | hnone
    · refine lookup_mark_of_not_matches fun r hr => ?_
      rw [Bool.eq_false_iff]
      intro hmatches
      simp only [claimMatches, Bool.and_eq_true, decide_eq_true_eq] at hmatches
      have hrow : key = r.key := (Lib.KeyedTable.lookup_some hr).2.symm
      refine hkey ?_
      rw [hrow, ← hkind]
      exact hmatches.2
    · -- the mark finds nothing to change
      have hsame : (c.store.markSeenOnChain claim).table = c.store.table := by
        by_contra hne
        obtain ⟨r, hr, hmarks⟩ := mark_table_ne_iff.mp hne
        exact hnone r hr hmarks
      rw [hsame]

/-! ## Messages -/

variable [Unicode]

/-- The swarm hands the message on, and the controller handles it. -/
def Handles (c : Controller Text) (source : PeerId) (message : Message Text)
    (c' : Controller Text) : Prop :=
  ∃ event, handleGossipsubEvent c.config.premintNames source message = .ok (.send event)
    ∧ Controller.HandleEvent c event (.ret c')

/-- The body is of the topic's kind, or the node does not act on it. -/
structure StaysOnTopic (kind : PremintName) (c : Controller Text) (m : Moment) (source : PeerId)
    (message : Message Text) : Prop where
  premint : message.topic = kind.msgTopic → ∀ p, PremintTypes.fromJson message.data = .ok p →
    p.metadata.kind = kind ∨ ¬ Admits c m p
  claim : message.topic = kind.claimsTopic → ∀ claim, Codec.claimFromJson message.data = .ok claim →
    claim.kind = kind.name ∨ ¬ ActsOn c m ⟨claim, source⟩
      ∨ ∀ r ∈ c.store.table.rows, ¬ Marks c.store claim r

omit [Codec Text] [Alloy] [Libp2p] in
theorem msgTopic_ne_claimsTopic (kind : PremintName) : kind.msgTopic ≠ kind.claimsTopic := by
  intro h
  have hnot := msgTopic_not_claims kind [kind]
  rw [h] at hnot
  have hmem : (claimsTopicHashes [kind]).contains kind.claimsTopic = true :=
    List.contains_iff_mem.mpr List.mem_cons_self
  rw [hmem] at hnot
  cases hnot

omit [Alloy] in
theorem handleGossipsubEvent_on_msgTopic {names : List PremintName} {kind : PremintName}
    {source : PeerId} {message : Message Text} (htopic : message.topic = kind.msgTopic)
    {event : P2PEvent} : handleGossipsubEvent names source message = .ok (.send event)
      ↔ ∃ p, PremintTypes.fromJson message.data = .ok p ∧ event = .premintReceived p := by
  have hannounce : message.topic ≠ announceTopic := by
    rw [htopic]
    exact msgTopic_ne_announceTopic kind
  have hclaims : (claimsTopicHashes names).contains message.topic = false := by
    rw [htopic]
    exact msgTopic_not_claims kind names
  unfold handleGossipsubEvent
  rw [if_neg hannounce, hclaims, if_neg (by decide)]
  cases PremintTypes.fromJson message.data with
  | error e => exact ⟨fun h => (nomatch h), fun ⟨_, h, _⟩ => (nomatch h)⟩
  | ok p =>
      refine ⟨fun h => ⟨p, rfl, ?_⟩, fun ⟨q, hq, hevent⟩ => ?_⟩
      · injection h with h
        injection h with h
        exact h.symm
      · rw [hevent, Except.ok.inj hq]

omit [Alloy] in
theorem handleGossipsubEvent_on_claimsTopic {names : List PremintName} {kind : PremintName}
    (hlisted : kind ∈ names) {source : PeerId} {message : Message Text}
    (htopic : message.topic = kind.claimsTopic) {event : P2PEvent} :
    handleGossipsubEvent names source message = .ok (.send event)
      ↔ ∃ claim, Codec.claimFromJson message.data = .ok claim
        ∧ event = .mintSeenOnchain ⟨claim, source⟩ := by
  have hannounce : message.topic ≠ announceTopic := by
    rw [htopic]
    exact claimsTopic_ne_announceTopic kind
  have hclaims : (claimsTopicHashes names).contains message.topic = true := by
    rw [htopic]
    exact List.contains_iff_mem.mpr (List.mem_map_of_mem hlisted)
  unfold handleGossipsubEvent
  rw [if_neg hannounce, if_pos hclaims]
  cases Codec.claimFromJson message.data with
  | error e => exact ⟨fun h => (nomatch h), fun ⟨_, h, _⟩ => (nomatch h)⟩
  | ok claim =>
      refine ⟨fun h => ⟨claim, rfl, ?_⟩, fun ⟨claim', hclaim', hevent⟩ => ?_⟩
      · injection h with h
        injection h with h
        exact h.symm
      · rw [hevent, Except.ok.inj hclaim']

/--
**Exactly when a message stays with its topic.** In every reachable state of any node, for
every message on one of the two topics of a kind that the node lists, whatever its body.
-/
theorem message_confined_iff {config : Config} {rules : RulesEngine Text}
    {is : List Controller.Input} {c : Controller Text}
    (hrun : Controller.Run (.new config rules) is c) {kind : PremintName}
    (hkind : kind ∈ config.premintNames) (source : PeerId) {message : Message Text}
    (htopic : message.topic = kind.msgTopic ∨ message.topic = kind.claimsTopic) :
    (∀ c', Handles c source message c' → Confined kind c c')
      ↔ ∀ m, StaysOnTopic kind c m source message := by
  have hlisted : kind ∈ c.config.premintNames := by
    rw [(run_same hrun).2]
    exact hkind
  rcases htopic with htopic | htopic
  · have hevent : ∀ event, handleGossipsubEvent c.config.premintNames source message
          = .ok (.send event)
        ↔ ∃ p, PremintTypes.fromJson message.data = .ok p ∧ event = .premintReceived p :=
      fun _ => handleGossipsubEvent_on_msgTopic htopic
    refine ⟨fun h m => ⟨fun _ p hp => ?_, fun htopic' => ?_⟩, fun h c' hc' => ?_⟩
    · exact (confined_insert_iff hlisted).mp
        (h _ ⟨_, (hevent _).mpr ⟨p, hp, rfl⟩, .premintReceived m p⟩)
    · exact absurd (htopic.symm.trans htopic') (msgTopic_ne_claimsTopic kind)
    · obtain ⟨event, hsend, hhandle⟩ := hc'
      obtain ⟨p, hp, rfl⟩ := (hevent event).mp hsend
      cases hhandle with
      | premintReceived m p => exact (confined_insert_iff hlisted).mpr ((h m).premint htopic p hp)
  · have hevent : ∀ event, handleGossipsubEvent c.config.premintNames source message
          = .ok (.send event)
        ↔ ∃ claim, Codec.claimFromJson message.data = .ok claim
          ∧ event = .mintSeenOnchain ⟨claim, source⟩ :=
      fun _ => handleGossipsubEvent_on_claimsTopic hlisted htopic
    refine ⟨fun h m => ⟨fun htopic' => ?_, fun _ claim hclaim => ?_⟩, fun h c' hc' => ?_⟩
    · exact absurd (htopic'.symm.trans htopic) (msgTopic_ne_claimsTopic kind)
    · by_cases hacts : ActsOn c m ⟨claim, source⟩
      · have hmarked := h _ ⟨_, (hevent _).mpr ⟨claim, hclaim, rfl⟩,
          .mintSeenOnchain m _ (handleEventOnchainClaim_of_actsOn hacts)⟩
        exact ((confined_mark_iff hlisted).mp hmarked).imp_right .inr
      · exact .inr (.inl hacts)
    · obtain ⟨event, hsend, hhandle⟩ := hc'
      obtain ⟨claim, hclaim, rfl⟩ := (hevent event).mp hsend
      cases hhandle with
      | mintSeenOnchain m peerClaim hhandled =>
          rcases actsOn_of_handled hhandled with rfl | ⟨hacts, rfl⟩
          · exact confined_refl _ hlisted
          · refine (confined_mark_iff hlisted).mpr (((h m).claim htopic claim hclaim).imp_right ?_)
            exact fun h => h.resolve_left (not_not_intro hacts)

end Topics

/-! ## A simple premint on the V2 topic -/

section Example

open Sample

attribute [local instance] Sample.alloy Sample.libp2p Sample.unicode

/-- The only kind of the default configuration. -/
def v2Kind : PremintName := ⟨"zora_premint_v2"⟩

theorem v2Kind_listed : v2Kind ∈ Config.premintNames {} := by decide

/-- A premint of a kind that a node with the default configuration does not list. -/
def unlistedPremint : PremintTypes :=
  .simple { version := 1, chainId := 1, sender := 1, tokenId := 1, media := "ipfs://a" }

/-- A message on the V2 topic with this premint. -/
def onV2Topic (p : PremintTypes) : Message Wire := ⟨peerId "a", v2Kind.msgTopic, p.toJson⟩

/-- **It is stored.** -/
theorem unlisted_premint_stored : v2Kind ∈ Config.premintNames {}
    ∧ ¬ ∀ c', Handles (node {}) (peerId "a") (onV2Topic unlistedPremint) c' →
      Confined v2Kind (node {}) c' := by
  refine ⟨v2Kind_listed, fun h => ?_⟩
  have hadmits : Admits (node {}) offline unlistedPremint := by
    refine ⟨accepts_of_decide (by decide +kernel), ?_⟩
    rintro ⟨old, hold, _⟩
    cases hold
  have htopic : (onV2Topic unlistedPremint).topic = v2Kind.msgTopic := rfl
  have hconfined := h _ ⟨_, (handleGossipsubEvent_on_msgTopic htopic).mpr
    ⟨unlistedPremint, PremintTypes.fromJson_toJson _, rfl⟩, .premintReceived offline _⟩
  rcases (confined_insert_iff v2Kind_listed).mp hconfined with hkind | hnot
  · exact absurd hkind (by decide)
  · exact hnot hadmits

/-- A V2 premint is handled, and confined to it. -/
theorem listed_premint_confined :
    (∃ c', Handles (node {}) (peerId "a") (onV2Topic (.zoraV2 validPremint)) c')
      ∧ ∀ c', Handles (node {}) (peerId "a") (onV2Topic (.zoraV2 validPremint)) c' →
        Confined v2Kind (node {}) c' := by
  have hread : PremintTypes.fromJson (onV2Topic (.zoraV2 validPremint)).data
      = .ok (.zoraV2 validPremint) := PremintTypes.fromJson_toJson _
  constructor
  · exact ⟨_, _, (handleGossipsubEvent_on_msgTopic rfl).mpr ⟨_, hread, rfl⟩,
      .premintReceived offline _⟩
  · refine (message_confined_iff .nil v2Kind_listed (peerId "a") (.inl rfl)).mpr fun m =>
      ⟨fun _ p hp => .inl ?_, fun htopic => absurd htopic (msgTopic_ne_claimsTopic v2Kind)⟩
    rw [hread] at hp
    cases hp
    rfl

end Example

end Mintpool.Proof
