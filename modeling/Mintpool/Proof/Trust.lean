import Mintpool.Proof.Gossip
import Mintpool.Proof.Turns
import Mintpool.Sample

/-!
# Whose claims a trusting node acts on

A node in trust mode acts on a claim when `from_peer_id` is one of its trusted peers.
That identity is the claim's propagation source: the neighbour that passed it on. The
author, whose signature the message carries, is looked at nowhere. So a trusted peer
vouches for everything it forwards, and gossip forwards everything. What a node marks
is authored by a peer it trusts exactly when, each time a trusted neighbour passes it
a claim that matches a row, the author happens to be trusted too.
-/

namespace Mintpool.Proof

open Mintpool

section Trust

variable {Text : Type} [Codec Text] [Libp2p] [Alloy] [Unicode] [DecidableEq Text]

/-- The claim was authored by a peer that the node trusts. -/
def Authorised (w : World Text) (mark : GossipMark) : Prop :=
  mark.author ∈ (w.peers mark.node).controller.config.trustedPeers

/-- So was every claim that made a trusting node change its table. -/
def AllAuthorised (w : World Text) : Prop := ∀ mark ∈ w.marks, Authorised w mark

/-- If a trusting node is about to act on a claim from a trusted neighbour, and a row of
its table is there to be changed, then it trusts the claim's author as well. -/
def AuthorTrusted (w : World Text) : World.Input Text → Prop
  | .takeEvent n => ∀ taken rest peerClaim, (w.peers n).events = taken :: rest →
      taken.event = .mintSeenOnchain peerClaim →
      (w.peers n).controller.config.chainInclusionMode = .trust →
      peerClaim.fromPeerId ∈ (w.peers n).controller.config.trustedPeers →
      (∃ r ∈ (w.peers n).controller.store.table.rows,
        Marks (w.peers n).controller.store peerClaim.claim r) →
        taken.author ∈ (w.peers n).controller.config.trustedPeers
  | _ => True

/-! ## One step -/

omit [Codec Text] [Libp2p] [Alloy] [Unicode] [DecidableEq Text] in
theorem setPeer_self (w : World Text) (n : PeerId) (p : Peer Text) : w.setPeer n p n = p :=
  if_pos rfl

omit [Codec Text] [Libp2p] [Alloy] [Unicode] [DecidableEq Text] in
theorem setPeer_ne (w : World Text) {n i : PeerId} (p : Peer Text) (h : i ≠ n) :
    w.setPeer n p i = w.peers i :=
  if_neg h

omit [Codec Text] [Libp2p] [Alloy] [Unicode] [DecidableEq Text] in
theorem setPeer_config (w : World Text) (n : PeerId) (p : Peer Text)
    (h : p.controller.config = (w.peers n).controller.config) (i : PeerId) :
    (w.setPeer n p i).controller.config = (w.peers i).controller.config := by
  by_cases hi : i = n
  · rw [hi, setPeer_self, h]
  · rw [setPeer_ne w p hi]

/-- No step changes a configuration. -/
theorem config_step {w w' : World Text} {i : World.Input Text} (h : World.Step w i w')
    (n : PeerId) : (w'.peers n).controller.config = (w.peers n).controller.config := by
  cases h with
  | publish author topic data neighbours h =>
      exact setPeer_config w _ _ (congrArg Controller.config (publish_same h).2.1) n
  | arrive envelope neighbours hwire h =>
      exact setPeer_config w _ _ (congrArg Controller.config (receive_same h).2) n
  | expire n' ids =>
      exact setPeer_config w n' { w.peers n' with seen := (w.peers n').seen.expire ids } rfl n
  | takeEvent n' hnext h =>
      exact setPeer_config w n' _ (stepped_event h).config n
  | other n' input hinput h =>
      exact setPeer_config w n' _ (stepped_step h).config n

theorem config_run {w w' : World Text} {is : List (World.Input Text)} (h : World.Run w is w')
    (n : PeerId) : (w'.peers n).controller.config = (w.peers n).controller.config := by
  induction h with
  | nil => rfl
  | snoc _ hs ih => rw [config_step hs, ih]

theorem allAuthorised_append {w w' : World Text} {i : World.Input Text} {new : List GossipMark}
    (h : World.Step w i w') (hmarks : w'.marks = w.marks ++ new) :
    AllAuthorised w' ↔ AllAuthorised w ∧ ∀ mark ∈ new, Authorised w mark := by
  have hsame : ∀ mark, Authorised w' mark ↔ Authorised w mark := by
    intro mark
    rw [Authorised, config_step h]
    rfl
  unfold AllAuthorised
  simp only [hmarks, List.forall_mem_append, hsame]

omit [Unicode] [DecidableEq Text] in
/-- What a trusting node does with a claim: mark it, if the neighbour is trusted. -/
theorem handleEvent_of_trust {c c' : Controller Text} {peerClaim : PeerInclusionClaim}
    (h : Controller.HandleEvent c (.mintSeenOnchain peerClaim) (.ret c'))
    (hmode : c.config.chainInclusionMode = .trust) :
    c'.store = if peerClaim.fromPeerId ∈ c.config.trustedPeers then
      c.store.markSeenOnChain peerClaim.claim else c.store := by
  cases h with
  | mintSeenOnchain m _ h =>
      rw [handleEventOnchainClaim_of_trust m peerClaim hmode] at h
      cases h
      simp only [List.contains_iff_mem]
      split <;> rfl

omit [Unicode] [DecidableEq Text] in
/-- **So its table changes exactly when the neighbour is trusted and a row matches.** -/
theorem table_ne_iff_of_trust {c c' : Controller Text} {peerClaim : PeerInclusionClaim}
    (h : Controller.HandleEvent c (.mintSeenOnchain peerClaim) (.ret c'))
    (hmode : c.config.chainInclusionMode = .trust) :
    c'.store.table ≠ c.store.table ↔ peerClaim.fromPeerId ∈ c.config.trustedPeers
      ∧ ∃ r ∈ c.store.table.rows, Marks c.store peerClaim.claim r := by
  rw [handleEvent_of_trust h hmode]
  split
  · rename_i htrusted
    rw [mark_table_ne_iff]
    exact ⟨fun h => ⟨htrusted, h⟩, fun h => h.2⟩
  · rename_i htrusted
    exact ⟨fun h => absurd rfl h, fun h => absurd h.1 htrusted⟩

omit [Codec Text] [Libp2p] [Alloy] [Unicode] in
theorem mem_gossipMark {n : PeerId} {before after : Controller Text} {taken : SwarmEvent}
    {mark : GossipMark} :
    mark ∈ World.gossipMark n before after taken
      ↔ ∃ peerClaim, taken.event = .mintSeenOnchain peerClaim
        ∧ before.config.chainInclusionMode = .trust ∧ after.store.table ≠ before.store.table
        ∧ mark = ⟨n, peerClaim.claim, taken.author⟩ := by
  unfold World.gossipMark
  split
  · rename_i peerClaim hevent
    simp only [hevent, P2PEvent.mintSeenOnchain.injEq, exists_eq_left']
    split
    · rename_i h; simp [h]
    · rename_i h
      refine ⟨fun hm => by simp at hm, fun ⟨h1, h2, _⟩ => absurd ⟨h1, h2⟩ h⟩
  · rename_i hevent
    refine ⟨fun hm => by simp at hm, fun ⟨peerClaim, h, _⟩ => ?_⟩
    exact absurd h (hevent peerClaim)

/-- **A step keeps all marks authorised exactly when it trusts the author.** -/
theorem allAuthorised_step {w : World Text} {i : World.Input Text} {w' : World Text}
    (h : World.Step w i w') : AllAuthorised w' ↔ AllAuthorised w ∧ AuthorTrusted w i := by
  have hsame : w'.marks = w.marks → AuthorTrusted w i →
      (AllAuthorised w' ↔ AllAuthorised w ∧ AuthorTrusted w i) := by
    intro hmarks htrue
    rw [allAuthorised_append h (hmarks.trans (List.append_nil _).symm)]
    exact ⟨fun h => ⟨h.1, htrue⟩, fun h => ⟨h.1, by simp⟩⟩
  cases h with
  | publish author topic data neighbours h => exact hsame rfl trivial
  | arrive envelope neighbours hwire h => exact hsame rfl trivial
  | expire n ids => exact hsame rfl trivial
  | other n input hinput h => exact hsame rfl trivial
  | takeEvent n hnext hev =>
      rename_i taken rest c
      rw [allAuthorised_append (.takeEvent n hnext hev) rfl]
      refine and_congr_right fun _ => ⟨fun hall => ?_, fun htrusted mark hmark => ?_⟩
      · intro taken' rest' peerClaim hnext' hevent hmode hfrom hrow
        rw [hnext] at hnext'
        obtain ⟨rfl, rfl⟩ := List.cons.inj hnext'
        rw [hevent] at hev
        have hne := (table_ne_iff_of_trust hev hmode).mpr ⟨hfrom, hrow⟩
        exact hall _ (mem_gossipMark.mpr ⟨peerClaim, hevent, hmode, hne, rfl⟩)
      · obtain ⟨peerClaim, hevent, hmode, hne, rfl⟩ := mem_gossipMark.mp hmark
        rw [hevent] at hev
        obtain ⟨hfrom, hrow⟩ := (table_ne_iff_of_trust hev hmode).mp hne
        exact htrusted taken rest peerClaim hnext hevent hmode hfrom hrow

/--
**Marks are made on the word of trusted authors exactly when trusted neighbours pass
on trusted authors' claims.**

For every network, every configuration of its nodes and every order of events.
-/
theorem allAuthorised_iff {config : PeerId → Config} {rules : PeerId → RulesEngine Text}
    {is : List (World.Input Text)} {w : World Text}
    (h : World.Run (.new config rules) is w) :
    AllAuthorised w
      ↔ Lib.Run (fun w i w' => World.Step w i w' ∧ AuthorTrusted w i) (.new config rules) is w := by
  have hnew : AllAuthorised (.new config rules : World Text) := by
    intro mark hmark
    cases hmark
  exact Lib.Run.iff_restrict hnew (fun _ _ _ hs => allAuthorised_step hs) h

end Trust

/-! ## A claim relayed by a trusted neighbour -/

section Example

open Sample

attribute [local instance] Sample.alloy Sample.libp2p Sample.unicode

/-- Node `n` trusts these peers; `a` and `f` are ordinary nodes. -/
def relayConfig (trusted : String) (n : PeerId) : Config :=
  if n = peerId "n" then { chainInclusionMode := .trust, trustedPeerList := some trusted } else {}

def relayWorld (trusted : String) : World Wire := .new (relayConfig trusted) (fun _ => offlineRules)

def relayedClaim : InclusionClaim :=
  ⟨(PremintTypes.zoraV2 validPremint).metadata.id, 7777777, 5, 0, "zora_premint_v2"⟩

def relayedMessage : Message Wire := broadcastClaim (peerId "a") relayedClaim

/-- `n` stores a premint, `a` claims it is minted, `f` forwards the claim, `n` handles it. -/
def relayInputs : List (World.Input Wire) := [
  .other (peerId "n") (.command (.broadcast (.zoraV2 validPremint))),
  .publish (peerId "a") relayedMessage.topic relayedMessage.data [peerId "f"],
  .arrive ⟨peerId "a", peerId "f", relayedMessage⟩ [peerId "n"],
  .arrive ⟨peerId "f", peerId "n", relayedMessage⟩ [],
  .takeEvent (peerId "n")]

/-- The store of `n` with the premint. -/
def relayStore : PremintStorage Wire :=
  (validateAndInsert offlineRules offline (.new true) (.zoraV2 validPremint)).2

def relayNode (trusted : String) : Controller Wire :=
  { node (relayConfig trusted (peerId "n")) with
    store := relayStore
    swarmCommands := [.broadcast (.zoraV2 validPremint)] }

theorem relayNode_step (trusted : String) :
    Controller.Step (node (relayConfig trusted (peerId "n")))
      (.command (.broadcast (.zoraV2 validPremint))) (relayNode trusted) := by
  have hok : (validateAndInsert offlineRules offline (.new true)
      (.zoraV2 validPremint)).1.toBool = true := by decide +kernel
  have hcommand : (node (relayConfig trusted (peerId "n"))).handleCommand offline
      (.broadcast (.zoraV2 validPremint))
        = .ret (.broadcast (.ok ()), .ok (), relayNode trusted) := by
    unfold Controller.handleCommand Controller.validateAndInsert
    cases hins : validateAndInsert offlineRules offline (.new true) (.zoraV2 validPremint) with
    | mk result s =>
        have hstore : relayStore = s := congrArg Prod.snd hins
        rw [hins] at hok
        have hins' : validateAndInsert (node (relayConfig trusted (peerId "n"))).rules offline
            (node (relayConfig trusted (peerId "n"))).store (.zoraV2 validPremint) = (result, s) :=
          hins
        dsimp only
        rw [hins']
        cases result with
        | error e => cases hok
        | ok evaluation => rw [relayNode, hstore]; rfl
  exact .command offline hcommand

/-- `n` as a peer that has received nothing yet. -/
def relayPeer (trusted : String) : Peer Wire where
  peerId := peerId "n"
  controller := relayNode trusted

theorem relayNode_marks (trusted : String) :
    ∃ r ∈ (relayNode trusted).store.table.rows,
      Marks (relayNode trusted).store relayedClaim r := by
  have hrows : relayStore.table.rows = [PremintStorage.newRow 0 (.zoraV2 validPremint)] := by
    decide +kernel
  have hprune : relayStore.pruneMintedPremints = true := by decide +kernel
  dsimp only [relayNode]
  rw [hrows]
  exact ⟨_, List.mem_cons_self, by decide +kernel, .inl hprune⟩

/-- `n` after it has acted on the claim. -/
def relayMarked (trusted : String) : Controller Wire :=
  { relayNode trusted with store := (relayNode trusted).store.markSeenOnChain relayedClaim }

theorem relayPeer_receives (trusted : String) :
    ∃ p, (relayPeer trusted).receive (peerId "f") relayedMessage = some p
      ∧ p.controller = relayNode trusted
      ∧ p.events = [⟨.mintSeenOnchain ⟨relayedClaim, peerId "f"⟩, peerId "a"⟩] := by
  have hnames : (relayPeer trusted).premintNames = [⟨"zora_premint_v2"⟩] := by
    unfold Peer.premintNames
    exact (show Config.premintNames {} = _ by decide)
  refine receive_claim _ _ (List.not_mem_nil) ?_
  rw [hnames]
  decide

theorem relayNode_handles (trusted : String)
    (htrusted : peerId "f" ∈ (relayConfig trusted (peerId "n")).trustedPeers) :
    Controller.HandleEvent (relayNode trusted) (.mintSeenOnchain ⟨relayedClaim, peerId "f"⟩)
      (.ret (relayMarked trusted)) := by
  have hcontains : (relayNode trusted).config.trustedPeers.contains (peerId "f") = true :=
    List.contains_iff_mem.mpr htrusted
  have hhandle : (relayNode trusted).handleEventOnchainClaim offline ⟨relayedClaim, peerId "f"⟩
      = .ret (.ok (), relayMarked trusted) := by
    rw [relayMarked, handleEventOnchainClaim_of_trust _ _ rfl, if_pos hcontains]
  exact .mintSeenOnchain offline _ hhandle

theorem relayMarked_gossipMark (trusted : String) :
    World.gossipMark (peerId "n") (relayNode trusted) (relayMarked trusted)
      ⟨.mintSeenOnchain ⟨relayedClaim, peerId "f"⟩, peerId "a"⟩
        = [⟨peerId "n", relayedClaim, peerId "a"⟩] := by
  have hne : ((relayNode trusted).store.markSeenOnChain relayedClaim).table
      ≠ (relayNode trusted).store.table := mark_table_ne_iff.mpr (relayNode_marks trusted)
  have hmode : (relayNode trusted).config.chainInclusionMode = .trust := rfl
  unfold World.gossipMark relayMarked
  dsimp only
  rw [if_pos ⟨hmode, hne⟩]

/-- **The run, and the mark it leaves.** -/
theorem relay_run (trusted : String)
    (htrusted : peerId "f" ∈ (relayConfig trusted (peerId "n")).trustedPeers) :
    ∃ w, World.Run (relayWorld trusted) relayInputs w
      ∧ w.marks = [⟨peerId "n", relayedClaim, peerId "a"⟩] := by
  -- `n` stores the premint
  obtain ⟨w₁, h1, hn1, hother1, hmarks1⟩ : ∃ w₁, World.Step (relayWorld trusted)
      (.other (peerId "n") (.command (.broadcast (.zoraV2 validPremint)))) w₁
      ∧ w₁.peers (peerId "n") = relayPeer trusted
      ∧ (∀ i, i ≠ peerId "n" → w₁.peers i = (relayWorld trusted).peers i) ∧ w₁.marks = [] := by
    refine ⟨_, .other _ _ rfl (relayNode_step trusted), ?_, fun i hi => if_neg hi, rfl⟩
    dsimp only
    exact setPeer_self _ _ _
  -- `a` publishes the claim to `f`
  obtain ⟨w₂, h2, hother2, hwire2, hmarks2⟩ : ∃ w₂, World.Step w₁
      (.publish (peerId "a") relayedMessage.topic relayedMessage.data [peerId "f"]) w₂
      ∧ (∀ i, i ≠ peerId "a" → w₂.peers i = w₁.peers i)
      ∧ ⟨peerId "a", peerId "f", relayedMessage⟩ ∈ w₂.wire ∧ w₂.marks = w₁.marks := by
    have hinsert : (w₁.peers (peerId "a")).seen.insert (gossipsubMessageId relayedMessage)
        = some [gossipsubMessageId relayedMessage] := by
      rw [hother1 _ (by decide)]
      rfl
    exact ⟨_, .publish _ _ _ _ (congrArg _ hinsert), fun i hi => if_neg hi,
      List.mem_append_right _ List.mem_cons_self, rfl⟩
  -- `f` passes it on to `n`
  obtain ⟨w₃, h3, hother3, hwire3, hmarks3⟩ : ∃ w₃, World.Step w₂
      (.arrive ⟨peerId "a", peerId "f", relayedMessage⟩ [peerId "n"]) w₃
      ∧ (∀ i, i ≠ peerId "f" → w₃.peers i = w₂.peers i)
      ∧ ⟨peerId "f", peerId "n", relayedMessage⟩ ∈ w₃.wire ∧ w₃.marks = w₂.marks := by
    have hinsert : (w₂.peers (peerId "f")).seen.insert (gossipsubMessageId relayedMessage)
        = some [gossipsubMessageId relayedMessage] := by
      rw [hother2 _ (by decide), hother1 _ (by decide)]
      rfl
    exact ⟨_, .arrive _ _ hwire2 (congrArg _ hinsert), fun i hi => if_neg hi,
      List.mem_append_right _ List.mem_cons_self, rfl⟩
  have hn3 : w₃.peers (peerId "n") = relayPeer trusted := by
    rw [hother3 _ (by decide), hother2 _ (by decide), hn1]
  -- `n` receives it
  obtain ⟨p, hreceive, hcontroller, hevents⟩ := relayPeer_receives trusted
  rw [← hn3] at hreceive
  obtain ⟨w₄, h4, hn4, hmarks4⟩ : ∃ w₄, World.Step w₃
      (.arrive ⟨peerId "f", peerId "n", relayedMessage⟩ []) w₄
      ∧ w₄.peers (peerId "n") = p ∧ w₄.marks = w₃.marks := by
    refine ⟨_, .arrive _ _ hwire3 hreceive, ?_, rfl⟩
    dsimp only
    exact setPeer_self _ _ _
  -- and acts on it
  have hcontroller4 : (w₄.peers (peerId "n")).controller = relayNode trusted := by
    rw [hn4, hcontroller]
  have hevent : Controller.HandleEvent (w₄.peers (peerId "n")).controller
      (.mintSeenOnchain ⟨relayedClaim, peerId "f"⟩) (.ret (relayMarked trusted)) := by
    rw [hcontroller4]
    exact relayNode_handles trusted htrusted
  refine ⟨_, .snoc (.snoc (.snoc (.snoc (.snoc .nil h1) h2) h3) h4)
    (.takeEvent _ (by rw [hn4, hevents]) hevent), ?_⟩
  dsimp only
  rw [hmarks4, hmarks3, hmarks2, hmarks1, hcontroller4, relayMarked_gossipMark]
  rfl

/-- **`n` trusts `f` and acts on what `a` says.** -/
theorem relayed_claim_unauthorised :
    ∃ w, World.Run (relayWorld "f") relayInputs w ∧ ¬ AllAuthorised w := by
  obtain ⟨w, hrun, hmarks⟩ := relay_run "f" (by decide)
  refine ⟨w, hrun, fun h => ?_⟩
  have hauth := h _ (by rw [hmarks]; exact List.mem_cons_self)
  rw [Authorised, config_run hrun] at hauth
  exact absurd hauth (by decide)

/-- Where `n` trusts `a` too, every step of the same run is in order. -/
theorem relayed_claim_authorised :
    ∃ w, Lib.Run (fun w i w' => World.Step w i w' ∧ AuthorTrusted w i) (relayWorld "f,a")
      relayInputs w := by
  obtain ⟨w, hrun, hmarks⟩ := relay_run "f,a" (by decide)
  refine ⟨w, (allAuthorised_iff hrun).mp fun mark hmark => ?_⟩
  rw [hmarks, List.mem_singleton] at hmark
  subst hmark
  rw [Authorised, config_run hrun]
  decide

end Example

end Mintpool.Proof
