import Mintpool.Network
import Mintpool.Sample

/-!
# Claims and the seen-message cache

A gossip message with an id that a peer has seen lately goes no further there, so an
id should name one message. `gossipsub_message_id` takes a premint's id for the
message's, and to find it parses every message off the announcement topic as a
premint. A claim is not one. All claims therefore share the id that was meant for
spam, and two of them never pass the same cache unless it has forgotten that id in
between.
-/

namespace Mintpool.Proof

open Mintpool

section Link

variable {Text : Type} [Codec Text] [Libp2p] [Unicode]

/-! ## The id of a claim -/

omit [Codec Text] [Libp2p] in
theorem claimsTopic_ne_announceTopic (name : PremintName) : name.claimsTopic ≠ announceTopic := by
  intro h
  have hlist : ("chain::claims::" ++ name.debug).toList = announceTopic.toList :=
    congrArg String.toList h
  rw [String.toList_append] at hlist
  have hhead := congrArg List.head? hlist
  have hclaims : "chain::claims::".toList = 'c' :: "hain::claims::".toList := rfl
  rw [hclaims, List.cons_append] at hhead
  have hannounce : announceTopic.toList.head? = some 'm' := rfl
  rw [hannounce] at hhead
  exact absurd (Option.some.inj hhead) (by decide)

/-- **All claims have one id.** -/
theorem gossipsubMessageId_claim [LawfulCodec Text] (author : PeerId) (claim : InclusionClaim) :
    gossipsubMessageId (broadcastClaim author claim : Message Text) = "likely_spam" := by
  have htopic : (broadcastClaim author claim : Message Text).topic ≠ announceTopic :=
    claimsTopic_ne_announceTopic _
  unfold gossipsubMessageId
  rw [if_neg htopic]
  obtain ⟨e, he⟩ : ∃ e, PremintTypes.fromJson (Codec.claimToJson claim : Text) = .error e :=
    PremintTypes.fromJson_claim claim
  simp only [broadcastClaim, he]

omit [Libp2p] in
/-- And yet no two claims are one message. -/
theorem broadcastClaim_inj [LawfulCodec Text] {author : PeerId} {c c' : InclusionClaim}
    (h : (broadcastClaim author c : Message Text) = broadcastClaim author c') : c = c' := by
  have hdata : (Codec.claimToJson c : Text) = Codec.claimToJson c' := congrArg Message.data h
  have hparse := congrArg Codec.claimFromJson hdata
  rw [LawfulCodec.claim_roundtrip, LawfulCodec.claim_roundtrip] at hparse
  exact Except.ok.inj hparse

/-- A claim on a topic of the node becomes an event, under its propagation source. -/
theorem handleGossipsubEvent_claim [LawfulCodec Text] {names : List PremintName}
    (source author : PeerId) {c : InclusionClaim}
    (hname : (PremintName.mk c.kind).claimsTopic ∈ claimsTopicHashes names) :
    handleGossipsubEvent names source (broadcastClaim author c : Message Text)
      = .ok (.send (.mintSeenOnchain ⟨c, source⟩)) := by
  have htopic : (broadcastClaim author c : Message Text).topic ≠ announceTopic :=
    claimsTopic_ne_announceTopic _
  have hclaims : (claimsTopicHashes names).contains (broadcastClaim author c : Message Text).topic
      = true := List.contains_iff_mem.mpr hname
  have hparse : Codec.claimFromJson (broadcastClaim author c : Message Text).data = .ok c :=
    LawfulCodec.claim_roundtrip c
  unfold handleGossipsubEvent
  rw [if_neg htopic, if_pos hclaims, hparse]

/-! ## One step of a link -/

/-- The claims an input list publishes, in order. -/
def claimsOf : List LinkInput → List InclusionClaim
  | [] => []
  | .broadcastClaim c :: inputs => c :: claimsOf inputs
  | .expire _ _ :: inputs => claimsOf inputs

/-- The peer is subscribed to the topic the claim is published on. -/
def Subscribed (p : Peer Text) (c : InclusionClaim) : Prop :=
  (PremintName.mk c.kind).claimsTopic ∈ subscriptions p.premintNames

instance (p : Peer Text) (c : InclusionClaim) : Decidable (Subscribed p c) :=
  inferInstanceAs (Decidable (_ ∈ _))

/-- Neither cache remembers the id that all claims share. -/
def Unseen (l : Link Text) : Prop :=
  "likely_spam" ∉ l.publisher.seen ∧ "likely_spam" ∉ l.subscriber.seen

instance (l : Link Text) : Decidable (Unseen l) := inferInstanceAs (Decidable (_ ∧ _))

omit [Codec Text] [Libp2p] [Unicode] in
theorem insert_of_mem {cache : SeenCache} {id : String} (h : id ∈ cache) :
    cache.insert id = none := by
  unfold SeenCache.insert
  rw [if_pos (List.contains_iff_mem.mpr h)]

omit [Codec Text] [Libp2p] [Unicode] in
theorem insert_of_not_mem {cache : SeenCache} {id : String} (h : id ∉ cache) :
    cache.insert id = some (id :: cache) := by
  unfold SeenCache.insert
  rw [if_neg (fun hc => h (List.contains_iff_mem.mp hc))]

theorem handle_spec (p : Peer Text) (source : PeerId) (message : Message Text) :
    (p.handle source message).handled = p.handled ++ [message]
      ∧ (p.handle source message).seen = p.seen
      ∧ (p.handle source message).peerId = p.peerId
      ∧ (p.handle source message).controller = p.controller := by
  unfold Peer.handle
  split <;> exact ⟨rfl, rfl, rfl, rfl⟩

theorem handle_events {p : Peer Text} {source : PeerId} {message : Message Text}
    {event : P2PEvent}
    (h : handleGossipsubEvent p.premintNames source message = .ok (.send event)) :
    (p.handle source message).events = p.events ++ [⟨event, message.source⟩] := by
  unfold Peer.handle
  rw [h]

omit [Unicode] in
theorem publish_same {p p' : Peer Text} {message : Message Text}
    (h : p.publish message = some p') :
    p'.peerId = p.peerId ∧ p'.controller = p.controller ∧ p'.events = p.events := by
  obtain ⟨seen, _, rfl⟩ := Option.map_eq_some_iff.mp h
  exact ⟨rfl, rfl, rfl⟩

theorem receive_same {p p' : Peer Text} {source : PeerId} {message : Message Text}
    (h : p.receive source message = some p') :
    p'.peerId = p.peerId ∧ p'.controller = p.controller := by
  obtain ⟨seen, _, rfl⟩ := Option.map_eq_some_iff.mp h
  split
  · exact (handle_spec _ _ _).2.2
  · exact ⟨rfl, rfl⟩

theorem receive_handled {p p' : Peer Text} {source : PeerId} {message m : Message Text}
    (h : p.receive source message = some p') (hm : m ∈ p.handled) : m ∈ p'.handled := by
  obtain ⟨seen, _, rfl⟩ := Option.map_eq_some_iff.mp h
  split
  · rw [(handle_spec _ _ _).1]; exact List.mem_append_left _ hm
  · exact hm

omit [Codec Text] [Libp2p] in
theorem claimsTopic_mem_subscriptions {names : List PremintName} {topic : String}
    (h : topic ∈ claimsTopicHashes names) : topic ∈ subscriptions names := by
  obtain ⟨name, hname, rfl⟩ := List.mem_map.mp h
  refine List.mem_cons_of_mem _ (List.mem_flatMap.mpr ⟨name, hname, ?_⟩)
  exact List.mem_cons_of_mem _ List.mem_cons_self

/-- A claim that a subscriber has not seen goes on to its controller. -/
theorem receive_claim [LawfulCodec Text] {p : Peer Text} (source author : PeerId)
    {c : InclusionClaim} (hunseen : "likely_spam" ∉ p.seen)
    (hname : (PremintName.mk c.kind).claimsTopic ∈ claimsTopicHashes p.premintNames) :
    ∃ p', p.receive source (broadcastClaim author c) = some p' ∧ p'.controller = p.controller
      ∧ p'.events = p.events ++ [⟨.mintSeenOnchain ⟨c, source⟩, author⟩] := by
  -- the id is new, and the topic is subscribed to
  have hinsert : p.seen.insert (gossipsubMessageId (broadcastClaim author c : Message Text))
      = some ("likely_spam" :: p.seen) := by
    rw [gossipsubMessageId_claim, insert_of_not_mem hunseen]
  have hsub : (subscriptions p.premintNames).contains
      (broadcastClaim author c : Message Text).topic = true :=
    List.contains_iff_mem.mpr (claimsTopic_mem_subscriptions hname)
  refine ⟨({ p with seen := "likely_spam" :: p.seen } : Peer Text).handle source
    (broadcastClaim author c), ?_, (handle_spec _ _ _).2.2.2, ?_⟩
  · unfold Peer.receive
    rw [hinsert, Option.map_some, if_pos hsub]
  · exact handle_events (handleGossipsubEvent_claim source author hname)

/-- **A claim that neither cache remembers is handled.** -/
theorem step_of_unseen [LawfulCodec Text] {l : Link Text} {c : InclusionClaim} (h : Unseen l)
    (hsub : Subscribed l.subscriber c) :
    (l.step (.broadcastClaim c)).subscriber.handled
      = l.subscriber.handled ++ [broadcastClaim l.publisher.peerId c] := by
  have hid : gossipsubMessageId (broadcastClaim l.publisher.peerId c : Message Text)
      = "likely_spam" := gossipsubMessageId_claim _ c
  simp only [Link.step, Peer.publish, Peer.receive, hid, insert_of_not_mem h.1,
    insert_of_not_mem h.2, Option.map_some, Option.getD_some]
  have htopic : (subscriptions l.subscriber.premintNames).contains
      (broadcastClaim l.publisher.peerId c : Message Text).topic = true :=
    List.contains_iff_mem.mpr hsub
  rw [if_pos htopic]
  exact (handle_spec _ _ _).1

/-- And its publisher remembers it from then on. -/
theorem not_unseen_step [LawfulCodec Text] {l : Link Text} {c : InclusionClaim} (h : Unseen l) :
    ¬ Unseen (l.step (.broadcastClaim c)) := by
  have hid : gossipsubMessageId (broadcastClaim l.publisher.peerId c : Message Text)
      = "likely_spam" := gossipsubMessageId_claim _ c
  intro hun
  refine hun.1 ?_
  simp only [Link.step, Peer.publish, hid, insert_of_not_mem h.1, Option.map_some]
  exact List.mem_cons_self

/-- **One that either remembers is not.** -/
theorem step_of_seen [LawfulCodec Text] {l : Link Text} (c : InclusionClaim) (h : ¬ Unseen l) :
    (l.step (.broadcastClaim c)).subscriber.handled = l.subscriber.handled := by
  have hid : gossipsubMessageId (broadcastClaim l.publisher.peerId c : Message Text)
      = "likely_spam" := gossipsubMessageId_claim _ c
  by_cases hpub : "likely_spam" ∈ l.publisher.seen
  · simp only [Link.step, Peer.publish, hid, insert_of_mem hpub, Option.map_none]
  · have hsub : "likely_spam" ∈ l.subscriber.seen := by
      by_contra hsub
      exact h ⟨hpub, hsub⟩
    simp only [Link.step, Peer.publish, Peer.receive, hid, insert_of_not_mem hpub,
      insert_of_mem hsub, Option.map_some, Option.map_none, Option.getD_none]

/-- **Everything publishing a claim can do to a link.** -/
theorem step_broadcast_cases (l : Link Text) (c : InclusionClaim) :
    l.step (.broadcastClaim c) = l
      ∨ ∃ publisher, l.publisher.publish (broadcastClaim l.publisher.peerId c) = some publisher
        ∧ (l.step (.broadcastClaim c) = ⟨publisher, l.subscriber⟩
          ∨ ∃ subscriber, l.subscriber.receive publisher.peerId
                (broadcastClaim l.publisher.peerId c) = some subscriber
              ∧ l.step (.broadcastClaim c) = ⟨publisher, subscriber⟩) := by
  unfold Link.step
  dsimp only
  cases hpub : l.publisher.publish (broadcastClaim l.publisher.peerId c) with
  | none => exact .inl rfl
  | some publisher =>
      refine .inr ⟨publisher, rfl, ?_⟩
      dsimp only
      cases hrec : l.subscriber.receive publisher.peerId
          (broadcastClaim l.publisher.peerId c) with
      | none => exact .inl rfl
      | some subscriber => exact .inr ⟨subscriber, rfl, rfl⟩

/-- Who the two peers are, and what they subscribe to, never changes. -/
theorem step_same (l : Link Text) (i : LinkInput) :
    (l.step i).publisher.peerId = l.publisher.peerId
      ∧ (l.step i).subscriber.premintNames = l.subscriber.premintNames := by
  cases i with
  | expire publisherIds subscriberIds => exact ⟨rfl, rfl⟩
  | broadcastClaim c =>
      rcases step_broadcast_cases l c with h | ⟨publisher, hpub, h | ⟨subscriber, hrec, h⟩⟩
      · rw [h]; exact ⟨rfl, rfl⟩
      · rw [h]; exact ⟨(publish_same hpub).1, rfl⟩
      · rw [h]
        refine ⟨(publish_same hpub).1, ?_⟩
        rw [Peer.premintNames, (receive_same hrec).2]
        rfl

/-! ## A whole run -/

/-- What a step of the run must meet: a claim is published when neither cache has its id. -/
def ClaimUnseen (l : Link Text) : LinkInput → Prop
  | .broadcastClaim _ => Unseen l
  | .expire _ _ => True

/-- The subscriber of a link stays subscribed to the claims still to come. -/
theorem subscribed_step {l : Link Text} {c : InclusionClaim} {inputs : List LinkInput}
    (h : ∀ c' ∈ claimsOf (.broadcastClaim c :: inputs), Subscribed l.subscriber c') :
    ∀ c' ∈ claimsOf inputs, Subscribed (l.step (.broadcastClaim c)).subscriber c' := by
  intro c' hc'
  rw [Subscribed, (step_same l (.broadcastClaim c)).2]
  exact h c' (List.mem_cons_of_mem _ hc')

/-- A run hands over claims it publishes, and nothing else. -/
theorem handled_of_run [LawfulCodec Text] : ∀ (inputs : List LinkInput) (l : Link Text)
    (message : Message Text), (∀ c ∈ claimsOf inputs, Subscribed l.subscriber c) →
    message ∈ (inputs.foldl Link.step l).subscriber.handled →
      message ∈ l.subscriber.handled
        ∨ ∃ c ∈ claimsOf inputs, message = broadcastClaim l.publisher.peerId c := by
  intro inputs
  induction inputs with
  | nil => intro l message _ h; exact .inl h
  | cons i inputs ih =>
      intro l message hsub h
      have hpeer := (step_same l i).1
      cases i with
      | expire publisherIds subscriberIds =>
          exact ih (l.step (.expire publisherIds subscriberIds)) message hsub h
      | broadcastClaim c =>
          rcases ih _ message (subscribed_step hsub) h with hold | ⟨c', hc', rfl⟩
          · -- handled before the rest of the run: before this step, or by it
            by_cases hun : Unseen l
            · rw [step_of_unseen hun (hsub c List.mem_cons_self)] at hold
              rcases List.mem_append.mp hold with hold | hnew
              · exact .inl hold
              · exact .inr ⟨c, List.mem_cons_self, List.mem_singleton.mp hnew⟩
            · rw [step_of_seen c hun] at hold
              exact .inl hold
          · exact .inr ⟨c', List.mem_cons_of_mem _ hc', by rw [hpeer]⟩

/-- What a run has handed over stays handed over. -/
theorem handled_mono : ∀ (inputs : List LinkInput) (l : Link Text) {message : Message Text},
    message ∈ l.subscriber.handled →
      message ∈ (inputs.foldl Link.step l).subscriber.handled := by
  intro inputs
  induction inputs with
  | nil => intro l message h; exact h
  | cons i inputs ih =>
      intro l message h
      refine ih _ ?_
      cases i with
      | expire publisherIds subscriberIds => exact h
      | broadcastClaim c =>
          rcases step_broadcast_cases l c with h' | ⟨publisher, _, h' | ⟨subscriber, hrec, h'⟩⟩
          · rw [h']; exact h
          · rw [h']; exact h
          · rw [h']; exact receive_handled hrec h

/-- Every claim the inputs publish has reached `handle_gossipsub_event`. -/
def AllReach (l : Link Text) (inputs : List LinkInput) : Prop :=
  ∀ c ∈ claimsOf inputs, broadcastClaim l.publisher.peerId c
    ∈ (inputs.foldl Link.step l).subscriber.handled

/-- No claim still to come has been handled yet. -/
def ClaimsFresh (l : Link Text) (inputs : List LinkInput) : Prop :=
  ∀ c ∈ claimsOf inputs, broadcastClaim l.publisher.peerId c ∉ l.subscriber.handled

theorem claimsFresh_step [LawfulCodec Text] {l : Link Text} {c : InclusionClaim}
    {inputs : List LinkInput} (hun : Unseen l) (hsub : Subscribed l.subscriber c)
    (hc : c ∉ claimsOf inputs) (h : ClaimsFresh l (.broadcastClaim c :: inputs)) :
    ClaimsFresh (l.step (.broadcastClaim c)) inputs := by
  intro c' hc' hmem
  rw [(step_same l (.broadcastClaim c)).1, step_of_unseen hun hsub] at hmem
  rcases List.mem_append.mp hmem with hold | hnew
  · exact h c' (List.mem_cons_of_mem _ hc') hold
  · rw [broadcastClaim_inj (List.mem_singleton.mp hnew)] at hc'
    exact hc hc'

/-- A claim that no cache remembers is handled, so what is left to reach is the rest. -/
theorem allReach_cons_of_unseen [LawfulCodec Text] {l : Link Text} {c : InclusionClaim}
    {inputs : List LinkInput} (hun : Unseen l) (hsub : Subscribed l.subscriber c) :
    AllReach l (.broadcastClaim c :: inputs) ↔ AllReach (l.step (.broadcastClaim c)) inputs := by
  have hpeer := (step_same l (.broadcastClaim c)).1
  constructor
  · intro h c' hc'
    rw [hpeer]
    exact h c' (List.mem_cons_of_mem _ hc')
  · intro h c' hc'
    rcases List.mem_cons.mp hc' with rfl | hc'
    · -- this claim reaches the subscriber at once, and stays there
      refine handled_mono inputs _ ?_
      rw [step_of_unseen hun hsub]
      exact List.mem_append_right _ List.mem_cons_self
    · -- the others are as before
      have hreach := h c' hc'
      rw [hpeer] at hreach
      exact hreach

/-- A claim that a cache refuses is lost for good: the rest of the run publishes others. -/
theorem not_allReach_of_seen [LawfulCodec Text] {l : Link Text} {c : InclusionClaim}
    {inputs : List LinkInput} (hun : ¬ Unseen l)
    (hsub : ∀ c' ∈ claimsOf (.broadcastClaim c :: inputs), Subscribed l.subscriber c')
    (hc : c ∉ claimsOf inputs) (hfresh : ClaimsFresh l (.broadcastClaim c :: inputs)) :
    ¬ AllReach l (.broadcastClaim c :: inputs) := by
  intro h
  have hreach := h c List.mem_cons_self
  rcases handled_of_run inputs _ _ (subscribed_step hsub) hreach with hold | ⟨c', hc', heq⟩
  · rw [step_of_seen c hun] at hold
    exact hfresh c List.mem_cons_self hold
  · rw [(step_same l (.broadcastClaim c)).1] at heq
    rw [broadcastClaim_inj heq] at hc
    exact hc hc'

/--
**Different claims all reach a subscriber exactly when no cache remembers a claim.**

The induction carries that no claim still to come has been handled yet.
-/
theorem allReach_iff_of_fresh [LawfulCodec Text] : ∀ (inputs : List LinkInput) (l : Link Text),
    (∀ c ∈ claimsOf inputs, Subscribed l.subscriber c) → (claimsOf inputs).Nodup →
    ClaimsFresh l inputs → (AllReach l inputs ↔ Lib.EveryStep Link.step l ClaimUnseen inputs) := by
  intro inputs
  induction inputs with
  | nil =>
      intro l _ _ _
      exact ⟨fun _ => Lib.everyStep_nil, fun _ c hc => by cases hc⟩
  | cons i inputs ih =>
      intro l hsub hdiff hfresh
      rw [Lib.everyStep_cons_iff]
      cases i with
      | expire publisherIds subscriberIds =>
          rw [← ih (l.step (.expire publisherIds subscriberIds)) hsub hdiff hfresh]
          exact ⟨fun h => ⟨trivial, h⟩, fun h => h.2⟩
      | broadcastClaim c =>
          obtain ⟨hc, hdiff'⟩ := List.nodup_cons.mp hdiff
          have hsubc := hsub c List.mem_cons_self
          -- the first claim gets through if its id is not remembered, and then none after it does
          by_cases hun : Unseen l
          · rw [← ih _ (subscribed_step hsub) hdiff' (claimsFresh_step hun hsubc hc hfresh),
              allReach_cons_of_unseen hun hsubc]
            exact ⟨fun h => ⟨hun, h⟩, fun h => h.2⟩
          · exact iff_of_false (not_allReach_of_seen hun hsub hc hfresh) (fun h => hun h.1)

/-- **Which claims reach a subscriber.** -/
theorem allReach_iff [LawfulCodec Text] (l : Link Text) (inputs : List LinkInput)
    (hnew : l.subscriber.handled = [])
    (hsub : ∀ c ∈ claimsOf inputs, Subscribed l.subscriber c) (hdiff : (claimsOf inputs).Nodup) :
    AllReach l inputs ↔ Lib.EveryStep Link.step l ClaimUnseen inputs := by
  refine allReach_iff_of_fresh inputs l hsub hdiff (fun c _ hmem => ?_)
  rw [hnew] at hmem
  cases hmem

/-- While nothing is forgotten, a cache lets one claim through and no more. -/
theorem everyStep_broadcast_iff [LawfulCodec Text] (l : Link Text) (claims : List InclusionClaim) :
    Lib.EveryStep Link.step l ClaimUnseen (claims.map .broadcastClaim)
      ↔ claims = [] ∨ (claims.length = 1 ∧ Unseen l) := by
  cases claims with
  | nil =>
      exact ⟨fun _ => .inl rfl, fun _ => Lib.everyStep_nil⟩
  | cons c claims =>
      rw [List.map_cons, Lib.everyStep_cons_iff]
      cases claims with
      | nil =>
          constructor
          · rintro ⟨h, _⟩; exact .inr ⟨rfl, h⟩
          · rintro (h | ⟨_, h⟩)
            · cases h
            · exact ⟨h, Lib.everyStep_nil⟩
      | cons c' claims =>
          -- a second claim has the id of the first
          refine ⟨fun ⟨h, h'⟩ => ?_, fun h => ?_⟩
          · rw [List.map_cons, Lib.everyStep_cons_iff] at h'
            exact absurd h'.1 (not_unseen_step h)
          · rcases h with h | ⟨h, _⟩
            · cases h
            · simp at h

end Link

/-! ## Two claims of one checker -/

section Example

open Sample

attribute [local instance] Sample.alloy Sample.libp2p Sample.unicode

/-- Two mints of one transaction. -/
def twoMints : List InclusionClaim := [
  ⟨"7777777:0x0000000000000000000000000000000000000001:1", 7777777, 5, 0, "zora_premint_v2"⟩,
  ⟨"7777777:0x0000000000000000000000000000000000000001:2", 7777777, 5, 1, "zora_premint_v2"⟩]

/-- A checking node and a verifying neighbour, both just started. -/
def checkerLink : Link Wire := ⟨peer "checker" { chainInclusionMode := .check }, peer "verifier" {}⟩

/-- **The second of two different claims does not arrive at a subscriber.** -/
theorem second_claim_lost :
    checkerLink.subscriber.handled = [] ∧ twoMints.Nodup
      ∧ (∀ c ∈ twoMints, Subscribed checkerLink.subscriber c)
      ∧ ¬ AllReach checkerLink (twoMints.map .broadcastClaim) := by
  refine ⟨rfl, by decide, by decide, fun h => ?_⟩
  have hreach := h twoMints[1] (by decide)
  exact absurd hreach (by decide)

/-- A claim alone does, and so does a second one when the first is forgotten. -/
theorem claims_reach_when_forgotten :
    AllReach checkerLink [.broadcastClaim twoMints[0],
      .expire ["likely_spam"] ["likely_spam"], .broadcastClaim twoMints[1]] :=
  (allReach_iff checkerLink _ rfl (by decide) (by decide)).mpr
    (Lib.everyStep_cons_iff.mpr ⟨show Unseen _ by decide,
      Lib.everyStep_cons_iff.mpr ⟨trivial,
        Lib.everyStep_cons_iff.mpr ⟨show Unseen _ by decide, Lib.everyStep_nil⟩⟩⟩)

end Example

end Mintpool.Proof
