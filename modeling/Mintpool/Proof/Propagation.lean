import Mintpool.Proof.Admission
import Mintpool.Proof.Gossip
import Mintpool.Proof.Submission

/-!
# Which premints reach a neighbour

A premint that is submitted to a node is stored there and then published. Its message
is identified by the premint's id alone, so a second message about one id never
leaves the publisher: not an upgrade of the premint, and not a premint of another kind
that happens to have the same id. The publisher's own table has moved on by then, and
the neighbour's has not.
-/

namespace Mintpool.Proof

open Mintpool PremintStorage

section Propagation

variable {Text : Type} [Codec Text] [Alloy] [Libp2p] [Unicode]

/-! ## The scenario -/

/-- A broadcast command is answered with `Ok`: the premint is stored and handed on. -/
def Submitted (c : Controller Text) (premint : PremintTypes) (c' : Controller Text) : Prop :=
  ∃ m, c.handleCommand m (.broadcast premint) = .ret (.broadcast (.ok ()), .ok (), c')

/-- The controller takes a premint from its swarm, and its rules accept it. -/
def Accepted (c : Controller Text) (event : P2PEvent) (c' : Controller Text) : Prop :=
  ∃ m premint evaluation, event = .premintReceived premint
    ∧ c.rules.evaluate m.chains premint c.store.clone = .ok evaluation
    ∧ evaluation.isAccept = true ∧ c' = (c.validateAndInsert m premint).2

/-- A premint is submitted to the publisher, and what its message leads to. -/
inductive Relay (l : Link Text) (premint : PremintTypes) : Link Text → Prop
  /-- `gossipsub.publish` fails. -/
  | duplicate {c : Controller Text} (h : Submitted l.publisher.controller premint c)
      (hpublish : l.publisher.publish (broadcastMessage l.publisher.peerId premint) = none) :
      Relay l premint { l with publisher := { l.publisher with controller := c } }
  /-- The subscriber has seen the message. -/
  | discarded {c : Controller Text} {publisher : Peer Text}
      (h : Submitted l.publisher.controller premint c)
      (hpublish : l.publisher.publish (broadcastMessage l.publisher.peerId premint)
        = some publisher)
      (hreceive : l.subscriber.receive l.publisher.peerId
        (broadcastMessage l.publisher.peerId premint) = none) :
      Relay l premint { l with publisher := { publisher with controller := c } }
  /-- The subscriber's controller handles it. -/
  | delivered {c c' : Controller Text} {publisher subscriber : Peer Text} {taken : SwarmEvent}
      {rest : List SwarmEvent} (h : Submitted l.publisher.controller premint c)
      (hpublish : l.publisher.publish (broadcastMessage l.publisher.peerId premint)
        = some publisher)
      (hreceive : l.subscriber.receive l.publisher.peerId
        (broadcastMessage l.publisher.peerId premint) = some subscriber)
      (hevents : subscriber.events = taken :: rest)
      (haccept : Accepted subscriber.controller taken.event c') :
      Relay l premint {
        publisher := { publisher with controller := c }
        subscriber := { subscriber with controller := c', events := rest } }

/-- Two peers that have just been started. -/
def freshLink (publisher subscriber : PeerId) (config : PeerId → Config)
    (rules : PeerId → RulesEngine Text) : Link Text where
  publisher := { peerId := publisher, controller := .new (config publisher) (rules publisher) }
  subscriber := { peerId := subscriber, controller := .new (config subscriber) (rules subscriber) }

/-- The version a peer has stored for a kind and an id. -/
def versionAt (p : Peer Text) (k : String × String) : Option Int64 :=
  (p.controller.store.table.lookup k).map Row.version

/-- The subscriber has the publisher's versions, for every kind and id. -/
def SameVersions (l : Link Text) : Prop := ∀ k, versionAt l.subscriber k = versionAt l.publisher k

/-! ## The message of a premint -/

omit [Codec Text] [Alloy] [Libp2p] in
theorem toList_msgTopic (name : PremintName) :
    name.msgTopic.toList = "mintpool::premint::".toList ++ name.debug.toList :=
  String.toList_append

omit [Codec Text] [Alloy] [Libp2p] in
theorem msgTopic_ne_announceTopic (name : PremintName) : name.msgTopic ≠ announceTopic := by
  intro h
  have hlist := congrArg (fun s : String => s.toList[10]?) h
  have hpremint : ("mintpool::premint::".toList ++ name.debug.toList)[10]? = some 'p' := rfl
  have hannounce : announceTopic.toList[10]? = some 'a' := rfl
  rw [toList_msgTopic, hpremint, hannounce] at hlist
  exact absurd (Option.some.inj hlist) (by decide)

omit [Codec Text] [Alloy] [Libp2p] in
theorem msgTopic_not_claims (name : PremintName) (names : List PremintName) :
    (claimsTopicHashes names).contains name.msgTopic = false := by
  rw [Bool.eq_false_iff]
  intro h
  obtain ⟨other, _, heq⟩ := List.mem_map.mp (List.contains_iff_mem.mp h)
  have hhead := congrArg (fun s : String => s.toList.head?) heq
  have hclaims : other.claimsTopic.toList = "chain::claims::".toList ++ other.debug.toList :=
    String.toList_append
  have hc : ("chain::claims::".toList ++ other.debug.toList).head? = some 'c' := rfl
  have hm : ("mintpool::premint::".toList ++ name.debug.toList).head? = some 'm' := rfl
  rw [hclaims, toList_msgTopic, hc, hm] at hhead
  exact absurd (Option.some.inj hhead) (by decide)

omit [Alloy] in
/-- **The message is identified by the premint's id.** -/
theorem gossipsubMessageId_premint [LawfulCodec Text] (author : PeerId) (p : PremintTypes) :
    gossipsubMessageId (broadcastMessage author p : Message Text)
      = Libp2p.digest p.metadata.id := by
  have htopic : (broadcastMessage author p : Message Text).topic ≠ announceTopic :=
    msgTopic_ne_announceTopic _
  unfold gossipsubMessageId
  rw [if_neg htopic]
  simp only [broadcastMessage, PremintTypes.fromJson_toJson]

omit [Alloy] in
theorem handleGossipsubEvent_premint [LawfulCodec Text] (names : List PremintName)
    (source author : PeerId) (p : PremintTypes) :
    handleGossipsubEvent names source (broadcastMessage author p : Message Text)
      = .ok (.send (.premintReceived p)) := by
  have htopic : (broadcastMessage author p : Message Text).topic ≠ announceTopic :=
    msgTopic_ne_announceTopic _
  have hclaims : (claimsTopicHashes names).contains
      (broadcastMessage author p : Message Text).topic = false := msgTopic_not_claims _ names
  unfold handleGossipsubEvent
  rw [if_neg htopic, hclaims]
  simp [broadcastMessage]

omit [Alloy] in
/-- What the swarm of a subscriber does with a premint it has not seen. -/
theorem receive_premint [LawfulCodec Text] {p s : Peer Text} {source author : PeerId}
    {q : PremintTypes} (hunseen : Libp2p.digest q.metadata.id ∉ p.seen)
    (h : p.receive source (broadcastMessage author q) = some s) :
    s.seen = Libp2p.digest q.metadata.id :: p.seen ∧ s.controller = p.controller
      ∧ (s.events = p.events ++ [⟨.premintReceived q, author⟩] ∨ s.events = p.events) := by
  unfold Peer.receive at h
  rw [gossipsubMessageId_premint, insert_of_not_mem hunseen, Option.map_some] at h
  obtain rfl := Option.some.inj h
  split
  · obtain ⟨_, hseen, _, hcontroller⟩ := handle_spec
      ({ p with seen := Libp2p.digest q.metadata.id :: p.seen } : Peer Text) source
      (broadcastMessage author q)
    exact ⟨hseen, hcontroller, .inl (handle_events (handleGossipsubEvent_premint _ _ _ _))⟩
  · exact ⟨rfl, rfl, .inr rfl⟩

/-! ## One premint -/

omit [Libp2p] [Unicode] in
/-- A premint that is submitted successfully is stored. -/
theorem store_of_submitted {c c' : Controller Text} {p : PremintTypes} (h : Submitted c p c') :
    ¬ Refused c.store p ∧ ∃ now, c'.store = (c.store.store now p).2 := by
  obtain ⟨m, h⟩ := h
  obtain ⟨reply, c'', hcall, hdone⟩ := broadcast_cases c m p
  rw [h] at hcall
  cases hcall
  cases hdone with
  | sent hins =>
      obtain ⟨_, _, _, href⟩ := hins
      exact ⟨href, m.clock.secs, rfl⟩

omit [Libp2p] [Unicode] in
/-- What a subscriber that accepts a premint does with it. -/
theorem store_of_accepted {c c' : Controller Text} {p : PremintTypes}
    (h : Accepted c (.premintReceived p) c') : ∃ now, c'.store = (c.store.store now p).2 := by
  obtain ⟨m, q, evaluation, heq, hev, hacc, rfl⟩ := h
  cases heq
  refine ⟨m.clock.secs, ?_⟩
  obtain ⟨existing, hread, rfl⟩ := evaluate_ok_iff.mp hev
  have hsnd := validateAndInsert_snd c.rules m c.store p
  rw [hread] at hsnd
  have hacc' : (c.rules.checkRules m.chains p c.store.clone existing).isAccept = true := hacc
  dsimp only at hsnd
  rw [if_pos hacc'] at hsnd
  exact hsnd

/-! ## The invariant -/

/-- What is so after these premints have been relayed. -/
structure Relayed (ps : List PremintTypes) (l : Link Text) : Prop where
  /-- The subscriber's controller has taken what its swarm handed over. -/
  idle : l.subscriber.events = []
  publisherSeen : ∀ id, id ∈ l.publisher.seen ↔ ∃ p ∈ ps, id = Libp2p.digest p.metadata.id
  subscriberSeen : ∀ id, id ∈ l.subscriber.seen ↔ ∃ p ∈ ps, id = Libp2p.digest p.metadata.id
  /-- Every row of the publisher's was submitted. -/
  submitted : ∀ r ∈ l.publisher.controller.store.table.rows, ∃ p ∈ ps, premintKey p = r.key
  /-- The subscriber is never ahead. -/
  behind : ∀ k v, versionAt l.subscriber k = some v → ∃ w, versionAt l.publisher k = some w ∧ v ≤ w
  /-- **And as far as the publisher exactly when no id came twice.** -/
  same : SameVersions l ↔ (ps.map fun p => p.metadata.id).Nodup

/-! ### What a store does to the versions -/

omit [Libp2p] [Unicode] in
theorem versionAt_store_of_ne {p p' : Peer Text} {q : PremintTypes} {now : Int}
    {k : String × String} (h : p'.controller.store = (p.controller.store.store now q).2)
    (hne : k ≠ premintKey q) : versionAt p' k = versionAt p k := by
  unfold versionAt
  rw [h, lookup_store_of_ne hne]

omit [Libp2p] [Unicode] in
/-- The version of a premint that goes through is there, and is higher than what was. -/
theorem versionAt_store_self {p p' : Peer Text} {q : PremintTypes} {now : Int}
    (h : p'.controller.store = (p.controller.store.store now q).2)
    (href : ¬ Refused p.controller.store q) :
    versionAt p' (premintKey q) = some q.metadata.version.toInt64
      ∧ ∀ v, versionAt p (premintKey q) = some v → v < q.metadata.version.toInt64 := by
  unfold versionAt
  rw [h]
  rcases store_self_cases p.controller.store now q with ⟨hnone, hnew⟩ | ⟨old, hold, hlt, hup⟩ |
    ⟨href', _⟩
  · rw [hnew, hnone]
    exact ⟨rfl, fun v hv => by cases hv⟩
  · rw [hup, hold]
    refine ⟨rfl, fun v hv => ?_⟩
    cases hv
    exact hlt
  · exact absurd href' href

omit [Libp2p] [Unicode] in
/-- Where there was nothing, the premint is inserted. -/
theorem versionAt_store_of_none {p p' : Peer Text} {q : PremintTypes} {now : Int}
    (h : p'.controller.store = (p.controller.store.store now q).2)
    (hnone : versionAt p (premintKey q) = none) :
    versionAt p' (premintKey q) = some q.metadata.version.toInt64 := by
  unfold versionAt at hnone ⊢
  rw [h, lookup_store_of_none now (Option.map_eq_none_iff.mp hnone)]
  rfl

/-! ### One step -/

omit [Codec Text] [Alloy] [Unicode] in
theorem relayed_fresh (publisher subscriber : PeerId) (config : PeerId → Config)
    (rules : PeerId → RulesEngine Text) :
    Relayed [] (freshLink publisher subscriber config rules) where
  idle := rfl
  publisherSeen id := by simp [freshLink]
  subscriberSeen id := by simp [freshLink]
  submitted r hr := by cases hr
  behind k v hv := by cases hv
  same := ⟨fun _ => List.nodup_nil, fun _ _ => rfl⟩

/-- The sha256 of ids that differ differs. -/
def NoCollisions (ps : List PremintTypes) : Prop :=
  ∀ p ∈ ps, ∀ q ∈ ps, Libp2p.digest p.metadata.id = Libp2p.digest q.metadata.id →
    p.metadata.id = q.metadata.id

omit [Codec Text] [Alloy] [Unicode] in
/-- A remembered id is the id of an earlier premint. -/
theorem id_seen_iff {ps : List PremintTypes} {p : PremintTypes} {seen : SeenCache}
    (hcol : NoCollisions (ps ++ [p]))
    (hseen : ∀ id, id ∈ seen ↔ ∃ q ∈ ps, id = Libp2p.digest q.metadata.id) :
    Libp2p.digest p.metadata.id ∈ seen ↔ p.metadata.id ∈ ps.map fun q => q.metadata.id := by
  rw [hseen, List.mem_map]
  constructor
  · rintro ⟨q, hq, heq⟩
    exact ⟨q, hq, hcol q (List.mem_append_left _ hq) p (by simp) heq.symm⟩
  · rintro ⟨q, hq, heq⟩
    exact ⟨q, hq, by rw [heq]⟩

omit [Codec Text] [Alloy] [Unicode] in
/-- The ids of one premint more. -/
theorem id_concat_iff {ps : List PremintTypes} {p : PremintTypes} {id : String} :
    (∃ q ∈ ps ++ [p], id = Libp2p.digest q.metadata.id)
      ↔ id = Libp2p.digest p.metadata.id ∨ ∃ q ∈ ps, id = Libp2p.digest q.metadata.id := by
  simp only [List.mem_append, List.mem_singleton]
  constructor
  · rintro ⟨q, hq | rfl, rfl⟩
    · exact .inr ⟨q, hq, rfl⟩
    · exact .inl rfl
  · rintro (rfl | ⟨q, hq, rfl⟩)
    · exact ⟨p, .inr rfl, rfl⟩
    · exact ⟨q, .inl hq, rfl⟩

omit [Codec Text] [Alloy] [Libp2p] [Unicode] in
theorem nodup_concat_iff {ps : List PremintTypes} {p : PremintTypes} :
    ((ps ++ [p]).map fun q => q.metadata.id).Nodup
      ↔ (ps.map fun q => q.metadata.id).Nodup
        ∧ p.metadata.id ∉ ps.map fun q => q.metadata.id := by
  rw [List.map_append, List.map_singleton, List.nodup_append]
  simp

omit [Libp2p] [Unicode] in
/-- The rows that a store leaves were submitted before, or are the premint's own. -/
theorem submitted_store {ps : List PremintTypes} {p : PremintTypes} {s : PremintStorage Text}
    (now : Int) (h : ∀ r ∈ s.table.rows, ∃ q ∈ ps, premintKey q = r.key) :
    ∀ r ∈ (s.store now p).2.table.rows, ∃ q ∈ ps ++ [p], premintKey q = r.key := by
  refine rows_write (w := .store now p) ?_ (fun _ _ _ _ _ _ hold => hold) (fun _ hr => hr) ?_
  · intro now' q hw _
    cases hw
    exact ⟨p, by simp, rfl⟩
  · intro r hr
    obtain ⟨q, hq, heq⟩ := h r hr
    exact ⟨q, List.mem_append_left _ hq, heq⟩

omit [Unicode] in
/-- **A premint whose id is known changes the publisher's table, and no other.** -/
theorem relayed_duplicate {ps : List PremintTypes} {p : PremintTypes} {l : Link Text}
    {c : Controller Text} (h : Relayed ps l) (hsub : Submitted l.publisher.controller p c)
    (hknown : p.metadata.id ∈ ps.map fun q => q.metadata.id) :
    Relayed (ps ++ [p]) { l with publisher := { l.publisher with controller := c } } := by
  obtain ⟨href, now, hstore⟩ := store_of_submitted hsub
  have hstore' : ({ l.publisher with controller := c } : Peer Text).controller.store
      = (l.publisher.controller.store.store now p).2 := hstore
  obtain ⟨hself, hlt⟩ := versionAt_store_self hstore' href
  have hdigest : ∃ q ∈ ps, Libp2p.digest p.metadata.id = Libp2p.digest q.metadata.id := by
    obtain ⟨q, hq, heq⟩ := List.mem_map.mp hknown
    exact ⟨q, hq, by rw [heq]⟩
  have hsame : ∀ id, (∃ q ∈ ps ++ [p], id = Libp2p.digest q.metadata.id)
      ↔ ∃ q ∈ ps, id = Libp2p.digest q.metadata.id := by
    intro id
    rw [id_concat_iff]
    exact ⟨fun hid => hid.elim (fun heq => heq ▸ hdigest) (fun hid => hid), .inr⟩
  refine ⟨h.idle, fun id => (h.publisherSeen id).trans (hsame id).symm,
    fun id => (h.subscriberSeen id).trans (hsame id).symm, ?_, ?_, ?_⟩
  · rw [hstore]
    exact submitted_store now h.submitted
  · intro k v hv
    obtain ⟨w, hw, hle⟩ := h.behind k v hv
    by_cases hk : k = premintKey p
    · subst hk
      exact ⟨_, hself, Int64.le_of_lt (Int64.lt_of_le_of_lt hle (hlt w hw))⟩
    · exact ⟨w, by rw [versionAt_store_of_ne (p := l.publisher) hstore hk, hw], hle⟩
  · rw [nodup_concat_iff]
    refine ⟨fun hall => ?_, fun hnodup => absurd hknown hnodup.2⟩
    -- the subscriber would have to be ahead of where the publisher was
    have hsubscriber := hall (premintKey p)
    rw [hself] at hsubscriber
    obtain ⟨w, hw, hle⟩ := h.behind _ _ hsubscriber
    exact absurd (hlt w hw) (Int64.not_lt.mpr hle)

omit [Codec Text] [Alloy] [Unicode] in
/-- Neither table has a row for a premint with a new id. -/
theorem Relayed.none_of_new {ps : List PremintTypes} {p : PremintTypes} {l : Link Text}
    (h : Relayed ps l) (hnew : p.metadata.id ∉ ps.map fun q => q.metadata.id) :
    versionAt l.publisher (premintKey p) = none
      ∧ versionAt l.subscriber (premintKey p) = none := by
  have hpnone : versionAt l.publisher (premintKey p) = none := by
    by_contra hne
    obtain ⟨v, hv⟩ := Option.ne_none_iff_exists'.mp hne
    obtain ⟨r, hr, _⟩ := Option.map_eq_some_iff.mp hv
    obtain ⟨hmem, hkey⟩ := Lib.KeyedTable.lookup_some hr
    obtain ⟨q, hq, heq⟩ := h.submitted r hmem
    refine hnew (List.mem_map.mpr ⟨q, hq, ?_⟩)
    exact congrArg Prod.snd (heq.trans hkey)
  refine ⟨hpnone, ?_⟩
  by_contra hne
  obtain ⟨v, hv⟩ := Option.ne_none_iff_exists'.mp hne
  obtain ⟨w, hw, _⟩ := h.behind _ v hv
  rw [hpnone] at hw
  cases hw

omit [Unicode] in
/-- **A premint with a new id goes to both tables.** -/
theorem relayed_delivered [LawfulCodec Text] {ps : List PremintTypes} {p : PremintTypes}
    {l l' : Link Text} {now now' : Int} (h : Relayed ps l)
    (hnew : p.metadata.id ∉ ps.map fun q => q.metadata.id)
    (hpublisher : l'.publisher.controller.store
      = (l.publisher.controller.store.store now p).2)
    (hsubscriber : l'.subscriber.controller.store
      = (l.subscriber.controller.store.store now' p).2)
    (hidle : l'.subscriber.events = [])
    (hseen : l'.publisher.seen = Libp2p.digest p.metadata.id :: l.publisher.seen)
    (hseen' : l'.subscriber.seen = Libp2p.digest p.metadata.id :: l.subscriber.seen) :
    Relayed (ps ++ [p]) l' := by
  obtain ⟨hpnone, hsnone⟩ := h.none_of_new hnew
  have hpself := versionAt_store_of_none (p := l.publisher) hpublisher hpnone
  have hsself := versionAt_store_of_none (p := l.subscriber) hsubscriber hsnone
  refine ⟨hidle, fun id => ?_, fun id => ?_, ?_, ?_, ?_⟩
  · rw [hseen, id_concat_iff, List.mem_cons, h.publisherSeen]
  · rw [hseen', id_concat_iff, List.mem_cons, h.subscriberSeen]
  · rw [hpublisher]
    exact submitted_store now h.submitted
  · intro k v hv
    by_cases hk : k = premintKey p
    · subst hk
      rw [hsself] at hv
      cases hv
      exact ⟨_, hpself, Int64.le_refl _⟩
    · rw [versionAt_store_of_ne (p := l.subscriber) hsubscriber hk] at hv
      rw [versionAt_store_of_ne (p := l.publisher) hpublisher hk]
      exact h.behind k v hv
  · rw [nodup_concat_iff, ← h.same]
    refine ⟨fun hall => ⟨fun k => ?_, hnew⟩, fun hall k => ?_⟩
    · by_cases hk : k = premintKey p
      · rw [hk, hpnone, hsnone]
      · rw [← versionAt_store_of_ne (p := l.subscriber) hsubscriber hk,
          ← versionAt_store_of_ne (p := l.publisher) hpublisher hk]
        exact hall k
    · by_cases hk : k = premintKey p
      · rw [hk, hpself, hsself]
      · rw [versionAt_store_of_ne (p := l.subscriber) hsubscriber hk,
          versionAt_store_of_ne (p := l.publisher) hpublisher hk]
        exact hall.1 k

/-- **Preserved by every step.** -/
theorem relayed_step [LawfulCodec Text] {ps : List PremintTypes} {p : PremintTypes}
    {l l' : Link Text} (hcol : NoCollisions (ps ++ [p])) (h : Relayed ps l)
    (hs : Relay l p l') : Relayed (ps ++ [p]) l' := by
  have hid : gossipsubMessageId (broadcastMessage l.publisher.peerId p : Message Text)
      = Libp2p.digest p.metadata.id := gossipsubMessageId_premint _ p
  have hpub := id_seen_iff hcol h.publisherSeen
  have hsub := id_seen_iff hcol h.subscriberSeen
  cases hs with
  | duplicate hsubmitted hpublish =>
      refine relayed_duplicate h hsubmitted (hpub.mp ?_)
      by_contra hnot
      unfold Peer.publish at hpublish
      rw [hid, insert_of_not_mem hnot] at hpublish
      cases hpublish
  | discarded hsubmitted hpublish hreceive =>
      -- both caches remember the same ids
      exfalso
      unfold Peer.publish at hpublish
      unfold Peer.receive at hreceive
      rw [hid] at hpublish hreceive
      by_cases hknown : Libp2p.digest p.metadata.id ∈ l.publisher.seen
      · rw [insert_of_mem hknown] at hpublish
        cases hpublish
      · rw [insert_of_not_mem (fun hmem => hknown (hpub.mpr (hsub.mp hmem)))] at hreceive
        cases hreceive
  | @delivered c c' publisher subscriber taken rest hsubmitted hpublish hreceive hevents haccept =>
      by_cases hknown : Libp2p.digest p.metadata.id ∈ l.publisher.seen
      · unfold Peer.publish at hpublish
        rw [hid, insert_of_mem hknown] at hpublish
        cases hpublish
      · have hnew := fun hmem => hknown (hpub.mpr hmem)
        obtain ⟨hseen, hsame, hhanded⟩ := receive_premint (fun hmem => hnew (hsub.mp hmem)) hreceive
        unfold Peer.publish at hpublish
        rw [hid, insert_of_not_mem hknown, Option.map_some] at hpublish
        obtain rfl := Option.some.inj hpublish
        rw [hevents, h.idle] at hhanded
        rcases hhanded with hhanded | hhanded
        · obtain ⟨rfl, rfl⟩ := List.cons.inj hhanded
          obtain ⟨_, now, hstore⟩ := store_of_submitted hsubmitted
          obtain ⟨now', hstore'⟩ := store_of_accepted haccept
          rw [hsame] at hstore'
          exact relayed_delivered h hnew hstore hstore' rfl rfl hseen
        · cases hhanded

/-- The premints are relayed one after another. -/
abbrev RelayRun : Link Text → List PremintTypes → Link Text → Prop := Lib.Run Relay

theorem relayed_run [LawfulCodec Text] {publisher subscriber : PeerId}
    {config : PeerId → Config} {rules : PeerId → RulesEngine Text} {ps : List PremintTypes}
    {l : Link Text} (h : RelayRun (freshLink publisher subscriber config rules) ps l)
    (hcol : NoCollisions ps) : Relayed ps l := by
  induction h with
  | nil => exact relayed_fresh _ _ _ _
  | snoc _ hs ih =>
      refine relayed_step hcol (ih fun p hp q hq => ?_) hs
      exact hcol p (List.mem_append_left _ hp) q (List.mem_append_left _ hq)

/--
**The subscriber ends with the publisher's versions exactly when no two of the premints
have one id.**

For every sequence of premints that the publisher validates and stores, and whose
messages, as far as gossipsub lets them through, the subscriber accepts.
-/
theorem sameVersions_iff [LawfulCodec Text] {publisher subscriber : PeerId}
    {config : PeerId → Config} {rules : PeerId → RulesEngine Text} {ps : List PremintTypes}
    {l : Link Text} (h : RelayRun (freshLink publisher subscriber config rules) ps l)
    (hcol : NoCollisions ps) :
    SameVersions l ↔ (ps.map fun p => p.metadata.id).Nodup :=
  (relayed_run h hcol).same

omit [Alloy] [Unicode] in
theorem publish_of_unseen {p : Peer Text} {message : Message Text}
    (h : gossipsubMessageId message ∉ p.seen) :
    p.publish message = some { p with seen := gossipsubMessageId message :: p.seen } := by
  unfold Peer.publish
  rw [insert_of_not_mem h, Option.map_some]

omit [Alloy] in
theorem receive_of_unseen {p : Peer Text} (source : PeerId) {message : Message Text}
    (h : gossipsubMessageId message ∉ p.seen)
    (htopic : (subscriptions p.premintNames).contains message.topic = true) :
    p.receive source message = some
      (({ p with seen := gossipsubMessageId message :: p.seen } : Peer Text).handle source
        message) := by
  unfold Peer.receive
  rw [insert_of_not_mem h, Option.map_some, if_pos htopic]

omit [Libp2p] [Unicode] in
/-- A premint that the rules accept and the upsert takes is submitted successfully. -/
theorem submitted_of_accept {c : Controller Text} {m : Moment} {p : PremintTypes}
    {evaluation : Results} (hopen : c.swarmOpen = true)
    (hev : c.rules.evaluate m.chains p c.store.clone = .ok evaluation)
    (hacc : evaluation.isAccept = true) (href : ¬ Refused c.store p) :
    ∃ c', Submitted c p c' ∧ c'.store = (c.store.store m.clock.secs p).2 ∧ c'.rules = c.rules
      ∧ c'.swarmOpen = true := by
  obtain ⟨reply, c', hcall, hdone⟩ := broadcast_cases c m p
  cases hdone with
  | refused hnot => exact absurd ⟨evaluation, hev, hacc, href⟩ hnot
  | sent => exact ⟨_, ⟨m, hcall⟩, rfl, rfl, hopen⟩
  | unsent _ hclosed => rw [hopen] at hclosed; cases hclosed

/-- The premint is stored by both, at this time, and nothing else has changed but the caches. -/
structure Delivered (l : Link Text) (now : Int) (p : PremintTypes) (l' : Link Text) : Prop where
  relay : Relay l p l'
  published : l'.publisher.controller.store = (l.publisher.controller.store.store now p).2
    ∧ l'.publisher.controller.rules = l.publisher.controller.rules
    ∧ l'.publisher.controller.swarmOpen = true
    ∧ l'.publisher.seen = Libp2p.digest p.metadata.id :: l.publisher.seen
  received : l'.subscriber.controller = { l.subscriber.controller with
      store := (l.subscriber.controller.store.store now p).2 }
    ∧ l'.subscriber.events = []
    ∧ l'.subscriber.seen = Libp2p.digest p.metadata.id :: l.subscriber.seen

/-- A premint that both accept, with an id that neither has seen, is delivered. -/
theorem exists_delivered [LawfulCodec Text] {l : Link Text} {m : Moment} {p : PremintTypes}
    {evaluation evaluation' : Results} (hopen : l.publisher.controller.swarmOpen = true)
    (hev : l.publisher.controller.rules.evaluate m.chains p l.publisher.controller.store.clone
      = .ok evaluation)
    (hacc : evaluation.isAccept = true) (href : ¬ Refused l.publisher.controller.store p)
    (hev' : l.subscriber.controller.rules.evaluate m.chains p l.subscriber.controller.store.clone
      = .ok evaluation')
    (hacc' : evaluation'.isAccept = true) (href' : ¬ Refused l.subscriber.controller.store p)
    (hidle : l.subscriber.events = []) (hunseen : Libp2p.digest p.metadata.id ∉ l.publisher.seen)
    (hunseen' : Libp2p.digest p.metadata.id ∉ l.subscriber.seen)
    (htopic : p.metadata.kind.msgTopic ∈ subscriptions l.subscriber.premintNames) :
    ∃ l', Delivered l m.clock.secs p l' := by
  obtain ⟨c, hsubmitted, hstore, hrules, hopen'⟩ := submitted_of_accept hopen hev hacc href
  have hid : gossipsubMessageId (broadcastMessage l.publisher.peerId p : Message Text)
      = Libp2p.digest p.metadata.id := gossipsubMessageId_premint _ p
  rw [← hid] at hunseen hunseen'
  have hreceive := receive_of_unseen l.publisher.peerId hunseen' (List.contains_iff_mem.mpr htopic)
  have hevents := handle_events (p := { l.subscriber with
      seen := gossipsubMessageId (broadcastMessage l.publisher.peerId p : Message Text)
        :: l.subscriber.seen })
    (handleGossipsubEvent_premint l.subscriber.premintNames l.publisher.peerId
      l.publisher.peerId p)
  rw [hidle, List.nil_append] at hevents
  obtain ⟨_, hseen, _, hsame⟩ := handle_spec ({ l.subscriber with
    seen := gossipsubMessageId (broadcastMessage l.publisher.peerId p : Message Text)
      :: l.subscriber.seen } : Peer Text) l.publisher.peerId
    (broadcastMessage l.publisher.peerId p)
  have hins : (l.subscriber.controller.validateAndInsert m p).2 = { l.subscriber.controller with
      store := (l.subscriber.controller.store.store m.clock.secs p).2 } := by
    unfold Controller.validateAndInsert
    rw [validateAndInsert_of_accept hev' hacc' href']
  have haccept : Accepted l.subscriber.controller (.premintReceived p)
      (l.subscriber.controller.validateAndInsert m p).2 :=
    ⟨m, p, evaluation', rfl, hev', hacc', rfl⟩
  rw [← hsame] at haccept
  refine ⟨_, .delivered hsubmitted (publish_of_unseen hunseen) hreceive hevents haccept,
    ⟨hstore, hrules, hopen', congrArg (· :: _) hid⟩, ?_, rfl, ?_⟩
  · exact (congrArg (fun c => (c.validateAndInsert m p).2) hsame).trans hins
  · rw [← hid]
    exact hseen

end Propagation

/-! ## An upgrade that stays behind -/

section Example

open Sample

attribute [local instance] Sample.alloy Sample.libp2p Sample.unicode

/-- `a` publishes to `b`; both have the default configuration and rules. -/
def upgradeLink : Link Wire :=
  freshLink (peerId "a") (peerId "b") (fun _ => {}) (fun _ => offlineRules)

/-- Any premint that the rules accept goes through first. -/
theorem first_relayed {p : PremintTypes}
    (haccept : (offlineRules.evaluate offline.chains p
      (PremintStorage.new true : PremintStorage Wire).clone).toOption.map Results.isAccept
        = some true)
    (htopic : p.metadata.kind.msgTopic ∈ subscriptions [⟨"zora_premint_v2"⟩]) :
    ∃ l, Delivered upgradeLink 0 p l := by
  obtain ⟨evaluation, hev, hacc⟩ := accepts_of_decide (s := .new true) haccept
  have href : ¬ Refused (.new true : PremintStorage Wire) p := by
    rintro ⟨old, hold, _⟩
    cases hold
  have hnames : upgradeLink.subscriber.premintNames = [⟨"zora_premint_v2"⟩] :=
    show Config.premintNames {} = _ by decide
  exact exists_delivered (l := upgradeLink) (m := offline) rfl hev hacc href hev hacc href rfl
    List.not_mem_nil List.not_mem_nil (by rw [hnames]; exact htopic)

/-- **The second is stored by its publisher and goes no further.** -/
theorem upgrade_not_propagated :
    NoCollisions [PremintTypes.zoraV2 (validVersion 1), .zoraV2 (validVersion 2)]
      ∧ ∃ l, RelayRun upgradeLink [.zoraV2 (validVersion 1), .zoraV2 (validVersion 2)] l
        ∧ ¬ SameVersions l := by
  have hcol : NoCollisions [PremintTypes.zoraV2 (validVersion 1), .zoraV2 (validVersion 2)] :=
    fun p _ q _ heq => heq
  obtain ⟨l, hrelay, ⟨hstore, hrules, hopen, hseen⟩, _⟩ :=
    first_relayed (p := .zoraV2 (validVersion 1)) (by decide +kernel) (by decide)
  obtain ⟨evaluation, hev, hacc⟩ := accepts_of_decide (p := .zoraV2 (validVersion 2))
    (s := ((PremintStorage.new true).store 0 (.zoraV2 (validVersion 1))).2) (by decide +kernel)
  have href : ¬ Refused (((PremintStorage.new true).store 0 (.zoraV2 (validVersion 1))).2
      : PremintStorage Wire) (.zoraV2 (validVersion 2)) := by
    decide +kernel
  obtain ⟨c, hsubmitted, _⟩ := submitted_of_accept (c := l.publisher.controller) (m := offline)
    hopen (by rw [hrules, hstore]; exact hev) hacc (by rw [hstore]; exact href)
  -- the second version has the id of the first, so it is not published
  have hid : gossipsubMessageId (broadcastMessage l.publisher.peerId (.zoraV2 (validVersion 2))
      : Message Wire) ∈ l.publisher.seen := by
    rw [gossipsubMessageId_premint, hseen]
    exact List.mem_cons_self
  have hpublish : l.publisher.publish (broadcastMessage l.publisher.peerId
      (.zoraV2 (validVersion 2))) = none := by
    unfold Peer.publish
    rw [insert_of_mem hid, Option.map_none]
  have hrun : RelayRun upgradeLink [.zoraV2 (validVersion 1), .zoraV2 (validVersion 2)] _ :=
    .snoc (.snoc .nil hrelay) (.duplicate hsubmitted hpublish)
  refine ⟨hcol, _, hrun, fun hsame => ?_⟩
  have hnodup := (relayed_run hrun hcol).same.mp hsame
  exact absurd hnodup (by simp [PremintTypes.metadata, ZoraPremint.metadata, validVersion])

/-- A second premint of the same collection. -/
def secondPremint : V2 :=
  { validPremint with
    premint := { validPremint.premint with tokenConfig := { tokenURI := "ipfs://b" }, uid := 2 } }

/-- Premints with ids of their own are the same at both. -/
theorem first_version_propagated :
    ∃ l, RelayRun upgradeLink [.zoraV2 (validVersion 1), .zoraV2 secondPremint] l
      ∧ SameVersions l := by
  obtain ⟨l, hrelay, ⟨hstore, hrules, hopen, hseen⟩, hcontroller, hevents, hseen'⟩ :=
    first_relayed (p := .zoraV2 (validVersion 1)) (by decide +kernel) (by decide)
  obtain ⟨evaluation, hev, hacc⟩ := accepts_of_decide (p := .zoraV2 secondPremint)
    (s := ((PremintStorage.new true).store 0 (.zoraV2 (validVersion 1))).2) (by decide +kernel)
  have href : ¬ Refused (((PremintStorage.new true).store 0 (.zoraV2 (validVersion 1))).2
      : PremintStorage Wire) (.zoraV2 secondPremint) := by
    decide +kernel
  -- the second premint has another id
  have hfresh : Libp2p.digest (PremintTypes.zoraV2 secondPremint).metadata.id
      ∉ [Libp2p.digest (PremintTypes.zoraV2 (validVersion 1)).metadata.id] := by
    decide
  have hnames : l.subscriber.premintNames = [⟨"zora_premint_v2"⟩] := by
    rw [Peer.premintNames, hcontroller]
    exact (show Config.premintNames {} = _ by decide)
  obtain ⟨l', hrelay', _⟩ := exists_delivered (l := l) (m := offline) (p := .zoraV2 secondPremint)
    hopen (by rw [hrules, hstore]; exact hev) hacc (by rw [hstore]; exact href)
    (by rw [hcontroller]; exact hev) hacc (by rw [hcontroller]; exact href) hevents
    (by rw [hseen]; exact hfresh) (by rw [hseen']; exact hfresh) (by rw [hnames]; decide)
  have hrun : RelayRun upgradeLink [.zoraV2 (validVersion 1), .zoraV2 secondPremint] l' :=
    .snoc (.snoc .nil hrelay) hrelay'
  exact ⟨l', hrun, (sameVersions_iff hrun (fun p _ q _ heq => heq)).mpr (by decide)⟩

end Example

end Mintpool.Proof
