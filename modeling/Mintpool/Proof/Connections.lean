import Mathlib.Data.Finset.Card
import Mintpool.Sample
import Mintpool.Swarm

/-!
# Whom a node is connected to

A connection is there before the node knows of it. The limit is checked when the event is
handled, by which time more connections may have come in; a connection over the limit is told
to close, and stays among the others until it has closed. So the number of peers goes over the
limit now and then. What stays within it are the peers that the node has let in.

And an announcement leads to its author: whoever receives it dials that peer, or nobody.
-/

namespace Mintpool.Connections

open Mintpool.Swarm

/-! ## The peers let in -/

/-- The connections that the node has checked and not told to close. -/
def admitted (s : Connections) : List Connection :=
  s.swarm.connections.filter (fun c =>
    !c.closing && !s.events.contains (.connectionEstablished c.id))

/-- How many peers they lead to. -/
def numAdmitted (s : Connections) : Nat := (s.admitted.map Connection.peerId).toFinset.card

/-- The connections that the node has told to close. -/
def rejected (s : Connections) : List Connection :=
  s.swarm.connections.filter Connection.closing

/-- One of them has this id. -/
def Rejects (s : Connections) (id : Nat) : Prop := ∃ c ∈ s.rejected, c.id = id

variable {s s' : Connections} {i : Input} {is : List Input}

theorem mem_admitted {c : Connection} : c ∈ s.admitted ↔ c ∈ s.swarm.connections
    ∧ c.closing = false ∧ .connectionEstablished c.id ∉ s.events := by
  have hevent : s.events.contains (.connectionEstablished c.id) = false
      ↔ .connectionEstablished c.id ∉ s.events := by
    rw [← Bool.not_eq_true, List.contains_iff_mem]
  rw [admitted, List.mem_filter, Bool.and_eq_true, Bool.not_eq_true', Bool.not_eq_true', hevent]

/-- Fewer connections lead to no more peers. -/
theorem card_le_of_subset {cs cs' : List Connection} (h : ∀ c ∈ cs, c ∈ cs') :
    (cs.map Connection.peerId).toFinset.card ≤ (cs'.map Connection.peerId).toFinset.card := by
  refine Finset.card_le_card fun p hp => ?_
  obtain ⟨c, hc, rfl⟩ := List.mem_map.mp (List.mem_toFinset.mp hp)
  exact List.mem_toFinset.mpr (List.mem_map_of_mem (h c hc))

/-- **What the check of an event does**: over the limit the connection is told to close, and
within it nothing happens. -/
theorem reject_cases (s : Connections) (id : Nat) :
    (s.peerLimit < s.swarm.numPeers
        ∧ s.swarm.rejectConnectionIfOverMax s.peerLimit id = (true, s.swarm.closeConnection id))
      ∨ (s.swarm.numPeers ≤ s.peerLimit
        ∧ s.swarm.rejectConnectionIfOverMax s.peerLimit id = (false, s.swarm)) := by
  unfold rejectConnectionIfOverMax
  by_cases h : s.peerLimit < s.swarm.makeNetworkState.numPeers
  · exact .inl ⟨h, if_pos h⟩
  · exact .inr ⟨Nat.le_of_not_lt h, if_neg h⟩

theorem mem_closeConnection {swarm : Swarm} {id : Nat} {c : Connection}
    (h : c ∈ (swarm.closeConnection id).connections) :
    (c ∈ swarm.connections ∧ c.id ≠ id) ∨ (c.id = id ∧ c.closing = true) := by
  obtain ⟨c₀, hc₀, rfl⟩ := List.mem_map.mp h
  by_cases hid : c₀.id = id
  · exact .inr ⟨by simp [hid], by simp [hid]⟩
  · rw [if_neg hid]
    exact .inl ⟨hc₀, hid⟩

theorem step_peerLimit (h : Step s i s') : s'.peerLimit = s.peerLimit := by
  cases h <;> rfl

/-- **A step lets nobody in, unless the peers are within the limit.** -/
theorem admitted_step (h : Step s i s') :
    (∀ c ∈ s'.admitted, c ∈ s.admitted)
      ∨ (s.swarm.numPeers ≤ s.peerLimit ∧ s'.swarm = s.swarm) := by
  cases h with
  | incoming id =>
      refine .inl fun c hc => ?_
      obtain ⟨hmem, hopen, hevent⟩ := mem_admitted.mp hc
      exact mem_admitted.mpr ⟨hmem, hopen, fun h => hevent (List.mem_append_left _ h)⟩
  | established id peerId hnew =>
      refine .inl fun c hc => ?_
      obtain ⟨hmem, hopen, hevent⟩ := mem_admitted.mp hc
      rcases List.mem_append.mp hmem with hmem | hmem
      · exact mem_admitted.mpr ⟨hmem, hopen, fun h => hevent (List.mem_append_left _ h)⟩
      · -- the new one has not been checked
        rw [List.mem_singleton.mp hmem] at hevent
        exact absurd (by simp) hevent
  | closed id =>
      refine .inl fun c hc => ?_
      obtain ⟨hmem, hopen, hevent⟩ := mem_admitted.mp hc
      exact mem_admitted.mpr ⟨(List.mem_filter.mp hmem).1, hopen, hevent⟩
  | @handle event events hnext =>
      rcases reject_cases s event.id with ⟨_, hreject⟩ | ⟨hwithin, haccept⟩
      · refine .inl fun c hc => ?_
        rw [hreject] at hc
        obtain ⟨hmem, hopen, hevent⟩ := mem_admitted.mp hc
        rcases mem_closeConnection hmem with ⟨hmem, hid⟩ | ⟨_, hclosing⟩
        · refine mem_admitted.mpr ⟨hmem, hopen, fun h => ?_⟩
          rw [hnext] at h
          rcases List.mem_cons.mp h with heq | h
          · rw [← heq] at hid
            exact hid rfl
          · exact hevent h
        · rw [hclosing] at hopen
          cases hopen
      · exact .inr ⟨hwithin, by rw [haccept]⟩

/-- **The peers that a node lets in stay within its limit.** -/
theorem numAdmitted_step (h : Step s i s') (hs : s.numAdmitted ≤ s.peerLimit) :
    s'.numAdmitted ≤ s'.peerLimit := by
  rw [step_peerLimit h]
  rcases admitted_step h with hsub | ⟨hwithin, hswarm⟩
  · exact (card_le_of_subset hsub).trans hs
  · refine (card_le_of_subset fun c hc => ?_).trans hwithin
    rw [← hswarm]
    exact (mem_admitted.mp hc).1

/-! ## The connections turned away -/

/-- The step turns this connection away, and there are too many peers. -/
def TurnsAway (id : Nat) (s : Connections) (i : Input) (_ : Connections) : Prop :=
  i = .handle ∧ s.peerLimit < s.swarm.numPeers ∧ ∃ event ∈ s.events.head?, event.id = id

theorem rejects_step {id : Nat} (h : Step s i s') (hid : Rejects s' id) :
    Rejects s id ∨ TurnsAway id s i s' := by
  obtain ⟨c, hc, rfl⟩ := hid
  obtain ⟨hmem, hclosing⟩ := List.mem_filter.mp hc
  cases h with
  | incoming id => exact .inl ⟨c, List.mem_filter.mpr ⟨hmem, hclosing⟩, rfl⟩
  | established id peerId hnew =>
      rcases List.mem_append.mp hmem with hmem | hmem
      · -- it was being turned away already
        exact .inl ⟨c, List.mem_filter.mpr ⟨hmem, hclosing⟩, rfl⟩
      · rw [List.mem_singleton.mp hmem] at hclosing
        cases hclosing
  | closed id =>
      exact .inl ⟨c, List.mem_filter.mpr ⟨(List.mem_filter.mp hmem).1, hclosing⟩, rfl⟩
  | @handle event events hnext =>
      rcases reject_cases s event.id with ⟨hover, hreject⟩ | ⟨_, haccept⟩
      · -- one connection is closed, and it may be this one
        rw [hreject] at hmem
        rcases mem_closeConnection hmem with ⟨hmem, _⟩ | ⟨hid, _⟩
        · exact .inl ⟨c, List.mem_filter.mpr ⟨hmem, hclosing⟩, rfl⟩
        · exact .inr ⟨rfl, hover, event, by rw [hnext]; rfl, hid.symm⟩
      · rw [haccept] at hmem
        exact .inl ⟨c, List.mem_filter.mpr ⟨hmem, hclosing⟩, rfl⟩

/-- A node that has just been started. -/
def new (localPeerId : PeerId) (peerLimit : Nat) : Connections where
  swarm := { localPeerId := localPeerId }
  peerLimit := peerLimit

/--
**A node stays within its peer limit, and turns nobody away that it has room for.** However the
connections come and go, and however late their events are handled: the peers that it has let
in are never more than the limit. And a connection that it has told to close was one too many
when it was looked at.
-/
theorem within_limit {localPeerId : PeerId} {peerLimit : Nat}
    (h : Run (new localPeerId peerLimit) is s) :
    s.numAdmitted ≤ peerLimit
      ∧ ∀ c ∈ s.rejected, Lib.Once Step (TurnsAway c.id) (new localPeerId peerLimit) is s := by
  have hbound : s.peerLimit = peerLimit ∧ s.numAdmitted ≤ s.peerLimit := by
    refine Lib.Run.invariant (P := fun s => s.peerLimit = peerLimit ∧ s.numAdmitted ≤ s.peerLimit)
      ⟨rfl, Nat.zero_le _⟩ (fun s i s' hs hstep => ?_) h
    exact ⟨(step_peerLimit hstep).trans hs.1, numAdmitted_step hstep hs.2⟩
  refine ⟨hbound.1 ▸ hbound.2, fun c hc => ?_⟩
  have hnone : ∀ id, ¬ Rejects (new localPeerId peerLimit) id := by
    rintro id ⟨c, hc, _⟩
    cases hc
  -- a connection that is turned away was not at the start, so some step has done it
  have hrejects : Rejects s c.id := ⟨c, hc, rfl⟩
  refine Lib.Run.cause hnone ?_ h hrejects
  exact fun s i s' id hstep hid => rejects_step hstep hid

/-- Three peers come to a node with room for two, one after the other. -/
def threePeers : List Input :=
  [.established 1 ⟨[1]⟩, .handle, .established 2 ⟨[2]⟩, .handle, .incoming 3, .handle,
    .established 3 ⟨[3]⟩, .handle]

/-- **Two are let in, and the third is turned away.** -/
theorem threePeers_within_limit : ∃ s, Run (new ⟨[0]⟩ 2) threePeers s ∧ s.numAdmitted = 2
    ∧ Lib.Once Step (TurnsAway 3) (new ⟨[0]⟩ 2) threePeers s := by
  have h₀ : Run (new ⟨[0]⟩ 2) [] (new ⟨[0]⟩ 2) := .nil
  have h₁ := h₀.snoc (.established 1 ⟨[1]⟩ (by decide))
  have h₂ := h₁.snoc (.handle rfl)
  have h₃ := h₂.snoc (.established 2 ⟨[2]⟩ (by decide))
  have h₄ := h₃.snoc (.handle rfl)
  have h₅ := h₄.snoc (.incoming 3)
  have h₆ := h₅.snoc (.handle rfl)
  have h₇ := h₆.snoc (.established 3 ⟨[3]⟩ (by decide))
  have h₈ := h₇.snoc (.handle rfl)
  exact ⟨_, h₈, by decide, (within_limit h₈).2 ⟨3, ⟨[3]⟩, true⟩ (by decide)⟩

end Mintpool.Connections

namespace Mintpool.Swarm

/-! ## Announcements -/

theorem peerId_withProtocol (a : Multiaddr) (peerId : PeerId) :
    (a.withProtocol (.p2p peerId)).peerId = some peerId := by
  unfold Multiaddr.peerId Multiaddr.withProtocol
  rw [List.foldl_append]
  rfl

section Announcements

variable {Text : Type} [Codec Text] [FromStr Text] [Libp2p] [MultiaddrText] [Unicode]

/-- What a node dials on account of a message. -/
def dials (receiver : Swarm) (peerLimit : Nat) (premintNames : List PremintName)
    (propagationSource : PeerId) (message : Message Text) : Option DialOpts :=
  match handleGossipsubEvent premintNames propagationSource message with
  | .ok (.dial address) => (MultiaddrText.parse address).bind (receiver.safeDial peerLimit)
  | _ => none

/-- An announcement is read as the text that its author published. -/
theorem handleGossipsubEvent_announceSelf (premintNames : List PremintName)
    (propagationSource : PeerId) (s : Swarm) {value : String}
    (hvalue : (s.announceSelf : Message Text).data = FromStr.ofString value) :
    handleGossipsubEvent premintNames propagationSource (s.announceSelf : Message Text)
      = if Libp2p.isMultiaddr value then .ok (.dial value)
        else .error (.msg ("invalid address found from announce: " ++ value)) := by
  have htopic : (s.announceSelf : Message Text).topic = announceTopic := rfl
  unfold handleGossipsubEvent
  rw [if_pos htopic, hvalue, FromStr.asString_ofString]

/-- The documented behaviour of the texts, for what this node announces: an address starts with
a slash, as a peer id does not, and one that is written out is read back. -/
structure ReadBack (s : Swarm) : Prop where
  isMultiaddr : ∀ text : String, Libp2p.isMultiaddr text = (MultiaddrText.parse text).isSome
  address : ∀ a ∈ s.listeners,
    MultiaddrText.parse (MultiaddrText.display (a.withProtocol (.p2p s.localPeerId)))
      = some (a.withProtocol (.p2p s.localPeerId))
  peerId : MultiaddrText.parse (MultiaddrText.displayPeerId s.localPeerId) = none

/--
**An announcement leads to its author.** Whoever receives it, over whatever hops, dials the peer
that announced itself, at its first address and unless it is connected already: also when that
address names another peer, as the address over a relay does. A node that listens nowhere
announces what no node dials.
-/
theorem announcement_dials_author {announcer : Swarm} (h : ReadBack announcer)
    (receiver : Swarm) (peerLimit : Nat) (premintNames : List PremintName)
    (propagationSource : PeerId) :
    receiver.dials peerLimit premintNames propagationSource (announcer.announceSelf : Message Text)
      = match announcer.listeners with
        | [] => none
        | address :: _ =>
            if peerLimit ≤ receiver.gossipsubPeers.length then none
            else some ⟨some announcer.localPeerId,
              [address.withProtocol (.p2p announcer.localPeerId)], true⟩ := by
  unfold dials
  cases hlisteners : announcer.listeners with
  | nil =>
      -- without an address it announces its id, and nobody dials an id
      have hvalue : (announcer.announceSelf : Message Text).data
          = FromStr.ofString (MultiaddrText.displayPeerId announcer.localPeerId) := by
        rw [announceSelf, hlisteners]
      rw [handleGossipsubEvent_announceSelf _ _ _ hvalue, h.isMultiaddr, h.peerId]
      rfl
  | cons address rest =>
      -- with one it announces the first, with its id at the end
      have hvalue : (announcer.announceSelf : Message Text).data = FromStr.ofString
          (MultiaddrText.display (address.withProtocol (.p2p announcer.localPeerId))) := by
        rw [announceSelf, hlisteners]
      have hread := h.address address (by rw [hlisteners]; exact List.mem_cons_self)
      rw [handleGossipsubEvent_announceSelf _ _ _ hvalue, h.isMultiaddr, hread]
      dsimp only [Option.isSome_some]
      rw [if_pos rfl]
      dsimp only
      rw [hread, Option.bind_some, safeDial, peerId_withProtocol]
      rfl

end Announcements

/-! ## A node behind a relay -/

section Sample

/-- The texts of this example's addresses. -/
@[reducible] def relayText : MultiaddrText where
  parse s := if s = "/p2p/r/p2p-circuit/p2p/a" then
      some ⟨[.p2p (Sample.peerId "r"), .p2pCircuit, .p2p (Sample.peerId "a")]⟩ else none
  display a := String.join (a.components.map (fun
    | .p2p peerId => "/p2p/" ++ String.ofList (peerId.multihash.map (fun b => Char.ofNat b.toNat))
    | .p2pCircuit => "/p2p-circuit"
    | .other text => "/" ++ text))
  displayPeerId peerId := String.ofList (peerId.multihash.map (fun b => Char.ofNat b.toNat))

@[reducible] def relayLibp2p : Libp2p :=
  { Sample.libp2p with isMultiaddr := fun s => (relayText.parse s).isSome }

instance : FromStr Wire where
  ofString := .other
  asString_ofString _ := rfl

attribute [local instance] relayText relayLibp2p Sample.unicode

/-- It listens at its relay. -/
def relayed : Swarm where
  localPeerId := Sample.peerId "a"
  listeners := [⟨[.p2p (Sample.peerId "r"), .p2pCircuit]⟩]

theorem readBack_relayed : ReadBack relayed where
  isMultiaddr _ := rfl
  address a ha := by
    rw [List.mem_singleton.mp ha]
    decide
  peerId := by decide

/-- **The node is dialled, and not its relay.** -/
theorem relayed_is_dialled :
    dials { localPeerId := Sample.peerId "b" } 10 [] (Sample.peerId "r")
        (relayed.announceSelf : Message Wire)
      = some ⟨some (Sample.peerId "a"),
        [⟨[.p2p (Sample.peerId "r"), .p2pCircuit, .p2p (Sample.peerId "a")]⟩], true⟩ :=
  announcement_dials_author readBack_relayed { localPeerId := Sample.peerId "b" } 10 [] _

end Sample

end Mintpool.Swarm
