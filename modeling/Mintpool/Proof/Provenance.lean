import Mintpool.Cluster
import Mintpool.Proof.Connections
import Mintpool.Proof.Deadlock
import Mintpool.Proof.Durable
import Mintpool.Proof.Propagation
import Mintpool.Proof.Submission
import Mintpool.Proof.Topics

/-!
# Where premints and claims come from

Nodes pass on what they are given: a premint goes from a table into an answer, from a message
into an event, from an event into another table. Nothing on the way makes one up. So for all
that is anywhere in a network of these nodes, there was a command at some node that brought it
in: a premint was submitted and accepted, a claim was resolved by a node that checks the chain
itself. And since only claims mark rows, or remove them, every mark and every row that is gone
has such a claim behind it.
-/

namespace Mintpool.Cluster

open Mintpool.Proof

variable {Text : Type}

/-! ## What is where -/

/-- What travels in the network. -/
inductive Item where
  | premint (p : PremintTypes)
  | claim (claim : InclusionClaim)

/-- The event brings it to the controller. -/
def EventCarries : P2PEvent → Item → Prop
  | .premintReceived p, .premint q => p = q
  | .syncResponse premints, .premint q => q ∈ premints
  | .mintSeenOnchain peerClaim, .claim claim => peerClaim.claim = claim
  | _, _ => False

/-- The command brings it to the swarm. -/
def CommandCarries : SwarmCommand → Item → Prop
  | .broadcast p, .premint q => p = q
  | .sendOnchainMintFound claim, .claim claim' => claim = claim'
  | _, _ => False

section Carries

variable [Codec Text]

/-- A subscriber reads it from the message. -/
def MessageCarries [Unicode] (message : Message Text) : Item → Prop
  | .premint p => message.topic ≠ announceTopic ∧ PremintTypes.fromJson message.data = .ok p
  | .claim claim => (∃ kind : PremintName, message.topic = kind.claimsTopic)
      ∧ Codec.claimFromJson message.data = .ok claim

def RowCarries (r : Row Text) : Item → Prop
  | .premint p => PremintTypes.fromJson r.json = .ok p
  | .claim _ => False

/-- It is at a node: in its table, or on the way between its two tasks. -/
inductive AtPeer (q : Peer Text) (x : Item) : Prop
  | row {r : Row Text} (hr : r ∈ q.controller.store.table.rows) (h : RowCarries r x)
  | event {e : SwarmEvent} (he : e ∈ q.events) (h : EventCarries e.event x)
  | command {command : SwarmCommand} (hc : command ∈ q.controller.swarmCommands)
      (h : CommandCarries command x)

/-- It is somewhere in the network. -/
inductive Somewhere [Unicode] (w : Cluster Text) (x : Item) : Prop
  | peer {n : PeerId} (h : AtPeer (w.peers n) x)
  | wire {e : Envelope Text} (he : e ∈ w.wire) (h : MessageCarries e.message x)
  | answer {a : SyncAnswer} (ha : a ∈ w.answers) (h : ∃ p ∈ a.premints, x = .premint p)

end Carries

/-! ## What brings it in -/

section Introduces

variable [Alloy] [Codec Text]

/-- A node is given a premint; its rules accept it at this moment, and its table takes it. -/
def Submits (p : PremintTypes) (w : Cluster Text) (i : Input Text) (w' : Cluster Text) : Prop :=
  ∃ n m, i = .command n m (.broadcast p) ∧ Inserts (w.peers n).controller m p
    ∧ (w'.peers n).controller.store = ((w.peers n).controller.store.store m.clock.secs p).2

/-- A node is given a claim. -/
def Resolves (claim : InclusionClaim) (n : PeerId) (i : Input Text) : Prop :=
  ∃ m, i = .command n m (.resolveOnchainMint claim)

def Introduces : Item → Cluster Text → Input Text → Cluster Text → Prop
  | .premint p, w, i, w' => Submits p w i w'
  | .claim claim, w, i, _ => ∃ n, Resolves claim n i
      ∧ (w.peers n).controller.config.chainInclusionMode = .check

end Introduces

/-! ## At a node -/

section Node

variable [Alloy] [Codec Text] {c c' : Controller Text} {m : Moment} {command : ControllerCommands}
  {reply : Reply} {result : Except Report Unit}

variable [Libp2p] {i : Controller.Input}

/-- **A premint in the table was there before, or the input brought it.** -/
theorem row_step [LawfulCodec Text] (h : Controller.Step c i c') {r' : Row Text}
    (hr' : r' ∈ c'.store.table.rows) {p : PremintTypes}
    (hp : PremintTypes.fromJson r'.json = .ok p) :
    (∃ r ∈ c.store.table.rows, PremintTypes.fromJson r.json = .ok p)
      ∨ ∃ now, Causes i (.store now p) := by
  obtain ⟨ws, hws, hst⟩ := storeStep_writes (stepped_step h).store
  rw [hst] at hr'
  rcases stored_of_lookup_writes (Lib.KeyedTable.mem_iff_lookup.mp hr') with
    ⟨r, hr, hjson⟩ | ⟨now, q, hq, _, hjson⟩
  · rw [hjson] at hp
    exact .inl ⟨r, (Lib.KeyedTable.lookup_some hr).1, hp⟩
  · rw [hjson, PremintTypes.fromJson_toJson] at hp
    cases hp
    exact .inr ⟨now, hws _ hq⟩

/-- A command leaves in the table what was there, or it submits it and the rules accept it. -/
theorem row_of_command [LawfulCodec Text]
    (h : c.handleCommand m command = .ret (reply, result, c')) {r' : Row Text}
    (hr' : r' ∈ c'.store.table.rows) {p : PremintTypes}
    (hp : PremintTypes.fromJson r'.json = .ok p) :
    (∃ r ∈ c.store.table.rows, PremintTypes.fromJson r.json = .ok p)
      ∨ command = .broadcast p ∧ Inserts c m p := by
  rcases row_step (.command m h) hr' hp with hrow | ⟨now, hcause⟩
  · exact .inl hrow
  · -- no other command stores anything
    cases command with
    | broadcast q =>
        obtain rfl : p = q := hcause
        obtain ⟨reply', c₁, hcall, hdone⟩ := broadcast_cases c m p
        rw [hcall] at h
        cases h
        cases hdone with
        | refused hnot => exact .inl ⟨r', hr', hp⟩
        | sent hins hopen => exact .inr ⟨rfl, hins⟩
        | unsent hins hclosed => exact .inr ⟨rfl, hins⟩
    | _ => exact hcause.elim

/-- What handling an event leaves in the table was there, or came with it. -/
theorem row_of_event [LawfulCodec Text] {event : P2PEvent}
    (h : Controller.HandleEvent c event (.ret c')) {x : Item} {r' : Row Text}
    (hr' : r' ∈ c'.store.table.rows) (hx : RowCarries r' x) :
    (∃ r ∈ c.store.table.rows, RowCarries r x) ∨ EventCarries event x := by
  cases x with
  | claim claim => exact hx.elim
  | premint p =>
      rcases row_step (.event h) hr' hx with hrow | ⟨now, hcause⟩
      · exact .inl hrow
      · cases event with
        | premintReceived q => exact .inr hcause.symm
        | syncResponse premints => exact .inr hcause
        | networkState => exact hcause.elim
        | mintSeenOnchain claim => exact hcause.elim
        | syncRequest query => exact hcause.elim

end Node

/-! ## In the network -/

section Network

variable [Alloy] [Codec Text] [Libp2p] [Unicode] {w w' : Cluster Text} {x : Item}

omit [Alloy] [Libp2p] in
/-- What is at a node that another has been put in the place of. -/
theorem somewhere_of_setPeer {n j : PeerId} {q : Peer Text}
    (hq : AtPeer q x → Somewhere w x) (h : AtPeer (w.setPeer n q j) x) : Somewhere w x := by
  by_cases hj : j = n
  · rw [setPeer, if_pos hj] at h
    exact hq h
  · rw [setPeer, if_neg hj] at h
    exact .peer h

omit [Alloy] in
/-- A message that is handled puts on the channel what it carries. -/
theorem event_of_message {names : List PremintName} {source : PeerId} {message : Message Text}
    {event : P2PEvent} (h : handleGossipsubEvent names source message = .ok (.send event))
    (hx : EventCarries event x) : MessageCarries message x := by
  unfold handleGossipsubEvent at h
  split at h
  · dsimp only at h
    split at h <;> cases h
  · rename_i htopic
    split at h
    · -- it is on a topic of claims, so it carries a claim
      rename_i hclaims
      obtain ⟨kind, _, hkind⟩ := List.mem_map.mp (List.contains_iff_mem.mp hclaims)
      split at h
      · cases h
      · rename_i claim hclaim
        cases h
        cases x with
        | premint p => exact hx.elim
        | claim claim' => exact ⟨⟨kind, hkind.symm⟩, by rw [hclaim]; exact congrArg _ hx⟩
    · -- on any other it carries a premint
      split at h
      · rename_i p hp
        cases h
        cases x with
        | premint p' => exact ⟨htopic, by rw [hp]; exact congrArg _ hx⟩
        | claim claim => exact hx.elim
      · cases h

omit [Alloy] in
/-- A peer that has received a message has what it had, and what the message carries. -/
theorem atPeer_receive {q q' : Peer Text} {source : PeerId} {message : Message Text}
    (h : q.receive source message = some q') (hx : AtPeer q' x) :
    AtPeer q x ∨ MessageCarries message x := by
  obtain ⟨seen, _, rfl⟩ := Option.map_eq_some_iff.mp h
  split at hx
  · cases hx with
    | row hr hx => rw [(handle_spec _ _ _).2.2.2] at hr; exact .inl (.row hr hx)
    | command hc hx => rw [(handle_spec _ _ _).2.2.2] at hc; exact .inl (.command hc hx)
    | event he hx =>
        -- the message may add one event, of what it carries
        unfold Peer.handle at he
        split at he
        · rename_i event hevent
          rcases List.mem_append.mp he with he | he
          · exact .inl (.event he hx)
          · rw [List.mem_singleton.mp he] at hx
            exact .inr (event_of_message hevent hx)
        · exact .inl (.event he hx)
  · -- a message on a topic that is not subscribed to changes nothing more
    cases hx with
    | row hr hx => exact .inl (.row hr hx)
    | event he hx => exact .inl (.event he hx)
    | command hc hx => exact .inl (.command hc hx)

variable [FromStr Text] [MultiaddrText] [LawfulCodec Text]

omit [Alloy] [Libp2p] [FromStr Text] [MultiaddrText] in
/-- **What a swarm publishes carries what the command for it carried.** -/
theorem command_of_message [FromStr Text] [MultiaddrText] {peerLimit : Nat} {swarm : Swarm}
    {chosen : Option PeerId} {command : SwarmCommand} {message : Message Text}
    (h : swarm.handleCommand peerLimit chosen command = .publish message)
    (hx : MessageCarries message x) : CommandCarries command x := by
  cases command with
  | connectToPeer address =>
      unfold Swarm.handleCommand at h
      dsimp only at h
      split at h
      · cases hdial : swarm.safeDial peerLimit _ with
        | none => rw [hdial] at h; cases h
        | some opts => rw [hdial] at h; cases h
      · cases h
  | returnNetworkState => cases h
  | returnNodeInfo => cases h
  | sync query => cases chosen <;> cases h
  | announceSelf =>
      -- an announcement is neither on a topic of claims nor outside that of announcements
      cases h
      cases x with
      | premint p => exact absurd rfl hx.1
      | claim claim =>
          obtain ⟨kind, hkind⟩ := hx.1
          exact absurd hkind.symm (claimsTopic_ne_announceTopic kind)
  | broadcast p =>
      -- what is read back from the message is what was encoded
      cases h
      cases x with
      | premint q =>
          have hq : PremintTypes.fromJson (p.toJson : Text) = .ok q := hx.2
          rw [PremintTypes.fromJson_toJson] at hq
          exact Except.ok.inj hq
      | claim claim =>
          obtain ⟨kind, hkind⟩ := hx.1
          have hnot := msgTopic_not_claims p.metadata.kind [kind]
          have hmem : (claimsTopicHashes [kind]).contains p.metadata.kind.msgTopic = true :=
            List.contains_iff_mem.mpr (List.mem_map.mpr ⟨kind, by simp, hkind.symm⟩)
          rw [hnot] at hmem
          cases hmem
  | sendOnchainMintFound claim =>
      -- a claim does not read as a premint
      cases h
      cases x with
      | premint q =>
          have hq : PremintTypes.fromJson (Codec.claimToJson claim : Text) = .ok q := hx.2
          obtain ⟨e, he⟩ : ∃ e, PremintTypes.fromJson (Codec.claimToJson claim : Text) = .error e :=
            PremintTypes.fromJson_claim claim
          rw [he] at hq
          cases hq
      | claim claim' =>
          have hc : Codec.claimFromJson (Codec.claimToJson claim : Text) = .ok claim' := hx.2
          rw [LawfulCodec.claim_roundtrip] at hc
          exact Except.ok.inj hc

omit [Alloy] [FromStr Text] [MultiaddrText] [LawfulCodec Text] in
/-- What a swarm does brings nothing into the network but what it publishes. -/
theorem somewhere_performed {n : PeerId} {neighbours : List PeerId} {action : Swarm.Action Text}
    (h : Somewhere (w.performed n neighbours action) x) :
    Somewhere w x ∨ ∃ message, action = .publish message ∧ MessageCarries message x := by
  cases action with
  | publish message =>
      unfold performed at h
      dsimp only at h
      split at h
      · exact .inl h
      · rename_i p hp
        obtain ⟨_, hcontroller, hevents⟩ := publish_same hp
        cases h with
        | peer h =>
            -- the peer that publishes keeps what it has, and the wire takes the message
            refine .inl (somewhere_of_setPeer (fun h => ?_) h)
            cases h with
            | row hr hx => rw [hcontroller] at hr; exact .peer (.row hr hx)
            | event he hx => rw [hevents] at he; exact .peer (.event he hx)
            | command hc hx => rw [hcontroller] at hc; exact .peer (.command hc hx)
        | wire he hx =>
            rcases List.mem_append.mp he with he | he
            · exact .inl (.wire he hx)
            · obtain ⟨receiver, _, rfl⟩ := List.mem_map.mp he
              exact .inr ⟨message, rfl, hx⟩
        | answer ha hx => exact .inl (.answer ha hx)
  | sendRequest peerId query =>
      cases h with
      | peer h => exact .inl (.peer h)
      | wire he hx => exact .inl (.wire he hx)
      | answer ha hx => exact .inl (.answer ha hx)
  | _ => exact .inl h

omit [Alloy] [Codec Text] [Libp2p] [Unicode] [FromStr Text] [MultiaddrText] [LawfulCodec Text] in
theorem setController_controller (w : Cluster Text) (n : PeerId) (c : Controller Text) :
    ((w.setController n c).peers n).controller = c :=
  congrArg Peer.controller (if_pos rfl)

omit [Alloy] [Codec Text] [Libp2p] [Unicode] [FromStr Text] [MultiaddrText] [LawfulCodec Text] in
theorem setController_of_ne {w : Cluster Text} {n j : PeerId} {c : Controller Text} (h : j ≠ n) :
    (w.setController n c).peers j = w.peers j := if_neg h

omit [FromStr Text] [MultiaddrText] in
/-- A command leaves at a node what was there, or brings it in. -/
theorem somewhere_command {n : PeerId} {m : Moment} {command : ControllerCommands} {reply : Reply}
    {result : Except Report Unit} {c : Controller Text}
    (hs : (w.peers n).controller.handleCommand m command = .ret (reply, result, c))
    (h : AtPeer { w.peers n with controller := c } x) :
    Somewhere w x ∨ Introduces x w (.command n m command) (w.setController n c) := by
  -- a premint comes in only if the rules accept it and the table takes it
  have hsubmits : ∀ {p}, command = .broadcast p → Inserts (w.peers n).controller m p →
      Introduces (.premint p) w (.command n m command) (w.setController n c) := by
    rintro p rfl hins
    exact ⟨n, m, rfl, hins, by rw [setController_controller, store_of_inserts hins hs]⟩
  cases h with
  | event he hx => exact .inl (.peer (.event he hx))
  | row hr hx =>
      cases x with
      | claim claim => exact hx.elim
      | premint p =>
          rcases row_of_command hs hr hx with ⟨r, hr, hp⟩ | ⟨hcommand, hins⟩
          · exact .inl (.peer (.row hr hp))
          · exact .inr (hsubmits hcommand hins)
  | @command other hc hx =>
      rcases mem_forwards (command_forwards hs) hc with hc | ⟨_, hfor⟩
      · exact .inl (.peer (.command hc hx))
      · -- of what is sent, only a broadcast and a found mint carry anything
        cases other with
        | broadcast q =>
            cases x with
            | premint p =>
                obtain rfl : q = p := hx
                exact .inr (hsubmits hfor.1 hfor.2)
            | claim claim => exact hx.elim
        | sendOnchainMintFound claim =>
            cases x with
            | premint p => exact hx.elim
            | claim claim' =>
                obtain rfl : claim = claim' := hx
                obtain ⟨rfl, hmode⟩ := hfor
                exact .inr ⟨n, ⟨m, rfl⟩, hmode⟩
        | _ => exact absurd hx (by cases x <;> exact id)

omit [FromStr Text] [MultiaddrText] in
/-- A tick brings nothing in. -/
theorem somewhere_syncTick {n : PeerId} {m : Moment} {c : Controller Text}
    (hs : (w.peers n).controller.requestSync m = .ret c)
    (h : AtPeer { w.peers n with controller := c } x) : Somewhere w x := by
  cases h with
  | event he hx => exact .peer (.event he hx)
  | row hr hx =>
      cases x with
      | claim claim => exact hx.elim
      | premint p =>
          rcases row_step (.syncTick m hs) hr hx with ⟨r, hr, hp⟩ | ⟨now, hcause⟩
          · exact .peer (.row hr hp)
          · exact hcause.elim
  | command hc hx =>
      obtain rfl := requestSync_sent hs
      rcases List.mem_append.mp hc with hc | hc
      · exact .peer (.command hc hx)
      · -- a sync carries no premint and no claim
        rw [List.mem_singleton.mp hc] at hx
        exact absurd hx (by cases x <;> exact id)

omit [Alloy] [Libp2p] [FromStr Text] [MultiaddrText] [LawfulCodec Text] in
/-- What is somewhere once a controller has been replaced. -/
theorem somewhere_setController {n : PeerId} {c : Controller Text} {Q : Prop}
    (hpeer : AtPeer { w.peers n with controller := c } x → Somewhere w x ∨ Q)
    (h : Somewhere (w.setController n c) x) : Somewhere w x ∨ Q := by
  cases h with
  | @peer j h =>
      change AtPeer (w.setPeer n _ j) x at h
      by_cases hj : j = n
      · rw [setPeer, if_pos hj] at h
        exact hpeer h
      · rw [setPeer, if_neg hj] at h
        exact .inl (.peer h)
  | wire he hx => exact .inl (.wire he hx)
  | answer ha hx => exact .inl (.answer ha hx)

/-- **A step leaves in the network what was there, or brings it in.** -/
theorem somewhere_step {i : Input Text} (hs : Step w i w') (h : Somewhere w' x) :
    Somewhere w x ∨ Introduces x w i w' := by
  cases hs with
  | command n m hs => exact somewhere_setController (somewhere_command hs) h
  | syncTick n m hs =>
      exact somewhere_setController (fun h => .inl (somewhere_syncTick hs h)) h
  | @takeEvent n taken rest c hnext hs =>
      -- an event is handled: what it carries is in the table now
      have hin : taken ∈ (w.peers n).events := by rw [hnext]; exact List.mem_cons_self
      cases h with
      | peer h =>
          refine .inl (somewhere_of_setPeer (fun h => ?_) h)
          cases h with
          | row hr hx =>
              rcases row_of_event hs hr hx with ⟨r, hr, hx⟩ | hx
              · exact .peer (.row hr hx)
              · exact .peer (.event hin hx)
          | event he hx =>
              exact .peer (.event (by rw [hnext]; exact List.mem_cons_of_mem _ he) hx)
          | command hc hx =>
              rw [(P2PServices.handleEvent_sends_nothing hs).1] at hc
              exact .peer (.command hc hx)
      | wire he hx => exact .inl (.wire he hx)
      | answer ha hx =>
          rcases List.mem_append.mp ha with ha | ha
          · exact .inl (.answer ha hx)
          · -- an answer is read from the rows of the node that gives it
            obtain ⟨p, hp, rfl⟩ := hx
            unfold answersTo at ha
            split at ha
            · rw [List.mem_singleton.mp ha] at hp
              obtain ⟨r, hr, hdecode⟩ := mem_decodeRows_iff.mp hp
              exact .inl (.peer (.row (List.mem_filter.mp hr).1 hdecode))
            · cases ha
  | @takeCommand n swarm chosen neighbours peerLimit command rest hswarm hchosen hnext =>
      -- a command for the swarm is carried out: what it carries is on the wire now
      have hbefore : Somewhere (w.setController n
          { (w.peers n).controller with swarmCommands := rest }) x → Somewhere w x := by
        intro h
        cases h with
        | peer h =>
            refine somewhere_of_setPeer (fun h => ?_) h
            cases h with
            | row hr hx => exact .peer (.row hr hx)
            | event he hx => exact .peer (.event he hx)
            | command hc hx =>
                exact .peer (.command (by rw [hnext]; exact List.mem_cons_of_mem _ hc) hx)
        | wire he hx => exact .wire he hx
        | answer ha hx => exact .answer ha hx
      rcases somewhere_performed h with h | ⟨message, hmessage, hx⟩
      · exact .inl (hbefore h)
      · have hin : command ∈ (w.peers n).controller.swarmCommands := by
          rw [hnext]; exact List.mem_cons_self
        exact .inl (.peer (.command hin (command_of_message hmessage hx)))
  | @arrive envelope neighbours q hwire hreceive =>
      -- a message arrives: what it carries is at the peer now, and goes on to its neighbours
      cases h with
      | peer h =>
          refine .inl (somewhere_of_setPeer (fun h => ?_) h)
          rcases atPeer_receive hreceive h with h | hx
          · exact .peer h
          · exact .wire hwire hx
      | wire he hx =>
          rcases List.mem_append.mp he with he | he
          · exact .inl (.wire he hx)
          · obtain ⟨receiver, _, rfl⟩ := List.mem_map.mp he
            exact .inl (.wire hwire hx)
      | answer ha hx => exact .inl (.answer ha hx)
  | requestArrives request hrequest =>
      -- a request carries nothing
      cases h with
      | peer h =>
          refine .inl (somewhere_of_setPeer (fun h => ?_) h)
          cases h with
          | row hr hx => exact .peer (.row hr hx)
          | command hc hx => exact .peer (.command hc hx)
          | event he hx =>
              rcases List.mem_append.mp he with he | he
              · exact .peer (.event he hx)
              · rw [List.mem_singleton.mp he] at hx
                exact absurd hx (by cases x <;> exact id)
      | wire he hx => exact .inl (.wire he hx)
      | answer ha hx => exact .inl (.answer ha hx)
  | answerArrives answer hanswer =>
      -- the premints of an answer are an event of the peer that asked
      cases h with
      | peer h =>
          refine .inl (somewhere_of_setPeer (fun h => ?_) h)
          cases h with
          | row hr hx => exact .peer (.row hr hx)
          | command hc hx => exact .peer (.command hc hx)
          | event he hx =>
              rcases List.mem_append.mp he with he | he
              · exact .peer (.event he hx)
              · rw [List.mem_singleton.mp he] at hx
                cases x with
                | premint p => exact .answer hanswer ⟨p, hx, rfl⟩
                | claim claim => exact hx.elim
      | wire he hx => exact .inl (.wire he hx)
      | answer ha hx => exact .inl (.answer (List.mem_of_mem_erase ha) hx)
  | expire n ids =>
      cases h with
      | peer h =>
          refine .inl (somewhere_of_setPeer (fun h => ?_) h)
          cases h with
          | row hr hx => exact .peer (.row hr hx)
          | event he hx => exact .peer (.event he hx)
          | command hc hx => exact .peer (.command hc hx)
      | wire he hx => exact .inl (.wire he hx)
      | answer ha hx => exact .inl (.answer ha hx)

omit [Alloy] [Libp2p] [FromStr Text] [MultiaddrText] [LawfulCodec Text] in
theorem nothing_at_start (config : PeerId → Config) (rules : PeerId → RulesEngine Text)
    (x : Item) : ¬ Somewhere (.new config rules) x := by
  intro h
  cases h with
  | peer h =>
      cases h with
      | row hr => cases hr
      | event he => cases he
      | command hc => cases hc
  | wire he => cases he
  | answer ha => cases ha

/-- **All that is anywhere in the network has been brought in.** -/
theorem introduced {config : PeerId → Config} {rules : PeerId → RulesEngine Text}
    {is : List (Input Text)} (hrun : Run (.new config rules) is w) (h : Somewhere w x) :
    Lib.Once Step (Introduces x) (.new config rules) is w := by
  refine Lib.Run.cause (nothing_at_start config rules) ?_ hrun h
  exact fun w i w' x hs h => somewhere_step hs h

/--
**Premints are not made up.** In a network of nodes that run this code, whatever is forwarded
or lost, however messages, requests and answers cross: a premint that is in a table, in a
message, in an answer or on its way between the two tasks of a node was submitted to some node,
whose rules accepted it and whose table took it.
-/
theorem premint_was_submitted {config : PeerId → Config} {rules : PeerId → RulesEngine Text}
    {is : List (Input Text)} {p : PremintTypes} (hrun : Run (.new config rules) is w)
    (h : Somewhere w (.premint p)) :
    Lib.Once Step (Submits p) (.new config rules) is w :=
  introduced hrun h

/-! ## Marks and rows that are gone -/

omit [Alloy] [Libp2p] [Unicode] [FromStr Text] [MultiaddrText] [LawfulCodec Text] in
/-- What a swarm does changes no controller. -/
theorem performed_controller [Libp2p] (w : Cluster Text) (n : PeerId) (neighbours : List PeerId)
    (action : Swarm.Action Text) (j : PeerId) :
    ((w.performed n neighbours action).peers j).controller = (w.peers j).controller := by
  cases action with
  | publish message =>
      unfold performed
      dsimp only
      split
      · rfl
      · rename_i p hp
        dsimp only
        by_cases hj : j = n
        · rw [setPeer, if_pos hj, (publish_same hp).2.1, hj]
        · rw [setPeer, if_neg hj]
  | _ => rfl

omit [LawfulCodec Text] in
/-- What a step writes to a node's table; a mark is for a claim that the node is given, or that
was in the network already. -/
theorem writes_step {i : Input Text} (hs : Step w i w') (n : PeerId) :
    ∃ ws : List Write,
      (w'.peers n).controller.store = ws.foldl write (w.peers n).controller.store
      ∧ ∀ claim, .markSeenOnChain claim ∈ ws →
        Resolves claim n i ∨ Somewhere w (.claim claim) := by
  have hsame : ∀ {q : Peer Text} {j : PeerId}, q.controller.store = (w.peers j).controller.store →
      ∃ ws : List Write, (w.setPeer j q n).controller.store
          = ws.foldl write (w.peers n).controller.store
        ∧ ∀ claim, .markSeenOnChain claim ∈ ws →
          Resolves claim n i ∨ Somewhere w (.claim claim) := by
    intro q j hq
    refine ⟨[], ?_, fun claim h => by cases h⟩
    by_cases hn : n = j
    · rw [setPeer, if_pos hn, hq, hn]; rfl
    · rw [setPeer, if_neg hn]; rfl
  have hnothing : ∃ ws : List Write,
      (w.peers n).controller.store = ws.foldl write (w.peers n).controller.store
      ∧ ∀ claim, .markSeenOnChain claim ∈ ws →
        Resolves claim n i ∨ Somewhere w (.claim claim) := ⟨[], rfl, fun claim h => by cases h⟩
  cases hs with
  | @command j m command reply result c hs =>
      by_cases hn : n = j
      · subst hn
        obtain ⟨ws, hws, hst⟩ := storeStep_writes (stepped_command hs).store
        rw [setController_controller]
        refine ⟨ws, hst, fun claim hclaim => .inl ?_⟩
        have hcause := hws _ hclaim
        -- only a claim's command makes a mark
        cases command with
        | resolveOnchainMint claim' => exact ⟨m, by rw [show claim = claim' from hcause]⟩
        | _ => exact hcause.elim
      · rw [setController_of_ne hn]
        exact hnothing
  | @syncTick j m c hs =>
      by_cases hn : n = j
      · subst hn
        obtain ⟨ws, hws, hst⟩ := storeStep_writes (stepped_requestSync .syncTick hs).store
        rw [setController_controller]
        exact ⟨ws, hst, fun claim hclaim => (hws _ hclaim).elim⟩
      · rw [setController_of_ne hn]
        exact hnothing
  | @takeEvent j taken rest c hnext hs =>
      -- an event makes a mark for the claim that it carries, which was in the network
      change ∃ ws : List Write, (w.setPeer j _ n).controller.store = _ ∧ _
      by_cases hn : n = j
      · subst hn
        obtain ⟨ws, hws, hst⟩ := storeStep_writes (stepped_event hs).store
        refine ⟨ws, by rw [setPeer, if_pos rfl]; exact hst, fun claim hclaim => .inr ?_⟩
        refine .peer (.event (e := taken) (by rw [hnext]; exact List.mem_cons_self) ?_)
        have hcause := hws _ hclaim
        cases hevent : taken.event with
        | mintSeenOnchain peerClaim => rw [hevent] at hcause; exact hcause.symm
        | _ => rw [hevent] at hcause; exact hcause.elim
      · rw [setPeer, if_neg hn]
        exact hnothing
  | @takeCommand j swarm chosen neighbours peerLimit command rest hswarm hchosen hnext =>
      -- the swarm writes to no table
      have hstore : (((w.setController j { (w.peers j).controller with swarmCommands := rest
          }).performed j neighbours (swarm.handleCommand peerLimit chosen command)).peers
            n).controller.store = (w.peers n).controller.store := by
        rw [performed_controller, setController]
        dsimp only
        by_cases hn : n = j
        · rw [setPeer, if_pos hn, hn]
        · rw [setPeer, if_neg hn]
      rw [hstore]
      exact hnothing
  | arrive envelope neighbours hwire hreceive =>
      exact hsame (congrArg _ (receive_same hreceive).2)
  | requestArrives request hrequest => exact hsame rfl
  | answerArrives answer hanswer => exact hsame rfl
  | expire j ids => exact hsame rfl

/-- The step is a claim's arrival from outside, at any node. -/
def ResolvedNow (claim : InclusionClaim) (_ : Cluster Text) (i : Input Text) (_ : Cluster Text) :
    Prop := ∃ n, Resolves claim n i

/-- **A claim in the network has been resolved by some node.** -/
theorem claim_was_resolved {config : PeerId → Config} {rules : PeerId → RulesEngine Text}
    {is : List (Input Text)} {claim : InclusionClaim} (hrun : Run (.new config rules) is w)
    (h : Somewhere w (.claim claim)) :
    Lib.Once Step (ResolvedNow claim) (.new config rules) is w :=
  (introduced hrun h).mono fun _ ⟨n, hn, _⟩ => ⟨n, hn⟩

omit [Libp2p] [Unicode] [FromStr Text] [MultiaddrText] [LawfulCodec Text] in
/-- A row that is marked was marked before, or is marked now by a claim that names it. -/
theorem seen_write {s : PremintStorage Text} {write' : Write} {r' : Row Text}
    (hr' : r' ∈ (write s write').table.rows) (hseen : r'.seenOnChain = true) :
    (∃ r ∈ s.table.rows, r.seenOnChain = true
        ∧ ∀ claim, PremintStorage.claimMatches claim r' = PremintStorage.claimMatches claim r)
      ∨ ∃ claim, write' = .markSeenOnChain claim ∧ PremintStorage.claimMatches claim r' = true := by
  have hl' := Lib.KeyedTable.mem_iff_lookup.mp hr'
  cases write' with
  | store now p =>
      -- a store leaves the mark as it is, and a new row has none
      refine .inl ?_
      by_cases hk : r'.key = premintKey p
      · rw [hk] at hl'
        rcases store_self_cases s now p with ⟨_, hnew⟩ | ⟨old, hold, _, hup⟩ | ⟨_, hsame⟩
        · rw [write, hnew] at hl'
          cases hl'
          cases hseen
        · rw [write, hup] at hl'
          cases hl'
          exact ⟨old, (Lib.KeyedTable.lookup_some hold).1, hseen, fun _ => rfl⟩
        · rw [write, hsame] at hr'
          exact ⟨r', hr', hseen, fun _ => rfl⟩
      · rw [write, lookup_store_of_ne hk] at hl'
        exact ⟨r', (Lib.KeyedTable.lookup_some hl').1, hseen, fun _ => rfl⟩
  | markSeenOnChain claim =>
      -- a mark is for the rows that the claim matches
      obtain ⟨r, hr, heq⟩ := lookup_of_lookup_mark hl'
      have hsame : ∀ claim, PremintStorage.claimMatches claim r'
          = PremintStorage.claimMatches claim r := by
        intro claim
        rcases heq with heq | heq
        · rw [heq]
        · rw [heq]; rfl
      cases hm : PremintStorage.claimMatches claim r with
      | true => exact .inr ⟨claim, rfl, (hsame claim).trans hm⟩
      | false =>
          rw [write, lookup_mark_of_not_matches (fun r₀ hr₀ => by
            rw [hr] at hr₀; cases hr₀; exact hm), hr] at hl'
          cases hl'
          exact .inl ⟨_, (Lib.KeyedTable.lookup_some hr).1, hseen, fun _ => rfl⟩

omit [Libp2p] [Unicode] [FromStr Text] [MultiaddrText] [LawfulCodec Text] in
theorem seen_writes {s : PremintStorage Text} {ws : List Write} {r' : Row Text}
    (hr' : r' ∈ (ws.foldl write s).table.rows) (hseen : r'.seenOnChain = true) :
    (∃ r ∈ s.table.rows, r.seenOnChain = true
        ∧ ∀ claim, PremintStorage.claimMatches claim r' = PremintStorage.claimMatches claim r)
      ∨ ∃ claim, .markSeenOnChain claim ∈ ws ∧ PremintStorage.claimMatches claim r' = true := by
  induction ws using List.reverseRecOn generalizing r' with
  | nil => exact .inl ⟨r', hr', hseen, fun _ => rfl⟩
  | append_singleton ws w ih =>
      rw [List.foldl_append, List.foldl_cons, List.foldl_nil] at hr'
      rcases seen_write hr' hseen with ⟨r₁, hr₁, hseen₁, hsame₁⟩ | ⟨claim, rfl, hm⟩
      · rcases ih hr₁ hseen₁ with ⟨r, hr, hseen, hsame⟩ | ⟨claim, hclaim, hm⟩
        · exact .inl ⟨r, hr, hseen, fun claim => (hsame₁ claim).trans (hsame claim)⟩
        · exact .inr ⟨claim, List.mem_append_left _ hclaim, (hsame₁ claim).trans hm⟩
      · exact .inr ⟨claim, by simp, hm⟩

/-- A marked row has a claim behind it that some node resolved. -/
theorem marked_was_resolved {config : PeerId → Config} {rules : PeerId → RulesEngine Text}
    {is : List (Input Text)} (hrun : Run (.new config rules) is w) {n : PeerId} {r : Row Text}
    (hr : r ∈ (w.peers n).controller.store.table.rows) (hseen : r.seenOnChain = true) :
    ∃ claim, PremintStorage.claimMatches claim r = true
      ∧ Lib.Once Step (ResolvedNow claim) (.new config rules) is w := by
  induction hrun generalizing r with
  | nil => cases hr
  | snoc hrun hs ih =>
      obtain ⟨ws, hst, hmarks⟩ := writes_step hs n
      rw [hst] at hr
      rcases seen_writes hr hseen with ⟨r₀, hr₀, hseen₀, hsame⟩ | ⟨claim, hclaim, hm⟩
      · -- it was marked before this step
        obtain ⟨claim, hm, honce⟩ := ih hr₀ hseen₀
        exact ⟨claim, (hsame claim).trans hm, honce.trans (.snoc .nil hs)⟩
      · -- it is marked now, by a claim that the node is given or that the network had
        refine ⟨claim, hm, ?_⟩
        rcases hmarks claim hclaim with hnow | hthere
        · exact .last hrun hs ⟨n, hnow⟩
        · exact (claim_was_resolved hrun hthere).trans (.snoc .nil hs)

/-- A row is kept, or a claim for it was resolved by some node. -/
theorem row_kept_or_resolved {config : PeerId → Config} {rules : PeerId → RulesEngine Text}
    {is js : List (Input Text)} (hrun : Run (.new config rules) is w) (hrun' : Run w js w')
    {n : PeerId} {k : String × String} {r : Row Text}
    (h : (w.peers n).controller.store.table.lookup k = some r) :
    (∃ r', (w'.peers n).controller.store.table.lookup k = some r' ∧ Outlives r r')
      ∨ ∃ claim, PremintStorage.claimMatches claim r = true
        ∧ Lib.Once Step (ResolvedNow claim) (.new config rules) (is ++ js) w' := by
  induction hrun' with
  | nil => exact .inl ⟨r, h, .refl r⟩
  | @snoc js w₁ w₂ i hrun' hs ih =>
      have hstep : Lib.Run Step w₁ [i] w₂ := .single hs
      rw [← List.append_assoc]
      rcases ih with ⟨r₁, hr₁, hout⟩ | ⟨claim, hm, honce⟩
      · obtain ⟨ws, hst, hmarks⟩ := writes_step hs n
        rw [hst]
        rcases outlives_writes ws hr₁ with ⟨r', hr', hout'⟩ | ⟨w₀, hw₀, hprunes⟩
        · exact .inl ⟨r', hr', hout.trans hout'⟩
        · cases w₀ with
          | store now p => exact hprunes.elim
          | markSeenOnChain claim =>
              -- the row is gone now, and only a claim can do that
              refine .inr ⟨claim, (hout.claimMatches_eq claim).symm.trans hprunes.2, ?_⟩
              rcases hmarks claim hw₀ with hnow | hthere
              · exact .last (hrun.trans hrun') hs ⟨n, hnow⟩
              · exact (claim_was_resolved (hrun.trans hrun') hthere).trans hstep
      · exact .inr ⟨claim, hm, honce.trans hstep⟩

/--
**Nothing is marked or removed without a claim.** In a network of nodes that run this code,
whatever modes they are in and whomever they trust: a row that is marked at some node, and a row
that was at some node and no longer is, has a claim that names it and that some node was given.
No gossip and no sync response is enough.
-/
theorem marks_were_resolved {config : PeerId → Config} {rules : PeerId → RulesEngine Text}
    {is js : List (Input Text)} (hrun : Run (.new config rules) is w) (hrun' : Run w js w')
    (n : PeerId) :
    (∀ r ∈ (w.peers n).controller.store.table.rows, r.seenOnChain = true →
        ∃ claim, PremintStorage.claimMatches claim r = true
          ∧ Lib.Once Step (ResolvedNow claim) (.new config rules) is w)
      ∧ ∀ k r, (w.peers n).controller.store.table.lookup k = some r →
        (w'.peers n).controller.store.table.lookup k = none →
        ∃ claim, PremintStorage.claimMatches claim r = true
          ∧ Lib.Once Step (ResolvedNow claim) (.new config rules) (is ++ js) w' := by
  refine ⟨fun r hr hseen => marked_was_resolved hrun hr hseen, fun k r h hgone => ?_⟩
  rcases row_kept_or_resolved hrun hrun' h with ⟨r', hr', _⟩ | hresolved
  · rw [hgone] at hr'
    cases hr'
  · exact hresolved

end Network

/-! ## A premint that is minted -/

section Example

open Sample

attribute [local instance] Sample.alloy Sample.unicode Swarm.relayText Swarm.relayLibp2p

/-- A message that is new to a subscriber goes on to its controller. -/
theorem receive_sent {q : Peer Wire} {source : PeerId} {message : Message Wire} {event : P2PEvent}
    (hunseen : gossipsubMessageId message ∉ q.seen)
    (htopic : (subscriptions q.premintNames).contains message.topic = true)
    (hread : handleGossipsubEvent q.premintNames source message = .ok (.send event)) :
    ∃ q', q.receive source message = some q' ∧ q'.controller = q.controller
      ∧ q'.seen = gossipsubMessageId message :: q.seen
      ∧ q'.events = q.events ++ [⟨event, message.source⟩] := by
  obtain ⟨_, hseen, _, hcontroller⟩ := handle_spec
    ({ q with seen := gossipsubMessageId message :: q.seen } : Peer Wire) source message
  exact ⟨_, receive_of_unseen source hunseen htopic, hcontroller, hseen, handle_events hread⟩

/-- What `a` publishes reaches the controller of `b`, and `b` acts on it. -/
theorem message_travels {w : Cluster Wire} {command : SwarmCommand} {message : Message Wire}
    {event : P2PEvent} {c : Controller Wire} {a b : PeerId} (hab : a ≠ b)
    (hsent : (w.peers a).controller.swarmCommands = [command])
    (hpublish : ({ localPeerId := a } : Swarm).handleCommand 10 none command = .publish message)
    (hunseen : gossipsubMessageId message ∉ (w.peers a).seen)
    (hunseen' : gossipsubMessageId message ∉ (w.peers b).seen)
    (htopic : (subscriptions (w.peers b).premintNames).contains message.topic = true)
    (hread : handleGossipsubEvent (w.peers b).premintNames a message = .ok (.send event))
    (hevents : (w.peers b).events = [])
    (hact : Controller.HandleEvent (w.peers b).controller event (.ret c)) :
    ∃ w', Run w [.takeCommand a { localPeerId := a } none [b], .arrive ⟨a, b, message⟩ [],
        .takeEvent b] w'
      ∧ (w'.peers b).controller = c ∧ (w'.peers b).events = []
      ∧ (w'.peers b).seen = gossipsubMessageId message :: (w.peers b).seen
      ∧ (w'.peers a).controller = { (w.peers a).controller with swarmCommands := [] }
      ∧ (w'.peers a).seen = gossipsubMessageId message :: (w.peers a).seen := by
  -- `a` publishes it
  obtain ⟨w₁, h1, hb1, hc1, hs1, hwire⟩ : ∃ w₁,
      Step w (.takeCommand a { localPeerId := a } none [b]) w₁ ∧ w₁.peers b = w.peers b
      ∧ (w₁.peers a).controller = { (w.peers a).controller with swarmCommands := [] }
      ∧ (w₁.peers a).seen = gossipsubMessageId message :: (w.peers a).seen
      ∧ ⟨a, b, message⟩ ∈ w₁.wire := by
    refine ⟨_, .takeCommand a { localPeerId := a } none [b] 10 rfl rfl hsent, ?_⟩
    have hself : (w.setController a { (w.peers a).controller with swarmCommands := [] }).peers a
        = { w.peers a with
            controller := { (w.peers a).controller with swarmCommands := [] } } := if_pos rfl
    have hpub := publish_of_unseen (p := { w.peers a with
      controller := { (w.peers a).controller with swarmCommands := [] } }) hunseen
    rw [← hself] at hpub
    rw [hpublish]
    simp only [performed, hpub]
    refine ⟨?_, ?_, ?_, List.mem_append_right _ List.mem_cons_self⟩
    · exact (if_neg hab.symm).trans (if_neg hab.symm)
    · exact (congrArg Peer.controller (if_pos rfl)).trans (congrArg Peer.controller hself)
    · exact (congrArg Peer.seen (if_pos rfl)).trans (by rw [hself])
  -- it arrives at `b`
  obtain ⟨w₂, h2, ha2, hc2, hs2, he2⟩ : ∃ w₂, Step w₁ (.arrive ⟨a, b, message⟩ []) w₂
      ∧ w₂.peers a = w₁.peers a ∧ (w₂.peers b).controller = (w.peers b).controller
      ∧ (w₂.peers b).seen = gossipsubMessageId message :: (w.peers b).seen
      ∧ (w₂.peers b).events = [⟨event, message.source⟩] := by
    rw [← hb1] at hunseen' htopic hread hevents ⊢
    obtain ⟨q, hreceive, hcontroller, hseen, hto⟩ := receive_sent hunseen' htopic hread
    refine ⟨_, .arrive _ [] hwire hreceive, if_neg hab, ?_, ?_, ?_⟩
    · exact (congrArg Peer.controller (if_pos rfl)).trans hcontroller
    · exact (congrArg Peer.seen (if_pos rfl)).trans hseen
    · exact (congrArg Peer.events (if_pos rfl)).trans (by rw [hto, hevents, List.nil_append])
  -- and is acted on
  rw [← hc2] at hact
  refine ⟨_, .snoc (.snoc (.snoc .nil h1) h2) (.takeEvent b he2 hact), ?_, ?_, ?_, ?_, ?_⟩
  · exact congrArg Peer.controller (if_pos rfl)
  · exact congrArg Peer.events (if_pos rfl)
  · exact (congrArg Peer.seen (if_pos rfl)).trans hs2
  · exact (congrArg Peer.controller (if_neg hab)).trans ((congrArg Peer.controller ha2).trans hc1)
  · exact (congrArg Peer.seen (if_neg hab)).trans ((congrArg Peer.seen ha2).trans hs1)

/-- `a` checks the chain itself, and `b` trusts `a`. -/
def trustingConfig (n : PeerId) : Config :=
  if n = peerId "a" then { chainInclusionMode := .check }
  else { chainInclusionMode := .trust, trustedPeerList := some "a" }

/-- Two such nodes without RPC. -/
def trustingNodes : Cluster Wire := .new trustingConfig (fun _ => offlineRules)

def validMessage : Message Wire := broadcastMessage (peerId "a") (.zoraV2 validPremint)

/-- `a` is given the premint, and it travels to `b`. -/
def submission : List (Input Wire) :=
  [.command (peerId "a") offline (.broadcast (.zoraV2 validPremint)),
    .takeCommand (peerId "a") { localPeerId := peerId "a" } none [peerId "b"],
    .arrive ⟨peerId "a", peerId "b", validMessage⟩ [], .takeEvent (peerId "b")]

def validClaim : InclusionClaim :=
  ⟨validPremint.metadata.id, 7777777, 0, 0, "zora_premint_v2"⟩

def validNotice : Message Wire := broadcastClaim (peerId "a") validClaim

/-- `a` is given the claim that it is minted, and that travels to `b`. -/
def resolution : List (Input Wire) :=
  [.command (peerId "a") offline (.resolveOnchainMint validClaim),
    .takeCommand (peerId "a") { localPeerId := peerId "a" } none [peerId "b"],
    .arrive ⟨peerId "a", peerId "b", validNotice⟩ [], .takeEvent (peerId "b")]

/-- The row of the premint at `b`. -/
def validRow (w : Cluster Wire) : Option (Row Wire) :=
  (w.peers (peerId "b")).controller.store.table.lookup (premintKey (.zoraV2 validPremint))

/-- A node that has stored the premint and has nothing to do. -/
def storingNode (n : PeerId) : Controller Wire :=
  { Controller.new (trustingConfig n) offlineRules with
    store := ((.new true : PremintStorage Wire).store 0 (.zoraV2 validPremint)).2 }

/-- Both nodes accept it. -/
theorem inserts_validPremint (n : PeerId) :
    Inserts (.new (trustingConfig n) offlineRules : Controller Wire) offline
      (.zoraV2 validPremint) := by
  have hstore : (.new (trustingConfig n) offlineRules : Controller Wire).store = .new true := by
    unfold trustingConfig
    split <;> rfl
  obtain ⟨evaluation, hev, hacc⟩ := accepts_of_decide (p := .zoraV2 validPremint)
    (s := .new true) (by decide +kernel)
  refine ⟨evaluation, ?_, hacc, ?_⟩
  · rw [hstore]
    exact hev
  · rw [hstore]
    decide +kernel

theorem store_validPremint (n : PeerId) :
    { Controller.new (trustingConfig n) offlineRules with
      store := ((Controller.new (trustingConfig n) offlineRules : Controller Wire).store.store 0
        (.zoraV2 validPremint)).2 } = storingNode n := by
  have hstore : (.new (trustingConfig n) offlineRules : Controller Wire).store = .new true := by
    unfold trustingConfig
    split <;> rfl
  rw [hstore, storingNode]

theorem premintNames_trusting (n : PeerId) :
    (trustingConfig n).premintNames = [⟨"zora_premint_v2"⟩] := by
  unfold trustingConfig
  split <;> decide

theorem topic_validMessage (n : PeerId) :
    (subscriptions (trustingConfig n).premintNames).contains validMessage.topic = true := by
  rw [premintNames_trusting]
  decide

/-- Both nodes have stored the premint once it has travelled. -/
theorem submission_run : ∃ w, Run trustingNodes submission w
    ∧ (w.peers (peerId "a")).controller = storingNode (peerId "a")
    ∧ (w.peers (peerId "a")).seen = [validPremint.metadata.id]
    ∧ (w.peers (peerId "b")).controller = storingNode (peerId "b")
    ∧ (w.peers (peerId "b")).seen = [validPremint.metadata.id]
    ∧ (w.peers (peerId "b")).events = [] := by
  have hid : gossipsubMessageId validMessage = validPremint.metadata.id :=
    gossipsubMessageId_premint _ _
  -- `a` stores it
  obtain ⟨reply, c, hcall, hdone⟩ := broadcast_cases
    (.new (trustingConfig (peerId "a")) offlineRules : Controller Wire) offline
    (.zoraV2 validPremint)
  have hc : c = { storingNode (peerId "a") with
      swarmCommands := [.broadcast (.zoraV2 validPremint)] } := by
    rw [← store_validPremint]
    cases hdone with
    | refused hnot => exact absurd (inserts_validPremint _) hnot
    | sent => rfl
    | unsent _ hclosed => cases hclosed
  have h1 : Step trustingNodes
      (.command (peerId "a") offline (.broadcast (.zoraV2 validPremint)))
      (trustingNodes.setController (peerId "a") c) := .command _ _ hcall
  have ha : ((trustingNodes.setController (peerId "a") c).peers (peerId "a")).controller = c :=
    setController_controller _ _ _
  have hb : (trustingNodes.setController (peerId "a") c).peers (peerId "b")
      = trustingNodes.peers (peerId "b") := setController_of_ne (by decide)
  -- and so does `b`
  have hact : Controller.HandleEvent ((trustingNodes.setController (peerId "a") c).peers
      (peerId "b")).controller (.premintReceived (.zoraV2 validPremint))
      (.ret (storingNode (peerId "b"))) := by
    obtain ⟨evaluation, hev, hacc, href⟩ := inserts_validPremint (peerId "b")
    have hins := Controller.HandleEvent.premintReceived
      (c := .new (trustingConfig (peerId "b")) offlineRules) offline (.zoraV2 validPremint)
    rw [validateAndInsert_of_admits ⟨⟨evaluation, hev, hacc⟩, href⟩] at hins
    rw [hb, ← store_validPremint]
    exact hins
  obtain ⟨w, hrun, hcontroller, hevents, hseen, hcontroller', hseen'⟩ :=
    message_travels (b := peerId "b") (by decide) (by rw [ha, hc])
      (show ({ localPeerId := peerId "a" } : Swarm).handleCommand 10 none _ = .publish validMessage
        from rfl) List.not_mem_nil (by rw [hb]; exact List.not_mem_nil)
      (by rw [hb]; exact topic_validMessage _) (handleGossipsubEvent_premint _ _ _ _)
      (by rw [hb]; rfl) hact
  rw [hid] at hseen hseen'
  refine ⟨w, (Lib.Run.single h1).trans hrun, ?_, hseen', hcontroller, ?_, hevents⟩
  · rw [hcontroller', ha, hc]
    rfl
  · rw [hseen, hb]
    rfl

/-- A node that acts on the claim. -/
def resolvingNode (n : PeerId) : Controller Wire :=
  { storingNode n with store := (storingNode n).store.markSeenOnChain validClaim }

theorem resolves_validClaim : (storingNode (peerId "a")).handleCommand offline
      (.resolveOnchainMint validClaim)
    = .ret (.none, .ok (), { resolvingNode (peerId "a") with
        swarmCommands := [.sendOnchainMintFound validClaim] }) := by
  unfold Controller.handleCommand
  dsimp only
  rw [if_pos (show (storingNode (peerId "a")).config.chainInclusionMode = .check by decide),
    sendSwarm_of_open rfl]
  rfl

/-- `b` trusts `a`. -/
theorem acts_on_validClaim : Controller.HandleEvent (storingNode (peerId "b"))
    (.mintSeenOnchain ⟨validClaim, peerId "a"⟩) (.ret (resolvingNode (peerId "b"))) := by
  have hact : (storingNode (peerId "b")).handleEventOnchainClaim offline
      ⟨validClaim, peerId "a"⟩ = .ret (.ok (), resolvingNode (peerId "b")) := by
    rw [handleEventOnchainClaim_of_trust offline _ (by decide), if_pos (by decide), resolvingNode]
  exact .mintSeenOnchain offline _ hact

/-- And the row is gone once the claim has travelled. -/
theorem resolution_run : ∃ w w', Run trustingNodes submission w
    ∧ validRow w = some (PremintStorage.newRow 0 (.zoraV2 validPremint))
    ∧ Run w resolution w' ∧ validRow w' = none := by
  obtain ⟨w, hrun, hc, hseen, hc', hseen', hevents⟩ := submission_run
  have hrow : (storingNode (peerId "b")).store.table.lookup (premintKey (.zoraV2 validPremint))
      = some (PremintStorage.newRow 0 (.zoraV2 validPremint)) := lookup_store_of_none 0 rfl
  have hid : gossipsubMessageId validNotice = "likely_spam" := gossipsubMessageId_claim _ _
  have hfresh : gossipsubMessageId validNotice ∉ [validPremint.metadata.id] := by
    rw [hid]
    decide
  -- `a` acts on it
  obtain ⟨w₁, h1, hc1, hseen1, hb1⟩ : ∃ w₁,
      Step w (.command (peerId "a") offline (.resolveOnchainMint validClaim)) w₁
      ∧ (w₁.peers (peerId "a")).controller = { resolvingNode (peerId "a") with
          swarmCommands := [.sendOnchainMintFound validClaim] }
      ∧ (w₁.peers (peerId "a")).seen = [validPremint.metadata.id]
      ∧ w₁.peers (peerId "b") = w.peers (peerId "b") := by
    have hcommand := resolves_validClaim
    rw [← hc] at hcommand
    exact ⟨_, .command _ _ hcommand, setController_controller _ _ _,
      (congrArg Peer.seen (if_pos rfl)).trans hseen, setController_of_ne (by decide)⟩
  -- and so does `b`
  have hact := acts_on_validClaim
  have hsub : (PremintName.mk validClaim.kind).claimsTopic
      ∈ claimsTopicHashes (w₁.peers (peerId "b")).premintNames := by
    have hnames : (w₁.peers (peerId "b")).premintNames = [⟨"zora_premint_v2"⟩] := by
      rw [Peer.premintNames, hb1, hc']
      exact premintNames_trusting _
    rw [hnames]
    decide
  rw [← hc', ← hb1] at hact
  obtain ⟨w', hrun', hcontroller, _⟩ :=
    message_travels (by decide) (by rw [hc1])
      (show ({ localPeerId := peerId "a" } : Swarm).handleCommand 10 none _ = .publish validNotice
        from rfl)
      (by rw [hseen1]; exact hfresh) (by rw [hb1, hseen']; exact hfresh)
      (List.contains_iff_mem.mpr (claimsTopic_mem_subscriptions hsub))
      (handleGossipsubEvent_claim _ _ hsub) (by rw [hb1, hevents]) hact
  refine ⟨w, w', hrun, ?_, (Lib.Run.single h1).trans hrun', ?_⟩
  · rw [validRow, hc', hrow]
  · have hprune : (storingNode (peerId "b")).store.pruneMintedPremints = true :=
      write_prune (.new true) (.store 0 (.zoraV2 validPremint))
    rw [validRow, hcontroller, resolvingNode,
      lookup_mark_of_matches hrow (by decide +kernel), hprune]
    rfl

/-- **What `b` has was submitted, and accepted by `a`.** -/
theorem validPremint_submitted : ∃ w, Run trustingNodes submission w
    ∧ validRow w = some (PremintStorage.newRow 0 (.zoraV2 validPremint))
    ∧ Lib.Once Step (Submits (.zoraV2 validPremint)) trustingNodes submission w := by
  obtain ⟨w, _, hrun, hrow, _⟩ := resolution_run
  exact ⟨w, hrun, hrow, premint_was_submitted hrun
    (.peer (.row (Lib.KeyedTable.lookup_some hrow).1 (PremintTypes.fromJson_toJson _)))⟩

/-- **And it is gone from there because of a claim.** -/
theorem validPremint_resolved : ∃ w' claim,
    Run trustingNodes (submission ++ resolution) w' ∧ validRow w' = none
      ∧ PremintStorage.claimMatches claim
        (PremintStorage.newRow 0 (.zoraV2 validPremint) : Row Wire) = true
      ∧ Lib.Once Step (ResolvedNow claim) trustingNodes (submission ++ resolution) w' := by
  obtain ⟨w, w', hrun, hrow, hrun', hgone⟩ := resolution_run
  obtain ⟨claim, hm, honce⟩ :=
    (marks_were_resolved hrun hrun' (peerId "b")).2 _ _ hrow hgone
  exact ⟨w', claim, hrun.trans hrun', hgone, hm, honce⟩

end Example

end Mintpool.Cluster
