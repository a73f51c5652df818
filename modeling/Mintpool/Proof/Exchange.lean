import Mintpool.Proof.Provenance
import Mintpool.Proof.Response

/-!
# From a request to what becomes of its answer

A node that catches up draws one of its neighbours and asks it for premints, and the neighbour
answers from its table. Both of them have two tasks with a channel between them, and there is
the network: the request goes through five hands before its answer is handled, and meanwhile
both nodes go on with everything else.

`Traffic` says once what a step does with the requests and answers. From it comes that an answer
was given to a question that was asked, in that order, and that no question is answered twice.
-/

namespace Mintpool

deriving instance DecidableEq for SwarmEvent

/-- How it reaches the controller that is asked. -/
def SyncRequest.event (request : SyncRequest) : SwarmEvent :=
  ⟨.syncRequest request.query, request.requester⟩

/-- And how the answer reaches the one that has asked. -/
def SyncAnswer.event (answer : SyncAnswer) : SwarmEvent :=
  ⟨.syncResponse answer.premints, answer.responder⟩

theorem SyncRequest.eq_of_event {r s : SyncRequest} (hresponder : r.responder = s.responder)
    (hevent : r.event = s.event) : r = s := by
  cases r; cases s; cases hresponder; cases hevent; rfl

theorem SyncAnswer.eq_of_event {a b : SyncAnswer} (hrequester : a.requester = b.requester)
    (hevent : a.event = b.event) : a = b := by
  cases a; cases b; cases hrequester; cases hevent; rfl

namespace Cluster

open Mintpool.Proof

variable {Text : Type}

/-! ## What is asked and answered -/

/-- What a step does about a request or an answer. -/
inductive Exchange where
  /-- The swarm of a node sends a request. -/
  | asked (request : SyncRequest)
  /-- The controller of another takes it, and this is what its table holds. -/
  | answered (request : SyncRequest) (premints : List PremintTypes)
  /-- The controller of the first takes the answer. -/
  | handled (answer : SyncAnswer)
  deriving DecidableEq

section Exchanged

variable [Alloy] [Codec Text]

/-- What this step does about requests and answers. -/
def exchanged (w : Cluster Text) : Input Text → List Exchange
  | .takeCommand n _ (some peerId) _ =>
      match (w.peers n).controller.swarmCommands with
      | .sync query :: _ => [.asked ⟨n, peerId, query⟩]
      | _ => []
  | .takeEvent n =>
      match (w.peers n).events with
      | ⟨.syncRequest query, author⟩ :: _ =>
          [.answered ⟨author, n, query⟩ ((w.peers n).controller.answerSyncRequest query)]
      | ⟨.syncResponse premints, author⟩ :: _ => [.handled ⟨author, n, premints⟩]
      | _ => []
  | _ => []

theorem asked_cases {w : Cluster Text} {i : Input Text} {request : SyncRequest}
    (h : .asked request ∈ w.exchanged i) :
    ∃ rest, (w.peers request.requester).controller.swarmCommands = .sync request.query :: rest := by
  unfold exchanged at h
  split at h
  · split at h
    · rename_i rest hcommands
      cases List.mem_singleton.mp h
      exact ⟨rest, hcommands⟩
    · cases h
  · split at h
    · cases List.mem_singleton.mp h
    · cases List.mem_singleton.mp h
    · cases h
  · cases h

theorem answered_cases {w : Cluster Text} {i : Input Text} {request : SyncRequest}
    {premints : List PremintTypes} (h : .answered request premints ∈ w.exchanged i) :
    (∃ rest, (w.peers request.responder).events = request.event :: rest)
      ∧ premints = (w.peers request.responder).controller.answerSyncRequest request.query := by
  unfold exchanged at h
  split at h
  · split at h
    · cases List.mem_singleton.mp h
    · cases h
  · split at h
    · rename_i rest hevents
      cases List.mem_singleton.mp h
      exact ⟨⟨rest, hevents⟩, rfl⟩
    · cases List.mem_singleton.mp h
    · cases h
  · cases h

theorem handled_cases {w : Cluster Text} {i : Input Text} {answer : SyncAnswer}
    (h : .handled answer ∈ w.exchanged i) : i = .takeEvent answer.requester
      ∧ ∃ rest, (w.peers answer.requester).events = answer.event :: rest := by
  unfold exchanged at h
  split at h
  · split at h
    · cases List.mem_singleton.mp h
    · cases h
  · split at h
    · cases List.mem_singleton.mp h
    · rename_i rest hevents
      cases List.mem_singleton.mp h
      exact ⟨rfl, rest, hevents⟩
    · cases h
  · cases h

/-- A step does this. -/
def Does (exchange : Exchange) (w : Cluster Text) (i : Input Text) (_ : Cluster Text) : Prop :=
  exchange ∈ w.exchanged i

/-- The controller of the node is told to sync, or its ticker ticks, and it has its swarm send
this query: it asks for what is not older, at this moment, than its configuration says. -/
def Asks (n : PeerId) (query : QueryOptions) (w : Cluster Text) (i : Input Text)
    (w' : Cluster Text) : Prop :=
  ∃ m, (i = .command n m .sync ∨ i = .syncTick n m)
    ∧ query = syncQuery (w.peers n).controller m
    ∧ (w'.peers n).controller.swarmCommands
      = (w.peers n).controller.swarmCommands ++ [.sync query]

end Exchanged

/-- The event is a request of another node, or an answer. -/
def isExchange (e : SwarmEvent) : Bool :=
  match e.event with
  | .syncRequest _ | .syncResponse _ => true
  | _ => false

/-- The requests and answers that wait for the controller of a node. -/
def waiting (w : Cluster Text) (n : PeerId) : List SwarmEvent :=
  (w.peers n).events.filter isExchange

section Traffic

variable [Alloy] [Codec Text]

/-- **What a step does with the requests and answers of the network.** -/
inductive Traffic (w : Cluster Text) (i : Input Text) (w' : Cluster Text) : Prop
  | nothing (hdoes : w.exchanged i = []) (hrequests : w'.requests = w.requests)
      (hanswers : w'.answers = w.answers) (hwaiting : ∀ j, w'.waiting j = w.waiting j)
  | asked (request : SyncRequest) (hdoes : w.exchanged i = [.asked request])
      (hrequests : w'.requests = w.requests ++ [request])
      (hanswers : w'.answers = w.answers) (hwaiting : ∀ j, w'.waiting j = w.waiting j)
  | requestArrives (request : SyncRequest) (hdoes : w.exchanged i = [])
      (hmem : request ∈ w.requests) (hrequests : w'.requests = w.requests.erase request)
      (hanswers : w'.answers = w.answers)
      (hwaiting : ∀ j, w'.waiting j
        = w.waiting j ++ if j = request.responder then [request.event] else [])
  | answered (request : SyncRequest) (premints : List PremintTypes)
      (hdoes : w.exchanged i = [.answered request premints])
      (hrequests : w'.requests = w.requests)
      (hanswers : w'.answers = w.answers ++ [⟨request.responder, request.requester, premints⟩])
      (hwaiting : ∀ j, w.waiting j
        = (if j = request.responder then [request.event] else []) ++ w'.waiting j)
  | answerArrives (answer : SyncAnswer) (hdoes : w.exchanged i = [])
      (hmem : answer ∈ w.answers) (hrequests : w'.requests = w.requests)
      (hanswers : w'.answers = w.answers.erase answer)
      (hwaiting : ∀ j, w'.waiting j
        = w.waiting j ++ if j = answer.requester then [answer.event] else [])
  | handled (answer : SyncAnswer) (hdoes : w.exchanged i = [.handled answer])
      (hrequests : w'.requests = w.requests) (hanswers : w'.answers = w.answers)
      (hwaiting : ∀ j, w.waiting j
        = (if j = answer.requester then [answer.event] else []) ++ w'.waiting j)

omit [Alloy] [Codec Text] in
/-- A node that is put in the place of another, with the same requests and answers waiting. -/
theorem waiting_of_setPeer {w w' : Cluster Text} {n : PeerId} {q : Peer Text}
    (hpeers : w'.peers = w.setPeer n q)
    (hq : q.events.filter isExchange = (w.peers n).events.filter isExchange) (j : PeerId) :
    w'.waiting j = w.waiting j := by
  rw [waiting, hpeers, setPeer]
  by_cases hj : j = n
  · rw [if_pos hj, hq, hj]; rfl
  · rw [if_neg hj]; rfl

omit [Alloy] [Codec Text] in
/-- And with one more. -/
theorem waiting_of_tellController {w w' : Cluster Text} {n : PeerId} {e : SwarmEvent}
    (hpeers : w'.peers = w.tellController n e) (he : isExchange e = true) (j : PeerId) :
    w'.waiting j = w.waiting j ++ if j = n then [e] else [] := by
  rw [waiting, hpeers, tellController, setPeer]
  by_cases hj : j = n
  · rw [if_pos hj, if_pos hj, List.filter_append, List.filter_singleton, he, hj]; rfl
  · rw [if_neg hj, if_neg hj, List.append_nil]; rfl

omit [Alloy] [Codec Text] in
/-- And with one less. -/
theorem waiting_of_take {w w' : Cluster Text} {n : PeerId} {q : Peer Text} {e : SwarmEvent}
    (hpeers : w'.peers = w.setPeer n q) (hevents : (w.peers n).events = e :: q.events)
    (he : isExchange e = true) (j : PeerId) :
    w.waiting j = (if j = n then [e] else []) ++ w'.waiting j := by
  rw [waiting, waiting, hpeers, setPeer]
  by_cases hj : j = n
  · rw [if_pos hj, if_pos hj, hj, hevents, List.filter_cons_of_pos he]; rfl
  · rw [if_neg hj, if_neg hj]; rfl

variable [Libp2p] [Unicode]

omit [Alloy] in
/-- No gossip message is a request or an answer. -/
theorem not_isExchange_of_message {names : List PremintName} {source : PeerId}
    {message : Message Text} {event : P2PEvent} (author : PeerId)
    (h : handleGossipsubEvent names source message = .ok (.send event)) :
    isExchange ⟨event, author⟩ = false := by
  unfold handleGossipsubEvent at h
  split at h
  · dsimp only at h
    split at h <;> cases h
  · split at h
    · split at h
      · cases h
      · cases h; rfl
    · split at h
      · cases h; rfl
      · cases h

omit [Alloy] in
theorem receive_exchanges {q q' : Peer Text} {source : PeerId} {message : Message Text}
    (h : q.receive source message = some q') :
    q'.events.filter isExchange = q.events.filter isExchange := by
  obtain ⟨seen, _, rfl⟩ := Option.map_eq_some_iff.mp h
  split
  · unfold Peer.handle
    split
    · rename_i event hevent
      dsimp only
      rw [List.filter_append, List.filter_singleton,
        not_isExchange_of_message message.source hevent]
      exact List.append_nil _
    · rfl
  · rfl

variable [FromStr Text] [MultiaddrText]

omit [Alloy] [Unicode] [FromStr Text] [MultiaddrText] in
/-- What a swarm does that is no request changes none. -/
theorem performed_exchanges {n : PeerId} (neighbours : List PeerId) {action : Swarm.Action Text}
    (w : Cluster Text) (haction : ∀ peerId query, action ≠ .sendRequest peerId query) :
    (w.performed n neighbours action).requests = w.requests
      ∧ (w.performed n neighbours action).answers = w.answers
      ∧ ∀ j, (w.performed n neighbours action).waiting j = w.waiting j := by
  cases action with
  | publish message =>
      unfold performed
      dsimp only
      split
      · exact ⟨rfl, rfl, fun _ => rfl⟩
      · rename_i p hp
        exact ⟨rfl, rfl, waiting_of_setPeer rfl (by rw [(publish_same hp).2.2])⟩
  | sendRequest peerId query => exact absurd rfl (haction peerId query)
  | _ => exact ⟨rfl, rfl, fun _ => rfl⟩

omit [Alloy] [Libp2p] in
/-- A request is sent for a sync, if there is a peer to sync with. -/
theorem sendRequest_cases {peerLimit : Nat} {swarm : Swarm} {chosen : Option PeerId}
    {command : SwarmCommand} {peerId : PeerId} {query : QueryOptions}
    (h : (swarm.handleCommand peerLimit chosen command : Swarm.Action Text)
      = .sendRequest peerId query) : command = .sync query ∧ chosen = some peerId := by
  cases command with
  | sync query' =>
      -- only a sync sends a request, and only with a peer to send it to
      cases chosen with
      | none => cases h
      | some peerId' => cases h; exact ⟨rfl, rfl⟩
  | connectToPeer address =>
      unfold Swarm.handleCommand at h
      dsimp only at h
      split at h
      · cases hdial : swarm.safeDial peerLimit _ with
        | none => rw [hdial] at h; cases h
        | some opts => rw [hdial] at h; cases h
      · cases h
  | _ => cases h

/-- **Every step does one of these.** -/
theorem traffic_step {w w' : Cluster Text} {i : Input Text} (hs : Step w i w') :
    Traffic w i w' := by
  cases hs with
  | command n m hs => exact .nothing rfl rfl rfl (waiting_of_setPeer rfl rfl)
  | syncTick n m hs => exact .nothing rfl rfl rfl (waiting_of_setPeer rfl rfl)
  | @takeEvent n taken rest c hnext hs =>
      -- a controller takes an event off its channel
      obtain ⟨event, author⟩ := taken
      have hdoes : w.exchanged (.takeEvent n) = match (⟨event, author⟩ : SwarmEvent) :: rest with
          | ⟨.syncRequest query, author⟩ :: _ =>
              [.answered ⟨author, n, query⟩ ((w.peers n).controller.answerSyncRequest query)]
          | ⟨.syncResponse premints, author⟩ :: _ => [.handled ⟨author, n, premints⟩]
          | _ => [] := by
        rw [exchanged, hnext]
      cases event with
      | syncRequest query =>
          exact .answered ⟨author, n, query⟩ _ hdoes rfl rfl (waiting_of_take rfl hnext rfl)
      | syncResponse premints =>
          exact .handled ⟨author, n, premints⟩ hdoes rfl (List.append_nil _)
            (waiting_of_take rfl hnext rfl)
      | _ =>
          refine .nothing hdoes rfl (List.append_nil _) (waiting_of_setPeer rfl ?_)
          rw [hnext, List.filter_cons_of_neg (by simp [isExchange])]
  | @takeCommand n swarm chosen neighbours peerLimit command rest hswarm hchosen hnext =>
      have hbefore : ∀ j, (w.setController n
          { (w.peers n).controller with swarmCommands := rest }).waiting j = w.waiting j :=
        waiting_of_setPeer rfl rfl
      by_cases hsends : ∃ peerId query, (swarm.handleCommand peerLimit chosen command
          : Swarm.Action Text) = .sendRequest peerId query
      · -- the swarm sends a request
        obtain ⟨peerId, query, haction⟩ := hsends
        obtain ⟨rfl, rfl⟩ := sendRequest_cases haction
        rw [haction]
        exact .asked ⟨n, peerId, query⟩ (by rw [exchanged, hnext]) rfl rfl hbefore
      · -- it does something else, which leaves requests and answers alone
        obtain ⟨hrequests, hanswers, hwaiting⟩ := performed_exchanges neighbours
          (w.setController n { (w.peers n).controller with swarmCommands := rest })
          fun peerId query haction => hsends ⟨peerId, query, haction⟩
        refine .nothing ?_ hrequests hanswers fun j => (hwaiting j).trans (hbefore j)
        -- and without a peer to sync with nothing is on record
        cases chosen with
        | none => rfl
        | some peerId =>
            rw [exchanged, hnext]
            cases command with
            | sync query => exact absurd ⟨peerId, query, rfl⟩ hsends
            | _ => rfl
  | arrive envelope neighbours hwire hreceive =>
      exact .nothing rfl rfl rfl (waiting_of_setPeer rfl (receive_exchanges hreceive))
  | requestArrives request hrequest =>
      exact .requestArrives request rfl hrequest rfl rfl (waiting_of_tellController rfl rfl)
  | answerArrives answer hanswer =>
      exact .answerArrives answer rfl hanswer rfl rfl (waiting_of_tellController rfl rfl)
  | expire n ids => exact .nothing rfl rfl rfl (waiting_of_setPeer rfl rfl)

end Traffic

/-! ## Nothing is asked, answered or handled twice -/

namespace Exchange

/-- The requests sent. -/
def sent : Exchange → Option SyncRequest
  | .asked request => some request
  | _ => none

/-- The requests answered. -/
def replied : Exchange → Option SyncRequest
  | .answered request _ => some request
  | _ => none

/-- The answers given. -/
def given : Exchange → Option SyncAnswer
  | .answered request premints => some ⟨request.responder, request.requester, premints⟩
  | _ => none

/-- The answers handled. -/
def taken : Exchange → Option SyncAnswer
  | .handled answer => some answer
  | _ => none

end Exchange

/-- Each request of a record is under way or answered, and each answer under way or handled. -/
structure Accounted (w : Cluster Text) (record : List Exchange) : Prop where
  requests : ∀ request, (record.filterMap Exchange.sent).count request
    = w.requests.count request + (w.waiting request.responder).count request.event
      + (record.filterMap Exchange.replied).count request
  answers : ∀ answer, (record.filterMap Exchange.given).count answer
    = w.answers.count answer + (w.waiting answer.requester).count answer.event
      + (record.filterMap Exchange.taken).count answer

theorem count_request (request r : SyncRequest) :
    List.count r.event (if r.responder = request.responder then [request.event] else [])
      = List.count r [request] := by
  by_cases heq : request = r
  · -- it is this request: counted once on both sides
    rw [heq, if_pos rfl, List.count_singleton_self, List.count_singleton_self]
  · -- it is another, whose event is another or waits at another node
    rw [List.count_eq_zero.mpr fun hmem => heq (List.mem_singleton.mp hmem).symm]
    refine List.count_eq_zero.mpr fun hmem => ?_
    split at hmem
    · rename_i hresponder
      exact heq (SyncRequest.eq_of_event hresponder.symm (List.mem_singleton.mp hmem).symm)
    · cases hmem

theorem count_answer (answer a : SyncAnswer) :
    List.count a.event (if a.requester = answer.requester then [answer.event] else [])
      = List.count a [answer] := by
  by_cases heq : answer = a
  · rw [heq, if_pos rfl, List.count_singleton_self, List.count_singleton_self]
  · rw [List.count_eq_zero.mpr fun hmem => heq (List.mem_singleton.mp hmem).symm]
    refine List.count_eq_zero.mpr fun hmem => ?_
    split at hmem
    · rename_i hrequester
      exact heq (SyncAnswer.eq_of_event hrequester.symm (List.mem_singleton.mp hmem).symm)
    · cases hmem

theorem event_ne (request : SyncRequest) (answer : SyncAnswer) : request.event ≠ answer.event :=
  fun h => by injection h with h; cases h

theorem count_of_ne {e e' : SwarmEvent} (h : e ≠ e') (c : Prop) [Decidable c] :
    List.count e (if c then [e'] else []) = 0 := by
  refine List.count_eq_zero.mpr fun hmem => h ?_
  split at hmem
  · exact List.mem_singleton.mp hmem
  · cases hmem

theorem count_erase_add {α : Type} [DecidableEq α] {x : α} {xs : List α} (hx : x ∈ xs) (y : α) :
    (xs.erase x).count y + List.count y [x] = xs.count y := by
  rw [← List.count_append]
  exact (List.perm_append_comm.trans (List.perm_cons_erase hx).symm).count_eq y

/-- On record nothing is answered that was not sent, and nothing handled that was not given. -/
theorem Accounted.subperm {w : Cluster Text} {record : List Exchange} (h : Accounted w record) :
    (record.filterMap Exchange.replied).Subperm (record.filterMap Exchange.sent)
      ∧ (record.filterMap Exchange.taken).Subperm (record.filterMap Exchange.given) := by
  constructor
  · refine List.subperm_ext_iff.mpr fun request _ => ?_
    rw [h.requests request]
    exact Nat.le_add_left _ _
  · refine List.subperm_ext_iff.mpr fun answer _ => ?_
    rw [h.answers answer]
    exact Nat.le_add_left _ _

section Accounted

variable [Alloy] [Codec Text] {w w' : Cluster Text} {i : Input Text} {record : List Exchange}

theorem requests_step (h : Accounted w record) (ht : Traffic w i w') (r : SyncRequest) :
    ((record ++ w.exchanged i).filterMap Exchange.sent).count r
      = w'.requests.count r + (w'.waiting r.responder).count r.event
        + ((record ++ w.exchanged i).filterMap Exchange.replied).count r := by
  have hr := h.requests r
  rw [List.filterMap_append, List.filterMap_append, List.count_append, List.count_append]
  cases ht with
  | nothing hdoes hrequests _ hwaiting =>
      rw [hdoes, hrequests, hwaiting]
      exact hr
  | asked request hdoes hrequests _ hwaiting =>
      -- one more is sent, and it is on the wire
      rw [hdoes, hrequests, hwaiting, List.count_append]
      change _ + List.count r [request] = _ + _ + _ + (_ + List.count r [])
      rw [List.count_nil]
      omega
  | requestArrives request hdoes hmem hrequests _ hwaiting =>
      -- it leaves the wire and waits for the controller
      have hone := count_erase_add hmem r
      rw [hdoes, hrequests, hwaiting, List.count_append, count_request]
      change _ + List.count r [] = _ + _ + (_ + List.count r [])
      omega
  | answered request premints hdoes hrequests _ hwaiting =>
      -- it no longer waits, and is answered
      rw [hwaiting, List.count_append, count_request] at hr
      rw [hdoes, hrequests]
      change _ + List.count r [] = _ + _ + (_ + List.count r [request])
      rw [List.count_nil]
      omega
  | answerArrives answer hdoes _ hrequests _ hwaiting =>
      -- an answer is no request
      rw [hdoes, hrequests, hwaiting, List.count_append, count_of_ne (event_ne r answer)]
      exact hr
  | handled answer hdoes hrequests _ hwaiting =>
      rw [hwaiting, List.count_append, count_of_ne (event_ne r answer)] at hr
      rw [hdoes, hrequests]
      change _ + List.count r [] = _ + _ + (_ + List.count r [])
      omega

theorem answers_step (h : Accounted w record) (ht : Traffic w i w') (a : SyncAnswer) :
    ((record ++ w.exchanged i).filterMap Exchange.given).count a
      = w'.answers.count a + (w'.waiting a.requester).count a.event
        + ((record ++ w.exchanged i).filterMap Exchange.taken).count a := by
  have ha := h.answers a
  rw [List.filterMap_append, List.filterMap_append, List.count_append, List.count_append]
  cases ht with
  | nothing hdoes _ hanswers hwaiting =>
      rw [hdoes, hanswers, hwaiting]
      exact ha
  | asked request hdoes _ hanswers hwaiting =>
      rw [hdoes, hanswers, hwaiting]
      exact ha
  | requestArrives request hdoes _ _ hanswers hwaiting =>
      rw [hdoes, hanswers, hwaiting, List.count_append, count_of_ne (event_ne request a).symm]
      exact ha
  | answered request premints hdoes _ hanswers hwaiting =>
      -- the answer is given and is on the wire
      rw [hwaiting, List.count_append, count_of_ne (event_ne request a).symm] at ha
      rw [hdoes, hanswers, List.count_append]
      change _ + List.count a [_] = _ + _ + _ + (_ + List.count a [])
      rw [List.count_nil]
      omega
  | answerArrives answer hdoes hmem _ hanswers hwaiting =>
      -- it leaves the wire and waits for the controller that asked
      have hone := count_erase_add hmem a
      rw [hdoes, hanswers, hwaiting, List.count_append, count_answer]
      change _ + List.count a [] = _ + _ + (_ + List.count a [])
      omega
  | handled answer hdoes _ hanswers hwaiting =>
      -- it no longer waits, and is handled
      rw [hwaiting, List.count_append, count_answer] at ha
      rw [hdoes, hanswers]
      change _ + List.count a [] = _ + _ + (_ + List.count a [answer])
      rw [List.count_nil]
      omega

end Accounted

/-! ## What comes before an answer -/

section Asked

variable [Alloy] [Codec Text] [Libp2p] [Unicode] [FromStr Text] [MultiaddrText]
  {w w' : Cluster Text} {i : Input Text} {is : List (Input Text)}
  {config : PeerId → Config} {rules : PeerId → RulesEngine Text}

/-- The swarm of a node is to sync. -/
def Syncs (n : PeerId) (w : Cluster Text) (query : QueryOptions) : Prop :=
  .sync query ∈ (w.peers n).controller.swarmCommands

omit [Alloy] [Codec Text] [Libp2p] [Unicode] [FromStr Text] [MultiaddrText] in
theorem syncs_of_setPeer {n j : PeerId} {q : Peer Text} {query : QueryOptions}
    (hpeers : w'.peers = w.setPeer j q)
    (hq : ∀ x ∈ q.controller.swarmCommands, x ∈ (w.peers j).controller.swarmCommands)
    (h : Syncs n w' query) : Syncs n w query := by
  rw [Syncs, hpeers, setPeer] at h
  split at h
  · rename_i hn
    rw [Syncs, hn]
    exact hq _ h
  · exact h

/-- A swarm is told to sync by the controller of its node. -/
theorem syncs_step {n : PeerId} {query : QueryOptions} (hs : Step w i w')
    (h : Syncs n w' query) : Syncs n w query ∨ Asks n query w i w' := by
  cases hs with
  | @command j m command reply result c hs =>
      -- a command makes the swarm sync if it is a sync command
      by_cases hn : n = j
      · subst hn
        rw [Syncs, setController_controller] at h
        rcases mem_forwards (command_forwards hs) h with h | ⟨hcommands, rfl, hquery⟩
        · exact .inl h
        · exact .inr ⟨m, .inl rfl, hquery, by rw [setController_controller, hcommands]⟩
      · rw [Syncs, setController_of_ne hn] at h
        exact .inl h
  | @syncTick j m c hs =>
      -- so does a tick
      by_cases hn : n = j
      · subst hn
        rw [Syncs, setController_controller, requestSync_sent hs] at h
        rcases List.mem_append.mp h with h | h
        · exact .inl h
        · cases List.mem_singleton.mp h
          exact .inr ⟨m, .inr rfl, rfl, by rw [setController_controller, requestSync_sent hs]⟩
      · rw [Syncs, setController_of_ne hn] at h
        exact .inl h
  | takeEvent j hnext hs =>
      -- handling an event sends nothing
      refine .inl (syncs_of_setPeer rfl (fun x hx => ?_) h)
      rw [(P2PServices.handleEvent_sends_nothing hs).1] at hx
      exact hx
  | @takeCommand j swarm chosen neighbours peerLimit command rest hswarm hchosen hnext =>
      -- the swarm only takes from the queue
      rw [Syncs, performed_controller] at h
      have hpeers : (w.setController j { (w.peers j).controller with swarmCommands := rest }).peers
          = w.setPeer j { w.peers j with
              controller := { (w.peers j).controller with swarmCommands := rest } } := rfl
      refine .inl (syncs_of_setPeer hpeers (fun x hx => ?_) h)
      rw [hnext]
      exact List.mem_cons_of_mem _ hx
  | arrive envelope neighbours hwire hreceive =>
      refine .inl (syncs_of_setPeer rfl (fun x hx => ?_) h)
      rw [(receive_same hreceive).2] at hx
      exact hx
  | requestArrives request hrequest =>
      refine .inl (syncs_of_setPeer rfl (fun x hx => ?_) h)
      exact hx
  | answerArrives answer hanswer =>
      refine .inl (syncs_of_setPeer rfl (fun x hx => ?_) h)
      exact hx
  | expire j ids =>
      refine .inl (syncs_of_setPeer rfl (fun x hx => ?_) h)
      exact hx

/-- A swarm is to sync because its controller was told to, or its ticker ticked. -/
theorem asked_for {n : PeerId} {query : QueryOptions} (hrun : Run (.new config rules) is w)
    (h : Syncs n w query) : Lib.Once Step (Asks n query) (.new config rules) is w := by
  have hstart : ∀ query, ¬ Syncs n (new config rules : Cluster Text) query := by
    intro query h
    cases h
  refine Lib.Run.cause hstart (fun w i w' query hs h => ?_) hrun h
  exact syncs_step hs h

/-- What a run with a record comes to. -/
theorem accounted_run {record : List Exchange}
    (hrun : Lib.Run (Lib.Recorded Step exchanged) (.new config rules, []) is (w, record)) :
    Accounted w record := by
  refine Lib.Run.invariant (P := fun x : Cluster Text × List Exchange => Accounted x.1 x.2)
    ⟨fun _ => rfl, fun _ => rfl⟩ (fun x i y h hs => ?_) hrun
  rw [hs.2]
  exact ⟨requests_step h (traffic_step hs.1), answers_step h (traffic_step hs.1)⟩

/-- A request that waits was sent. -/
theorem asked_before {request : SyncRequest} (hrun : Run (.new config rules) is w)
    (h : request.event ∈ w.waiting request.responder) :
    Lib.Once Step (Does (.asked request)) (.new config rules) is w := by
  obtain ⟨record, hrecorded⟩ := hrun.recorded exchanged
  -- one waits, so the balance says that at least one was sent
  have hcount := (accounted_run hrecorded).requests request
  have hpos := List.count_pos_iff.mpr h
  have hsent : 0 < (record.filterMap Exchange.sent).count request := by omega
  obtain ⟨e, he, hrequest⟩ := List.mem_filterMap.mp (List.count_pos_iff.mp hsent)
  cases e with
  | asked request' =>
      cases hrequest
      exact hrecorded.once_of_mem he
  | answered request' premints => cases hrequest
  | handled answer => cases hrequest

/-- An answer that waits was given. -/
theorem answered_before {answer : SyncAnswer} (hrun : Run (.new config rules) is w)
    (h : answer.event ∈ w.waiting answer.requester) :
    ∃ query, Lib.Once Step
      (Does (.answered ⟨answer.requester, answer.responder, query⟩ answer.premints))
      (.new config rules) is w := by
  obtain ⟨record, hrecorded⟩ := hrun.recorded exchanged
  have hcount := (accounted_run hrecorded).answers answer
  have hpos := List.count_pos_iff.mpr h
  have hgiven : 0 < (record.filterMap Exchange.given).count answer := by omega
  obtain ⟨e, he, hanswer⟩ := List.mem_filterMap.mp (List.count_pos_iff.mp hgiven)
  cases e with
  | asked request' => cases hanswer
  | answered request' premints =>
      cases hanswer
      exact ⟨request'.query, hrecorded.once_of_mem he⟩
  | handled answer => cases hanswer

omit [Alloy] [Codec Text] [Libp2p] [Unicode] [FromStr Text] [MultiaddrText] in
/-- A controller's event that is a request or an answer has waited for it. -/
theorem mem_waiting {n : PeerId} {e : SwarmEvent} {rest : List SwarmEvent}
    (hevents : (w.peers n).events = e :: rest) (he : isExchange e = true) : e ∈ w.waiting n :=
  List.mem_filter.mpr ⟨by rw [hevents]; exact List.mem_cons_self, he⟩

variable [LawfulCodec Text]

/-- Every row in the network holds a premint. -/
theorem allHold_cluster (hrun : Run (.new config rules) is w) (n : PeerId) :
    AllHold (w.peers n).controller.store := by
  refine Lib.Run.invariant (P := fun w : Cluster Text => AllHold (w.peers n).controller.store)
    (allHold_new _) (fun w i w' h hs => ?_) hrun
  obtain ⟨ws, hst, _⟩ := writes_step hs n
  rw [hst]
  exact Lib.foldl_invariant (fun s w _ => allHold_write s w) h

/--
**From the tick of a clock to the premints it brings.** When a node of the network handles an
answer, then its controller was told to sync, or its ticker ticked, and asked for what was not
older at that moment than its configuration says; after that its swarm sent the request to the
node that the answer comes from; after that the controller there took it, and its table held just
these premints. Whatever has happened since, the node now inserts them under some schedule, and
each of them is up to date afterwards, or in one of that schedule's turns the rules objected to it.
-/
theorem answer_was_asked_for {answer : SyncAnswer} (hrun : Run (.new config rules) is w)
    (hs : Step w i w') (h : .handled answer ∈ w.exchanged i) :
    (∃ query, Lib.InOrder Step (.new config rules)
        [Asks answer.requester query,
          Does (.asked ⟨answer.requester, answer.responder, query⟩),
          Does (.answered ⟨answer.requester, answer.responder, query⟩ answer.premints)] is w)
      ∧ ∃ schedule b,
        Batch.Schedule (w.peers answer.requester).controller.rules
            (Batch.start (w.peers answer.requester).controller.store answer.premints) schedule b
          ∧ b.isDone = true ∧ (w'.peers answer.requester).controller.store = b.shared
          ∧ ∀ p ∈ answer.premints, UpToDate b.shared p
            ∨ TurnedAway (w.peers answer.requester).controller.rules
              (Batch.start (w.peers answer.requester).controller.store answer.premints) schedule b
              p := by
  obtain ⟨rfl, rest, hevents⟩ := handled_cases h
  constructor
  · -- back from the answer to the request, and from that to the sync
    obtain ⟨query, hanswered⟩ := answered_before hrun (mem_waiting hevents rfl)
    refine ⟨query, hanswered.after [_, _] fun is w₁ i w₂ hrun hs hdoes => ?_⟩
    obtain ⟨⟨rest, hevents⟩, _⟩ := answered_cases hdoes
    refine (asked_before hrun (mem_waiting hevents rfl)).after [_]
      fun is w₁ i w₂ hrun hs hdoes => ?_
    obtain ⟨rest, hcommands⟩ := asked_cases hdoes
    refine Lib.Once.after (asked_for hrun ?_) [] fun is w₁ i w₂ hrun hs hdoes => .nil hrun
    rw [Syncs, hcommands]
    exact List.mem_cons_self
  · -- the schedule is that of the step itself
    cases hs with
    | takeEvent n hnext hs =>
        rw [hevents] at hnext
        cases hnext
        cases hs with
        | @syncResponse premints schedule b hschedule hdone =>
            refine ⟨schedule, b, hschedule, hdone, ?_, fun p hp => ?_⟩
            · exact congrArg (fun q : Peer Text => q.controller.store) (if_pos rfl)
            · exact batch_outcome (allHold_cluster hrun _) hschedule hdone hp

end Asked

/-! ## A node that catches up -/

section Example

open Sample

attribute [local instance] Sample.alloy Sample.unicode Swarm.relayText Swarm.relayLibp2p

/-- Nodes without RPC. -/
def offlineNodes : Cluster Wire := .new (fun _ => {}) (fun _ => offlineRules)

/-- What a node asks for in the first second of 1970. -/
def firstQuery : QueryOptions := { «from» := some { offline.clock with secs := -21600 } }

/-- `b` is given the premint, and `a` asks it. -/
def catchUp : List (Input Wire) :=
  [.command (peerId "b") offline (.broadcast (.zoraV2 validPremint)),
    .syncTick (peerId "a") offline,
    .takeCommand (peerId "a") { localPeerId := peerId "a", gossipsubPeers := [peerId "b"] }
      (some (peerId "b")) [],
    .requestArrives ⟨peerId "a", peerId "b", firstQuery⟩, .takeEvent (peerId "b"),
    .answerArrives ⟨peerId "b", peerId "a", [.zoraV2 validPremint]⟩]

/-- The rows at `a`. -/
def caughtUp (w : Cluster Wire) : List (Row Wire) :=
  (w.peers (peerId "a")).controller.store.table.rows

theorem run_catchUp : ∃ w w', Run offlineNodes catchUp w ∧ Step w (.takeEvent (peerId "a")) w'
    ∧ .handled ⟨peerId "b", peerId "a", [.zoraV2 validPremint]⟩
      ∈ w.exchanged (.takeEvent (peerId "a"))
    ∧ caughtUp w' = [PremintStorage.newRow 0 (.zoraV2 validPremint)] := by
  have href : ¬ Refused (node {}).store (.zoraV2 validPremint) := by decide +kernel
  obtain ⟨evaluation, hev, hacc⟩ := accepts_of_decide (p := .zoraV2 validPremint)
    (s := (node {}).store) (by decide +kernel)
  obtain ⟨reply, c, hcall, hdone⟩ := broadcast_cases (node {}) offline (.zoraV2 validPremint)
  have hstore : c.store = ((node {}).store.store 0 (.zoraV2 validPremint)).2 :=
    store_of_inserts ⟨evaluation, hev, hacc, href⟩ hcall
  have hanswer : c.answerSyncRequest firstQuery = [.zoraV2 validPremint] := by
    rw [Controller.answerSyncRequest, hstore]
    decide +kernel
  -- the request and the answer
  have h1 : Run offlineNodes [_] _ := .single (.command (peerId "b") offline hcall)
  have h2 := Lib.Run.snoc h1 (.syncTick (peerId "a") offline rfl)
  have h3 := Lib.Run.snoc h2 (.takeCommand (peerId "a")
    { localPeerId := peerId "a", gossipsubPeers := [peerId "b"] } (some (peerId "b")) [] 10 rfl
    List.mem_cons_self rfl)
  have h4 := Lib.Run.snoc h3 (.requestArrives ⟨peerId "a", peerId "b", firstQuery⟩
    List.mem_cons_self)
  have h5 := Lib.Run.snoc h4 (.takeEvent (peerId "b") rfl (.syncRequest firstQuery))
  have h6 := Lib.Run.snoc h5 (.answerArrives ⟨peerId "b", peerId "a", [.zoraV2 validPremint]⟩
    (hanswer ▸ List.mem_cons_self))
  -- and the one task that inserts what it brings
  have hplay : (Lib.play (fun b (im : Nat × Moment) => Batch.step offlineRules b im.1 im.2)
      (Batch.start (node {}).store [.zoraV2 validPremint]) (List.replicate 4 (0, offline))).map
        (fun b => (b.isDone, b.shared.table.rows))
      = some (true, [PremintStorage.newRow 0 (.zoraV2 validPremint)]) := by
    decide +kernel
  obtain ⟨b, hb, hend⟩ := Option.map_eq_some_iff.mp hplay
  obtain ⟨hdone, hrows⟩ := Prod.mk.inj hend
  have hschedule : Batch.Schedule offlineRules (Batch.start (node {}).store [.zoraV2 validPremint])
    (List.replicate 4 (0, offline)) b := Lib.run_of_play (fun _ _ _ h => h) hb
  refine ⟨_, _, h6, .takeEvent (peerId "a") rfl (.syncResponse _ _ hschedule hdone),
    List.mem_cons_self, ?_⟩
  exact hrows

/-- **`a` has what it asked for, and `b` had it when it answered.** -/
theorem catchUp_answered : ∃ w w' query, Run offlineNodes catchUp w
    ∧ Step w (.takeEvent (peerId "a")) w'
    ∧ caughtUp w' = [PremintStorage.newRow 0 (.zoraV2 validPremint)]
    ∧ Lib.InOrder Step offlineNodes
      [Asks (peerId "a") query, Does (.asked ⟨peerId "a", peerId "b", query⟩),
        Does (.answered ⟨peerId "a", peerId "b", query⟩ [.zoraV2 validPremint])] catchUp w := by
  obtain ⟨w, w', hrun, hs, hdoes, hrows⟩ := run_catchUp
  obtain ⟨query, horder⟩ := (answer_was_asked_for hrun hs hdoes).1
  exact ⟨w, w', query, hrun, hs, hrows, horder⟩

end Example

end Cluster

end Mintpool
