import Mintpool.Api
import Mintpool.Proof.Connections
import Mintpool.Proof.Durable
import Mintpool.Proof.Submission

/-!
# What a client of the API sees

Requests are served concurrently, with each other and with all that the controller does. Yet
every response but a summary is what the handler alone would have given at one moment, between
the request's arrival and the response. So clients that talk to each other do not catch the
node out: what one has been told, the other finds.

`Moves` says once what a step does to a handler, and `step_writes` what it does to the table.
-/

namespace Mintpool.Api

open Mintpool.Proof PremintStorage

variable {Text : Type}

section Handlers

variable {s s' : Api Text} {id n : Nat} {h h₀ : Handler} {ids : Nat → Bool}
  {next : Route → HandlerState}

/-! ## Handlers -/

@[simp] theorem setHandler_self : (s.setHandler id h).handlers id = some h := if_pos rfl

theorem setHandler_of_ne (hne : n ≠ id) : (s.setHandler id h).handlers n = s.handlers n :=
  if_neg hne

theorem setHandler_some (heq : (s.setHandler id h₀).handlers n = some h) :
    (n = id ∧ h = h₀) ∨ s.handlers n = some h := by
  by_cases hn : n = id
  · subst hn
    rw [setHandler_self] at heq
    cases heq
    exact .inl ⟨rfl, rfl⟩
  · rw [setHandler_of_ne hn] at heq
    exact .inr heq

/-- **Whom telling changes**: who is told, and waits. -/
theorem tell_some {handlers : Nat → Option Handler} (heq : tell handlers ids next n = some h) :
    handlers n = some h ∨ ids n = true ∧ ∃ request,
      handlers n = some ⟨request, .receiving⟩ ∧ h = ⟨request, next request.route⟩ := by
  unfold tell at heq
  split at heq
  · rename_i hids
    obtain ⟨⟨request, state⟩, hh, rfl⟩ := Option.map_eq_some_iff.mp heq
    cases state with
    | receiving => exact .inr ⟨hids, request, hh, rfl⟩
    | _ => exact .inl hh
  · exact .inl heq

/-- The requests stay what they are. -/
theorem tell_of_some {handlers handlers' : Nat → Option Handler} {request : Request}
    {state : HandlerState} (heq : handlers n = some ⟨request, state⟩)
    (htell : handlers' = tell handlers ids next) :
    ∃ state', handlers' n = some ⟨request, state'⟩ := by
  rw [htell]
  unfold tell
  rw [heq]
  split
  · cases state <;> exact ⟨_, rfl⟩
  · exact ⟨_, rfl⟩

end Handlers

/-! ## What is written -/

section Writes

variable [Alloy] [Codec Text] {s s' : Api Text} {i : Input} {db db' : PremintStorage Text}
  {marks : InclusionClaim → Prop}

/-- The table has been written to, and marked for no other claims than these. -/
def Writes (marks : InclusionClaim → Prop) (db db' : PremintStorage Text) : Prop :=
  ∃ ws : List Write, db' = ws.foldl write db ∧ ∀ claim, .markSeenOnChain claim ∈ ws → marks claim

theorem Writes.same : Writes marks db db := ⟨[], rfl, by simp⟩

theorem Writes.mono {marks' : InclusionClaim → Prop} (h : Writes marks db db')
    (hmarks : ∀ claim, marks claim → marks' claim) : Writes marks' db db' := by
  obtain ⟨ws, hdb, hws⟩ := h
  exact ⟨ws, hdb, fun claim hclaim => hmarks claim (hws claim hclaim)⟩

theorem Writes.allHold [LawfulCodec Text] (h : Writes marks db db') (hall : AllHold db) :
    AllHold db' := by
  obtain ⟨ws, rfl, _⟩ := h
  exact Lib.foldl_invariant (fun s w _ => allHold_write s w) hall

theorem Writes.prune (h : Writes marks db db') :
    db'.pruneMintedPremints = db.pruneMintedPremints := by
  obtain ⟨ws, rfl, _⟩ := h
  exact Lib.foldl_invariant (I := fun db' : PremintStorage Text =>
    db'.pruneMintedPremints = db.pruneMintedPremints)
    (fun s w _ h => (write_prune s w).trans h) rfl

/-- What the controller does at one go. -/
theorem writes_of_stepped {c c' : Controller Text} {j : Controller.Input} (h : Stepped c j c') :
    Writes (fun claim => Causes j (.markSeenOnChain claim)) c.store c'.store := by
  obtain ⟨ws, hws, hst⟩ := storeStep_writes h.store
  exact ⟨ws, hst, fun claim hclaim => hws _ hclaim⟩

omit [Alloy] [Codec Text] in
theorem db_of_select (hselect : s.activity = .select) : s.db = s.controller.store := by
  unfold db
  rw [hselect]

omit [Alloy] [Codec Text] in
theorem db_of_inserting {premints : List PremintTypes} {batch : Batch Text}
    (hinserting : s.activity = .inserting premints batch) : s.db = batch.shared := by
  unfold db
  rw [hinserting]

/-- The node is given the claim, by a peer or by a command. -/
def Resolves (claim : InclusionClaim) (s : Api Text) (i : Input) (_ : Api Text) : Prop :=
  (∃ peerId, i = .event (.mintSeenOnchain ⟨claim, peerId⟩))
    ∨ (∃ m, i = .command m)
      ∧ ∃ id commands, s.commands.recv = some ((id, .resolveOnchainMint claim), commands)

/-- Between two inputs the table is the controller's. -/
theorem writes_of_select (hselect : s.activity = .select)
    (hselect' : s'.activity = .select)
    (h : Writes marks s.controller.store s'.controller.store) : Writes marks s.db s'.db := by
  rw [db_of_select hselect, db_of_select hselect']
  exact h

theorem forward_writes (hselect : s.activity = .select) (m : Moment)
    (command : ControllerCommands) : Writes (fun claim => command = .resolveOnchainMint claim)
      s.db (s.forward m command).db := by
  unfold forward
  split
  · rename_i h
    refine writes_of_select hselect hselect ?_
    refine (writes_of_stepped (stepped_command h)).mono fun claim hcause => ?_
    cases command <;> first | exact hcause.elim | exact congrArg _ (Eq.symm hcause)
  · rw [db_of_select hselect]
    exact .same

theorem handleCommand_writes (hselect : s.activity = .select) (m : Moment) (id : Option Nat)
    (command : ControllerCommands) : Writes (fun claim => command = .resolveOnchainMint claim)
      s.db (s.handleCommand m id command).db := by
  unfold handleCommand
  split
  · -- a premint to broadcast: the rules are run, and at most one row is written
    rename_i message
    obtain ⟨ws, hws, hst⟩ :=
      validateAndInsert_writes s.controller.rules m s.controller.store message
    have hwrites : Writes (fun claim => ControllerCommands.broadcast message
        = .resolveOnchainMint claim) s.controller.store
        (s.controller.validateAndInsert m message).2.store :=
      ⟨ws, hst, fun claim hclaim => by cases hws _ hclaim⟩
    -- the controller is left where it waits for the swarm, or goes on with the next input
    split
    · rename_i heq
      rw [heq] at hwrites
      rw [db_of_select hselect]
      exact hwrites
    · rename_i heq
      rw [heq] at hwrites
      exact writes_of_select hselect hselect hwrites
  · -- a question for the swarm writes nothing
    split
    · rename_i heq
      have hstore := (sendSwarm_same s.controller .returnNetworkState).1
      rw [heq] at hstore
      refine writes_of_select hselect hselect ?_
      rw [hstore]
      exact .same
    · exact writes_of_select hselect hselect .same
  · -- the rest is what `handle_command` does in one go
    exact forward_writes hselect m _

theorem broadcast_writes {message : PremintTypes} {id : Option Nat}
    (hbroadcasting : s.activity = .broadcasting message id) :
    Writes marks s.db (s.broadcast message id).db := by
  have hdb : s.db = s.controller.store := by
    unfold db
    rw [hbroadcasting]
  have hstore := (sendSwarm_same s.controller (.broadcast message)).1
  unfold broadcast
  rw [hdb]
  split <;>
  · rename_i heq
    rw [heq] at hstore
    exact ⟨[], hstore, by simp⟩

theorem handled_writes (hselect : s.activity = .select) {outcome : Outcome (Controller Text)}
    (h : ∀ c', outcome = .ret c' → Writes marks s.controller.store c'.store) :
    Writes marks s.db (s.handled outcome).db := by
  cases outcome with
  | ret c' => exact writes_of_select hselect hselect (h c' rfl)
  | panic =>
      rw [db_of_select hselect]
      exact .same

variable [Libp2p] [MultiaddrText] [Http]

/-- **What a step does to the table**: it writes, and marks for no claim that it was not given. -/
theorem step_writes (hs : Step s i s') :
    Writes (fun claim => Resolves claim s i s') s.db s'.db := by
  cases hs with
  | arrive | respond | send | sendClosed | countTotal | countActive | timeout | sendCommand =>
      exact .same
  | networkState | swarmEnds => exact .same
  | @command m id command commands hselect hrecv =>
      -- taking the command out of the channel leaves the table as it is
      have hwrites : Writes _ s.db _ :=
        handleCommand_writes (s := { s with commands }) hselect m id command
      refine hwrites.mono ?_
      rintro claim rfl
      exact .inr ⟨⟨m, rfl⟩, _, _, hrecv⟩
  | broadcast hbroadcasting => exact broadcast_writes hbroadcasting
  | event hselect hsync hevent =>
      refine handled_writes hselect ?_
      rintro c' rfl
      refine (writes_of_stepped (stepped_event hevent)).mono fun claim hcause => ?_
      -- only a claim makes a mark, and it is this event's
      cases hevent with
      | mintSeenOnchain m peerClaim h => exact .inl ⟨peerClaim.fromPeerId, by rw [hcause]⟩
      | _ => exact hcause.elim
  | syncResponse premints hselect =>
      rw [db_of_select hselect]
      exact .same
  | insert j m hinserting hstep =>
      -- one of the tasks takes its turn: the table is shared between them
      obtain ⟨t, db', t', _, _, hact, rfl⟩ := Lib.Interleave.step_cases hstep
      rw [db_of_inserting hinserting]
      rcases (act_writes hact).2 with hsame | ⟨now, hstored⟩
      · exact ⟨[], hsame, by simp⟩
      · exact ⟨[.store now t.premint], hstored, by simp⟩
  | inserted hinserting hdone =>
      rw [db_of_inserting hinserting]
      exact .same
  | syncTick m hselect =>
      refine handled_writes hselect fun c' h => ?_
      exact (writes_of_stepped (stepped_requestSync .syncTick h)).mono fun _ hcause => hcause.elim

/-- Every row holds a premint, at all times. -/
theorem allHold_run [LawfulCodec Text] {is : List Input} (hall : AllHold s.db)
    (hrun : Run s is s') : AllHold s'.db :=
  Lib.Run.invariant (P := fun s => AllHold s.db) hall
    (fun _ _ _ h hs => (step_writes hs).allHold h) hrun

theorem prune_run {is : List Input} (hrun : Run s is s') :
    s'.db.pruneMintedPremints = s.db.pruneMintedPremints :=
  Lib.Run.invariant (P := fun s' => s'.db.pruneMintedPremints = s.db.pruneMintedPremints) rfl
    (fun _ _ _ h hs => (step_writes hs).prune.trans h) hrun

/-- **A row stays, unless the node prunes and is given a claim for it.** -/
theorem row_outlives {is : List Input} {k : String × String} {r : Row Text}
    (h : s.db.table.lookup k = some r) (hrun : Run s is s') :
    (∃ r', s'.db.table.lookup k = some r' ∧ Outlives r r')
      ∨ s.db.pruneMintedPremints = true
        ∧ ∃ claim, claimMatches claim r = true ∧ Lib.Once Step (Resolves claim) s is s' := by
  induction hrun with
  | nil => exact .inl ⟨r, h, .refl r⟩
  | snoc hrun hs ih =>
      rcases ih with ⟨r₁, hr₁, hout⟩ | ⟨hprune, claim, hmatches, honce⟩
      · -- the row has come this far, so what counts is this step's writes
        obtain ⟨ws, hdb, hws⟩ := step_writes hs
        rw [hdb]
        rcases outlives_writes ws hr₁ with ⟨r', hr', hout'⟩ | ⟨w, hw, hprunes⟩
        · exact .inl ⟨r', hr', hout.trans hout'⟩
        · cases w with
          -- storing a premint never takes a row away
          | store now p => exact hprunes.elim
          | markSeenOnChain claim =>
              refine .inr ⟨(prune_run hrun) ▸ hprunes.1, claim, ?_, .last hrun hs (hws claim hw)⟩
              -- what the claim matches is the key and the chain, which no version changes
              rw [← hout.claimMatches_eq claim]
              exact hprunes.2
      · -- it was pruned before
        exact .inr ⟨hprune, claim, hmatches, honce.trans (.single hs)⟩

end Writes

/-! ## What a step does to a handler -/

section Moves

variable [Alloy] [Codec Text] [Libp2p] [MultiaddrText] [Http] {s s' : Api Text} {i : Input}
  {id : Nat} {request : Request} {state state' : HandlerState}

/-- How a broadcast ends for a swarm that is there, and for one that is not. -/
inductive Sending : Bool → Except BroadcastError Unit → Prop
  | sent : Sending true (.ok ())
  | closed (report : Report) : Sending false (.error (.swarm report))

/-- The ways that a handler can go on in a step. -/
inductive Moves (s : Api Text) (i : Input) (s' : Api Text) (id : Nat) (request : Request) :
    HandlerState → HandlerState → Prop
  | same {state : HandlerState} : Moves s i s' id request state state
  | respond {response : Response} (hdb : s'.db = s.db)
      (h : request.begin s.apiSecret s.db = .respond response) :
      Moves s i s' id request .called (.responded response)
  | send {command : ControllerCommands} (hdb : s'.db = s.db)
      (h : request.begin s.apiSecret s.db = .send command) :
      Moves s i s' id request .called request.route.afterSend
  | closed {command : ControllerCommands} (h : request.begin s.apiSecret s.db = .send command) :
      Moves s i s' id request .called (.responded request.route.channelClosed)
  | dropped : Moves s i s' id request .receiving (.responded request.route.channelClosed)
  | timeout {state : HandlerState} : Moves s i s' id request state (.responded timedOut)
  | refused (m : Moment) {message : PremintTypes} {error : InsertError} {c : Controller Text}
      {commands : Lib.Channel (Option Nat × ControllerCommands)} (hi : i = .command m)
      (hselect : s.activity = .select)
      (hrecv : s.commands.recv = some ((some id, .broadcast message), commands))
      (h : s.controller.validateAndInsert m message = (.error error, c))
      (hdb : s'.db = c.store) :
      Moves s i s' id request .receiving (.responded (submitPremint (.error (.insert error))))
  | sent {message : PremintTypes} {result : Except BroadcastError Unit}
      (hbroadcasting : s.activity = .broadcasting message (some id))
      (hresult : Sending s.controller.swarmOpen result) :
      Moves s i s' id request .receiving (.responded (submitPremint result))
  | networkState {state : NetworkState} (hasked : id ∈ s.asked) :
      Moves s i s' id request .receiving (.counting state)
  | countTotal {state : NetworkState} (hdb : s'.db = s.db) : Moves s i s' id request
      (.counting state) (.countingActive state s.db.table.rows.length)
  | countActive {state : NetworkState} {total : Nat} (hdb : s'.db = s.db) : Moves s i s' id request
      (.countingActive state total) (.responded ⟨.ok, .summary {
        activePremintCount := s.db.table.rows.countP (fun r => !r.seenOnChain)
        totalPremintCount := total
        nodeInfo := .of state }⟩)

omit [Libp2p] in
/-- One handler goes on, and the others stay as they are. -/
theorem moves_of_setHandler {n : Nat} {request₀ : Request} {state₀ state₁ : HandlerState}
    (hn : s.handlers n = some ⟨request₀, state₀⟩) (hmoves : Moves s i s' n request₀ state₀ state₁)
    (h : (s.setHandler n ⟨request₀, state₁⟩).handlers id = some ⟨request, state'⟩) :
    ∃ state, s.handlers id = some ⟨request, state⟩ ∧ Moves s i s' id request state state' := by
  rcases setHandler_some h with ⟨rfl, heq⟩ | h
  · cases heq
    exact ⟨_, hn, hmoves⟩
  · exact ⟨_, h, .same⟩

omit [Libp2p] in
theorem moves_of_tell {handlers handlers' : Nat → Option Handler} {ids : Nat → Bool}
    {next : Route → HandlerState} (h : handlers' id = some ⟨request, state'⟩)
    (htell : handlers' = tell handlers ids next)
    (hmoves : ids id = true → Moves s i s' id request .receiving (next request.route)) :
    ∃ state, handlers id = some ⟨request, state⟩ ∧ Moves s i s' id request state state' := by
  rw [htell] at h
  rcases tell_some h with hsame | ⟨hids, request', hwaits, heq⟩
  · exact ⟨_, hsame, .same⟩
  · cases heq
    exact ⟨_, hwaits, hmoves hids⟩

omit [Libp2p] in
theorem moves_of_panic {t : Api Text} (h : t.panic.handlers id = some ⟨request, state'⟩) :
    ∃ state, t.handlers id = some ⟨request, state⟩ ∧ Moves s i s' id request state state' :=
  moves_of_tell h rfl fun _ => .dropped

omit [Libp2p] in
theorem moves_of_handled {t : Api Text} {outcome : Outcome (Controller Text)}
    (h : (t.handled outcome).handlers id = some ⟨request, state'⟩) :
    ∃ state, t.handlers id = some ⟨request, state⟩ ∧ Moves s i s' id request state state' := by
  cases outcome with
  | ret c => exact ⟨_, h, .same⟩
  | panic => exact moves_of_panic h

omit [Libp2p] in
theorem moves_of_command {commands : Lib.Channel (Option Nat × ControllerCommands)} (m : Moment)
    {sender : Option Nat} {command : ControllerCommands} (hselect : s.activity = .select)
    (hrecv : s.commands.recv = some ((sender, command), commands))
    (hs' : s' = { s with commands }.handleCommand m sender command)
    (h : s'.handlers id = some ⟨request, state'⟩) :
    ∃ state, s.handlers id = some ⟨request, state⟩
      ∧ Moves s (.command m) s' id request state state' := by
  unfold handleCommand at hs'
  split at hs'
  · -- a premint: its submitter is told now only if it is refused
    rename_i message
    split at hs'
    · subst hs'
      exact ⟨_, h, .same⟩
    · rename_i error c hins
      rw [hs'] at h
      refine moves_of_tell h rfl fun hids => ?_
      cases of_decide_eq_true hids
      -- the reply is the rules' answer, and the table is what the rules left
      refine .refused m rfl hselect hrecv hins ?_
      rw [hs']
      exact db_of_select hselect
  · -- the request to the swarm waits there, or the swarm is gone and the channel is dropped
    split at hs'
    · subst hs'
      exact ⟨_, h, .same⟩
    · rw [hs'] at h
      exact moves_of_tell h rfl fun _ => .dropped
  · -- no handler waits for the other commands, except when the controller panics
    rw [hs'] at h
    unfold forward at h
    split at h
    · exact ⟨_, h, .same⟩
    · exact moves_of_panic (t := { s with commands }) h

omit [Libp2p] in
theorem moves_of_broadcast {message : PremintTypes} {sender : Option Nat}
    (hbroadcasting : s.activity = .broadcasting message sender)
    (h : (s.broadcast message sender).handlers id = some ⟨request, state'⟩) :
    ∃ state, s.handlers id = some ⟨request, state⟩ ∧ Moves s i s' id request state state' := by
  unfold broadcast at h
  by_cases hopen : s.controller.swarmOpen = true
  · rw [sendSwarm_of_open hopen] at h
    refine moves_of_tell h rfl fun hids => ?_
    cases of_decide_eq_true hids
    exact .sent hbroadcasting (by rw [hopen]; exact .sent)
  · -- the premint is stored by now, and its submitter is told of an error
    rw [Controller.sendSwarm, if_neg hopen] at h
    refine moves_of_tell h rfl fun hids => ?_
    cases of_decide_eq_true hids
    exact .sent hbroadcasting (by rw [Bool.eq_false_iff.mpr hopen]; exact .closed _)

/-- **Every handler that is there has just been called, or has gone on in one of these ways.** -/
theorem handler_cases (hs : Step s i s') (h : s'.handlers id = some ⟨request, state'⟩) :
    (s.handlers id = none ∧ i = .arrive id request ∧ state' = .called)
      ∨ ∃ state, s.handlers id = some ⟨request, state⟩ ∧ Moves s i s' id request state state' := by
  have hsame : s.handlers id = some ⟨request, state'⟩ →
      ∃ state, s.handlers id = some ⟨request, state⟩ ∧ Moves s i s' id request state state' :=
    fun h => ⟨_, h, .same⟩
  cases hs with
  | arrive n request hnew =>
      -- only here can a handler be new
      rcases setHandler_some h with ⟨rfl, heq⟩ | h
      · cases heq
        exact .inl ⟨hnew, rfl, rfl⟩
      · exact .inr (hsame h)
  | respond n hcalled hbegin =>
      exact .inr (moves_of_setHandler hcalled (.respond rfl hbegin) h)
  | send n hcalled hbegin hopen hsend =>
      exact .inr (moves_of_setHandler hcalled (.send rfl hbegin) h)
  | sendClosed n hcalled hbegin hclosed =>
      exact .inr (moves_of_setHandler hcalled (.closed hbegin) h)
  | countTotal n hcounting =>
      exact .inr (moves_of_setHandler hcounting (.countTotal rfl) h)
  | countActive n hcounting =>
      exact .inr (moves_of_setHandler hcounting (.countActive rfl) h)
  | timeout n hhandler hwaits =>
      exact .inr (moves_of_setHandler hhandler .timeout h)
  | command m hselect hrecv => exact .inr (moves_of_command m hselect hrecv rfl h)
  | broadcast hbroadcasting => exact .inr (moves_of_broadcast hbroadcasting h)
  | event hselect hsync hevent => exact .inr (moves_of_handled h)
  | syncTick m hselect => exact .inr (moves_of_handled h)
  | sendCommand | syncResponse | insert | inserted => exact .inr (hsame h)
  | networkState n state hasked =>
      -- the answer of the swarm is for the one that asked
      refine .inr (moves_of_tell h rfl fun hids => ?_)
      cases of_decide_eq_true hids
      exact .networkState hasked
  | swarmEnds => exact .inr (moves_of_tell h rfl fun _ => .dropped)

/-- A request stays what it is. -/
theorem handler_kept (hs : Step s i s') (h : s.handlers id = some ⟨request, state⟩) :
    ∃ state', s'.handlers id = some ⟨request, state'⟩ := by
  have hset : ∀ {n : Nat} {request₀ : Request} {state₀ state₁ : HandlerState},
      s.handlers n = some ⟨request₀, state₀⟩ →
      ∃ state', (s.setHandler n ⟨request₀, state₁⟩).handlers id = some ⟨request, state'⟩ := by
    intro n request₀ state₀ state₁ hn
    by_cases heq : id = n
    · subst heq
      rw [h] at hn
      cases hn
      exact ⟨_, setHandler_self⟩
    · exact ⟨state, by rw [setHandler_of_ne heq]; exact h⟩
  have hhandled : ∀ {outcome : Outcome (Controller Text)},
      ∃ state', (s.handled outcome).handlers id = some ⟨request, state'⟩ := by
    intro outcome
    cases outcome with
    | ret c => exact ⟨state, h⟩
    | panic => exact tell_of_some h rfl
  cases hs with
  | arrive n request₀ hnew =>
      -- the number is not in use, so the handler is another one
      have hne : id ≠ n := by
        rintro rfl
        rw [hnew] at h
        cases h
      exact ⟨state, by rw [setHandler_of_ne hne]; exact h⟩
  | respond n hcalled _ => exact hset hcalled
  | send n hcalled _ _ _ => exact hset hcalled
  | sendClosed n hcalled _ _ => exact hset hcalled
  | countTotal n hcounting => exact hset hcounting
  | countActive n hcounting => exact hset hcounting
  | timeout n hhandler _ => exact hset hhandler
  | sendCommand | syncResponse | insert | inserted => exact ⟨state, h⟩
  | command m hselect hrecv =>
      -- whatever the controller replies, it replies to handlers that are there
      unfold handleCommand
      split
      · split
        · exact ⟨state, h⟩
        · exact tell_of_some h rfl
      · split
        · exact ⟨state, h⟩
        · exact tell_of_some h rfl
      · unfold forward
        split
        · exact ⟨state, h⟩
        · exact tell_of_some h rfl
  | broadcast hbroadcasting =>
      unfold broadcast
      split <;> exact tell_of_some h rfl
  | event | syncTick => exact hhandled
  | networkState | swarmEnds => exact tell_of_some h rfl

theorem apiSecret_step (hs : Step s i s') : s'.apiSecret = s.apiSecret := by
  have hhandled : ∀ outcome, (s.handled outcome).apiSecret = s.apiSecret := by
    intro outcome
    cases outcome <;> rfl
  cases hs with
  | command m hselect hrecv =>
      unfold handleCommand
      split
      · split <;> rfl
      · split <;> rfl
      · unfold forward
        split <;> rfl
  | broadcast hbroadcasting =>
      unfold broadcast
      split <;> rfl
  | event => exact hhandled _
  | syncTick => exact hhandled _
  | _ => rfl

end Moves

/-! ## Commands and whom they are for -/

section Linked

variable [Alloy] [Codec Text] [Libp2p] [MultiaddrText] [Http] {s s' : Api Text} {i : Input}
  {id : Nat} {request : Request} {state : HandlerState} {command : ControllerCommands}

/-- The command that the handler sends. -/
def commandOf : Route → Option ControllerCommands
  | .submitPremint premint | .adminSubmitPremint premint => some (.broadcast premint)
  | .summary => some .returnNetworkState
  | .adminAddPeer peer => some (.connectToPeer peer)
  | .adminSync => some .sync
  | .health | .listAll _ | .getOne _ | .getByIdAndKind _ _ => none

omit [Libp2p] [MultiaddrText] [Http] in
theorem route_begin_eq_send_iff {route : Route} {db : PremintStorage Text} :
    route.begin db = .send command ↔ commandOf route = some command := by
  cases route with
  | getOne | getByIdAndKind =>
      simp only [Route.begin, commandOf]
      split <;> simp
  | _ => simp [Route.begin, commandOf]

/-- The request is for this command, and is let through. -/
def Sends (apiSecret : Option String) (request : Request) (command : ControllerCommands) : Prop :=
  commandOf request.route = some command
    ∧ (request.route.isAdmin = true → authMiddleware apiSecret request.authorization = none)

omit [Libp2p] [MultiaddrText] in
/-- **Whether a handler sends a command does not depend on the database.** -/
theorem begin_eq_send_iff {apiSecret : Option String} {db : PremintStorage Text} :
    request.begin apiSecret db = .send command ↔ Sends apiSecret request command := by
  unfold Request.begin Sends
  cases hadmin : request.route.isAdmin with
  | false => simpa using route_begin_eq_send_iff
  | true =>
      cases hauth : authMiddleware apiSecret request.authorization with
      | some response => simp
      | none => simpa using route_begin_eq_send_iff

/-- The handler of this request has sent the command. -/
def Sent (s : Api Text) (id : Nat) (command : ControllerCommands) : Prop :=
  ∃ request state, s.handlers id = some ⟨request, state⟩ ∧ state ≠ .called
    ∧ Sends s.apiSecret request command

omit [Alloy] [Codec Text] [Libp2p] [MultiaddrText] [Http] in
theorem afterSend_ne_called (route : Route) : route.afterSend ≠ .called := by
  cases route <;> exact fun h => by cases h

/-- No handler is called again. -/
theorem not_called_step (hs : Step s i s') (h : s.handlers id = some ⟨request, state⟩)
    (hcalled : state ≠ .called) :
    ∃ state', s'.handlers id = some ⟨request, state'⟩ ∧ state' ≠ .called := by
  obtain ⟨state', hhandler⟩ := handler_kept hs h
  refine ⟨state', hhandler, ?_⟩
  rintro rfl
  rcases handler_cases hs hhandler with ⟨hnew, _, _⟩ | ⟨state₀, hstate, hmoves⟩
  · -- it is not new, for it was there before
    rw [h] at hnew
    cases hnew
  · -- and no way to go on leads back to the call
    rw [h] at hstate
    cases hstate
    generalize hto : HandlerState.called = state' at hmoves
    cases hmoves with
    | same => exact hcalled hto.symm
    | send => exact afterSend_ne_called request.route hto.symm
    | _ => cases hto

theorem sent_step (hs : Step s i s') (h : Sent s id command) : Sent s' id command := by
  obtain ⟨request, state, hhandler, hcalled, hsends⟩ := h
  obtain ⟨state', hhandler', hcalled'⟩ := not_called_step hs hhandler hcalled
  exact ⟨request, state', hhandler', hcalled', by rw [apiSecret_step hs]; exact hsends⟩

/-- What is under way for a request is what its handler has sent. -/
structure Linked (s : Api Text) : Prop where
  commands : ∀ id command, (some id, command) ∈ s.commands.items → Sent s id command
  broadcasting : ∀ message id, s.activity = .broadcasting message (some id) →
    Sent s id (.broadcast message)
  asked : ∀ id ∈ s.asked, Sent s id .returnNetworkState

omit [Alloy] [Codec Text] [Libp2p] [MultiaddrText] in
theorem linked_start (config : Config) (rules : RulesEngine Text) (apiSecret : Option String) :
    Linked (start config rules apiSecret) where
  commands _ _ h := by cases h
  broadcasting _ _ h := by cases h
  asked _ h := by cases h

/-- It stays so if nothing is added. -/
theorem Linked.shrink (h : Linked s) (hs : Step s i s')
    (hcommands : ∀ item ∈ s'.commands.items, item ∈ s.commands.items)
    (hactivity : ∀ message id, s'.activity = .broadcasting message (some id) →
      s.activity = .broadcasting message (some id))
    (hasked : ∀ id ∈ s'.asked, id ∈ s.asked) : Linked s' where
  commands id command hmem := sent_step hs (h.commands id command (hcommands _ hmem))
  broadcasting message id hactive :=
    sent_step hs (h.broadcasting message id (hactivity _ _ hactive))
  asked id hmem := sent_step hs (h.asked id (hasked id hmem))

omit [Libp2p] [MultiaddrText] [Http] in
/-- **What taking a command leaves under way**: a premint to broadcast, or a question for the
swarm. -/
theorem handleCommand_cases (m : Moment) (sender : Option Nat) (command : ControllerCommands)
    (hselect : s.activity = .select) :
    (∀ item ∈ (s.handleCommand m sender command).commands.items, item ∈ s.commands.items)
      ∧ (∀ message id, (s.handleCommand m sender command).activity
          = .broadcasting message (some id) → sender = some id ∧ command = .broadcast message)
      ∧ ∀ id ∈ (s.handleCommand m sender command).asked,
          id ∈ s.asked ∨ sender = some id ∧ command = .returnNetworkState := by
  have hidle : ∀ message id, s.activity = .broadcasting message (some id) → False := by
    rw [hselect]
    exact fun _ _ h => by cases h
  unfold handleCommand
  split
  · -- a premint: it is stored and waits to be broadcast, or it is refused
    split
    · exact ⟨fun _ h => h, fun _ _ h => by cases h; exact ⟨rfl, rfl⟩, fun _ h => .inl h⟩
    · exact ⟨fun _ h => h, fun _ _ h => (hidle _ _ h).elim, fun _ h => .inl h⟩
  · -- the network state: the swarm is asked, or it is gone
    split
    · refine ⟨fun _ h => h, fun _ _ h => (hidle _ _ h).elim, fun id h => ?_⟩
      rcases List.mem_append.mp h with h | h
      · exact .inl h
      · exact .inr ⟨Option.mem_toList.mp h, rfl⟩
    · exact ⟨fun _ h => h, fun _ _ h => (hidle _ _ h).elim, fun _ h => .inl h⟩
  · -- everything else is done at once
    unfold forward
    split
    · exact ⟨fun _ h => h, fun _ _ h => (hidle _ _ h).elim, fun _ h => .inl h⟩
    · exact ⟨fun _ h => by (cases h), fun _ _ h => by (cases h), fun _ h => .inl h⟩

theorem linked_step (hs : Step s i s') (h : Linked s) : Linked s' := by
  have hkept := h.shrink hs
  have hsent : ∀ {id command}, Sent s id command → Sent s' id command := sent_step hs
  cases hs with
  | arrive | respond | sendClosed | countTotal | countActive | timeout =>
      exact hkept (fun _ h => h) (fun _ _ h => h) (fun _ h => h)
  | send n hcalled hbegin hopen hsend =>
      refine ⟨fun id command hmem => ?_, fun _ _ hactive => hsent (h.broadcasting _ _ hactive),
        fun _ hmem => hsent (h.asked _ hmem)⟩
      -- the command that is added is the handler's own
      rcases Lib.Channel.mem_send hsend hmem with hmem | heq
      · exact hsent (h.commands id command hmem)
      · cases heq
        exact ⟨_, _, setHandler_self, afterSend_ne_called _, begin_eq_send_iff.mp hbegin⟩
  | sendCommand command hopen hsend =>
      refine ⟨fun id command hmem => hsent ?_,
        fun _ _ hactive => hsent (h.broadcasting _ _ hactive),
        fun _ hmem => hsent (h.asked _ hmem)⟩
      rcases Lib.Channel.mem_send hsend hmem with hmem | heq
      · -- a command from elsewhere has no handler to link to
        exact h.commands id command hmem
      · cases heq
  | @command m sender command commands hselect hrecv =>
      have hitems := (Lib.Channel.recv_cases hrecv).1
      obtain ⟨hleft, hactive, hasked⟩ :=
        handleCommand_cases (s := { s with commands }) m sender command hselect
      -- what is taken out was linked to its sender, and stays so in either place
      have htaken : ∀ id, sender = some id → Sent s id command := fun id hid =>
        h.commands id command (hid ▸ Lib.Channel.mem_recv hrecv)
      refine ⟨fun id c hmem => hsent (h.commands id c ?_), fun message id hbroadcasting => ?_,
        fun id hmem => ?_⟩
      · rw [hitems]
        exact List.mem_cons_of_mem _ (hleft _ hmem)
      · obtain ⟨hid, rfl⟩ := hactive message id hbroadcasting
        exact hsent (htaken id hid)
      · rcases hasked id hmem with hmem | ⟨hid, rfl⟩
        · exact hsent (h.asked id hmem)
        · exact hsent (htaken id hid)
  | broadcast hbroadcasting =>
      unfold broadcast at hkept ⊢
      split at hkept <;>
        exact hkept (fun _ h => h) (fun _ _ h => by cases h) (fun _ h => h)
  | @event event outcome hselect hsync hevent =>
      cases outcome with
      | ret c => exact hkept (fun _ h => h) (fun _ _ h => h) (fun _ h => h)
      | panic => exact hkept (fun _ h => by cases h) (fun _ _ h => by cases h) (fun _ h => h)
  | syncTick m hselect =>
      -- the controller goes on, or it panics and drops everything that was under way
      cases houtcome : s.controller.requestSync m with
      | ret c =>
          rw [houtcome] at hkept
          exact hkept (fun _ h => h) (fun _ _ h => h) (fun _ h => h)
      | panic =>
          rw [houtcome] at hkept
          exact hkept (fun _ h => by cases h) (fun _ _ h => by cases h) (fun _ h => h)
  | syncResponse => exact hkept (fun _ h => h) (fun _ _ h => by cases h) (fun _ h => h)
  | insert => exact hkept (fun _ h => h) (fun _ _ h => by cases h) (fun _ h => h)
  | inserted => exact hkept (fun _ h => h) (fun _ _ h => by cases h) (fun _ h => h)
  | networkState n state hasked =>
      exact hkept (fun _ h => h) (fun _ _ h => h) (fun _ h => List.mem_of_mem_erase h)
  | swarmEnds => exact hkept (fun _ h => h) (fun _ _ h => h) (fun _ h => by cases h)

/-- What a handler waits for fits its route. -/
def Fits (route : Route) : HandlerState → Prop
  | .receiving => ∃ command, commandOf route = some command
  | .counting _ | .countingActive _ _ => route = .summary
  | .called | .responded _ => True

/-- What is under way fits the requests that it is for. -/
structure Consistent (s : Api Text) : Prop extends Linked s where
  fits : ∀ id request state, s.handlers id = some ⟨request, state⟩ → Fits request.route state

omit [Alloy] [Libp2p] [MultiaddrText] [Http] in
theorem route_of_command {route : Route} (h : commandOf route = some .returnNetworkState) :
    route = .summary := by
  cases route <;> first | rfl | cases h

omit [Alloy] [Codec Text] [Libp2p] [MultiaddrText] in
theorem consistent_start (config : Config) (rules : RulesEngine Text) (apiSecret : Option String) :
    Consistent (start config rules apiSecret) :=
  ⟨linked_start config rules apiSecret, fun _ _ _ h => by cases h⟩

theorem consistent_step (hs : Step s i s') (h : Consistent s) : Consistent s' := by
  refine ⟨linked_step hs h.toLinked, fun id request state' hhandler => ?_⟩
  rcases handler_cases hs hhandler with ⟨_, _, rfl⟩ | ⟨state, hstate, hmoves⟩
  · trivial
  have hfits := h.fits id request state hstate
  cases hmoves with
  | same => exact hfits
  | send hdb hbegin =>
      -- a handler that sent waits only if the controller replies to its command
      have hsends := (begin_eq_send_iff.mp hbegin).1
      generalize request.route = route at hsends ⊢
      cases route with
      | submitPremint | adminSubmitPremint | summary => exact ⟨_, hsends⟩
      | adminAddPeer | adminSync => trivial
      | health | listAll | getOne | getByIdAndKind => cases hsends
  | networkState hasked =>
      -- only a summary asks for the network state
      obtain ⟨request', state, hhandler', _, hsends, _⟩ := h.asked id hasked
      rw [hstate] at hhandler'
      cases hhandler'
      exact route_of_command hsends
  | countTotal => exact hfits
  | respond | closed | dropped | timeout | refused | sent | countActive => trivial

end Linked

/-! ## One moment for every response -/

section Effects

variable [Alloy] [Codec Text] [Libp2p] [MultiaddrText] [Http] {s s' : Api Text} {i : Input}
  {id : Nat} {request : Request} {response : Response} {state : HandlerState}

/-- The moment at which a command is taken. -/
def Input.moment : Input → Option Moment
  | .command m => some m
  | _ => none

/--
The response of a handler that nothing interferes with, and the storage afterwards: the
controller takes its command at once, at this moment, and it does not wait.
-/
inductive Answers (apiSecret : Option String) (c : Controller Text) (now : Option Moment)
    (request : Request) : Response → PremintStorage Text → Prop
  | respond {response : Response} (h : request.begin apiSecret c.store = .respond response) :
      Answers apiSecret c now request response c.store
  | submit (m : Moment) {message : PremintTypes} {result : Except BroadcastError Unit}
      {c' : Controller Text} (hnow : now = some m)
      (h : request.begin apiSecret c.store = .send (.broadcast message))
      (hcommand : c.handleCommand m (.broadcast message) = .ret (.broadcast result, .ok (), c')) :
      Answers apiSecret c now request (submitPremint result) c'.store
  | send {command : ControllerCommands} {response : Response}
      (h : request.begin apiSecret c.store = .send command)
      (hafter : request.route.afterSend = .responded response) :
      Answers apiSecret c now request response c.store

/-- The controller with the table as it is now, and with the swarm there or not. -/
def atOnce (s : Api Text) (swarmOpen : Bool) : Controller Text :=
  { s.controller with store := s.db, swarmOpen }

/-- The request is being served, and has no response yet. -/
def Unanswered (id : Nat) (request : Request) (s : Api Text) : Prop :=
  ∃ state, s.handlers id = some ⟨request, state⟩ ∧ ∀ r, state ≠ .responded r

/-- This would be the response if the request were served at one go, with the swarm there or
not. -/
def TakesEffectWith (id : Nat) (request : Request) (response : Response) (swarmOpen : Bool)
    (s : Api Text) (i : Input) (s' : Api Text) : Prop :=
  Unanswered id request s
    ∧ Answers s.apiSecret (s.atOnce swarmOpen) i.moment request response s'.db

/-- This would be the response if the request were served at one go, as the swarm is. -/
def TakesEffect (id : Nat) (request : Request) (response : Response) (s : Api Text) (i : Input)
    (s' : Api Text) : Prop :=
  TakesEffectWith id request response s.controller.swarmOpen s i s'

/-- The swarm ends before the request has its response. -/
def SwarmEnds (id : Nat) (request : Request) (s : Api Text) (i : Input) (_ : Api Text) : Prop :=
  Unanswered id request s ∧ i = .swarmEnds

/-- A response that says what has been done, unlike that of a handler that has given up. A
summary is not about one moment. -/
structure Regular (route : Route) (response : Response) : Prop where
  summary : route ≠ .summary
  inTime : response ≠ timedOut
  handled : (∃ command, commandOf route = some command) → response ≠ route.channelClosed

/-- The premint of the request is stored, and is to be broadcast. -/
def UnderWay (id : Nat) (request : Request) (s : Api Text) (message : PremintTypes) : Prop :=
  s.handlers id = some ⟨request, .receiving⟩ ∧ s.activity = .broadcasting message (some id)

/-- The response has been given, or is certain unless the swarm ends. -/
def Settled (id : Nat) (request : Request) (s : Api Text) (response : Response) : Prop :=
  (s.handlers id = some ⟨request, .responded response⟩ ∧ Regular request.route response)
    ∨ ∃ message result, UnderWay id request s message ∧ response = submitPremint result
      ∧ Sending s.controller.swarmOpen result

omit [Libp2p] [MultiaddrText] [Http] in
theorem handleCommand_of_refused {c c' : Controller Text} {m : Moment} {message : PremintTypes}
    {error : InsertError} (h : c.validateAndInsert m message = (.error error, c')) :
    c.handleCommand m (.broadcast message)
      = .ret (.broadcast (.error (.insert error)), .ok (), c') := by
  unfold Controller.handleCommand
  dsimp only
  rw [h]

omit [Libp2p] [MultiaddrText] [Http] in
/-- How `handle_command` ends when it gets as far as the broadcast. -/
theorem handleCommand_of_stored {c c' : Controller Text} {m : Moment} {message : PremintTypes}
    {evaluation : Results} (h : c.validateAndInsert m message = (.ok evaluation, c'))
    {swarmOpen : Bool} {result : Except BroadcastError Unit} (hresult : Sending swarmOpen result) :
    ∃ result' c'', submitPremint result' = submitPremint result
      ∧ ({ c with swarmOpen } : Controller Text).handleCommand m (.broadcast message)
        = .ret (.broadcast result', .ok (), c'') ∧ c''.store = c'.store := by
  -- the rules and the table do not see whether the swarm is there
  have hins : ({ c with swarmOpen } : Controller Text).validateAndInsert m message
      = (.ok evaluation, { c' with swarmOpen }) := by
    unfold Controller.validateAndInsert at h ⊢
    cases h' : Mintpool.validateAndInsert c.rules m c.store message with
    | mk r store =>
        rw [h'] at h
        cases h
        rfl
  cases hresult with
  | sent =>
      refine ⟨.ok (), { c' with
        swarmOpen := true, swarmCommands := c'.swarmCommands ++ [.broadcast message] },
        rfl, ?_, rfl⟩
      unfold Controller.handleCommand
      dsimp only
      rw [hins]
      rfl
  | closed report =>
      refine ⟨.error (.swarm (.msg "channel closed")), { c' with swarmOpen := false }, rfl, ?_, rfl⟩
      unfold Controller.handleCommand
      dsimp only
      rw [hins]
      rfl

omit [Libp2p] [MultiaddrText] [Http] in
theorem validateAndInsert_swarmOpen {c c' : Controller Text} {m : Moment} {message : PremintTypes}
    {result : Except InsertError Results} (h : c.validateAndInsert m message = (result, c')) :
    c'.swarmOpen = c.swarmOpen := by
  unfold Controller.validateAndInsert at h
  cases h
  rfl

/-- **What takes a premint as far as the broadcast.** Until then only the swarm can change
anything for it. -/
theorem broadcasting_cases (hs : Step s i s') {message : PremintTypes}
    (h : s'.activity = .broadcasting message (some id)) :
    (s.activity = .broadcasting message (some id)
        ∧ (s'.controller.swarmOpen = s.controller.swarmOpen ∨ i = .swarmEnds))
      ∨ ∃ m commands evaluation c, i = .command m ∧ s.activity = .select
        ∧ s.commands.recv = some ((some id, .broadcast message), commands)
        ∧ s.controller.validateAndInsert m message = (.ok evaluation, c)
        ∧ s'.controller = c ∧ s'.db = c.store ∧ s'.handlers = s.handlers := by
  cases hs with
  | arrive | respond | send | sendClosed | countTotal | countActive | timeout | sendCommand =>
      exact .inl ⟨h, .inl rfl⟩
  | networkState => exact .inl ⟨h, .inl rfl⟩
  | swarmEnds => exact .inl ⟨h, .inr rfl⟩
  | @command m sender command commands hselect hrecv =>
      -- a command is taken between two inputs, so there is no broadcast yet
      have hidle : s.activity ≠ .broadcasting message (some id) := by
        rw [hselect]
        exact fun h => by cases h
      unfold handleCommand at h ⊢
      split at h
      · split at h
        · -- the premint has just been stored
          rename_i evaluation c hins
          cases h
          exact .inr ⟨m, commands, evaluation, c, rfl, hselect, hrecv, hins, rfl, rfl, rfl⟩
        · exact absurd h hidle
      · split at h <;> exact absurd h hidle
      · unfold forward at h
        split at h
        · exact absurd h hidle
        · cases h
  | broadcast hbroadcasting =>
      unfold broadcast at h
      split at h <;> cases h
  | @event event outcome hselect =>
      -- during a broadcast the controller takes no event and no tick
      cases outcome with
      | ret c =>
          rw [show s.activity = .broadcasting message (some id) from h] at hselect
          cases hselect
      | panic => cases h
  | syncTick m hselect =>
      cases houtcome : s.controller.requestSync m with
      | ret c =>
          rw [houtcome] at h
          rw [show s.activity = .broadcasting message (some id) from h] at hselect
          cases hselect
      | panic =>
          rw [houtcome] at h
          cases h
  | syncResponse | insert | inserted => cases h

omit [Alloy] [Codec Text] [Libp2p] [MultiaddrText] [Http] in
theorem atOnce_of_select (hselect : s.activity = .select) (swarmOpen : Bool) :
    s.atOnce swarmOpen = { s.controller with swarmOpen } := by
  unfold atOnce
  rw [db_of_select hselect]

omit [Libp2p] [MultiaddrText] in
/-- What has been sent for a request is what its handler would send. -/
theorem begin_of_sent {s : Api Text} {command : ControllerCommands} (db : PremintStorage Text)
    (h : Sent s id command) (hhandler : s.handlers id = some ⟨request, state⟩) :
    state ≠ .called ∧ request.begin s.apiSecret db = .send command := by
  obtain ⟨request', state', hhandler', hcalled, hsends⟩ := h
  rw [hhandler] at hhandler'
  cases hhandler'
  exact ⟨hcalled, begin_eq_send_iff.mpr hsends⟩

/-- A handler that waits for the broadcast of its premint has waited before, or the controller
has just stored it. -/
theorem underWay_cases (hs : Step s i s') (hconsistent : Consistent s) {message : PremintTypes}
    (h : UnderWay id request s' message) :
    UnderWay id request s message
        ∧ (s'.controller.swarmOpen = s.controller.swarmOpen ∨ i = .swarmEnds)
      ∨ s'.controller.swarmOpen = s.controller.swarmOpen
        ∧ ∀ {swarmOpen : Bool} {result : Except BroadcastError Unit}, Sending swarmOpen result →
          TakesEffectWith id request (submitPremint result) swarmOpen s i s' := by
  obtain ⟨hreceiving, hactive⟩ := h
  rcases broadcasting_cases hs hactive with
    ⟨hbefore, hopen⟩ | ⟨m, commands, evaluation, c, rfl, hselect, hrecv, hins, hc, hdb, hhandlers⟩
  · -- nothing but the swarm has changed, and the handler still waits
    refine .inl ⟨⟨?_, hbefore⟩, hopen⟩
    rcases handler_cases hs hreceiving with ⟨_, _, h⟩ | ⟨state, hstate, hmoves⟩
    · cases h
    have hcalled := (begin_of_sent s.db (hconsistent.broadcasting _ _ hbefore) hstate).1
    generalize hto : HandlerState.receiving = state' at hmoves
    cases hmoves with
    | same =>
        subst hto
        exact hstate
    | send => exact absurd rfl hcalled
    | _ => cases hto
  · -- this is the moment: the table changes now, and the response is that of the broadcast
    rw [hhandlers] at hreceiving
    have hsent := hconsistent.commands id _ (Lib.Channel.mem_recv hrecv)
    have hbegin := (begin_of_sent s.controller.store hsent hreceiving).2
    refine .inr ⟨hc ▸ validateAndInsert_swarmOpen hins, fun {swarmOpen} {result} hresult => ?_⟩
    obtain ⟨result', c', hsame, hcall, hstore⟩ := handleCommand_of_stored hins hresult
    refine ⟨⟨_, hreceiving, fun _ h => by cases h⟩, ?_⟩
    rw [atOnce_of_select hselect, hdb, ← hsame, ← hstore]
    exact .submit m rfl hbegin hcall

/-- What settles a response: the request takes effect, or the swarm ends while the premint waits
to be broadcast. -/
def Settles (id : Nat) (request : Request) (response : Response) (s : Api Text) (i : Input)
    (s' : Api Text) : Prop :=
  TakesEffect id request response s i s'
    ∨ i = .swarmEnds ∧ ∃ message report, UnderWay id request s message
      ∧ response = submitPremint (.error (.swarm report))

theorem settled_step (hs : Step s i s') (hconsistent : Consistent s)
    (h : Settled id request s' response) :
    Settled id request s response ∨ Settles id request response s i s' := by
  rcases h with ⟨hresponded, hregular⟩ | ⟨message, result, hunderWay, rfl, hresult⟩
  · -- the response is there: it was there before, or one of the ways to go on has given it
    rcases handler_cases hs hresponded with ⟨_, _, h⟩ | ⟨state, hstate, hmoves⟩
    · cases h
    generalize hto : HandlerState.responded response = state' at hmoves
    cases hmoves with
    | same =>
        subst hto
        exact .inl (.inl ⟨hstate, hregular⟩)
    | respond hdb hbegin =>
        cases hto
        refine .inr (.inl ⟨⟨_, hstate, fun _ h => by cases h⟩, ?_⟩)
        rw [hdb]
        exact .respond hbegin
    | send hdb hbegin =>
        refine .inr (.inl ⟨⟨_, hstate, fun _ h => by cases h⟩, ?_⟩)
        rw [hdb]
        exact .send hbegin hto.symm
    | closed hbegin =>
        -- the ways of giving up are not regular
        cases hto
        exact absurd rfl (hregular.handled ⟨_, (begin_eq_send_iff.mp hbegin).1⟩)
    | dropped =>
        cases hto
        exact absurd rfl (hregular.handled (hconsistent.fits _ _ _ hstate))
    | timeout =>
        cases hto
        exact absurd rfl hregular.inTime
    | refused m hi hselect hrecv hins hdb =>
        -- the rules refuse the premint, and this is the moment
        cases hto
        have hsent := hconsistent.commands id _ (Lib.Channel.mem_recv hrecv)
        have hbegin := (begin_of_sent s.controller.store hsent hstate).2
        refine .inr (.inl ⟨⟨_, hstate, fun _ h => by cases h⟩, ?_⟩)
        rw [atOnce_of_select hselect, hdb, hi]
        exact .submit m rfl hbegin (handleCommand_of_refused hins)
    | sent hbroadcasting hresult =>
        -- the reply was certain as soon as the premint was stored
        cases hto
        exact .inl (.inr ⟨_, _, ⟨hstate, hbroadcasting⟩, rfl, hresult⟩)
    | networkState | countTotal => cases hto
    | countActive =>
        -- a summary counts twice, so it is not about one moment
        exact absurd (hconsistent.fits _ _ _ hstate) hregular.summary
  · -- the premint still waits to be broadcast
    rcases underWay_cases hs hconsistent hunderWay with ⟨hbefore, hopen | rfl⟩ | ⟨hopen, heffect⟩
    · rw [hopen] at hresult
      exact .inl (.inr ⟨message, result, hbefore, rfl, hresult⟩)
    · -- the swarm is gone now, whether it was there or not
      obtain ⟨report, rfl⟩ : ∃ report, result = .error (.swarm report) := by
        cases hs
        cases hresult with
        | closed report => exact ⟨report, rfl⟩
      exact .inr (.inr ⟨rfl, message, report, hbefore, rfl⟩)
    · rw [hopen] at hresult
      exact .inr (.inl (heffect hresult))

/-! ### Over a run -/

variable {config : Config} {rules : RulesEngine Text} {apiSecret : Option String}
  {is js : List Input}

theorem consistent_run (hrun : Run s is s') (h : Consistent s) : Consistent s' :=
  Lib.Run.invariant h (fun _ _ _ h hs => consistent_step hs h) hrun

/-- The request arrives. -/
def Arrives (id : Nat) (request : Request) (_ : Api Text) (i : Input) (_ : Api Text) : Prop :=
  i = .arrive id request

/-- There is a handler for the request. -/
def Serves (id : Nat) (s : Api Text) (request : Request) : Prop :=
  ∃ state, s.handlers id = some ⟨request, state⟩

theorem arrived_before (hnew : s.handlers id = none) (hrun : Run s is s')
    (h : s'.handlers id = some ⟨request, state⟩) : Lib.Once Step (Arrives id request) s is s' := by
  -- at the start of the run the number is not in use
  have hnone : ∀ request, ¬ Serves id s request := by
    rintro request ⟨state, hstate⟩
    rw [hnew] at hstate
    cases hstate
  have hserves : Serves id s' request := ⟨state, h⟩
  refine Lib.Run.cause hnone (fun s₁ i s₂ request hs h => ?_) hrun hserves
  obtain ⟨state, hstate⟩ := h
  rcases handler_cases hs hstate with ⟨_, harrive, _⟩ | ⟨state₀, hstate₀, _⟩
  · exact .inr harrive
  · exact .inl ⟨state₀, hstate₀⟩

/-- A premint that is to be broadcast was stored at one moment. -/
theorem stored_before (hconsistent : Consistent s) (hnew : s.handlers id = none)
    (hrun : Run s is s') {message : PremintTypes} (h : UnderWay id request s' message)
    {swarmOpen : Bool} {result : Except BroadcastError Unit} (hresult : Sending swarmOpen result) :
    Lib.Once Step (TakesEffectWith id request (submitPremint result) swarmOpen) s is s' := by
  induction hrun with
  | nil =>
      rw [UnderWay, hnew] at h
      cases h.1
  | snoc hrun hs ih =>
      rcases underWay_cases hs (consistent_run hrun hconsistent) h with ⟨hbefore, _⟩ | ⟨_, heffect⟩
      · exact (ih hbefore).trans (.single hs)
      · exact .last hrun hs (heffect hresult)

/-- **A response is that of one moment**, with the swarm as it is then or as it is soon after. -/
theorem took_effect (hconsistent : Consistent s) (hnew : s.handlers id = none)
    (hrun : Run s is s') (h : s'.handlers id = some ⟨request, .responded response⟩)
    (hregular : Regular request.route response) :
    Lib.Once Step (TakesEffect id request response) s is s'
      ∨ Lib.InOrder Step s [TakesEffectWith id request response false, SwarmEnds id request] is
        s' := by
  have hnone : ∀ state, s.handlers id ≠ some ⟨request, state⟩ := by
    intro state hstate
    rw [hnew] at hstate
    cases hstate
  have hsettled : Settled id request s' response := .inl ⟨h, hregular⟩
  have hsettles : Lib.Once Step (Settles id request response) s is s' := by
    -- a response that is settled at the end was not at the start, so some step has settled it
    refine Lib.Run.cause_of (I := Consistent) (fun s i s' h hs => consistent_step hs h) hconsistent
      (fun response hs => ?_) (fun s i s' response hI hs h => ?_) hrun hsettled
    · rcases hs with ⟨h, _⟩ | ⟨_, _, ⟨h, _⟩, _⟩ <;> exact hnone _ h
    · exact settled_step hs hI h
  obtain ⟨done, i, rest, s₁, s₂, rfl, hbefore, hs, heffect | ⟨hi, message, report, hunderWay, rfl⟩,
    hafter⟩ := hsettles
  · exact .inl ⟨done, i, rest, s₁, s₂, rfl, hbefore, hs, heffect, hafter⟩
  · -- it was stored before the swarm ended
    have hstored := stored_before hconsistent hnew hbefore hunderWay (.closed report)
    have horder : Lib.InOrder Step s
        [TakesEffectWith id request (submitPremint (.error (.swarm report))) false] done s₁ :=
      hstored.after [] fun _ _ _ _ hrun _ _ => .nil hrun
    exact .inr (horder.snoc hs ⟨⟨_, hunderWay.1, fun _ h => by cases h⟩, hi⟩ hafter)

/-- Either way there is such a moment, and what follows holds with the swarm there or not. -/
theorem answered_once (hconsistent : Consistent s) (hnew : s.handlers id = none)
    (hrun : Run s is s') (h : s'.handlers id = some ⟨request, .responded response⟩)
    (hregular : Regular request.route response) :
    Lib.Once Step (fun s i s' => ∃ swarmOpen, TakesEffectWith id request response swarmOpen s i s')
      s is s' := by
  rcases took_effect hconsistent hnew hrun h hregular with honce | horder
  · exact honce.mono fun _ heffect => ⟨_, heffect⟩
  · exact (horder.once List.mem_cons_self).mono fun _ heffect => ⟨_, heffect⟩

/--
**Requests take effect at one moment.** In every run, a response other than a summary or that of
a handler that has given up is the one that the handler alone would have given at some moment
after the request arrived and before the response, and what has become of the table at that
moment is what it alone would have made of it. So served concurrently, requests have the
responses of some order in which they are served one by one, and the order is that of real time.
There is one difference: the swarm may end after a premint is stored and before it is broadcast,
and then the response is the one for a swarm that had ended already.
-/
theorem responses_at_one_moment (hrun : Run (start config rules apiSecret) is s)
    (h : s.handlers id = some ⟨request, .responded response⟩)
    (hregular : Regular request.route response) :
    Lib.InOrder Step (start config rules apiSecret)
        [Arrives id request, TakesEffect id request response] is s
      ∨ Lib.InOrder Step (start config rules apiSecret)
        [Arrives id request, TakesEffectWith id request response false, SwarmEnds id request]
        is s := by
  have hstart := consistent_start config rules apiSecret
  have harrived : ∀ {is : List Input} {s₁ : Api Text},
      Run (start config rules apiSecret) is s₁ → Unanswered id request s₁ →
        Lib.InOrder Step (start config rules apiSecret) [Arrives id request] is s₁ := by
    rintro is s₁ hrun ⟨state, hstate, _⟩
    exact (arrived_before rfl hrun hstate).after [] fun _ _ _ _ hrun _ _ => .nil hrun
  rcases took_effect hstart rfl hrun h hregular with honce | horder
  · exact .inl (honce.after [_] fun is₁ s₁ i s₂ hrun₁ hs heffect => harrived hrun₁ heffect.1)
  · exact .inr (horder.after [_] fun is₁ s₁ i s₂ hrun₁ hs heffect => harrived hrun₁ heffect.1)

end Effects

/-! ## Read what you have been told -/

section Session

variable [Alloy] [Codec Text] [Libp2p] [MultiaddrText] [Http] {s s' : Api Text}
  {is js : List Input} {id id' : Nat} {request : Request} {response response' : Response}
  {config : Config} {rules : RulesEngine Text} {apiSecret : Option String} {p : PremintTypes}

/-- The response tells its client that the node has the premint. -/
inductive Tells (request : Request) : Response → PremintTypes → Prop
  | submitted {premint : PremintTypes} (h : commandOf request.route = some (.broadcast premint)) :
      Tells request (submitPremint (.ok ())) premint
  | premint {premint : PremintTypes} (h : commandOf request.route = none) :
      Tells request ⟨.ok, .premint premint⟩ premint
  | premints {premints : List PremintTypes} {premint : PremintTypes}
      (h : commandOf request.route = none) (hmem : premint ∈ premints) :
      Tells request ⟨.ok, .premints premints⟩ premint

omit [Alloy] [Codec Text] [Libp2p] [MultiaddrText] [Http] in
theorem Tells.regular (h : Tells request response p) : Regular request.route response := by
  have hsummary :
      commandOf request.route ≠ some .returnNetworkState → request.route ≠ .summary := by
    intro hne heq
    rw [heq] at hne
    exact hne rfl
  -- giving up is always an error, and what tells of a premint is not
  have hok : response.status = .ok := by cases h <;> rfl
  have hclosed : ∀ route : Route, response ≠ route.channelClosed := by
    rintro route rfl
    cases route <;> cases hok
  refine ⟨hsummary ?_, ?_, fun _ => hclosed _⟩
  · cases h with
    | submitted h => rw [h]; exact fun h => by cases h
    | premint h => rw [h]; exact fun h => by cases h
    | premints h => rw [h]; exact fun h => by cases h
  · rintro rfl
    cases hok

omit [Libp2p] [MultiaddrText] [Http] in
/-- A row that decodes is the row of its premint. -/
theorem row_of_mem {db : PremintStorage Text} {r : Row Text} (hall : AllHold db)
    (hr : r ∈ db.table.rows) (hjson : PremintTypes.fromJson r.json = .ok p) :
    ∃ r, db.table.lookup (premintKey p) = some r ∧ Holds r p := by
  obtain ⟨q, hq⟩ := hall r hr
  have heq : q = p := Except.ok.inj (hq.json.symm.trans hjson)
  subst heq
  exact ⟨r, by rw [← hq.key]; exact Lib.KeyedTable.mem_iff_lookup.mp hr, hq⟩

omit [Libp2p] [MultiaddrText] [Http] in
/-- What a query returns is in the table. -/
theorem row_of_read {db : PremintStorage Text} {route : Route} (hall : AllHold db)
    (h : route.begin db = .respond response)
    (htells : response = ⟨.ok, .premint p⟩
      ∨ ∃ premints, response = ⟨.ok, .premints premints⟩ ∧ p ∈ premints) :
    ∃ r, db.table.lookup (premintKey p) = some r ∧ Holds r p := by
  -- what is read is decoded from a row
  have hdecode : ∀ {row : Option (Row Text)}, decodeOne row = .ok p →
      ∃ r, row = some r ∧ PremintTypes.fromJson r.json = .ok p := by
    intro row hrow
    cases row with
    | none => cases hrow
    | some r => exact ⟨r, rfl, hrow⟩
  cases route with
  | listAll params =>
      cases h
      rcases htells with h | ⟨premints, h, hmem⟩
      · cases h
      · cases h
        obtain ⟨r, hr, hjson⟩ := mem_decodeRows_iff.mp hmem
        exact row_of_mem hall (List.mem_of_mem_filter hr) hjson
  | getOne params =>
      unfold Route.begin at h
      dsimp only at h
      split at h
      · rename_i q hget
        cases h
        rcases htells with h | ⟨premints, h, _⟩
        · cases h
          obtain ⟨r, hfind, hjson⟩ := hdecode hget
          exact row_of_mem hall (List.mem_of_find?_eq_some hfind) hjson
        · cases h
      · cases h
        rcases htells with h | ⟨premints, h, _⟩ <;> cases h
  | getByIdAndKind kind id =>
      unfold Route.begin at h
      dsimp only at h
      split at h
      · rename_i q hget
        cases h
        rcases htells with h | ⟨premints, h, _⟩
        · cases h
          obtain ⟨r, hlookup, hjson⟩ := hdecode hget
          exact row_of_mem hall (Lib.KeyedTable.lookup_some hlookup).1 hjson
        · cases h
      · cases h
        rcases htells with h | ⟨premints, h, _⟩ <;> cases h
  | health =>
      cases h
      rcases htells with h | ⟨premints, h, _⟩ <;> cases h
  | submitPremint | summary | adminAddPeer | adminSubmitPremint | adminSync => cases h

omit [Libp2p] [MultiaddrText] in
/-- A response that is no error is not that of `auth_middleware`. -/
theorem begin_of_ok {db : PremintStorage Text} (h : request.begin apiSecret db = .respond response)
    (hok : response.status = .ok) : request.route.begin db = .respond response := by
  unfold Request.begin at h
  split at h
  · split at h
    · rename_i response' hauth
      cases h
      unfold authMiddleware at hauth
      split at hauth
      · cases hauth; cases hok
      · split at hauth
        · split at hauth
          · cases hauth; cases hok
          · cases hauth
        · cases hauth; cases hok
    · exact h
  · exact h

omit [Alloy] [Codec Text] [Libp2p] [MultiaddrText] [Http] in
theorem not_ok_of_error (e : BroadcastError) : (submitPremint (.error e)).status ≠ .ok := by
  unfold submitPremint
  dsimp only
  split <;> exact fun h => by cases h

omit [Libp2p] [MultiaddrText] in
/-- **A response that tells of a premint is given when the table has it.** -/
theorem row_of_answer [LawfulCodec Text] {c : Controller Text} {now : Option Moment}
    {db' : PremintStorage Text} (hall : AllHold c.store)
    (h : Answers apiSecret c now request response db') (htells : Tells request response p) :
    ∃ r, db'.table.lookup (premintKey p) = some r ∧ Holds r p := by
  have hok : response.status = .ok := by cases htells <;> rfl
  cases h with
  | respond hbegin =>
      -- a read: the row was in the table when the handler looked
      have hroute := begin_of_ok hbegin hok
      refine row_of_read hall hroute ?_
      cases htells with
      | submitted h =>
          rw [route_begin_eq_send_iff.mpr h] at hroute
          cases hroute
      | premint h => exact .inl rfl
      | premints h hmem => exact .inr ⟨_, rfl, hmem⟩
  | send hbegin hafter =>
      -- a handler that does not wait says nothing about a premint
      have hcommand := (begin_eq_send_iff.mp hbegin).1
      cases htells with
      | submitted h =>
          generalize request.route = route at h hafter
          cases route <;> cases h <;> cases hafter
      | premint h | premints h => rw [h] at hcommand; cases hcommand
  | @submit m message result c' hnow hbegin hcall =>
      -- a submission: the premint is in the table once it is stored
      have hcommand := (begin_eq_send_iff.mp hbegin).1
      have hmessage : message = p := by
        generalize submitPremint result = response at htells
        cases htells with
        | submitted h => rw [h] at hcommand; cases hcommand; rfl
        | premint h | premints h => rw [h] at hcommand; cases hcommand
      subst hmessage
      obtain ⟨reply, c'', hcall', hbroadcasted⟩ := broadcast_cases c m message
      rw [hcall'] at hcall
      cases hcall
      cases hbroadcasted with
      | sent hins hopen =>
          obtain ⟨_, _, _, href⟩ := hins
          obtain ⟨r, hlookup, _, hjson⟩ := stored_of_not_refused m.clock.secs href
          have hall' : AllHold (c.store.store m.clock.secs message).2 :=
            allHold_write c.store (.store m.clock.secs message) hall
          exact row_of_mem hall' (Lib.KeyedTable.lookup_some hlookup).1 hjson
      -- the other endings are errors
      | refused | unsent => exact absurd hok (not_ok_of_error _)

/-- The claim is for the premint. -/
def Names (claim : InclusionClaim) (p : PremintTypes) : Prop :=
  claim.premintId = p.metadata.id ∧ claim.kind = p.metadata.kind.name
    ∧ claim.chainId = p.metadata.chainId

omit [Libp2p] [MultiaddrText] [Http] in
theorem names_of_claimMatches {r : Row Text} {claim : InclusionClaim} (hholds : Holds r p)
    (h : claimMatches claim r = true) : Names claim p := by
  unfold claimMatches at h
  simp only [Bool.and_eq_true, decide_eq_true_eq] at h
  obtain ⟨⟨hid, hchain⟩, hkind⟩ := h
  have hkey : (r.kind, r.id) = (p.metadata.kind.name, p.metadata.id) := hholds.key
  rw [hid, hkind] at hkey
  rw [hholds.chainId] at hchain
  -- the cast loses nothing
  have hcast := congrArg Int64.toUInt64 hchain
  rw [UInt64.toUInt64_toInt64, UInt64.toUInt64_toInt64] at hcast
  exact ⟨congrArg Prod.snd hkey, congrArg Prod.fst hkey, hcast.symm⟩

omit [Libp2p] [MultiaddrText] in
/-- **What a row's request reads.** -/
theorem answer_of_row {authorization : Option (List UInt8)} {c : Controller Text}
    {now : Option Moment} {db' : PremintStorage Text} {r : Row Text} {kind premintId : String}
    (hall : AllHold c.store)
    (hlookup : c.store.table.lookup (kind, premintId) = some r)
    (h : Answers apiSecret c now ⟨.getByIdAndKind kind premintId, authorization⟩ response db') :
    ∃ q, response = ⟨.ok, .premint q⟩ ∧ Holds r q := by
  obtain ⟨q, hq⟩ := hall r (Lib.KeyedTable.lookup_some hlookup).1
  have hget : c.store.getForIdAndKind premintId ⟨kind⟩ = .ok q := by
    show decodeOne (c.store.table.lookup (kind, premintId)) = .ok q
    rw [hlookup]
    exact hq.json
  have hbegin : Request.begin apiSecret c.store ⟨.getByIdAndKind kind premintId, authorization⟩
      = .respond ⟨.ok, .premint q⟩ := by
    show Route.begin c.store (.getByIdAndKind kind premintId) = _
    unfold Route.begin
    dsimp only
    rw [hget]
  cases h with
  | respond h =>
      rw [hbegin] at h
      cases h
      exact ⟨q, rfl, hq⟩
  | submit _ _ h | send h =>
      rw [hbegin] at h
      cases h

/--
**A client reads what it has been told.** Once a response has told of a premint, because it was
submitted or because it was read, a request for it that arrives later finds it, in this version or
a higher one, whoever makes it and whatever happens meanwhile. Versions are compared as the column
has them, in 64 bits with a sign, where `2 ^ 63` comes before `0`. Or its handler takes too long; or
the node prunes, and has been given a claim for the premint, at any time of the run.
-/
theorem told_is_read [LawfulCodec Text] {authorization : Option (List UInt8)}
    (hrun : Run (start config rules apiSecret) is s)
    (h : s.handlers id = some ⟨request, .responded response⟩) (htells : Tells request response p)
    (hlater : Run s js s') (hnew : s.handlers id' = none)
    (h' : s'.handlers id' = some ⟨⟨.getByIdAndKind p.metadata.kind.name p.metadata.id,
      authorization⟩, .responded response'⟩) :
    (∃ q, response' = ⟨.ok, .premint q⟩ ∧ premintKey q = premintKey p
        ∧ p.metadata.version.toInt64 ≤ q.metadata.version.toInt64)
      ∨ response' = timedOut
      ∨ config.pruneMintedPremints = true ∧ ∃ claim, Names claim p
        ∧ Lib.Once Step (Resolves claim) (start config rules apiSecret) (is ++ js) s' := by
  by_cases htimeout : response' = timedOut
  · exact .inr (.inl htimeout)
  have hstart := consistent_start config rules apiSecret
  have hall : AllHold (start config rules apiSecret : Api Text).db := allHold_new _
  -- the table had the premint when the first response was settled
  obtain ⟨done, i, rest, s₁, s₂, rfl, hbefore, hs, ⟨swarmOpen, _, hanswers⟩, hafter⟩ :=
    answered_once hstart rfl hrun h htells.regular
  obtain ⟨r, hlookup, hholds⟩ := row_of_answer (allHold_run hall hbefore) hanswers htells
  -- and this is when the second is
  have hregular : Regular (.getByIdAndKind p.metadata.kind.name p.metadata.id) response' :=
    ⟨fun h => by (cases h), htimeout, fun ⟨_, h⟩ => by (cases h)⟩
  obtain ⟨done', i', rest', s₃, s₄, rfl, hbefore', hs', ⟨swarmOpen', _, hanswers'⟩, hafter'⟩ :=
    answered_once (consistent_run hrun hstart) hnew hlater h' hregular
  have hto₃ : Run s₂ (rest ++ done') s₃ := hafter.trans hbefore'
  have hto₂ : Run (start config rules apiSecret) (done ++ [i]) s₂ := hbefore.snoc hs
  rcases row_outlives hlookup hto₃ with ⟨r', hlookup', hout⟩ | ⟨hprune, claim, hmatches, honce⟩
  · obtain ⟨q, hresponse, hq⟩ :=
      answer_of_row (allHold_run hall (hto₂.trans hto₃)) hlookup' hanswers'
    refine .inl ⟨q, hresponse, ?_, ?_⟩
    · rw [← hq.key]
      exact (Lib.KeyedTable.lookup_some hlookup').2
    · rw [← hholds.version, ← hq.version]
      exact hout.version_le
  · refine .inr (.inr ⟨(prune_run hto₂).symm.trans hprune, claim,
      names_of_claimMatches hholds hmatches, ?_⟩)
    have hwhole := (honce.prepend hto₂).trans ((Lib.Run.single hs').trans hafter')
    simpa using hwhole

end Session

/-! ## A premint that is submitted and read -/

section Example

open Sample

attribute [local instance] Sample.alloy Sample.libp2p Swarm.relayText asciiHttp

/-- The controller takes the first command of a request, and stores its premint. -/
theorem run_submitted {s : Api Wire} (m : Moment) (id : Nat) (request : Request)
    {message : PremintTypes} {evaluation : Results} {c : Controller Wire}
    (hnew : s.handlers id = none) (hselect : s.activity = .select) (hempty : s.commands.items = [])
    (hopen : c.swarmOpen = true)
    (hbegin : request.begin s.apiSecret s.db = .send (.broadcast message))
    (hafter : request.route.afterSend = .receiving)
    (hins : s.controller.validateAndInsert m message = (.ok evaluation, c)) :
    ∃ s', Run s [.arrive id request, .handle id, .command m, .broadcast] s'
      ∧ s'.handlers id = some ⟨request, .responded (submitPremint (.ok ()))⟩
      ∧ ∀ n, n ≠ id → s'.handlers n = s.handlers n := by
  obtain ⟨commands, hsend⟩ :=
    Lib.Channel.exists_send (Lib.Channel.not_isFull_of_nil hempty) (some id, .broadcast message)
  have hitems := (Lib.Channel.send_cases hsend).2.1
  rw [hempty, List.nil_append] at hitems
  obtain ⟨item, commands', hrecv⟩ := Lib.Channel.exists_recv (c := commands) (by rw [hitems]; simp)
  have hitem := (Lib.Channel.recv_cases hrecv).1
  rw [hitems] at hitem
  obtain ⟨rfl, _⟩ := List.cons.inj hitem
  let s₁ := s.setHandler id ⟨request, .called⟩
  let s₂ : Api Wire := { s₁.setHandler id ⟨request, .receiving⟩ with commands }
  let s₃ : Api Wire :=
    { s₂ with commands := commands', controller := c, activity := .broadcasting message (some id) }
  have h₁ : Step s (.arrive id request) s₁ := .arrive id request hnew
  have h₂ : Step s₁ (.handle id) s₂ := by
    have hlive : s₁.activity ≠ .panicked := by
      show s.activity ≠ .panicked
      rw [hselect]
      exact fun h => by cases h
    have hstep := Step.send (s := s₁) id setHandler_self hbegin hlive hsend
    rw [hafter] at hstep
    exact hstep
  have h₃ : Step s₂ (.command m) s₃ := by
    have hstep := Step.command (s := s₂) m hselect hrecv
    unfold handleCommand at hstep
    dsimp only at hstep
    rw [show s₂.controller.validateAndInsert m message = _ from hins] at hstep
    exact hstep
  have h₄ : Step s₃ .broadcast (s₃.broadcast message (some id)) := .broadcast rfl
  have hhandlers : (s₃.broadcast message (some id)).handlers
      = tell s₃.handlers (fun n => some id = some n) (replied (.ok ())) := by
    unfold broadcast
    rw [sendSwarm_of_open (c := s₃.controller) hopen]
  refine ⟨_, (((Lib.Run.single h₁).snoc h₂).snoc h₃).snoc h₄, ?_, fun n hne => ?_⟩
  · have hreceiving : s₃.handlers id = some ⟨request, .receiving⟩ := setHandler_self
    rw [hhandlers]
    unfold tell
    rw [if_pos (decide_eq_true rfl), hreceiving]
    rfl
  · have hsame : s₃.handlers n = s.handlers n :=
      (setHandler_of_ne (s := s₁) hne).trans (setHandler_of_ne hne)
    rw [hhandlers]
    unfold tell
    rw [if_neg (by simpa using hne.symm), hsame]

/-- A node without RPC. -/
def offlineApi : Api Wire := start {} offlineRules none

def submission : Request := ⟨.submitPremint (.zoraV2 validPremint), none⟩

/-- A request for the premint. -/
def premintLookup : Request :=
  ⟨.getByIdAndKind validPremint.metadata.kind.name validPremint.metadata.id, none⟩

theorem run_submission : ∃ s,
    Run offlineApi [.arrive 0 submission, .handle 0, .command offline, .broadcast] s
      ∧ s.handlers 0 = some ⟨submission, .responded (submitPremint (.ok ()))⟩
      ∧ s.handlers 1 = none := by
  have href : ¬ Refused (node {}).store (.zoraV2 validPremint) := by decide +kernel
  obtain ⟨evaluation, hev, hacc⟩ := accepts_of_decide (p := .zoraV2 validPremint)
    (s := (node {}).store) (by decide +kernel)
  have hins := validateAndInsert_of_accept hev hacc href
  have hins' : (node {}).validateAndInsert offline (.zoraV2 validPremint) = (.ok evaluation,
      { node {} with store := ((node {}).store.store 0 (.zoraV2 validPremint)).2 }) := by
    unfold Controller.validateAndInsert
    rw [show Mintpool.validateAndInsert (node {}).rules offline (node {}).store _ = _ from hins]
    rfl
  obtain ⟨s, hrun, hresponded, hothers⟩ :=
    run_submitted (s := offlineApi) offline 0 submission rfl rfl rfl rfl rfl rfl hins'
  exact ⟨s, hrun, hresponded, hothers 1 (by decide)⟩

theorem tells_submission :
    Tells submission (submitPremint (.ok ())) (.zoraV2 validPremint) := .submitted rfl

/-- **Its submission is answered as its handler alone would have answered it.** -/
theorem submission_at_one_moment : ∃ s, Lib.InOrder Step offlineApi
    [Arrives 0 submission, TakesEffect 0 submission (submitPremint (.ok ()))]
    [.arrive 0 submission, .handle 0, .command offline, .broadcast] s := by
  obtain ⟨s, hrun, hresponded, _⟩ := run_submission
  refine ⟨s, (responses_at_one_moment hrun hresponded tells_submission.regular).resolve_right
    fun h => ?_⟩
  -- its swarm does not end
  have hends : Lib.Once Step (SwarmEnds 0 submission) offlineApi _ s := h.once (by simp)
  obtain ⟨i, hi, _, _, _, rfl⟩ := hends.input
  simp at hi

/-- A request that sends nothing is answered. -/
theorem run_read {s : Api Wire} (id : Nat) (request : Request) (hnew : s.handlers id = none)
    (hroute : commandOf request.route = none) : ∃ s' response,
      Run s [.arrive id request, .handle id] s'
        ∧ s'.handlers id = some ⟨request, .responded response⟩ := by
  cases hbegin : request.begin s.apiSecret s.db with
  | respond response =>
      exact ⟨_, response, (Lib.Run.single (.arrive id request hnew)).snoc
        (.respond id setHandler_self hbegin), setHandler_self⟩
  | send command =>
      have hcommand := (begin_eq_send_iff.mp hbegin).1
      rw [hroute] at hcommand
      cases hcommand

/-- **And then it is read, or it has taken too long, or was given a claim.** -/
theorem submission_is_read : ∃ s' response,
    s'.handlers 1 = some ⟨premintLookup, .responded response⟩
    ∧ ((∃ q, response = ⟨.ok, .premint q⟩ ∧ premintKey q = premintKey (.zoraV2 validPremint)
          ∧ (PremintTypes.zoraV2 validPremint).metadata.version.toInt64
            ≤ q.metadata.version.toInt64)
        ∨ response = timedOut
        ∨ ({} : Config).pruneMintedPremints = true ∧ ∃ claim, Names claim (.zoraV2 validPremint)
          ∧ Lib.Once Step (Resolves claim) offlineApi
            ([.arrive 0 submission, .handle 0, .command offline, .broadcast]
              ++ [.arrive 1 premintLookup, .handle 1]) s') := by
  obtain ⟨s, hrun, hresponded, hnew⟩ := run_submission
  obtain ⟨s', response, hlater, hread⟩ := run_read 1 premintLookup hnew rfl
  exact ⟨s', response, hread, told_is_read hrun hresponded tells_submission hlater hnew hread⟩

end Example

end Mintpool.Api
