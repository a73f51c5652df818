import Mintpool.Proof.Turns
import Mintpool.Sample

/-!
# What a submitter is told

A broadcast command stores its premint and then hands it to the swarm, and what goes back is
the outcome of the second step. There is an exit with an error after each of the two. The
first is taken before anything has happened. The second is taken when the swarm has dropped
its end of the command channel, and by then the premint is in the table: the submitter is
told of an error, and the row stays.
-/

namespace Mintpool.Proof

open Mintpool PremintStorage

section Submission

variable {Text : Type} [Alloy] [Codec Text]

/-- The rules accept the premint, and the upsert takes it. -/
def Inserts (c : Controller Text) (m : Moment) (p : PremintTypes) : Prop :=
  ∃ evaluation, c.rules.evaluate m.chains p c.store.clone = .ok evaluation
    ∧ evaluation.isAccept = true ∧ ¬ Refused c.store p

/-- The ways a broadcast command can go: its reply, and the controller afterwards. -/
inductive Broadcasted (c : Controller Text) (m : Moment) (p : PremintTypes) :
    Except BroadcastError Unit → Controller Text → Prop
  | refused {e : InsertError} (h : ¬ Inserts c m p) : Broadcasted c m p (.error (.insert e)) c
  | sent (h : Inserts c m p) (hopen : c.swarmOpen = true) :
      Broadcasted c m p (.ok ()) { c with
        store := (c.store.store m.clock.secs p).2
        swarmCommands := c.swarmCommands ++ [.broadcast p] }
  | unsent {report : Report} (h : Inserts c m p) (hclosed : c.swarmOpen = false) :
      Broadcasted c m p (.error (.swarm report)) { c with
        store := (c.store.store m.clock.secs p).2 }

/-- **Everything a broadcast command can do.** -/
theorem broadcast_cases (c : Controller Text) (m : Moment) (p : PremintTypes) :
    ∃ reply c', c.handleCommand m (.broadcast p) = .ret (.broadcast reply, .ok (), c')
      ∧ Broadcasted c m p reply c' := by
  unfold Controller.handleCommand Controller.validateAndInsert
  dsimp only
  rcases validateAndInsert_cases c.rules m c.store p with
    ⟨e, hins⟩ | ⟨evaluation, hev, hacc, href, hins⟩
  · -- had it been accepted over this table, it would have been inserted
    have hnot : ¬ Inserts c m p := by
      intro ⟨evaluation, hev, hacc, href⟩
      rw [validateAndInsert_of_accept hev hacc href] at hins
      cases hins
    rw [hins]
    exact ⟨_, _, rfl, .refused hnot⟩
  · -- the table is written by now, whatever becomes of the send
    have hinserts : Inserts c m p := ⟨evaluation, hev, hacc, href⟩
    rw [hins]
    dsimp only
    by_cases hopen : c.swarmOpen = true
    · have hsend := sendSwarm_of_open (c := { c with store := (c.store.store m.clock.secs p).2 })
        hopen (.broadcast p)
      rw [hsend]
      exact ⟨_, _, rfl, .sent hinserts hopen⟩
    · have hsend : Controller.sendSwarm
          ({ c with store := (c.store.store m.clock.secs p).2 } : Controller Text)
          (.broadcast p) = (.error (.msg "channel closed"),
            { c with store := (c.store.store m.clock.secs p).2 }) := if_neg hopen
      rw [hsend]
      exact ⟨_, _, rfl, .unsent hinserts (by simpa using hopen)⟩

/-- What the rules accept is in the table afterwards, whatever becomes of the broadcast. -/
theorem store_of_inserts {c c' : Controller Text} {m : Moment} {p : PremintTypes} {reply : Reply}
    {result : Except Report Unit} (hins : Inserts c m p)
    (h : c.handleCommand m (.broadcast p) = .ret (reply, result, c')) :
    c'.store = (c.store.store m.clock.secs p).2 := by
  obtain ⟨reply', c₁, hcall, hdone⟩ := broadcast_cases c m p
  rw [hcall] at h
  cases h
  cases hdone with
  | refused hnot => exact absurd hins hnot
  | sent | unsent => rfl

/-! ## What is sent to the swarm -/

/-- What a command to the swarm says about the command that led to it. -/
def SentFor (c : Controller Text) (m : Moment) (command : ControllerCommands) : SwarmCommand → Prop
  | .connectToPeer address => command = .connectToPeer address
  | .returnNetworkState => command = .returnNetworkState
  | .announceSelf => command = .announceSelf
  | .broadcast p => command = .broadcast p ∧ Inserts c m p
  | .returnNodeInfo => command = .returnNodeInfo
  | .sendOnchainMintFound claim =>
      command = .resolveOnchainMint claim ∧ c.config.chainInclusionMode = .check
  | .sync query => command = .sync ∧ query = syncQuery c m

/-- Nothing is sent, or one command for a reason. -/
def Forwards (c : Controller Text) (m : Moment) (command : ControllerCommands)
    (c' : Controller Text) : Prop :=
  c'.swarmCommands = c.swarmCommands
    ∨ ∃ sent, c'.swarmCommands = c.swarmCommands ++ [sent] ∧ SentFor c m command sent

section Forwards

variable {c c' : Controller Text} {m : Moment} {command : ControllerCommands} {reply : Reply}
  {result : Except Report Unit}

omit [Alloy] in
/-- A command that is only passed on. -/
theorem forwards_of_send {forwarded : SwarmCommand}
    (h : Outcome.ret (Reply.none, c.sendSwarm forwarded) = .ret (reply, result, c'))
    (hfor : SentFor c m command forwarded) : Forwards c m command c' := by
  injection h with h
  have hc' : (c.sendSwarm forwarded).2 = c' := congrArg (fun x => x.2.2) h
  subst hc'
  rcases sendSwarm_cases c forwarded with hsent | hsame
  · exact .inr ⟨forwarded, hsent, hfor⟩
  · exact .inl hsame

/-- **What a command makes the controller send to the swarm, it sends for a reason.** -/
theorem command_forwards (h : c.handleCommand m command = .ret (reply, result, c')) :
    Forwards c m command c' := by
  cases command with
  | connectToPeer | returnNetworkState | announceSelf | returnNodeInfo =>
      exact forwards_of_send h rfl
  | listAll => cases h; exact .inl rfl
  | broadcast p =>
      obtain ⟨reply', c₁, hcall, hdone⟩ := broadcast_cases c m p
      rw [hcall] at h
      cases h
      cases hdone with
      | refused | unsent => exact .inl rfl
      | sent hins hopen => exact .inr ⟨.broadcast p, rfl, rfl, hins⟩
  | resolveOnchainMint claim =>
      unfold Controller.handleCommand at h
      dsimp only at h
      split at h
      · -- only a node that checks the chain itself tells the others
        rename_i hmode
        cases h
        rcases sendSwarm_cases { c with store := c.store.markSeenOnChain claim }
          (.sendOnchainMintFound claim) with hsent | hsame
        · exact .inr ⟨.sendOnchainMintFound claim, hsent, rfl, hmode⟩
        · exact .inl hsame
      · cases h; exact .inl rfl
  | sync =>
      unfold Controller.handleCommand at h
      dsimp only at h
      split at h
      · rename_i hreq
        cases h
        obtain rfl := requestSync_sent hreq
        exact .inr ⟨_, rfl, rfl, rfl⟩
      · cases h

omit [Alloy] in
/-- What waits for the swarm has waited before, or is sent now and waits last. -/
theorem mem_forwards {sent : SwarmCommand} (h : Forwards c m command c')
    (hmem : sent ∈ c'.swarmCommands) :
    sent ∈ c.swarmCommands
      ∨ c'.swarmCommands = c.swarmCommands ++ [sent] ∧ SentFor c m command sent := by
  rcases h with hsame | ⟨other, hsent, hfor⟩
  · exact .inl (hsame ▸ hmem)
  · rw [hsent] at hmem
    rcases List.mem_append.mp hmem with hmem | hmem
    · exact .inl hmem
    · obtain rfl := List.mem_singleton.mp hmem
      exact .inr ⟨hsent, hfor⟩

end Forwards

/-! ## All or nothing -/

/--
What a reply says about the controller before and after. An error says that the table and the
swarm's queue are as they were. `Ok` says that the table holds the premint for its kind and
id, and that one more command waits for the swarm, which broadcasts it.
-/
def Told (c : Controller Text) (p : PremintTypes) :
    Except BroadcastError Unit → Controller Text → Prop
  | .error _, c' => c'.store.table = c.store.table ∧ c'.swarmCommands = c.swarmCommands
  | .ok _, c' =>
      (∃ r, c'.store.table.lookup (premintKey p) = some r
        ∧ r.version = p.metadata.version.toInt64 ∧ PremintTypes.fromJson r.json = .ok p)
      ∧ c'.swarmCommands = c.swarmCommands ++ [.broadcast p]

/-- The command is answered, and what the reply says is so. -/
def Atomic (c : Controller Text) (m : Moment) (p : PremintTypes) : Prop :=
  ∃ reply result c', c.handleCommand m (.broadcast p) = .ret (.broadcast reply, result, c')
    ∧ Told c p reply c'

theorem atomic_iff_told {c c' : Controller Text} {m : Moment} {p : PremintTypes}
    {reply : Except BroadcastError Unit}
    (h : c.handleCommand m (.broadcast p) = .ret (.broadcast reply, .ok (), c')) :
    Atomic c m p ↔ Told c p reply c' := by
  refine ⟨fun ⟨reply', result, c'', hcall, htold⟩ => ?_, fun htold => ⟨_, _, _, h, htold⟩⟩
  rw [h] at hcall
  cases hcall
  exact htold

/-- On a closed channel what is inserted stays, and the reply is an error. -/
theorem not_atomic_of_unsent {c : Controller Text} {m : Moment} {p : PremintTypes}
    (hclosed : c.swarmOpen = false) (hins : Inserts c m p) : ¬ Atomic c m p := by
  obtain ⟨reply, c', hcall, hdone⟩ := broadcast_cases c m p
  rw [atomic_iff_told hcall]
  cases hdone with
  | refused hnot => exact absurd hins hnot
  | sent _ hopen => rw [hclosed] at hopen; cases hopen
  | unsent =>
      obtain ⟨_, _, _, href⟩ := hins
      intro htold
      exact store_table_ne m.clock.secs href htold.1

/--
**A submission is all or nothing exactly when the swarm is there to take it, or nothing is
inserted.** For every state of the controller and every premint.
-/
theorem atomic_iff [LawfulCodec Text] (c : Controller Text) (m : Moment) (p : PremintTypes) :
    Atomic c m p ↔ c.swarmOpen = true ∨ ¬ Inserts c m p := by
  refine ⟨fun hatomic => ?_, fun h => ?_⟩
  · by_contra hnot
    obtain ⟨hclosed, hins⟩ := not_or.mp hnot
    exact not_atomic_of_unsent (by simpa using hclosed) (not_not.mp hins) hatomic
  · obtain ⟨reply, c', hcall, hdone⟩ := broadcast_cases c m p
    rw [atomic_iff_told hcall]
    cases hdone with
    | refused => exact ⟨rfl, rfl⟩
    | sent hins =>
        -- what the upsert does not refuse is in the table afterwards
        obtain ⟨_, _, _, href⟩ := hins
        exact ⟨stored_of_not_refused m.clock.secs href, rfl⟩
    | unsent hins hclosed =>
        rcases h with hopen | hnot
        · rw [hopen] at hclosed; cases hclosed
        · exact absurd hins hnot

end Submission

/-! ## A swarm that is gone -/

section Example

open Sample

attribute [local instance] Sample.alloy

theorem accepts_of_decide {p : PremintTypes} {s : PremintStorage Wire}
    (h : (offlineRules.evaluate offline.chains p s.clone).toOption.map Results.isAccept
      = some true) :
    ∃ evaluation, offlineRules.evaluate offline.chains p s.clone = .ok evaluation
      ∧ evaluation.isAccept = true := by
  cases hev : offlineRules.evaluate offline.chains p s.clone with
  | error report => rw [hev] at h; cases h
  | ok evaluation => rw [hev] at h; exact ⟨evaluation, rfl, Option.some.inj h⟩

/-- A node that has just been started, and whose swarm has stopped. -/
def swarmless : Controller Wire := { node {} with swarmOpen := false }

/-- **The premint is stored, and its submitter is told of an error.** -/
theorem submission_not_atomic : ¬ Atomic swarmless offline (.zoraV2 validPremint) := by
  have href : ¬ Refused swarmless.store (.zoraV2 validPremint) := by decide +kernel
  obtain ⟨evaluation, hev, hacc⟩ := accepts_of_decide (p := .zoraV2 validPremint)
    (s := swarmless.store) (by decide +kernel)
  exact not_atomic_of_unsent rfl ⟨evaluation, hev, hacc, href⟩

/-- While the swarm runs it is stored and broadcast. -/
theorem submission_atomic : Atomic (node {}) offline (.zoraV2 validPremint) :=
  (atomic_iff (node {}) offline (.zoraV2 validPremint)).mpr (.inl rfl)

end Example

end Mintpool.Proof
