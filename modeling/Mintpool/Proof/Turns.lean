import Mintpool.Proof.Writes

/-!
# What a turn of the run loop does

Whatever the run loop picks up, it does nothing to its store, or inserts one premint,
or marks one claim, or runs a batch. `stepped_step` says so once and for all inputs.
Two views of a whole run follow. Any run is a sequence of upserts and marks, so what
those preserve holds of every reachable store. And a run without sync responses is a
sequence of whole turns, each with its checks and its upsert at one go.
-/

namespace Mintpool.Proof

open Mintpool PremintStorage

variable {Text : Type} [Alloy] [Codec Text]

/-! ## One turn of the run loop -/

/-- What a node does to its store at one go. -/
inductive Turn where
  | insert (m : Moment) (premint : PremintTypes)
  | markSeenOnChain (claim : InclusionClaim)

/-- The storage after it. -/
def turn (engine : RulesEngine Text) (s : PremintStorage Text) : Turn → PremintStorage Text
  | .insert m premint => (validateAndInsert engine m s premint).2
  | .markSeenOnChain claim => s.markSeenOnChain claim

/-- The turns that handling an input can lead to. -/
def Calls : Controller.Input → Turn → Prop
  | .event (.premintReceived p), .insert _ q => q = p
  | .event (.mintSeenOnchain c), .markSeenOnChain d => d = c.claim
  | .command (.broadcast p), .insert _ q => q = p
  | .command (.resolveOnchainMint c), .markSeenOnChain d => d = c
  | _, _ => False

/-- What handling an input does to the store: nothing, one turn, or a batch. -/
inductive StoreStep (engine : RulesEngine Text) (s : PremintStorage Text) (i : Controller.Input) :
    PremintStorage Text → Prop
  | same : StoreStep engine s i s
  | turn {t : Turn} (h : Calls i t) : StoreStep engine s i (turn engine s t)
  | batch {premints : List PremintTypes} {schedule : List (Nat × Moment)} {b : Batch Text}
      (hi : i = .event (.syncResponse premints))
      (h : Batch.Schedule engine (Batch.start s premints) schedule b)
      (hdone : b.isDone = true) : StoreStep engine s i b.shared

/-- Handling `i` took `c` to `c'`, and changed nothing but the store and the swarm's queue. -/
structure Stepped (c : Controller Text) (i : Controller.Input) (c' : Controller Text) : Prop where
  store : StoreStep c.rules c.store i c'.store
  rules : c'.rules = c.rules
  config : c'.config = c.config

theorem stepped_refl (c : Controller Text) (i : Controller.Input) : Stepped c i c :=
  ⟨.same, rfl, rfl⟩

omit [Alloy] [Codec Text] in
theorem sendSwarm_same (c : Controller Text) (command : SwarmCommand) :
    (c.sendSwarm command).2.store = c.store ∧ (c.sendSwarm command).2.rules = c.rules
      ∧ (c.sendSwarm command).2.config = c.config := by
  unfold Controller.sendSwarm
  split <;> exact ⟨rfl, rfl, rfl⟩

omit [Alloy] [Codec Text] in
/-- An open channel takes the command. -/
theorem sendSwarm_of_open {c : Controller Text} (hopen : c.swarmOpen = true)
    (command : SwarmCommand) :
    c.sendSwarm command = (.ok (), { c with swarmCommands := c.swarmCommands ++ [command] }) :=
  if_pos hopen

omit [Alloy] [Codec Text] in
/-- And a closed one does not. -/
theorem sendSwarm_cases (c : Controller Text) (command : SwarmCommand) :
    (c.sendSwarm command).2.swarmCommands = c.swarmCommands ++ [command]
      ∨ (c.sendSwarm command).2.swarmCommands = c.swarmCommands := by
  unfold Controller.sendSwarm
  split
  · exact .inl rfl
  · exact .inr rfl

theorem stepped_sendSwarm {c c' : Controller Text} {i : Controller.Input} (h : Stepped c i c')
    (command : SwarmCommand) : Stepped c i (c'.sendSwarm command).2 := by
  obtain ⟨hst, hr, hc⟩ := h
  obtain ⟨h1, h2, h3⟩ := sendSwarm_same c' command
  exact ⟨by rw [h1]; exact hst, h2.trans hr, h3.trans hc⟩

/-- What a sync asks for at this moment: what is not older than the configuration says. -/
def syncQuery (c : Controller Text) (m : Moment) : QueryOptions :=
  { «from» := some { m.clock with
      secs := m.clock.secs - 60 * 60 * c.config.syncLookbackHours } }

omit [Alloy] [Codec Text] in
/-- A sync that does not panic has put its request into the swarm's queue. -/
theorem requestSync_sent {c c' : Controller Text} {m : Moment} (h : c.requestSync m = .ret c') :
    c' = { c with swarmCommands := c.swarmCommands ++ [.sync (syncQuery c m)] } := by
  unfold Controller.requestSync at h
  dsimp only at h
  by_cases hopen : c.swarmOpen = true
  · rw [sendSwarm_of_open hopen] at h
    cases h
    rfl
  · -- the `expect`
    rw [Controller.sendSwarm, if_neg hopen] at h
    cases h

theorem stepped_requestSync {c c' : Controller Text} {m : Moment} (i : Controller.Input)
    (h : c.requestSync m = .ret c') : Stepped c i c' := by
  obtain rfl := requestSync_sent h
  exact ⟨.same, rfl, rfl⟩

theorem stepped_insert {c : Controller Text} {m : Moment} {p : PremintTypes}
    {i : Controller.Input} (h : Calls i (.insert m p)) : Stepped c i (c.validateAndInsert m p).2 :=
  ⟨.turn h, rfl, rfl⟩

/-! ### Events -/

/-- What a node that does not trust does with a claim. -/
def checkClaim (c : Controller Text) (m : Moment) (claim : InclusionClaim) :
    Outcome (Except Report Unit × Controller Text) :=
  match c.store.getForIdAndKind claim.premintId ⟨claim.kind⟩ with
  | .error report =>
      .ret (.error (.msg ("Error getting premint for onchain claim: " ++ report.text)), c)
  | .ok premint =>
      match inclusionClaimCorrect m.chains premint claim with
      | .panic => .panic
      | .ret (.ok true) => .ret (.ok (), { c with store := c.store.markSeenOnChain claim })
      | .ret _ => .ret (.ok (), c)

/-- **A claim is marked only if its premint is there and the claim is correct.** -/
theorem checkClaim_cases {c c' : Controller Text} {m : Moment} {claim : InclusionClaim}
    {result : Except Report Unit} (h : checkClaim c m claim = .ret (result, c')) :
    c' = c ∨ ∃ premint, c.store.getForIdAndKind claim.premintId ⟨claim.kind⟩ = .ok premint
      ∧ inclusionClaimCorrect m.chains premint claim = .ret (.ok true)
      ∧ c' = { c with store := c.store.markSeenOnChain claim } := by
  unfold checkClaim at h
  split at h
  · cases h; exact .inl rfl
  · rename_i premint hget
    split at h
    · cases h
    · rename_i hcorrect
      cases h
      exact .inr ⟨premint, hget, hcorrect, rfl⟩
    · cases h; exact .inl rfl

variable [Libp2p]

theorem handleEventOnchainClaim_of_ne_trust {c : Controller Text} (m : Moment)
    (claim : PeerInclusionClaim) (h : c.config.chainInclusionMode ≠ .trust) :
    c.handleEventOnchainClaim m claim = checkClaim c m claim.claim := by
  unfold Controller.handleEventOnchainClaim
  cases hmode : c.config.chainInclusionMode with
  | check => rfl
  | verify => rfl
  | trust => exact absurd hmode h

theorem handleEventOnchainClaim_of_trust {c : Controller Text} (m : Moment)
    (claim : PeerInclusionClaim) (h : c.config.chainInclusionMode = .trust) :
    c.handleEventOnchainClaim m claim
      = .ret (.ok (), if c.config.trustedPeers.contains claim.fromPeerId then
          { c with store := c.store.markSeenOnChain claim.claim } else c) := by
  unfold Controller.handleEventOnchainClaim
  rw [h]
  dsimp only
  split <;> rfl

/-- Whatever the mode, a peer's claim leaves the node as it was, or is marked. -/
theorem handleEventOnchainClaim_writes {c c' : Controller Text} {m : Moment}
    {claim : PeerInclusionClaim} {result : Except Report Unit}
    (h : c.handleEventOnchainClaim m claim = .ret (result, c')) :
    c' = c ∨ c' = { c with store := c.store.markSeenOnChain claim.claim } := by
  by_cases hmode : c.config.chainInclusionMode = .trust
  · rw [handleEventOnchainClaim_of_trust m claim hmode] at h
    cases h
    split
    · exact .inr rfl
    · exact .inl rfl
  · rw [handleEventOnchainClaim_of_ne_trust m claim hmode] at h
    rcases checkClaim_cases h with hc | ⟨_, _, _, hc⟩
    · exact .inl hc
    · exact .inr hc

theorem stepped_event {c c' : Controller Text} {e : P2PEvent}
    (h : Controller.HandleEvent c e (.ret c')) : Stepped c (.event e) c' := by
  cases h with
  | networkState => exact stepped_refl c _
  | premintReceived m p => exact stepped_insert rfl
  | mintSeenOnchain m claim h =>
      rcases handleEventOnchainClaim_writes h with rfl | rfl
      · exact stepped_refl _ _
      · exact ⟨.turn (t := .markSeenOnChain claim.claim) rfl, rfl, rfl⟩
  | syncRequest query => exact stepped_refl c _
  | syncResponse premints schedule h hdone => exact ⟨.batch rfl h hdone, rfl, rfl⟩

/-! ### Commands and ticks -/

omit [Libp2p] in
/-- A command that is only passed on to the swarm writes nothing. -/
theorem stepped_forward {c c' : Controller Text} {i : Controller.Input}
    {command : SwarmCommand} {reply : Reply} {result : Except Report Unit}
    (h : Outcome.ret (Reply.none, c.sendSwarm command) = .ret (reply, result, c')) :
    Stepped c i c' := by
  injection h with h
  have hs : c.sendSwarm command = (result, c') := congrArg Prod.snd h
  have hsend := stepped_sendSwarm (stepped_refl c i) command
  rw [hs] at hsend
  exact hsend

omit [Libp2p] in
theorem stepped_command {c c' : Controller Text} {m : Moment} {command : ControllerCommands}
    {reply : Reply} {result : Except Report Unit}
    (h : c.handleCommand m command = .ret (reply, result, c')) :
    Stepped c (.command command) c' := by
  cases command with
  | connectToPeer address => exact stepped_forward h
  | returnNetworkState => exact stepped_forward h
  | announceSelf => exact stepped_forward h
  | returnNodeInfo => exact stepped_forward h
  | listAll => cases h; exact stepped_refl c _
  | broadcast p =>
      have hins : Stepped c (.command (.broadcast p)) (c.validateAndInsert m p).2 :=
        stepped_insert rfl
      unfold Controller.handleCommand at h
      dsimp only at h
      split at h
      · -- stored, and then sent on: whether the swarm takes it or not, the store stays
        rename_i c₁ hval
        rw [hval] at hins
        have hsend := stepped_sendSwarm hins (.broadcast p)
        split at h <;> (rename_i hs; cases h; rw [hs] at hsend; exact hsend)
      · rename_i hval
        cases h
        rw [hval] at hins
        exact hins
  | resolveOnchainMint claim =>
      have hmark : Stepped c (.command (.resolveOnchainMint claim))
          { c with store := c.store.markSeenOnChain claim } :=
        ⟨.turn (t := .markSeenOnChain claim) rfl, rfl, rfl⟩
      unfold Controller.handleCommand at h
      dsimp only at h
      split at h
      · cases h; exact stepped_sendSwarm hmark _
      · cases h; exact hmark
  | sync =>
      unfold Controller.handleCommand at h
      dsimp only at h
      split at h
      · rename_i hreq; cases h; exact stepped_requestSync _ hreq
      · cases h

/-- **Everything the run loop can do in one turn.** -/
theorem stepped_step {c c' : Controller Text} {i : Controller.Input}
    (h : Controller.Step c i c') : Stepped c i c' := by
  cases h with
  | event h => exact stepped_event h
  | command m h => exact stepped_command h
  | syncTick m h => exact stepped_requestSync _ h

/-! ## What a node writes -/

/-- The calls that handling an input can lead to. -/
def Causes : Controller.Input → Write → Prop
  | .event (.premintReceived p), .store _ q => q = p
  | .event (.mintSeenOnchain c), .markSeenOnChain d => d = c.claim
  | .event (.syncResponse ps), .store _ q => q ∈ ps
  | .command (.broadcast p), .store _ q => q = p
  | .command (.resolveOnchainMint c), .markSeenOnChain d => d = c
  | _, _ => False

omit [Alloy] [Codec Text] [Libp2p] in
theorem causes_of_calls_insert {i : Controller.Input} {m : Moment} {p : PremintTypes}
    (h : Calls i (.insert m p)) (now : Int) : Causes i (.store now p) := by
  unfold Calls at h
  split at h
  · rename_i heq; cases heq; exact h
  · rename_i heq; cases heq
  · rename_i heq; cases heq; exact h
  · rename_i heq; cases heq
  · exact h.elim

omit [Alloy] [Codec Text] [Libp2p] in
theorem causes_of_calls_mark {i : Controller.Input} {claim : InclusionClaim}
    (h : Calls i (.markSeenOnChain claim)) : Causes i (.markSeenOnChain claim) := by
  unfold Calls at h
  split at h
  · rename_i heq; cases heq
  · rename_i heq; cases heq; exact h
  · rename_i heq; cases heq
  · rename_i heq; cases heq; exact h
  · exact h.elim

omit [Libp2p] in
/-- Whatever a step does to the store, it does it by calls that the input accounts for. -/
theorem storeStep_writes {engine : RulesEngine Text} {s s' : PremintStorage Text}
    {i : Controller.Input} (h : StoreStep engine s i s') :
    ∃ ws : List Write, (∀ w ∈ ws, Causes i w) ∧ s' = ws.foldl write s := by
  cases h with
  | same => exact ⟨[], by simp, rfl⟩
  | @turn t hcalls =>
      cases t with
      | insert m p =>
          obtain ⟨ws, hws, hst⟩ := validateAndInsert_writes engine m s p
          refine ⟨ws, fun w hw => ?_, hst⟩
          rw [hws w hw]
          exact causes_of_calls_insert hcalls _
      | markSeenOnChain claim =>
          refine ⟨[.markSeenOnChain claim], fun w hw => ?_, rfl⟩
          rw [List.mem_singleton.mp hw]
          exact causes_of_calls_mark hcalls
  | batch hi hrun _ =>
      obtain ⟨ws, hws, hst⟩ := batch_writes hrun
      refine ⟨ws, fun w hw => ?_, hst⟩
      obtain ⟨now, p, hp, rfl⟩ := hws w hw
      rw [hi]
      exact hp

/-- **A run of the node is a sequence of writes that its inputs account for.** -/
theorem run_writes {c c' : Controller Text} {is : List Controller.Input}
    (h : Controller.Run c is c') :
    ∃ ws : List Write, (∀ w ∈ ws, ∃ i ∈ is, Causes i w) ∧ c'.store = ws.foldl write c.store := by
  induction h with
  | nil => exact ⟨[], by simp, rfl⟩
  | snoc _ hs ih =>
      obtain ⟨ws, hws, hst⟩ := ih
      obtain ⟨ws', hws', hst'⟩ := storeStep_writes (stepped_step hs).store
      refine ⟨ws ++ ws', fun w hw => ?_, ?_⟩
      · rcases List.mem_append.mp hw with hw | hw
        · obtain ⟨i, hi, hcause⟩ := hws w hw
          exact ⟨i, List.mem_append_left _ hi, hcause⟩
        · exact ⟨_, List.mem_append_right _ List.mem_cons_self, hws' w hw⟩
      · rw [hst', hst, List.foldl_append]

/-- **So what every write preserves holds of the store after every run.** -/
theorem run_invariant {I : PremintStorage Text → Prop} (hI : ∀ s w, I s → I (write s w))
    {c c' : Controller Text} {is : List Controller.Input} (h0 : I c.store)
    (h : Controller.Run c is c') : I c'.store := by
  obtain ⟨ws, _, hst⟩ := run_writes h
  rw [hst]
  exact Lib.foldl_invariant (fun s w _ => hI s w) h0

/-- The rules and the configuration are those the node was started with. -/
theorem run_same {c c' : Controller Text} {is : List Controller.Input}
    (h : Controller.Run c is c') : c'.rules = c.rules ∧ c'.config = c.config := by
  refine Lib.Run.invariant (P := fun c' => c'.rules = c.rules ∧ c'.config = c.config)
    ⟨rfl, rfl⟩ (fun c₁ i c₂ hsame hs => ?_) h
  obtain ⟨_, hrules, hconfig⟩ := stepped_step hs
  exact ⟨hrules.trans hsame.1, hconfig.trans hsame.2⟩

omit [Libp2p] in
theorem storeStep_turns {engine : RulesEngine Text} {s s' : PremintStorage Text}
    {i : Controller.Input} (hserial : ∀ ps, i ≠ .event (.syncResponse ps))
    (h : StoreStep engine s i s') :
    ∃ ts : List Turn, (∀ t ∈ ts, Calls i t) ∧ s' = ts.foldl (turn engine) s := by
  cases h with
  | same => exact ⟨[], by simp, rfl⟩
  | @turn t hcalls => exact ⟨[t], by simpa using hcalls, rfl⟩
  | batch hi _ _ => exact absurd hi (hserial _)

/--
**Without sync responses, a run of the node is a sequence of turns**, each of them one
whole insertion or one mark.
-/
theorem run_turns {c c' : Controller Text} {is : List Controller.Input}
    (h : Controller.Run c is c') (hserial : ∀ i ∈ is, ∀ ps, i ≠ .event (.syncResponse ps)) :
    ∃ ts : List Turn, (∀ t ∈ ts, ∃ i ∈ is, Calls i t)
      ∧ c'.store = ts.foldl (turn c.rules) c.store := by
  induction h with
  | nil => exact ⟨[], by simp, rfl⟩
  | snoc hrun hs ih =>
      obtain ⟨ts, hts, hst⟩ := ih fun i hi => hserial i (List.mem_append_left _ hi)
      have hlast := hserial _ (List.mem_append_right _ List.mem_cons_self)
      obtain ⟨ts', hts', hst'⟩ := storeStep_turns hlast (stepped_step hs).store
      refine ⟨ts ++ ts', fun t ht => ?_, ?_⟩
      · rcases List.mem_append.mp ht with ht | ht
        · obtain ⟨i, hi, hcalls⟩ := hts t ht
          exact ⟨i, List.mem_append_left _ hi, hcalls⟩
        · exact ⟨_, List.mem_append_right _ List.mem_cons_self, hts' t ht⟩
      · rw [hst', hst, (run_same hrun).1, List.foldl_append]

end Mintpool.Proof
