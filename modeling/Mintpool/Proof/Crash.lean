import Mintpool.Proof.Columns

/-!
# What a peer can crash

Handling an event ends in a panic in one place: `verify_claim` of a simple premint is
`todo!()`. A node that checks claims gets there when the claim names a simple premint
it has stored, and the chain returns a receipt with enough logs. Every other event of
every reachable state is handled to the end; a sync response too, whatever its tasks
have done so far.
-/

namespace Mintpool.Proof

open Mintpool PremintStorage

section Crash

variable {Text : Type} [Codec Text] [Alloy]

/-! ## Batches end -/

/-- The acts a task has left. -/
def actsLeft (t : Task) : Nat :=
  match t.state with
  | .waiting => 4
  | .started => 3
  | .readExisting _ => 2
  | .accepted _ => 1
  | .done _ => 0

theorem actsLeft_act {engine : RulesEngine Text} {m : Moment} {s s' : PremintStorage Text}
    {t t' : Task} (h : Task.act engine m s t = some (s', t')) : actsLeft t' < actsLeft t := by
  obtain ⟨_, hacted⟩ := acted_of_act h
  unfold actsLeft
  generalize t.state = state, t'.state = state' at hacted
  cases hacted <;> simp

/-- A task that is not done can always act. -/
theorem act_of_not_done (engine : RulesEngine Text) (m : Moment) (s : PremintStorage Text)
    {t : Task} (h : t.isDone = false) : ∃ r, Task.act engine m s t = some r := by
  unfold Task.act
  unfold Task.isDone at h
  cases hst : t.state with
  | waiting => exact ⟨_, rfl⟩
  | started => dsimp only; split <;> exact ⟨_, rfl⟩
  | readExisting existing => dsimp only; split <;> exact ⟨_, rfl⟩
  | accepted evaluation => exact ⟨_, rfl⟩
  | done result => rw [hst] at h; cases h

omit [Alloy] in
/-- A task that holds a permit needs none. -/
theorem gate_of_running {tasks : List Task} {t : Task} (h : t.running = true) :
    Task.gate tasks t = true := by
  unfold Task.gate
  unfold Task.running at h
  cases hst : t.state with
  | waiting => rw [hst] at h; cases h
  | started => rfl
  | readExisting existing => rfl
  | accepted evaluation => rfl
  | done result => rfl

omit [Alloy] in
/-- While nobody holds a permit, anybody gets one. -/
theorem gate_of_none_running {tasks : List Task} (t : Task) (h : ∀ u ∈ tasks, u.running = false) :
    Task.gate tasks t = true := by
  have hcount : tasks.countP Task.running = 0 := List.countP_eq_zero.mpr (by simpa using h)
  unfold Task.gate
  split
  · rw [hcount]; decide
  · rfl

/-- **The semaphore never blocks all tasks.** -/
theorem batch_progress (engine : RulesEngine Text) (m : Moment) (b : Batch Text)
    (h : ∃ t ∈ b.tasks, t.isDone = false) :
    ∃ i b', Lib.Interleave.step Task.gate (Task.act engine) b i m = some b' := by
  have hstep : ∀ t ∈ b.tasks, t.isDone = false → Task.gate b.tasks t = true →
      ∃ i b', Lib.Interleave.step Task.gate (Task.act engine) b i m = some b' := by
    intro t ht hdone hgate
    obtain ⟨i, hi⟩ := List.mem_iff_getElem?.mp ht
    obtain ⟨⟨s', t'⟩, hact⟩ := act_of_not_done engine m b.shared hdone
    refine ⟨i, ⟨s', b.tasks.set i t'⟩, ?_⟩
    unfold Lib.Interleave.step
    simp only [hi, hgate, hact, if_true]
  -- a task with a permit can go on; if there is none, all ten permits are free
  by_cases hrunning : ∃ t ∈ b.tasks, t.running = true
  · obtain ⟨t, ht, hrun⟩ := hrunning
    have hdone : t.isDone = false := by
      unfold Task.running at hrun
      unfold Task.isDone
      cases hst : t.state <;> simp_all
    exact hstep t ht hdone (gate_of_running hrun)
  · obtain ⟨t, ht, hdone⟩ := h
    refine hstep t ht hdone (gate_of_none_running t fun u hu => ?_)
    by_contra hu'
    exact hrunning ⟨u, hu, by simpa using hu'⟩

/-- **A batch takes at most four acts a premint, and can always be finished.** -/
theorem batch_terminates {engine : RulesEngine Text} {s : PremintStorage Text}
    {premints : List PremintTypes} {schedule : List (Nat × Moment)} {b : Batch Text}
    (h : Batch.Schedule engine (Batch.start s premints) schedule b) :
    schedule.length ≤ 4 * premints.length
      ∧ ∀ m : Moment, ∃ rest b', Batch.Schedule engine b rest b' ∧ (∀ im ∈ rest, im.2 = m)
        ∧ b'.isDone = true := by
  have hrank : ∀ m s t s' t', Task.act engine m s t = some (s', t') → actsLeft t' < actsLeft t :=
    fun _ _ _ _ _ => actsLeft_act
  constructor
  · have hle := Lib.Interleave.schedule_length_le hrank h
    have hstart : ((Batch.start s premints).tasks.map actsLeft).sum = 4 * premints.length := by
      simp [Batch.start, actsLeft, Function.comp_def, Nat.mul_comm]
    omega
  · intro m
    exact Lib.Interleave.exists_completion m hrank (batch_progress engine m) b

/-! ## Where the panic is -/

omit [Codec Text] in
theorem verifyClaim_panic {premint : PremintTypes} {chainId : UInt64} {tx : TransactionReceipt}
    {log : Log} {claim : InclusionClaim} (h : premint.verifyClaim chainId tx log claim = .panic) :
    ∃ q, premint = .simple q := by
  cases premint with
  | simple q => exact ⟨q, rfl⟩
  | zoraV2 q => cases h
  | zoraERC20V1 q => cases h

omit [Codec Text] in
theorem inclusionClaimCorrect_panic {chains : Chains} {premint : PremintTypes}
    {claim : InclusionClaim} (h : inclusionClaimCorrect chains premint claim = .panic) :
    ∃ q, premint = .simple q := by
  unfold inclusionClaimCorrect at h
  split at h
  · cases h
  · split at h
    · cases h
    · cases h
    · split at h
      · cases h
      · split at h
        · cases h
        · rename_i hverify; exact verifyClaim_panic hverify

/-- A chain that knows every transaction, each with this many logs. -/
def chattyChains (logs : Nat) : Chains where
  getRpc _ := .ok {
    getTransactionReceipt := fun hash =>
      .ok (some ⟨hash, List.replicate logs { address := 0, topics := [], data := [] }⟩)
    isAuthorizedToCreatePremint := fun _ _ _ => .ok true
    premintStatus := fun _ _ => .ok (false, 0)
    supportedPremintSignatureVersions := fun _ => .ok [] }

omit [Codec Text] in
/-- **With the log there, a simple premint panics.** -/
theorem inclusionClaimCorrect_simple (q : SimplePremint) (claim : InclusionClaim) :
    inclusionClaimCorrect (chattyChains (claim.logIndex.toNat + 1)) (.simple q) claim = .panic := by
  have hlog : (List.replicate (claim.logIndex.toNat + 1)
      ({ address := 0, topics := [], data := [] } : Log))[claim.logIndex.toNat]?
        = some { address := 0, topics := [], data := [] } := by
    rw [List.getElem?_replicate, if_pos (by omega)]
  unfold inclusionClaimCorrect chattyChains
  dsimp only
  rw [hlog]
  rfl

/-! ## Handling any event -/

variable [Libp2p]

/-- The event is handled to the end, whatever the chains answer and however tasks take turns. -/
structure Survives (c : Controller Text) (e : P2PEvent) : Prop where
  returns : ∃ c', Controller.HandleEvent c e (.ret c')
  noPanic : ¬ Controller.HandleEvent c e .panic
  /-- No schedule of a sync response goes on forever or gets stuck. -/
  terminates : ∀ premints, e = .syncResponse premints → ∀ schedule b,
    Batch.Schedule c.rules (Batch.start c.store premints) schedule b →
      schedule.length ≤ 4 * premints.length
        ∧ ∀ m : Moment, ∃ rest b', Batch.Schedule c.rules b rest b' ∧ (∀ im ∈ rest, im.2 = m)
          ∧ b'.isDone = true

/-- The event is a claim about a simple premint in the store of a node that checks claims. -/
def ReachesTodo (c : Controller Text) (e : P2PEvent) : Prop :=
  ∃ peerClaim, e = .mintSeenOnchain peerClaim ∧ c.config.chainInclusionMode ≠ .trust
    ∧ peerClaim.claim.kind = "simple"
    ∧ ∃ r ∈ c.store.table.rows, r.key = ("simple", peerClaim.claim.premintId)

omit [Alloy] [Libp2p] in
theorem getForIdAndKind_ok {s : PremintStorage Text} {id : String} {kind : PremintName}
    {p : PremintTypes} (h : s.getForIdAndKind id kind = .ok p) :
    ∃ r ∈ s.table.rows, r.key = (kind.name, id) ∧ PremintTypes.fromJson r.json = .ok p := by
  unfold getForIdAndKind decodeOne at h
  cases hl : s.table.lookup (kind.name, id) with
  | none => rw [hl] at h; cases h
  | some r =>
      rw [hl] at h
      obtain ⟨hmem, hkey⟩ := Lib.KeyedTable.lookup_some hl
      exact ⟨r, hmem, hkey, h⟩

omit [Libp2p] in
/-- In a store whose rows hold premints, a row's premint is found under the row's key. -/
theorem getForIdAndKind_of_holds {s : PremintStorage Text} {r : Row Text} {p : PremintTypes}
    {id : String} {kind : PremintName} (hmem : r ∈ s.table.rows) (hp : Holds r p)
    (hkey : r.key = (kind.name, id)) : s.getForIdAndKind id kind = .ok p := by
  unfold getForIdAndKind decodeOne
  rw [← hkey, Lib.KeyedTable.mem_iff_lookup.mp hmem]
  exact hp.json

/-- A check ends in a panic only at a simple premint that the claim names. -/
theorem reachesTodo_of_panic {c : Controller Text} {m : Moment} {peerClaim : PeerInclusionClaim}
    (hholds : AllHold c.store) (h : c.handleEventOnchainClaim m peerClaim = .panic) :
    ReachesTodo c (.mintSeenOnchain peerClaim) := by
  by_cases hmode : c.config.chainInclusionMode = .trust
  · rw [handleEventOnchainClaim_of_trust m peerClaim hmode] at h
    cases h
  · rw [handleEventOnchainClaim_of_ne_trust m peerClaim hmode] at h
    unfold checkClaim at h
    split at h
    · cases h
    · rename_i premint hget
      split at h
      · rename_i hcorrect
        obtain ⟨q, rfl⟩ := inclusionClaimCorrect_panic hcorrect
        obtain ⟨r, hmem, hkey, hjson⟩ := getForIdAndKind_ok hget
        obtain ⟨p, hp⟩ := hholds r hmem
        -- what was found under the claim's kind is a simple premint, so that is its kind
        have hpq : p = .simple q := Except.ok.inj (hp.json.symm.trans hjson)
        have hkind : r.key = ("simple", (PremintTypes.simple q).metadata.id) := by
          rw [hp.key, hpq]; rfl
        have hsimple : peerClaim.claim.kind = "simple" :=
          congrArg Prod.fst (hkey.symm.trans hkind)
        exact ⟨peerClaim, rfl, hmode, hsimple, r, hmem, by rw [hkey, hsimple]⟩
      · cases h
      · cases h

/-- And at one of those it does, once the chain returns the log. -/
theorem panic_of_reachesTodo {c : Controller Text} {e : P2PEvent} (hholds : AllHold c.store)
    (h : ReachesTodo c e) : Controller.HandleEvent c e .panic := by
  obtain ⟨peerClaim, rfl, hmode, hkind, r, hmem, hkey⟩ := h
  obtain ⟨p, hp⟩ := hholds r hmem
  have hpkind : p.metadata.kind.name = "simple" := by
    have := congrArg Prod.fst (hp.key.symm.trans hkey)
    exact this
  obtain ⟨q, rfl⟩ := kind_simple_iff.mp hpkind
  refine .mintSeenOnchainPanic
    ⟨chattyChains (peerClaim.claim.logIndex.toNat + 1), ⟨0, 0⟩⟩ peerClaim ?_
  rw [handleEventOnchainClaim_of_ne_trust _ _ hmode]
  unfold checkClaim
  rw [getForIdAndKind_of_holds hmem hp (by rw [hkey, hkind])]
  dsimp only
  rw [inclusionClaimCorrect_simple]

/-- Handling an event comes to an end of one kind or the other. -/
theorem exists_handleEvent (m : Moment) (c : Controller Text) (e : P2PEvent) :
    ∃ o, Controller.HandleEvent c e o := by
  cases e with
  | networkState => exact ⟨_, .networkState⟩
  | premintReceived p => exact ⟨_, .premintReceived m p⟩
  | syncRequest query => exact ⟨_, .syncRequest query⟩
  | syncResponse premints =>
      have hstart : Batch.Schedule c.rules (Batch.start c.store premints) []
          (Batch.start c.store premints) := .nil
      obtain ⟨schedule, b, hsched, _, hdone⟩ := (batch_terminates hstart).2 m
      exact ⟨_, .syncResponse premints schedule hsched hdone⟩
  | mintSeenOnchain peerClaim =>
      cases hhandle : c.handleEventOnchainClaim m peerClaim with
      | panic => exact ⟨_, .mintSeenOnchainPanic m peerClaim hhandle⟩
      | ret r => exact ⟨_, .mintSeenOnchain m peerClaim hhandle⟩

/--
**A peer's event is handled to the end exactly when it does not name a stored simple
premint to a node that checks claims.**
-/
theorem survives_iff [LawfulCodec Text] {config : Config} {rules : RulesEngine Text}
    {is : List Controller.Input} {c : Controller Text}
    (hrun : Controller.Run (.new config rules) is c) (e : P2PEvent) :
    Survives c e ↔ ¬ ReachesTodo c e := by
  have hholds := allHold_run hrun
  refine ⟨fun h htodo => h.noPanic (panic_of_reachesTodo hholds htodo), fun htodo => ?_⟩
  have hno : ¬ Controller.HandleEvent c e .panic := by
    intro h
    cases h with
    | mintSeenOnchainPanic m claim h => exact htodo (reachesTodo_of_panic hholds h)
  have hterm : ∀ premints, e = .syncResponse premints → ∀ schedule b,
      Batch.Schedule c.rules (Batch.start c.store premints) schedule b →
        schedule.length ≤ 4 * premints.length
          ∧ ∀ m : Moment, ∃ rest b', Batch.Schedule c.rules b rest b' ∧ (∀ im ∈ rest, im.2 = m)
            ∧ b'.isDone = true :=
    fun _ _ _ _ h => batch_terminates h
  refine ⟨?_, hno, hterm⟩
  -- with the panic excluded, any answers of the chains will do
  obtain ⟨o, ho⟩ := exists_handleEvent ⟨.unreachable, ⟨0, 0⟩⟩ c e
  cases o with
  | panic => exact absurd ho hno
  | ret c' => exact ⟨c', ho⟩

end Crash

/-! ## A claim about a simple premint -/

section Example

open Sample

attribute [local instance] Sample.alloy Sample.libp2p

def simplePremint : PremintTypes :=
  .simple { version := 1, chainId := 1, sender := 1, tokenId := 1, media := "ipfs://a" }

/-- A node in the default mode that has received the premint. -/
def simpleNode : Controller Wire := ((node {}).validateAndInsert offline simplePremint).2

theorem simpleNode_run :
    Controller.Run (node {}) [.event (.premintReceived simplePremint)] simpleNode :=
  .snoc .nil (.event (.premintReceived offline simplePremint))

def simpleClaim (kind : String) : P2PEvent :=
  .mintSeenOnchain ⟨⟨simplePremint.metadata.id, 1, 5, 0, kind⟩, peerId "a"⟩

/-- **It brings the node down.** -/
theorem simple_claim_panics :
    Controller.Run (node {}) [.event (.premintReceived simplePremint)] simpleNode
      ∧ ¬ Survives simpleNode (simpleClaim "simple") := by
  refine ⟨simpleNode_run, fun h => h.noPanic (panic_of_reachesTodo (allHold_run simpleNode_run) ?_)⟩
  have hrows : simpleNode.store.table.rows = [newRow 0 simplePremint] := by decide
  refine ⟨_, rfl, by decide, rfl, newRow 0 simplePremint, ?_, rfl⟩
  rw [hrows]
  exact List.mem_cons_self

/-- One of another kind does not. -/
theorem other_claim_survives : Survives simpleNode (simpleClaim "zora_premint_v2") := by
  refine (survives_iff simpleNode_run _).mpr ?_
  rintro ⟨peerClaim, heq, _, hkind, _⟩
  cases heq
  exact absurd hkind (by decide)

end Example

end Mintpool.Proof
