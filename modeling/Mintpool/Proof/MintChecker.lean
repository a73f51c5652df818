import Mintpool.Lib.Run
import Mintpool.Proof.MapClaim

/-!
# What a mint checker loses

A subscription can break at any time, and with it go the logs that it has not delivered.
The next one starts from the highest block seen so far, so that the logs of this block and
all later ones come again: a log that has not been sent is never below the resume point.

That is the whole argument, and it has one gap. Until the first log has been delivered
there is no resume point, and a subscription without one begins with nothing.
-/

namespace Mintpool.Polling

open Mintpool.Proof

section Polling

variable {s : Polling} {log : Log}

/-! ## What the checker owes -/

/-- The log is of the contract and the event that the checker watches. -/
def Watches (c : MintChecker) (log : Log) : Prop :=
  log.address = c.filter.address ∧ log.topics.head? = some c.filter.topic0

/-- The logs since the first subscription. -/
def since (s : Polling) : List Log :=
  match s.subscribedAt with
  | none => []
  | some count => s.chain.drop count

/-- If the log maps to a claim, the claim has been sent. -/
def Sent [Alloy] (Config : Type) [Namespace Config] (s : Polling) (log : Log) : Prop :=
  ∀ claim, ZoraPremint.mapClaim Config s.checker.chainId log = .ok claim → claim ∈ s.sent

/-- Once a subscription is drained, every log since the first one has been sent. -/
def Lossless [Alloy] (Config : Type) [Namespace Config] (s : Polling) : Prop :=
  s.stream = some [] → ∀ log ∈ s.since, Watches s.checker log → Sent Config s log

/-- The chain's next log is of its last block or a later one. -/
def InOrder (s : Polling) : Input → Prop
  | .emit log => ∃ block, log.blockNumber = some block
      ∧ ∀ earlier ∈ s.chain, ∀ b, earlier.blockNumber = some b → b ≤ block
  | _ => True

/-- A new subscription has a block to begin from, or there is nothing to begin with. -/
def Resumes [Alloy] (Config : Type) [Namespace Config] (s : Polling) : Input → Prop
  | .subscribed => s.stream = none → s.checker.highestBlock = none →
      ∀ log ∈ s.since, Watches s.checker log →
        ∀ claim, ZoraPremint.mapClaim Config s.checker.chainId log ≠ .ok claim
  | _ => True

/-! ## The bookkeeping -/

/-- In the order of the chain. -/
def NotAfter (log log' : Log) : Prop :=
  ∀ b b', log.blockNumber = some b → log'.blockNumber = some b' → b ≤ b'

/-- What a checker keeps in order, whatever it loses. -/
structure Tracked (s : Polling) : Prop where
  /-- The first subscription was at some point of the chain. -/
  start : ∀ count, s.subscribedAt = some count → count ≤ s.chain.length
  blocks : ∀ log ∈ s.chain, log.blockNumber.isSome
  ordered : s.chain.Pairwise NotAfter
  /-- A subscription delivers what is on the chain, in its order. -/
  pending : ∀ pending, s.stream = some pending →
    (∀ log ∈ pending, log ∈ s.chain) ∧ pending.Pairwise NotAfter
  /-- And nothing below the highest block. -/
  ahead : ∀ pending h, s.stream = some pending → s.checker.highestBlock = some h →
    ∀ log ∈ pending, ∀ b, log.blockNumber = some b → h ≤ b
  /-- The highest block is on the chain. -/
  highest : ∀ h, s.checker.highestBlock = some h → ∃ log ∈ s.chain, log.blockNumber = some h
  /-- The resume point trails the highest block. -/
  resume : ∀ b, s.checker.filter.fromBlock = some b →
    ∃ h, s.checker.highestBlock = some h ∧ b ≤ h
  /-- What has been sent has been delivered. -/
  silent : s.checker.highestBlock = none → s.sent = []

theorem setStartBlock_watches (c : MintChecker) :
    Watches c.setStartBlock log ↔ Watches c log := by
  unfold MintChecker.setStartBlock
  split <;> exact Iff.rfl

@[simp] theorem setStartBlock_chainId (c : MintChecker) :
    c.setStartBlock.chainId = c.chainId := by
  unfold MintChecker.setStartBlock
  split <;> rfl

@[simp] theorem setStartBlock_highestBlock (c : MintChecker) :
    c.setStartBlock.highestBlock = c.highestBlock := by
  unfold MintChecker.setStartBlock
  split <;> rfl

theorem setStartBlock_fromBlock {c : MintChecker} {h : UInt64} (hc : c.highestBlock = some h) :
    c.setStartBlock.filter.fromBlock = some h := by
  unfold MintChecker.setStartBlock
  rw [hc]

theorem setStartBlock_of_none {c : MintChecker} (hc : c.highestBlock = none) :
    c.setStartBlock = c := by
  unfold MintChecker.setStartBlock
  rw [hc]

theorem sawLog_of_block (c : MintChecker) {b : UInt64} (hb : log.blockNumber = some b) :
    c.sawLog log = { c with highestBlock := some b } := by
  unfold MintChecker.sawLog
  rw [hb]

theorem admits_iff {filter : Filter} {b : UInt64} (hb : log.blockNumber = some b) :
    filter.admits log = true ↔ (log.address = filter.address
      ∧ log.topics.head? = some filter.topic0)
    ∧ ∀ first, filter.fromBlock = some first → first ≤ b := by
  unfold Filter.admits
  rw [hb]
  cases filter.fromBlock with
  | none => simp
  | some first => simp

theorem mem_backlog_iff {filter : Filter} {chain : List Log} :
    log ∈ backlog filter chain
      ↔ filter.fromBlock.isSome ∧ log ∈ chain ∧ filter.admits log = true := by
  unfold backlog
  cases filter.fromBlock with
  | none => simp
  | some first => simp

theorem pairwise_backlog {filter : Filter} {chain : List Log} (h : chain.Pairwise NotAfter) :
    (backlog filter chain).Pairwise NotAfter := by
  unfold backlog
  split
  · exact .nil
  · exact h.filter _

/-! ## What every step keeps -/

theorem tracked_setStartBlock (h : Tracked s) :
    Tracked { s with checker := s.checker.setStartBlock } where
  start := h.start
  blocks := h.blocks
  ordered := h.ordered
  pending := h.pending
  ahead pending hi hstream hhigh := by
    rw [setStartBlock_highestBlock] at hhigh
    exact h.ahead pending hi hstream hhigh
  highest hi hhigh := by
    rw [setStartBlock_highestBlock] at hhigh
    exact h.highest hi hhigh
  resume b hb := by
    rw [setStartBlock_highestBlock]
    cases hhigh : s.checker.highestBlock with
    | none =>
        -- without a highest block the filter stays as it was
        rw [setStartBlock_of_none hhigh] at hb
        obtain ⟨hi, hhi, _⟩ := h.resume b hb
        rw [hhigh] at hhi
        cases hhi
    | some hi =>
        -- with one the subscription resumes there, and no lower
        rw [setStartBlock_fromBlock hhigh] at hb
        obtain rfl := Option.some.inj hb
        exact ⟨hi, rfl, UInt64.le_refl hi⟩
  silent hhigh := by
    rw [setStartBlock_highestBlock] at hhigh
    exact h.silent hhigh

/-- A subscription that succeeds begins with its backlog, at the highest block or above. -/
theorem tracked_subscribed (h : Tracked s) : Tracked { s with
    checker := s.checker.setStartBlock
    stream := some (backlog s.checker.setStartBlock.filter s.chain)
    subscribedAt := s.subscribedAt <|> some s.chain.length } := by
  have hset := tracked_setStartBlock h
  refine ⟨fun count hcount => ?_, h.blocks, h.ordered, ?_, ?_, hset.highest, hset.resume,
    hset.silent⟩
  · -- only the first subscription sets where the chain is counted from
    cases hat : s.subscribedAt with
    | none =>
        have hlen : s.chain.length = count := by simpa [hat] using hcount
        exact Nat.le_of_eq hlen.symm
    | some first =>
        obtain rfl : first = count := by simpa [hat] using hcount
        exact h.start first hat
  · -- the backlog is part of the chain, in its order
    intro pending hstream
    obtain rfl := Option.some.inj hstream
    exact ⟨fun log hlog => (mem_backlog_iff.mp hlog).2.1, pairwise_backlog h.ordered⟩
  · -- and it begins at the highest block, where there is one
    intro pending hi hstream hhigh log hlog b hb
    obtain rfl := Option.some.inj hstream
    have hadmits := (mem_backlog_iff.mp hlog).2.2
    rw [setStartBlock_highestBlock] at hhigh
    exact ((admits_iff hb).mp hadmits).2 hi (setStartBlock_fromBlock hhigh)

/-- A new log goes to the end of the chain, and of the open subscription. -/
theorem tracked_emit {b : UInt64} (h : Tracked s) (hb : log.blockNumber = some b)
    (hlast : ∀ earlier ∈ s.chain, ∀ b', earlier.blockNumber = some b' → b' ≤ b) :
    Tracked { s with
      chain := s.chain ++ [log]
      stream := s.stream.map (fun pending =>
        if s.checker.filter.admits log then pending ++ [log] else pending) } := by
  have hafter : ∀ earlier ∈ s.chain, NotAfter earlier log := by
    intro earlier hmem b₁ b₂ h₁ h₂
    obtain rfl := Option.some.inj (hb.symm.trans h₂)
    exact hlast earlier hmem b₁ h₁
  have happend : ∀ {logs : List Log}, (∀ l ∈ logs, l ∈ s.chain) → logs.Pairwise NotAfter →
      (logs ++ [log]).Pairwise NotAfter := by
    intro logs hmem hord
    refine List.pairwise_append.mpr ⟨hord, List.pairwise_singleton _ _, fun l hl l' hl' => ?_⟩
    obtain rfl := List.mem_singleton.mp hl'
    exact hafter l (hmem l hl)
  have hpending : ∀ pending, s.stream.map (fun pending =>
      if s.checker.filter.admits log then pending ++ [log] else pending) = some pending →
      ∃ old, s.stream = some old ∧ (pending = old ∨ pending = old ++ [log]) := by
    intro pending hstream
    obtain ⟨old, hold, rfl⟩ := Option.map_eq_some_iff.mp hstream
    refine ⟨old, hold, ?_⟩
    split
    · exact .inr rfl
    · exact .inl rfl
  refine ⟨fun count hcount => ?_, ?_, happend (fun _ hl => hl) h.ordered, ?_, ?_, ?_, h.resume,
    h.silent⟩
  · have := h.start count hcount
    rw [List.length_append]
    omega
  · intro l hl
    rcases List.mem_append.mp hl with hl | hl
    · exact h.blocks l hl
    · rw [List.mem_singleton.mp hl, hb]
      rfl
  · intro pending hstream
    obtain ⟨old, hold, rfl | rfl⟩ := hpending pending hstream
    · -- the filter turns the new log away
      obtain ⟨hmem, hord⟩ := h.pending _ hold
      exact ⟨fun l hl => List.mem_append_left _ (hmem l hl), hord⟩
    · -- it lets the new log through, which comes after all that waits
      obtain ⟨hmem, hord⟩ := h.pending _ hold
      refine ⟨fun l hl => ?_, happend hmem hord⟩
      rcases List.mem_append.mp hl with hl | hl
      · exact List.mem_append_left _ (hmem l hl)
      · exact List.mem_append_right _ hl
  · intro pending hi hstream hhigh l hl b' hb'
    obtain ⟨old, hold, rfl | rfl⟩ := hpending pending hstream
    · exact h.ahead _ hi hold hhigh l hl b' hb'
    · rcases List.mem_append.mp hl with hl | hl
      · exact h.ahead _ hi hold hhigh l hl b' hb'
      · -- the highest block is an earlier one of the chain
        obtain rfl := List.mem_singleton.mp hl
        obtain rfl := Option.some.inj (hb.symm.trans hb')
        obtain ⟨top, htop, hblock⟩ := h.highest hi hhigh
        exact hlast top htop hi hblock
  · intro hi hhigh
    obtain ⟨top, htop, hblock⟩ := h.highest hi hhigh
    exact ⟨top, List.mem_append_left _ htop, hblock⟩

/-- What stands on the stream is on the chain, and has a block. -/
theorem block_of_pending {pending : List Log} (h : Tracked s)
    (hstream : s.stream = some (log :: pending)) : ∃ b, log.blockNumber = some b :=
  Option.isSome_iff_exists.mp (h.blocks log ((h.pending _ hstream).1 log List.mem_cons_self))

/-- A delivered log has the highest block. -/
theorem tracked_deliver {b : UInt64} {pending : List Log} {claims : List InclusionClaim}
    (h : Tracked s) (hstream : s.stream = some (log :: pending)) (hb : log.blockNumber = some b) :
    Tracked { s with
      checker := { s.checker with highestBlock := some b }
      stream := some pending
      sent := claims } := by
  obtain ⟨hmem, hord⟩ := h.pending _ hstream
  obtain ⟨hfirst, hrest⟩ := List.pairwise_cons.mp hord
  have hlog := hmem log List.mem_cons_self
  refine ⟨h.start, h.blocks, h.ordered, ?_, ?_, ?_, ?_, fun hnone => nomatch hnone⟩
  · -- what is left of the stream is in order still
    intro pending' hpending
    obtain rfl := Option.some.inj hpending
    exact ⟨fun l hl => hmem l (List.mem_cons_of_mem _ hl), hrest⟩
  · -- and none of it is below the log that was delivered
    intro pending' hi hpending hhigh l hl b' hb'
    obtain rfl := Option.some.inj hpending
    obtain rfl := Option.some.inj hhigh
    exact hfirst l hl b b' hb hb'
  · intro hi hhigh
    obtain rfl := Option.some.inj hhigh
    exact ⟨log, hlog, hb⟩
  · -- the highest block has only risen
    intro first hfrom
    obtain ⟨hi, hhigh, hle⟩ := h.resume first hfrom
    exact ⟨b, rfl, UInt64.le_trans hle (h.ahead _ hi hstream hhigh log List.mem_cons_self b hb)⟩

theorem tracked_new {c : MintChecker} (hhigh : c.highestBlock = none)
    (hfrom : c.filter.fromBlock = none) : Tracked { checker := c } where
  start count hcount := nomatch hcount
  blocks log hlog := nomatch hlog
  ordered := .nil
  pending pending hstream := nomatch hstream
  ahead pending h hstream := nomatch hstream
  highest h hh := by
    rw [show c.highestBlock = some h from hh] at hhigh
    cases hhigh
  resume b hb := by
    rw [show c.filter.fromBlock = some b from hb] at hfrom
    cases hfrom
  silent _ := rfl

theorem start_some [Keccak] {chainId : UInt64} {c : MintChecker}
    (h : MintChecker.start chainId = some c) :
    c.highestBlock = none ∧ c.filter.fromBlock = none := by
  unfold MintChecker.start ZoraPremint.checkFilter at h
  dsimp only at h
  split at h
  · cases h
  · obtain rfl := Option.some.inj h
    exact ⟨rfl, rfl⟩

/-! ## The logs since the first subscription -/

theorem mem_chain_of_mem_since (h : log ∈ s.since) : log ∈ s.chain := by
  unfold since at h
  split at h
  · cases h
  · exact List.mem_of_mem_drop h

theorem mem_since_emit {l : Log} {stream : Option (List Log)} (h : Tracked s)
    (hl : l ∈ since { s with chain := s.chain ++ [log], stream := stream }) :
    l ∈ s.since ∨ l = log := by
  unfold since at hl ⊢
  dsimp only at hl
  split at hl
  · cases hl
  · rename_i count hcount
    rw [List.drop_append_of_le_length (h.start count hcount), List.mem_append] at hl
    exact hl.imp_right List.mem_singleton.mp

theorem since_subscribed (s : Polling) (checker : MintChecker) (stream : Option (List Log)) :
    since { s with
      checker := checker
      stream := stream
      subscribedAt := s.subscribedAt <|> some s.chain.length } = s.since := by
  unfold since
  cases hat : s.subscribedAt with
  | none => exact List.drop_length
  | some first => rfl

/-! ## Losing nothing -/

variable [Alloy] {Config : Type} [Namespace Config]

/-- Every log since the first subscription has been sent, or can still come. -/
structure Kept (Config : Type) [Namespace Config] (s : Polling) : Prop where
  /-- From the next subscription, which begins at the highest block. -/
  resumable : ∀ h, s.checker.highestBlock = some h → ∀ log ∈ s.since, Watches s.checker log →
    Sent Config s log ∨ ∀ b, log.blockNumber = some b → h ≤ b
  /-- From the open one. -/
  coming : ∀ pending, s.stream = some pending → ∀ log ∈ s.since, Watches s.checker log →
    Sent Config s log ∨ log ∈ pending

theorem sent_setStartBlock_iff {stream : Option (List Log)} {at' : Option Nat} :
    Sent Config { s with
      checker := s.checker.setStartBlock
      stream := stream
      subscribedAt := at' } log ↔ Sent Config s log := by
  unfold Sent
  dsimp only
  rw [setStartBlock_chainId]

theorem kept_emit {b : UInt64} (h : Tracked s) (hk : Kept Config s)
    (hb : log.blockNumber = some b)
    (hlast : ∀ earlier ∈ s.chain, ∀ b', earlier.blockNumber = some b' → b' ≤ b) :
    Kept Config (step Config s (.emit log)) where
  resumable hi hhigh l hl hw := by
    rcases mem_since_emit h hl with hl | rfl
    · exact hk.resumable hi hhigh l hl hw
    · right
      intro b' hb'
      obtain rfl := Option.some.inj (hb.symm.trans hb')
      obtain ⟨top, htop, hblock⟩ := h.highest hi hhigh
      exact hlast top htop hi hblock
  coming pending hstream l hl hw := by
    obtain ⟨old, hold, rfl⟩ := Option.map_eq_some_iff.mp hstream
    rcases mem_since_emit h hl with hl | rfl
    · refine (hk.coming old hold l hl hw).imp_right fun hmem => ?_
      split
      · exact List.mem_append_left _ hmem
      · exact hmem
    · -- the open subscription is for no later block than this one
      right
      have hadmits : s.checker.filter.admits l = true := by
        refine (admits_iff hb).mpr ⟨hw, fun first hfrom => ?_⟩
        obtain ⟨hi, hhigh, hle⟩ := h.resume first hfrom
        obtain ⟨top, htop, hblock⟩ := h.highest hi hhigh
        exact UInt64.le_trans hle (hlast top htop hi hblock)
      rw [if_pos hadmits]
      exact List.mem_append_right _ List.mem_cons_self

theorem kept_setStartBlock (hk : Kept Config s) :
    Kept Config { s with checker := s.checker.setStartBlock } where
  resumable hi hhigh l hl hw := by
    rw [setStartBlock_highestBlock] at hhigh
    rw [sent_setStartBlock_iff]
    exact hk.resumable hi hhigh l hl ((setStartBlock_watches _).mp hw)
  coming pending hstream l hl hw := by
    rw [sent_setStartBlock_iff]
    exact hk.coming pending hstream l hl ((setStartBlock_watches _).mp hw)

/-- **A subscription brings back everything that has not been sent.** -/
theorem kept_subscribed (h : Tracked s) (hk : Kept Config s) (hclosed : s.stream = none)
    (hc : Resumes Config s .subscribed) :
    Kept Config { s with
      checker := s.checker.setStartBlock
      stream := some (backlog s.checker.setStartBlock.filter s.chain)
      subscribedAt := s.subscribedAt <|> some s.chain.length } where
  resumable hi hhigh l hl hw := by
    rw [setStartBlock_highestBlock] at hhigh
    rw [since_subscribed] at hl
    rw [sent_setStartBlock_iff]
    exact hk.resumable hi hhigh l hl ((setStartBlock_watches _).mp hw)
  coming pending hstream l hl hw := by
    obtain rfl := Option.some.inj hstream
    rw [since_subscribed] at hl
    rw [sent_setStartBlock_iff]
    have hw' := (setStartBlock_watches _).mp hw
    cases hhigh : s.checker.highestBlock with
    -- the subscription has no backlog, so the condition has to say that nothing is missing
    | none => exact .inl fun claim hclaim => absurd hclaim (hc hclosed hhigh l hl hw' claim)
    | some hi =>
        -- the backlog has all that is at the highest block or above
        refine (hk.resumable hi hhigh l hl hw').imp_right fun hle => ?_
        have hfrom := setStartBlock_fromBlock hhigh
        have hmem := mem_chain_of_mem_since hl
        obtain ⟨b, hb⟩ := Option.isSome_iff_exists.mp (h.blocks l hmem)
        refine mem_backlog_iff.mpr ⟨by rw [hfrom]; rfl, hmem, ?_⟩
        refine (admits_iff hb).mpr ⟨hw, fun first hfirst => ?_⟩
        rw [hfrom] at hfirst
        obtain rfl := Option.some.inj hfirst
        exact hle b hb

/-- A delivered log is sent, and what is left comes after it. -/
theorem kept_deliver {b : UInt64} {pending : List Log} (h : Tracked s) (hk : Kept Config s)
    (hstream : s.stream = some (log :: pending)) (hb : log.blockNumber = some b) :
    Kept Config { s with
      checker := { s.checker with highestBlock := some b }
      stream := some pending
      sent := s.sent ++ s.checker.claimOf Config log } := by
  have hsent : ∀ l ∈ s.since, Watches s.checker l →
      Sent Config { s with
        checker := { s.checker with highestBlock := some b }
        stream := some pending
        sent := s.sent ++ s.checker.claimOf Config log } l ∨ l ∈ pending := by
    intro l hl hw
    rcases hk.coming _ hstream l hl hw with hs | hmem
    · -- it had been sent before
      exact .inl fun claim hclaim => List.mem_append_left _ (hs claim hclaim)
    · -- it was on the stream: it is the one delivered now, or it still waits
      rcases List.mem_cons.mp hmem with rfl | hmem
      · refine .inl fun claim hclaim => List.mem_append_right _ ?_
        have hmap : ZoraPremint.mapClaim Config s.checker.chainId l = .ok claim := hclaim
        unfold MintChecker.claimOf
        rw [hmap]
        exact List.mem_cons_self
      · exact .inr hmem
  refine ⟨fun hi hhigh l hl hw => (hsent l hl hw).imp_right fun hmem b' hb' => ?_,
    fun pending' hpending l hl hw => ?_⟩
  · -- what still waits comes after the delivered log, so a resumed stream brings it
    obtain rfl := Option.some.inj hhigh
    exact (List.pairwise_cons.mp (h.pending _ hstream).2).1 l hmem b b' hb hb'
  · obtain rfl := Option.some.inj hpending
    exact hsent l hl hw

/-! ## One step -/

/-- What a step does to the checker, unless the loop is not at the place for it. -/
inductive Stepped (Config : Type) [Namespace Config] (s : Polling) : Input → Polling → Prop
  | same (i : Input) : Stepped Config s i s
  | emitted (log : Log) :
      Stepped Config s (.emit log) { s with
        chain := s.chain ++ [log]
        stream := s.stream.map (fun pending =>
          if s.checker.filter.admits log then pending ++ [log] else pending) }
  | refused (hclosed : s.stream = none) :
      Stepped Config s .refused { s with checker := s.checker.setStartBlock }
  | subscribed (hclosed : s.stream = none) :
      Stepped Config s .subscribed { s with
        checker := s.checker.setStartBlock
        stream := some (backlog s.checker.setStartBlock.filter s.chain)
        subscribedAt := s.subscribedAt <|> some s.chain.length }
  | delivered {log : Log} {pending : List Log} (hstream : s.stream = some (log :: pending)) :
      Stepped Config s .deliver { s with
        checker := s.checker.sawLog log
        stream := some pending
        sent := s.sent ++ s.checker.claimOf Config log }
  | disconnected : Stepped Config s .disconnect { s with stream := none }

/-- **Everything a step can do.** -/
theorem stepped_step (s : Polling) (i : Input) : Stepped Config s i (step Config s i) := by
  unfold step
  cases i with
  | emit log => exact .emitted log
  | noProvider => exact .same .noProvider
  | refused =>
      dsimp only
      split
      · exact .same .refused
      · rename_i hclosed; exact .refused hclosed
  | subscribed =>
      dsimp only
      split
      · exact .same .subscribed
      · rename_i hclosed; exact .subscribed hclosed
  | deliver =>
      dsimp only
      split
      · rename_i hstream; exact .delivered hstream
      · exact .same .deliver
  | disconnect => exact .disconnected

theorem tracked_step (s : Polling) (i : Input) (h : Tracked s) (hi : InOrder s i) :
    Tracked (step Config s i) := by
  have hstep : Stepped Config s i (step Config s i) := stepped_step s i
  generalize step Config s i = s' at hstep
  cases hstep with
  | same => exact h
  | emitted log =>
      obtain ⟨b, hb, hlast⟩ := hi
      exact tracked_emit h hb hlast
  | refused hclosed => exact tracked_setStartBlock h
  | subscribed hclosed => exact tracked_subscribed h
  | delivered hstream =>
      obtain ⟨b, hb⟩ := block_of_pending h hstream
      rw [sawLog_of_block _ hb]
      exact tracked_deliver h hstream hb
  | disconnected =>
      exact ⟨h.start, h.blocks, h.ordered, fun _ h' => (nomatch h'), fun _ _ h' => (nomatch h'),
        h.highest, h.resume, h.silent⟩

/-- **Nothing is lost by a step that resumes.** -/
theorem kept_step (s : Polling) (i : Input) (h : Tracked s) (hk : Kept Config s)
    (hi : InOrder s i) (hc : Resumes Config s i) : Kept Config (step Config s i) := by
  have hstep : Stepped Config s i (step Config s i) := stepped_step s i
  generalize step Config s i = s' at hstep
  cases hstep with
  | same => exact hk
  | emitted log =>
      obtain ⟨b, hb, hlast⟩ := hi
      exact kept_emit h hk hb hlast
  | refused hclosed => exact kept_setStartBlock hk
  | subscribed hclosed => exact kept_subscribed h hk hclosed hc
  | delivered hstream =>
      obtain ⟨b, hb⟩ := block_of_pending h hstream
      rw [sawLog_of_block _ hb]
      exact kept_deliver h hk hstream hb
  | disconnected => exact ⟨hk.resumable, fun _ h' => nomatch h'⟩

/-- **And a step that does not resume loses a log at once**: its subscription has nothing to
deliver. -/
theorem resumes_of_lossless (s : Polling) (i : Input) (h : Tracked s)
    (hl : Lossless Config (step Config s i)) : Resumes Config s i := by
  cases i with
  | subscribed =>
      intro hclosed hhigh l hsince hw claim hclaim
      have hset := setStartBlock_of_none hhigh
      -- no log has come, so the filter has not been given a block to start from
      have hfrom : s.checker.filter.fromBlock = none := by
        cases hfrom : s.checker.filter.fromBlock with
        | none => rfl
        | some first =>
            obtain ⟨hi, hhigh', _⟩ := h.resume first hfrom
            rw [hhigh] at hhigh'
            cases hhigh'
      -- the subscription opens with nothing to deliver
      have hstep : step Config s .subscribed = { s with
          stream := some []
          subscribedAt := s.subscribedAt <|> some s.chain.length } := by
        unfold step backlog
        rw [hclosed]
        dsimp only
        rw [hset, hfrom]
      rw [hstep] at hl
      have hmem : l ∈ since { s with
          stream := some []
          subscribedAt := s.subscribedAt <|> some s.chain.length } := by
        rw [since_subscribed s s.checker (some [])]
        exact hsince
      -- the logs on the chain would have to be sent already, and none is
      have hsent := hl rfl l hmem hw claim hclaim
      rw [h.silent hhigh] at hsent
      cases hsent
  | _ => trivial

/-! ## Runs -/

theorem lossless_of_kept (hk : Kept Config s) : Lossless Config s := by
  intro hstream l hl hw
  exact (hk.coming [] hstream l hl hw).resolve_right (fun hmem => nomatch hmem)

theorem kept_new (c : MintChecker) : Kept Config { checker := c } :=
  ⟨fun _ _ _ hl => (nomatch hl), fun _ hstream => nomatch hstream⟩

/--
**Exactly when a mint checker loses nothing.** For every sequence of logs in block order,
deliveries, disconnects and attempts to connect again.
-/
theorem lossless_iff [Keccak] {chainId : UInt64} {c : MintChecker}
    (hstart : MintChecker.start chainId = some c) {is : List Input}
    (hordered : Lib.EveryStep (step Config) { checker := c } InOrder is) :
    Lib.Always (step Config) { checker := c } (Lossless Config) is
      ↔ Lib.EveryStep (step Config) { checker := c } (Resumes Config) is := by
  obtain ⟨hhigh, hfrom⟩ := start_some hstart
  have hnew := tracked_new hhigh hfrom
  refine ⟨fun h done i hd => ?_, fun h done hd => ?_⟩
  · -- the step that does not resume is where the run loses a log
    have htracked := Lib.always_of_everyStep tracked_step hnew hordered done
      ((List.prefix_append done [i]).trans hd)
    have hlossless := h (done ++ [i]) hd
    rw [List.foldl_append] at hlossless
    exact resumes_of_lossless _ i htracked hlossless
  · -- two invariants go along: what the checker knows, and what it has kept
    have hkept := Lib.always_of_everyStep (I := fun s => Tracked s ∧ Kept Config s)
      (D := fun s i => InOrder s i ∧ Resumes Config s i)
      (fun s i hs hi => ⟨tracked_step s i hs.1 hi.1, kept_step s i hs.1 hs.2 hi.1 hi.2⟩)
      ⟨hnew, kept_new c⟩ (fun done i hd => ⟨hordered done i hd, h done i hd⟩)
    exact lossless_of_kept (hkept done hd).2

end Polling

/-! ## A mint while the subscription is down -/

section Example

open Sample

attribute [local instance] Sample.alloy Sample.keccak

/-- A checker as it is started. -/
def zoraChecker : MintChecker :=
  { chainId := 7777777, filter := { address := PREMINT_FACTORY_ADDR, topic0 := premintedV2Topic } }

/-- A mint in this block. -/
def mintAt (block index : UInt64) : Log where
  address := PREMINT_FACTORY_ADDR
  topics := [premintedV2Topic, 1, 1, 1]
  data := mintData
  blockNumber := some block
  transactionHash := some 5
  logIndex := some index

/-- The subscription breaks before anything has come, and there is a mint before the next. -/
def brokenEarly : List Input := [.subscribed, .disconnect, .emit (mintAt 5 0), .subscribed]

/-- **The mint is never sent.** -/
theorem early_mint_lost : MintChecker.start 7777777 = some zoraChecker
    ∧ Lib.EveryStep (step IZoraPremintV2.TokenCreationConfig) { checker := zoraChecker } InOrder
      brokenEarly
    ∧ ¬ Lib.Always (step IZoraPremintV2.TokenCreationConfig) { checker := zoraChecker }
      (Lossless IZoraPremintV2.TokenCreationConfig) brokenEarly := by
  refine ⟨by decide +kernel, ?_, fun h => ?_⟩
  · exact Lib.everyStep_cons_iff.mpr ⟨trivial, Lib.everyStep_cons_iff.mpr ⟨trivial,
      Lib.everyStep_cons_iff.mpr ⟨⟨5, rfl, fun _ hmem => nomatch hmem⟩,
        Lib.everyStep_cons_iff.mpr ⟨trivial, Lib.everyStep_nil⟩⟩⟩⟩
  · have hdecode : Alloy.decodePremintedV2 (mintAt 5 0).topics (mintAt 5 0).data
        = .ok mintEvent := by decide +kernel
    have hsent := h brokenEarly List.prefix_rfl (by decide +kernel) (mintAt 5 0)
      (by decide +kernel) ⟨rfl, rfl⟩ _ (mapClaim_of_decodes _ _ hdecode)
    exact nomatch hsent

/-- The same after a first delivery, with two mints in one block. -/
def brokenLater : List Input := [.subscribed, .emit (mintAt 5 0), .deliver, .disconnect,
  .emit (mintAt 5 1), .noProvider, .refused, .subscribed, .deliver, .deliver]

/-- **Both are sent, though the second came between two subscriptions.** -/
theorem later_mints_sent :
    Lib.Always (step IZoraPremintV2.TokenCreationConfig) { checker := zoraChecker }
      (Lossless IZoraPremintV2.TokenCreationConfig) brokenLater := by
  have hstart : MintChecker.start 7777777 = some zoraChecker := by decide +kernel
  have hfirst : ∀ earlier ∈ ([] : List Log), ∀ b, earlier.blockNumber = some b → b ≤ 5 := by
    intro earlier hmem
    exact absurd hmem List.not_mem_nil
  have hsecond : ∀ earlier ∈ [mintAt 5 0], ∀ b, earlier.blockNumber = some b → b ≤ 5 := by
    intro earlier hmem b hb
    rw [List.mem_singleton.mp hmem] at hb
    exact Option.some.inj hb ▸ UInt64.le_refl 5
  have hordered : Lib.EveryStep (step IZoraPremintV2.TokenCreationConfig)
      { checker := zoraChecker } InOrder brokenLater := by
    simp only [brokenLater, Lib.everyStep_cons_iff, Lib.everyStep_nil, InOrder, true_and, and_true]
    exact ⟨⟨5, rfl, hfirst⟩, 5, rfl, hsecond⟩
  refine (lossless_iff hstart hordered).mpr ?_
  simp only [brokenLater, Lib.everyStep_cons_iff, Lib.everyStep_nil, Resumes, true_and, and_true]
  refine ⟨fun _ _ log hlog => absurd hlog List.not_mem_nil, fun _ hhigh => ?_⟩
  -- the second subscription begins from block 5
  have hblock : (some 5 : Option UInt64) = none := hhigh
  cases hblock

end Example

end Mintpool.Polling
