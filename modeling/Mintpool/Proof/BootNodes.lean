import Mathlib.Data.List.Forall2
import Mintpool.Chain
import Mintpool.Proof.Registry

/-!
# Finding the boot nodes

The contract cannot list its nodes: it can only say of a node whether it trusts it. The
reader gets the candidates from the events, where a node that was added twice is there
twice and one that was removed is there still, and then asks about all of them at once.

That is enough, because a node is only ever trusted by a call that announces it.
-/

namespace Mintpool.Registry

section BootNodes

variable [Keccak] {s : Registry}

/-- The nodes of the `TrustedNodeAdded` events, oldest first. -/
def announced (s : Registry) : List String :=
  s.emitted.filterMap (fun
    | .trustedNodeAdded node => some node
    | _ => none)

omit [Keccak] in
theorem mem_announced_iff {node : String} :
    node ∈ s.announced ↔ .trustedNodeAdded node ∈ s.emitted := by
  rw [announced, List.mem_filterMap]
  refine ⟨?_, fun h => ⟨_, h, rfl⟩⟩
  rintro ⟨event, hmem, hevent⟩
  cases event with
  | trustedNodeAdded m =>
      obtain rfl := Option.some.inj hevent
      exact hmem
  | ownershipTransferred user newOwner => cases hevent
  | trustedNodeRemoved m => cases hevent

/-! ## Every trusted node has been announced -/

def AllAnnounced (s : Registry) : Prop := ∀ node, s.isTrustedNode node = true → node ∈ s.announced

theorem allAnnounced_added {node : String} (hu : Collisionless node) (h : s.AllAnnounced) :
    (s.added node).AllAnnounced := by
  intro m hm
  rw [mem_announced_iff]
  rcases isTrustedNode_added.mp hm with hhash | htrusted
  · obtain rfl := hu m hhash
    exact List.mem_append_right _ List.mem_cons_self
  · exact List.mem_append_left _ (mem_announced_iff.mp (h m htrusted))

theorem allAnnounced_removed {node : String} (h : s.AllAnnounced) :
    (s.removed node).AllAnnounced := by
  intro m hm
  have hmem := mem_announced_iff.mp (h m (isTrustedNode_removed.mp hm).2)
  exact mem_announced_iff.mpr (List.mem_append_left _ hmem)

theorem allAnnounced_foldl_added {nodes : List String} (hu : ∀ node ∈ nodes, Collisionless node)
    (h : s.AllAnnounced) : (nodes.foldl added s).AllAnnounced :=
  Lib.foldl_invariant (fun _ node hnode h => allAnnounced_added (hu node hnode) h) h

/-- **Preserved by every transaction.** -/
theorem allAnnounced_transact {tx : Transaction} (hu : ∀ node ∈ tx.call.nodes, Collisionless node)
    (h : s.AllAnnounced) : (s.transact tx).AllAnnounced := by
  rcases transact_cases s tx with hsame | hexec
  · rw [hsame]
    exact h
  · generalize s.transact tx = s' at hexec
    cases hexec with
    | initialized sender owner hzero hadd =>
        -- whoever is trusted at the start has been added, and so announced
        have hall := allAnnounced_foldl_added hu h
        intro node hnode
        have hmem := mem_announced_iff.mp (hall node hnode)
        exact mem_announced_iff.mpr (List.mem_append_left _ hmem)
    | added hcall hadd =>
        rw [Call.nodes_of_adds hcall] at hu
        exact allAnnounced_foldl_added hu h
    | removed hcall hlen => exact Lib.foldl_invariant (fun _ _ _ h => allAnnounced_removed h) h
    | transferred newOwner =>
        intro node hnode
        have hmem := mem_announced_iff.mp (h node hnode)
        exact mem_announced_iff.mpr (List.mem_append_left _ hmem)

theorem allAnnounced_run {txs : List Transaction}
    (hunique : ∀ tx ∈ txs, ∀ node ∈ tx.call.nodes, Collisionless node) :
    (txs.foldl transact {}).AllAnnounced := by
  refine Lib.foldl_invariant (fun _ tx htx h => allAnnounced_transact (hunique tx htx) h) ?_
  intro node hnode
  cases hnode

/-! ## Asking about the candidates -/

omit [Keccak] in
/-- One flag for each node, in order: what is left are the nodes with the flag. -/
theorem filterMap_zip_map (trusts : String → Bool) (nodes : List String) :
    ((nodes.map trusts).zip nodes).filterMap (fun (isTrusted, node) =>
      if isTrusted then some node else none) = nodes.filter trusts := by
  induction nodes with
  | nil => rfl
  | cons node nodes ih =>
      rw [List.map_cons, List.zip_cons_cons, List.filterMap_cons, ih, List.filter_cons]
      cases trusts node <;> rfl

variable [MintpoolTrustedBootnodes]

omit [Keccak] in
/-- Logs that decode one by one give the events one by one. -/
theorem filterMap_decode {logs : List Log} {nodes : List String}
    (h : List.Forall₂ (fun log node =>
      MintpoolTrustedBootnodes.decodeTrustedNodeAdded log.topics log.data = .ok ⟨node⟩)
      logs nodes) :
    (logs.filterMap (fun log =>
      (MintpoolTrustedBootnodes.decodeTrustedNodeAdded log.topics log.data).toOption)).map
        TrustedNodeAdded.node = nodes := by
  induction h with
  | nil => rfl
  | cons hlog _ ih =>
      rw [List.filterMap_cons, hlog]
      exact congrArg (List.cons _) ih

/-- The provider answers for the contract in this state: with its events, in order, and
with its own view. -/
structure AnswersFor (chain : ChainListProvider) (s : Registry) : Prop where
  logs : ∃ logs, chain.getLogs bootNodesFilter = .ok logs
    ∧ List.Forall₂ (fun log node =>
      MintpoolTrustedBootnodes.decodeTrustedNodeAdded log.topics log.data = .ok ⟨node⟩)
      logs s.announced
  view : ∀ nodes,
    chain.isTrustedNode1 BOOTNODES_CONTRACT_ADDRESS nodes = .ok (s.isTrustedNodes nodes)

/-- **The reader returns the announced nodes that are trusted.** -/
theorem getContractBootNodes_eq {getRpc : UInt64 → Except Report ChainListProvider}
    {chain : ChainListProvider} (hrpc : getRpc 7777777 = .ok chain) (h : AnswersFor chain s) :
    getContractBootNodes getRpc = .ok (s.announced.filter s.isTrustedNode) := by
  obtain ⟨⟨logs, hlogs, hdecode⟩, hview⟩ := h
  have hnodes := filterMap_decode hdecode
  unfold getContractBootNodes
  refine bind_eq_ok_iff.mpr ⟨chain, hrpc, bind_eq_ok_iff.mpr ⟨logs, hlogs, ?_⟩⟩
  dsimp only
  rw [hnodes]
  refine bind_eq_ok_iff.mpr ⟨_, hview _, ?_⟩
  exact congrArg Except.ok (filterMap_zip_map s.isTrustedNode s.announced)

/--
**The boot nodes are the nodes that the contract trusts.** For every sequence of calls by
anyone, in which no two strings are confused by their hashes.
-/
theorem bootNodes_are_trusted (txs : List Transaction)
    (hunique : ∀ tx ∈ txs, ∀ node ∈ tx.call.nodes, Collisionless node)
    {getRpc : UInt64 → Except Report ChainListProvider} {chain : ChainListProvider}
    (hrpc : getRpc 7777777 = .ok chain) (h : AnswersFor chain (txs.foldl transact {})) :
    ∃ nodes, getContractBootNodes getRpc = .ok nodes
      ∧ {node | node ∈ nodes} = (txs.foldl transact {}).trusted := by
  refine ⟨_, getContractBootNodes_eq hrpc h, ?_⟩
  ext node
  rw [Set.mem_ofPred_eq, List.mem_filter]
  exact ⟨And.right, fun htrusted => ⟨allAnnounced_run hunique node htrusted, htrusted⟩⟩

end BootNodes

/-! ## A node that comes back -/

section Example

attribute [local instance] Sample.keccak Sample.mintpoolTrustedBootnodes

/-- A second node is added, the first one removed, and added again. -/
def comeback : List Transaction := [deployment, ⟨1, .addTrustedNode "/node/2"⟩,
  ⟨1, .removeTrustedNode "/node/1"⟩, ⟨1, .addTrustedNode "/node/1"⟩]

/-- The log of a node's `TrustedNodeAdded`, for a name of seven characters. -/
def addedLog (node : String) : Log where
  address := BOOTNODES_CONTRACT_ADDRESS
  topics := [Sample.trustedNodeAddedTopic]
  data := List.replicate 31 0 ++ [32] ++ List.replicate 31 0 ++ [7]
    ++ node.toList.map (fun c => UInt8.ofNat c.toNat) ++ List.replicate 25 0
  blockNumber := some 13699231

/-- A provider for the contract after `comeback`. -/
def comebackProvider : ChainListProvider where
  getLogs filter :=
    .ok ((["/node/1", "/node/2", "/node/1"].map addedLog).filter filter.admits)
  isTrustedNode1 _ nodes := .ok ((comeback.foldl transact {}).isTrustedNodes nodes)

theorem comeback_boot_nodes : ∃ nodes,
    getContractBootNodes (fun _ => .ok comebackProvider) = .ok nodes
      ∧ {node | node ∈ nodes} = (comeback.foldl transact {}).trusted := by
  have hnames : ∀ tx ∈ comeback, ∀ node ∈ tx.call.nodes, node ∈ ["/node/1", "/node/2"] := by
    decide
  have hannounced : (comeback.foldl transact {}).announced = ["/node/1", "/node/2", "/node/1"] := by
    decide +kernel
  refine bootNodes_are_trusted comeback (fun tx htx node hnode =>
    collisionless_sample node (hnames tx htx node hnode)) rfl ⟨?_, fun _ => rfl⟩
  rw [hannounced]
  refine ⟨["/node/1", "/node/2", "/node/1"].map addedLog, by decide +kernel, ?_⟩
  exact .cons (by decide +kernel) (.cons (by decide +kernel) (.cons (by decide +kernel) .nil))

end Example

end Mintpool.Registry
