import Mintpool.Lib.CountedSet
import Mintpool.Lib.Run
import Mintpool.Sample

/-!
# Who rules the registry, and whether it can count

What a call can do is said once, in `Executed`: who may make it, what has to hold of the
storage, and what the storage is afterwards. The rest is read off it.

Two things do not hold. `initialize` takes the counter at zero for "not initialized yet",
but the counter is back at zero, or has never left it, in ways of its own: an empty list of
first nodes, an owner who removes the last one. And the counter is not the number of trusted
nodes once a node has been removed that was not trusted. In both cases the exact condition
is proved over all sequences of calls.
-/

namespace Mintpool.Registry

section Calls

variable [Keccak] {s s' : Registry}

/-! ## What a call does -/

omit [Keccak] in
/-- A computation that may fail comes to a value when both of its parts do. -/
theorem bind_eq_ok_iff {ε α β : Type} {x : Except ε α} {f : α → Except ε β} {b : β} :
    (x >>= f) = .ok b ↔ ∃ a, x = .ok a ∧ f a = .ok b := by
  cases x with
  | error e => exact ⟨fun h => (nomatch h), fun ⟨_, h, _⟩ => (nomatch h)⟩
  | ok a => exact ⟨fun h => ⟨a, rfl, h⟩, fun ⟨_, ha, hb⟩ => by cases ha; exact hb⟩

omit [Keccak] in
theorem require_eq_ok_iff {condition : Bool} {reason : String} {u : Unit} :
    require condition reason = .ok u ↔ condition = true := by
  cases condition with
  | false => exact ⟨fun h => (nomatch h), fun h => nomatch h⟩
  | true => exact ⟨fun _ => rfl, fun _ => rfl⟩

omit [Keccak] in
theorem onlyOwner_eq_ok_iff {sender : Address} {u : Unit} :
    s.onlyOwner sender = .ok u ↔ sender = s.owner := by
  rw [onlyOwner, require_eq_ok_iff, decide_eq_true_eq]

omit [Keccak] in
theorem checkedIncrement_eq_ok_iff {n n' : U256} :
    checkedIncrement n = .ok n' ↔ n.toNat + 1 < 2 ^ 256 ∧ n' = n + 1 := by
  -- the counter is at its maximum exactly when one more does not fit
  have hmax : n = BitVec.allOnes 256 ↔ ¬ n.toNat + 1 < 2 ^ 256 := by
    rw [← BitVec.toNat_inj, BitVec.toNat_allOnes]
    have := n.isLt
    omega
  rw [checkedIncrement]
  by_cases h : n = BitVec.allOnes 256
  · rw [if_pos h]
    exact ⟨fun h' => (nomatch h'), fun h' => absurd h'.1 (hmax.mp h)⟩
  · rw [if_neg h]
    have hlt : n.toNat + 1 < 2 ^ 256 := by
      by_contra hge
      exact h (hmax.mpr hge)
    exact ⟨fun h' => ⟨hlt, (Except.ok.inj h').symm⟩, fun h' => by rw [h'.2]⟩

omit [Keccak] in
theorem checkedDecrement_eq_ok_iff {n n' : U256} :
    checkedDecrement n = .ok n' ↔ 0 < n.toNat ∧ n' = n - 1 := by
  have hzero : n = 0 ↔ ¬ 0 < n.toNat := by
    rw [← BitVec.toNat_inj]
    show n.toNat = 0 ↔ _
    omega
  rw [checkedDecrement]
  by_cases h : n = 0
  · rw [if_pos h]
    exact ⟨fun h' => (nomatch h'), fun h' => absurd h'.1 (hzero.mp h)⟩
  · rw [if_neg h]
    have hlt : 0 < n.toNat := by
      by_contra hge
      exact h (hzero.mpr hge)
    exact ⟨fun h' => ⟨hlt, (Except.ok.inj h').symm⟩, fun h' => by rw [h'.2]⟩

/-- The contract with a node added. -/
def added (s : Registry) (node : String) : Registry :=
  { s with
    trustedNodeMap := Function.update s.trustedNodeMap (hashNode node) true
    trustedNodeCount := s.trustedNodeCount + 1
    emitted := s.emitted ++ [.trustedNodeAdded node] }

/-- The contract with a node removed. -/
def removed (s : Registry) (node : String) : Registry :=
  { s with
    trustedNodeMap := Function.update s.trustedNodeMap (hashNode node) false
    trustedNodeCount := s.trustedNodeCount - 1
    emitted := s.emitted ++ [.trustedNodeRemoved node] }

@[simp] theorem added_owner (node : String) : (s.added node).owner = s.owner := rfl

@[simp] theorem removed_owner (node : String) : (s.removed node).owner = s.owner := rfl

theorem added_count {node : String} (h : s.trustedNodeCount.toNat + 1 < 2 ^ 256) :
    (s.added node).trustedNodeCount.toNat = s.trustedNodeCount.toNat + 1 := by
  show (s.trustedNodeCount + 1).toNat = _
  rw [BitVec.toNat_add]
  exact Nat.mod_eq_of_lt h

theorem removed_count {node : String} (h : 0 < s.trustedNodeCount.toNat) :
    (s.removed node).trustedNodeCount.toNat = s.trustedNodeCount.toNat - 1 := by
  show (s.trustedNodeCount - 1).toNat = _
  have h1 : (1 : U256).toNat = 1 := rfl
  have := s.trustedNodeCount.isLt
  rw [BitVec.toNat_sub, h1]
  omega

/-- A list of nodes can be added: none is trusted, no two have one hash, and they can be
counted. -/
structure Addable (s : Registry) (nodes : List String) : Prop where
  distinct : (nodes.map hashNode).Nodup
  untrusted : ∀ node ∈ nodes, s.isTrustedNode node = false
  countable : s.trustedNodeCount.toNat + nodes.length < 2 ^ 256

theorem isTrustedNode_added {node m : String} :
    (s.added node).isTrustedNode m = true
      ↔ hashNode m = hashNode node ∨ s.isTrustedNode m = true := by
  show Function.update s.trustedNodeMap (hashNode node) true (hashNode m) = true ↔ _
  by_cases h : hashNode m = hashNode node
  · rw [h, Function.update_self]
    exact ⟨fun _ => .inl rfl, fun _ => rfl⟩
  · rw [Function.update_of_ne h]
    exact ⟨.inr, fun h' => h'.resolve_left h⟩

theorem isTrustedNode_removed {node m : String} :
    (s.removed node).isTrustedNode m = true
      ↔ hashNode m ≠ hashNode node ∧ s.isTrustedNode m = true := by
  show Function.update s.trustedNodeMap (hashNode node) false (hashNode m) = true ↔ _
  by_cases h : hashNode m = hashNode node
  · rw [h, Function.update_self]
    exact ⟨fun h' => (nomatch h'), fun h' => absurd rfl h'.1⟩
  · rw [Function.update_of_ne h]
    exact ⟨fun h' => ⟨h, h'⟩, And.right⟩

theorem addTrustedNodePrivate_eq_ok_iff {node : String} :
    s.addTrustedNodePrivate node = .ok s'
      ↔ s.isTrustedNode node = false ∧ s.trustedNodeCount.toNat + 1 < 2 ^ 256
        ∧ s' = s.added node := by
  rw [addTrustedNodePrivate, bind_eq_ok_iff]
  refine ⟨fun ⟨_, hreq, h⟩ => ?_, fun ⟨hnew, hcount, h⟩ => ⟨(), ?_, ?_⟩⟩
  · obtain ⟨count, hcount, h⟩ := bind_eq_ok_iff.mp h
    obtain ⟨hlt, rfl⟩ := checkedIncrement_eq_ok_iff.mp hcount
    exact ⟨by simpa [isTrustedNode] using require_eq_ok_iff.mp hreq, hlt, (Except.ok.inj h).symm⟩
  · rw [require_eq_ok_iff]
    simpa [isTrustedNode] using hnew
  · rw [bind_eq_ok_iff, h]
    exact ⟨_, checkedIncrement_eq_ok_iff.mpr ⟨hcount, rfl⟩, rfl⟩

theorem addable_cons_iff {node : String} {nodes : List String} :
    s.Addable (node :: nodes) ↔ s.isTrustedNode node = false
      ∧ s.trustedNodeCount.toNat + 1 < 2 ^ 256 ∧ (s.added node).Addable nodes := by
  -- the others are still to be added after this one if they are untrusted and unlike it
  have hrest : (∀ m ∈ nodes, (s.added node).isTrustedNode m = false)
      ↔ hashNode node ∉ nodes.map hashNode ∧ ∀ m ∈ nodes, s.isTrustedNode m = false := by
    simp only [← Bool.not_eq_true, isTrustedNode_added, not_or, List.mem_map, not_exists, not_and]
    exact ⟨fun h => ⟨fun m hm => (h m hm).1, fun m hm => (h m hm).2⟩,
      fun h m hm => ⟨h.1 m hm, h.2 m hm⟩⟩
  refine ⟨fun ⟨hdistinct, huntrusted, hcount⟩ => ?_, fun ⟨hnew, hlt, hd, hu, hc⟩ => ?_⟩
  · rw [List.map_cons, List.nodup_cons] at hdistinct
    rw [List.forall_mem_cons] at huntrusted
    rw [List.length_cons] at hcount
    have hlt : s.trustedNodeCount.toNat + 1 < 2 ^ 256 := by omega
    refine ⟨huntrusted.1, hlt, hdistinct.2, hrest.mpr ⟨hdistinct.1, huntrusted.2⟩, ?_⟩
    rw [added_count hlt]
    omega
  · obtain ⟨hne, hu'⟩ := hrest.mp hu
    rw [added_count hlt] at hc
    refine ⟨?_, List.forall_mem_cons.mpr ⟨hnew, hu'⟩, by rw [List.length_cons]; omega⟩
    rw [List.map_cons, List.nodup_cons]
    exact ⟨hne, hd⟩

/-- **The loop that adds runs to its end exactly when all of its nodes can be added.** -/
theorem foldlM_add_eq_ok_iff {nodes : List String} :
    nodes.foldlM addTrustedNodePrivate s = .ok s'
      ↔ s.Addable nodes ∧ s' = nodes.foldl added s := by
  induction nodes generalizing s with
  | nil =>
      have hlt := s.trustedNodeCount.isLt
      exact ⟨fun h => ⟨⟨List.nodup_nil, by simp, hlt⟩, (Except.ok.inj h).symm⟩,
        fun h => congrArg Except.ok h.2.symm⟩
  | cons node nodes ih =>
      rw [List.foldlM_cons, bind_eq_ok_iff, addable_cons_iff, List.foldl_cons]
      refine ⟨fun ⟨s₁, h₁, h⟩ => ?_, fun ⟨⟨hnew, hlt, hrest⟩, h⟩ => ?_⟩
      · obtain ⟨hnew, hlt, rfl⟩ := addTrustedNodePrivate_eq_ok_iff.mp h₁
        obtain ⟨hrest, hs'⟩ := ih.mp h
        exact ⟨⟨hnew, hlt, hrest⟩, hs'⟩
      · exact ⟨_, addTrustedNodePrivate_eq_ok_iff.mpr ⟨hnew, hlt, rfl⟩, ih.mpr ⟨hrest, h⟩⟩

theorem removeTrustedNode_eq_ok_iff {sender : Address} {node : String} :
    s.removeTrustedNode sender node = .ok s'
      ↔ sender = s.owner ∧ 0 < s.trustedNodeCount.toNat ∧ s' = s.removed node := by
  rw [removeTrustedNode, bind_eq_ok_iff]
  refine ⟨fun ⟨_, howner, h⟩ => ?_, fun ⟨howner, hpos, h⟩ => ⟨(), ?_, ?_⟩⟩
  · obtain ⟨count, hcount, h⟩ := bind_eq_ok_iff.mp h
    obtain ⟨hpos, rfl⟩ := checkedDecrement_eq_ok_iff.mp hcount
    exact ⟨onlyOwner_eq_ok_iff.mp howner, hpos, (Except.ok.inj h).symm⟩
  · exact onlyOwner_eq_ok_iff.mpr howner
  · rw [bind_eq_ok_iff, h]
    exact ⟨_, checkedDecrement_eq_ok_iff.mpr ⟨hpos, rfl⟩, rfl⟩

/-- **The owner's loop that removes runs to its end exactly when the counter goes that far.** -/
theorem foldlM_remove_eq_ok_iff {sender : Address} {nodes : List String}
    (howner : sender = s.owner) :
    nodes.foldlM (fun s node => s.removeTrustedNode sender node) s = .ok s'
      ↔ nodes.length ≤ s.trustedNodeCount.toNat ∧ s' = nodes.foldl removed s := by
  induction nodes generalizing s with
  | nil => exact ⟨fun h => ⟨Nat.zero_le _, (Except.ok.inj h).symm⟩,
      fun h => congrArg Except.ok h.2.symm⟩
  | cons node nodes ih =>
      have howner' : sender = (s.removed node).owner := howner
      rw [List.foldlM_cons, bind_eq_ok_iff, List.foldl_cons, List.length_cons]
      refine ⟨fun ⟨s₁, h₁, h⟩ => ?_, fun ⟨hlen, h⟩ => ?_⟩
      · -- the first removal leaves a count that the others still fit into
        obtain ⟨_, hpos, rfl⟩ := removeTrustedNode_eq_ok_iff.mp h₁
        obtain ⟨hlen, hs'⟩ := (ih howner').mp h
        rw [removed_count hpos] at hlen
        exact ⟨by omega, hs'⟩
      · have hpos : 0 < s.trustedNodeCount.toNat := by omega
        refine ⟨_, removeTrustedNode_eq_ok_iff.mpr ⟨howner, hpos, rfl⟩,
          (ih howner').mpr ⟨?_, h⟩⟩
        rw [removed_count hpos]
        omega

/-- The nodes that a call of the owner adds. -/
def Call.adds : Call → Option (List String)
  | .addTrustedNode node => some [node]
  | .addTrustedNodeBatch nodes => some nodes
  | _ => none

/-- The nodes that a call of the owner removes. -/
def Call.removes : Call → Option (List String)
  | .removeTrustedNode node => some [node]
  | .removeTrustedNodeBatch nodes => some nodes
  | _ => none

/-- **What a transaction that does not revert can do**, and when. -/
inductive Executed (s : Registry) : Transaction → Registry → Prop
  | initialized (sender : Address) {nodes : List String} (owner : Address)
      (hzero : s.trustedNodeCount = 0) (h : s.Addable nodes) :
      Executed s ⟨sender, .initializeWith nodes owner⟩ ((nodes.foldl added s).initOwner owner)
  | added {call : Call} {nodes : List String} (hcall : call.adds = some nodes)
      (h : s.Addable nodes) : Executed s ⟨s.owner, call⟩ (nodes.foldl added s)
  | removed {call : Call} {nodes : List String} (hcall : call.removes = some nodes)
      (hlen : nodes.length ≤ s.trustedNodeCount.toNat) :
      Executed s ⟨s.owner, call⟩ (nodes.foldl removed s)
  | transferred (newOwner : Address) :
      Executed s ⟨s.owner, .transferOwnership newOwner⟩
        { s with
            owner := newOwner,
            emitted := s.emitted ++ [.ownershipTransferred s.owner newOwner] }

theorem executed_of_execute {tx : Transaction} (h : s.execute tx = .ok s') : Executed s tx s' := by
  obtain ⟨sender, call⟩ := tx
  cases call with
  | initializeWith nodes owner =>
      obtain ⟨_, hreq, hbody⟩ := bind_eq_ok_iff.mp h
      obtain ⟨s₁, hloop, hdone⟩ := bind_eq_ok_iff.mp hbody
      obtain ⟨hadd, rfl⟩ := foldlM_add_eq_ok_iff.mp hloop
      cases hdone
      exact .initialized sender owner (of_decide_eq_true (require_eq_ok_iff.mp hreq)) hadd
  | addTrustedNode node =>
      obtain ⟨_, howner, hbody⟩ := bind_eq_ok_iff.mp h
      obtain rfl := onlyOwner_eq_ok_iff.mp howner
      -- one node is a batch of one
      have hloop : [node].foldlM addTrustedNodePrivate s = .ok s' := by
        rw [List.foldlM_cons, bind_eq_ok_iff]
        exact ⟨s', hbody, rfl⟩
      obtain ⟨hadd, rfl⟩ := foldlM_add_eq_ok_iff.mp hloop
      exact .added rfl hadd
  | addTrustedNodeBatch nodes =>
      obtain ⟨_, howner, hbody⟩ := bind_eq_ok_iff.mp h
      obtain rfl := onlyOwner_eq_ok_iff.mp howner
      obtain ⟨hadd, rfl⟩ := foldlM_add_eq_ok_iff.mp hbody
      exact .added rfl hadd
  | removeTrustedNode node =>
      obtain ⟨rfl, hpos, rfl⟩ := removeTrustedNode_eq_ok_iff.mp h
      have hlen : [node].length ≤ s.trustedNodeCount.toNat := hpos
      exact .removed rfl hlen
  | removeTrustedNodeBatch nodes =>
      obtain ⟨_, howner, hbody⟩ := bind_eq_ok_iff.mp h
      obtain rfl := onlyOwner_eq_ok_iff.mp howner
      obtain ⟨hlen, rfl⟩ := (foldlM_remove_eq_ok_iff rfl).mp hbody
      exact .removed rfl hlen
  | transferOwnership newOwner =>
      obtain ⟨_, howner, hbody⟩ := bind_eq_ok_iff.mp h
      obtain rfl := onlyOwner_eq_ok_iff.mp howner
      cases hbody
      exact .transferred newOwner

theorem execute_of_executed {tx : Transaction} (h : Executed s tx s') : s.execute tx = .ok s' := by
  have howner : s.onlyOwner s.owner = .ok () := onlyOwner_eq_ok_iff.mpr rfl
  cases h with
  | initialized sender owner hzero hadd =>
      refine bind_eq_ok_iff.mpr ⟨(), require_eq_ok_iff.mpr (decide_eq_true hzero), ?_⟩
      exact bind_eq_ok_iff.mpr ⟨_, foldlM_add_eq_ok_iff.mpr ⟨hadd, rfl⟩, rfl⟩
  | @added call nodes hcall hadd =>
      have hloop := foldlM_add_eq_ok_iff.mpr ⟨hadd, rfl⟩
      cases call with
      | addTrustedNode node =>
          obtain rfl := Option.some.inj hcall
          rw [List.foldlM_cons, bind_eq_ok_iff] at hloop
          obtain ⟨s₁, h₁, hloop⟩ := hloop
          cases hloop
          exact bind_eq_ok_iff.mpr ⟨(), howner, h₁⟩
      | addTrustedNodeBatch nodes' =>
          obtain rfl := Option.some.inj hcall
          exact bind_eq_ok_iff.mpr ⟨(), howner, hloop⟩
      | _ => exact nomatch hcall
  | @removed call nodes hcall hlen =>
      cases call with
      | removeTrustedNode node =>
          obtain rfl := Option.some.inj hcall
          exact removeTrustedNode_eq_ok_iff.mpr ⟨rfl, hlen, rfl⟩
      | removeTrustedNodeBatch nodes' =>
          obtain rfl := Option.some.inj hcall
          exact bind_eq_ok_iff.mpr ⟨(), howner, (foldlM_remove_eq_ok_iff rfl).mpr ⟨hlen, rfl⟩⟩
      | _ => exact nomatch hcall
  | transferred newOwner => exact bind_eq_ok_iff.mpr ⟨(), howner, rfl⟩

/-- A transaction reverts, and changes nothing, or it does one of these things. -/
theorem transact_cases (s : Registry) (tx : Transaction) :
    s.transact tx = s ∨ Executed s tx (s.transact tx) := by
  rw [transact]
  cases h : s.execute tx with
  | error e => exact .inl rfl
  | ok s' => exact .inr (executed_of_execute h)

theorem transact_of_executed {tx : Transaction} (h : Executed s tx s') : s.transact tx = s' := by
  rw [transact, execute_of_executed h]

/-! ## The owner -/

/-- The node strings that are trusted. -/
def trusted (s : Registry) : Set String := {node | s.isTrustedNode node = true}

/-- What a list of added nodes leaves alone and what it adds. -/
theorem foldl_added_owner (s : Registry) (nodes : List String) :
    (nodes.foldl added s).owner = s.owner := by
  induction nodes generalizing s with
  | nil => rfl
  | cons node nodes ih => exact ih (s.added node)

theorem foldl_removed_owner (s : Registry) (nodes : List String) :
    (nodes.foldl removed s).owner = s.owner := by
  induction nodes generalizing s with
  | nil => rfl
  | cons node nodes ih => exact ih (s.removed node)

theorem isTrustedNode_foldl_added {nodes : List String} {m : String} :
    (nodes.foldl added s).isTrustedNode m = true
      ↔ hashNode m ∈ nodes.map hashNode ∨ s.isTrustedNode m = true := by
  induction nodes generalizing s with
  | nil => simp
  | cons node nodes ih =>
      rw [List.foldl_cons, ih, isTrustedNode_added, List.map_cons, List.mem_cons]
      tauto

/-- A list that can be added changes the trusted set exactly when it is not empty. -/
theorem trusted_foldl_added_ne_iff {nodes : List String} (h : s.Addable nodes) :
    (nodes.foldl added s).trusted ≠ s.trusted ↔ nodes ≠ [] := by
  refine ⟨fun hne hnil => hne (by rw [hnil]; rfl), fun hne heq => ?_⟩
  obtain ⟨node, hnode⟩ := List.exists_mem_of_ne_nil nodes hne
  have hnew : node ∈ (nodes.foldl added s).trusted :=
    isTrustedNode_foldl_added.mpr (.inl (List.mem_map_of_mem hnode))
  rw [heq] at hnew
  exact absurd (h.untrusted node hnode) (by rw [show s.isTrustedNode node = true from hnew]; simp)

/-- A registry since its deployment. -/
structure Deployed where
  registry : Registry := {}
  /-- Whether a call of `initialize` has succeeded. -/
  initialized : Bool := false

def Deployed.transact (d : Deployed) (tx : Transaction) : Deployed where
  registry := d.registry.transact tx
  initialized := d.initialized ||
    match tx.call, d.registry.execute tx with
    | .initializeWith _ _, .ok _ => true
    | _, _ => false

/-- Once it is initialized, who is owner and who is trusted is up to the owner. -/
structure Ruled (d : Deployed) (tx : Transaction) : Prop where
  owner : d.initialized = true → (d.transact tx).registry.owner ≠ d.registry.owner →
    tx.sender = d.registry.owner ∧ ∃ newOwner, tx.call = .transferOwnership newOwner
  trusted : d.initialized = true → (d.transact tx).registry.trusted ≠ d.registry.trusted →
    tx.sender = d.registry.owner

/-- A call of `initialize` that the counter lets through once more, and that brings another
owner, or nodes from someone who is not the owner. -/
def Reinitializes (d : Deployed) (tx : Transaction) : Prop :=
  d.initialized = true ∧ ∃ nodes owner, tx.call = .initializeWith nodes owner
    ∧ d.registry.trustedNodeCount = 0 ∧ d.registry.Addable nodes
    ∧ (owner ≠ d.registry.owner ∨ nodes ≠ [] ∧ tx.sender ≠ d.registry.owner)

/-- **A transaction respects the owner exactly when it does not initialize again.** -/
theorem ruled_iff {d : Deployed} {tx : Transaction} : Ruled d tx ↔ ¬ Reinitializes d tx := by
  refine ⟨?_, fun h => ?_⟩
  · rintro ⟨howner, htrusted⟩ ⟨hinit, nodes, owner, hcall, hzero, hadd, hbad⟩
    obtain ⟨sender, call⟩ := tx
    obtain rfl : call = .initializeWith nodes owner := hcall
    have htransact : (d.transact ⟨sender, .initializeWith nodes owner⟩).registry
        = (nodes.foldl added d.registry).initOwner owner :=
      transact_of_executed (.initialized sender owner hzero hadd)
    rw [htransact] at howner htrusted
    rcases hbad with hother | ⟨hnodes, hsender⟩
    · obtain ⟨_, _, hcall'⟩ := howner hinit hother
      cases hcall'
    · exact hsender (htrusted hinit ((trusted_foldl_added_ne_iff hadd).mpr hnodes))
  · rcases transact_cases d.registry tx with hsame | hexec
    · have hreg : (d.transact tx).registry = d.registry := hsame
      exact ⟨fun _ hne => absurd (by rw [hreg]) hne, fun _ hne => absurd (by rw [hreg]) hne⟩
    · have hreg : (d.transact tx).registry = d.registry.transact tx := rfl
      rw [← hreg] at hexec
      generalize hs' : (d.transact tx).registry = s' at hexec
      cases hexec with
      | initialized sender owner hzero hadd =>
          -- it changes nothing, or the owner who calls it does
          have hgood : d.initialized = true → owner = d.registry.owner
              ∧ (sender ≠ d.registry.owner → _ = []) := fun hinit => by
            refine ⟨by_contra fun hne => ?_, fun hsender => by_contra fun hnodes => ?_⟩
            · exact h ⟨hinit, _, _, rfl, hzero, hadd, .inl hne⟩
            · exact h ⟨hinit, _, _, rfl, hzero, hadd, .inr ⟨hnodes, hsender⟩⟩
          refine ⟨fun hinit hne => absurd ?_ hne, fun hinit hne => by_contra fun hsender => hne ?_⟩
          · rw [hs']
            exact (hgood hinit).1
          · rw [hs', (hgood hinit).2 hsender]
            rfl
      | added hcall hadd =>
          refine ⟨fun _ hne => absurd ?_ hne, fun _ _ => rfl⟩
          rw [hs']
          exact foldl_added_owner _ _
      | removed hcall hlen =>
          refine ⟨fun _ hne => absurd ?_ hne, fun _ _ => rfl⟩
          rw [hs']
          exact foldl_removed_owner _ _
      | transferred newOwner => exact ⟨fun _ _ => ⟨rfl, newOwner, rfl⟩, fun _ _ => rfl⟩

/--
**Exactly when the registry is ruled by its owner.** For every sequence of calls by anyone,
owner and trusted set change as they should throughout exactly when `initialize` is not
let through a second time.
-/
theorem ruled_by_owner_iff (txs : List Transaction) :
    Lib.EveryStep Deployed.transact {} Ruled txs
      ↔ Lib.EveryStep Deployed.transact {} (fun d tx => ¬ Reinitializes d tx) txs := by
  refine ⟨fun h done tx hdone => ?_, fun h done tx hdone => ?_⟩
  · exact ruled_iff.mp (h done tx hdone)
  · exact ruled_iff.mpr (h done tx hdone)

/-! ## The counter -/

/-- The trusted nodes with their counter. -/
def counted (s : Registry) : Lib.CountedSet String := ⟨s.trusted, s.trustedNodeCount.toNat⟩

/-- No other string has the hash of this node. -/
def Collisionless (node : String) : Prop := ∀ m, hashNode m = hashNode node → m = node

theorem counted_added {node : String} (hu : Collisionless node)
    (hlt : s.trustedNodeCount.toNat + 1 < 2 ^ 256) :
    (s.added node).counted = s.counted.insert node := by
  have helems : (s.added node).trusted = insert node s.trusted := by
    ext m
    refine isTrustedNode_added.trans (or_congr_left ⟨hu m, ?_⟩)
    rintro rfl
    rfl
  rw [counted, helems, added_count hlt]
  rfl

theorem counted_removed {node : String} (hu : Collisionless node)
    (hpos : 0 < s.trustedNodeCount.toNat) :
    (s.removed node).counted = s.counted.erase node := by
  have helems : (s.removed node).trusted = s.trusted \ {node} := by
    ext m
    rw [Set.mem_sdiff, Set.mem_singleton_iff]
    refine isTrustedNode_removed.trans (and_comm.trans (and_congr_right fun _ => not_congr ?_))
    exact ⟨hu m, congrArg hashNode⟩
  rw [counted, helems, removed_count hpos]
  rfl

theorem counted_foldl_added {nodes : List String} (hu : ∀ node ∈ nodes, Collisionless node)
    (h : s.Addable nodes) : (nodes.foldl added s).counted = nodes.foldl .insert s.counted := by
  induction nodes generalizing s with
  | nil => rfl
  | cons node nodes ih =>
      obtain ⟨_, hlt, hrest⟩ := addable_cons_iff.mp h
      obtain ⟨hnode, hnodes⟩ := List.forall_mem_cons.mp hu
      rw [List.foldl_cons, ih hnodes hrest, counted_added hnode hlt, List.foldl_cons]

theorem counted_foldl_removed {nodes : List String} (hu : ∀ node ∈ nodes, Collisionless node)
    (h : nodes.length ≤ s.trustedNodeCount.toNat) :
    (nodes.foldl removed s).counted = nodes.foldl .erase s.counted := by
  induction nodes generalizing s with
  | nil => rfl
  | cons node nodes ih =>
      rw [List.length_cons] at h
      have hpos : 0 < s.trustedNodeCount.toNat := by omega
      have hrest : nodes.length ≤ (s.removed node).trustedNodeCount.toNat := by
        rw [removed_count hpos]
        omega
      obtain ⟨hnode, hnodes⟩ := List.forall_mem_cons.mp hu
      rw [List.foldl_cons, ih hnodes hrest, counted_removed hnode hpos, List.foldl_cons]

theorem new_of_addable {nodes : List String} (h : s.Addable nodes) : s.counted.New nodes := by
  refine ⟨h.distinct.of_map, fun node hnode htrusted => ?_⟩
  have hfalse := h.untrusted node hnode
  rw [show s.isTrustedNode node = true from htrusted] at hfalse
  cases hfalse

/-- The nodes a call names. -/
def Call.nodes : Call → List String
  | .initializeWith trustedNodes _ => trustedNodes
  | .addTrustedNode node => [node]
  | .addTrustedNodeBatch nodes => nodes
  | .removeTrustedNode node => [node]
  | .removeTrustedNodeBatch nodes => nodes
  | .transferOwnership _ => []

omit [Keccak] in
theorem Call.nodes_of_adds {call : Call} {nodes : List String} (h : call.adds = some nodes) :
    call.nodes = nodes := by
  cases call <;> first | exact Option.some.inj h | exact nomatch h

omit [Keccak] in
theorem Call.nodes_of_removes {call : Call} {nodes : List String}
    (h : call.removes = some nodes) : call.nodes = nodes := by
  cases call <;> first | exact Option.some.inj h | exact nomatch h

/-- The counter says how many nodes are trusted, and lets the owner remove each of them. -/
structure CountsTrusted (s : Registry) : Prop where
  exact : s.trusted.encard = s.trustedNodeCount.toNat
  removable : ∀ node, s.isTrustedNode node = true →
    ∃ s', s.removeTrustedNode s.owner node = .ok s'

theorem countsTrusted_iff : s.CountsTrusted ↔ s.counted.Exact := by
  refine ⟨CountsTrusted.exact, fun h => ⟨h, fun node hnode => ?_⟩⟩
  refine ⟨_, removeTrustedNode_eq_ok_iff.mpr ⟨rfl, ?_, rfl⟩⟩
  -- a trusted node is one that the counter has counted
  have hne : s.trusted.encard ≠ 0 := Set.encard_ne_zero.mpr ⟨node, hnode⟩
  have heq : s.trusted.encard = s.trustedNodeCount.toNat := h
  rw [heq] at hne
  exact Nat.pos_of_ne_zero fun hzero => hne (by rw [hzero]; rfl)

/-- If the transaction removes nodes and does not revert, they are trusted, and different. -/
def RemovesTrusted (s : Registry) (tx : Transaction) : Prop :=
  ∀ nodes, tx.call.removes = some nodes → tx.sender = s.owner →
    nodes.length ≤ s.trustedNodeCount.toNat →
      nodes.Nodup ∧ ∀ node ∈ nodes, s.isTrustedNode node = true

/-- A transaction that does not remove anything keeps the counter as far off as it is. -/
theorem counted_of_not_removed {tx : Transaction} (hu : ∀ node ∈ tx.call.nodes, Collisionless node)
    (hb : s.counted.Behind)
    (hno : ∀ nodes, tx.call.removes = some nodes → tx.sender = s.owner →
      ¬ nodes.length ≤ s.trustedNodeCount.toNat) :
    (s.transact tx).counted.Behind ∧ ((s.transact tx).counted.Exact ↔ s.counted.Exact) := by
  rcases transact_cases s tx with hsame | hexec
  · rw [hsame]
    exact ⟨hb, Iff.rfl⟩
  · generalize s.transact tx = s' at hexec
    cases hexec with
    | @initialized sender nodes owner hzero hadd =>
        have hnew := new_of_addable hadd
        have hcounted : ((nodes.foldl added s).initOwner owner).counted
            = nodes.foldl .insert s.counted := counted_foldl_added hu hadd
        rw [hcounted]
        exact ⟨Lib.CountedSet.behind_foldl_insert hnew hb,
          Lib.CountedSet.exact_foldl_insert_iff hnew⟩
    | added hcall hadd =>
        have hnew := new_of_addable hadd
        rw [Call.nodes_of_adds hcall] at hu
        rw [counted_foldl_added hu hadd]
        exact ⟨Lib.CountedSet.behind_foldl_insert hnew hb,
          Lib.CountedSet.exact_foldl_insert_iff hnew⟩
    | removed hcall hlen => exact absurd hlen (hno _ hcall rfl)
    | transferred newOwner => exact ⟨hb, Iff.rfl⟩

theorem counted_of_removed {tx : Transaction} {nodes : List String}
    (hu : ∀ node ∈ tx.call.nodes, Collisionless node) (hcall : tx.call.removes = some nodes)
    (howner : tx.sender = s.owner) (hlen : nodes.length ≤ s.trustedNodeCount.toNat) :
    (s.transact tx).counted = nodes.foldl .erase s.counted := by
  obtain ⟨sender, call⟩ := tx
  obtain rfl : sender = s.owner := howner
  rw [Call.nodes_of_removes hcall] at hu
  rw [transact_of_executed (.removed hcall hlen), counted_foldl_removed hu hlen]

/-- The counter never runs ahead. -/
theorem behind_transact {tx : Transaction} (hu : ∀ node ∈ tx.call.nodes, Collisionless node)
    (hb : s.counted.Behind) : (s.transact tx).counted.Behind := by
  by_cases hrem : ∃ nodes, tx.call.removes = some nodes ∧ tx.sender = s.owner
      ∧ nodes.length ≤ s.trustedNodeCount.toNat
  · obtain ⟨nodes, hcall, howner, hlen⟩ := hrem
    rw [counted_of_removed hu hcall howner hlen]
    exact Lib.CountedSet.behind_foldl_erase hlen hb
  · exact (counted_of_not_removed hu hb fun nodes hcall howner hlen =>
      hrem ⟨nodes, hcall, howner, hlen⟩).1

/-- **A transaction keeps the counter right exactly when it removes nothing untrusted.** -/
theorem countsTrusted_transact_iff {tx : Transaction}
    (hu : ∀ node ∈ tx.call.nodes, Collisionless node) (hb : s.counted.Behind)
    (h : s.CountsTrusted) : (s.transact tx).CountsTrusted ↔ s.RemovesTrusted tx := by
  have hexact := countsTrusted_iff.mp h
  rw [countsTrusted_iff]
  by_cases hrem : ∃ nodes, tx.call.removes = some nodes ∧ tx.sender = s.owner
      ∧ nodes.length ≤ s.trustedNodeCount.toNat
  · obtain ⟨nodes, hcall, howner, hlen⟩ := hrem
    rw [counted_of_removed hu hcall howner hlen, Lib.CountedSet.exact_foldl_erase_iff hlen hb]
    refine ⟨fun h' nodes' hcall' _ _ => ?_, fun h' => ⟨hexact, h' nodes hcall howner hlen⟩⟩
    obtain rfl := Option.some.inj (hcall.symm.trans hcall')
    exact h'.2
  · have hkept := (counted_of_not_removed hu hb fun nodes hcall howner hlen =>
      hrem ⟨nodes, hcall, howner, hlen⟩).2
    refine ⟨fun _ nodes hcall howner hlen => ?_, fun _ => hkept.mpr hexact⟩
    exact absurd ⟨nodes, hcall, howner, hlen⟩ hrem

theorem counted_new : ({} : Registry).counted.Exact := by
  have hempty : ({} : Registry).trusted = ∅ := by
    ext node
    exact ⟨fun h => (nomatch h), fun h => (nomatch h)⟩
  show ({} : Registry).trusted.encard = ((0 : U256).toNat : ℕ∞)
  rw [hempty, Set.encard_empty]
  rfl

/--
**Exactly when the registry can count.** For every sequence of calls, in which no two strings
are confused by their hashes, the counter is right in every state exactly when no call
removes a node that is not trusted.
-/
theorem counts_trusted_iff (txs : List Transaction)
    (hunique : ∀ tx ∈ txs, ∀ node ∈ tx.call.nodes, Collisionless node) :
    Lib.Always transact {} CountsTrusted txs ↔ Lib.EveryStep transact {} RemovesTrusted txs := by
  refine Lib.always_iff_everyStep_of (I := fun s => s.counted.Behind)
    (D := fun _ tx => ∀ node ∈ tx.call.nodes, Collisionless node)
    (fun s tx hb hu => behind_transact hu hb)
    (fun s tx hb h hu => countsTrusted_transact_iff hu hb h)
    counted_new.behind (countsTrusted_iff.mpr counted_new) ?_
  intro done tx hdone
  exact hunique tx (hdone.subset (List.mem_append_right done List.mem_cons_self))

end Calls

/-! ## Two short histories -/

section Example

attribute [local instance] Sample.keccak

/-- Deployed with one node, by the account that is to be the owner. -/
def deployment : Transaction := ⟨1, .initializeWith ["/node/1"] 1⟩

/-- The owner removes the last node, and a stranger initializes the registry. -/
def takeover : List Transaction := [deployment, ⟨1, .removeTrustedNode "/node/1"⟩,
  ⟨66, .initializeWith ["/node/2"] 66⟩]

/-- **The stranger is the owner now, and has chosen who is trusted.** -/
theorem taken_over : ¬ Lib.EveryStep Deployed.transact {} Ruled takeover := by
  intro h
  obtain ⟨howner, _⟩ := h [deployment, ⟨1, .removeTrustedNode "/node/1"⟩]
    ⟨66, .initializeWith ["/node/2"] 66⟩ List.prefix_rfl
  obtain ⟨_, _, hcall⟩ := howner (by decide +kernel) (by decide +kernel)
  cases hcall

theorem collisionless_sample : ∀ node ∈ ["/node/1", "/node/2"], Collisionless node := by
  have hdef : ∀ m, hashNode m
      = if m = "/node/1" then (1 : B256) else if m = "/node/2" then 2 else 0 := fun _ => rfl
  have h1 : hashNode "/node/1" = 1 := by decide
  have h2 : hashNode "/node/2" = 2 := by decide
  intro node hnode m hm
  simp only [List.mem_cons, List.not_mem_nil, or_false] at hnode
  by_contra hne
  rcases hnode with rfl | rfl
  · rw [h1, hdef m, if_neg hne] at hm
    split at hm <;> exact absurd hm (by decide)
  · rw [h2, hdef m, if_neg hne] at hm
    split at hm <;> exact absurd hm (by decide)

/-- The owner removes a node that was never added. -/
def miscount : List Transaction := [deployment, ⟨1, .removeTrustedNode "/node/2"⟩]

/-- **The counter is at zero, and the node that is trusted cannot be removed.** -/
theorem miscounted : (∀ tx ∈ miscount, ∀ node ∈ tx.call.nodes, Collisionless node)
    ∧ ¬ Lib.Always transact {} CountsTrusted miscount := by
  have hnames : ∀ tx ∈ miscount, ∀ node ∈ tx.call.nodes, node ∈ ["/node/1", "/node/2"] := by
    decide
  refine ⟨fun tx htx node hnode => collisionless_sample node (hnames tx htx node hnode), ?_⟩
  intro h
  obtain ⟨s', hs'⟩ := (h miscount List.prefix_rfl).removable "/node/1" (by decide +kernel)
  have hpos := (removeTrustedNode_eq_ok_iff.mp hs').2.1
  exact absurd hpos (by decide +kernel)

/-- A node is added, and removed again. -/
def addedAndRemoved : List Transaction := [deployment, ⟨1, .addTrustedNode "/node/2"⟩,
  ⟨1, .removeTrustedNode "/node/2"⟩]

theorem added_and_removed_counted : Lib.Always transact {} CountsTrusted addedAndRemoved := by
  have hnames : ∀ tx ∈ addedAndRemoved, ∀ node ∈ tx.call.nodes,
      node ∈ ["/node/1", "/node/2"] := by decide
  refine (counts_trusted_iff addedAndRemoved fun tx htx node hnode =>
    collisionless_sample node (hnames tx htx node hnode)).mpr ?_
  -- only the last transaction removes a node, and by then it is trusted
  simp only [addedAndRemoved, Lib.everyStep_cons_iff, Lib.everyStep_nil, and_true]
  refine ⟨fun nodes hnodes => by (cases hnodes), fun nodes hnodes => by (cases hnodes),
    fun nodes hnodes _ _ => ?_⟩
  cases hnodes
  exact ⟨by decide, by decide +kernel⟩

end Example

end Mintpool.Registry
