import Mintpool.Proof.TreeHash

/-!
# Whether an empty answer means the same paths

The usual argument for a Merkle tree goes from equal hashes to equal inputs, since nothing
fed to the hasher collided, and from equal inputs to equal children, since the inputs can be
taken apart. The second half is where this tree falls short. Under one value the input does
say how many children there were and what `U64Buffer` kept of each hash; but that is half of
the hash, and the hash of a child does not say where the child's own children end and its
value begins. So different children may be fed as the same bytes.

That this happens nowhere is exactly what an empty answer is worth.
-/

namespace Mintpool

open Lib

section

variable {T : Type} [Xxh3] [AsRef T]

/-! ## What is fed to hashers -/

/-- The digest tells these inputs apart. -/
def NoCollision (inputs : List (List UInt8)) : Prop :=
  ∀ x ∈ inputs, ∀ y ∈ inputs, Xxh3.digest x = Xxh3.digest y → x = y

namespace Node

mutual

/-- The inputs of the hashers that `rehash` creates, in order. -/
def fed (n : Node T) : List (List UInt8) :=
  match n with
  | ⟨value, level, hash, manualHash, children, dirty⟩ =>
    fedAll children ++ (if manualHash.isNone && dirty then
      [hashInput ⟨value, level, hash, manualHash, rehashAll children, dirty⟩] else [])

def fedAll (children : List (Node T)) : List (List UInt8) :=
  match children with
  | [] => []
  | child :: children => child.fed ++ fedAll children

end

theorem fedAll_eq (children : List (Node T)) : fedAll children = children.flatMap fed := by
  induction children with
  | nil => rw [fedAll, List.flatMap_nil]
  | cons c children ih => rw [fedAll, ih, List.flatMap_cons]

theorem hashInput_rehash (n : Node T) :
    n.rehash.hashInput = hashInput { n with children := n.children.map rehash } := by
  rw [hashInput, hashInput, rehash_children, rehash_value]

theorem fed_eq (n : Node T) :
    n.fed = n.children.flatMap fed
      ++ (if n.manualHash.isNone && n.dirty then [n.rehash.hashInput] else []) := by
  rw [hashInput_rehash]
  cases n
  rw [fed, fedAll_eq, rehashAll_eq_map]

/-- A node that has not been hashed yet. -/
structure Pending (n : Node T) : Prop where
  noManual : n.manualHash = none
  dirty : n.dirty = true

variable [LinearOrder T]

/-- In a tree without a hash, `rehash` feeds the input of every node. -/
theorem hashInput_mem_fed {path : List T} :
    ∀ {n x : Node T}, All Pending n → n.rehash.node? path = some x → x.hashInput ∈ n.fed := by
  induction path with
  | nil =>
      -- the node itself is fed when it is hashed
      intro n x h hx
      cases hx
      rw [fed_eq]
      simp [h.self.noManual, h.self.dirty]
  | cons value path ih =>
      -- a node below is fed when its child on the way is
      intro n x h hx
      rw [node?_cons, child?_rehash] at hx
      obtain ⟨c', hc', hx⟩ := Option.bind_eq_some_iff.mp hx
      obtain ⟨c, hc, rfl⟩ := Option.map_eq_some_iff.mp hc'
      obtain ⟨hcm, _⟩ := child?_some hc
      rw [fed_eq]
      exact List.mem_append_left _ (List.mem_flatMap.mpr ⟨c, hcm, ih (h.child hcm) hx⟩)

theorem pending_childOrNew {n : Node T} (h : All Pending n) (value : T) :
    All Pending (n.childOrNew value false) := by
  unfold childOrNew
  cases hc : n.child? value with
  | some c => exact h.child (child?_some hc).1
  | none => exact .node ⟨rfl, rfl⟩ fun _ hc => nomatch hc

theorem pending_insert {value : T} :
    ∀ {path : List T} {n : Node T}, All Pending n → WellFormed n →
      All Pending (n.insert path value none false) := by
  intro path
  induction path with
  | nil =>
      intro n h hw
      rw [insert_nil]
      refine All.touch h hw.self.sorted (fun c _ => place_value c value none false)
        ⟨h.self.noManual, rfl⟩ ?_
      rw [place_none false (childOrNew_value n value false)]
      exact pending_childOrNew h value
  | cons head tail ih =>
      intro n h hw
      rw [insert_cons]
      exact All.touch h hw.self.sorted (fun c hc => by rw [insert_value, hc])
        ⟨h.self.noManual, rfl⟩ (ih (pending_childOrNew h head) (hw.childOrNew head false).1)

/-! ## Taking an input apart -/

omit [Xxh3] [AsRef T] [LinearOrder T] in
/-- Pieces of one width can be read off their concatenation. -/
theorem map_eq_of_flatMap_eq {α β : Type} {f : α → List β} {w : Nat} (hw : 0 < w)
    (hf : ∀ x, (f x).length = w) :
    ∀ {xs ys : List α}, xs.flatMap f = ys.flatMap f → xs.map f = ys.map f := by
  -- no element leaves the bytes as they are, so the lists are of one length
  have hne : ∀ x l, f x ++ l ≠ [] := by
    intro x l h
    have hx := hf x
    rw [(List.append_eq_nil_iff.mp h).1] at hx
    simp only [List.length_nil] at hx
    omega
  intro xs
  induction xs with
  | nil =>
      intro ys h
      cases ys with
      | nil => rfl
      | cons y ys => rw [List.flatMap_cons] at h; exact absurd h.symm (hne y _)
  | cons x xs ih =>
      intro ys h
      cases ys with
      | nil => rw [List.flatMap_cons] at h; exact absurd h (hne x _)
      | cons y ys =>
          rw [List.flatMap_cons, List.flatMap_cons] at h
          -- the width says where the bytes of the first element end
          obtain ⟨hxy, hrest⟩ := List.append_inj h ((hf x).trans (hf y).symm)
          rw [List.map_cons, List.map_cons, hxy, ih hrest]

/-- What the hasher is told of a child. -/
def kept (n : Node T) : List UInt8 := U64Buffer.update n.hash

omit [Xxh3] [LinearOrder T] in
/-- Under one value, an input says what was kept of each child's hash, in order. -/
theorem kept_eq_of_hashInput_eq {x y : Node T} (hvalue : x.value = y.value)
    (h : x.hashInput = y.hashInput) : x.children.map kept = y.children.map kept := by
  rw [hashInput, hashInput, hvalue] at h
  exact map_eq_of_flatMap_eq (w := 4) (by decide) (fun _ => rfl) (List.append_cancel_right h)

/-! ## Clashes -/

/--
If the roots list the same children with the same hashes, then wherever both trees have a
node below, what is kept of the hashes of its children says which children they are.
-/
def Unclashed (n m : Node T) : Prop :=
  n.children.map label = m.children.map label →
    ∀ path x y, path ≠ [] → n.node? path = some x → m.node? path = some y →
      x.children.map kept = y.children.map kept → x.children.map label = y.children.map label

omit [Xxh3] [AsRef T] in
/-- Nodes whose children agree have the same paths if their children do. -/
theorem paths_eq_of_children {n m : Node T} (hn : WellFormed n) (hm : WellFormed m)
    (hlabel : n.children.map label = m.children.map label)
    (h : ∀ value x y, n.child? value = some x → m.child? value = some y → x.hash = y.hash →
      x.paths = y.paths) : n.paths = m.paths := by
  refine PathSet.ext fun path => ?_
  cases path with
  | nil => simp [nil_mem_paths]
  | cons value path =>
      rw [cons_mem_paths_iff, cons_mem_paths_iff]
      have hv := (map_label_eq_iff hn hm).mp hlabel value
      cases hx : n.child? value with
      | none =>
          cases hy : m.child? value with
          | none => simp
          | some y => rw [hx, hy] at hv; nomatch hv
      | some x =>
          cases hy : m.child? value with
          | none => rw [hx, hy] at hv; nomatch hv
          | some y =>
              rw [hx, hy] at hv
              have hxy : label x = label y := by cases hv with | some h => exact h
              simp [h value x y hx hy (congrArg Prod.snd hxy)]

/-- **Below the roots, equal hashes mean equal paths, as long as nothing clashes.** -/
theorem paths_eq_of_hash_eq {n m : Node T} (hn : WellFormed n) (hm : WellFormed m)
    (hns : Settled n) (hms : Settled m)
    (hcoll : ∀ path x y, n.node? path = some x → m.node? path = some y →
      Xxh3.digest x.hashInput = Xxh3.digest y.hashInput → x.hashInput = y.hashInput)
    (hclash : ∀ path x y, n.node? path = some x → m.node? path = some y →
      x.children.map kept = y.children.map kept → x.children.map label = y.children.map label)
    (hvalue : n.value = m.value) (hhash : n.hash = m.hash) : n.paths = m.paths := by
  -- by induction on the left tree, whose children have smaller ones
  induction n using Node.induct generalizing m with
  | h n ih =>
      -- equal hashes are hashes of equal bytes
      have hinput : n.hashInput = m.hashInput := by
        refine hcoll [] n m rfl rfl ?_
        rw [← hns.self.hash, ← hms.self.hash, hhash]
      -- and these fix the labels of the children, unless they clash
      have hlabel := hclash [] n m rfl rfl (kept_eq_of_hashInput_eq hvalue hinput)
      refine paths_eq_of_children hn hm hlabel fun value x y hx hy hxy => ?_
      obtain ⟨hxm, hxv⟩ := child?_some hx
      obtain ⟨hym, hyv⟩ := child?_some hy
      refine ih x hxm (hn.child hxm) (hm.child hym) (hns.child hxm) (hms.child hym) ?_ ?_
        (hxv.trans hyv.symm) hxy
      · intro path x' y' hx' hy'
        rw [← node?_of_child? hx] at hx'
        rw [← node?_of_child? hy] at hy'
        exact hcoll _ x' y' hx' hy'
      · intro path x' y' hx' hy'
        rw [← node?_of_child? hx] at hx'
        rw [← node?_of_child? hy] at hy'
        exact hclash _ x' y' hx' hy'

end Node

/-! ## Two trees -/

/-- The call is `insert`. -/
def TreeOp.isInsert : TreeOp T → Bool
  | insert .. => true
  | _ => false

omit [Xxh3] [AsRef T] in
theorem TreeOp.deferred_of_isInsert {op : TreeOp T} (h : op.isInsert) : op.deferred := by
  cases op <;> first | rfl | exact nomatch h

namespace TreeSet

variable [LinearOrder T] [Inhabited T]

theorem pending_build {ops : List (TreeOp T)} (h : ∀ op ∈ ops, op.isInsert) :
    (build ops).root.All Node.Pending := by
  have hboth : (build ops).root.All Node.Pending ∧ (build ops).root.WellFormed := by
    refine @foldl_invariant _ _ apply (fun t => t.root.All Node.Pending ∧ t.root.WellFormed) ops
      new (fun t op hop ht => ⟨?_, wellFormed_apply op ht.2⟩) ⟨?_, wellFormed_new⟩
    · cases op with
      | insert path value => exact Node.pending_insert ht.1 ht.2
      | _ => exact nomatch h _ hop
    · exact .node ⟨rfl, rfl⟩ fun _ hc => nomatch hc
  exact hboth.1

theorem settled_build_of_isInsert {ops : List (TreeOp T)} (h : ∀ op ∈ ops, op.isInsert) :
    (build ops).rehash.root.Settled :=
  settled_build
    (fun op hop => TreeOp.plain_of_deferred (TreeOp.deferred_of_isInsert (h op hop)))
    (everyStep_of_deferred fun op hop => TreeOp.deferred_of_isInsert (h op hop))

/--
**What an empty answer is worth.** For two trees that are inserted and then hashed, with no
collision among the inputs of the two, an empty answer means the same paths exactly when
nothing clashes in them.
-/
theorem same_paths_iff_unclashed {ops ops' : List (TreeOp T)} (h : ∀ op ∈ ops, op.isInsert)
    (h' : ∀ op ∈ ops', op.isInsert)
    (hcoll : NoCollision ((build ops).root.fed ++ (build ops').root.fed)) :
    ((build ops).rehash.diff (build ops').rehash = [] →
        (build ops).rehash.root.paths = (build ops').rehash.root.paths)
      ↔ (build ops).rehash.root.Unclashed (build ops').rehash.root := by
  have hn : (build ops).rehash.root.WellFormed := Node.wellFormed_rehash (wellFormed_build ops)
  have hm : (build ops').rehash.root.WellFormed := Node.wellFormed_rehash (wellFormed_build ops')
  have hns := settled_build_of_isInsert h
  have hms := settled_build_of_isInsert h'
  constructor
  · intro hsame hlabel
    -- equal paths make the two trees one, and then there is nothing to tell apart
    have hpaths := hsame ((Node.diff_eq_nil_iff hn hm).mpr hlabel)
    have heq : (build ops).rehash.root = (build ops').rehash.root := by
      refine hns.eq_of_paths hms hn hm ?_ ?_ hpaths
      · simp only [rehash, Node.rehash_value, root_value_build]
      · simp only [rehash, Node.rehash_level, root_level_build]
    intro path x y _ hx hy _
    rw [heq, hy] at hx
    cases hx
    rfl
  · intro hclash hdiff
    have hlabel := (Node.diff_eq_nil_iff hn hm).mp hdiff
    refine Node.paths_eq_of_children hn hm hlabel fun value x y hx hy hxy => ?_
    obtain ⟨hxm, hxv⟩ := Node.child?_some hx
    obtain ⟨hym, hyv⟩ := Node.child?_some hy
    refine Node.paths_eq_of_hash_eq (hn.child hxm) (hm.child hym) (hns.child hxm) (hms.child hym)
      ?_ ?_ (hxv.trans hyv.symm) hxy
    · intro path x' y' hx' hy'
      rw [← Node.node?_of_child? hx] at hx'
      rw [← Node.node?_of_child? hy] at hy'
      exact hcoll _ (List.mem_append_left _ (Node.hashInput_mem_fed (pending_build h) hx'))
        _ (List.mem_append_right _ (Node.hashInput_mem_fed (pending_build h') hy'))
    · intro path x' y' hx' hy'
      rw [← Node.node?_of_child? hx] at hx'
      rw [← Node.node?_of_child? hy] at hy'
      exact hclash hlabel _ x' y' (List.cons_ne_nil value path) hx' hy'

end TreeSet

end

/-! ## Examples -/

section Examples

open Sample TreeSet

attribute [local instance] Sample.asRefBytes

/-- One leaf below one node. -/
def oneLeaf (value leaf : Bytes) : List (TreeOp Bytes) := [.insert [value] leaf]

section Upper

attribute [local instance] Sample.xxh3Upper

/-- Digests that differ in their upper halves only: the trees differ and the answer is empty. -/
theorem difference_hidden :
    (∀ op ∈ oneLeaf [1] [2], op.isInsert) ∧ (∀ op ∈ oneLeaf [1] [3], op.isInsert)
    ∧ NoCollision ((build (oneLeaf [1] [2])).root.fed ++ (build (oneLeaf [1] [3])).root.fed)
    ∧ (build (oneLeaf [1] [2])).rehash.diff (build (oneLeaf [1] [3])).rehash = []
    ∧ (build (oneLeaf [1] [2])).rehash.root.paths
      ≠ (build (oneLeaf [1] [3])).rehash.root.paths := by
  refine ⟨by decide, by decide, by unfold NoCollision; decide +kernel, by decide +kernel, ?_⟩
  intro h
  have hleft : [[1], [2]] ∈ (build (oneLeaf [1] [2])).rehash.root.paths := by
    show (Node.node? _ _).isSome = true
    decide +kernel
  have hright : [[1], [2]] ∉ (build (oneLeaf [1] [3])).rehash.root.paths := by
    show ¬ (Node.node? _ _).isSome = true
    decide +kernel
  exact hright (h ▸ hleft)

end Upper

section Lower

attribute [local instance] Sample.xxh3

/-- Digests that differ in their lower halves: the answer shows the difference. -/
theorem difference_shown :
    (build (oneLeaf [1] [2])).rehash.diff (build (oneLeaf [1] [3])).rehash ≠ [] := by
  intro hnone
  have hunclashed :
      (build (oneLeaf [1] [2])).rehash.root.Unclashed (build (oneLeaf [1] [3])).rehash.root :=
    fun hlabel => absurd hlabel (by decide +kernel)
  have hpaths := (same_paths_iff_unclashed (by decide) (by decide)
    (by unfold NoCollision; decide +kernel)).mpr hunclashed hnone
  have hleft : [[1], [2]] ∈ (build (oneLeaf [1] [2])).rehash.root.paths := by
    show (Node.node? _ _).isSome = true
    decide +kernel
  have hright : [[1], [2]] ∉ (build (oneLeaf [1] [3])).rehash.root.paths := by
    show ¬ (Node.node? _ _).isSome = true
    decide +kernel
  exact hright (hpaths ▸ hleft)

end Lower

end Examples

end Mintpool
