import Mintpool.Lib.Paths
import Mintpool.Lib.Run
import Mintpool.Sync

/-!
# The shape of a tree

Every insertion is one pattern at each node it passes: mark the node dirty, find or create
the child under one value, do something to that child, and, when updating, hash. Stating
the pattern once (`touch`) makes the four insertions four instances of it, and turns each
fact about their shape into an induction over the path.

The facts are three. Children are sorted by value and one level down. A node is found by
following values. And the paths of a tree are the prefixes of what was inserted.
-/

namespace Mintpool

open Lib

variable {T : Type}

namespace Node

/-- What holds of a node if it holds of one whose children it holds of, holds of every node. -/
theorem induct {P : Node T → Prop} (h : ∀ n : Node T, (∀ c ∈ n.children, P c) → P n)
    (n : Node T) : P n :=
  h n fun c _ => induct h c
termination_by sizeOf n
decreasing_by
  rename_i hc
  have hlt := List.sizeOf_lt_of_mem hc
  cases n
  simp only [Node.mk.sizeOf_spec] at hlt ⊢
  omega

/-- `P` holds of a node and of every node below it. -/
inductive All (P : Node T → Prop) : Node T → Prop where
  | node {n : Node T} : P n → (∀ c ∈ n.children, All P c) → All P n

namespace All

variable {P Q : Node T → Prop} {n c : Node T}

theorem self (h : All P n) : P n := by cases h; assumption

theorem child (h : All P n) (hc : c ∈ n.children) : All P c := by
  cases h with
  | node _ hcs => exact hcs c hc

theorem imp (h : All P n) (hPQ : ∀ n, P n → Q n) : All Q n := by
  induction h with
  | @node n hn _ ih => exact .node (hPQ n hn) ih

end All

/-! ## Following a path -/

section Paths

variable [LinearOrder T]

/-- The child with a value. -/
def child? (n : Node T) (value : T) : Option (Node T) := lookupBy Node.value value n.children

/-- The node at a path below `n`. -/
def node? (n : Node T) : List T → Option (Node T)
  | [] => some n
  | value :: path => (n.child? value).bind fun c => c.node? path

theorem node?_cons (n : Node T) (value : T) (path : List T) :
    n.node? (value :: path) = (n.child? value).bind fun c => c.node? path := rfl

theorem child?_some {n c : Node T} {value : T} (h : n.child? value = some c) :
    c ∈ n.children ∧ c.value = value := lookupBy_some h

/-- A path goes on below its first child. -/
theorem node?_of_child? {n c : Node T} {value : T} (h : n.child? value = some c)
    (path : List T) : n.node? (value :: path) = c.node? path := by
  rw [node?_cons, h, Option.bind_some]

/-- The paths that lead to a node. -/
def paths (n : Node T) : PathSet T where
  carrier := {path | (n.node? path).isSome}
  closed := by
    intro p
    induction p generalizing n with
    | nil => intro q _ hq; rw [List.prefix_nil.mp hq]; rfl
    | cons value p ih =>
        intro q hp hq
        cases q with
        | nil => rfl
        | cons value' q =>
            obtain ⟨rfl, hqp⟩ := List.cons_prefix_cons.mp hq
            obtain ⟨m, hm⟩ := Option.isSome_iff_exists.mp hp
            obtain ⟨c, hc, hm⟩ := Option.bind_eq_some_iff.mp hm
            have hq' := ih c (Option.isSome_iff_exists.mpr ⟨m, hm⟩) hqp
            show ((n.child? value').bind fun c => c.node? q).isSome
            rw [hc]
            exact hq'

theorem mem_paths_iff {n : Node T} {path : List T} :
    path ∈ n.paths ↔ ∃ m, n.node? path = some m := Option.isSome_iff_exists

theorem nil_mem_paths (n : Node T) : [] ∈ n.paths := mem_paths_iff.mpr ⟨n, rfl⟩

theorem cons_mem_paths_iff {n : Node T} {value : T} {path : List T} :
    value :: path ∈ n.paths ↔ ∃ c, n.child? value = some c ∧ path ∈ c.paths := by
  simp only [mem_paths_iff, node?_cons, Option.bind_eq_some_iff]
  exact ⟨fun ⟨m, c, hc, hm⟩ => ⟨c, hc, m, hm⟩, fun ⟨c, hc, m, hm⟩ => ⟨m, c, hc, hm⟩⟩

theorem below_paths {n c : Node T} {value : T} (h : n.child? value = some c) :
    n.paths.below value = c.paths := by
  refine PathSet.ext fun path => ?_
  rw [PathSet.mem_below_iff, cons_mem_paths_iff]
  constructor
  · rintro ⟨c', hc', hp⟩
    rw [h] at hc'
    cases hc'
    exact hp
  · intro hp; exact ⟨c, h, hp⟩

/-! ## Well-formed trees -/

/-- Children strictly increase by value and are one level below their parent. -/
structure Shaped (n : Node T) : Prop where
  sorted : SortedBy Node.value n.children
  level : ∀ c ∈ n.children, c.level = n.level + 1

/-- Every node of the tree is shaped so. -/
abbrev WellFormed (n : Node T) : Prop := All Shaped n

theorem WellFormed.child?_self {n c : Node T} (h : WellFormed n) (hc : c ∈ n.children) :
    n.child? c.value = some c := h.self.sorted.lookupBy_self hc

end Paths

/-! ## Hashing changes no shape -/

section Hash

variable [Xxh3] [AsRef T]

@[simp] theorem updateHash_value (n : Node T) : n.updateHash.value = n.value := by
  unfold updateHash; split <;> [rfl; split <;> rfl]

@[simp] theorem updateHash_level (n : Node T) : n.updateHash.level = n.level := by
  unfold updateHash; split <;> [rfl; split <;> rfl]

@[simp] theorem updateHash_children (n : Node T) : n.updateHash.children = n.children := by
  unfold updateHash; split <;> [rfl; split <;> rfl]

@[simp] theorem updateHash_manualHash (n : Node T) : n.updateHash.manualHash = n.manualHash := by
  unfold updateHash; split <;> [rfl; split <;> rfl]

theorem rehashAll_eq_map (children : List (Node T)) :
    rehashAll children = children.map rehash := by
  induction children with
  | nil => rw [rehashAll, List.map_nil]
  | cons c children ih => rw [rehashAll, ih, List.map_cons]

theorem rehash_eq (n : Node T) :
    n.rehash = updateHash { n with children := n.children.map rehash } := by
  cases n
  rw [rehash, rehashAll_eq_map]

@[simp] theorem rehash_value (n : Node T) : n.rehash.value = n.value := by
  rw [rehash_eq, updateHash_value]

@[simp] theorem rehash_level (n : Node T) : n.rehash.level = n.level := by
  rw [rehash_eq, updateHash_level]

@[simp] theorem rehash_children (n : Node T) : n.rehash.children = n.children.map rehash := by
  rw [rehash_eq, updateHash_children]

variable [LinearOrder T]

omit [Xxh3] [AsRef T] in
theorem lookupBy_map {f : Node T → Node T} (hf : ∀ n, (f n).value = n.value) (value : T)
    (children : List (Node T)) :
    lookupBy Node.value value (children.map f) = (lookupBy Node.value value children).map f := by
  induction children with
  | nil => rfl
  | cons c children ih =>
      simp only [List.map_cons, lookupBy_cons, hf, ih]
      split <;> rfl

theorem child?_rehash (n : Node T) (value : T) :
    n.rehash.child? value = (n.child? value).map rehash := by
  rw [child?, rehash_children, lookupBy_map rehash_value, child?]

theorem node?_rehash (path : List T) :
    ∀ n : Node T, n.rehash.node? path = (n.node? path).map rehash := by
  induction path with
  | nil => intro n; rfl
  | cons value path ih =>
      intro n
      rw [node?_cons, node?_cons, child?_rehash]
      cases n.child? value with
      | none => rfl
      | some c => exact ih c

@[simp] theorem paths_rehash (n : Node T) : n.rehash.paths = n.paths := by
  refine PathSet.ext fun path => ?_
  simp [mem_paths_iff, node?_rehash]

theorem wellFormed_rehash {n : Node T} (h : WellFormed n) : WellFormed n.rehash := by
  induction h with
  | @node n hn _ ih =>
      have hmem : ∀ c ∈ n.rehash.children, ∃ c' ∈ n.children, c'.rehash = c := by
        intro c hc
        rw [rehash_children] at hc
        exact List.mem_map.mp hc
      refine .node ⟨?_, fun c hc => ?_⟩ fun c hc => ?_
      · rw [rehash_children, SortedBy, List.pairwise_map]
        simp only [rehash_value]
        exact hn.sorted
      · obtain ⟨c', hc', rfl⟩ := hmem c hc
        rw [rehash_level, rehash_level, hn.level c' hc']
      · obtain ⟨c', hc', rfl⟩ := hmem c hc
        exact ih c' hc'

end Hash

/-! ## One node of an insertion -/

section Insert

variable [Xxh3] [AsRef T] [LinearOrder T]

def finish (update : Bool) (n : Node T) : Node T := if update then n.updateHash else n

/-- The child that `getOrCreateChild` makes. -/
def newChild (n : Node T) (value : T) (update : Bool) : Node T :=
  finish update { value, level := n.level + 1 }

/-- What an insertion does to a node on its way: `f` is what it does to the child. -/
def touch (n : Node T) (value : T) (update : Bool) (f : Node T → Node T) : Node T :=
  finish update { n with
    dirty := true
    children := upsertBy Node.value value (n.newChild value update) f n.children }

/-- What an insertion does to the node it ends at. -/
def place (value : T) (hash : Option UInt64) (update : Bool) (n : Node T) : Node T :=
  match hash with
  | some hash => { n with value, hash, manualHash := some hash }
  | none => finish update { n with value }

/-- A child found or created, then changed in place, is an upsert among the children. -/
theorem getOrCreateChild_modify (n : Node T) (value : T) (update : Bool) (f : Node T → Node T) :
    { (n.getOrCreateChild value update).2 with
      children := (n.getOrCreateChild value update).2.children.modify
        (n.getOrCreateChild value update).1 f }
    = { n with children := upsertBy Node.value value (n.newChild value update) f n.children } := by
  unfold getOrCreateChild
  split
  · rename_i i h; rw [upsertBy_of_ok h]
  · rename_i i h; rw [upsertBy_of_error h]; rfl

theorem insert_nil (n : Node T) (value : T) (hash : Option UInt64) (update : Bool) :
    n.insert [] value hash update = n.touch value update (place value hash update) :=
  congrArg (finish update) (getOrCreateChild_modify { n with dirty := true } value update _)

theorem insert_cons (n : Node T) (head : T) (tail : List T) (value : T) (hash : Option UInt64)
    (update : Bool) :
    n.insert (head :: tail) value hash update
      = n.touch head update fun c => c.insert tail value hash update :=
  congrArg (finish update) (getOrCreateChild_modify { n with dirty := true } head update _)

section Simp

variable (n : Node T) (k value : T) (hash : Option UInt64) (update : Bool) (f : Node T → Node T)

omit [LinearOrder T] in
@[simp] theorem finish_value : (finish update n).value = n.value := by
  unfold finish; split <;> simp

omit [LinearOrder T] in
@[simp] theorem finish_level : (finish update n).level = n.level := by
  unfold finish; split <;> simp

omit [LinearOrder T] in
@[simp] theorem finish_children : (finish update n).children = n.children := by
  unfold finish; split <;> simp

omit [LinearOrder T] in
@[simp] theorem finish_manualHash : (finish update n).manualHash = n.manualHash := by
  unfold finish; split <;> simp

omit [LinearOrder T] in
@[simp] theorem newChild_value : (n.newChild k update).value = k := finish_value _ _

omit [LinearOrder T] in
@[simp] theorem newChild_level : (n.newChild k update).level = n.level + 1 := finish_level _ _

omit [LinearOrder T] in
@[simp] theorem newChild_children : (n.newChild k update).children = [] := finish_children _ _

omit [LinearOrder T] in
@[simp] theorem place_value : (place value hash update n).value = value := by
  unfold place; split <;> simp

omit [LinearOrder T] in
@[simp] theorem place_level : (place value hash update n).level = n.level := by
  unfold place; split <;> simp

omit [LinearOrder T] in
@[simp] theorem place_children : (place value hash update n).children = n.children := by
  unfold place; split <;> simp

@[simp] theorem touch_value : (n.touch k update f).value = n.value := finish_value _ _

@[simp] theorem touch_level : (n.touch k update f).level = n.level := finish_level _ _

@[simp] theorem touch_children : (n.touch k update f).children
    = upsertBy Node.value k (n.newChild k update) f n.children := finish_children _ _

@[simp] theorem touch_manualHash : (n.touch k update f).manualHash = n.manualHash :=
  finish_manualHash _ _

@[simp] theorem insert_value (path : List T) :
    (n.insert path value hash update).value = n.value := by
  cases path with
  | nil => rw [insert_nil, touch_value]
  | cons head tail => rw [insert_cons, touch_value]

@[simp] theorem insert_level (path : List T) :
    (n.insert path value hash update).level = n.level := by
  cases path with
  | nil => rw [insert_nil, touch_level]
  | cons head tail => rw [insert_cons, touch_level]

end Simp

/-- The child that an insertion goes on with: the one there is, or a new one. -/
def childOrNew (n : Node T) (value : T) (update : Bool) : Node T :=
  (n.child? value).getD (n.newChild value update)

@[simp] theorem childOrNew_value (n : Node T) (value : T) (update : Bool) :
    (n.childOrNew value update).value = value := by
  unfold childOrNew
  cases h : n.child? value with
  | none => exact newChild_value n value update
  | some c => exact (child?_some h).2

/-- The new child is as if it had been there, without children. -/
theorem mem_paths_childOrNew {n : Node T} {value : T} {update : Bool} {path : List T} :
    path ∈ (n.childOrNew value update).paths ↔ path = [] ∨ value :: path ∈ n.paths := by
  rw [cons_mem_paths_iff, childOrNew]
  cases n.child? value with
  | none =>
      cases path with
      | nil => simp [nil_mem_paths]
      | cons k path => simp [cons_mem_paths_iff, child?]
  | some c =>
      constructor
      · intro h; exact .inr ⟨c, rfl, h⟩
      · rintro (rfl | ⟨c', hc', h⟩)
        · exact nil_mem_paths c
        · cases hc'; exact h

variable {f : Node T → Node T}

/-- **Touching a node changes the child under one value, and no other.** -/
theorem child?_touch {n : Node T} {k : T} {update : Bool} (hs : SortedBy Node.value n.children)
    (hf : ∀ c, c.value = k → (f c).value = k) (k' : T) :
    (n.touch k update f).child? k'
      = if k' = k then some (f (n.childOrNew k update)) else n.child? k' := by
  rw [child?, touch_children, lookupBy_upsertBy hf (newChild_value n k update) hs]
  rfl

/-- The children of a touched node: the child it is about, and old ones. -/
theorem mem_children_touch {n c : Node T} {k : T} {update : Bool}
    (hs : SortedBy Node.value n.children) (hf : ∀ c, c.value = k → (f c).value = k)
    (hc : c ∈ (n.touch k update f).children) :
    c = f (n.childOrNew k update) ∨ (c ∈ n.children ∧ c.value ≠ k) := by
  have hsorted : SortedBy Node.value (n.touch k update f).children := by
    rw [touch_children]; exact hs.upsertBy hf (newChild_value n k update)
  have hchild : (n.touch k update f).child? c.value = some c := hsorted.lookupBy_self hc
  rw [child?_touch hs hf] at hchild
  by_cases hk : c.value = k
  · rw [if_pos hk] at hchild; exact .inl (Option.some.inj hchild).symm
  · rw [if_neg hk] at hchild; exact .inr ⟨(child?_some hchild).1, hk⟩

theorem WellFormed.childOrNew {n : Node T} (h : WellFormed n) (k : T) (update : Bool) :
    WellFormed (n.childOrNew k update) ∧ (n.childOrNew k update).level = n.level + 1 := by
  unfold Node.childOrNew
  cases hc : n.child? k with
  | none =>
      refine ⟨.node ⟨?_, ?_⟩ ?_, newChild_level n k update⟩ <;> simp [SortedBy]
  | some c =>
      obtain ⟨hmem, _⟩ := child?_some hc
      exact ⟨h.child hmem, h.self.level c hmem⟩

/-- What holds of the touched node and below its child, and held below the others. -/
theorem All.touch {P : Node T → Prop} {n : Node T} {k : T} {update : Bool} (h : All P n)
    (hs : SortedBy Node.value n.children) (hf : ∀ c, c.value = k → (f c).value = k)
    (hself : P (n.touch k update f)) (hchild : All P (f (n.childOrNew k update))) :
    All P (n.touch k update f) := by
  refine .node hself fun c hc => ?_
  rcases mem_children_touch hs hf hc with rfl | ⟨hc, _⟩
  · exact hchild
  · exact h.child hc

theorem WellFormed.touch {n : Node T} {k : T} {update : Bool} (h : WellFormed n)
    (hf : ∀ c, c.value = k → (f c).value = k) (hlevel : ∀ c, (f c).level = c.level)
    (hwf : ∀ c, WellFormed c → WellFormed (f c)) : WellFormed (n.touch k update f) := by
  obtain ⟨hnew, hnewLevel⟩ := h.childOrNew k update
  refine All.touch h h.self.sorted hf ⟨?_, fun c hc => ?_⟩ (hwf _ hnew)
  · rw [touch_children]; exact h.self.sorted.upsertBy hf (newChild_value n k update)
  · rw [touch_level]
    rcases mem_children_touch h.self.sorted hf hc with rfl | ⟨hc, _⟩
    · rw [hlevel, hnewLevel]
    · exact h.self.level c hc

theorem wellFormed_place {n : Node T} (value : T) (hash : Option UInt64) (update : Bool)
    (h : WellFormed n) : WellFormed (place value hash update n) := by
  refine .node ⟨?_, ?_⟩ ?_
  · rw [place_children]; exact h.self.sorted
  · rw [place_children, place_level]; exact h.self.level
  · rw [place_children]; exact fun c hc => h.child hc

/-- **An insertion keeps the tree well formed.** -/
theorem WellFormed.insert {value : T} {hash : Option UInt64} {update : Bool} :
    ∀ {path : List T} {n : Node T}, WellFormed n →
      WellFormed (n.insert path value hash update) := by
  intro path
  induction path with
  | nil =>
      intro n h
      rw [insert_nil]
      exact h.touch (fun c _ => place_value c value hash update)
        (fun c => place_level c value hash update)
        (fun c hc => wellFormed_place value hash update hc)
  | cons head tail ih =>
      intro n h
      rw [insert_cons]
      exact h.touch (fun c hc => by rw [insert_value, hc]) (fun c => insert_level c _ _ _ _)
        (fun c hc => ih hc)

theorem cons_mem_paths_touch_iff {n : Node T} {k k' : T} {update : Bool} {path : List T}
    (hs : SortedBy Node.value n.children) (hf : ∀ c, c.value = k → (f c).value = k) :
    k' :: path ∈ (n.touch k update f).paths
      ↔ if k' = k then path ∈ (f (n.childOrNew k update)).paths else k' :: path ∈ n.paths := by
  rw [cons_mem_paths_iff, child?_touch hs hf]
  split
  · simp
  · rw [cons_mem_paths_iff]

theorem paths_place (n : Node T) (value : T) (hash : Option UInt64) (update : Bool) :
    (place value hash update n).paths = n.paths := by
  refine PathSet.ext fun path => ?_
  cases path with
  | nil => simp [nil_mem_paths]
  | cons k path => simp only [cons_mem_paths_iff, child?, place_children]

/-- **An insertion adds the prefixes of its path, and nothing else.** -/
theorem mem_paths_insert_iff {value : T} {hash : Option UInt64} {update : Bool} :
    ∀ {path : List T} {n : Node T} {q : List T}, WellFormed n →
      (q ∈ (n.insert path value hash update).paths ↔ q ∈ n.paths ∨ q <+: path ++ [value]) := by
  intro path
  induction path with
  | nil =>
      intro n q h
      cases q with
      | nil => simp [nil_mem_paths]
      | cons k q =>
          rw [insert_nil, cons_mem_paths_touch_iff h.self.sorted
            (fun c _ => place_value c value hash update), paths_place, mem_paths_childOrNew]
          rw [List.nil_append, List.cons_prefix_cons, List.prefix_nil]
          by_cases hk : k = value
          · -- the path goes through the value that is inserted
            rw [if_pos hk, hk, or_comm]; simp
          · -- it goes elsewhere, where nothing changes
            rw [if_neg hk]; simp [hk]
  | cons head tail ih =>
      intro n q h
      cases q with
      | nil => simp [nil_mem_paths]
      | cons k q =>
          rw [insert_cons, cons_mem_paths_touch_iff h.self.sorted
            (fun c hc => by rw [insert_value, hc]), ih (h.childOrNew head update).1,
            mem_paths_childOrNew, List.cons_append, List.cons_prefix_cons]
          by_cases hk : k = head
          · -- it goes the way of the insertion, so the child says the rest
            rw [if_pos hk, hk]
            constructor
            · rintro ((rfl | hq) | hq)
              · exact .inr ⟨rfl, List.nil_prefix⟩
              · exact .inl hq
              · exact .inr ⟨rfl, hq⟩
            · rintro (hq | ⟨_, hq⟩)
              · exact .inl (.inr hq)
              · exact .inr hq
          · rw [if_neg hk]; simp [hk]

end Insert

end Node

/-! ## Runs -/

/-- The calls that change a tree. -/
inductive TreeOp (T : Type) where
  | insert (path : List T) (value : T)
  | insertUpdate (path : List T) (value : T)
  | insertWithHash (path : List T) (value : T) (hash : UInt64)
  | insertWithHashUpdate (path : List T) (value : T) (hash : UInt64)
  | rehash

/-- The path followed by the value, for an insertion. -/
def TreeOp.fullPath : TreeOp T → Option (List T)
  | insert path value => some (path ++ [value])
  | insertUpdate path value => some (path ++ [value])
  | insertWithHash path value _ => some (path ++ [value])
  | insertWithHashUpdate path value _ => some (path ++ [value])
  | rehash => none

/-- The paths that a run inserts, closed under prefixes. -/
def inserted (ops : List (TreeOp T)) : PathSet T :=
  .closure {path | ∃ op ∈ ops, op.fullPath = some path}

namespace TreeSet

variable [Xxh3] [AsRef T] [LinearOrder T]

def apply (t : TreeSet T) : TreeOp T → TreeSet T
  | .insert path value => t.insert path value
  | .insertUpdate path value => t.insertUpdate path value
  | .insertWithHash path value hash => t.insertWithHash path value hash
  | .insertWithHashUpdate path value hash => t.insertWithHashUpdate path value hash
  | .rehash => t.rehash

theorem wellFormed_apply {t : TreeSet T} (op : TreeOp T) (h : t.root.WellFormed) :
    (t.apply op).root.WellFormed := by
  cases op with
  | rehash => exact Node.wellFormed_rehash h
  | _ => exact h.insert

theorem mem_paths_apply_iff {t : TreeSet T} {op : TreeOp T} {q : List T} (h : t.root.WellFormed) :
    q ∈ (t.apply op).root.paths ↔ q ∈ t.root.paths ∨ ∃ p, op.fullPath = some p ∧ q <+: p := by
  cases op with
  | rehash => simp [apply, rehash, TreeOp.fullPath]
  | _ => simp [apply, insert, insertUpdate, insertWithHash, insertWithHashUpdate,
      TreeOp.fullPath, Node.mem_paths_insert_iff h]

@[simp] theorem root_value_apply (t : TreeSet T) (op : TreeOp T) :
    (t.apply op).root.value = t.root.value := by
  cases op <;>
    simp [apply, rehash, insert, insertUpdate, insertWithHash, insertWithHashUpdate]

@[simp] theorem root_level_apply (t : TreeSet T) (op : TreeOp T) :
    (t.apply op).root.level = t.root.level := by
  cases op <;>
    simp [apply, rehash, insert, insertUpdate, insertWithHash, insertWithHashUpdate]

variable [Inhabited T]

/-- The tree after some calls on a new one. -/
def build (ops : List (TreeOp T)) : TreeSet T := ops.foldl apply new

theorem build_snoc (ops : List (TreeOp T)) (op : TreeOp T) :
    build (ops ++ [op]) = (build ops).apply op := by
  rw [build, List.foldl_append]; rfl

omit [Xxh3] [AsRef T] in
theorem wellFormed_new : (new : TreeSet T).root.WellFormed :=
  .node ⟨List.Pairwise.nil, fun _ hc => nomatch hc⟩ fun _ hc => nomatch hc

/-- **Every tree that the calls build is well formed.** -/
theorem wellFormed_build (ops : List (TreeOp T)) : (build ops).root.WellFormed :=
  @foldl_invariant _ _ apply (fun t => t.root.WellFormed) ops new
    (fun _ op _ h => wellFormed_apply op h) wellFormed_new

/-- **Its paths are the prefixes of what was inserted.** -/
theorem mem_paths_build_iff {ops : List (TreeOp T)} {q : List T} :
    q ∈ (build ops).root.paths ↔ q = [] ∨ q ∈ inserted ops := by
  induction ops using List.reverseRecOn with
  | nil =>
      cases q with
      | nil => simp [Node.nil_mem_paths]
      | cons k q => simp [Node.cons_mem_paths_iff, Node.child?, build, new, inserted,
          PathSet.mem_closure_iff]
  | append_singleton ops op ih =>
      rw [build_snoc, mem_paths_apply_iff (wellFormed_build ops), ih, or_assoc]
      refine or_congr_right ?_
      simp only [inserted, PathSet.mem_closure_iff, Set.mem_ofPred_eq, List.mem_append,
        List.mem_singleton, or_and_right, exists_or, exists_eq_left]

theorem root_value_build (ops : List (TreeOp T)) : (build ops).root.value = default :=
  @foldl_invariant _ _ apply (fun t => t.root.value = default) ops new
    (fun t op _ h => by rw [root_value_apply, h]) rfl

theorem root_level_build (ops : List (TreeOp T)) : (build ops).root.level = 0 :=
  @foldl_invariant _ _ apply (fun t => t.root.level = 0) ops new
    (fun t op _ h => by rw [root_level_apply, h]) rfl

end TreeSet

end Mintpool
