import Mintpool.Proof.Tree

/-!
# Visiting

The two visitors of the code look at a node's path and value and either do something and go
on below it, or skip it. For such a visitor a visit is a fold over the nodes it accepts, in
pre-order. They are the nodes whose whole path is accepted, and pre-order is the order of
their paths. A visitor that skips nothing comes to every node, so the nodes of a tree are
what it sees.
-/

namespace Mintpool

open Lib

variable {T σ : Type}

/-- The path of a visited node. -/
def TreeSet.fullPath (x : List T × Node T) : List T := x.1 ++ [x.2.value]

namespace Node

mutual

/-- The nodes that a visitor goes to, each with the path of its parent. -/
def visited (accept : List T → T → Bool) (path : List T) (children : List (Node T)) :
    List (List T × Node T) :=
  match children with
  | [] => []
  | child :: children => child.visitedFrom accept path ++ visited accept path children

def visitedFrom (accept : List T → T → Bool) (path : List T) (n : Node T) :
    List (List T × Node T) :=
  match n with
  | ⟨value, level, hash, manualHash, children, dirty⟩ =>
    if accept path value then
      (path, ⟨value, level, hash, manualHash, children, dirty⟩)
        :: visited accept (path ++ [value]) children
    else []

end

section

variable (accept : List T → T → Bool)

theorem visited_nil (path : List T) : visited accept path [] = [] := by rw [visited]

theorem visited_cons (path : List T) (c : Node T) (children : List (Node T)) :
    visited accept path (c :: children)
      = (if accept path c.value then (path, c) :: visited accept (path ++ [c.value]) c.children
        else []) ++ visited accept path children := by
  cases c
  rw [visited, visitedFrom]

theorem visitedFrom_eq (path : List T) (c : Node T) :
    c.visitedFrom accept path = if accept path c.value
      then (path, c) :: visited accept (path ++ [c.value]) c.children else [] := by
  cases c
  rw [visitedFrom]

theorem visited_eq_flatMap (path : List T) (children : List (Node T)) :
    visited accept path children = children.flatMap fun c => c.visitedFrom accept path := by
  induction children with
  | nil => rw [visited_nil, List.flatMap_nil]
  | cons c children ih => rw [visited, ih, List.flatMap_cons]

theorem mem_visited {path : List T} {children : List (Node T)} {x : List T × Node T} :
    x ∈ visited accept path children ↔ ∃ c ∈ children, accept path c.value = true
      ∧ (x = (path, c) ∨ x ∈ visited accept (path ++ [c.value]) c.children) := by
  induction children with
  | nil => simp [visited_nil]
  | cons c children ih =>
      rw [visited_cons, List.mem_append, ih]
      by_cases hc : accept path c.value = true <;> simp [hc]

end

/-- A visitor that goes on below what it accepts, and skips the rest. -/
def Accepts (accept : List T → T → Bool) (write : σ → List T → Node T → σ)
    (fn : σ → List T → Node T → σ × Visit) : Prop :=
  ∀ state path n, fn state path n
    = if accept path n.value then (write state path n, .continue) else (state, .skip)

/-- **A visit is a fold over the accepted nodes, in pre-order.** -/
theorem visitChildren_eq_foldl {accept : List T → T → Bool} {write : σ → List T → Node T → σ}
    {fn : σ → List T → Node T → σ × Visit} (hfn : Accepts accept write fn) (n : Node T) :
    ∀ (path : List T) (state : σ), visitChildren n.children path fn state
      = ((visited accept path n.children).foldl (fun s x => write s x.1 x.2) state, .continue) := by
  induction n using Node.induct with
  | h n ih =>
      intro path
      -- the loop goes through what is left of the children, all of them below `n`
      generalize hcs : n.children = children
      have hsub : ∀ c ∈ children, c ∈ n.children := fun c hc => hcs ▸ hc
      clear hcs
      induction children with
      | nil => intro state; rw [visitChildren, visited_nil, List.foldl_nil]
      | cons c children ihcs =>
          intro state
          have hrest := ihcs fun c hc => hsub c (List.mem_cons_of_mem _ hc)
          have hbelow := ih c (hsub c List.mem_cons_self)
          rw [visitChildren, visited_cons]
          cases c with
          | mk value level hash manualHash below dirty =>
              rw [visit, hfn]
              by_cases hc : accept path value = true
              · simp only [hc, if_true, hbelow, hrest, List.foldl_append, List.foldl_cons]
              · simp only [hc, if_false, Bool.false_eq_true, hrest, List.nil_append]

section Order

variable [LinearOrder T] {accept : List T → T → Bool}

theorem value_of_node? {path : List T} {value : T} :
    ∀ {n m : Node T}, n.node? (path ++ [value]) = some m → m.value = value := by
  induction path with
  | nil =>
      intro n m h
      obtain ⟨c, hc, h⟩ := Option.bind_eq_some_iff.mp h
      cases h
      exact (child?_some hc).2
  | cons head path ih =>
      intro n m h
      obtain ⟨c, _, h⟩ := Option.bind_eq_some_iff.mp h
      exact ih h

/-- Every step of a path is accepted. -/
def Reached (accept : List T → T → Bool) (path q : List T) : Prop :=
  ∀ r value, r ++ [value] <+: q → accept (path ++ r) value = true

omit [LinearOrder T] in
theorem reached_cons_iff {path q : List T} {value : T} :
    Reached accept path (value :: q)
      ↔ accept path value = true ∧ Reached accept (path ++ [value]) q := by
  constructor
  · intro h
    refine ⟨by simpa using h [] value ⟨q, rfl⟩, fun r v hr => ?_⟩
    have := h (value :: r) v ((List.prefix_cons_inj value).mpr hr)
    simpa using this
  · rintro ⟨hvalue, h⟩ r v hr
    cases r with
    | nil =>
        obtain ⟨rfl, _⟩ := List.cons_prefix_cons.mp hr
        simpa using hvalue
    | cons w r =>
        obtain ⟨rfl, hrq⟩ := List.cons_prefix_cons.mp hr
        simpa using h r v hrq

omit [LinearOrder T] in
/-- What is asked of the length of a path is asked of its last step. -/
theorem reached_length_iff {k : Nat} {q : List T} (hq : q ≠ []) :
    Reached (fun path _ => decide (path.length + 1 ≤ k)) [] q ↔ q.length ≤ k := by
  refine ⟨fun h => ?_, fun h r value hr => ?_⟩
  · -- the last step is the deepest, so it is asked the most
    obtain ⟨p, last, rfl⟩ := (List.eq_nil_or_concat' q).resolve_left hq
    have hlast := h p last List.prefix_rfl
    rw [decide_eq_true_eq, List.nil_append] at hlast
    rw [List.length_append, List.length_singleton]
    exact hlast
  · have hlen := hr.length_le
    rw [List.length_append, List.length_singleton] at hlen
    rw [decide_eq_true_eq, List.nil_append]
    exact hlen.trans h

omit [LinearOrder T] in
theorem reached_and_iff {accept accept' : List T → T → Bool} {path q : List T} :
    Reached (fun path value => accept path value && accept' path value) path q
      ↔ Reached accept path q ∧ Reached accept' path q := by
  simp only [Reached, Bool.and_eq_true]
  exact ⟨fun h => ⟨fun r v hr => (h r v hr).1, fun r v hr => (h r v hr).2⟩,
    fun h r v hr => ⟨h.1 r v hr, h.2 r v hr⟩⟩

/-- **A visit goes to the nodes whose path is accepted at every step.** -/
theorem mem_visited_iff {n m : Node T} (hn : WellFormed n) {path p : List T} :
    (p, m) ∈ visited accept path n.children
      ↔ ∃ r, p = path ++ r ∧ n.node? (r ++ [m.value]) = some m
        ∧ Reached accept path (r ++ [m.value]) := by
  induction n using Node.induct generalizing path with
  | h n ih =>
      rw [mem_visited]
      constructor
      · -- the child itself is visited, or something below it
        rintro ⟨c, hc, hacc, h | h⟩
        · cases h
          refine ⟨[], (List.append_nil p).symm, ?_, ?_⟩
          · rw [List.nil_append, node?_of_child? (WellFormed.child?_self hn hc)]; rfl
          · rw [List.nil_append, reached_cons_iff]
            exact ⟨hacc, fun r v hr => by simp at hr⟩
        · obtain ⟨r, rfl, hm, hr⟩ := (ih c hc (hn.child hc)).mp h
          refine ⟨c.value :: r, by simp, ?_, ?_⟩
          · rw [List.cons_append, node?_of_child? (WellFormed.child?_self hn hc)]; exact hm
          · rw [List.cons_append, reached_cons_iff]; exact ⟨hacc, hr⟩
      · -- the path leads to a child, or on from one
        rintro ⟨r, rfl, hm, hr⟩
        cases r with
        | nil =>
            rw [List.nil_append, reached_cons_iff] at hr
            obtain ⟨c, hc, hcm⟩ := Option.bind_eq_some_iff.mp hm
            cases hcm
            exact ⟨m, (child?_some hc).1, hr.1, .inl (by rw [List.append_nil])⟩
        | cons value r =>
            rw [List.cons_append, reached_cons_iff] at hr
            obtain ⟨c, hc, hbelow⟩ := Option.bind_eq_some_iff.mp hm
            obtain ⟨hcm, rfl⟩ := child?_some hc
            refine ⟨c, hcm, hr.1, .inr ((ih c hcm (hn.child hcm)).mpr ⟨r, by simp, hbelow, hr.2⟩)⟩

omit [LinearOrder T] in
theorem path_of_mem_visitedFrom {x : List T × Node T} (c : Node T) :
    ∀ {path : List T}, x ∈ c.visitedFrom accept path →
      path ++ [c.value] <+: TreeSet.fullPath x := by
  induction c using Node.induct with
  | h c ih =>
      intro path hx
      rw [visitedFrom_eq] at hx
      split at hx
      · rcases List.mem_cons.mp hx with rfl | hx
        · exact List.prefix_rfl
        · rw [visited_eq_flatMap] at hx
          obtain ⟨d, hd, hx⟩ := List.mem_flatMap.mp hx
          exact (List.prefix_append _ _).trans (ih d hd hx)
      · exact absurd hx (by simp)

/-- **A visit goes through the paths in their order.** -/
theorem visited_pairwise {n : Node T} (hn : WellFormed n) : ∀ (path : List T),
    (visited accept path n.children).Pairwise
      fun x y => TreeSet.fullPath x < TreeSet.fullPath y := by
  induction n using Node.induct with
  | h n ih =>
      intro path
      rw [visited_eq_flatMap, List.pairwise_flatMap]
      refine ⟨fun c hc => ?_, hn.self.sorted.imp fun hlt x hx y hy => ?_⟩
      · -- a node comes before what is below it
        rw [visitedFrom_eq]
        split
        · refine .cons (fun x hx => ?_) (ih c hc (hn.child hc) _)
          rw [visited_eq_flatMap] at hx
          obtain ⟨d, _, hx⟩ := List.mem_flatMap.mp hx
          exact lt_of_append_prefix (path_of_mem_visitedFrom d hx)
        · exact .nil
      · -- what is below two children parts where their values differ
        exact lt_of_fork hlt (path_of_mem_visitedFrom _ hx) (path_of_mem_visitedFrom _ hy)

end Order

end Node

namespace TreeSet

/-! ## Prefixes -/

section Prefix

variable [DecidableEq T] {pre : List T}

theorem prefixMatch_iff {path : List T} {n : Node T} :
    prefixMatch pre path n = true
      ↔ pre = [] ∨ path = [] ∨ Comparable (path ++ [n.value]) pre := by
  unfold prefixMatch
  rw [← take_min_eq_take_min_iff]
  by_cases hpre : pre = []
  · simp [hpre]
  · by_cases hpath : path = []
    · simp [hpath]
    · simp [hpre, hpath]

/-- A visit with a prefix stays on the branch of the prefix, from the second level on. -/
theorem reached_prefixMatch_iff {q : List T} (hq : q ≠ []) :
    Node.Reached (fun path value => prefixMatch pre path { value }) [] q
      ↔ pre = [] ∨ q.length = 1 ∨ Comparable q pre := by
  refine ⟨fun h => ?_, fun h r value hr => ?_⟩
  · -- the last step of the visit was let through
    obtain ⟨p, last, rfl⟩ := (List.eq_nil_or_concat' q).resolve_left hq
    have hlast := prefixMatch_iff.mp (h p last List.prefix_rfl)
    refine hlast.imp_right (.imp_left fun hnil => ?_)
    rw [List.nil_append] at hnil
    rw [hnil]
    rfl
  · -- so are all before it: a prefix of what is comparable is comparable
    refine prefixMatch_iff.mpr (h.imp_right fun h => ?_)
    rcases h with hone | hbranch
    · have hlen := hr.length_le
      rw [List.length_append, List.length_singleton, hone] at hlen
      exact .inl (List.eq_nil_of_length_eq_zero (by simpa using hlen))
    · exact .inr (hbranch.of_prefix hr)

end Prefix

/-! ## All nodes -/

/-- The nodes below the root in pre-order, each with the path of its parent. -/
def nodes (t : TreeSet T) : List (List T × Node T) :=
  Node.visited (fun _ _ => true) [] t.root.children

variable [LinearOrder T]

theorem nodes_pairwise {t : TreeSet T} (hw : t.root.WellFormed) :
    (t.nodes.map fullPath).Pairwise (· < ·) :=
  List.pairwise_map.mpr (Node.visited_pairwise hw [])

theorem mem_map_nodes_iff {t : TreeSet T} (hw : t.root.WellFormed) {q : List T} :
    q ∈ t.nodes.map fullPath ↔ q ≠ [] ∧ q ∈ t.root.paths := by
  rw [List.mem_map]
  refine ⟨fun ⟨⟨p, m⟩, hx, hq⟩ => ?_, fun ⟨hne, hq⟩ => ?_⟩
  · obtain ⟨r, rfl, hm, _⟩ := (Node.mem_visited_iff hw).mp hx
    subst hq
    exact ⟨by simp [fullPath], Node.mem_paths_iff.mpr ⟨m, hm⟩⟩
  · obtain ⟨m, hm⟩ := Node.mem_paths_iff.mp hq
    obtain ⟨p, value, rfl⟩ := (List.eq_nil_or_concat' q).resolve_left hne
    have hvalue := Node.value_of_node? hm
    refine ⟨(p, m), (Node.mem_visited_iff hw).mpr ⟨p, rfl, ?_, fun _ _ _ => rfl⟩, ?_⟩
    · rw [hvalue]; exact hm
    · rw [fullPath, hvalue]

variable [Xxh3] [AsRef T] [Inhabited T]

/--
**A tree represents what was inserted.** After any calls on a new tree the children of every
node strictly increase by value, so that a search among them finds a value or the place for
it, and are one level down; and the nodes below the root, each counted once, are those at
the initial segments of the inserted paths.
-/
theorem represents_inserted (ops : List (TreeOp T)) :
    (build ops).root.All (fun n =>
      n.children.Pairwise (fun c c' => c.value < c'.value)
      ∧ (∀ value, match binarySearchBy (fun c => compare c.value value) n.children with
        | .ok i => (n.children[i]?).map Node.value = some value
        | .error i => (∀ c ∈ n.children.take i, c.value < value)
            ∧ ∀ c ∈ n.children.drop i, value < c.value)
      ∧ ∀ c ∈ n.children, c.level = n.level + 1)
    ∧ ((build ops).nodes.map fullPath).Nodup
    ∧ ∀ q, q ∈ (build ops).nodes.map fullPath ↔ q ≠ [] ∧ q ∈ inserted ops := by
  have hw := wellFormed_build ops
  refine ⟨hw.imp fun n hn => ?_, ?_, fun q => ?_⟩
  · exact ⟨hn.sorted, fun value => binarySearchBy_spec value hn.sorted, hn.level⟩
  · exact (nodes_pairwise hw).imp fun hlt => hlt.ne
  · rw [mem_map_nodes_iff hw, mem_paths_build_iff]
    refine and_congr_right fun hne => ?_
    exact ⟨fun h => h.resolve_left hne, .inr⟩

end TreeSet

end Mintpool
