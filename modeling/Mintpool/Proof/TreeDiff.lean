import Mintpool.Lib.Merge
import Mintpool.Proof.Tree
import Mintpool.Sample

/-!
# What `diff` answers

The loop of `diff` is a merge of two sorted child lists, and what it emits for a value
below both nodes is what the recursive call emits, moved under that value. So the answer is
read one value at a time, and each fact about it is an induction over the tree.

Where the hashes can be trusted — they agree exactly when the paths below do — the answer
is the frontier of the two sets of paths, in order and without repetition.
-/

namespace Mintpool

open Lib

section

variable {T : Type}

namespace Diff

def path : Diff T → List T
  | missingSelf path => path
  | missingOther path => path
  | hashMismatch path => path

/-- The entry, seen from `pre` above. -/
def under (pre : List T) : Diff T → Diff T
  | missingSelf path => missingSelf (pre ++ path)
  | missingOther path => missingOther (pre ++ path)
  | hashMismatch path => hashMismatch (pre ++ path)

/-- The entry, from the other side. -/
def swap : Diff T → Diff T
  | missingSelf path => missingOther path
  | missingOther path => missingSelf path
  | hashMismatch path => hashMismatch path

@[simp] theorem path_under (pre : List T) (d : Diff T) : (d.under pre).path = pre ++ d.path := by
  cases d <;> rfl

@[simp] theorem swap_swap (d : Diff T) : d.swap.swap = d := by cases d <;> rfl

theorem under_injective (pre : List T) : Function.Injective (under pre) := by
  intro d d' h
  cases d <;> cases d' <;> simp_all [under]

end Diff

namespace Node

variable [LinearOrder T]

/-! ## The loop is a merge -/

/-- What the loop emits for a value that both nodes have a child with. -/
def bothEntries (path : List T) (x y : Node T) : List (Diff T) :=
  if x.hash = y.hash then []
  else if x.diff (path ++ [x.value]) y = [] then [.hashMismatch (path ++ [x.value])]
  else x.diff (path ++ [x.value]) y

theorem diffLoop_eq_mergeBy (path : List T) (xs ys : List (Node T)) :
    diffLoop path xs ys
      = mergeBy Node.value Node.value (fun x => [.missingOther (path ++ [x.value])])
          (fun y => [.missingSelf (path ++ [y.value])]) (bothEntries path) xs ys := by
  refine eq_mergeBy (fun x xs y ys hc => ?_) (fun x xs y ys hc => ?_) (fun x xs y ys hc => ?_)
    (fun x xs => ?_) (fun y ys => ?_) ?_ xs ys
  · -- both children are there: they are alike, or what is below them tells, or their hashes do
    rw [diffLoop, hc, bothEntries]
    by_cases hh : x.hash = y.hash
    · simp [hh]
    · by_cases hd : x.diff (path ++ [x.value]) y = []
      · simp [hh, hd]
      · simp [hh, hd]
  · rw [diffLoop, hc]; rfl
  · rw [diffLoop, hc]; rfl
  · rw [diffLoop]; rfl
  · rw [diffLoop]; rfl
  · rw [diffLoop]

theorem diff_eq_mergeBy (n m : Node T) (path : List T) :
    n.diff path m
      = mergeBy Node.value Node.value (fun x => [.missingOther (path ++ [x.value])])
          (fun y => [.missingSelf (path ++ [y.value])]) (bothEntries path)
          n.children m.children := by
  cases n; cases m
  rw [diff, diffLoop_eq_mergeBy]

/-- The path given to `diff` is put in front of the entries. -/
theorem diff_under (n : Node T) :
    ∀ (m : Node T) (pre path : List T),
      n.diff (pre ++ path) m = (n.diff path m).map (Diff.under pre) := by
  induction n using Node.induct with
  | h n ih =>
      intro m pre path
      rw [diff_eq_mergeBy, diff_eq_mergeBy]
      refine (map_mergeBy (fun x _ => ?_) (fun y _ => ?_) fun x hx y _ _ => ?_).symm
      · simp [Diff.under]
      · simp [Diff.under]
      · -- below a child the path is one longer, and otherwise the same
        have hrec := ih x hx y pre (path ++ [x.value])
        simp only [bothEntries, List.append_assoc, hrec, List.map_eq_nil_iff]
        split
        · rfl
        · split
          · simp [Diff.under]
          · rfl

/-- Comparing the other way round exchanges what is missing where. -/
theorem diff_swap (n : Node T) :
    ∀ (m : Node T) (path : List T), m.diff path n = (n.diff path m).map Diff.swap := by
  induction n using Node.induct with
  | h n ih =>
      intro m path
      rw [diff_eq_mergeBy m n path, diff_eq_mergeBy n m path, ← mergeBy_swap]
      symm
      refine map_mergeBy (fun x _ => rfl) (fun y _ => rfl) fun x hx y _ hv => ?_
      simp only [bothEntries, ih x hx y, hv, List.map_eq_nil_iff, @eq_comm _ y.hash]
      split
      · rfl
      · split <;> rfl

/-! ## Reading the answer one value at a time -/

/-- What the answer has for one child of each, seen from there. -/
def childEntries (x y : Node T) : List (Diff T) :=
  if x.hash = y.hash then []
  else if x.diff [] y = [] then [.hashMismatch []]
  else x.diff [] y

theorem bothEntries_nil (x y : Node T) :
    bothEntries [] x y = (childEntries x y).map (Diff.under [x.value]) := by
  have hrec := diff_under x y [x.value] []
  simp only [List.append_nil] at hrec
  simp only [bothEntries, childEntries, List.nil_append, hrec, List.map_eq_nil_iff]
  split
  · rfl
  · split <;> rfl

/-- The part of the answer that is about one value. -/
def entriesAt (n m : Node T) (value : T) : List (Diff T) :=
  chunk (fun _ => [.missingOther [value]]) (fun _ => [.missingSelf [value]])
    (fun x y => (childEntries x y).map (Diff.under [value])) (n.child? value) (m.child? value)

theorem chunk_eq_entriesAt (n m : Node T) (value : T) :
    chunk (fun x => [Diff.missingOther ([] ++ [x.value])])
        (fun y => [Diff.missingSelf ([] ++ [y.value])]) (bothEntries [])
        (lookupBy Node.value value n.children) (lookupBy Node.value value m.children)
      = n.entriesAt m value := by
  unfold entriesAt child?
  cases hx : lookupBy Node.value value n.children with
  | none =>
      cases hy : lookupBy Node.value value m.children with
      | none => rfl
      | some y => simp [chunk, (lookupBy_some hy).2]
  | some x =>
      cases hy : lookupBy Node.value value m.children with
      | none => simp [chunk, (lookupBy_some hx).2]
      | some y => simp [chunk, bothEntries_nil, (lookupBy_some hx).2]

variable {n m : Node T}

/-- **The answer is what it has for each value, in the order of the values.** -/
theorem diff_eq_flatMap (hn : WellFormed n) (hm : WellFormed m) :
    n.diff [] m
      = (mergedKeys Node.value Node.value n.children m.children).flatMap (n.entriesAt m) := by
  rw [diff_eq_mergeBy, mergeBy_eq_flatMap hn.self.sorted hm.self.sorted]
  exact List.flatMap_congr fun value _ => chunk_eq_entriesAt n m value

theorem mem_diff_iff (hn : WellFormed n) (hm : WellFormed m) {d : Diff T} :
    d ∈ n.diff [] m ↔ ∃ value, d ∈ n.entriesAt m value := by
  rw [diff_eq_mergeBy, mem_mergeBy_iff hn.self.sorted hm.self.sorted]
  exact exists_congr fun value => by rw [chunk_eq_entriesAt]

/-- What is about a value has a path that starts with it. -/
theorem path_of_mem_entriesAt {value : T} {d : Diff T} (h : d ∈ n.entriesAt m value) :
    ∃ path, d.path = value :: path := by
  unfold entriesAt at h
  cases hx : n.child? value <;> cases hy : m.child? value <;>
    simp only [hx, hy, chunk, List.mem_singleton, List.not_mem_nil, List.mem_map] at h
  · exact ⟨[], by rw [h]; rfl⟩
  · exact ⟨[], by rw [h]; rfl⟩
  · obtain ⟨d, _, rfl⟩ := h
    exact ⟨d.path, by simp⟩

theorem mem_diff_iff_of_path (hn : WellFormed n) (hm : WellFormed m) {d : Diff T} {value : T}
    {path : List T} (hd : d.path = value :: path) :
    d ∈ n.diff [] m ↔ d ∈ n.entriesAt m value := by
  rw [mem_diff_iff hn hm]
  constructor
  · rintro ⟨value', h⟩
    obtain ⟨path', hpath'⟩ := path_of_mem_entriesAt h
    rw [hd] at hpath'
    cases hpath'
    exact h
  · intro h; exact ⟨value, h⟩

theorem path_ne_nil_of_mem_diff (hn : WellFormed n) (hm : WellFormed m) {d : Diff T}
    (h : d ∈ n.diff [] m) : d.path ≠ [] := by
  obtain ⟨value, h⟩ := (mem_diff_iff hn hm).mp h
  obtain ⟨path, hpath⟩ := path_of_mem_entriesAt h
  rw [hpath]
  exact List.cons_ne_nil value path

/-- What is on the record for a child that both have is there for the child itself. -/
theorem mem_entriesAt_of_children {value : T} {x y : Node T} (hx : n.child? value = some x)
    (hy : m.child? value = some y) {d : Diff T} :
    d.under [value] ∈ n.entriesAt m value ↔ d ∈ childEntries x y := by
  rw [entriesAt, hx, hy, chunk, List.mem_map_of_injective (Diff.under_injective [value])]

/-! ## When there is nothing to report -/

theorem childEntries_eq_nil_iff {x y : Node T} : childEntries x y = [] ↔ x.hash = y.hash := by
  unfold childEntries
  split
  · rename_i hh; simp [hh]
  · rename_i hh
    split
    · simp [hh]
    · rename_i hd; simp [hh, hd]

/-- What `diff` reads of a node before it looks below. -/
def label (n : Node T) : T × UInt64 := (n.value, n.hash)

theorem entriesAt_eq_nil_iff {value : T} : n.entriesAt m value = []
    ↔ Option.Rel (fun x y => x.label = y.label) (n.child? value) (m.child? value) := by
  unfold entriesAt
  cases hx : n.child? value with
  | none =>
      cases hy : m.child? value with
      | none => simp [chunk]
      | some y =>
          constructor
          · intro h; cases h
          · intro h; cases h
  | some x =>
      cases hy : m.child? value with
      | none =>
          constructor
          · intro h; cases h
          · intro h; cases h
      | some y =>
          have hv : x.value = y.value := (child?_some hx).2.trans (child?_some hy).2.symm
          rw [chunk, List.map_eq_nil_iff, childEntries_eq_nil_iff]
          -- both are there, so it is their hashes that have to agree
          constructor
          · intro hh; exact .some (Prod.ext hv hh)
          · intro h; cases h with | some h => exact congrArg Prod.snd h

/-- Children agree in value and hash when they do under each value. -/
theorem map_label_eq_iff (hn : WellFormed n) (hm : WellFormed m) :
    n.children.map label = m.children.map label
      ↔ ∀ value, Option.Rel (fun x y => x.label = y.label) (n.child? value) (m.child? value) := by
  rw [← List.forall₂_eq_eq_eq, List.forall₂_map_left_iff, List.forall₂_map_right_iff]
  constructor
  · intro h value; exact lookupBy_of_forall₂ (fun x y hxy => congrArg Prod.fst hxy) h value
  · intro h; exact forall₂_of_lookupBy hn.self.sorted hm.self.sorted h

/-- **The answer is empty exactly when the children agree in value and hash.** -/
theorem diff_eq_nil_iff (hn : WellFormed n) (hm : WellFormed m) :
    n.diff [] m = [] ↔ n.children.map label = m.children.map label := by
  rw [map_label_eq_iff hn hm, List.eq_nil_iff_forall_not_mem]
  simp only [← entriesAt_eq_nil_iff, List.eq_nil_iff_forall_not_mem, mem_diff_iff hn hm, not_exists]
  exact forall_comm

theorem diff_self (hn : WellFormed n) : n.diff [] n = [] := (diff_eq_nil_iff hn hn).mpr rfl

/-! ## Order -/

theorem childEntries_pairwise {R : Diff T → Diff T → Prop} {x y : Node T}
    (h : (x.diff [] y).Pairwise R) : (childEntries x y).Pairwise R := by
  unfold childEntries
  split
  · exact .nil
  · split
    · exact List.pairwise_singleton R _
    · exact h

/-- **The answer is in strict lexicographic order of the paths.** -/
theorem diff_pairwise (hn : WellFormed n) (hm : WellFormed m) :
    (n.diff [] m).Pairwise fun d d' => d.path < d'.path := by
  induction n using Node.induct generalizing m with
  | h n ih =>
      rw [diff_eq_mergeBy]
      refine mergeBy_pairwise hn.self.sorted hm.self.sorted (fun value => ?_) ?_
      · rw [chunk_eq_entriesAt, entriesAt]
        cases hx : n.child? value with
        | none => cases m.child? value <;> simp [chunk]
        | some x =>
            cases hy : m.child? value with
            | none => simp [chunk]
            | some y =>
                obtain ⟨hxm, _⟩ := child?_some hx
                obtain ⟨hym, _⟩ := child?_some hy
                rw [chunk, List.pairwise_map]
                refine (childEntries_pairwise (ih x hxm (hn.child hxm) (hm.child hym))).imp ?_
                intro d d' h
                simpa [List.cons_lt_cons_iff] using h
      · -- entries of different children differ in the first value of their paths
        intro value value' hlt d hd d' hd'
        rw [chunk_eq_entriesAt] at hd hd'
        obtain ⟨path, hpath⟩ := path_of_mem_entriesAt hd
        obtain ⟨path', hpath'⟩ := path_of_mem_entriesAt hd'
        rw [hpath, hpath', List.cons_lt_cons_iff]
        exact .inl hlt

/-! ## Where hashes say what is below -/

/--
The hashes of two nodes at one path agree exactly when the same paths are below them. Of the
two nodes compared nothing is asked, since `diff` never looks at the hashes of the roots.
-/
def Faithful (n m : Node T) : Prop :=
  ∀ path x y, path ≠ [] → n.node? path = some x → m.node? path = some y →
    (x.hash = y.hash ↔ x.paths = y.paths)

theorem Faithful.child {value : T} {x y : Node T} (h : Faithful n m)
    (hx : n.child? value = some x) (hy : m.child? value = some y) :
    (x.hash = y.hash ↔ x.paths = y.paths) ∧ Faithful x y := by
  have hcons : ∀ path x' y', x.node? path = some x' → y.node? path = some y' →
      (x'.hash = y'.hash ↔ x'.paths = y'.paths) := by
    intro path x' y' hx' hy'
    refine h (value :: path) x' y' (List.cons_ne_nil value path) ?_ ?_
    · rw [node?_of_child? hx]; exact hx'
    · rw [node?_of_child? hy]; exact hy'
  exact ⟨hcons [] x y rfl rfl, fun path x' y' _ => hcons path x' y'⟩

theorem Faithful.symm (h : Faithful n m) : Faithful m n := by
  intro path x y hne hx hy
  rw [eq_comm, h path y x hne hy hx, eq_comm]

theorem frontier_below_of_left_none {value : T} (hx : n.child? value = none) {path : List T} :
    path ∉ (n.paths.below value).frontier (m.paths.below value) := by
  rintro ⟨hp, _⟩
  obtain ⟨c, hc, _⟩ := cons_mem_paths_iff.mp hp
  rw [hx] at hc
  nomatch hc

theorem frontier_below_of_right_none {value : T} (hy : m.child? value = none) {path : List T} :
    path ∉ (n.paths.below value).frontier (m.paths.below value) := by
  rintro ⟨_, _, _, hp⟩
  obtain ⟨c, hc, _⟩ := cons_mem_paths_iff.mp hp
  rw [hy] at hc
  nomatch hc

theorem singleton_mem_paths_iff {value : T} : [value] ∈ n.paths ↔ n.child? value ≠ none := by
  rw [cons_mem_paths_iff, Option.ne_none_iff_exists']
  simp [nil_mem_paths]

/-- **What `diff` reports missing on the other side is the frontier.** -/
theorem missingOther_mem_diff_iff (hn : WellFormed n) (hm : WellFormed m) (h : Faithful n m)
    {path : List T} : .missingOther path ∈ n.diff [] m ↔ path ∈ n.paths.frontier m.paths := by
  induction n using Node.induct generalizing m path with
  | h n ih =>
      cases path with
      | nil =>
          constructor
          · intro hd; exact absurd rfl (path_ne_nil_of_mem_diff hn hm hd)
          · intro hp; exact absurd rfl hp.2.2.1
      | cons value path =>
          rw [mem_diff_iff_of_path hn hm rfl, PathSet.cons_mem_frontier_iff (nil_mem_paths m),
            singleton_mem_paths_iff, singleton_mem_paths_iff]
          cases hx : n.child? value with
          | none =>
              cases hy : m.child? value <;>
                simp [entriesAt, hx, hy, chunk, frontier_below_of_left_none hx]
          | some x =>
              cases hy : m.child? value with
              | none => simp [entriesAt, hx, hy, chunk, frontier_below_of_right_none hy]
              | some y =>
                  obtain ⟨hxm, _⟩ := child?_some hx
                  obtain ⟨hym, _⟩ := child?_some hy
                  obtain ⟨hhash, hbelow⟩ := h.child hx hy
                  have hrec : .missingOther path ∈ x.diff [] y ↔ path ∈ x.paths.frontier y.paths :=
                    ih x hxm (hn.child hxm) (hm.child hym) hbelow
                  rw [show Diff.missingOther (value :: path)
                      = (Diff.missingOther path).under [value] from rfl,
                    mem_entriesAt_of_children hx hy, below_paths hx, below_paths hy, ← hrec,
                    childEntries]
                  by_cases hh : x.hash = y.hash
                  · -- pruned: the paths below are the same, so there is no frontier
                    have hempty : .missingOther path ∉ x.diff [] y := by
                      rw [hrec, hhash.mp hh]
                      exact fun hp => hp.2.1 hp.1
                    simp [hh, hempty]
                  · by_cases hd : x.diff [] y = []
                    · simp [hh, hd]
                    · simp [hh, hd]

theorem missingSelf_mem_diff_iff (hn : WellFormed n) (hm : WellFormed m) (h : Faithful n m)
    {path : List T} : .missingSelf path ∈ n.diff [] m ↔ path ∈ m.paths.frontier n.paths := by
  rw [← missingOther_mem_diff_iff hm hn h.symm, diff_swap n m [], List.mem_map]
  constructor
  · intro hd; exact ⟨_, hd, rfl⟩
  · rintro ⟨d, hd, hswap⟩
    have hd' : d = .missingSelf path := by rw [← Diff.swap_swap d, hswap]; rfl
    rwa [hd'] at hd

/-- An empty answer means the same paths. -/
theorem paths_eq_of_diff_eq_nil (hn : WellFormed n) (hm : WellFormed m) (h : Faithful n m)
    (hd : n.diff [] m = []) : n.paths = m.paths := by
  refine PathSet.eq_of_frontier_eq_empty (nil_mem_paths n) (nil_mem_paths m) (fun p hp => ?_)
    fun p hp => ?_
  · rw [← missingOther_mem_diff_iff hn hm h, hd] at hp
    exact absurd hp (by simp)
  · rw [← missingSelf_mem_diff_iff hn hm h, hd] at hp
    exact absurd hp (by simp)

/-- The fallback entry is never used: where hashes differ, so do the paths below. -/
theorem hashMismatch_not_mem_diff (hn : WellFormed n) (hm : WellFormed m) (h : Faithful n m)
    {path : List T} : .hashMismatch path ∉ n.diff [] m := by
  induction n using Node.induct generalizing m path with
  | h n ih =>
      intro hd
      -- the entry belongs to one of the children, and only where both trees have it
      obtain ⟨value, path', hpath⟩ := List.exists_cons_of_ne_nil (path_ne_nil_of_mem_diff hn hm hd)
      obtain rfl : path = value :: path' := hpath
      rw [mem_diff_iff_of_path hn hm rfl] at hd
      cases hx : n.child? value with
      | none => cases hy : m.child? value <;> simp [entriesAt, hx, hy, chunk] at hd
      | some x =>
          cases hy : m.child? value with
          | none => simp [entriesAt, hx, hy, chunk] at hd
          | some y =>
              obtain ⟨hxm, _⟩ := child?_some hx
              obtain ⟨hym, _⟩ := child?_some hy
              obtain ⟨hhash, hbelow⟩ := h.child hx hy
              rw [show Diff.hashMismatch (value :: path')
                  = (Diff.hashMismatch path').under [value] from rfl,
                mem_entriesAt_of_children hx hy, childEntries] at hd
              by_cases hh : x.hash = y.hash
              · simp [hh] at hd
              · -- the hashes differ, so the paths do, and something below is reported in its place
                have hne : x.diff [] y ≠ [] := fun hnil =>
                  hh (hhash.mpr (paths_eq_of_diff_eq_nil (hn.child hxm) (hm.child hym) hbelow hnil))
                rw [if_neg hh, if_neg hne] at hd
                exact ih x hxm (hn.child hxm) (hm.child hym) hbelow hd

end Node

/-! ## Two trees -/

variable [LinearOrder T]

/-- The answer to the comparison of two trees names where their paths first differ. -/
structure ExactDiff (a b : TreeSet T) : Prop where
  noMismatch : ∀ path, .hashMismatch path ∉ a.diff b
  missingOther : ∀ path,
    .missingOther path ∈ a.diff b ↔ path ∈ a.root.paths.frontier b.root.paths
  missingSelf : ∀ path,
    .missingSelf path ∈ a.diff b ↔ path ∈ b.root.paths.frontier a.root.paths
  once : (a.diff b).Nodup
  ordered : ((a.diff b).map Diff.path).Pairwise (· < ·)

namespace TreeSet

variable [Xxh3] [AsRef T] [Inhabited T]

/--
**`diff` is exact where hashes are.** For two trees that any calls built, if at each path
that both have the hashes agree exactly when the same paths are below, the answer is the
frontier on both sides, each path once and in order.
-/
theorem exact_diff (ops ops' : List (TreeOp T))
    (h : (build ops).root.Faithful (build ops').root) : ExactDiff (build ops) (build ops') := by
  have hn := wellFormed_build ops
  have hm := wellFormed_build ops'
  have hsorted : ((build ops).diff (build ops')).Pairwise fun d d' => d.path < d'.path :=
    Node.diff_pairwise hn hm
  exact {
    noMismatch := fun path => Node.hashMismatch_not_mem_diff hn hm h
    missingOther := fun path => Node.missingOther_mem_diff_iff hn hm h
    missingSelf := fun path => Node.missingSelf_mem_diff_iff hn hm h
    once := List.Pairwise.imp (fun hlt heq => absurd (congrArg Diff.path heq) hlt.ne) hsorted
    ordered := List.pairwise_map.mpr hsorted }

omit [Xxh3] [AsRef T] [Inhabited T] in
/--
**Both sides reach the same conclusion.** Comparing two trees the other way round gives the
same entries in the same order, with what is missing here and what is missing there
exchanged. Nothing is asked of the hashes, nor of how the trees were made.
-/
theorem diff_antisymm (t t' : TreeSet T) : t'.diff t = (t.diff t').map Diff.swap :=
  Node.diff_swap t.root t'.root []

end TreeSet

end

/-! ## Examples -/

section Examples

open Sample TreeSet

attribute [local instance] Sample.asRefBytes Sample.xxh3

/-- Two trees with different leaves below one node. -/
theorem exact_diff_of_leaves :
    ExactDiff (build [.insert [[1]] ([2] : Bytes), .rehash])
      (build [.insert [[1]] ([3] : Bytes), .rehash]) := by
  refine exact_diff _ _ fun path x y hne hx hy => ?_
  have hpx : path <+: [[1], [2]] := by
    have h := (mem_paths_build_iff.mp (Node.mem_paths_iff.mpr ⟨x, hx⟩)).resolve_left hne
    simpa [inserted, PathSet.mem_closure_iff, TreeOp.fullPath] using h
  have hpy : path <+: [[1], [3]] := by
    have h := (mem_paths_build_iff.mp (Node.mem_paths_iff.mpr ⟨y, hy⟩)).resolve_left hne
    simpa [inserted, PathSet.mem_closure_iff, TreeOp.fullPath] using h
  -- the one path that both have
  obtain rfl : path = [[1]] := by
    obtain ⟨a, rest, rfl⟩ := List.exists_cons_of_ne_nil hne
    cases rest with
    | nil => rw [(List.cons_prefix_cons.mp hpx).1]
    | cons b rest =>
        have h2 := (List.cons_prefix_cons.mp (List.cons_prefix_cons.mp hpx).2).1
        have h3 := (List.cons_prefix_cons.mp (List.cons_prefix_cons.mp hpy).2).1
        exact absurd (h2.symm.trans h3) (by decide)
  have hxhash := congrArg (Option.map Node.hash) hx
  have hyhash := congrArg (Option.map Node.hash) hy
  have hmem : ∀ {n m : Node Bytes} (q), n.node? [[1]] = some m →
      (q ∈ m.paths ↔ (n.node? ([1] :: q)).isSome = true) := by
    intro n m q h
    rw [Node.node?_cons, Option.bind_eq_some_iff] at h
    obtain ⟨c, hc, h⟩ := h
    cases h
    rw [Node.node?_cons, hc]
    exact Iff.rfl
  constructor
  · intro h
    rw [Option.map_some, h, ← Option.map_some, ← hyhash] at hxhash
    exact absurd hxhash (by decide +kernel)
  · intro h
    have h2 : [[2]] ∈ x.paths := (hmem _ hx).mpr (by decide +kernel)
    rw [h, hmem _ hy] at h2
    exact absurd h2 (by decide +kernel)

end Examples

end Mintpool
