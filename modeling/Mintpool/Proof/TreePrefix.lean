import Mathlib.Data.List.Perm.Subperm
import Mintpool.Proof.TreeExtract

/-!
# What a prefix selects

`prefix_match` tells a visitor where to go on: on the branch of the prefix, above it and
below it. It compares nothing at the first level, where the path it is given is empty, so
every node there passes. Below such a node the comparison starts again and fails at once.

Both callers take the nodes that a visitor comes to for the answer. For `extract` they are,
but for the first level and a length that wraps. For `leafs` a childless node above the
prefix is one too many as well.
-/

namespace Mintpool

open Lib

section

variable {T : Type} [LinearOrder T]

namespace TreeSet

/-! ## Leafs -/

/--
`leafs` answers with the values of the childless nodes at or below the prefix, each once and
in the order of their paths.
-/
def LeafsExact (t : TreeSet T) (pre : List T) : Prop :=
  ∃ xs : List (List T × Node T), (xs.map Prod.fst).Pairwise (· < ·)
    ∧ (∀ q m, (q, m) ∈ xs ↔ q ≠ [] ∧ t.root.node? q = some m ∧ m.children = [] ∧ pre <+: q)
    ∧ t.leafs pre = xs.map fun x => x.2.value

/-- The childless nodes that a visit with a prefix comes to, each with its path. -/
def leavesVisited (t : TreeSet T) (pre : List T) : List (List T × Node T) :=
  ((Node.visited (fun path value => prefixMatch pre path { value }) [] t.root.children).filter
    fun x => x.2.children.isEmpty).map fun x => (fullPath x, x.2)

theorem leafs_visitor (pre : List T) :
    Node.Accepts (fun path value => prefixMatch pre path { value })
      (fun leafs _ n => leafs ++ if n.children.isEmpty then [n.value] else [])
      (fun leafs path (n : Node T) =>
        if !prefixMatch pre path n then (leafs, .skip)
        else if n.children.isEmpty then (leafs ++ [n.value], .continue)
        else (leafs, .continue)) := by
  intro leafs path n
  have hvalue : prefixMatch pre path { value := n.value : Node T } = prefixMatch pre path n := rfl
  simp only [hvalue]
  by_cases hp : prefixMatch pre path n = true
  · by_cases hleaf : n.children.isEmpty = true
    · simp only [hp, hleaf, Bool.not_true, Bool.false_eq_true, if_true, if_false]
    · simp only [hp, hleaf, Bool.not_true, Bool.false_eq_true, if_true, if_false, List.append_nil]
  · simp [hp]

theorem leafs_eq (t : TreeSet T) (pre : List T) :
    t.leafs pre = (t.leavesVisited pre).map fun x => x.2.value := by
  rw [leafs, visit, Node.visitChildren_eq_foldl (leafs_visitor pre), leavesVisited]
  generalize Node.visited _ _ _ = xs
  rw [List.foldl_append_eq_append, List.nil_append, List.map_map]
  dsimp only
  induction xs with
  | nil => rfl
  | cons x xs ih =>
      rw [List.map_cons, List.flatten_cons, ih, List.filter_cons]
      split <;> simp

theorem leavesVisited_pairwise {t : TreeSet T} (hw : t.root.WellFormed) (pre : List T) :
    ((t.leavesVisited pre).map Prod.fst).Pairwise (· < ·) := by
  rw [leavesVisited, List.map_map, List.pairwise_map]
  exact (Node.visited_pairwise hw []).filter _

theorem mem_leavesVisited_iff {t : TreeSet T} (hw : t.root.WellFormed) {pre q : List T}
    {m : Node T} : (q, m) ∈ t.leavesVisited pre
      ↔ q ≠ [] ∧ t.root.node? q = some m ∧ m.children = []
        ∧ (pre = [] ∨ q.length = 1 ∨ Comparable q pre) := by
  rw [leavesVisited, List.mem_map]
  refine ⟨fun ⟨x, hx, hq⟩ => ?_, fun ⟨hne, hm, hleaf, hreached⟩ => ?_⟩
  · -- a leaf that is visited is there, and the visit has come as far
    obtain ⟨hx, hleaf⟩ := List.mem_filter.mp hx
    obtain ⟨r, hr, hnode, hreached⟩ := (Node.mem_visited_iff hw).mp hx
    rw [List.nil_append] at hr
    obtain ⟨rfl, rfl⟩ := Prod.mk.inj hq
    have hne : fullPath x ≠ [] := by simp [fullPath]
    rw [← hr] at hnode hreached
    exact ⟨hne, hnode, by simpa using hleaf, (reached_prefixMatch_iff hne).mp hreached⟩
  · -- and the last value of its path is its own
    obtain ⟨p, value, rfl⟩ := (List.eq_nil_or_concat' q).resolve_left hne
    have hvalue := Node.value_of_node? hm
    refine ⟨(p, m), List.mem_filter.mpr ⟨(Node.mem_visited_iff hw).mpr ⟨p, rfl, ?_, ?_⟩, ?_⟩, ?_⟩
    · rw [hvalue]; exact hm
    · rw [hvalue]; exact (reached_prefixMatch_iff hne).mpr hreached
    · simpa using hleaf
    · rw [fullPath, hvalue]

/-- No childless node of the first level, or on the way to the prefix, is outside of it. -/
def NoLeafBeside (t : TreeSet T) (pre : List T) : Prop :=
  ∀ q m, q ≠ [] → t.root.node? q = some m → m.children = [] → (q.length = 1 ∨ q <+: pre) →
    pre <+: q

theorem leafsExact_of_noLeafBeside {t : TreeSet T} (hw : t.root.WellFormed) {pre : List T}
    (h : t.NoLeafBeside pre) : t.LeafsExact pre := by
  refine ⟨t.leavesVisited pre, leavesVisited_pairwise hw pre, fun q m => ?_, leafs_eq t pre⟩
  rw [mem_leavesVisited_iff hw]
  refine and_congr_right fun hne => and_congr_right fun hm => and_congr_right fun hleaf => ?_
  refine ⟨fun hreached => ?_, fun hpre => .inr (.inr (.inr hpre))⟩
  rcases hreached with rfl | hone | habove | hbelow
  · exact List.nil_prefix
  · exact h q m hne hm hleaf (.inl hone)
  · exact h q m hne hm hleaf (.inr habove)
  · exact hbelow

/-- An answer with one value too many is too long. -/
theorem noLeafBeside_of_leafsExact {t : TreeSet T} (hw : t.root.WellFormed) {pre : List T}
    (h : t.LeafsExact pre) : t.NoLeafBeside pre := by
  obtain ⟨xs, hxs, hmem, hleafs⟩ := h
  intro q m hne hm hleaf hstray
  have hlength : (t.leavesVisited pre).length = xs.length := by
    have heq := congrArg List.length ((leafs_eq t pre).symm.trans hleafs)
    rwa [List.length_map, List.length_map] at heq
  -- what is asked for is among what is visited, so by the lengths it is all of it
  have hnodup : xs.Nodup := by
    have hne := hxs.imp (S := (· ≠ ·)) fun hlt => hlt.ne
    exact List.Nodup.of_map Prod.fst hne
  have hsub : xs ⊆ t.leavesVisited pre := by
    intro x hx
    obtain ⟨hne, hm, hleaf, hpre⟩ := (hmem x.1 x.2).mp hx
    exact (mem_leavesVisited_iff hw).mpr ⟨hne, hm, hleaf, .inr (.inr (.inr hpre))⟩
  have hperm := (hnodup.subperm hsub).perm_of_length_le hlength.le
  have hvisited : (q, m) ∈ t.leavesVisited pre :=
    (mem_leavesVisited_iff hw).mpr ⟨hne, hm, hleaf, .inr (hstray.imp_right .inl)⟩
  exact ((hmem q m).mp (hperm.mem_iff.mpr hvisited)).2.2.2

/-! ## Extracts -/

/--
An extract has the nodes on the branch of the prefix down to a depth below it, with their
values and hashes, and no others. The roots aside, which carry no value of a set.
-/
def ExtractExact [Xxh3] [AsRef T] [Inhabited T] (t : TreeSet T) (pre : List T)
    (depth : UInt64) : Prop :=
  ∀ q, q ≠ [] → ((t.extract pre depth).root.node? q).map Node.label
    = if q.length ≤ pre.length + depth.toNat ∧ Comparable q pre
      then (t.root.node? q).map Node.label else none

end TreeSet

namespace Node

/-- At a path the value is known, so the hash is all there is to compare. -/
theorem map_label_eq_iff_hashAt {n m : Node T} {q : List T} (hq : q ≠ []) :
    (n.node? q).map label = (m.node? q).map label ↔ n.hashAt q = m.hashAt q := by
  obtain ⟨p, value, rfl⟩ := (List.eq_nil_or_concat' q).resolve_left hq
  -- the label is the value and the hash, and the value is the path's last
  have hlabel : ∀ x : Node T, (x.node? (p ++ [value])).map label
      = (x.hashAt (p ++ [value])).map fun hash => (value, hash) := by
    intro x
    rw [hashAt, Option.map_map]
    refine Option.map_congr fun c hc => ?_
    rw [label, value_of_node? hc]
    rfl
  rw [hlabel, hlabel]
  have hinj : Function.Injective fun hash : UInt64 => (value, hash) :=
    fun _ _ h => (Prod.mk.inj h).2
  exact (Option.map_injective hinj).eq_iff

theorem map_label_eq_none_iff {n : Node T} {q : List T} :
    (n.node? q).map label = none ↔ n.hashAt q = none := by
  rw [hashAt, Option.map_eq_none_iff, Option.map_eq_none_iff]

theorem hashAt_ne_none_iff {n : Node T} {q : List T} : n.hashAt q ≠ none ↔ q ∈ n.paths := by
  rw [hashAt, ne_eq, Option.map_eq_none_iff, mem_paths_iff]
  exact Option.ne_none_iff_exists'

end Node

namespace TreeSet

variable [Xxh3] [AsRef T] [Inhabited T]

omit [Xxh3] [AsRef T] [Inhabited T] [LinearOrder T] in
theorem singleton_comparable_iff {pre : List T} {value : T} (hpre : pre ≠ []) :
    Comparable [value] pre ↔ [value] <+: pre := by
  refine ⟨fun h => h.elim id fun hle => ?_, .inl⟩
  obtain ⟨k, rest, rfl⟩ := List.exists_cons_of_ne_nil hpre
  obtain ⟨rfl, hrest⟩ := List.cons_prefix_cons.mp hle
  rw [List.prefix_nil.mp hrest]

/-- An extract is exact when a visit accepts the nodes that are asked for. -/
theorem extractExact_iff_reached {t : TreeSet T} (hw : t.root.WellFormed) {pre : List T}
    {depth : UInt64} : t.ExtractExact pre depth ↔ ∀ q ∈ t.root.paths, q ≠ [] →
      (Node.Reached (accepts pre (UInt64.ofNat pre.length + depth)) [] q
        ↔ q.length ≤ pre.length + depth.toNat ∧ Comparable q pre) := by
  refine ⟨fun h q hq hne => ?_, fun h q hne => ?_⟩
  · obtain ⟨hin, hout⟩ := hashAt_extract hw pre depth hne
    have hthere := Node.hashAt_ne_none_iff.mpr hq
    have hexact := h q hne
    refine ⟨fun hreached => ?_, fun hasked => by_contra fun hreached => ?_⟩
    · by_contra hasked
      rw [if_neg hasked, Node.map_label_eq_none_iff, hin hreached] at hexact
      exact hthere hexact
    · rw [if_pos hasked, Node.map_label_eq_iff_hashAt hne, hout hreached] at hexact
      exact hthere hexact.symm
  · obtain ⟨hin, hout⟩ := hashAt_extract hw pre depth hne
    by_cases hq : q ∈ t.root.paths
    · have hiff := h q hq hne
      split
      · rename_i hasked
        exact (Node.map_label_eq_iff_hashAt hne).mpr (hin (hiff.mpr hasked))
      · rename_i hasked
        exact Node.map_label_eq_none_iff.mpr (hout fun hreached => hasked (hiff.mp hreached))
    · -- what is not in the tree is in no extract
      have hnot : t.root.hashAt q = none := by_contra fun hne => hq (Node.hashAt_ne_none_iff.mp hne)
      have hextract : (t.extract pre depth).root.hashAt q = none := by
        by_cases hreached : Node.Reached (accepts pre (UInt64.ofNat pre.length + depth)) [] q
        · exact (hin hreached).trans hnot
        · exact hout hreached
      rw [Node.map_label_eq_none_iff.mpr hextract, Node.map_label_eq_none_iff.mpr hnot, ite_self]

omit [Xxh3] [AsRef T] [Inhabited T] [LinearOrder T] in
theorem toNat_maxLen (pre : List T) (depth : UInt64) :
    (UInt64.ofNat pre.length + depth).toNat = (pre.length + depth.toNat) % 2 ^ 64 := by
  rw [UInt64.toNat_add, UInt64.toNat_ofNat', Nat.mod_add_mod]

/--
**Where `extract` is exact.** For any tree that the calls built, the extract has the nodes on
the branch of the prefix and no others exactly when the length limit does not wrap below one
of them, and no node of the first level is beside the prefix while anything is extracted.
-/
theorem extract_exact_iff (ops : List (TreeOp T)) (pre : List T) (depth : UInt64) :
    (build ops).ExtractExact pre depth
      ↔ (∀ q ∈ (build ops).root.paths, Comparable q pre → q.length ≤ pre.length + depth.toNat →
          q.length ≤ (pre.length + depth.toNat) % 2 ^ 64)
        ∧ (pre = [] ∨ (pre.length + depth.toNat) % 2 ^ 64 = 0
          ∨ ∀ value, [value] ∈ (build ops).root.paths → [value] <+: pre) := by
  rw [extractExact_iff_reached (wellFormed_build ops)]
  have hreached : ∀ {q : List T}, q ≠ [] →
      (Node.Reached (accepts pre (UInt64.ofNat pre.length + depth)) [] q
        ↔ (pre = [] ∨ q.length = 1 ∨ Comparable q pre)
          ∧ q.length ≤ (pre.length + depth.toNat) % 2 ^ 64) :=
    fun hne => by rw [reached_accepts_iff hne, toNat_maxLen]
  have hle := Nat.mod_le (pre.length + depth.toNat) (2 ^ 64)
  refine ⟨fun h => ⟨fun q hq hbranch hlen => ?_, ?_⟩, fun ⟨hwrap, hfirst⟩ q hq hne => ?_⟩
  · -- what is asked for is reached, and nothing is reached below the wrapped limit
    by_cases hne : q = []
    · rw [hne]; exact Nat.zero_le _
    · exact ((hreached hne).mp ((h q hq hne).mpr ⟨hlen, hbranch⟩)).2
  · -- a node of the first level is reached wherever the prefix goes
    by_contra hnone
    simp only [not_or, not_forall] at hnone
    obtain ⟨hpre, hpos, value, hvalue, hbeside⟩ := hnone
    have hne := List.cons_ne_nil value []
    have hlimit : [value].length ≤ (pre.length + depth.toNat) % 2 ^ 64 := Nat.pos_of_ne_zero hpos
    have hasked := (h [value] hvalue hne).mp ((hreached hne).mpr ⟨.inr (.inl rfl), hlimit⟩)
    exact hbeside ((singleton_comparable_iff hpre).mp hasked.2)
  · rw [hreached hne]
    refine ⟨fun ⟨hacc, hlen⟩ => ⟨hlen.trans hle, ?_⟩, fun ⟨hlen, hbranch⟩ =>
      ⟨.inr (.inr hbranch), hwrap q hq hbranch hlen⟩⟩
    rcases hacc with rfl | hone | hbranch
    · exact .inr List.nil_prefix
    · obtain ⟨value, rfl⟩ := List.length_eq_one_iff.mp hone
      rcases hfirst with rfl | hzero | hfirst
      · exact .inr List.nil_prefix
      · rw [hzero, hone] at hlen; omega
      · exact .inl (hfirst value hq)
    · exact hbranch

/--
**Where `leafs` is exact.** For any tree that the calls built and any prefix, the answer is
the values of the childless nodes at or below the prefix, each once and in order, exactly
when no childless node of the first level, or on the way to the prefix, is outside of it.
-/
theorem leafs_exact_iff (ops : List (TreeOp T)) (pre : List T) :
    (build ops).LeafsExact pre ↔ (build ops).NoLeafBeside pre :=
  ⟨noLeafBeside_of_leafsExact (wellFormed_build ops),
    leafsExact_of_noLeafBeside (wellFormed_build ops)⟩

end TreeSet

end

/-! ## Examples -/

section Examples

open Sample TreeSet

attribute [local instance] Sample.asRefBytes Sample.xxh3

/-- What is asked for is below `[1]`, what is extracted has `[3]` too. -/
theorem extract_not_exact :
    ¬ (build [.insert [[1]] ([2] : Bytes), .insert [[3]] [4]]).ExtractExact [[1]] 1 := by
  intro h
  have hbeside := h [[3]] (by decide)
  revert hbeside
  decide +kernel

/-- Of a leaf next to a prefix and one on the way to a longer one, neither is below. -/
theorem leafs_not_exact :
    ¬ (build [.insert [] ([1] : Bytes), .insert [[2]] [3]]).LeafsExact [[2]]
    ∧ ¬ (build [.insert [[1]] ([2] : Bytes)]).LeafsExact [[1], [2], [3]] := by
  refine ⟨fun h => ?_, fun h => ?_⟩
  · have hpre := noLeafBeside_of_leafsExact (wellFormed_build _) h [[1]] _ (by decide) rfl rfl
      (.inl rfl)
    exact absurd hpre (by decide)
  · have hpre := noLeafBeside_of_leafsExact (wellFormed_build _) h [[1], [2]] _ (by decide) rfl rfl
      (.inr (by decide))
    exact absurd hpre (by decide)

end Examples

end Mintpool
