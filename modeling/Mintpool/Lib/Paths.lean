import Mathlib.Data.List.Induction
import Mathlib.Data.List.Lex
import Mathlib.Data.Set.Basic

/-!
# Sets of paths closed under prefixes

What a tree whose edges are labelled says about the world: which paths exist. Such a set
contains every initial segment of its members, and two of them differ *first* at their
frontier — the paths that one has, the other lacks, and whose parent both have. Knowing
the frontier is knowing where the sets differ, because every difference lies at or below
a point of it.

Where the labels are ordered, so are the paths: a path comes after its initial segments, and
where two paths part, the labels there decide.
-/

namespace Mintpool.Lib

variable {α : Type}

/-- A set of paths that contains the prefixes of its members. -/
structure PathSet (α : Type) where
  carrier : Set (List α)
  closed : ∀ {p q : List α}, p ∈ carrier → q <+: p → q ∈ carrier

namespace PathSet

instance : Membership (List α) (PathSet α) := ⟨fun s p => p ∈ s.carrier⟩

theorem ext {s s' : PathSet α} (h : ∀ p, p ∈ s ↔ p ∈ s') : s = s' := by
  cases s; cases s'
  congr
  exact Set.ext h

theorem prefix_mem {s : PathSet α} {p q : List α} (h : p ∈ s) (hq : q <+: p) : q ∈ s :=
  s.closed h hq

/-- The initial segments of some paths. -/
def closure (full : Set (List α)) : PathSet α where
  carrier := {q | ∃ p ∈ full, q <+: p}
  closed := fun ⟨p, hp, hq⟩ hq' => ⟨p, hp, hq'.trans hq⟩

theorem mem_closure_iff {full : Set (List α)} {q : List α} :
    q ∈ closure full ↔ ∃ p ∈ full, q <+: p := Iff.rfl

/-- The paths that `s` has, `s'` lacks, and whose parent `s'` still has. -/
def frontier (s s' : PathSet α) : Set (List α) :=
  {p | p ∈ s ∧ p ∉ s' ∧ p ≠ [] ∧ p.dropLast ∈ s'}

theorem mem_frontier_iff {s s' : PathSet α} {p : List α} :
    p ∈ frontier s s' ↔ p ∈ s ∧ p ∉ s' ∧ p ≠ [] ∧ p.dropLast ∈ s' := Iff.rfl

/-- **Every path that only one of two sets has lies at or below their frontier.** -/
theorem exists_mem_frontier {s s' : PathSet α} (hroot : [] ∈ s') {p : List α} (hp : p ∈ s)
    (hp' : p ∉ s') : ∃ q ∈ frontier s s', q <+: p := by
  induction p using List.reverseRecOn with
  | nil => exact absurd hroot hp'
  | append_singleton p k ih =>
      have hpre : p <+: p ++ [k] := List.prefix_append p [k]
      by_cases h : p ∈ s'
      · exact ⟨p ++ [k], ⟨hp, hp', by simp, by simpa using h⟩, List.prefix_rfl⟩
      · obtain ⟨q, hq, hqp⟩ := ih (prefix_mem hp hpre) h
        exact ⟨q, hq, hqp.trans hpre⟩

/-- Without a frontier on either side, two sets with the root are equal. -/
theorem eq_of_frontier_eq_empty {s s' : PathSet α} (hs : [] ∈ s) (hs' : [] ∈ s')
    (h : ∀ p, p ∉ frontier s s') (h' : ∀ p, p ∉ frontier s' s) : s = s' := by
  refine ext fun p => ⟨fun hp => by_contra fun hp' => ?_, fun hp => by_contra fun hp' => ?_⟩
  · obtain ⟨q, hq, _⟩ := exists_mem_frontier hs' hp hp'
    exact h q hq
  · obtain ⟨q, hq, _⟩ := exists_mem_frontier hs hp hp'
    exact h' q hq

/-- The paths of `s` below an edge, seen from below it. -/
def below (s : PathSet α) (k : α) : PathSet α where
  carrier := {r | k :: r ∈ s}
  closed := fun h hq => s.closed h ((List.prefix_cons_inj k).mpr hq)

theorem mem_below_iff {s : PathSet α} {k : α} {r : List α} : r ∈ s.below k ↔ k :: r ∈ s := Iff.rfl

/-- The frontier either starts at an edge or lies in the frontier below it. -/
theorem cons_mem_frontier_iff {s s' : PathSet α} (hroot : [] ∈ s') {k : α} {r : List α} :
    k :: r ∈ frontier s s'
      ↔ (r = [] ∧ [k] ∈ s ∧ [k] ∉ s') ∨ r ∈ frontier (s.below k) (s'.below k) := by
  simp only [mem_frontier_iff, mem_below_iff]
  cases r with
  | nil => simp [hroot]
  | cons l r => simp [List.dropLast_cons_of_ne_nil]

end PathSet

/-! ## Paths on one branch -/

/-- One of the paths is an initial segment of the other. -/
def Comparable (p q : List α) : Prop := p <+: q ∨ q <+: p

instance [DecidableEq α] (p q : List α) : Decidable (Comparable p q) :=
  inferInstanceAs (Decidable (_ ∨ _))

theorem Comparable.of_prefix {p q r : List α} (h : Comparable p q) (hr : r <+: p) :
    Comparable r q := by
  rcases h with hpq | hqp
  · exact .inl (hr.trans hpq)
  · exact List.prefix_or_prefix_of_prefix hr hqp

/-- Two paths are on one branch when they agree as far as both go. -/
theorem take_min_eq_take_min_iff {p q : List α} :
    p.take (min p.length q.length) = q.take (min p.length q.length) ↔ Comparable p q := by
  rcases Nat.le_total p.length q.length with hle | hle
  · rw [Nat.min_eq_left hle, List.take_length, ← List.prefix_iff_eq_take]
    refine ⟨.inl, fun h => h.elim id fun hqp => ?_⟩
    exact (hqp.eq_of_length (Nat.le_antisymm hqp.length_le hle)) ▸ List.prefix_rfl
  · rw [Nat.min_eq_right hle, List.take_length, eq_comm, ← List.prefix_iff_eq_take]
    refine ⟨.inr, fun h => h.elim (fun hpq => ?_) id⟩
    exact (hpq.eq_of_length (Nat.le_antisymm hpq.length_le hle)) ▸ List.prefix_rfl

/-! ## The order of paths -/

section Order

variable [LinearOrder α] {p q q' : List α} {k k' : α}

theorem lt_of_append_prefix (h : p ++ [k] <+: q) : p < q := by
  obtain ⟨r, rfl⟩ := h
  have hlt : p ++ [] < p ++ ([k] ++ r) := List.append_left_lt (List.nil_lt_cons k r)
  rwa [List.append_nil, ← List.append_assoc] at hlt

/-- Paths that part at `p` are ordered as the labels there are. -/
theorem lt_of_fork (hlt : k < k') (h : p ++ [k] <+: q) (h' : p ++ [k'] <+: q') : q < q' := by
  obtain ⟨r, rfl⟩ := h
  obtain ⟨r', rfl⟩ := h'
  rw [List.append_assoc, List.append_assoc]
  exact List.append_left_lt (List.cons_lt_cons_iff.mpr (.inl hlt))

end Order

end Mintpool.Lib
