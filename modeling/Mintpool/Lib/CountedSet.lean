import Mathlib.Data.Set.Card

/-!
# Sets with a counter beside them

A set that grows by new elements and shrinks by whatever it is told to take out, with a
counter that goes up by one and down by one each time. The counter does not look at the
set, so it never runs ahead of the set's size, and it falls behind, for good, each time
something is taken out that was not in.
-/

namespace Mintpool.Lib

structure CountedSet (α : Type) where
  elems : Set α
  count : ℕ

namespace CountedSet

variable {α : Type} {c : CountedSet α} {a : α}

/-- Put in an element, and count it. -/
def insert (c : CountedSet α) (a : α) : CountedSet α := ⟨Insert.insert a c.elems, c.count + 1⟩

/-- Take an element out, and count it off, whether it was in or not. -/
def erase (c : CountedSet α) (a : α) : CountedSet α := ⟨c.elems \ {a}, c.count - 1⟩

@[simp] theorem insert_count : (c.insert a).count = c.count + 1 := rfl

@[simp] theorem erase_count : (c.erase a).count = c.count - 1 := rfl

/-- The counter is the size of the set. -/
def Exact (c : CountedSet α) : Prop := c.elems.encard = c.count

/-- The counter is at most the size of the set. -/
def Behind (c : CountedSet α) : Prop := (c.count : ℕ∞) ≤ c.elems.encard

theorem Exact.behind (h : c.Exact) : c.Behind := ge_of_eq h

theorem cast_succ (n : ℕ) : ((n + 1 : ℕ) : ℕ∞) = (n : ℕ∞) + 1 := by push_cast; rfl

theorem cast_pred_succ {n : ℕ} (hpos : 0 < n) : ((n - 1 : ℕ) : ℕ∞) + 1 = (n : ℕ∞) := by
  rw [← cast_succ, Nat.sub_add_cancel hpos]

theorem encard_insert (h : a ∉ c.elems) : (c.insert a).elems.encard = c.elems.encard + 1 :=
  Set.encard_insert_of_notMem h

theorem behind_insert (h : a ∉ c.elems) (hb : c.Behind) : (c.insert a).Behind := by
  rw [Behind, encard_insert h, insert_count, cast_succ]
  exact add_le_add_left hb 1

theorem exact_insert_iff (h : a ∉ c.elems) : (c.insert a).Exact ↔ c.Exact := by
  rw [Exact, encard_insert h, insert_count, cast_succ, Exact]
  exact ENat.add_left_injective_of_ne_top ENat.one_ne_top |>.eq_iff

/-- With room to count down, what is taken out and was in keeps the distance. -/
theorem exact_erase_of_mem (h : a ∈ c.elems) (hpos : 0 < c.count) :
    (c.erase a).Exact ↔ c.Exact := by
  have hsize := Set.encard_sdiff_singleton_add_one h
  rw [Exact, Exact, ← hsize, ← cast_pred_succ hpos]
  exact (ENat.add_left_injective_of_ne_top ENat.one_ne_top |>.eq_iff).symm

theorem behind_erase_of_mem (h : a ∈ c.elems) (hpos : 0 < c.count) (hb : c.Behind) :
    (c.erase a).Behind := by
  have hsize := Set.encard_sdiff_singleton_add_one h
  rw [Behind, ← hsize, ← cast_pred_succ hpos] at hb
  exact (ENat.add_le_add_iff_right ENat.one_ne_top).mp hb

theorem erase_elems_of_notMem (h : a ∉ c.elems) : (c.erase a).elems = c.elems :=
  Set.sdiff_singleton_eq_self h

/-- **Taking out what is not in leaves the counter behind.** -/
theorem not_exact_erase (h : a ∉ c.elems) (hpos : 0 < c.count) (hb : c.Behind) :
    ¬ (c.erase a).Exact := by
  intro hex
  rw [Exact, erase_elems_of_notMem h] at hex
  rw [Behind, hex] at hb
  have hlt : c.count ≤ c.count - 1 := ENat.natCast_le_natCast.mp hb
  omega

theorem behind_erase (hpos : 0 < c.count) (hb : c.Behind) : (c.erase a).Behind := by
  by_cases h : a ∈ c.elems
  · exact behind_erase_of_mem h hpos hb
  · rw [Behind, erase_elems_of_notMem h]
    exact le_trans (ENat.natCast_le_natCast.mpr (Nat.sub_le _ _)) hb

theorem exact_erase_iff (hpos : 0 < c.count) (hb : c.Behind) :
    (c.erase a).Exact ↔ c.Exact ∧ a ∈ c.elems := by
  by_cases h : a ∈ c.elems
  · rw [exact_erase_of_mem h hpos]
    exact ⟨fun hc => ⟨hc, h⟩, And.left⟩
  · exact ⟨fun hex => absurd hex (not_exact_erase h hpos hb), fun hc => absurd hc.2 h⟩

/-! ## Lists of elements -/

variable {l : List α}

theorem behind_foldl_erase (hlen : l.length ≤ c.count) (hb : c.Behind) :
    (l.foldl erase c).Behind := by
  induction l generalizing c with
  | nil => exact hb
  | cons a l ih =>
      rw [List.length_cons] at hlen
      have hpos : 0 < c.count := by omega
      exact ih (by rw [erase_count]; omega) (behind_erase hpos hb)

/-- **Taking out a list keeps the counter exact exactly when the list is in, without
repetitions.** -/
theorem exact_foldl_erase_iff (hlen : l.length ≤ c.count) (hb : c.Behind) :
    (l.foldl erase c).Exact ↔ c.Exact ∧ l.Nodup ∧ ∀ a ∈ l, a ∈ c.elems := by
  induction l generalizing c with
  | nil => simp
  | cons a l ih =>
      rw [List.length_cons] at hlen
      have hpos : 0 < c.count := by omega
      rw [List.foldl_cons, ih (by rw [erase_count]; omega) (behind_erase hpos hb),
        exact_erase_iff hpos hb, List.nodup_cons, List.forall_mem_cons]
      -- what is left to take out must be in, and must not be `a`, which is out by now
      have hrest : (∀ b ∈ l, b ∈ (c.erase a).elems) ↔ a ∉ l ∧ ∀ b ∈ l, b ∈ c.elems := by
        refine ⟨fun h => ⟨fun ha => (h a ha).2 rfl, fun b hb => (h b hb).1⟩, ?_⟩
        intro h b hb
        refine ⟨h.2 b hb, fun heq => h.1 ?_⟩
        rw [← Set.mem_singleton_iff.mp heq]
        exact hb
      rw [hrest]
      tauto

/-- A list of new elements is put in: all of them are new, and no two are the same. -/
def New (c : CountedSet α) (l : List α) : Prop := l.Nodup ∧ ∀ a ∈ l, a ∉ c.elems

theorem new_cons_iff : c.New (a :: l) ↔ a ∉ c.elems ∧ (c.insert a).New l := by
  have hrest : (∀ b ∈ l, b ∉ (c.insert a).elems) ↔ a ∉ l ∧ ∀ b ∈ l, b ∉ c.elems := by
    refine ⟨fun h => ⟨fun ha => h a ha (Set.mem_insert _ _), ?_⟩, ?_⟩
    · exact fun b hb hin => h b hb (Set.mem_insert_of_mem _ hin)
    · rintro ⟨ha, h⟩ b hb hin
      rcases Set.mem_insert_iff.mp hin with rfl | hin
      · exact ha hb
      · exact h b hb hin
  rw [New, New, List.nodup_cons, List.forall_mem_cons, hrest]
  tauto

theorem behind_foldl_insert (h : c.New l) (hb : c.Behind) : (l.foldl insert c).Behind := by
  induction l generalizing c with
  | nil => exact hb
  | cons a l ih =>
      obtain ⟨ha, hl⟩ := new_cons_iff.mp h
      exact ih hl (behind_insert ha hb)

theorem exact_foldl_insert_iff (h : c.New l) : (l.foldl insert c).Exact ↔ c.Exact := by
  induction l generalizing c with
  | nil => exact Iff.rfl
  | cons a l ih =>
      obtain ⟨ha, hl⟩ := new_cons_iff.mp h
      exact (ih hl).trans (exact_insert_iff ha)

end CountedSet

end Mintpool.Lib
