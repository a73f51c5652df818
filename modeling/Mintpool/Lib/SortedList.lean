import Mathlib.Order.Compare
import Mathlib.Data.List.Pairwise
import Mathlib.Order.Lattice

/-!
# Lists sorted by a key

A list whose keys strictly increase is a finite map: a binary search says where an
element is or where it would go, and a search followed by an insertion amounts to one
update of the map. Everything about the update is stated through `lookupBy`.
-/

namespace Mintpool.Lib

variable {α β κ : Type} [LinearOrder κ]

/-- Strictly increasing in key. -/
def SortedBy (key : α → κ) (xs : List α) : Prop := xs.Pairwise (fun x y => key x < key y)

/-- The element with a key, if there is one. -/
def lookupBy (key : α → κ) (k : κ) (xs : List α) : Option α := xs.find? (fun x => key x = k)

section Lookup

variable {key : α → κ} {k : κ} {x : α} {xs : List α}

@[simp] theorem lookupBy_nil : lookupBy key k [] = none := rfl

theorem lookupBy_cons :
    lookupBy key k (x :: xs) = if key x = k then some x else lookupBy key k xs := by
  by_cases h : key x = k <;> simp [lookupBy, h]

theorem lookupBy_cons_of_ne (h : key x ≠ k) : lookupBy key k (x :: xs) = lookupBy key k xs := by
  rw [lookupBy_cons, if_neg h]

theorem lookupBy_some (h : lookupBy key k xs = some x) : x ∈ xs ∧ key x = k :=
  ⟨List.mem_of_find?_eq_some h, by simpa using List.find?_some h⟩

theorem lookupBy_eq_none_iff : lookupBy key k xs = none ↔ ∀ x ∈ xs, key x ≠ k := by
  simp [lookupBy, List.find?_eq_none]

theorem sortedBy_cons_iff : SortedBy key (x :: xs) ↔ (∀ y ∈ xs, key x < key y) ∧ SortedBy key xs :=
  List.pairwise_cons

/-- Keys that are strictly increasing are distinct, so an element is found under its key. -/
theorem SortedBy.lookupBy_self (hs : SortedBy key xs) (hx : x ∈ xs) :
    lookupBy key (key x) xs = some x := by
  induction xs with
  | nil => exact absurd hx (by simp)
  | cons y ys ih =>
      obtain ⟨hy, hys⟩ := sortedBy_cons_iff.mp hs
      rw [lookupBy_cons]
      rcases List.mem_cons.mp hx with rfl | hx'
      · rw [if_pos rfl]
      · rw [if_neg (hy x hx').ne, ih hys hx']

theorem lookupBy_eq_none_of_lt (h : ∀ x ∈ xs, k < key x) : lookupBy key k xs = none :=
  lookupBy_eq_none_iff.mpr fun x hx => (h x hx).ne'

end Lookup

/--
**Two sorted lists that agree under every key agree element by element.** Agreement is up
to a relation, so that the elements may themselves be compared later.
-/
theorem forall₂_of_lookupBy {key : α → κ} {key' : β → κ} {R : α → β → Prop} :
    ∀ {xs : List α} {ys : List β}, SortedBy key xs → SortedBy key' ys →
      (∀ k, Option.Rel R (lookupBy key k xs) (lookupBy key' k ys)) → List.Forall₂ R xs ys := by
  intro xs
  induction xs with
  | nil =>
      intro ys _ hys h
      cases ys with
      | nil => exact .nil
      | cons y ys =>
          have hy := h (key' y)
          rw [lookupBy_nil, hys.lookupBy_self List.mem_cons_self] at hy
          nomatch hy
  | cons x xs ih =>
      intro ys hxs hys h
      cases ys with
      | nil =>
          have hx := h (key x)
          rw [lookupBy_nil, hxs.lookupBy_self List.mem_cons_self] at hx
          nomatch hx
      | cons y ys =>
          obtain ⟨hx, hxs'⟩ := sortedBy_cons_iff.mp hxs
          obtain ⟨hy, hys'⟩ := sortedBy_cons_iff.mp hys
          have hhead := h (key x)
          have hhead' := h (key' y)
          rw [hxs.lookupBy_self List.mem_cons_self] at hhead
          rw [hys.lookupBy_self List.mem_cons_self] at hhead'
          -- the smaller of the two first keys would be missing from the other list
          have hk : key x = key' y := by
            rcases lt_trichotomy (key x) (key' y) with hlt | heq | hgt
            · have habove : ∀ z ∈ y :: ys, key x < key' z :=
                List.forall_mem_cons.mpr ⟨hlt, fun z hz => hlt.trans (hy z hz)⟩
              rw [lookupBy_eq_none_of_lt habove] at hhead
              nomatch hhead
            · exact heq
            · have habove : ∀ z ∈ x :: xs, key' y < key z :=
                List.forall_mem_cons.mpr ⟨hgt, fun z hz => hgt.trans (hx z hz)⟩
              rw [lookupBy_eq_none_of_lt habove] at hhead'
              nomatch hhead'
          rw [hk, hys.lookupBy_self List.mem_cons_self] at hhead
          refine .cons (by cases hhead; assumption) (ih hxs' hys' fun k => ?_)
          by_cases hkx : key x = k
          · rw [lookupBy_eq_none_of_lt (hkx ▸ hx), lookupBy_eq_none_of_lt (hkx ▸ hk ▸ hy)]
            exact .none
          · have hk' := h k
            rwa [lookupBy_cons_of_ne hkx, lookupBy_cons_of_ne (hk ▸ hkx)] at hk'

/-- Conversely, related lists with the same keys agree under every key. -/
theorem lookupBy_of_forall₂ {key : α → κ} {key' : β → κ} {R : α → β → Prop} {xs : List α}
    {ys : List β} (hkey : ∀ x y, R x y → key x = key' y) (h : List.Forall₂ R xs ys) (k : κ) :
    Option.Rel R (lookupBy key k xs) (lookupBy key' k ys) := by
  induction h with
  | nil => exact .none
  | @cons x y xs ys hxy _ ih =>
      rw [lookupBy_cons, lookupBy_cons, hkey x y hxy]
      by_cases hk : key' y = k
      · rw [if_pos hk, if_pos hk]; exact .some hxy
      · rw [if_neg hk, if_neg hk]; exact ih

/-! ## Search, and search then insert -/

/--
`slice::binary_search_by`: the index of an element that compares equal, or the index
where one could be inserted to keep the order.
-/
def binarySearchBy (f : α → Ordering) : List α → Except Nat Nat
  | [] => .error 0
  | x :: xs =>
    match f x with
    | .eq => .ok 0
    | .gt => .error 0
    | .lt =>
      match binarySearchBy f xs with
      | .ok i => .ok (i + 1)
      | .error i => .error (i + 1)

/-- **A search in a sorted list finds the key, or the place between smaller and larger ones.** -/
theorem binarySearchBy_spec {key : α → κ} (k : κ) : ∀ {xs : List α}, SortedBy key xs →
    match binarySearchBy (fun x => compare (key x) k) xs with
    | .ok i => (xs[i]?).map key = some k
    | .error i => (∀ x ∈ xs.take i, key x < k) ∧ ∀ x ∈ xs.drop i, k < key x := by
  intro xs
  induction xs with
  | nil => intro _; exact ⟨by simp, by simp⟩
  | cons x xs ih =>
      intro h
      obtain ⟨hx, hxs⟩ := sortedBy_cons_iff.mp h
      have hrest := ih hxs
      rw [binarySearchBy]
      cases hc : compare (key x) k with
      | eq => simpa using compare_eq_iff_eq.mp hc
      | gt =>
          -- all that follows is greater still
          have hlt : k < key x := compare_gt_iff_gt.mp hc
          refine ⟨by simp, fun y hy => ?_⟩
          rcases List.mem_cons.mp hy with rfl | hy
          · exact hlt
          · exact hlt.trans (hx y hy)
      | lt =>
          -- the rest of the list is searched, and what precedes it is smaller
          have hlt : key x < k := compare_lt_iff_lt.mp hc
          cases hr : binarySearchBy (fun x => compare (key x) k) xs with
          | ok i => rw [hr] at hrest; simpa using hrest
          | error i =>
              rw [hr] at hrest
              refine ⟨fun y hy => ?_, hrest.2⟩
              rcases List.mem_cons.mp hy with rfl | hy
              · exact hlt
              · exact hrest.1 y hy

/-- Apply `f` to the element with key `k`, after inserting `new` where there is none. -/
def upsertBy (key : α → κ) (k : κ) (new : α) (f : α → α) : List α → List α
  | [] => [f new]
  | x :: xs =>
    match compare (key x) k with
    | .eq => f x :: xs
    | .gt => f new :: x :: xs
    | .lt => x :: upsertBy key k new f xs

section Upsert

variable {key : α → κ} {k : κ} {new : α} {f : α → α}

/-- A search that finds the key, then a change in place. -/
theorem upsertBy_of_ok : ∀ {xs : List α} {i : Nat},
    binarySearchBy (fun x => compare (key x) k) xs = .ok i →
      upsertBy key k new f xs = xs.modify i f := by
  intro xs
  induction xs with
  | nil => intro i h; nomatch h
  | cons x xs ih =>
      intro i h
      simp only [binarySearchBy] at h
      simp only [upsertBy]
      cases hc : compare (key x) k with
      | eq => rw [hc] at h; cases h; rfl
      | gt => rw [hc] at h; nomatch h
      | lt =>
          rw [hc] at h
          cases hr : binarySearchBy (fun x => compare (key x) k) xs with
          | error j => rw [hr] at h; nomatch h
          | ok j => rw [hr] at h; cases h; simp only [ih hr, List.modify_succ_cons]

/-- A search that misses, an insertion where it points, then a change of what was inserted. -/
theorem upsertBy_of_error : ∀ {xs : List α} {i : Nat},
    binarySearchBy (fun x => compare (key x) k) xs = .error i →
      upsertBy key k new f xs = (xs.insertIdx i new).modify i f := by
  intro xs
  induction xs with
  | nil => intro i h; cases h; rfl
  | cons x xs ih =>
      intro i h
      simp only [binarySearchBy] at h
      simp only [upsertBy]
      cases hc : compare (key x) k with
      | eq => rw [hc] at h; nomatch h
      | gt => rw [hc] at h; cases h; rfl
      | lt =>
          rw [hc] at h
          cases hr : binarySearchBy (fun x => compare (key x) k) xs with
          | ok j => rw [hr] at h; nomatch h
          | error j =>
              rw [hr] at h
              cases h
              simp only [ih hr, List.insertIdx_succ_cons, List.modify_succ_cons]

/-- **An upsert changes what is under its key, and nothing else.** -/
theorem lookupBy_upsertBy {k' : κ} (hf : ∀ x, key x = k → key (f x) = k) (hnew : key new = k) :
    ∀ {xs : List α}, SortedBy key xs →
      lookupBy key k' (upsertBy key k new f xs)
        = if k' = k then some (f ((lookupBy key k xs).getD new)) else lookupBy key k' xs := by
  intro xs
  induction xs with
  | nil =>
      intro _
      simp only [upsertBy, lookupBy_cons, lookupBy_nil, hf new hnew, Option.getD_none,
        @eq_comm _ k']
  | cons x xs ih =>
      intro hs
      obtain ⟨hx, hxs⟩ := sortedBy_cons_iff.mp hs
      simp only [upsertBy]
      cases hc : compare (key x) k with
      | eq =>
          -- this is the entry, and it is updated in place
          have hk : key x = k := compare_eq_iff_eq.mp hc
          by_cases h : k' = k
          · simp [lookupBy_cons, hf x hk, hk, h]
          · simp [lookupBy_cons, hf x hk, hk, h, Ne.symm h]
      | gt =>
          -- the key is missing, and this is its place
          have hk : k < key x := compare_gt_iff_gt.mp hc
          have hnone : lookupBy key k (x :: xs) = none :=
            lookupBy_eq_none_of_lt
              (List.forall_mem_cons.mpr ⟨hk, fun y hy => hk.trans (hx y hy)⟩)
          rw [hnone, lookupBy_cons, hf new hnew, Option.getD_none]
          by_cases h : k' = k
          · rw [if_pos h.symm, if_pos h]
          · rw [if_neg (Ne.symm h), if_neg h]
      | lt =>
          -- its place is further on
          have hk : key x ≠ k := (compare_lt_iff_lt.mp hc).ne
          simp only [lookupBy_cons, ih hxs, if_neg hk]
          by_cases h : k' = k
          · simp only [if_pos h, if_neg (h ▸ hk)]
          · simp only [if_neg h]

theorem mem_upsertBy : ∀ {xs : List α} {y : α}, y ∈ upsertBy key k new f xs →
    y = f new ∨ (∃ x ∈ xs, key x = k ∧ y = f x) ∨ y ∈ xs := by
  intro xs
  induction xs with
  | nil => intro y hy; exact .inl (by simpa [upsertBy] using hy)
  | cons x xs ih =>
      intro y hy
      simp only [upsertBy] at hy
      cases hc : compare (key x) k with
      | eq =>
          rw [hc] at hy
          rcases List.mem_cons.mp hy with rfl | hy
          · exact .inr (.inl ⟨x, List.mem_cons_self, compare_eq_iff_eq.mp hc, rfl⟩)
          · exact .inr (.inr (List.mem_cons_of_mem _ hy))
      | gt =>
          rw [hc] at hy
          rcases List.mem_cons.mp hy with rfl | hy
          · exact .inl rfl
          · exact .inr (.inr hy)
      | lt =>
          rw [hc] at hy
          rcases List.mem_cons.mp hy with rfl | hy
          · exact .inr (.inr List.mem_cons_self)
          · rcases ih hy with h | ⟨z, hz, hk, h⟩ | h
            · exact .inl h
            · exact .inr (.inl ⟨z, List.mem_cons_of_mem _ hz, hk, h⟩)
            · exact .inr (.inr (List.mem_cons_of_mem _ h))

/-- And it keeps the list sorted. -/
theorem SortedBy.upsertBy (hf : ∀ x, key x = k → key (f x) = k) (hnew : key new = k) :
    ∀ {xs : List α}, SortedBy key xs → SortedBy key (upsertBy key k new f xs) := by
  intro xs
  induction xs with
  | nil => intro _; exact List.pairwise_singleton _ _
  | cons x xs ih =>
      intro hs
      obtain ⟨hx, hxs⟩ := sortedBy_cons_iff.mp hs
      simp only [Lib.upsertBy]
      cases hc : compare (key x) k with
      | eq =>
          have hk : key x = k := compare_eq_iff_eq.mp hc
          exact sortedBy_cons_iff.mpr ⟨fun y hy => by rw [hf x hk, ← hk]; exact hx y hy, hxs⟩
      | gt =>
          have hk : k < key x := compare_gt_iff_gt.mp hc
          refine sortedBy_cons_iff.mpr ⟨?_, hs⟩
          rw [hf new hnew]
          exact List.forall_mem_cons.mpr ⟨hk, fun y hy => hk.trans (hx y hy)⟩
      | lt =>
          have hk : key x < k := compare_lt_iff_lt.mp hc
          refine sortedBy_cons_iff.mpr ⟨fun y hy => ?_, ih hxs⟩
          -- what comes after the first is new, updated or was there
          rcases mem_upsertBy hy with rfl | ⟨z, hz, hkz, rfl⟩ | hy
          · rw [hf new hnew]; exact hk
          · rw [hf z hkz]; exact hk
          · exact hx y hy

end Upsert

end Mintpool.Lib
