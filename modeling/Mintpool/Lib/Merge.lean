import Mathlib.Data.Finset.Sort
import Mathlib.Data.List.Destutter
import Mintpool.Lib.SortedList

/-!
# Walking two sorted lists side by side

The merge loop emits a chunk for each key, depending on which of the two lists has it.
One equation says what it computes — the chunks of the keys of both lists, in order —
and what is emitted, in which order, and when nothing is, follow from it by the lemmas
of `List.flatMap`.
-/

namespace Mintpool.Lib

variable {α β γ κ : Type} [LinearOrder κ]

/-- The merge loop over two lists that are sorted by key. -/
def mergeBy (key : α → κ) (key' : β → κ) (left : α → List γ) (right : β → List γ)
    (both : α → β → List γ) : List α → List β → List γ
  | x :: xs, y :: ys =>
    match compare (key x) (key' y) with
    | .eq => both x y ++ mergeBy key key' left right both xs ys
    | .lt => left x ++ mergeBy key key' left right both xs (y :: ys)
    | .gt => right y ++ mergeBy key key' left right both (x :: xs) ys
  | x :: xs, [] => left x ++ mergeBy key key' left right both xs []
  | [], y :: ys => right y ++ mergeBy key key' left right both [] ys
  | [], [] => []
termination_by xs ys => xs.length + ys.length

/-- Any loop that takes these steps is a merge. -/
theorem eq_mergeBy {key : α → κ} {key' : β → κ} {left : α → List γ} {right : β → List γ}
    {both : α → β → List γ} {loop : List α → List β → List γ}
    (heq : ∀ x xs y ys, compare (key x) (key' y) = .eq →
      loop (x :: xs) (y :: ys) = both x y ++ loop xs ys)
    (hlt : ∀ x xs y ys, compare (key x) (key' y) = .lt →
      loop (x :: xs) (y :: ys) = left x ++ loop xs (y :: ys))
    (hgt : ∀ x xs y ys, compare (key x) (key' y) = .gt →
      loop (x :: xs) (y :: ys) = right y ++ loop (x :: xs) ys)
    (hleft : ∀ x xs, loop (x :: xs) [] = left x ++ loop xs [])
    (hright : ∀ y ys, loop [] (y :: ys) = right y ++ loop [] ys) (hnil : loop [] [] = [])
    (xs : List α) (ys : List β) : loop xs ys = mergeBy key key' left right both xs ys := by
  induction xs, ys using mergeBy.induct key key' with
  | case1 x xs y ys hc ih => rw [mergeBy, hc, heq x xs y ys hc, ih]
  | case2 x xs y ys hc ih => rw [mergeBy, hc, hlt x xs y ys hc, ih]
  | case3 x xs y ys hc ih => rw [mergeBy, hc, hgt x xs y ys hc, ih]
  | case4 x xs ih => rw [mergeBy, hleft, ih]
  | case5 y ys ih => rw [mergeBy, hright, ih]
  | case6 => rw [mergeBy, hnil]

/-- What is emitted for one key, given what the two lists have under it. -/
def chunk (left : α → List γ) (right : β → List γ) (both : α → β → List γ) :
    Option α → Option β → List γ
  | some x, some y => both x y
  | some x, none => left x
  | none, some y => right y
  | none, none => []

/-- The keys of both lists, in order. -/
def mergedKeys (key : α → κ) (key' : β → κ) (xs : List α) (ys : List β) : List κ :=
  (xs.map key ++ ys.map key').toFinset.sort

section Keys

variable {key : α → κ} {key' : β → κ} {xs : List α} {ys : List β}

theorem mem_mergedKeys_iff {k : κ} :
    k ∈ mergedKeys key key' xs ys ↔ (∃ x ∈ xs, key x = k) ∨ ∃ y ∈ ys, key' y = k := by
  simp [mergedKeys]

theorem mergedKeys_congr {α' β' : Type} {l : α' → κ} {l' : β' → κ} {xs' : List α'}
    {ys' : List β'} (h : ∀ k, ((∃ x ∈ xs, key x = k) ∨ ∃ y ∈ ys, key' y = k)
      ↔ (∃ x ∈ xs', l x = k) ∨ ∃ y ∈ ys', l' y = k) :
    mergedKeys key key' xs ys = mergedKeys l l' xs' ys' := by
  unfold mergedKeys
  congr 1
  ext k
  simpa using h k

theorem mergedKeys_pairwise : (mergedKeys key key' xs ys).Pairwise (· < ·) :=
  (Finset.sortedLT_sort _).pairwise

/-- A key below all others goes first. -/
theorem mergedKeys_eq_cons (xs' : List α) (ys' : List β) (k : κ)
    (hsame : ∀ k', k' ∈ mergedKeys key key' xs ys ↔ k' = k ∨ k' ∈ mergedKeys key key' xs' ys')
    (hlt : ∀ k' ∈ mergedKeys key key' xs' ys', k < k') :
    mergedKeys key key' xs ys = k :: mergedKeys key key' xs' ys' := by
  have heq : (xs.map key ++ ys.map key').toFinset
      = insert k (xs'.map key ++ ys'.map key').toFinset := by
    ext k'
    simpa [mergedKeys] using hsame k'
  have hlt' : ∀ k' ∈ (xs'.map key ++ ys'.map key').toFinset, k < k' := by
    intro k' hk'
    exact hlt k' (by simpa [mergedKeys] using hk')
  rw [mergedKeys, heq, Finset.sort_insert _ (fun b hb => (hlt' b hb).le)
    (fun h => lt_irrefl k (hlt' k h)), mergedKeys]

theorem lt_of_mem_mergedKeys {k : κ} (hx : ∀ x ∈ xs, k < key x) (hy : ∀ y ∈ ys, k < key' y) :
    ∀ k' ∈ mergedKeys key key' xs ys, k < k' := by
  intro k' hk'
  rcases mem_mergedKeys_iff.mp hk' with ⟨x, hmem, rfl⟩ | ⟨y, hmem, rfl⟩
  · exact hx x hmem
  · exact hy y hmem

theorem not_mem_mergedKeys {k : κ} (h : k ∉ mergedKeys key key' xs ys) :
    lookupBy key k xs = none ∧ lookupBy key' k ys = none := by
  rw [mem_mergedKeys_iff, not_or] at h
  exact ⟨lookupBy_eq_none_iff.mpr fun x hx hk => h.1 ⟨x, hx, hk⟩,
    lookupBy_eq_none_iff.mpr fun y hy hk => h.2 ⟨y, hy, hk⟩⟩

end Keys

section Merge

variable {key : α → κ} {key' : β → κ} {left : α → List γ} {right : β → List γ}
  {both : α → β → List γ}

/-- The chunk of the smallest key, then the chunks of the others. -/
theorem flatMap_mergedKeys_cons (xs xs' : List α) (ys ys' : List β) (k : κ)
    (hk : (∃ x ∈ xs, key x = k) ∨ ∃ y ∈ ys, key' y = k)
    (hlt : ∀ k' ∈ mergedKeys key key' xs' ys', k < k')
    (hx : ∀ k', k' ≠ k → lookupBy key k' xs = lookupBy key k' xs')
    (hy : ∀ k', k' ≠ k → lookupBy key' k' ys = lookupBy key' k' ys') :
    (mergedKeys key key' xs ys).flatMap
        (fun k => chunk left right both (lookupBy key k xs) (lookupBy key' k ys))
      = chunk left right both (lookupBy key k xs) (lookupBy key' k ys)
        ++ (mergedKeys key key' xs' ys').flatMap
          (fun k => chunk left right both (lookupBy key k xs') (lookupBy key' k ys')) := by
  -- a key is found in a list exactly when it is looked up there
  have hmem : ∀ {δ : Type} {f : δ → κ} {zs : List δ} {k' : κ},
      (∃ z ∈ zs, f z = k') ↔ lookupBy f k' zs ≠ none := by
    intro δ f zs k'
    rw [Ne, lookupBy_eq_none_iff]
    simp
  rw [mergedKeys_eq_cons xs' ys' k (fun k' => ?_) hlt,
    List.flatMap_cons]
  · refine congrArg _ (List.flatMap_congr fun k' hk' => ?_)
    rw [hx k' (hlt k' hk').ne', hy k' (hlt k' hk').ne']
  · by_cases h : k' = k
    · exact ⟨fun _ => .inl h, fun _ => mem_mergedKeys_iff.mpr (h ▸ hk)⟩
    · simp only [mem_mergedKeys_iff, hmem, hx k' h, hy k' h, h, false_or]

/-- **The merge loop emits the chunks of the keys of both lists, in order.** -/
theorem mergeBy_eq_flatMap : ∀ {xs : List α} {ys : List β}, SortedBy key xs → SortedBy key' ys →
    mergeBy key key' left right both xs ys
      = (mergedKeys key key' xs ys).flatMap
          (fun k => chunk left right both (lookupBy key k xs) (lookupBy key' k ys)) := by
  intro xs ys hxs hys
  induction xs, ys using mergeBy.induct key key' with
  | case1 x xs y ys hc ih =>
      -- both lists have the key
      obtain ⟨hx, hxs'⟩ := sortedBy_cons_iff.mp hxs
      obtain ⟨hy, hys'⟩ := sortedBy_cons_iff.mp hys
      have hk : key x = key' y := compare_eq_iff_eq.mp hc
      rw [mergeBy, hc, ih hxs' hys', flatMap_mergedKeys_cons (x :: xs) xs (y :: ys) ys (key x)]
      · rw [hxs.lookupBy_self List.mem_cons_self, hk, hys.lookupBy_self List.mem_cons_self]
        rfl
      · exact .inl ⟨x, List.mem_cons_self, rfl⟩
      · exact lt_of_mem_mergedKeys hx (hk ▸ hy)
      · intro k' hk'; exact lookupBy_cons_of_ne hk'.symm
      · intro k' hk'; exact lookupBy_cons_of_ne (hk ▸ hk'.symm)
  | case2 x xs y ys hc ih =>
      -- the key is in the left list only, for it is below all of the right one
      obtain ⟨hx, hxs'⟩ := sortedBy_cons_iff.mp hxs
      obtain ⟨hy, hys'⟩ := sortedBy_cons_iff.mp hys
      have hk : key x < key' y := compare_lt_iff_lt.mp hc
      have hlt : ∀ z ∈ y :: ys, key x < key' z :=
        List.forall_mem_cons.mpr ⟨hk, fun z hz => hk.trans (hy z hz)⟩
      rw [mergeBy, hc, ih hxs' hys,
        flatMap_mergedKeys_cons (x :: xs) xs (y :: ys) (y :: ys) (key x)]
      · rw [hxs.lookupBy_self List.mem_cons_self, lookupBy_eq_none_of_lt hlt]
        rfl
      · exact .inl ⟨x, List.mem_cons_self, rfl⟩
      · exact lt_of_mem_mergedKeys hx hlt
      · intro k' hk'; exact lookupBy_cons_of_ne hk'.symm
      · intro k' _; rfl
  | case3 x xs y ys hc ih =>
      -- the key is in the right list only
      obtain ⟨hx, hxs'⟩ := sortedBy_cons_iff.mp hxs
      obtain ⟨hy, hys'⟩ := sortedBy_cons_iff.mp hys
      have hk : key' y < key x := compare_gt_iff_gt.mp hc
      have hlt : ∀ z ∈ x :: xs, key' y < key z :=
        List.forall_mem_cons.mpr ⟨hk, fun z hz => hk.trans (hx z hz)⟩
      rw [mergeBy, hc, ih hxs hys',
        flatMap_mergedKeys_cons (x :: xs) (x :: xs) (y :: ys) ys (key' y)]
      · rw [hys.lookupBy_self List.mem_cons_self, lookupBy_eq_none_of_lt hlt]
        rfl
      · exact .inr ⟨y, List.mem_cons_self, rfl⟩
      · exact lt_of_mem_mergedKeys hlt hy
      · intro k' _; rfl
      · intro k' hk'; exact lookupBy_cons_of_ne hk'.symm
  | case4 x xs ih =>
      obtain ⟨hx, hxs'⟩ := sortedBy_cons_iff.mp hxs
      rw [mergeBy, ih hxs' hys, flatMap_mergedKeys_cons (x :: xs) xs [] [] (key x)]
      · rw [hxs.lookupBy_self List.mem_cons_self, lookupBy_nil]
        rfl
      · exact .inl ⟨x, List.mem_cons_self, rfl⟩
      · exact lt_of_mem_mergedKeys hx (by simp)
      · intro k' hk'; exact lookupBy_cons_of_ne hk'.symm
      · intro k' _; rfl
  | case5 y ys ih =>
      obtain ⟨hy, hys'⟩ := sortedBy_cons_iff.mp hys
      rw [mergeBy, ih hxs hys', flatMap_mergedKeys_cons [] [] (y :: ys) ys (key' y)]
      · rw [hys.lookupBy_self List.mem_cons_self, lookupBy_nil]
        rfl
      · exact .inr ⟨y, List.mem_cons_self, rfl⟩
      · exact lt_of_mem_mergedKeys (by simp) hy
      · intro k' _; rfl
      · intro k' hk'; exact lookupBy_cons_of_ne hk'.symm
  | case6 => simp [mergeBy, mergedKeys]

variable {xs : List α} {ys : List β}

/-- Mapping what is emitted is mapping the chunks. -/
theorem map_mergeBy {δ : Type} {g : γ → δ} {left' : α → List δ} {right' : β → List δ}
    {both' : α → β → List δ} (hleft : ∀ x ∈ xs, (left x).map g = left' x)
    (hright : ∀ y ∈ ys, (right y).map g = right' y)
    (hboth : ∀ x ∈ xs, ∀ y ∈ ys, key x = key' y → (both x y).map g = both' x y) :
    (mergeBy key key' left right both xs ys).map g
      = mergeBy key key' left' right' both' xs ys := by
  induction xs, ys using mergeBy.induct key key' with
  | case1 x xs y ys hc ih =>
      rw [mergeBy, hc, mergeBy, hc]
      simp only [List.map_append]
      rw [hboth x List.mem_cons_self y List.mem_cons_self (compare_eq_iff_eq.mp hc),
        ih (fun x hx => hleft x (List.mem_cons_of_mem _ hx))
          (fun y hy => hright y (List.mem_cons_of_mem _ hy))
          (fun x hx y hy => hboth x (List.mem_cons_of_mem _ hx) y (List.mem_cons_of_mem _ hy))]
  | case2 x xs y ys hc ih =>
      rw [mergeBy, hc, mergeBy, hc]
      simp only [List.map_append]
      rw [hleft x List.mem_cons_self, ih (fun x hx => hleft x (List.mem_cons_of_mem _ hx)) hright
        (fun x hx => hboth x (List.mem_cons_of_mem _ hx))]
  | case3 x xs y ys hc ih =>
      rw [mergeBy, hc, mergeBy, hc]
      simp only [List.map_append]
      rw [hright y List.mem_cons_self, ih hleft (fun y hy => hright y (List.mem_cons_of_mem _ hy))
        (fun x hx y hy => hboth x hx y (List.mem_cons_of_mem _ hy))]
  | case4 x xs ih =>
      rw [mergeBy, mergeBy, List.map_append, hleft x List.mem_cons_self,
        ih (fun x hx => hleft x (List.mem_cons_of_mem _ hx)) hright
          (fun _ _ y hy => absurd hy (by simp))]
  | case5 y ys ih =>
      rw [mergeBy, mergeBy, List.map_append, hright y List.mem_cons_self,
        ih hleft (fun y hy => hright y (List.mem_cons_of_mem _ hy))
          (fun x hx => absurd hx (by simp))]
  | case6 => rw [mergeBy, mergeBy, List.map_nil]

/-- Exchanging the lists exchanges the roles of their chunks. -/
theorem mergeBy_swap :
    mergeBy key' key right left (fun y x => both x y) ys xs
      = mergeBy key key' left right both xs ys := by
  induction xs, ys using mergeBy.induct key key' with
  | case1 x xs y ys hc ih =>
      rw [mergeBy, mergeBy, hc, compare_eq_iff_eq.mpr (compare_eq_iff_eq.mp hc).symm, ih]
  | case2 x xs y ys hc ih =>
      rw [mergeBy, mergeBy, hc, compare_gt_iff_gt.mpr (compare_lt_iff_lt.mp hc), ih]
  | case3 x xs y ys hc ih =>
      rw [mergeBy, mergeBy, hc, compare_lt_iff_lt.mpr (compare_gt_iff_gt.mp hc), ih]
  | case4 x xs ih => rw [mergeBy, mergeBy, ih]
  | case5 y ys ih => rw [mergeBy, mergeBy, ih]
  | case6 => rw [mergeBy, mergeBy]

theorem mem_mergeBy_iff (hxs : SortedBy key xs) (hys : SortedBy key' ys) {d : γ} :
    d ∈ mergeBy key key' left right both xs ys
      ↔ ∃ k, d ∈ chunk left right both (lookupBy key k xs) (lookupBy key' k ys) := by
  rw [mergeBy_eq_flatMap hxs hys, List.mem_flatMap]
  constructor
  · rintro ⟨k, _, hd⟩; exact ⟨k, hd⟩
  · rintro ⟨k, hd⟩
    refine ⟨k, by_contra fun hk => ?_, hd⟩
    rw [(not_mem_mergedKeys hk).1, (not_mem_mergedKeys hk).2] at hd
    exact absurd hd (by simp [chunk])

/-- What is emitted is in order where each chunk is, and the chunks are. -/
theorem mergeBy_pairwise {R : γ → γ → Prop} (hxs : SortedBy key xs) (hys : SortedBy key' ys)
    (hchunk : ∀ k, (chunk left right both (lookupBy key k xs) (lookupBy key' k ys)).Pairwise R)
    (hlt : ∀ k k', k < k' →
      ∀ d ∈ chunk left right both (lookupBy key k xs) (lookupBy key' k ys),
      ∀ d' ∈ chunk left right both (lookupBy key k' xs) (lookupBy key' k' ys), R d d') :
    (mergeBy key key' left right both xs ys).Pairwise R := by
  rw [mergeBy_eq_flatMap hxs hys, List.pairwise_flatMap]
  exact ⟨fun k _ => hchunk k, mergedKeys_pairwise.imp fun {k k'} h => hlt k k' h⟩

end Merge

/-! ## Merging adjacent equal entries -/

section Destutter

variable [DecidableEq γ]

theorem destutter'_append {l l' : List γ} :
    ∀ {a : γ}, (∀ x ∈ a :: l, ∀ y ∈ l', x ≠ y) →
      (l ++ l').destutter' (· ≠ ·) a = l.destutter' (· ≠ ·) a ++ l'.destutter (· ≠ ·) := by
  induction l with
  | nil =>
      intro a h
      cases l' with
      | nil => rfl
      | cons b l' =>
          have hab : a ≠ b := h a List.mem_cons_self b List.mem_cons_self
          rw [List.nil_append, List.destutter'_cons_pos _ hab, List.destutter'_nil,
            List.destutter_cons', List.singleton_append]
  | cons b l ih =>
      intro a h
      rw [List.cons_append]
      -- equal neighbours are dropped on both sides
      by_cases hab : a = b
      · rw [List.destutter'_cons_neg _ (not_not_intro hab),
          List.destutter'_cons_neg _ (not_not_intro hab)]
        refine ih fun x hx => h x ?_
        exact List.cons_subset_cons a (List.subset_cons_self b l) hx
      · rw [List.destutter'_cons_pos _ hab, List.destutter'_cons_pos _ hab, List.cons_append,
          ih fun x hx => h x (List.mem_cons_of_mem _ hx)]

/-- Nothing merges across the boundary of two lists without a common element. -/
theorem destutter_append {l l' : List γ} (h : ∀ x ∈ l, ∀ y ∈ l', x ≠ y) :
    (l ++ l').destutter (· ≠ ·) = l.destutter (· ≠ ·) ++ l'.destutter (· ≠ ·) := by
  cases l with
  | nil => rfl
  | cons a l =>
      rw [List.cons_append, List.destutter_cons', List.destutter_cons', destutter'_append h]

omit [LinearOrder κ] in
theorem destutter_flatMap {ks : List κ} {c : κ → List γ}
    (h : ks.Pairwise fun k k' => ∀ x ∈ c k, ∀ y ∈ c k', x ≠ y) :
    (ks.flatMap c).destutter (· ≠ ·) = ks.flatMap fun k => (c k).destutter (· ≠ ·) := by
  induction ks with
  | nil => rfl
  | cons k ks ih =>
      obtain ⟨hk, hks⟩ := List.pairwise_cons.mp h
      rw [List.flatMap_cons, List.flatMap_cons, destutter_append, ih hks]
      intro x hx y hy
      obtain ⟨k', hk', hy'⟩ := List.mem_flatMap.mp hy
      exact hk k' hk' x hx y hy'

/-- A list of one repeated entry merges into that entry. -/
theorem destutter_of_forall_eq {l : List γ} {a : γ} (hne : l ≠ []) (h : ∀ x ∈ l, x = a) :
    l.destutter (· ≠ ·) = [a] := by
  obtain ⟨b, l, rfl⟩ := List.exists_cons_of_ne_nil hne
  obtain rfl : b = a := h b List.mem_cons_self
  rw [List.destutter_cons']
  have hl : ∀ x ∈ l, x = b := fun x hx => h x (List.mem_cons_of_mem _ hx)
  clear h hne
  induction l with
  | nil => rfl
  | cons x l ih =>
      obtain rfl : x = b := hl x List.mem_cons_self
      rw [List.destutter'_cons_neg _ (not_not_intro rfl)]
      exact ih fun y hy => hl y (List.mem_cons_of_mem _ hy)

/-- Entries that a map leaves alone survive, unless one just before was mapped to them. -/
theorem filter_sublist_destutter {l : List γ} {f : γ → γ} {p : γ → Bool}
    (hfix : ∀ x ∈ l, p x → f x = x) (hnew : l.Pairwise fun y x => p x → f y ≠ x) :
    (l.filter p).Sublist ((l.map f).destutter (· ≠ ·)) := by
  cases l with
  | nil => exact List.Sublist.refl _
  | cons a l =>
      obtain ⟨ha, hl⟩ := List.pairwise_cons.mp hnew
      have hrest : ∀ b, (∀ x ∈ l, p x → b ≠ x) →
          (b :: l.filter p).Sublist ((l.map f).destutter' (· ≠ ·) b) := by
        have hfix' : ∀ x ∈ l, p x → f x = x := fun x hx => hfix x (List.mem_cons_of_mem _ hx)
        clear ha hnew hfix
        induction l with
        | nil => intro b _; exact List.Sublist.refl _
        | cons c l ih =>
            intro b hb
            obtain ⟨hc, hl'⟩ := List.pairwise_cons.mp hl
            have ih' := ih hl' fun x hx => hfix' x (List.mem_cons_of_mem _ hx)
            by_cases hbc : b = f c
            · -- merged away, so it is not one of the entries left alone
              have hp : ¬ p c = true := fun hp =>
                hb c List.mem_cons_self hp (hbc.trans (hfix' c List.mem_cons_self hp))
              rw [List.filter_cons_of_neg hp, List.map_cons,
                List.destutter'_cons_neg _ (not_not_intro hbc)]
              exact ih' b fun x hx => hb x (List.mem_cons_of_mem _ hx)
            · rw [List.map_cons, List.destutter'_cons_pos _ hbc]
              refine List.Sublist.cons_cons b ?_
              by_cases hp : p c = true
              · rw [List.filter_cons_of_pos hp, hfix' c List.mem_cons_self hp]
                exact ih' c fun x hx => hfix' c List.mem_cons_self hp ▸ hc x hx
              · rw [List.filter_cons_of_neg hp]
                exact (List.sublist_cons_self _ _).trans (ih' (f c) hc)
      rw [List.map_cons, List.destutter_cons']
      by_cases hp : p a = true
      · rw [List.filter_cons_of_pos hp, hfix a List.mem_cons_self hp]
        exact hrest a fun x hx => hfix a List.mem_cons_self hp ▸ ha x hx
      · rw [List.filter_cons_of_neg hp]
        exact (List.sublist_cons_self _ _).trans (hrest (f a) ha)

end Destutter

end Mintpool.Lib
