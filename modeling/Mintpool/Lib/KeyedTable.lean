import Mathlib.Data.List.Nodup

/-!
# Tables with a primary key

A table is its rows in insertion order, together with the fact that no two of
them share a key — so a table that violates its primary key cannot be built. The
three statements a store issues are here in general form: an insert that turns
into a guarded update when the key is taken, a delete by predicate, and an update
by predicate that leaves keys alone.

Every fact about a statement is stated through `lookup`, because with unique keys
membership and lookup say the same thing.
-/

namespace Mintpool.Lib

/-- Rows in insertion order, no two with the same key. -/
structure KeyedTable (ρ : Type) {κ : Type} (key : ρ → κ) where
  rows : List ρ
  /-- The primary key. -/
  pk : (rows.map key).Nodup

namespace KeyedTable

variable {ρ κ : Type} {key : ρ → κ}

theorem ext {t t' : KeyedTable ρ key} (h : t.rows = t'.rows) : t = t' := by
  cases t; cases t'; cases h; rfl

instance [DecidableEq ρ] : DecidableEq (KeyedTable ρ key) := fun t t' =>
  decidable_of_iff (t.rows = t'.rows) ⟨ext, fun h => h ▸ rfl⟩

/-- The table without rows. -/
def empty : KeyedTable ρ key := ⟨[], List.nodup_nil⟩

/-- **Two rows of a table with one key are one row.** -/
theorem eq_of_key_eq {t : KeyedTable ρ key} {r r' : ρ} (h : r ∈ t.rows) (h' : r' ∈ t.rows)
    (hk : key r = key r') : r = r' :=
  List.inj_on_of_nodup_map t.pk h h' hk

theorem map_key_update {update : ρ → ρ} (hkey : ∀ r, key (update r) = key r) (p : ρ → Bool)
    (rows : List ρ) :
    (rows.map (fun r => if p r then update r else r)).map key = rows.map key := by
  rw [List.map_map]
  refine List.map_congr_left (fun r _ => ?_)
  simp only [Function.comp_apply]
  split
  · exact hkey r
  · rfl

/-- Rewrite the rows that satisfy `p`, leaving their keys alone. -/
def updateWhere (t : KeyedTable ρ key) (p : ρ → Bool) (update : ρ → ρ)
    (hkey : ∀ r, key (update r) = key r) : KeyedTable ρ key :=
  ⟨t.rows.map (fun r => if p r then update r else r), by
    rw [map_key_update hkey]; exact t.pk⟩

/-- Drop the rows that satisfy `p`. -/
def deleteWhere (t : KeyedTable ρ key) (p : ρ → Bool) : KeyedTable ρ key :=
  ⟨t.rows.filter (fun r => !p r), t.pk.sublist (List.filter_sublist.map key)⟩

/-- An update changes something exactly when it changes a row it applies to. -/
theorem updateWhere_eq_self_iff {t : KeyedTable ρ key} {p : ρ → Bool} {update : ρ → ρ}
    {hkey : ∀ r, key (update r) = key r} :
    t.updateWhere p update hkey = t ↔ ∀ r ∈ t.rows, p r = true → update r = r := by
  have hrows : t.updateWhere p update hkey = t
      ↔ t.rows.map (fun r => if p r then update r else r) = t.rows.map id := by
    rw [List.map_id]
    exact ⟨congrArg rows, fun h => ext h⟩
  rw [hrows, List.map_inj_left]
  refine forall_congr' fun r => forall_congr' fun _ => ?_
  cases hp : p r <;> simp

/-- And a delete exactly when it applies to a row. -/
theorem deleteWhere_eq_self_iff {t : KeyedTable ρ key} {p : ρ → Bool} :
    t.deleteWhere p = t ↔ ∀ r ∈ t.rows, p r = false := by
  have hrows : t.deleteWhere p = t ↔ t.rows.filter (fun r => !p r) = t.rows :=
    ⟨congrArg rows, fun h => ext h⟩
  rw [hrows, List.filter_eq_self]
  simp

variable [DecidableEq κ]

/-- The row with a key, if there is one. -/
def lookup (t : KeyedTable ρ key) (k : κ) : Option ρ := t.rows.find? (fun r => key r = k)

theorem lookup_some {t : KeyedTable ρ key} {k : κ} {r : ρ} (h : t.lookup k = some r) :
    r ∈ t.rows ∧ key r = k :=
  ⟨List.mem_of_find?_eq_some h, by simpa using List.find?_some h⟩

theorem lookup_eq_none_iff {t : KeyedTable ρ key} {k : κ} :
    t.lookup k = none ↔ ∀ r ∈ t.rows, key r ≠ k := by
  simp [lookup, List.find?_eq_none]

/-- Membership and lookup say the same thing. -/
theorem mem_iff_lookup {t : KeyedTable ρ key} {r : ρ} :
    r ∈ t.rows ↔ t.lookup (key r) = some r := by
  constructor
  · intro h
    cases hl : t.lookup (key r) with
    | none => exact absurd rfl (lookup_eq_none_iff.mp hl r h)
    | some r' =>
        obtain ⟨h', hk⟩ := lookup_some hl
        rw [eq_of_key_eq h' h hk]
  · intro h; exact (lookup_some h).1

/-! ## Insert, or update on conflict -/

theorem nodup_append_new {t : KeyedTable ρ key} {new : ρ} (h : t.lookup (key new) = none) :
    ((t.rows ++ [new]).map key).Nodup := by
  rw [List.map_append, List.nodup_append]
  refine ⟨t.pk, by simp, ?_⟩
  intro k hk k' hk' he
  obtain ⟨r, hr, hrk⟩ := List.mem_map.mp hk
  simp only [List.map_cons, List.map_nil, List.mem_singleton] at hk'
  exact lookup_eq_none_iff.mp h r hr (by rw [hrk, he, hk'])

/--
`INSERT … ON CONFLICT (key) DO UPDATE … WHERE guard`: the number of rows affected,
and the table afterwards. A refused update affects no row.
-/
def upsert (t : KeyedTable ρ key) (new : ρ) (guard : ρ → Bool) (update : ρ → ρ)
    (hkey : ∀ r, key (update r) = key r) : Nat × KeyedTable ρ key :=
  match h : t.lookup (key new) with
  | none => (1, ⟨t.rows ++ [new], nodup_append_new h⟩)
  | some old =>
      if guard old then
        (1, t.updateWhere (fun r => key r = key new) update hkey)
      else (0, t)

section Upsert

variable {t : KeyedTable ρ key} {new old : ρ} {guard : ρ → Bool} {update : ρ → ρ}
  {hkey : ∀ r, key (update r) = key r}

theorem upsert_of_none (h : t.lookup (key new) = none) :
    t.upsert new guard update hkey = (1, ⟨t.rows ++ [new], nodup_append_new h⟩) := by
  unfold upsert
  split
  · rfl
  · rename_i r hr; rw [h] at hr; exact absurd hr (by simp)

theorem upsert_of_some (h : t.lookup (key new) = some old) :
    t.upsert new guard update hkey
      = if guard old then (1, t.updateWhere (fun r => key r = key new) update hkey)
        else (0, t) := by
  unfold upsert
  split
  · rename_i hr; rw [h] at hr; exact absurd hr (by simp)
  · rename_i r hr
    rw [h] at hr
    cases hr
    rfl

/-- **A statement that affects no row leaves the table as it was.** -/
theorem upsert_unchanged (h : (t.upsert new guard update hkey).1 = 0) :
    (t.upsert new guard update hkey).2 = t := by
  cases hl : t.lookup (key new) with
  | none => rw [upsert_of_none hl] at h; exact absurd h (by simp)
  | some old =>
      rw [upsert_of_some hl] at h ⊢
      split
      · rename_i hg; rw [if_pos hg] at h; exact absurd h (by simp)
      · rfl

/-- It affects no row exactly when the key is taken and the guard refuses. -/
theorem upsert_affected_zero_iff :
    (t.upsert new guard update hkey).1 = 0
      ↔ ∃ old, t.lookup (key new) = some old ∧ guard old = false := by
  cases hl : t.lookup (key new) with
  | none => rw [upsert_of_none hl]; simp
  | some old =>
      rw [upsert_of_some hl]
      cases hg : guard old <;> simp [hg]

end Upsert

/-! ## What each statement does to a lookup -/

theorem lookup_updateWhere {t : KeyedTable ρ key} {p : ρ → Bool} {update : ρ → ρ}
    {hkey : ∀ r, key (update r) = key r} (k : κ) :
    (t.updateWhere p update hkey).lookup k
      = (t.lookup k).map (fun r => if p r then update r else r) := by
  have hfun : ((fun r => decide (key r = k)) ∘ fun r => if p r then update r else r)
      = fun r => decide (key r = k) := by
    funext r
    simp only [Function.comp_apply]
    split
    · rw [hkey]
    · rfl
  simp only [lookup, updateWhere, List.find?_map, hfun]

theorem lookup_deleteWhere {t : KeyedTable ρ key} {p : ρ → Bool} (k : κ) :
    (t.deleteWhere p).lookup k = (t.lookup k).filter (fun r => !p r) := by
  cases hl : t.lookup k with
  | none =>
      rw [Option.filter_none, lookup_eq_none_iff]
      intro r hr
      exact lookup_eq_none_iff.mp hl r (List.mem_of_mem_filter hr)
  | some r =>
      obtain ⟨hr, hk⟩ := lookup_some hl
      cases hp : p r with
      | true =>
          -- no other row has the key, so deleting this one leaves none
          simp only [Option.filter_some, hp, Bool.not_true, Bool.false_eq_true, if_false]
          rw [lookup_eq_none_iff]
          intro r' hr' hk'
          obtain ⟨hmem, hnp⟩ := List.mem_filter.mp hr'
          rw [eq_of_key_eq hmem hr (by rw [hk', hk]), hp] at hnp
          exact absurd hnp (by simp)
      | false =>
          simp only [Option.filter_some, hp, Bool.not_false, if_true]
          rw [← hk, ← mem_iff_lookup]
          exact List.mem_filter.mpr ⟨hr, by simp [hp]⟩

section UpsertLookup

variable {t : KeyedTable ρ key} {new : ρ} {guard : ρ → Bool} {update : ρ → ρ}
  {hkey : ∀ r, key (update r) = key r}

/-- An upsert touches no key but its own. -/
theorem lookup_upsert_of_ne {k : κ} (hne : k ≠ key new) :
    (t.upsert new guard update hkey).2.lookup k = t.lookup k := by
  cases hl : t.lookup (key new) with
  | none =>
      rw [upsert_of_none hl]
      simp only [lookup, List.find?_append, List.find?_singleton]
      rw [if_neg (by simpa using hne.symm)]
      exact Option.or_none
  | some old =>
      rw [upsert_of_some hl]
      split
      · rw [lookup_updateWhere]
        cases hk : t.lookup k with
        | none => rfl
        | some r =>
            have : key r ≠ key new := by rw [(lookup_some hk).2]; exact hne
            simp [this]
      · rfl

/-- And at its own key it inserts, updates, or is refused. -/
theorem lookup_upsert_self :
    (t.upsert new guard update hkey).2.lookup (key new)
      = match t.lookup (key new) with
        | none => some new
        | some old => if guard old then some (update old) else some old := by
  cases hl : t.lookup (key new) with
  | none =>
      rw [upsert_of_none hl]
      have hnone : t.rows.find? (fun r => key r = key new) = none := hl
      simp [lookup, List.find?_append, hnone]
  | some old =>
      rw [upsert_of_some hl]
      dsimp only
      by_cases hg : guard old
      · rw [if_pos hg, if_pos hg, lookup_updateWhere, hl]
        simp [(lookup_some hl).2]
      · rw [if_neg hg, if_neg hg]
        exact hl

end UpsertLookup

/-- **The first row that satisfies `f`**, for an update that leaves `f` alone: as before,
or updated, or the new row where there was none. -/
theorem find?_upsert {t : KeyedTable ρ key} {new : ρ} {guard : ρ → Bool} {update : ρ → ρ}
    {hkey : ∀ r, key (update r) = key r} {f : ρ → Bool} (hf : ∀ r, f (update r) = f r) :
    (t.upsert new guard update hkey).2.rows.find? f = t.rows.find? f
      ∨ (∃ r, t.rows.find? f = some r ∧ key r = key new
        ∧ (t.upsert new guard update hkey).2.rows.find? f = some (update r))
      ∨ (t.rows.find? f = none
        ∧ (t.upsert new guard update hkey).2.rows.find? f = some new) := by
  cases hl : t.lookup (key new) with
  | none =>
      rw [upsert_of_none hl]
      dsimp only
      rw [List.find?_append]
      cases hfind : t.rows.find? f with
      | some r => exact .inl rfl
      | none =>
          -- the new row comes last, so it is the first only where there was none
          rw [Option.none_or, List.find?_singleton]
          split
          · exact .inr (.inr ⟨rfl, rfl⟩)
          · exact .inl rfl
  | some old =>
      rw [upsert_of_some hl]
      split
      · -- an update that leaves `f` alone leaves the same row first
        have hfun : (f ∘ fun r => if decide (key r = key new) then update r else r) = f := by
          funext r
          rw [Function.comp_apply]
          split
          · exact hf r
          · rfl
        simp only [updateWhere, List.find?_map, hfun]
        cases hfind : t.rows.find? f with
        | none => exact .inl rfl
        | some r =>
            by_cases hk : key r = key new
            · exact .inr (.inl ⟨r, rfl, hk, by simp [hk]⟩)
            · exact .inl (by simp [hk])
      · exact .inl rfl

/-- A property of rows that every row of a table has, read through `lookup`. -/
theorem forall_mem_iff {t : KeyedTable ρ key} {P : ρ → Prop} :
    (∀ r ∈ t.rows, P r) ↔ ∀ k r, t.lookup k = some r → P r := by
  constructor
  · intro h k r hl; exact h r (lookup_some hl).1
  · intro h r hr; exact h _ r (mem_iff_lookup.mp hr)

end KeyedTable

end Mintpool.Lib
