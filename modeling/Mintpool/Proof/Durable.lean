import Mintpool.Proof.Columns

/-!
# What a node keeps

A premint that a node has stored is there until its mint is marked by a node that prunes.
Nothing else removes a row, and what else is written to one goes one way: the version and
the premint are only ever replaced by a higher version, a mark stays, and the other columns
are those that the row was inserted with. So an answer of `Ok` to a submission can be relied
on, whatever the node goes on to do. What is higher is up to the `version` column, which has
64 bits with a sign: there `2 ^ 63` is lower than `0`.
-/

namespace Mintpool.Proof

open Mintpool PremintStorage

variable {Text : Type}

/-! ## What may become of a row -/

/-- The same row, later: a higher version of its premint or the same one, and any mark kept.
Versions are compared as the column has them, in 64 bits with a sign. -/
structure Outlives (r r' : Row Text) : Prop where
  fixed : r' = { r with version := r'.version, json := r'.json, seenOnChain := r'.seenOnChain }
  later : r.version < r'.version ∨ r'.version = r.version ∧ r'.json = r.json
  seen : r.seenOnChain = true → r'.seenOnChain = true

namespace Outlives

variable {r r' r'' : Row Text}

theorem refl (r : Row Text) : Outlives r r := ⟨rfl, .inr ⟨rfl, rfl⟩, id⟩

theorem trans (h : Outlives r r') (h' : Outlives r' r'') : Outlives r r'' where
  fixed := by
    have hfixed := h'.fixed
    rw [h.fixed] at hfixed
    exact hfixed
  later := by
    rcases h.later with hlt | ⟨hversion, hjson⟩
    · rcases h'.later with hlt' | ⟨hversion', _⟩
      · exact .inl (Int64.lt_trans hlt hlt')
      · exact .inl (by rw [hversion']; exact hlt)
    · rw [← hversion, ← hjson]
      exact h'.later
  seen := fun hseen => h'.seen (h.seen hseen)

theorem version_le (h : Outlives r r') : r.version ≤ r'.version := by
  rcases h.later with hlt | ⟨heq, _⟩
  · exact Int64.le_of_lt hlt
  · rw [heq]; exact Int64.le_refl _

/-- A claim that matches the row goes on matching it. -/
theorem claimMatches_eq (h : Outlives r r') (claim : InclusionClaim) :
    claimMatches claim r' = claimMatches claim r := by
  rw [h.fixed]
  rfl

theorem upgrade {excluded old : Row Text} (hlt : old.version < excluded.version) :
    Outlives old (upgradeRow excluded old) :=
  ⟨rfl, .inl hlt, id⟩

theorem mark (r : Row Text) : Outlives r (markRow r) := ⟨rfl, .inr ⟨rfl, rfl⟩, fun _ => rfl⟩

end Outlives

/-! ## Writes -/

section Writes

variable [Alloy] [Codec Text] {s : PremintStorage Text} {k : String × String}

/-- The claim prunes the row. -/
def Prunes (s : PremintStorage Text) (r : Row Text) : Write → Prop
  | .store _ _ => False
  | .markSeenOnChain claim => s.pruneMintedPremints = true ∧ claimMatches claim r = true

/-- **A write keeps a row, unless it prunes it.** -/
theorem outlives_write {r : Row Text} (w : Write) (h : s.table.lookup k = some r) :
    (∃ r', (write s w).table.lookup k = some r' ∧ Outlives r r') ∨ Prunes s r w := by
  cases w with
  | store now p =>
      -- a store keeps the row, or upgrades it
      refine .inl ?_
      by_cases hk : k = premintKey p
      · subst hk
        rcases store_self_cases s now p with ⟨hnone, _⟩ | ⟨old, hold, hlt, hup⟩ | ⟨_, hsame⟩
        · rw [hnone] at h; cases h
        · rw [hold] at h
          cases h
          exact ⟨_, hup, .upgrade hlt⟩
        · exact ⟨r, by rw [write, hsame]; exact h, .refl r⟩
      · exact ⟨r, by rw [write, lookup_store_of_ne hk]; exact h, .refl r⟩
  | markSeenOnChain claim =>
      cases hm : claimMatches claim r with
      | false =>
          refine .inl ⟨r, ?_, .refl r⟩
          rw [write,
            lookup_mark_of_not_matches (fun r' hr' => by rw [h] at hr'; cases hr'; exact hm)]
          exact h
      | true =>
          -- the claim is for this row, so it goes if the node prunes and is marked if not
          have hmark := lookup_mark_of_matches h hm
          cases hprune : s.pruneMintedPremints with
          | true => exact .inr ⟨hprune, hm⟩
          | false => exact .inl ⟨_, by rw [write, hmark, hprune]; rfl, .mark r⟩

/-- **Any writes keep a row, unless one of them prunes it.** -/
theorem outlives_writes (ws : List Write) : ∀ {s : PremintStorage Text} {r : Row Text},
    s.table.lookup k = some r →
    (∃ r', (ws.foldl write s).table.lookup k = some r' ∧ Outlives r r')
      ∨ ∃ w ∈ ws, Prunes s r w := by
  induction ws with
  | nil => intro s r h; exact .inl ⟨r, h, .refl r⟩
  | cons w ws ih =>
      intro s r h
      rcases outlives_write w h with ⟨r₁, hr₁, hout⟩ | hprunes
      · rcases ih hr₁ with ⟨r', hr', hout'⟩ | ⟨w', hw', hprunes⟩
        · exact .inl ⟨r', hr', hout.trans hout'⟩
        · refine .inr ⟨w', List.mem_cons_of_mem _ hw', ?_⟩
          -- what prunes the later row would have pruned this one
          cases w' with
          | store now p => exact hprunes
          | markSeenOnChain claim =>
              rw [Prunes, write_prune, hout.claimMatches_eq] at hprunes
              exact hprunes
      · exact .inr ⟨w, List.mem_cons_self, hprunes⟩

/-- And what is there afterwards was there before, or one of the writes stored it. -/
theorem stored_of_lookup_writes {ws : List Write} {r' : Row Text}
    (h : (ws.foldl write s).table.lookup k = some r') :
    (∃ r, s.table.lookup k = some r ∧ r'.json = r.json)
      ∨ ∃ now p, .store now p ∈ ws ∧ premintKey p = k ∧ r'.json = p.toJson := by
  have hall : ∀ r' ∈ (ws.foldl write s).table.rows,
      (∃ r, s.table.lookup r'.key = some r ∧ r'.json = r.json)
        ∨ ∃ now p, .store now p ∈ ws ∧ premintKey p = r'.key ∧ r'.json = p.toJson := by
    refine Lib.foldl_invariant (I := fun (s' : PremintStorage Text) => ∀ r' ∈ s'.table.rows,
      (∃ r, s.table.lookup r'.key = some r ∧ r'.json = r.json)
        ∨ ∃ now p, .store now p ∈ ws ∧ premintKey p = r'.key ∧ r'.json = p.toJson)
      (fun s' w hw hs' => ?_) (fun r hr => ?_)
    · refine rows_write (fun now p heq _ => ?_) (fun now p old heq hold _ _ => ?_) ?_ hs'
      · exact .inr ⟨now, p, heq ▸ hw, rfl, rfl⟩
      · exact .inr ⟨now, p, heq ▸ hw, (Lib.KeyedTable.lookup_some hold).2.symm, rfl⟩
      · exact fun r hr => hr
    · exact .inl ⟨r, Lib.KeyedTable.mem_iff_lookup.mp hr, rfl⟩
  obtain ⟨hmem, hkey⟩ := Lib.KeyedTable.lookup_some h
  rw [← hkey]
  exact hall r' hmem

end Writes

/-! ## Runs of a node -/

section Runs

variable [Alloy] [Codec Text] [Libp2p] {c c' : Controller Text} {is : List Controller.Input}
  {k : String × String} {r : Row Text}

/--
**A node keeps its rows.** Whatever events and commands it handles, whatever the rules and the
chains answer and however a sync response is scheduled: a row is still there at the end, with
a version that is no lower in the column, unless the node prunes and one of the inputs was a
claim for it.
-/
theorem row_kept (hrun : Controller.Run c is c') (h : c.store.table.lookup k = some r) :
    (∃ r', c'.store.table.lookup k = some r' ∧ Outlives r r')
      ∨ c.store.pruneMintedPremints = true
        ∧ ∃ i ∈ is, ∃ claim, Causes i (.markSeenOnChain claim) ∧ claimMatches claim r = true := by
  obtain ⟨ws, hws, hst⟩ := run_writes hrun
  rw [hst]
  rcases outlives_writes ws h with hkept | ⟨w, hw, hprunes⟩
  · exact .inl hkept
  · cases w with
    | store now p => exact hprunes.elim
    | markSeenOnChain claim =>
        obtain ⟨i, hi, hcause⟩ := hws _ hw
        exact .inr ⟨hprunes.1, i, hi, claim, hcause, hprunes.2⟩

end Runs

/-! ## An upgrade -/

section Example

open Sample

attribute [local instance] Sample.alloy Sample.libp2p

/-- A node that has the first version. -/
def firstVersion : Controller Wire :=
  { node {} with store := ((node {}).store.store 0 (.zoraV2 (validVersion 1))).2 }

/-- **It has a row for the premint when it is sent the second.** -/
theorem firstVersion_kept : ∃ r',
    (firstVersion.validateAndInsert offline (.zoraV2 (validVersion 2))).2.store.table.lookup
        (premintKey (.zoraV2 (validVersion 1))) = some r'
      ∧ Outlives (newRow 0 (.zoraV2 (validVersion 1))) r' := by
  have hrun : Controller.Run firstVersion
      [.event (.premintReceived (.zoraV2 (validVersion 2)))] _ :=
    .snoc .nil (.event (.premintReceived offline _))
  rcases row_kept hrun (lookup_store_of_none 0 rfl) with hkept | ⟨_, i, hi, claim, hcause, _⟩
  · exact hkept
  · rw [List.mem_singleton.mp hi] at hcause
    exact hcause.elim

end Example

end Mintpool.Proof
