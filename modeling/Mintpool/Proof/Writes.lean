import Mintpool.Controller
import Mintpool.Proof.Identity

/-!
# Everything a node writes

Two statements ever change the table: the upsert of `store` and the update or delete
of `mark_seen_on_chain`. This file says what each of them does to a lookup, and what
inserting premints comes down to: one premint at a time, or a sync response under any
schedule, the table is the one that some sequence of upserts leaves behind.
-/

namespace Mintpool.Proof

open Mintpool PremintStorage

variable {Text : Type}

/-! ## The mark -/

section Mark

variable {s : PremintStorage Text} {claim : InclusionClaim}

theorem mark_prune :
    (s.markSeenOnChain claim).pruneMintedPremints = s.pruneMintedPremints := by
  unfold markSeenOnChain
  split <;> rfl

/-- A mark leaves the rows it does not match. -/
theorem lookup_mark_of_not_matches {k : String × String}
    (h : ∀ r, s.table.lookup k = some r → claimMatches claim r = false) :
    (s.markSeenOnChain claim).table.lookup k = s.table.lookup k := by
  cases hl : s.table.lookup k with
  | none =>
      unfold markSeenOnChain
      split
      · rw [Lib.KeyedTable.lookup_deleteWhere, hl]; rfl
      · rw [Lib.KeyedTable.lookup_updateWhere, hl]; rfl
  | some r =>
      have hr := h r hl
      unfold markSeenOnChain
      split
      · rw [Lib.KeyedTable.lookup_deleteWhere, hl]; simp [hr]
      · rw [Lib.KeyedTable.lookup_updateWhere, hl]; simp [hr]

/-- **And the rows it matches are gone, or marked.** -/
theorem lookup_mark_of_matches {k : String × String} {r : Row Text}
    (hl : s.table.lookup k = some r) (h : claimMatches claim r = true) :
    (s.markSeenOnChain claim).table.lookup k
      = if s.pruneMintedPremints then none else some (markRow r) := by
  unfold markSeenOnChain
  split
  · rw [Lib.KeyedTable.lookup_deleteWhere, hl]; simp [h]
  · rw [Lib.KeyedTable.lookup_updateWhere, hl]; simp [h]

/-- Whatever is there after a mark was there before, or is the mark of it. -/
theorem lookup_of_lookup_mark {k : String × String} {r : Row Text}
    (h : (s.markSeenOnChain claim).table.lookup k = some r) :
    ∃ r₀, s.table.lookup k = some r₀ ∧ (r = r₀ ∨ r = markRow r₀) := by
  cases hl : s.table.lookup k with
  | none =>
      rw [lookup_mark_of_not_matches (fun r hr => by rw [hl] at hr; cases hr), hl] at h
      cases h
  | some r₀ =>
      refine ⟨r₀, rfl, ?_⟩
      cases hm : claimMatches claim r₀ with
      | false =>
          rw [lookup_mark_of_not_matches (fun r hr => by rw [hl] at hr; cases hr; exact hm), hl]
            at h
          exact .inl (Option.some.inj h).symm
      | true =>
          rw [lookup_mark_of_matches hl hm] at h
          split at h
          · cases h
          · exact .inr (Option.some.inj h).symm

/-- A row that a mark of this claim would change. -/
def Marks (s : PremintStorage Text) (claim : InclusionClaim) (r : Row Text) : Prop :=
  claimMatches claim r = true ∧ (s.pruneMintedPremints = true ∨ r.seenOnChain = false)

/-- **A mark changes the table exactly when there is a row for it to change.** -/
theorem mark_table_ne_iff :
    (s.markSeenOnChain claim).table ≠ s.table ↔ ∃ r ∈ s.table.rows, Marks s claim r := by
  unfold markSeenOnChain Marks
  cases hprune : s.pruneMintedPremints with
  | true =>
      rw [if_pos rfl, Ne, Lib.KeyedTable.deleteWhere_eq_self_iff]
      simp
  | false =>
      rw [if_neg (by simp), Ne, Lib.KeyedTable.updateWhere_eq_self_iff]
      have hmark : ∀ r : Row Text, markRow r = r ↔ r.seenOnChain = true := by
        intro r
        refine ⟨fun h => ?_, fun h => ?_⟩
        · rw [← h]; rfl
        · rw [markRow, ← h]
      simp only [hmark, not_forall, Bool.not_eq_true, exists_prop, Bool.false_eq_true, false_or]

end Mark

/-! ## The upsert -/

section Store

variable [Alloy] [Codec Text] {s : PremintStorage Text} {p : PremintTypes}

theorem newRow_key (now : Int) (p : PremintTypes) :
    (newRow now p : Row Text).key = premintKey p := rfl

/-- Whether `store` would be refused: the key is taken by a version that is not lower. -/
def Refused (s : PremintStorage Text) (p : PremintTypes) : Prop :=
  ∃ old, s.table.lookup (premintKey p) = some old ∧ ¬ old.version < p.metadata.version.toInt64

instance (s : PremintStorage Text) (p : PremintTypes) : Decidable (Refused s p) :=
  decidable_of_iff ((s.table.lookup (premintKey p)).any
      (fun old => decide (¬ old.version < p.metadata.version.toInt64)) = true) (by
    rw [Option.any_eq_true]
    exact exists_congr fun old => and_congr_right fun _ => decide_eq_true_iff)

theorem refused_iff_affected_zero (now : Int) :
    Refused s p ↔ (s.table.upsert (newRow now p)
      (fun old => (newRow now p : Row Text).version > old.version) (upgradeRow (newRow now p))
      (upgradeRow_key (newRow now p))).1 = 0 := by
  rw [Lib.KeyedTable.upsert_affected_zero_iff, newRow_key]
  exact exists_congr fun old => and_congr_right fun _ => decide_eq_false_iff_not.symm

/-- **A refused upsert is an error and changes nothing.** -/
theorem store_of_refused (now : Int) (h : Refused s p) :
    s.store now p = (.error (.msg "Cannot store premint with lower version than existing"), s) := by
  have h0 := (refused_iff_affected_zero now).mp h
  unfold store
  simp only [if_pos h0, Lib.KeyedTable.upsert_unchanged h0]

/-- An upsert that is not refused succeeds. -/
theorem store_of_not_refused (now : Int) (h : ¬ Refused s p) : (s.store now p).1 = .ok () := by
  have h0 := fun h0 => h ((refused_iff_affected_zero now).mpr h0)
  unfold store
  simp only [if_neg h0]

theorem store_prune {now : Int} :
    (s.store now p).2.pruneMintedPremints = s.pruneMintedPremints := by
  unfold store
  dsimp only
  split <;> rfl

theorem store_table {now : Int} :
    (s.store now p).2.table = (s.table.upsert (newRow now p)
      (fun old => (newRow now p : Row Text).version > old.version) (upgradeRow (newRow now p))
      (upgradeRow_key (newRow now p))).2 := by
  unfold store
  dsimp only
  split <;> rfl

theorem lookup_store_of_ne {now : Int} {k : String × String} (hne : k ≠ premintKey p) :
    (s.store now p).2.table.lookup k = s.table.lookup k := by
  rw [store_table]
  exact Lib.KeyedTable.lookup_upsert_of_ne hne

/-- At its own key an upsert inserts, upgrades, or is refused. -/
theorem lookup_store_self (s : PremintStorage Text) (now : Int) (p : PremintTypes) :
    (s.store now p).2.table.lookup (premintKey p)
      = match s.table.lookup (premintKey p) with
        | none => some (newRow now p)
        | some old =>
            if old.version < p.metadata.version.toInt64 then some (upgradeRow (newRow now p) old)
            else some old := by
  rw [store_table]
  refine Lib.KeyedTable.lookup_upsert_self.trans ?_
  rw [newRow_key]
  cases s.table.lookup (premintKey p) with
  | none => rfl
  | some old => simp only [gt_iff_lt, decide_eq_true_eq]; rfl

theorem lookup_store_of_none (now : Int) (h : s.table.lookup (premintKey p) = none) :
    (s.store now p).2.table.lookup (premintKey p) = some (newRow now p) := by
  rw [lookup_store_self, h]

theorem lookup_store_of_lt {old : Row Text} (now : Int)
    (h : s.table.lookup (premintKey p) = some old)
    (hlt : old.version < p.metadata.version.toInt64) :
    (s.store now p).2.table.lookup (premintKey p) = some (upgradeRow (newRow now p) old) := by
  rw [lookup_store_self, h]
  exact if_pos hlt

/-- The first row that meets a condition on columns an upgrade keeps. -/
theorem find?_store (s : PremintStorage Text) (now : Int) (p : PremintTypes) {f : Row Text → Bool}
    (hf : ∀ excluded r, f (upgradeRow excluded r) = f r) :
    (s.store now p).2.table.rows.find? f = s.table.rows.find? f
      ∨ (∃ r, s.table.rows.find? f = some r ∧ r.key = premintKey p
        ∧ (s.store now p).2.table.rows.find? f = some (upgradeRow (newRow now p) r))
      ∨ (s.table.rows.find? f = none
        ∧ (s.store now p).2.table.rows.find? f = some (newRow now p)) := by
  rw [store_table]
  exact Lib.KeyedTable.find?_upsert (hf _)

/-- **Everything an upsert can do to its own key.** -/
theorem store_self_cases (s : PremintStorage Text) (now : Int) (p : PremintTypes) :
    (s.table.lookup (premintKey p) = none
        ∧ (s.store now p).2.table.lookup (premintKey p) = some (newRow now p))
      ∨ (∃ old, s.table.lookup (premintKey p) = some old
          ∧ old.version < p.metadata.version.toInt64
          ∧ (s.store now p).2.table.lookup (premintKey p) = some (upgradeRow (newRow now p) old))
      ∨ (Refused s p ∧ (s.store now p).2 = s) := by
  cases h : s.table.lookup (premintKey p) with
  | none => exact .inl ⟨rfl, lookup_store_of_none now h⟩
  | some old =>
      by_cases hlt : old.version < p.metadata.version.toInt64
      · exact .inr (.inl ⟨old, rfl, hlt, lookup_store_of_lt now h hlt⟩)
      · have hr : Refused s p := ⟨old, h, hlt⟩
        exact .inr (.inr ⟨hr, by rw [store_of_refused _ hr]⟩)

/-- **What is not refused is in the table afterwards.** -/
theorem stored_of_not_refused [LawfulCodec Text] (now : Int) (href : ¬ Refused s p) :
    ∃ r, (s.store now p).2.table.lookup (premintKey p) = some r
      ∧ r.version = p.metadata.version.toInt64 ∧ PremintTypes.fromJson r.json = .ok p := by
  rcases store_self_cases s now p with ⟨_, hnew⟩ | ⟨old, _, _, hup⟩ | ⟨h, _⟩
  · exact ⟨_, hnew, rfl, PremintTypes.fromJson_toJson p⟩
  · exact ⟨_, hup, rfl, PremintTypes.fromJson_toJson p⟩
  · exact absurd h href

/-- And the table is not what it was. -/
theorem store_table_ne (now : Int) (href : ¬ Refused s p) :
    (s.store now p).2.table ≠ s.table := by
  intro hsame
  rcases store_self_cases s now p with ⟨hnone, hnew⟩ | ⟨old, hold, hlt, hup⟩ | ⟨h, _⟩
  · rw [hsame, hnone] at hnew
    cases hnew
  · rw [hsame, hold] at hup
    have hversion := congrArg Row.version (Option.some.inj hup)
    have hnew : (upgradeRow (newRow now p) old).version = p.metadata.version.toInt64 := rfl
    rw [hnew] at hversion
    rw [hversion] at hlt
    exact absurd hlt (Int64.lt_irrefl)
  · exact absurd h href

end Store

/-! ## Sequences of the two -/

/-- A call of one of the `Writer`'s methods. -/
inductive Write where
  | store (now : Int) (premint : PremintTypes)
  | markSeenOnChain (claim : InclusionClaim)
  deriving DecidableEq, Repr

variable [Alloy] [Codec Text]

/-- The storage after the call. -/
def write (s : PremintStorage Text) : Write → PremintStorage Text
  | .store now premint => (s.store now premint).2
  | .markSeenOnChain claim => s.markSeenOnChain claim

theorem write_prune (s : PremintStorage Text) (w : Write) :
    (write s w).pruneMintedPremints = s.pruneMintedPremints := by
  cases w with
  | store now p => exact store_prune
  | markSeenOnChain claim => exact mark_prune

/-- **What is true of every row a call can leave behind is true of every row.** -/
theorem rows_write {P : Row Text → Prop} {s : PremintStorage Text} {w : Write}
    (hnew : ∀ now p, w = .store now p → s.table.lookup (premintKey p) = none →
      P (newRow now p))
    (hupgrade : ∀ now p old, w = .store now p → s.table.lookup (premintKey p) = some old →
      old.version < p.metadata.version.toInt64 → P old → P (upgradeRow (newRow now p) old))
    (hmark : ∀ r, P r → P (markRow r)) (h : ∀ r ∈ s.table.rows, P r) :
    ∀ r ∈ (write s w).table.rows, P r := by
  rw [Lib.KeyedTable.forall_mem_iff] at h ⊢
  intro k r hr
  -- a call touches one key, or marks rows in place
  cases w with
  | store now p =>
      by_cases hk : k = premintKey p
      · subst hk
        rcases store_self_cases s now p with ⟨hnone, hnew'⟩ | ⟨old, hold, hlt, hup⟩ | ⟨_, hsame⟩
        · rw [write, hnew'] at hr
          cases hr
          exact hnew now p rfl hnone
        · rw [write, hup] at hr
          cases hr
          exact hupgrade now p old rfl hold hlt (h _ old hold)
        · rw [write, hsame] at hr
          exact h _ r hr
      · rw [write, lookup_store_of_ne hk] at hr
        exact h k r hr
  | markSeenOnChain claim =>
      obtain ⟨r₀, hr₀, rfl | rfl⟩ := lookup_of_lookup_mark hr
      · exact h k _ hr₀
      · exact hmark r₀ (h k r₀ hr₀)

/-! ## What one insertion writes -/

/-- An upsert that is not refused keeps the evaluation as the result. -/
theorem storeAccepted_of_not_refused (m : Moment) {s : PremintStorage Text} {p : PremintTypes}
    (evaluation : Results) (h : ¬ Refused s p) :
    storeAccepted m s p evaluation = (.ok evaluation, (s.store m.clock.secs p).2) := by
  have hok := store_of_not_refused m.clock.secs h
  unfold storeAccepted
  cases hst : s.store m.clock.secs p with
  | mk result s' =>
      rw [hst] at hok
      cases hok
      rfl

/-- What the rules accept and the upsert does not refuse is inserted. -/
theorem validateAndInsert_of_accept {engine : RulesEngine Text} {m : Moment}
    {s : PremintStorage Text} {p : PremintTypes} {evaluation : Results}
    (hev : engine.evaluate m.chains p s.clone = .ok evaluation)
    (hacc : evaluation.isAccept = true) (href : ¬ Refused s p) :
    validateAndInsert engine m s p = (.ok evaluation, (s.store m.clock.secs p).2) := by
  unfold validateAndInsert
  rw [hev]
  dsimp only
  rw [if_pos hacc, storeAccepted_of_not_refused m evaluation href]

/-- **Everything `validate_and_insert` can do.** -/
theorem validateAndInsert_cases (engine : RulesEngine Text) (m : Moment) (s : PremintStorage Text)
    (p : PremintTypes) :
    (∃ e, validateAndInsert engine m s p = (.error e, s))
      ∨ ∃ evaluation, engine.evaluate m.chains p s.clone = .ok evaluation
          ∧ evaluation.isAccept = true ∧ ¬ Refused s p
          ∧ validateAndInsert engine m s p = (.ok evaluation, (s.store m.clock.secs p).2) := by
  unfold validateAndInsert
  cases hev : engine.evaluate m.chains p s.clone with
  | error report => exact .inl ⟨_, rfl⟩
  | ok evaluation =>
      dsimp only
      cases hacc : evaluation.isAccept with
      | false => exact .inl ⟨_, rfl⟩
      | true =>
          -- the upsert checks the version once more, and may still refuse
          rw [if_pos rfl]
          by_cases hr : Refused s p
          · unfold storeAccepted
            rw [store_of_refused _ hr]
            exact .inl ⟨_, rfl⟩
          · exact .inr ⟨evaluation, rfl, hacc, hr, storeAccepted_of_not_refused m evaluation hr⟩

/-- So an insertion writes nothing, or stores its premint. -/
theorem validateAndInsert_writes (engine : RulesEngine Text) (m : Moment)
    (s : PremintStorage Text) (p : PremintTypes) :
    ∃ ws : List Write, (∀ w ∈ ws, w = .store m.clock.secs p)
      ∧ (validateAndInsert engine m s p).2 = ws.foldl write s := by
  rcases validateAndInsert_cases engine m s p with ⟨_, h⟩ | ⟨_, _, _, _, h⟩
  · exact ⟨[], by simp, by rw [h]; rfl⟩
  · exact ⟨[.store m.clock.secs p], by simp, by rw [h]; rfl⟩

/-! ## What a batch writes -/

/-- What one act of a task does to its state and to the store. -/
inductive Acted (engine : RulesEngine Text) (m : Moment) (s : PremintStorage Text)
    (p : PremintTypes) : TaskState → PremintStorage Text → TaskState → Prop
  | start : Acted engine m s p .waiting s .started
  | unreadable {report : Report} (h : RulesEngine.readExisting s.clone p = .error report) :
      Acted engine m s p .started s (.done (.error (.evaluate report)))
  | read {existing : Option PremintTypes}
      (h : RulesEngine.readExisting s.clone p = .ok existing) :
      Acted engine m s p .started s (.readExisting existing)
  | accept {existing : Option PremintTypes}
      (h : (engine.checkRules m.chains p s.clone existing).isAccept = true) :
      Acted engine m s p (.readExisting existing) s
        (.accepted (engine.checkRules m.chains p s.clone existing))
  | reject {existing : Option PremintTypes}
      (h : (engine.checkRules m.chains p s.clone existing).isAccept = false) :
      Acted engine m s p (.readExisting existing) s
        (.done (.error (.rejected (engine.checkRules m.chains p s.clone existing))))
  | store {evaluation : Results} :
      Acted engine m s p (.accepted evaluation) (write s (.store m.clock.secs p))
        (.done (storeAccepted m s p evaluation).1)

/-- **Everything an act can do.** -/
theorem acted_of_act {engine : RulesEngine Text} {m : Moment} {s s' : PremintStorage Text}
    {t t' : Task} (h : Task.act engine m s t = some (s', t')) :
    t'.premint = t.premint ∧ Acted engine m s t.premint t.state s' t'.state := by
  obtain ⟨p, state⟩ := t
  unfold Task.act at h
  cases state with
  | waiting => cases h; exact ⟨rfl, .start⟩
  | started =>
      dsimp only at h
      split at h
      · rename_i hread; cases h; exact ⟨rfl, .unreadable hread⟩
      · rename_i hread; cases h; exact ⟨rfl, .read hread⟩
  | readExisting existing =>
      dsimp only at h
      split at h
      · rename_i hacc; cases h; exact ⟨rfl, .accept hacc⟩
      · rename_i hacc; cases h; exact ⟨rfl, .reject (by simpa using hacc)⟩
  | accepted evaluation =>
      have hstore : (storeAccepted m s p evaluation).2 = write s (.store m.clock.secs p) := by
        unfold storeAccepted
        split <;> (rename_i hst; rw [write, hst])
      dsimp only at h
      cases h
      exact ⟨rfl, by rw [hstore]; exact .store⟩
  | done result => cases h

/-- So an act leaves the store alone, or stores the task's premint. -/
theorem act_writes {engine : RulesEngine Text} {m : Moment} {s s' : PremintStorage Text}
    {t t' : Task} (h : Task.act engine m s t = some (s', t')) :
    t'.premint = t.premint ∧ (s' = s ∨ ∃ now, s' = write s (.store now t.premint)) := by
  obtain ⟨hp, hacted⟩ := acted_of_act h
  refine ⟨hp, ?_⟩
  generalize t.state = state, t'.state = state' at hacted
  cases hacted with
  | store => exact .inr ⟨_, rfl⟩
  | _ => exact .inl rfl

/-- The tasks work on premints of the batch, and so did the calls made so far. -/
def BatchOf (premints : List PremintTypes) (b : Batch Text) (ws : List Write) : Prop :=
  (∀ t ∈ b.tasks, t.premint ∈ premints)
    ∧ ∀ w ∈ ws, ∃ now, ∃ p ∈ premints, w = .store now p

omit [Alloy] [Codec Text] in
theorem batchOf_start (s : PremintStorage Text) (premints : List PremintTypes) :
    BatchOf premints (Batch.start s premints) [] := by
  refine ⟨fun t ht => ?_, by simp⟩
  obtain ⟨p, hp, rfl⟩ := List.mem_map.mp ht
  exact hp

theorem batchOf_step {engine : RulesEngine Text} {premints : List PremintTypes} {b b' : Batch Text}
    {ws : List Write} {i : Nat} {m : Moment} (h : BatchOf premints b ws)
    (hs : Lib.Interleave.step Task.gate (Task.act engine) b i m = some b') :
    (b'.shared = b.shared ∧ BatchOf premints b' ws)
      ∨ ∃ w, b'.shared = write b.shared w ∧ BatchOf premints b' (ws ++ [w]) := by
  obtain ⟨t, s', t', ht, _, hact, rfl⟩ := Lib.Interleave.step_cases hs
  obtain ⟨hp, hw⟩ := act_writes hact
  have htp : t.premint ∈ premints := h.1 t (List.mem_of_getElem? ht)
  have htasks : ∀ u ∈ b.tasks.set i t', u.premint ∈ premints := by
    intro u hu
    rcases List.mem_or_eq_of_mem_set hu with hu | rfl
    · exact h.1 u hu
    · rw [hp]; exact htp
  rcases hw with rfl | ⟨now, rfl⟩
  · exact .inl ⟨rfl, htasks, h.2⟩
  · refine .inr ⟨.store now t.premint, rfl, htasks, fun w hw => ?_⟩
    rcases List.mem_append.mp hw with hw | hw
    · exact h.2 w hw
    · exact ⟨now, _, htp, List.mem_singleton.mp hw⟩

/-- **Under any schedule, a batch stores premints of the batch, one after another.** -/
theorem batch_writes {engine : RulesEngine Text} {s : PremintStorage Text}
    {premints : List PremintTypes} {schedule : List (Nat × Moment)} {b : Batch Text}
    (h : Batch.Schedule engine (Batch.start s premints) schedule b) :
    ∃ ws : List Write, (∀ w ∈ ws, ∃ now, ∃ p ∈ premints, w = .store now p)
      ∧ b.shared = ws.foldl write s := by
  obtain ⟨ws, hws, hsh⟩ := Lib.Interleave.serializes write (BatchOf premints) h
    (batchOf_start s premints) (fun _ _ _ _ hb hs => batchOf_step hb hs)
  exact ⟨ws, hws.2, hsh⟩

end Mintpool.Proof
