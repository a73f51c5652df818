import Mintpool.Proof.Durable

/-!
# What becomes of a sync response

The premints of a response are checked and inserted by tasks that run past each other, so a
premint may be checked against a table that is another one by the time it is stored. Under
any schedule, though, each of them ends in one of two ways. In some turn the rules object to it,
with the row to be replaced read in an earlier turn. Or the table has it in the end, at its own
version or at a higher one: the upsert refuses it only for that. Versions are compared as the
column has them, in 64 bits with a sign.
-/

namespace Mintpool.Proof

open Mintpool PremintStorage

variable {Text : Type} [Alloy] [Codec Text]

/-- The table has a version of the premint that is no lower than its own. -/
def UpToDate (s : PremintStorage Text) (p : PremintTypes) : Prop :=
  ∃ r, s.table.lookup (premintKey p) = some r ∧ p.metadata.version.toInt64 ≤ r.version

/-- In this turn a task asks the rules about the premint, at the turn's moment, over the table as
it is then and with the row that the task has read; and they object. -/
def Objects (engine : RulesEngine Text) (p : PremintTypes) (b : Batch Text)
    (turn : Nat × Moment) (_ : Batch Text) : Prop :=
  ∃ existing, b.tasks[turn.1]? = some ⟨p, .readExisting existing⟩
    ∧ (engine.checkRules turn.2.chains p b.shared.clone existing).isAccept = false

/-- In one of the turns of the schedule the rules object to the premint. -/
def TurnedAway (engine : RulesEngine Text) (b : Batch Text) (schedule : List (Nat × Moment))
    (b' : Batch Text) (p : PremintTypes) : Prop :=
  Lib.Once
    (fun b turn b' => Lib.Interleave.step Task.gate (Task.act engine) b turn.1 turn.2 = some b')
    (Objects engine p) b schedule b'

section UpToDate

variable {s : PremintStorage Text} {p q : PremintTypes}

/-- **An upsert leaves its premint up to date, refused or not.** -/
theorem upToDate_store (s : PremintStorage Text) (now : Int) (p : PremintTypes) :
    UpToDate (write s (.store now p)) p := by
  rcases store_self_cases s now p with ⟨_, hnew⟩ | ⟨old, _, _, hup⟩ | ⟨⟨old, hold, hnot⟩, hsame⟩
  · exact ⟨_, hnew, Int64.le_refl _⟩
  · exact ⟨_, hup, Int64.le_refl _⟩
  · exact ⟨old, by rw [write, hsame]; exact hold, Int64.not_lt.mp hnot⟩

/-- What is up to date stays so while others are stored. -/
theorem UpToDate.store (now : Int) (h : UpToDate s p) : UpToDate (write s (.store now q)) p := by
  obtain ⟨r, hr, hle⟩ := h
  rcases outlives_write (.store now q) hr with ⟨r', hr', hout⟩ | hprunes
  · exact ⟨r', hr', Int64.le_trans hle hout.version_le⟩
  · exact hprunes.elim

/-- Where every row holds a premint, reading the one to be replaced does not fail. -/
theorem readExisting_ok (h : AllHold s) (p : PremintTypes) :
    ∃ existing, RulesEngine.readExisting s.clone p = .ok existing := by
  have hget : s.clone.getForIdAndKind p.metadata.id p.metadata.kind
      = decodeOne (s.table.lookup (premintKey p)) := rfl
  unfold RulesEngine.readExisting
  rw [hget]
  cases hl : s.table.lookup (premintKey p) with
  | none => exact ⟨none, rfl⟩
  | some r =>
      obtain ⟨q, hq⟩ := h r (Lib.KeyedTable.lookup_some hl).1
      have hdecode : decodeOne (some r) = .ok q := hq.json
      rw [hdecode]
      exact ⟨some q, rfl⟩

end UpToDate

/-! ## One act of a task -/

section Batch

variable {engine : RulesEngine Text} {b₀ b b' : Batch Text} {schedule : List (Nat × Moment)}

/-- What a task that is done has come to, after these turns. -/
def Settles (engine : RulesEngine Text) (b₀ : Batch Text) (schedule : List (Nat × Moment))
    (b : Batch Text) (t : Task) : Prop :=
  t.isDone = true → UpToDate b.shared t.premint ∨ TurnedAway engine b₀ schedule b t.premint

/-- How far a batch has come. -/
structure Midway (engine : RulesEngine Text) (b₀ : Batch Text) (schedule : List (Nat × Moment))
    (b : Batch Text) : Prop where
  tasks : b.tasks.map Task.premint = b₀.tasks.map Task.premint
  allHold : AllHold b.shared
  settles : ∀ t ∈ b.tasks, Settles engine b₀ schedule b t

theorem midway_start {s : PremintStorage Text} (premints : List PremintTypes) (h : AllHold s) :
    Midway engine (Batch.start s premints) [] (Batch.start s premints) where
  tasks := rfl
  allHold := h
  settles := by
    intro t ht hdone
    obtain ⟨p, _, rfl⟩ := List.mem_map.mp ht
    cases hdone

theorem midway_step [LawfulCodec Text] {i : Nat} {m : Moment}
    (hrun : Batch.Schedule engine b₀ schedule b) (h : Midway engine b₀ schedule b)
    (hs : Lib.Interleave.step Task.gate (Task.act engine) b i m = some b') :
    Midway engine b₀ (schedule ++ [(i, m)]) b' := by
  obtain ⟨⟨p, state⟩, s', ⟨p', state'⟩, ht, _, hact, rfl⟩ := Lib.Interleave.step_cases hs
  obtain ⟨hp, hacted⟩ := acted_of_act hact
  obtain rfl : p' = p := hp
  have htasks : (b.tasks.set i ⟨p', state'⟩).map Task.premint = b₀.tasks.map Task.premint := by
    have hsame : (⟨p', state'⟩ : Task).premint = Task.premint ⟨p', state⟩ := rfl
    rw [Lib.Interleave.map_set_eq ht hsame, h.tasks]
  -- the other tasks are as settled as they were, if what is up to date stays so
  have hall : AllHold s' → (∀ q, UpToDate b.shared q → UpToDate s' q) →
      Settles engine b₀ (schedule ++ [(i, m)]) ⟨s', b.tasks.set i ⟨p', state'⟩⟩ ⟨p', state'⟩ →
      Midway engine b₀ (schedule ++ [(i, m)]) ⟨s', b.tasks.set i ⟨p', state'⟩⟩ := by
    refine fun hhold hkeep hself => ⟨htasks, hhold, fun u hu => ?_⟩
    rcases List.mem_or_eq_of_mem_set hu with hu | rfl
    · intro hdone
      rcases h.settles u hu hdone with hup | haway
      · exact .inl (hkeep _ hup)
      · exact .inr (haway.trans (.single hs))
    · exact hself
  cases hacted with
  | start | read | accept => exact hall h.allHold (fun _ => id) fun hdone => by cases hdone
  | unreadable hread =>
      -- the row that is there holds a premint
      obtain ⟨existing, hok⟩ := readExisting_ok h.allHold p'
      rw [hok] at hread
      cases hread
  | reject hrej =>
      exact hall h.allHold (fun _ => id) fun _ => .inr (.last hrun hs ⟨_, ht, hrej⟩)
  | store =>
      exact hall (allHold_write _ _ h.allHold) (fun _ => UpToDate.store _) fun _ =>
        .inl (upToDate_store _ _ _)

/-- **Under any schedule, each premint of a batch is up to date in the end, or turned away on the
way.** -/
theorem batch_outcome [LawfulCodec Text] {s : PremintStorage Text} {premints : List PremintTypes}
    (hhold : AllHold s) (h : Batch.Schedule engine (Batch.start s premints) schedule b)
    (hdone : b.isDone = true) {p : PremintTypes} (hp : p ∈ premints) :
    UpToDate b.shared p ∨ TurnedAway engine (Batch.start s premints) schedule b p := by
  have hmidway : Midway engine (Batch.start s premints) schedule b := by
    clear hdone
    induction h with
    | nil => exact midway_start premints hhold
    | snoc hrun hs ih => exact midway_step hrun ih hs
  have htasks : b.tasks.map Task.premint = premints := by
    rw [hmidway.tasks]
    simp [Batch.start, Function.comp_def]
  rw [← htasks] at hp
  obtain ⟨t, ht, rfl⟩ := List.mem_map.mp hp
  exact hmidway.settles t ht (List.all_eq_true.mp hdone t ht)

end Batch

end Mintpool.Proof
