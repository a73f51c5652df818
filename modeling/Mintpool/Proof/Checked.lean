import Mintpool.Proof.TokenUri
import Mintpool.Proof.Turns

/-!
# Runs in which no rule fails

A failing rule silences all others, so what the rules are for can only be promised of
runs in which every check returns `Ok`. The checks of a step are not all made at one
moment: those of a sync response are spread over its schedule. A step is therefore
taken apart into turns and acts, and restricted by a condition on each.
-/

namespace Mintpool.Proof

open Mintpool PremintStorage

section Checked

variable {Text : Type} [Codec Text]

/-! ## What the rules let through -/

/-- The rules looked at the premint, none of them failed, and none of them rejected it. -/
def Vetted (engine : RulesEngine Text) (p : PremintTypes) : Prop :=
  ∃ context : RuleContext Text, ∀ rule ∈ engine.rules,
    ∃ evaluation, rule.check p context = .ok evaluation ∧ evaluation.isReject = false

omit [Codec Text] in
theorem vetted_of_checkRules {engine : RulesEngine Text} {chains : Chains} {p : PremintTypes}
    {s : PremintStorage Text} {existing : Option PremintTypes}
    (hok : (engine.checkRules chains p s existing).isErr = false)
    (hacc : (engine.checkRules chains p s existing).isAccept = true) : Vetted engine p := by
  refine ⟨{ storage := s, existing := existing, rpc := engine.contextRpc chains p.metadata },
    fun rule hrule => ?_⟩
  have hmem : RuleResult.mk rule.ruleName (rule.check p
      { storage := s, existing, rpc := engine.contextRpc chains p.metadata })
        ∈ (engine.checkRules chains p s existing).results :=
    List.mem_map_of_mem hrule
  -- nothing failed and nothing rejected, so this rule did neither
  rw [Results.isAccept_eq, hok, Bool.false_or, Bool.not_eq_true'] at hacc
  have herr := List.any_eq_false.mp hok _ hmem
  have hrej := List.any_eq_false.mp hacc _ hmem
  unfold RuleResult.isErr at herr
  unfold RuleResult.isReject at hrej
  dsimp only at herr hrej
  split at hrej
  · rename_i e he
    rw [he] at herr
    simp at herr
  · rename_i e he
    exact ⟨e, he, by simpa using hrej⟩

theorem vetted_of_insert {engine : RulesEngine Text} {m : Moment} {s : PremintStorage Text}
    {p : PremintTypes} {evaluation : Results} (hok : ¬ Failed engine m s p)
    (hev : engine.evaluate m.chains p s.clone = .ok evaluation)
    (hacc : evaluation.isAccept = true) : Vetted engine p := by
  obtain ⟨existing, hread, rfl⟩ := evaluate_ok_iff.mp hev
  have herr := Bool.eq_false_iff.mpr (fun h => hok ((failed_iff_isErr hread).mpr h))
  exact @vetted_of_checkRules _ engine m.chains p s.clone existing herr hacc

variable [Alloy]

/-! ## Steps that meet a condition -/

/-- An act of a batch whose task meets the condition. -/
def BatchStepIf (engine : RulesEngine Text) (D : Moment → PremintStorage Text → Task → Prop)
    (b : Batch Text) (im : Nat × Moment) (b' : Batch Text) : Prop :=
  Batch.step engine b im.1 im.2 = some b'
    ∧ ∀ t, b.tasks[im.1]? = some t → D im.2 b.shared t

/-- What handling an input does to the store, by turns that meet `C` or acts that meet `D`. -/
inductive StoreStepIf (engine : RulesEngine Text) (C : PremintStorage Text → Turn → Prop)
    (D : Moment → PremintStorage Text → Task → Prop) (s : PremintStorage Text)
    (i : Controller.Input) : PremintStorage Text → Prop
  | same : StoreStepIf engine C D s i s
  | turn {t : Turn} (h : Calls i t) (hC : C s t) : StoreStepIf engine C D s i (turn engine s t)
  | batch {premints : List PremintTypes} {schedule : List (Nat × Moment)} {b : Batch Text}
      (hi : i = .event (.syncResponse premints))
      (h : Lib.Run (BatchStepIf engine D) (Batch.start s premints) schedule b)
      (hdone : b.isDone = true) : StoreStepIf engine C D s i b.shared

/-- A turn of the run loop that did what it did to the store that way. -/
def StepIf [Libp2p] (engine : RulesEngine Text) (C : PremintStorage Text → Turn → Prop)
    (D : Moment → PremintStorage Text → Task → Prop) (c : Controller Text)
    (i : Controller.Input) (c' : Controller Text) : Prop :=
  Controller.Step c i c' ∧ StoreStepIf engine C D c.store i c'.store

/-- No rule fails, if this act asks the rules. -/
def ActChecked (engine : RulesEngine Text) (m : Moment) (s : PremintStorage Text)
    (t : Task) : Prop :=
  ∀ existing, t.state = .readExisting existing →
    (engine.checkRules m.chains t.premint s.clone existing).isErr = false

/-- A step in which every rule check returns `Ok`. -/
def CheckedStep [Libp2p] (engine : RulesEngine Text) :
    Controller Text → Controller.Input → Controller Text → Prop :=
  StepIf engine (ChecksOk engine) (ActChecked engine)

theorem run_of_stepIf [Libp2p] {engine : RulesEngine Text} {C : PremintStorage Text → Turn → Prop}
    {D : Moment → PremintStorage Text → Task → Prop} {c c' : Controller Text}
    {is : List Controller.Input} (h : Lib.Run (StepIf engine C D) c is c') :
    Controller.Run c is c' :=
  Lib.Run.mono (fun hs => hs.1) h

theorem validateAndInsert_rules (c : Controller Text) (m : Moment)
    (p : PremintTypes) : (c.validateAndInsert m p).2.rules = c.rules := rfl

/-- A premint arrives by gossip. -/
theorem receive_stepIf [Libp2p] {engine : RulesEngine Text}
    {C : PremintStorage Text → Turn → Prop} {D : Moment → PremintStorage Text → Task → Prop}
    {c : Controller Text} {m : Moment} {p : PremintTypes} (hrules : c.rules = engine)
    (hC : C c.store (.insert m p)) :
    StepIf engine C D c (.event (.premintReceived p)) (c.validateAndInsert m p).2 := by
  refine ⟨.event (.premintReceived m p), ?_⟩
  have hturn : (c.validateAndInsert m p).2.store = turn engine c.store (.insert m p) := by
    rw [turn, ← hrules]
    rfl
  rw [hturn]
  exact .turn rfl hC

/-! ## What is stored -/

/-- Every row holds a premint with the property. -/
def AllStored (V : PremintTypes → Prop) (s : PremintStorage Text) : Prop :=
  ∀ r ∈ s.table.rows, ∃ p, Holds r p ∧ V p

theorem allStored_write [LawfulCodec Text] {V : PremintTypes → Prop} {s : PremintStorage Text}
    {w : Write} (h : AllStored V s)
    (hV : ∀ now p, w = .store now p → Refused s p ∨ V p) : AllStored V (write s w) := by
  refine rows_write ?_ ?_ ?_ h
  · intro now p hw hnone
    rcases hV now p hw with ⟨old, hold, _⟩ | hVp
    · rw [hnone] at hold
      cases hold
    · exact ⟨p, holds_newRow now p, hVp⟩
  · -- the upgraded row holds the new premint, unless the store was refused
    rintro now p old hw hold hlt ⟨q, hq, _⟩
    rcases hV now p hw with ⟨old', hold', hnot⟩ | hVp
    · rw [hold] at hold'
      cases hold'
      exact absurd hlt hnot
    · exact ⟨p, holds_upgradeRow now (Lib.KeyedTable.lookup_some hold).2 hq, hVp⟩
  · rintro r ⟨p, hp, hVp⟩
    exact ⟨p, holds_markRow hp, hVp⟩

section Stored

variable {engine : RulesEngine Text} {C : PremintStorage Text → Turn → Prop}
  {D : Moment → PremintStorage Text → Task → Prop} {A V : PremintTypes → Prop}

/-- What a batch keeps true: `V` of what is stored, and `A` of what has been accepted. -/
structure BatchKeeps (A V : PremintTypes → Prop) (b : Batch Text) : Prop where
  stored : AllStored V b.shared
  accepted : ∀ t ∈ b.tasks, ∀ evaluation, t.state = .accepted evaluation → A t.premint

theorem batchKeeps_step [LawfulCodec Text]
    (hread : ∀ m s t existing, D m s t → t.state = .readExisting existing →
      (engine.checkRules m.chains t.premint s.clone existing).isAccept = true → A t.premint)
    (hstore : ∀ m s t evaluation, D m s t → t.state = .accepted evaluation → A t.premint →
      Refused s t.premint ∨ V t.premint)
    {b b' : Batch Text} {im : Nat × Moment} (h : BatchKeeps A V b)
    (hs : BatchStepIf engine D b im b') : BatchKeeps A V b' := by
  obtain ⟨hstep, hD⟩ := hs
  obtain ⟨t, s', t', ht, _, hact, rfl⟩ := Lib.Interleave.step_cases hstep
  obtain ⟨hp, hacted⟩ := acted_of_act hact
  have hDt := hD t ht
  have hmem : t ∈ b.tasks := List.mem_of_getElem? ht
  -- only the task that moves can be newly accepted
  have htasks : (∀ evaluation, t'.state = .accepted evaluation → A t'.premint) →
      ∀ u ∈ b.tasks.set im.1 t', ∀ evaluation, u.state = .accepted evaluation → A u.premint := by
    intro ht' u hu
    rcases List.mem_or_eq_of_mem_set hu with hu | rfl
    · exact h.accepted u hu
    · exact ht'
  generalize hst : t.state = state, hst' : t'.state = state' at hacted
  cases hacted with
  | start => exact ⟨h.stored, htasks fun _ he => by rw [hst'] at he; cases he⟩
  | unreadable _ => exact ⟨h.stored, htasks fun _ he => by rw [hst'] at he; cases he⟩
  | read _ => exact ⟨h.stored, htasks fun _ he => by rw [hst'] at he; cases he⟩
  | accept hacc =>
      -- this is where the rules have their say
      exact ⟨h.stored, htasks fun _ _ => by rw [hp]; exact hread _ _ t _ hDt hst hacc⟩
  | reject _ => exact ⟨h.stored, htasks fun _ he => by rw [hst'] at he; cases he⟩
  | @store evaluation =>
      -- and this is where the row is written
      have hA := h.accepted t hmem _ hst
      refine ⟨allStored_write h.stored ?_, htasks fun _ he => by rw [hst'] at he; cases he⟩
      intro now p hw
      cases hw
      exact hstore _ _ t _ hDt hst hA

/--
**What is stored in a run whose steps meet a condition.** `A` is what the rules
ensured by the time they accept, and `V` what is known when the upsert goes through.
-/
theorem allStored_run [LawfulCodec Text] [Libp2p]
    (hturn : ∀ m s p evaluation, C s (.insert m p) →
      engine.evaluate m.chains p s.clone = .ok evaluation → evaluation.isAccept = true →
      ¬ Refused s p → V p)
    (hread : ∀ m s t existing, D m s t → t.state = .readExisting existing →
      (engine.checkRules m.chains t.premint s.clone existing).isAccept = true → A t.premint)
    (hstore : ∀ m s t evaluation, D m s t → t.state = .accepted evaluation → A t.premint →
      Refused s t.premint ∨ V t.premint)
    {c c' : Controller Text} {is : List Controller.Input} (h0 : AllStored V c.store)
    (h : Lib.Run (StepIf engine C D) c is c') : AllStored V c'.store := by
  refine Lib.Run.invariant (P := fun c => AllStored V c.store) h0 ?_ h
  rintro c i c' hV ⟨_, hs⟩
  generalize c'.store = s' at hs
  cases hs with
  | same => exact hV
  | @turn t _ hC =>
      -- everything at one go: the rules accepted it just before it was stored
      cases t with
      | markSeenOnChain claim =>
          exact allStored_write (w := .markSeenOnChain claim) hV (fun _ _ hw => by cases hw)
      | insert m p =>
          rcases validateAndInsert_cases engine m c.store p with ⟨e, hins⟩ |
            ⟨evaluation, hev, hacc, href, hins⟩
          · rw [turn, hins]
            exact hV
          · rw [turn, hins]
            refine allStored_write (w := .store m.clock.secs p) hV fun now q hw => ?_
            cases hw
            exact .inr (hturn m c.store p evaluation hC hev hacc href)
  | @batch premints schedule b _ hrun _ =>
      -- a batch starts with no task accepted, and each of its steps keeps what is needed
      have hstart : BatchKeeps A V (Batch.start c.store premints) := by
        refine ⟨hV, fun t ht evaluation he => ?_⟩
        obtain ⟨p, _, rfl⟩ := List.mem_map.mp ht
        cases he
      exact (Lib.Run.invariant hstart
        (fun _ _ _ hb hs => batchKeeps_step hread hstore hb hs) hrun).stored

end Stored

end Checked

end Mintpool.Proof
