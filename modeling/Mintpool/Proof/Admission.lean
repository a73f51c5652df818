import Mintpool.Proof.Writes
import Mintpool.Sample

/-!
# When a premint is let in

A rule objects by rejecting a premint or by failing on it. `only_failures` treats the
two alike, and the node is built to insert only what no rule objects to. But
`is_reject` is false as soon as one rule fails, and `is_accept` is its negation: one
failure silences every rejection, its own included. So an objection is respected
exactly when it is a rejection and nothing failed, or when the upsert refuses the
premint anyway.
-/

namespace Mintpool.Proof

open Mintpool PremintStorage

/-! ## The decision -/

theorem isErr_iff (r : RuleResult) : r.isErr = true ↔ ∃ e, r.result = .error e := by
  unfold RuleResult.isErr
  cases h : r.result with
  | error e => simp
  | ok e => simp

theorem Results.isAccept_eq (r : Results) :
    r.isAccept = (r.isErr || !r.results.any RuleResult.isReject) := by
  simp [Results.isAccept, Results.isReject]

variable {Text : Type} [Codec Text]

/-- What one rule answers about a premint, in the context `evaluate` gives it. -/
def answer (engine : RulesEngine Text) (m : Moment) (s : PremintStorage Text) (p : PremintTypes)
    (existing : Option PremintTypes) (rule : Rule Text) : Except Report Evaluation :=
  rule.check p { storage := s.clone, existing, rpc := engine.contextRpc m.chains p.metadata }

theorem evaluate_ok_iff {engine : RulesEngine Text} {m : Moment} {s : PremintStorage Text}
    {p : PremintTypes} {evaluation : Results} :
    engine.evaluate m.chains p s.clone = .ok evaluation
      ↔ ∃ existing, RulesEngine.readExisting s.clone p = .ok existing
        ∧ evaluation = ⟨engine.rules.map fun rule =>
            ⟨rule.ruleName, answer engine m s p existing rule⟩⟩ := by
  unfold RulesEngine.evaluate
  cases hread : RulesEngine.readExisting s.clone p with
  | error report =>
      constructor
      · intro h; cases h
      · rintro ⟨_, h, _⟩; cases h
  | ok existing =>
      constructor
      · intro h; cases h; exact ⟨existing, rfl, rfl⟩
      · rintro ⟨_, h, rfl⟩; cases h; rfl

/-! ## Objections -/

/-- Some rule was asked about the premint and rejected it or failed on it. -/
def Objected (engine : RulesEngine Text) (m : Moment) (s : PremintStorage Text)
    (p : PremintTypes) : Prop :=
  ∃ existing, RulesEngine.readExisting s.clone p = .ok existing ∧ ∃ rule ∈ engine.rules,
    (∃ reason, answer engine m s p existing rule = .ok (.reject reason))
      ∨ ∃ report, answer engine m s p existing rule = .error report

/-- Some rule was asked about the premint and failed on it. -/
def Failed (engine : RulesEngine Text) (m : Moment) (s : PremintStorage Text)
    (p : PremintTypes) : Prop :=
  ∃ existing, RulesEngine.readExisting s.clone p = .ok existing ∧ ∃ rule ∈ engine.rules,
    ∃ report, answer engine m s p existing rule = .error report

/-- The results of the rules hold a failure exactly when some rule failed. -/
theorem failed_iff_isErr {engine : RulesEngine Text} {m : Moment} {s : PremintStorage Text}
    {p : PremintTypes} {existing : Option PremintTypes}
    (hread : RulesEngine.readExisting s.clone p = .ok existing) :
    Failed engine m s p ↔ Results.isErr ⟨engine.rules.map fun rule =>
      ⟨rule.ruleName, answer engine m s p existing rule⟩⟩ = true := by
  rw [Results.isErr, List.any_map, List.any_eq_true]
  constructor
  · rintro ⟨existing', hread', rule, hrule, h⟩
    rw [hread] at hread'
    cases hread'
    exact ⟨rule, hrule, (isErr_iff _).mpr h⟩
  · rintro ⟨rule, hrule, h⟩
    exact ⟨existing, hread, rule, hrule, (isErr_iff _).mp h⟩

/-- Without a failure, an objection is a rejection that counts. -/
theorem not_isAccept_of_objected {engine : RulesEngine Text} {m : Moment}
    {s : PremintStorage Text} {p : PremintTypes} {evaluation : Results}
    (hev : engine.evaluate m.chains p s.clone = .ok evaluation) (hobj : Objected engine m s p)
    (hfail : ¬ Failed engine m s p) : evaluation.isAccept = false := by
  obtain ⟨existing, hread, rfl⟩ := evaluate_ok_iff.mp hev
  obtain ⟨existing', hread', rule, hrule, hreject | herror⟩ := hobj
  · rw [hread] at hread'
    cases hread'
    obtain ⟨reason, hreason⟩ := hreject
    have hany : (engine.rules.map fun rule => RuleResult.mk rule.ruleName
        (answer engine m s p existing rule)).any RuleResult.isReject = true := by
      rw [List.any_map, List.any_eq_true]
      exact ⟨rule, hrule, by simp [RuleResult.isReject, hreason, Evaluation.isReject]⟩
    rw [Results.isAccept_eq, hany, Bool.eq_false_iff.mpr
      (fun h => hfail ((failed_iff_isErr hread).mpr h))]
    rfl
  · exact absurd ⟨existing', hread', rule, hrule, herror⟩ hfail

/-- A failure makes every evaluation an acceptance. -/
theorem isAccept_of_failed {engine : RulesEngine Text} {m : Moment} {s : PremintStorage Text}
    {p : PremintTypes} (hfail : Failed engine m s p) :
    ∃ evaluation, engine.evaluate m.chains p s.clone = .ok evaluation
      ∧ evaluation.isAccept = true := by
  obtain ⟨existing, hread, _⟩ := id hfail
  refine ⟨_, evaluate_ok_iff.mpr ⟨existing, hread, rfl⟩, ?_⟩
  rw [Results.isAccept_eq, (failed_iff_isErr hread).mp hfail]
  rfl

/-- Without any objection the premint is accepted. -/
theorem isAccept_of_not_objected {engine : RulesEngine Text} {m : Moment}
    {s : PremintStorage Text} {p : PremintTypes} {evaluation : Results}
    (hev : engine.evaluate m.chains p s.clone = .ok evaluation) (hobj : ¬ Objected engine m s p) :
    evaluation.isAccept = true := by
  obtain ⟨existing, hread, rfl⟩ := evaluate_ok_iff.mp hev
  have hany : (engine.rules.map fun rule => RuleResult.mk rule.ruleName
      (answer engine m s p existing rule)).any RuleResult.isReject = false := by
    rw [List.any_map, List.any_eq_false]
    intro rule hrule hreject
    refine hobj ⟨existing, hread, rule, hrule, .inl ?_⟩
    unfold RuleResult.isReject Evaluation.isReject at hreject
    dsimp only [Function.comp_apply] at hreject
    split at hreject
    · cases hreject
    · rename_i e he
      split at hreject
      · exact ⟨_, he⟩
      · cases hreject
  rw [Results.isAccept_eq, hany]
  exact Bool.or_true _

section Insert

variable [Alloy]

/-- What an insertion leaves behind. -/
theorem validateAndInsert_snd (engine : RulesEngine Text) (m : Moment) (s : PremintStorage Text)
    (p : PremintTypes) : (validateAndInsert engine m s p).2
      = match RulesEngine.readExisting s.clone p with
        | .error _ => s
        | .ok existing =>
            if (engine.checkRules m.chains p s.clone existing).isAccept then
              write s (.store m.clock.secs p)
            else s := by
  unfold validateAndInsert RulesEngine.evaluate
  cases RulesEngine.readExisting s.clone p with
  | error report => rfl
  | ok existing =>
      dsimp only [bind, Except.bind, pure, Except.pure]
      split
      · unfold storeAccepted
        split <;> (rename_i hst; rw [write, hst])
      · rfl

/-- An insertion that a rule objects to, or that the upsert refuses, changes nothing. -/
theorem insert_of_objected_or_refused {engine : RulesEngine Text} {m : Moment}
    {s : PremintStorage Text} {p : PremintTypes} (hfail : ¬ Failed engine m s p)
    (h : Objected engine m s p ∨ Refused s p) : (validateAndInsert engine m s p).2 = s := by
  rcases validateAndInsert_cases engine m s p with ⟨e, hins⟩ | ⟨evaluation, hev, hacc, hr, _⟩
  · rw [hins]
  · rcases h with hobj | href
    · rw [not_isAccept_of_objected hev hobj hfail] at hacc
      cases hacc
    · exact absurd href hr

/-- Any other insertion stores its premint. -/
theorem insert_of_not_objected {engine : RulesEngine Text} {m : Moment} {s : PremintStorage Text}
    {p : PremintTypes} {existing : Option PremintTypes}
    (hread : RulesEngine.readExisting s.clone p = .ok existing)
    (hobj : ¬ Objected engine m s p) (href : ¬ Refused s p) :
    (validateAndInsert engine m s p).2 = write s (.store m.clock.secs p) := by
  have hev : engine.evaluate m.chains p s.clone = .ok _ :=
    evaluate_ok_iff.mpr ⟨existing, hread, rfl⟩
  rw [validateAndInsert_of_accept hev (isAccept_of_not_objected hev hobj) href]
  rfl

/-- An objection makes the insertion an error that leaves the table alone. -/
def ObjectionRespected (engine : RulesEngine Text) (m : Moment) (s : PremintStorage Text)
    (p : PremintTypes) : Prop :=
  Objected engine m s p →
    (∃ e, (validateAndInsert engine m s p).1 = .error e)
      ∧ (validateAndInsert engine m s p).2.table = s.table

/--
**An objection is respected exactly when nothing failed or the upsert is refused.**

For any list of rules, any store, any premint and whatever the chains answer.
-/
theorem objectionRespected_iff (engine : RulesEngine Text) (m : Moment) (s : PremintStorage Text)
    (p : PremintTypes) :
    ObjectionRespected engine m s p ↔ ¬ Failed engine m s p ∨ Refused s p := by
  constructor
  · intro h
    by_cases hfail : Failed engine m s p
    · right
      -- the failure let the premint through, so only the upsert can have refused it
      obtain ⟨evaluation, hev, hacc⟩ := isAccept_of_failed hfail
      obtain ⟨existing, hread, rule, hrule, herror⟩ := hfail
      obtain ⟨⟨e, herr⟩, _⟩ := h ⟨existing, hread, rule, hrule, .inr herror⟩
      by_contra hr
      rw [validateAndInsert_of_accept hev hacc hr] at herr
      cases herr
    · exact .inl hfail
  · rintro h hobj
    rcases validateAndInsert_cases engine m s p with ⟨e, hins⟩ | ⟨evaluation, hev, hacc, hr, _⟩
    · rw [hins]; exact ⟨⟨e, rfl⟩, rfl⟩
    · rcases h with hfail | href
      · rw [not_isAccept_of_objected hev hobj hfail] at hacc
        cases hacc
      · exact absurd href hr

end Insert

/-! ## A premint that two rules object to -/

section Example

open Sample

attribute [local instance] Sample.alloy

/-- A premint without a token uri and without a signature. -/
def unsignedPremint : PremintTypes :=
  .zoraV2 {
    collectionAddress := 1
    chainId := 7777777
    collection := { contractAdmin := 2 }
    premint := { tokenConfig := {}, uid := 1, version := 1 } }

/-- **Its empty uri is rejected, its signature does not parse, and it is stored.** -/
theorem unsigned_premint_stored :
    ¬ ObjectionRespected offlineRules offline (.new true) unsignedPremint := by
  intro h
  have hobj : Objected offlineRules offline (.new true) unsignedPremint :=
    ⟨none, rfl, _, List.mem_cons_self, .inl ⟨"Token URI is empty", rfl⟩⟩
  have hrows : (validateAndInsert offlineRules offline (.new true)
      unsignedPremint).2.table.rows.length = 1 := by decide
  rw [(h hobj).2] at hrows
  exact absurd hrows (by decide)

end Example

end Mintpool.Proof
