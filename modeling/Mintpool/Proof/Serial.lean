import Mintpool.Proof.TokenUri

/-!
# A batch and one premint after another

The tasks of a sync response check and act apart from each other: a task decides on
the row and the uri it has read, and stores later. The upsert looks at the version
once more, and at nothing else. So two tasks that were both accepted while the store
had neither premint both store, even if each would have been rejected after the other.

That is the only thing that can go wrong. A rejection is final whenever it was made:
the premint would have been rejected right there had it been alone. And an upsert whose
premint the rules would accept at that very moment is the whole insertion at one go. So
if no upsert comes too late, the batch leaves the table that its premints leave when
they come one after another, each where its task was decided.
-/

namespace Mintpool.Proof

open Mintpool PremintStorage

section Serial

variable {Text : Type} [Codec Text] [Alloy]

/-! ## One after another -/

/-- The premints inserted at one go each, in this order. -/
def insertAll (engine : RulesEngine Text) (s : PremintStorage Text)
    (order : List (Moment × PremintTypes)) : PremintStorage Text :=
  order.foldl (fun s mp => (validateAndInsert engine mp.1 s mp.2).2) s

/-- The table is the one that the premints leave in some order. -/
def Serializable (engine : RulesEngine Text) (s : PremintStorage Text)
    (premints : List PremintTypes) (table : Table Text) : Prop :=
  ∃ order, (order.map Prod.snd).Perm premints ∧ table = (insertAll engine s order).table

/-! ## Upserts that come too late -/

/-- The rules have accepted and the upsert is next. -/
def isAccepted : TaskState → Bool
  | .accepted _ => true
  | _ => false

/-- The task is about to store a premint that, as the store is now, the rules reject. -/
def Stale (engine : RulesEngine Text) (m : Moment) (s : PremintStorage Text) (t : Task) : Prop :=
  isAccepted t.state = true ∧ ¬ Refused s t.premint
    ∧ (engine.evaluate m.chains t.premint s.clone).toOption.any Results.isReject = true

instance (engine : RulesEngine Text) (m : Moment) (s : PremintStorage Text) (t : Task) :
    Decidable (Stale engine m s t) :=
  inferInstanceAs (Decidable (_ ∧ _ ∧ _))

/-- A step of the batch that is not a stale upsert. -/
def FreshStep (engine : RulesEngine Text) (b : Batch Text) (im : Nat × Moment)
    (b' : Batch Text) : Prop :=
  Batch.step engine b im.1 im.2 = some b'
    ∧ ∀ t, b.tasks[im.1]? = some t → ¬ Stale engine im.2 b.shared t

/-! ## What each rule looks at -/

/-- A context without anything to look at. -/
def blank : RuleContext Text := { storage := .new false, existing := none, rpc := none }

/-- The answers of some of the rules. -/
def answers (rules : List (Rule Text)) (p : PremintTypes) (context : RuleContext Text) : Results :=
  ⟨rules.map fun rule => ⟨rule.ruleName, rule.check p context⟩⟩

/-- Without RPC, the rules that look at nothing but the premint. -/
def ownRules : List (Rule Text) :=
  metadataRule "token_uri_length" General.tokenUriLength :: V2.allV2Rules

def uriRules : List (Rule Text) := [metadataRule "existing_token_uri" General.existingTokenUri]

/-- The rules that look at the row to be replaced. -/
def existingRules : List (Rule Text) := [
  metadataRule "signer_matches" General.signerMatches,
  metadataRule "version_is_higher" General.versionIsHigher]

variable (Text) in
def ownFails (p : PremintTypes) : Bool := (answers ownRules p (blank : RuleContext Text)).isErr

variable (Text) in
def ownRejects (p : PremintTypes) : Bool :=
  (answers ownRules p (blank : RuleContext Text)).results.any RuleResult.isReject

omit [Alloy] in
def uriFails (s : PremintStorage Text) (p : PremintTypes) : Bool :=
  (answers uriRules p { storage := s, existing := none, rpc := none }).isErr

def uriRejects (s : PremintStorage Text) (p : PremintTypes) : Bool :=
  (answers uriRules p { storage := s, existing := none, rpc := none }).results.any
    RuleResult.isReject

variable (Text) in
def existingRejects (p : PremintTypes) (existing : Option PremintTypes) : Bool :=
  (answers existingRules p { (blank : RuleContext Text) with existing }).results.any
    RuleResult.isReject

omit [Codec Text] [Alloy] in
theorem signerMatches_ok (metadata : PremintMetadata) (context : RuleContext Text) :
    ∃ e, General.signerMatches metadata context = .ok e := by
  unfold General.signerMatches
  split
  · exact ⟨_, rfl⟩
  · split <;> exact ⟨_, rfl⟩

omit [Codec Text] [Alloy] in
theorem versionIsHigher_ok (metadata : PremintMetadata) (context : RuleContext Text) :
    ∃ e, General.versionIsHigher metadata context = .ok e := by
  unfold General.versionIsHigher
  split
  · exact ⟨_, rfl⟩
  · split <;> exact ⟨_, rfl⟩

omit [Codec Text] [Alloy] in
/-- The rules that look at the existing row never fail. -/
theorem existingRules_isErr (p : PremintTypes) (context : RuleContext Text) :
    (answers existingRules p context).isErr = false := by
  obtain ⟨e, he⟩ := signerMatches_ok p.metadata context
  obtain ⟨e', he'⟩ := versionIsHigher_ok p.metadata context
  simp [answers, existingRules, metadataRule, Results.isErr, RuleResult.isErr, he, he']

/-- The default rules, by what they look at. -/
theorem any_allRules (f : RuleResult → Bool) (p : PremintTypes) (context : RuleContext Text) :
    (answers allRules p context).results.any f
      = ((answers ownRules p context).results.any f || (answers uriRules p context).results.any f
        || (answers existingRules p context).results.any f) := by
  simp only [answers, allRules, General.allRules, ownRules, uriRules, existingRules,
    List.cons_append, List.nil_append, List.map_cons, List.map_nil, List.any_cons, List.any_nil,
    Bool.or_false]
  ac_rfl

section Verdict

variable (chains : Chains) (p : PremintTypes) (s : PremintStorage Text)
  (existing : Option PremintTypes)

theorem checkRules_eq_answers :
    (RulesEngine.newWithDefaultRules false).checkRules chains p s existing
      = answers allRules p { storage := s, existing, rpc := none } := rfl

/-- **When some default rule fails, without RPC**. -/
theorem isErr_checkRules :
    ((RulesEngine.newWithDefaultRules false).checkRules chains p s existing).isErr
      = (ownFails Text p || uriFails s p) := by
  have hexisting := existingRules_isErr p
    ({ storage := s, existing, rpc := none } : RuleContext Text)
  unfold Results.isErr at hexisting
  rw [checkRules_eq_answers, Results.isErr, any_allRules, hexisting, Bool.or_false]
  rfl

/-- **And what they make of the premint.** -/
theorem isAccept_checkRules :
    ((RulesEngine.newWithDefaultRules false).checkRules chains p s existing).isAccept
      = (ownFails Text p || uriFails s p
        || !(ownRejects Text p || uriRejects s p || existingRejects Text p existing)) := by
  rw [Results.isAccept_eq, isErr_checkRules, checkRules_eq_answers, any_allRules]
  rfl

end Verdict

/-! ## One insertion, at one go -/

/-- The row that the premint would replace, if there is one, decodes. -/
def Readable (s : PremintStorage Text) (p : PremintTypes) : Prop :=
  ∃ existing, RulesEngine.readExisting s.clone p = .ok existing

omit [Alloy] in
theorem readable_iff {s : PremintStorage Text} {p : PremintTypes} :
    Readable s p ↔ ∀ r, s.table.lookup (premintKey p) = some r →
      ∃ q, PremintTypes.fromJson r.json = .ok q := by
  have hget : s.clone.getForIdAndKind p.metadata.id p.metadata.kind
      = decodeOne (s.table.lookup (premintKey p)) := rfl
  unfold Readable RulesEngine.readExisting
  rw [hget]
  cases hl : s.table.lookup (premintKey p) with
  | none => exact iff_of_true ⟨none, rfl⟩ (fun _ h => by cases h)
  | some r =>
      have hdecode : decodeOne (some r) = PremintTypes.fromJson r.json := rfl
      rw [hdecode]
      cases hjson : PremintTypes.fromJson r.json with
      | ok q => exact iff_of_true ⟨some q, rfl⟩ (fun r' h => by cases h; exact ⟨q, hjson⟩)
      | error e =>
          -- decoding never answers that there is no row
          refine iff_of_false ?_ (fun h => ?_)
          · rintro ⟨existing, h⟩
            cases e with
            | rowNotFound => exact PremintTypes.fromJson_ne_rowNotFound r.json hjson
            | msg text => cases h
          · obtain ⟨q, hq⟩ := h r rfl
            rw [hjson] at hq
            cases hq

variable {m : Moment} {s : PremintStorage Text} {p : PremintTypes} {existing : Option PremintTypes}

/-- What the existing row rejects is rejected, unless something fails. -/
theorem insert_of_existingRejects (hread : RulesEngine.readExisting s.clone p = .ok existing)
    (hown : ownFails Text p = false) (huri : uriFails s.clone p = false)
    (h : existingRejects Text p existing = true) :
    (validateAndInsert (.newWithDefaultRules false) m s p).2 = s := by
  rw [validateAndInsert_snd, hread]
  dsimp only
  rw [isAccept_checkRules, hown, huri, h]
  simp

/-- So is what the rules reject for any other reason, whatever the existing row is. -/
theorem insert_of_reject
    (hreject : ((RulesEngine.newWithDefaultRules false).checkRules m.chains p s.clone
      existing).isAccept = false)
    (h : existingRejects Text p existing = false) :
    (validateAndInsert (.newWithDefaultRules false) m s p).2 = s := by
  rw [isAccept_checkRules, h] at hreject
  rw [validateAndInsert_snd]
  split
  · rfl
  · rw [isAccept_checkRules]
    simp only [Bool.or_eq_false_iff, Bool.not_eq_false', Bool.or_false] at hreject
    simp [hreject.1.1, hreject.1.2, hreject.2]

/-- An upsert that is not stale does what the insertion would do now. -/
theorem insert_of_not_stale (engine : RulesEngine Text) {t : Task} (hread : Readable s t.premint)
    (hacc : isAccepted t.state = true) (h : ¬ Stale engine m s t) :
    (validateAndInsert engine m s t.premint).2 = write s (.store m.clock.secs t.premint) := by
  obtain ⟨existing, hread⟩ := hread
  rw [validateAndInsert_snd, hread]
  dsimp only
  split
  · rfl
  · -- accepted before and refused now, although the storage would take it: a stale read
    rename_i hreject
    have href : Refused s t.premint := by
      by_contra href
      refine h ⟨hacc, href, ?_⟩
      unfold RulesEngine.evaluate
      rw [hread]
      unfold Results.isAccept at hreject
      simpa [bind, Except.bind, pure, Except.pure, Except.toOption] using hreject
    rw [write, store_of_refused _ href]

/-! ## What the tasks have read stays true -/

omit [Alloy] in
/-- The token-uri rule fails exactly when the first row with the uri does not decode. -/
theorem uriFails_iff : uriFails s p = true
    ↔ ∃ r, s.table.rows.find? (fun r => r.tokenUri = p.metadata.uri) = some r
      ∧ ∀ q, PremintTypes.fromJson r.json ≠ .ok q := by
  have hrule : uriFails s p = RuleResult.isErr ⟨"Metadata::existing_token_uri",
      General.existingTokenUri p.metadata { storage := s, existing := none, rpc := none }⟩ := by
    simp [uriFails, answers, uriRules, metadataRule, Results.isErr]
  rw [hrule]
  unfold General.existingTokenUri getForTokenUri
  dsimp only
  cases s.table.rows.find? fun r => r.tokenUri = p.metadata.uri with
  | none => simp [decodeOne, RuleResult.isErr]
  | some r =>
      have hdecode : decodeOne (some r) = PremintTypes.fromJson r.json := rfl
      rw [hdecode]
      cases hjson : PremintTypes.fromJson r.json with
      | error e =>
          -- the row is there, so the only error left is that it does not decode
          refine iff_of_true ?_ ⟨r, rfl, fun q hq => by rw [hjson] at hq; cases hq⟩
          cases e with
          | rowNotFound => exact absurd hjson (PremintTypes.fromJson_ne_rowNotFound r.json)
          | msg text => rfl
      | ok q =>
          -- whichever id the decoded premint has, the rule gives no error
          refine iff_of_false ?_ ?_
          · unfold RuleResult.isErr
            dsimp only
            split
            · rename_i heq
              split at heq <;> cases heq
            · simp
          · rintro ⟨r', hr', h⟩
            cases hr'
            exact h q hjson

/-- **No upsert of a premint whose row decodes changes whether the rule fails.** -/
theorem uriFails_store [LawfulCodec Text] (now : Int) (h : Readable s p) (q : PremintTypes) :
    uriFails (write s (.store now p)).clone q = uriFails s.clone q := by
  rw [Bool.eq_iff_iff, uriFails_iff, uriFails_iff]
  change (∃ r, (s.store now p).2.table.rows.find? _ = some r ∧ _)
    ↔ ∃ r, s.table.rows.find? _ = some r ∧ _
  rcases find?_store s now p (f := fun r => r.tokenUri = q.metadata.uri) (fun _ _ => rfl)
    with heq | ⟨r, hr, hk, heq⟩ | ⟨hr, heq⟩
  · rw [heq]
  · -- the first row with the uri was upgraded; it decoded before, and it does now
    have hlookup : s.table.lookup (premintKey p) = some r := by
      rw [← hk, ← Lib.KeyedTable.mem_iff_lookup]
      exact List.mem_of_find?_eq_some hr
    obtain ⟨q', hq'⟩ := readable_iff.mp h r hlookup
    rw [heq, hr]
    refine iff_of_false ?_ ?_
    · rintro ⟨_, h, hno⟩
      cases h
      exact hno p (PremintTypes.fromJson_toJson p)
    · rintro ⟨_, h, hno⟩
      cases h
      exact hno q' hq'
  · -- there was none, and the new row decodes
    rw [heq, hr]
    refine iff_of_false ?_ ?_
    · rintro ⟨_, h, hno⟩
      cases h
      exact hno p (PremintTypes.fromJson_toJson p)
    · rintro ⟨_, h, _⟩
      cases h

theorem readable_store [LawfulCodec Text] (now : Int) (q : PremintTypes) (h : Readable s p) :
    Readable (write s (.store now q)) p := by
  rw [readable_iff] at h ⊢
  intro r hr
  -- a premint of another key is read as before
  by_cases hk : premintKey p = premintKey q
  · rw [hk] at hr h
    rcases store_self_cases s now q with ⟨_, hnew⟩ | ⟨old, _, _, hup⟩ | ⟨_, hsame⟩
    · rw [write, hnew] at hr
      cases hr
      exact ⟨q, PremintTypes.fromJson_toJson q⟩
    · rw [write, hup] at hr
      cases hr
      exact ⟨q, PremintTypes.fromJson_toJson q⟩
    · rw [write, hsame] at hr
      exact h r hr
  · rw [write, lookup_store_of_ne hk] at hr
    exact h r hr

/-! ## Commit points -/

/-- The task has read the row it would replace, and it goes on. -/
def hasRead : TaskState → Bool
  | .readExisting _ | .accepted _ => true
  | _ => false

/-- Whether it is decided that the task stores nothing more: it is done, or what it has
read will make the rules reject its premint. -/
def settled (s₀ : PremintStorage Text) (t : Task) : Bool :=
  match t.state with
  | .done _ => true
  | .readExisting existing =>
      !ownFails Text t.premint && !uriFails s₀.clone t.premint
        && existingRejects Text t.premint existing
  | _ => false

/-- While the batch runs, the uri rule fails where it did at the start, and a row that a
task has read still decodes. -/
structure Interleaved (s₀ : PremintStorage Text) (b : Batch Text) : Prop where
  uriFails : ∀ p, uriFails b.shared.clone p = uriFails s₀.clone p
  readable : ∀ t ∈ b.tasks, hasRead t.state = true → Readable b.shared t.premint

omit [Alloy] in
/-- The invariant, for a step that leaves the store alone. -/
theorem interleaved_same {s₀ : PremintStorage Text} {b : Batch Text} {i : Nat} {t' : Task}
    (h : Interleaved s₀ b) (ht' : hasRead t'.state = true → Readable b.shared t'.premint) :
    Interleaved s₀ ⟨b.shared, b.tasks.set i t'⟩ := by
  refine ⟨h.uriFails, fun u hu hread => ?_⟩
  rcases List.mem_or_eq_of_mem_set hu with hu | rfl
  · exact h.readable u hu hread
  · exact ht' hread

/-- And for an upsert. -/
theorem interleaved_store [LawfulCodec Text] {s₀ : PremintStorage Text} {b : Batch Text} {i : Nat}
    {t' : Task} {p : PremintTypes} (now : Int) (h : Interleaved s₀ b) (hp : Readable b.shared p)
    (ht' : hasRead t'.state = false) :
    Interleaved s₀ ⟨write b.shared (.store now p), b.tasks.set i t'⟩ := by
  refine ⟨fun q => (uriFails_store now hp q).trans (h.uriFails q), fun u hu hread => ?_⟩
  rcases List.mem_or_eq_of_mem_set hu with hu | rfl
  · exact readable_store now p (h.readable u hu hread)
  · rw [ht'] at hread
    cases hread

/-- **A fresh step leaves a task as settled as it was, or settles it like an insertion now.** -/
theorem settled_step [LawfulCodec Text] {s₀ : PremintStorage Text} {b b' : Batch Text} {i : Nat}
    {m : Moment} (hinv : Interleaved s₀ b)
    (h : FreshStep (.newWithDefaultRules false) b (i, m) b') :
    Interleaved s₀ b' ∧ ∃ t t', b.tasks[i]? = some t ∧ b'.tasks = b.tasks.set i t'
      ∧ t'.premint = t.premint
      ∧ ((settled s₀ t' = settled s₀ t ∧ b'.shared = b.shared)
        ∨ (settled s₀ t = false ∧ settled s₀ t' = true
          ∧ b'.shared
            = (validateAndInsert (.newWithDefaultRules false) m b.shared t.premint).2)) := by
  obtain ⟨hs, hfresh⟩ := h
  obtain ⟨⟨p, state⟩, s', ⟨p', state'⟩, ht, _, hact, rfl⟩ := Lib.Interleave.step_cases hs
  obtain ⟨hp, hacted⟩ := acted_of_act hact
  dsimp only at hp hacted
  subst hp
  have hmem := List.mem_of_getElem? ht
  cases hacted with
  | start =>
      exact ⟨interleaved_same hinv (fun h => by cases h), _, _, ht, rfl, rfl, .inl ⟨rfl, rfl⟩⟩
  | unreadable hread =>
      refine ⟨interleaved_same hinv (fun h => by cases h), _, _, ht, rfl, rfl, .inr ⟨rfl, rfl, ?_⟩⟩
      rw [validateAndInsert_snd, hread]
  | @read existing hread =>
      refine ⟨interleaved_same hinv (fun _ => ⟨existing, hread⟩), _, _, ht, rfl, rfl, ?_⟩
      cases hset : settled s₀ ⟨p', .readExisting existing⟩ with
      | false => exact .inl ⟨rfl, rfl⟩
      | true =>
          simp only [settled, Bool.and_eq_true, Bool.not_eq_true'] at hset
          obtain ⟨⟨hown, huri⟩, hrej⟩ := hset
          rw [← hinv.uriFails] at huri
          exact .inr ⟨rfl, rfl, (insert_of_existingRejects hread hown huri hrej).symm⟩
  | @accept existing hacc =>
      have hp : Readable b.shared p' := hinv.readable _ hmem rfl
      refine ⟨interleaved_same hinv (fun _ => hp), _, _, ht, rfl, rfl, .inl ⟨?_, rfl⟩⟩
      -- a premint that the existing row rejects is not accepted
      rw [isAccept_checkRules, hinv.uriFails] at hacc
      cases hset : settled s₀ ⟨p', .readExisting existing⟩ with
      | false => rfl
      | true =>
          simp only [settled, Bool.and_eq_true, Bool.not_eq_true'] at hset
          rw [hset.1.1, hset.1.2, hset.2] at hacc
          simp at hacc
  | @reject existing hrej =>
      refine ⟨interleaved_same hinv (fun h => by cases h), _, _, ht, rfl, rfl, ?_⟩
      cases hset : settled s₀ ⟨p', .readExisting existing⟩ with
      | true => exact .inl ⟨rfl, rfl⟩
      | false =>
          refine .inr ⟨rfl, rfl, (insert_of_reject hrej ?_).symm⟩
          -- nothing failed, so the existing row is not what it was rejected for
          rw [isAccept_checkRules, hinv.uriFails] at hrej
          simp only [Bool.or_eq_false_iff] at hrej
          simpa [settled, hrej.1.1, hrej.1.2] using hset
  | store =>
      refine ⟨interleaved_store _ hinv (hinv.readable _ hmem rfl) rfl, _, _, ht, rfl, rfl,
        .inr ⟨rfl, rfl, ?_⟩⟩
      exact (insert_of_not_stale _ (hinv.readable _ hmem rfl) rfl (hfresh _ ht)).symm

/--
**A batch without a stale upsert is serializable.** Under the default rules without RPC,
from any store and for any premints, however the tasks take turns.
-/
theorem batch_serializable [LawfulCodec Text] {s : PremintStorage Text}
    {premints : List PremintTypes} {schedule : List (Nat × Moment)} {b : Batch Text}
    (h : Lib.Run (FreshStep (.newWithDefaultRules false)) (Batch.start s premints) schedule b)
    (hdone : b.isDone = true) :
    Serializable (.newWithDefaultRules false) s premints b.shared.table := by
  have hwaiting : ∀ t ∈ (Batch.start s premints).tasks, t.state = .waiting := by
    intro t ht
    obtain ⟨p, _, rfl⟩ := List.mem_map.mp ht
    rfl
  have hstart : Interleaved s (Batch.start s premints) :=
    ⟨fun _ => rfl, fun t ht hread => by rw [hwaiting t ht] at hread; cases hread⟩
  have hfresh : ∀ t ∈ (Batch.start s premints).tasks, settled s t = false := by
    intro t ht
    rw [settled, hwaiting t ht]
  obtain ⟨order, hperm, hops, hsh⟩ := Lib.Interleave.serializable
    (fun s mp => (validateAndInsert (.newWithDefaultRules false) mp.1 s mp.2).2)
    (Interleaved s) h hstart hfresh (fun _ _ _ _ hinv hs => settled_step hinv hs)
  -- a task that is done has settled
  have hall : ∀ t ∈ b.tasks, settled s t = true := by
    intro t ht
    have hd : t.isDone = true := List.all_eq_true.mp hdone t ht
    unfold Task.isDone at hd
    unfold settled
    split at hd
    · rename_i hstate; rw [hstate]
    · cases hd
  refine ⟨order, ?_, by rw [hsh]; rfl⟩
  rw [List.filter_eq_self.mpr hall, hops] at hperm
  simpa [Batch.start, Function.comp_def] using hperm

/-! ## Batches in which no upsert is stale -/

/-- Two premints that do not meet: another row each, and another uri, unless their ids are
the same or the uri is taken anyway. -/
def Apart (s : PremintStorage Text) (p q : PremintTypes) : Prop :=
  premintKey p ≠ premintKey q
    ∧ (p.metadata.uri = q.metadata.uri →
      p.metadata.id = q.metadata.id ∨ ∃ r ∈ s.table.rows, r.tokenUri = p.metadata.uri)

/-- No two premints of the batch meet. -/
def Independent (s : PremintStorage Text) (premints : List PremintTypes) : Prop :=
  ∀ (i j : Nat) p q, i ≠ j → premints[i]? = some p → premints[j]? = some q → Apart s p q

/-- Where rows hold premints, the rule compares with the id of the first row with the uri. -/
theorem uriRejects_iff (h : AllHold s) : uriRejects s p = true
    ↔ ∃ r, s.table.rows.find? (fun r => r.tokenUri = p.metadata.uri) = some r
      ∧ r.id ≠ p.metadata.id := by
  have hrule : uriRejects s p = RuleResult.isReject ⟨"Metadata::existing_token_uri",
      General.existingTokenUri p.metadata { storage := s, existing := none, rpc := none }⟩ := by
    simp [uriRejects, answers, uriRules, metadataRule]
  rw [hrule]
  unfold General.existingTokenUri getForTokenUri
  dsimp only
  cases hfind : s.table.rows.find? fun r => r.tokenUri = p.metadata.uri with
  | none => simp [decodeOne, RuleResult.isReject, Evaluation.isReject]
  | some r =>
      obtain ⟨q, hq⟩ := h r (List.mem_of_find?_eq_some hfind)
      have hid : r.id = q.metadata.id := congrArg Prod.snd hq.key
      have hdecode : decodeOne (some r) = .ok q := hq.json
      rw [hdecode]
      dsimp only
      by_cases heq : q.metadata.id = p.metadata.id <;>
        simp [RuleResult.isReject, Evaluation.isReject, heq, hid]

/-- The uri rule finds something after an upsert wherever it did before. -/
theorem find?_store_isSome {f : Row Text → Bool}
    (hf : ∀ excluded r, f (upgradeRow excluded r) = f r) (now : Int) (q : PremintTypes)
    (h : (s.table.rows.find? f).isSome = true) :
    ((write s (.store now q)).table.rows.find? f).isSome = true := by
  rw [write]
  rcases find?_store s now q hf with heq | ⟨_, _, _, heq⟩ | ⟨_, heq⟩
  · rw [heq]; exact h
  · rw [heq]; rfl
  · rw [heq]; rfl

/-- An upsert of another token leaves the rule's answer alone, if it brings no new uri in. -/
theorem uriRejects_store [LawfulCodec Text] (now : Int) {q : PremintTypes} (hs : AllHold s)
    (h : p.metadata.uri = q.metadata.uri → p.metadata.id = q.metadata.id
      ∨ (s.table.rows.find? fun r => r.tokenUri = p.metadata.uri).isSome = true) :
    uriRejects (write s (.store now q)).clone p = uriRejects s.clone p := by
  rw [Bool.eq_iff_iff, uriRejects_iff (s := s.clone) hs,
    uriRejects_iff (s := (write s (.store now q)).clone) (allHold_write s (.store now q) hs)]
  change (∃ r, (s.store now q).2.table.rows.find? _ = some r ∧ _)
    ↔ ∃ r, s.table.rows.find? _ = some r ∧ _
  -- the row of the address is the one from before, the one updated or the new one
  rcases find?_store s now q (f := fun r => r.tokenUri = p.metadata.uri) (fun _ _ => rfl)
    with heq | ⟨r, hr, _, heq⟩ | ⟨hr, heq⟩
  · rw [heq]
  · rw [heq, hr]
    constructor <;> (rintro ⟨_, h, hne⟩; cases h; exact ⟨_, rfl, hne⟩)
  · have hnew := List.find?_some heq
    have huri : q.metadata.uri = p.metadata.uri := of_decide_eq_true hnew
    have hid : p.metadata.id = q.metadata.id := by
      rcases h huri.symm with hid | hsome
      · exact hid
      · rw [hr] at hsome; cases hsome
    rw [heq, hr]
    refine iff_of_false ?_ ?_
    · rintro ⟨_, h, hne⟩
      cases h
      exact hne hid.symm
    · rintro ⟨_, h, _⟩
      cases h

theorem readExisting_store_of_ne (now : Int) {q : PremintTypes}
    (h : premintKey p ≠ premintKey q) :
    RulesEngine.readExisting (write s (.store now q)).clone p
      = RulesEngine.readExisting s.clone p := by
  have hlookup : (write s (.store now q)).clone.table.lookup (premintKey p)
      = s.clone.table.lookup (premintKey p) := lookup_store_of_ne h
  unfold RulesEngine.readExisting getForIdAndKind
  unfold premintKey at hlookup
  rw [hlookup]

/-- Without RPC the rules would accept the premint now. -/
def Acceptable (s : PremintStorage Text) (p : PremintTypes) : Prop :=
  ∃ existing, RulesEngine.readExisting s.clone p = .ok existing
    ∧ ∀ chains, ((RulesEngine.newWithDefaultRules false).checkRules chains p s.clone
      existing).isAccept = true

/-- **And they would after an upsert of a premint that it does not meet.** -/
theorem acceptable_store [LawfulCodec Text] {s₀ : PremintStorage Text} (now : Int)
    {q : PremintTypes} (hs : AllHold s) (hq : Readable s q) (hapart : Apart s₀ p q)
    (hcolumn : (∃ r ∈ s₀.table.rows, r.tokenUri = p.metadata.uri) →
      (s.table.rows.find? fun r => r.tokenUri = p.metadata.uri).isSome = true)
    (h : Acceptable s p) : Acceptable (write s (.store now q)) p := by
  obtain ⟨existing, hread, hacc⟩ := h
  refine ⟨existing, (readExisting_store_of_ne now hapart.1).trans hread, fun chains => ?_⟩
  have hbefore := hacc chains
  -- of what the rules look at, only the uri could have changed
  rw [isAccept_checkRules] at hbefore ⊢
  rw [uriFails_store now hq, uriRejects_store now hs fun huri => (hapart.2 huri).imp_right hcolumn]
  exact hbefore

/-- While an independent batch runs, what its tasks have read is what is there, and what
was accepted is still acceptable. -/
structure Undisturbed (s₀ : PremintStorage Text) (premints : List PremintTypes) (b : Batch Text) :
    Prop where
  premint : ∀ (i : Nat) (t : Task), b.tasks[i]? = some t → premints[i]? = some t.premint
  holds : AllHold b.shared
  column : ∀ uri, (∃ r ∈ s₀.table.rows, r.tokenUri = uri) →
    (b.shared.table.rows.find? fun r => r.tokenUri = uri).isSome = true
  read : ∀ t ∈ b.tasks, ∀ existing, t.state = .readExisting existing →
    RulesEngine.readExisting b.shared.clone t.premint = .ok existing
  acceptable : ∀ t ∈ b.tasks, isAccepted t.state = true → Acceptable b.shared t.premint

theorem not_stale_of_acceptable {t : Task} (h : Acceptable s t.premint) :
    ¬ Stale (.newWithDefaultRules false) m s t := by
  obtain ⟨existing, hread, hacc⟩ := h
  rintro ⟨_, _, hreject⟩
  have haccept := hacc m.chains
  unfold RulesEngine.evaluate at hreject
  rw [hread] at hreject
  unfold Results.isAccept at haccept
  simp [bind, Except.bind, pure, Except.pure, Except.toOption] at hreject
  rw [hreject] at haccept
  cases haccept

theorem undisturbed_start {s₀ : PremintStorage Text} (premints : List PremintTypes)
    (h : AllHold s₀) : Undisturbed s₀ premints (Batch.start s₀ premints) := by
  have hwaiting : ∀ t ∈ (Batch.start s₀ premints).tasks, t.state = .waiting := by
    intro t ht
    obtain ⟨p, _, rfl⟩ := List.mem_map.mp ht
    rfl
  refine ⟨fun i t ht => ?_, h, fun uri hr => ?_, fun t ht existing hst => ?_, fun t ht hacc => ?_⟩
  · rw [Batch.start, List.getElem?_map] at ht
    obtain ⟨p, hp, rfl⟩ := Option.map_eq_some_iff.mp ht
    exact hp
  · rw [List.find?_isSome]
    obtain ⟨r, hmem, huri⟩ := hr
    exact ⟨r, hmem, decide_eq_true huri⟩
  · rw [hwaiting t ht] at hst; cases hst
  · rw [hwaiting t ht] at hacc; cases hacc

omit [Alloy] in
/-- The tasks of a batch after one of them took a step. -/
theorem mem_set_cases {tasks : List Task} {i : Nat} {t' u : Task} (h : u ∈ tasks.set i t') :
    u = t' ∨ ∃ j, j ≠ i ∧ tasks[j]? = some u := by
  obtain ⟨j, hj⟩ := List.mem_iff_getElem?.mp h
  by_cases hij : i = j
  · rw [List.getElem?_set, if_pos hij] at hj
    split at hj
    · exact .inl (Option.some.inj hj).symm
    · cases hj
  · rw [List.getElem?_set_ne hij] at hj
    exact .inr ⟨j, fun h => hij h.symm, hj⟩

omit [Alloy] in
theorem premint_set {premints : List PremintTypes} {tasks : List Task} {i : Nat} {t t' : Task}
    (h : ∀ (i : Nat) (t : Task), tasks[i]? = some t → premints[i]? = some t.premint)
    (ht : tasks[i]? = some t) (hp : t'.premint = t.premint) (j : Nat) (u : Task)
    (hu : (tasks.set i t')[j]? = some u) : premints[j]? = some u.premint := by
  by_cases hij : i = j
  · subst hij
    rw [List.getElem?_set_self (List.getElem?_eq_some_iff.mp ht).1] at hu
    cases hu
    rw [hp]
    exact h i t ht
  · rw [List.getElem?_set_ne hij] at hu
    exact h j u hu

theorem undisturbed_same {s₀ : PremintStorage Text} {premints : List PremintTypes} {b : Batch Text}
    {i : Nat} {t t' : Task} (h : Undisturbed s₀ premints b) (ht : b.tasks[i]? = some t)
    (hp : t'.premint = t.premint)
    (hread : ∀ existing, t'.state = .readExisting existing →
      RulesEngine.readExisting b.shared.clone t'.premint = .ok existing)
    (hacc : isAccepted t'.state = true → Acceptable b.shared t'.premint) :
    Undisturbed s₀ premints ⟨b.shared, b.tasks.set i t'⟩ := by
  refine ⟨premint_set h.premint ht hp, h.holds, h.column, fun u hu => ?_, fun u hu => ?_⟩
  · rcases List.mem_or_eq_of_mem_set hu with hu | rfl
    · exact h.read u hu
    · exact hread
  · rcases List.mem_or_eq_of_mem_set hu with hu | rfl
    · exact h.acceptable u hu
    · exact hacc

theorem undisturbed_store [LawfulCodec Text] {s₀ : PremintStorage Text}
    {premints : List PremintTypes} (hind : Independent s₀ premints) {b : Batch Text} {i : Nat}
    {t t' : Task} (now : Int) (h : Undisturbed s₀ premints b) (ht : b.tasks[i]? = some t)
    (hp : t'.premint = t.premint) (hreadable : Readable b.shared t.premint)
    (hdone : hasRead t'.state = false) :
    Undisturbed s₀ premints
      ⟨write b.shared (.store now t.premint), b.tasks.set i t'⟩ := by
  have hapart : ∀ (j : Nat) u, j ≠ i → b.tasks[j]? = some u → Apart s₀ u.premint t.premint :=
    fun j u hne hu => hind j i _ _ hne (h.premint j u hu) (h.premint i t ht)
  refine ⟨premint_set h.premint ht hp, allHold_write _ _ h.holds,
    fun uri hr => find?_store_isSome (fun _ _ => rfl) now _ (h.column uri hr),
    fun u hu existing hst => ?_, fun u hu hacc => ?_⟩
  · -- the task itself is done, and the others have rows of their own
    rcases mem_set_cases hu with rfl | ⟨j, hne, hj⟩
    · rw [hst] at hdone; cases hdone
    · exact (readExisting_store_of_ne now (hapart j u hne hj).1).trans
        (h.read u (List.mem_of_getElem? hj) existing hst)
  · rcases mem_set_cases hu with rfl | ⟨j, hne, hj⟩
    · generalize u.state = state at hdone hacc
      cases state <;> simp_all [hasRead, isAccepted]
    · exact acceptable_store now h.holds hreadable (hapart j u hne hj) (h.column _)
        (h.acceptable u (List.mem_of_getElem? hj) hacc)

/-- **Every step of an independent batch is fresh**, and disturbs no other task. -/
theorem undisturbed_step [LawfulCodec Text] {s₀ : PremintStorage Text}
    {premints : List PremintTypes} (hind : Independent s₀ premints) {b b' : Batch Text} {i : Nat}
    (h : Undisturbed s₀ premints b)
    (hs : Batch.step (.newWithDefaultRules false) b i m = some b') :
    FreshStep (.newWithDefaultRules false) b (i, m) b' ∧ Undisturbed s₀ premints b' := by
  -- an accepted task stays acceptable while the others do not disturb it, so it is not stale
  have hfresh : ∀ t, b.tasks[i]? = some t → ¬ Stale (.newWithDefaultRules false) m b.shared t := by
    intro t ht
    by_cases hacc : isAccepted t.state = true
    · exact not_stale_of_acceptable (h.acceptable t (List.mem_of_getElem? ht) hacc)
    · exact fun hstale => hacc hstale.1
  refine ⟨⟨hs, hfresh⟩, ?_⟩
  obtain ⟨⟨p, state⟩, s', ⟨p', state'⟩, ht, _, hact, rfl⟩ := Lib.Interleave.step_cases hs
  obtain ⟨hp, hacted⟩ := acted_of_act hact
  dsimp only at hp hacted
  subst hp
  have hmem := List.mem_of_getElem? ht
  cases hacted with
  | start =>
      exact undisturbed_same h ht rfl (fun _ h => by cases h) (fun h => by cases h)
  | unreadable _ =>
      exact undisturbed_same h ht rfl (fun _ h => by cases h) (fun h => by cases h)
  | read hread =>
      exact undisturbed_same h ht rfl (fun _ h => by cases h; exact hread) (fun h => by cases h)
  | @accept existing hacc =>
      -- the row that the task has read is still the one in the table
      refine undisturbed_same h ht rfl (fun _ h => by cases h) (fun _ => ?_)
      refine ⟨existing, h.read _ hmem existing rfl, fun chains => ?_⟩
      rw [isAccept_checkRules] at hacc ⊢
      exact hacc
  | reject _ =>
      exact undisturbed_same h ht rfl (fun _ h => by cases h) (fun h => by cases h)
  | store =>
      obtain ⟨existing, hread, _⟩ := h.acceptable _ hmem rfl
      exact undisturbed_store hind _ h ht rfl ⟨existing, hread⟩ rfl

/--
**An independent batch is serializable, whatever its schedule**, over a store whose rows
hold premints.
-/
theorem independent_batch_serializable [LawfulCodec Text] {s : PremintStorage Text}
    {premints : List PremintTypes} {schedule : List (Nat × Moment)} {b : Batch Text}
    (hholds : AllHold s) (hind : Independent s premints)
    (h : Batch.Schedule (.newWithDefaultRules false) (Batch.start s premints) schedule b)
    (hdone : b.isDone = true) :
    Serializable (.newWithDefaultRules false) s premints b.shared.table := by
  have hrun : Lib.Run (FreshStep (.newWithDefaultRules false)) (Batch.start s premints) schedule b
      ∧ Undisturbed s premints b := by
    clear hdone
    -- each step is fresh because those before it have not disturbed the batch
    induction h with
    | nil => exact ⟨.nil, undisturbed_start premints hholds⟩
    | snoc _ hs ih =>
        obtain ⟨hfresh, hu⟩ := undisturbed_step hind ih.2 hs
        exact ⟨.snoc ih.1 hfresh, hu⟩
  exact batch_serializable hrun.1 hdone

/-! ## One after another, the uri column stays what the rule relies on -/

theorem not_failed_of_ownFails {p : PremintTypes} (hs : AllHold s)
    (h : ownFails Text p = false) : ¬ Failed (.newWithDefaultRules false) m s p := by
  intro hfail
  obtain ⟨existing, hread, _⟩ := id hfail
  -- every row of the table decodes, so the rule about addresses gives no error
  have huri : uriFails s.clone p = false := by
    rw [Bool.eq_false_iff]
    intro hfails
    obtain ⟨r, hr, hno⟩ := uriFails_iff.mp hfails
    obtain ⟨q, hq⟩ := hs r (List.mem_of_find?_eq_some hr)
    exact hno q hq.json
  have herr := (failed_iff_isErr hread).mp hfail
  have hchecks := isErr_checkRules m.chains p s.clone existing
  rw [h, huri] at hchecks
  exact absurd (herr.symm.trans hchecks) (by decide)

theorem uriColumn_insertAll [LawfulCodec Text] : ∀ {order : List (Moment × PremintTypes)}
    {s : PremintStorage Text}, (∀ mp ∈ order, ownFails Text mp.2 = false) → UriColumn s →
      UriColumn (insertAll (.newWithDefaultRules false) s order) := by
  intro order
  induction order with
  | nil => intro s _ h; exact h
  | cons mp order ih =>
      intro s hown h
      refine ih (fun mp' hmp' => hown mp' (List.mem_cons_of_mem _ hmp')) ?_
      exact uriColumn_turn s (.insert mp.1 mp.2) h
        (not_failed_of_ownFails h.holds (hown mp List.mem_cons_self))

end Serial

/-! ## Two tokens with one uri, in one batch -/

section Example

open Sample

attribute [local instance] Sample.alloy

def twoTokens (uri uri' : String) : List PremintTypes := [token 1 1 uri, token 2 1 uri']

/-- The two tasks take turns: both get a permit, both read, both ask the rules, both store. -/
def alternating : List (Nat × Moment) := [0, 1, 0, 1, 0, 1, 0, 1].map fun i => (i, offline)

/-- A step of the batch, unless it is a stale upsert. -/
def freshStep (b : Batch Wire) (im : Nat × Moment) : Option (Batch Wire) :=
  if (b.tasks[im.1]?).any (fun t => decide (Stale offlineRules im.2 b.shared t)) then none
  else Batch.step offlineRules b im.1 im.2

/-- **Both are stored, and no order of the two stores both.** -/
theorem same_uri_not_serializable :
    ∃ b, Batch.Schedule offlineRules
        (Batch.start (.new true) (twoTokens "ipfs://a" "ipfs://a")) alternating b
      ∧ b.isDone = true
      ∧ ¬ Serializable offlineRules (.new true) (twoTokens "ipfs://a" "ipfs://a")
        b.shared.table := by
  have hplay : (Lib.play (fun b (im : Nat × Moment) => Batch.step offlineRules b im.1 im.2)
      (Batch.start (.new true) (twoTokens "ipfs://a" "ipfs://a")) alternating).map
        (fun b => (b.isDone, b.shared.table.rows))
      = some (true, (twoTokens "ipfs://a" "ipfs://a").map (newRow 0)) := by
    decide +kernel
  obtain ⟨b, hb, hend⟩ := Option.map_eq_some_iff.mp hplay
  obtain ⟨hdone, hrows⟩ := Prod.mk.inj hend
  refine ⟨b, Lib.run_of_play (fun _ _ _ h => h) hb, hdone, ?_⟩
  rintro ⟨order, hperm, htable⟩
  have hown : ∀ mp ∈ order, ownFails Wire mp.2 = false := by
    intro mp hmp
    have hmem : mp.2 ∈ twoTokens "ipfs://a" "ipfs://a" :=
      hperm.mem_iff.mp (List.mem_map_of_mem hmp)
    have hall : ∀ p ∈ twoTokens "ipfs://a" "ipfs://a", ownFails Wire p = false := by
      decide +kernel
    exact hall _ hmem
  -- one after another, rows with one uri in the column have one id; here they do not
  have hcol : UriColumn (insertAll offlineRules (.new true) order) :=
    uriColumn_insertAll hown ⟨allHold_new true, fun r hr => by cases hr⟩
  have hid := hcol.id
  rw [← htable, hrows] at hid
  exact absurd (hid (newRow 0 (token 1 1 "ipfs://a")) (by decide) (newRow 0 (token 2 1 "ipfs://a"))
    (by decide) rfl) (by decide)

/-- With uris of their own the same schedule is as good as one after the other. -/
theorem own_uris_serializable :
    ∃ b, Batch.Schedule offlineRules
        (Batch.start (.new true) (twoTokens "ipfs://a" "ipfs://b")) alternating b
      ∧ Serializable offlineRules (.new true) (twoTokens "ipfs://a" "ipfs://b")
        b.shared.table := by
  have hplay : (Lib.play freshStep (Batch.start (.new true) (twoTokens "ipfs://a" "ipfs://b"))
      alternating).map Batch.isDone = some true := by
    decide +kernel
  obtain ⟨b, hb, hdone⟩ := Option.map_eq_some_iff.mp hplay
  have hfresh : Lib.Run (FreshStep offlineRules)
      (Batch.start (.new true) (twoTokens "ipfs://a" "ipfs://b")) alternating b := by
    refine Lib.run_of_play (fun b im b' h => ?_) hb
    unfold freshStep at h
    split at h
    · cases h
    · rename_i hstale
      refine ⟨h, fun t ht hst => hstale ?_⟩
      rw [ht]
      exact decide_eq_true hst
  exact ⟨b, hfresh.mono (fun h => h.1), batch_serializable hfresh hdone⟩

end Example

end Mintpool.Proof
