import Mintpool.Lib.Interleave
import Mintpool.Rules

/-!
# Validating and inserting

`validate_and_insert` is a read of the row to be replaced, a read inside the rules,
and one upsert. Handled as an event or a command it runs without interruption. For
the premints of a sync response up to ten of them run concurrently, interleaved at
their awaits; there each read and the upsert is an act of its own.
-/

namespace Mintpool

variable {Text : Type} [Alloy] [Codec Text]

/-- What the outside world answers while the node takes one step. -/
structure Moment where
  chains : Chains
  clock : DateTime

/-- Why a premint was not inserted. -/
inductive InsertError where
  | evaluate (report : Report)
  /-- "Premint failed validation" -/
  | rejected (evaluation : Results)
  /-- "Failed to store premint" -/
  | store (report : Report)

/-- `self.store.store(premint).await.map(|_r| evaluation).wrap_err(…)` -/
def storeAccepted (m : Moment) (store : PremintStorage Text) (premint : PremintTypes)
    (evaluation : Results) : Except InsertError Results × PremintStorage Text :=
  match store.store m.clock.secs premint with
  | (.ok _, store') => (.ok evaluation, store')
  | (.error report, store') => (.error (.store report), store')

def validateAndInsert (engine : RulesEngine Text) (m : Moment) (store : PremintStorage Text)
    (premint : PremintTypes) : Except InsertError Results × PremintStorage Text :=
  match engine.evaluate m.chains premint store.clone with
  | .error report => (.error (.evaluate report), store)
  | .ok evaluation =>
      if evaluation.isAccept then storeAccepted m store premint evaluation
      else (.error (.rejected evaluation), store)

/-! ## A batch of them -/

/-- How far one task of a sync response has come. -/
inductive TaskState where
  /-- Before `sem.acquire()`. -/
  | waiting
  /-- Holding a permit. -/
  | started
  /-- `evaluate` has read the row to be replaced. -/
  | readExisting (existing : Option PremintTypes)
  /-- The rules accepted; the upsert is next. -/
  | accepted (evaluation : Results)
  | done (result : Except InsertError Results)

structure Task where
  premint : PremintTypes
  state : TaskState

namespace Task

/-- Whether the task holds a permit. -/
def running (t : Task) : Bool :=
  match t.state with
  | .waiting | .done _ => false
  | .started | .readExisting _ | .accepted _ => true

def isDone (t : Task) : Bool :=
  match t.state with
  | .done _ => true
  | _ => false

/-- `Semaphore::new(10)` -/
def permits : Nat := 10

/-- A task waits until fewer than ten others are running. -/
def gate (tasks : List Task) (t : Task) : Bool :=
  match t.state with
  | .waiting => tasks.countP running < permits
  | _ => true

/-- One piece of a task between two awaits. -/
def act (engine : RulesEngine Text) (m : Moment) (store : PremintStorage Text) (t : Task) :
    Option (PremintStorage Text × Task) :=
  match t.state with
  | .waiting => some (store, { t with state := .started })
  | .started =>
      match RulesEngine.readExisting store.clone t.premint with
      | .error report => some (store, { t with state := .done (.error (.evaluate report)) })
      | .ok existing => some (store, { t with state := .readExisting existing })
  | .readExisting existing =>
      let evaluation := engine.checkRules m.chains t.premint store.clone existing
      if evaluation.isAccept then some (store, { t with state := .accepted evaluation })
      else some (store, { t with state := .done (.error (.rejected evaluation)) })
  | .accepted evaluation =>
      let (result, store') := storeAccepted m store t.premint evaluation
      some (store', { t with state := .done result })
  | .done _ => none

end Task

abbrev Batch (Text : Type) := Lib.Interleave.State (PremintStorage Text) Task

namespace Batch

/-- `premints.into_iter().map(|p| async { … })` -/
def start (store : PremintStorage Text) (premints : List PremintTypes) : Batch Text :=
  ⟨store, premints.map (fun p => ⟨p, .waiting⟩)⟩

def isDone (b : Batch Text) : Bool := b.tasks.all Task.isDone

/-- One act of task `i`. -/
def step (engine : RulesEngine Text) (b : Batch Text) (i : Nat) (m : Moment) :
    Option (Batch Text) :=
  Lib.Interleave.step Task.gate (Task.act engine) b i m

/-- An interleaving of the tasks, as a schedule. -/
abbrev Schedule (engine : RulesEngine Text) :
    Batch Text → List (Nat × Moment) → Batch Text → Prop :=
  Lib.Interleave.Schedule Task.gate (Task.act engine)

end Batch

end Mintpool
