import Mathlib.Data.List.Basic

/-!
# Runs

Two ways to talk about whole runs. `Run` is for a step relation, with the inputs
that drove it on record. For a step function the run is a fold, and there a second
question has an exact answer: an invariant that a step preserves *exactly* when a
condition holds is kept throughout a run exactly when every step of the run meets
the condition.

What is there at the end of a run and was not there at the start has come from somewhere:
`Run.cause` finds the step.
-/

namespace Mintpool.Lib

variable {σ ι : Type}

/-- `Run step s is s'`: the inputs `is`, oldest first, take `s` to `s'`. -/
inductive Run (step : σ → ι → σ → Prop) (s : σ) : List ι → σ → Prop where
  | nil : Run step s [] s
  | snoc {is : List ι} {s' s'' : σ} {i : ι} :
      Run step s is s' → step s' i s'' → Run step s (is ++ [i]) s''

namespace Run

variable {step : σ → ι → σ → Prop}

/-- **What every step preserves holds after every run.** -/
theorem invariant {P : σ → Prop} {s s' : σ} {is : List ι} (h0 : P s)
    (hstep : ∀ s i s', P s → step s i s' → P s') (hrun : Run step s is s') : P s' := by
  induction hrun with
  | nil => exact h0
  | snoc _ hs ih => exact hstep _ _ _ ih hs

/-- A step is a run. -/
theorem single {s s' : σ} {i : ι} (h : step s i s') : Run step s [i] s' := .snoc .nil h

/-- A run of a narrower relation is a run of a wider one. -/
theorem mono {step' : σ → ι → σ → Prop} (h : ∀ {s i s'}, step s i s' → step' s i s')
    {s s' : σ} {is : List ι} (hrun : Run step s is s') : Run step' s is s' := by
  induction hrun with
  | nil => exact .nil
  | snoc _ hs ih => exact .snoc ih (h hs)

theorem trans {s s' s'' : σ} {is js : List ι} (h : Run step s is s') (h' : Run step s' js s'') :
    Run step s (is ++ js) s'' := by
  induction h' with
  | nil => rw [List.append_nil]; exact h
  | snoc _ hs ih => rw [← List.append_assoc]; exact .snoc ih hs

/--
**The exact condition, for a relation.** If every step keeps `I`, and under `I` a step ends
in `P` exactly when it starts in `P` and meets `C`, then `P` holds at the end of a run exactly
when every step of the run meets `C`.
-/
theorem iff_restrict_of {I P : σ → Prop} {C : σ → ι → Prop} {s s' : σ} {is : List ι}
    (hI : ∀ s i s', I s → step s i s' → I s')
    (hstep : ∀ s i s', I s → step s i s' → (P s' ↔ P s ∧ C s i)) (hIs : I s) (h0 : P s)
    (hrun : Run step s is s') :
    P s' ↔ Run (fun s i s' => step s i s' ∧ C s i) s is s' := by
  refine ⟨fun h => ?_, fun h => ?_⟩
  · -- each step keeps the property, so it meets the condition
    induction hrun with
    | nil => exact .nil
    | snoc hrun hs ih =>
        obtain ⟨hP, hC⟩ := (hstep _ _ _ (invariant hIs hI hrun) hs).mp h
        exact .snoc (ih hP) ⟨hs, hC⟩
  · have hboth := invariant (P := fun s => I s ∧ P s) ⟨hIs, h0⟩ (fun s i s' hIP hs =>
      ⟨hI s i s' hIP.1 hs.1, (hstep s i s' hIP.1 hs.1).mpr ⟨hIP.2, hs.2⟩⟩) h
    exact hboth.2

/-- The same where nothing else has to be kept. -/
theorem iff_restrict {P : σ → Prop} {C : σ → ι → Prop} {s s' : σ} {is : List ι} (h0 : P s)
    (hstep : ∀ s i s', step s i s' → (P s' ↔ P s ∧ C s i)) (hrun : Run step s is s') :
    P s' ↔ Run (fun s i s' => step s i s' ∧ C s i) s is s' :=
  iff_restrict_of (I := fun _ => True) (fun _ _ _ _ _ => trivial)
    (fun s i s' _ hs => hstep s i s' hs) trivial h0 hrun

end Run

/-! ## What happened on a run -/

section Happened

variable {step : σ → ι → σ → Prop} {E F : σ → ι → σ → Prop} {s s' s'' : σ} {is js : List ι}
  {i : ι}

/-- Somewhere on the run there was a step of which `E` holds. -/
def Once (step E : σ → ι → σ → Prop) (s : σ) (is : List ι) (s' : σ) : Prop :=
  ∃ done i rest s₁ s₂, is = done ++ i :: rest ∧ Run step s done s₁ ∧ step s₁ i s₂ ∧ E s₁ i s₂
    ∧ Run step s₂ rest s'

theorem Once.last (hrun : Run step s is s') (hs : step s' i s'') (h : E s' i s'') :
    Once step E s (is ++ [i]) s'' :=
  ⟨is, i, [], s', s'', rfl, hrun, hs, h, .nil⟩

/-- What happened has happened, however the run goes on. -/
theorem Once.trans (h : Once step E s is s') (hrun : Run step s' js s'') :
    Once step E s (is ++ js) s'' := by
  obtain ⟨done, i, rest, s₁, s₂, rfl, hbefore, hs, hE, hafter⟩ := h
  exact ⟨done, i, rest ++ js, s₁, s₂, by simp, hbefore, hs, hE, hafter.trans hrun⟩

/-- And whatever came before. -/
theorem Once.prepend (hrun : Run step s js s') (h : Once step E s' is s'') :
    Once step E s (js ++ is) s'' := by
  obtain ⟨done, i, rest, s₁, s₂, rfl, hbefore, hs, hE, hafter⟩ := h
  exact ⟨js ++ done, i, rest, s₁, s₂, by simp, hrun.trans hbefore, hs, hE, hafter⟩

theorem Once.mono (hEF : ∀ {s i s'}, step s i s' → E s i s' → F s i s')
    (h : Once step E s is s') : Once step F s is s' := by
  obtain ⟨done, i, rest, s₁, s₂, his, hbefore, hs, hE, hafter⟩ := h
  exact ⟨done, i, rest, s₁, s₂, his, hbefore, hs, hEF hs hE, hafter⟩

/-- The input of such a step is among the inputs of the run. -/
theorem Once.input (h : Once step E s is s') : ∃ i ∈ is, ∃ s₁ s₂, E s₁ i s₂ := by
  obtain ⟨done, i, rest, s₁, s₂, rfl, _, _, hE, _⟩ := h
  exact ⟨i, by simp, s₁, s₂, hE⟩

/--
**Everything has a cause.** If nothing is there at the start, and a step lets only that be
there which was there before or of which the step is a cause, then on every run all that is
there at the end has been caused on the way. The steps may rely on an invariant.
-/
theorem Run.cause_of {α : Type} {I : σ → Prop} {There : σ → α → Prop}
    {Causes : α → σ → ι → σ → Prop} (hI : ∀ s i s', I s → step s i s' → I s') (hIs : I s)
    (h0 : ∀ a, ¬ There s a)
    (hstep : ∀ s i s' a, I s → step s i s' → There s' a → There s a ∨ Causes a s i s')
    (hrun : Run step s is s') {a : α} (h : There s' a) : Once step (Causes a) s is s' := by
  induction hrun with
  | nil => exact absurd h (h0 a)
  | snoc hrun hs ih =>
      rcases hstep _ _ _ a (hrun.invariant hIs hI) hs h with hbefore | hcause
      · exact (ih hbefore).trans (.snoc .nil hs)
      · exact .last hrun hs hcause

/-- The same where there is nothing to rely on. -/
theorem Run.cause {α : Type} {There : σ → α → Prop} {Causes : α → σ → ι → σ → Prop}
    (h0 : ∀ a, ¬ There s a)
    (hstep : ∀ s i s' a, step s i s' → There s' a → There s a ∨ Causes a s i s')
    (hrun : Run step s is s') {a : α} (h : There s' a) : Once step (Causes a) s is s' :=
  hrun.cause_of (I := fun _ => True) (fun _ _ _ _ _ => trivial) trivial h0
    (fun s i s' a _ => hstep s i s' a) h

/-- On the run there were steps of which these hold, one after the other. -/
inductive InOrder (step : σ → ι → σ → Prop) (s : σ) :
    List (σ → ι → σ → Prop) → List ι → σ → Prop
  | nil {is : List ι} {s' : σ} (h : Run step s is s') : InOrder step s [] is s'
  | snoc {Es : List (σ → ι → σ → Prop)} {E : σ → ι → σ → Prop} {is js : List ι} {i : ι}
      {s₁ s₂ s' : σ} (h : InOrder step s Es is s₁) (hs : step s₁ i s₂) (hE : E s₁ i s₂)
      (hafter : Run step s₂ js s') : InOrder step s (Es ++ [E]) (is ++ i :: js) s'

/-- What happened in order has happened so, however the run goes on. -/
theorem InOrder.trans {Es : List (σ → ι → σ → Prop)} (h : InOrder step s Es is s')
    (hrun : Run step s' js s'') : InOrder step s Es (is ++ js) s'' := by
  cases h with
  | nil h => exact .nil (h.trans hrun)
  | snoc h hs hE hafter =>
      rw [List.append_assoc, List.cons_append]
      exact .snoc h hs hE (hafter.trans hrun)

/-- A step has happened, and before any such step the others had. -/
theorem Once.after (h : Once step E s is s') (Es : List (σ → ι → σ → Prop))
    (hbefore : ∀ is s₁ i s₂, Run step s is s₁ → step s₁ i s₂ → E s₁ i s₂ →
      InOrder step s Es is s₁) : InOrder step s (Es ++ [E]) is s' := by
  obtain ⟨done, i, rest, s₁, s₂, rfl, hrun, hs, hE, hafter⟩ := h
  exact .snoc (hbefore done s₁ i s₂ hrun hs hE) hs hE hafter

theorem InOrder.run {Es : List (σ → ι → σ → Prop)} (h : InOrder step s Es is s') :
    Run step s is s' := by
  induction h with
  | nil h => exact h
  | snoc h hs hE hafter ih =>
      have hstep := Run.single hs
      exact ih.trans (hstep.trans hafter)

/-- Each of them has happened. -/
theorem InOrder.once {Es : List (σ → ι → σ → Prop)} (h : InOrder step s Es is s') (hE : E ∈ Es) :
    Once step E s is s' := by
  induction h with
  | nil => cases hE
  | @snoc Es F is js i s₁ s₂ s' h hs hF hafter ih =>
      rcases List.mem_append.mp hE with hE | hE
      · have hstep := Run.single hs
        exact (ih hE).trans (hstep.trans hafter)
      · obtain rfl := List.mem_singleton.mp hE
        exact ⟨is, i, js, s₁, s₂, rfl, h.run, hs, hF, hafter⟩

/-- What comes before the first of several steps comes before all of them. -/
theorem InOrder.after {Fs : List (σ → ι → σ → Prop)} (h : InOrder step s (E :: Fs) is s')
    (Es : List (σ → ι → σ → Prop))
    (hbefore : ∀ is s₁ i s₂, Run step s is s₁ → step s₁ i s₂ → E s₁ i s₂ →
      InOrder step s Es is s₁) : InOrder step s (Es ++ E :: Fs) is s' := by
  generalize hGs : E :: Fs = Gs at h
  induction h generalizing Fs with
  | nil => cases hGs
  | @snoc Es' F is js i s₁ s₂ s' h hs hF hafter ih =>
      cases Es' with
      | nil =>
          -- the first step is the one that the others have to come before
          obtain ⟨rfl, rfl⟩ := List.cons.inj hGs
          exact .snoc (hbefore _ _ _ _ h.run hs hF) hs hF hafter
      | cons E' Es' =>
          -- the last step stays the last, and the induction is on the run before it
          obtain ⟨rfl, rfl⟩ := List.cons.inj hGs
          have hall := InOrder.snoc (ih rfl) hs hF hafter
          rwa [List.append_assoc] at hall

end Happened

/-! ## Runs with a record -/

section Recorded

variable {ω : Type} {step : σ → ι → σ → Prop} {shows : σ → ι → List ω}

/-- The same step, with what it shows put on record. -/
def Recorded (step : σ → ι → σ → Prop) (shows : σ → ι → List ω) (x : σ × List ω) (i : ι)
    (y : σ × List ω) : Prop :=
  step x.1 i y.1 ∧ y.2 = x.2 ++ shows x.1 i

/-- **Every run can be put on record.** -/
theorem Run.recorded (shows : σ → ι → List ω) {s s' : σ} {is : List ι} (h : Run step s is s') :
    ∃ record, Run (Recorded step shows) (s, []) is (s', record) := by
  induction h with
  | nil => exact ⟨[], .nil⟩
  | snoc _ hs ih =>
      obtain ⟨record, hrun⟩ := ih
      exact ⟨_, .snoc hrun ⟨hs, rfl⟩⟩

/-- The run without its record. -/
theorem Run.unrecorded {x y : σ × List ω} {is : List ι} (h : Run (Recorded step shows) x is y) :
    Run step x.1 is y.1 := by
  induction h with
  | nil => exact .nil
  | snoc _ hs ih => exact .snoc ih hs.1

/-- **What is on record has been shown by a step of the run.** -/
theorem Run.once_of_mem {s : σ} {y : σ × List ω} {is : List ι} {x : ω}
    (h : Run (Recorded step shows) (s, []) is y) (hx : x ∈ y.2) :
    Once step (fun s i _ => x ∈ shows s i) s is y.1 := by
  induction h with
  | nil => cases hx
  | snoc hrun hs ih =>
      rw [hs.2] at hx
      rcases List.mem_append.mp hx with hx | hx
      · exact (ih hx).trans (.single hs.1)
      · exact .last hrun.unrecorded hs.1 hx

end Recorded

/-! ## Runs that follow each other -/

/--
**A run is followed by another**: if what a step does can be done by some steps of the other
relation, none or one or more, then what a run does can be done by a run of it. `R` relates the
states, and may look back on the inputs that led to them.
-/
theorem Run.refines {τ κ : Type} {step : σ → ι → σ → Prop} {step' : τ → κ → τ → Prop}
    {R : List ι → σ → List κ → τ → Prop} {s s' : σ} {t : τ} {is : List ι} (h0 : R [] s [] t)
    (hstep : ∀ is s₁ i s₂ ks t₁, Run step' t ks t₁ → R is s₁ ks t₁ → step s₁ i s₂ →
      ∃ ks' t₂, Run step' t₁ ks' t₂ ∧ R (is ++ [i]) s₂ (ks ++ ks') t₂)
    (hrun : Run step s is s') : ∃ ks t', Run step' t ks t' ∧ R is s' ks t' := by
  induction hrun with
  | nil => exact ⟨[], t, .nil, h0⟩
  | snoc _ hs ih =>
      obtain ⟨ks, t₁, hrun, hR⟩ := ih
      obtain ⟨ks', t₂, hrun', hR'⟩ := hstep _ _ _ _ _ _ hrun hR hs
      exact ⟨ks ++ ks', t₂, hrun.trans hrun', hR'⟩

/-! ## Runs that can be computed -/

/-- Run a step function that may refuse an input. -/
def play (step : σ → ι → Option σ) : σ → List ι → Option σ
  | s, [] => some s
  | s, i :: is => (step s i).bind fun s' => play step s' is

theorem run_of_play {step : σ → ι → Option σ} {R : σ → ι → σ → Prop}
    (hR : ∀ s i s', step s i = some s' → R s i s') :
    ∀ {is : List ι} {s s' : σ}, play step s is = some s' → Run R s is s' := by
  intro is
  induction is with
  | nil => intro s s' h; cases h; exact .nil
  | cons i is ih =>
      intro s s' h
      obtain ⟨s₁, hs₁, hrest⟩ := Option.bind_eq_some_iff.mp h
      exact Run.trans (Run.snoc .nil (hR s i s₁ hs₁)) (ih hrest)

/-! ## Runs of a step function -/

variable {step : σ → ι → σ} {s : σ}

/-- `P` holds of every state of the run, the first and the last included. -/
def Always (step : σ → ι → σ) (s : σ) (P : σ → Prop) (is : List ι) : Prop :=
  ∀ done, done <+: is → P (done.foldl step s)

/-- Every step of the run, in the state it starts from, meets `C`. -/
def EveryStep (step : σ → ι → σ) (s : σ) (C : σ → ι → Prop) (is : List ι) : Prop :=
  ∀ done i, done ++ [i] <+: is → C (done.foldl step s) i

theorem always_cons_iff {P : σ → Prop} {i : ι} {is : List ι} :
    Always step s P (i :: is) ↔ P s ∧ Always step (step s i) P is := by
  constructor
  · intro h
    refine ⟨h [] (List.nil_prefix), fun done hd => ?_⟩
    exact h (i :: done) ((List.prefix_cons_inj i).mpr hd)
  · rintro ⟨h0, h⟩ done hd
    cases done with
    | nil => exact h0
    | cons j done =>
        obtain ⟨rfl, hd'⟩ := List.cons_prefix_cons.mp hd
        exact h done hd'

theorem everyStep_cons_iff {C : σ → ι → Prop} {i : ι} {is : List ι} :
    EveryStep step s C (i :: is) ↔ C s i ∧ EveryStep step (step s i) C is := by
  constructor
  · intro h
    refine ⟨h [] i ?_, fun done j hd => h (i :: done) j ?_⟩
    · exact List.cons_prefix_cons.mpr ⟨rfl, List.nil_prefix⟩
    · exact List.cons_prefix_cons.mpr ⟨rfl, hd⟩
  · rintro ⟨h0, h⟩ done j hd
    cases done with
    | nil =>
        obtain ⟨rfl, _⟩ := List.cons_prefix_cons.mp hd
        exact h0
    | cons k done =>
        obtain ⟨rfl, hd'⟩ := List.cons_prefix_cons.mp hd
        exact h done j hd'

@[simp] theorem everyStep_nil {C : σ → ι → Prop} : EveryStep step s C [] :=
  fun _ _ hd => absurd (List.prefix_nil.mp hd) (by simp)

theorem always_nil_iff {P : σ → Prop} : Always step s P [] ↔ P s := by
  constructor
  · intro h; exact h [] List.nil_prefix
  · intro h done hd; rw [List.prefix_nil.mp hd]; exact h

theorem everyStep_snoc_iff {C : σ → ι → Prop} {i : ι} {is : List ι} :
    EveryStep step s C (is ++ [i]) ↔ EveryStep step s C is ∧ C (is.foldl step s) i := by
  constructor
  · intro h
    exact ⟨fun done j hd => h done j (hd.trans (List.prefix_append is [i])),
      h is i List.prefix_rfl⟩
  · rintro ⟨h, hlast⟩ done j hd
    rcases List.prefix_concat_iff.mp hd with heq | hd'
    · obtain ⟨rfl, rfl⟩ := List.append_singleton_inj.mp heq
      exact hlast
    · exact h done j hd'

/--
**The exact condition for an invariant.** If, along a run whose steps all meet `D`, `I`
survives every step and under `I` a step keeps `P` exactly when it meets `C`, then `P`
holds throughout the run exactly when every step of it meets `C`.
-/
theorem always_iff_everyStep_of {I P : σ → Prop} {C D : σ → ι → Prop}
    (hI : ∀ s i, I s → D s i → I (step s i))
    (hstep : ∀ s i, I s → P s → D s i → (P (step s i) ↔ C s i)) :
    ∀ {is : List ι} {s : σ}, I s → P s → EveryStep step s D is →
      (Always step s P is ↔ EveryStep step s C is) := by
  intro is
  induction is with
  | nil =>
      intro s _ hP _
      rw [always_nil_iff]
      exact ⟨fun _ => everyStep_nil, fun _ => hP⟩
  | cons i is ih =>
      intro s hIs hP hD
      obtain ⟨hDi, hDs⟩ := everyStep_cons_iff.mp hD
      rw [always_cons_iff, everyStep_cons_iff]
      constructor
      · rintro ⟨_, h⟩
        have hP' : P (step s i) := h [] List.nil_prefix
        exact ⟨(hstep s i hIs hP hDi).mp hP', (ih (hI s i hIs hDi) hP' hDs).mp h⟩
      · rintro ⟨hc, h⟩
        -- the first step keeps `P`, so the rest of the run starts where the claim applies
        have hP' : P (step s i) := (hstep s i hIs hP hDi).mpr hc
        exact ⟨hP, (ih (hI s i hIs hDi) hP' hDs).mpr h⟩

/-- The same over all runs. -/
theorem always_iff_everyStep {I P : σ → Prop} {C : σ → ι → Prop}
    (hI : ∀ s i, I s → I (step s i))
    (hstep : ∀ s i, I s → P s → (P (step s i) ↔ C s i)) {is : List ι} {s : σ} (hIs : I s)
    (hP : P s) : Always step s P is ↔ EveryStep step s C is :=
  always_iff_everyStep_of (D := fun _ _ => True) (fun s i h _ => hI s i h)
    (fun s i h h' _ => hstep s i h h') hIs hP (fun _ _ _ => trivial)

/-- What survives every step that meets `D` holds throughout a run of such steps. -/
theorem always_of_everyStep {I : σ → Prop} {D : σ → ι → Prop}
    (hI : ∀ s i, I s → D s i → I (step s i)) :
    ∀ {is : List ι} {s : σ}, I s → EveryStep step s D is → Always step s I is := by
  intro is
  induction is with
  | nil => intro s hs _; exact always_nil_iff.mpr hs
  | cons i is ih =>
      intro s hs hD
      obtain ⟨hDi, hDs⟩ := everyStep_cons_iff.mp hD
      exact always_cons_iff.mpr ⟨hs, ih (hI s i hs hDi) hDs⟩

/-- What every step of a run of a step function preserves holds after the run. -/
theorem foldl_invariant {I : σ → Prop} :
    ∀ {is : List ι} {s : σ}, (∀ s, ∀ i ∈ is, I s → I (step s i)) → I s → I (is.foldl step s) := by
  intro is
  induction is with
  | nil => intro s _ h; exact h
  | cons i is ih =>
      intro s hI h
      exact ih (fun s j hj => hI s j (List.mem_cons_of_mem i hj)) (hI s i List.mem_cons_self h)

end Mintpool.Lib
