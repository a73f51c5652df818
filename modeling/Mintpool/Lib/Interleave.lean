import Mathlib.Algebra.Ring.Nat
import Mintpool.Lib.Run

/-!
# Tasks interleaved over shared state

Several tasks take turns on one shared state. A task is its local state; an
`act` is one uninterrupted piece of it. Which task goes next is up to the schedule,
within what a gate over all the local states allows — a semaphore, for instance.

`serializes` is the commit-point argument: if every act either leaves the shared
state alone or is exactly one task's whole atomic operation, then the shared state
at the end is the one reached by running those operations one at a time, in the
order of their commit points.
-/

namespace Mintpool.Lib.Interleave

structure State (σ τ : Type) where
  shared : σ
  tasks : List τ

variable {σ τ ε : Type}

/-- Task `i` takes its next act, `e` being what the outside world answers. -/
def step (gate : List τ → τ → Bool) (act : ε → σ → τ → Option (σ × τ)) (c : State σ τ)
    (i : Nat) (e : ε) : Option (State σ τ) :=
  match c.tasks[i]? with
  | none => none
  | some t =>
      if gate c.tasks t then
        match act e c.shared t with
        | none => none
        | some (s, t') => some ⟨s, c.tasks.set i t'⟩
      else none

/-- A schedule and the states it leads to. -/
abbrev Schedule (gate : List τ → τ → Bool) (act : ε → σ → τ → Option (σ × τ)) :
    State σ τ → List (Nat × ε) → State σ τ → Prop :=
  Run (fun c (ie : Nat × ε) c' => step gate act c ie.1 ie.2 = some c')

section Step

variable {gate : List τ → τ → Bool} {act : ε → σ → τ → Option (σ × τ)}
  {c c' : State σ τ} {i : Nat} {e : ε}

/-- **Everything a step can do.** -/
theorem step_cases (h : step gate act c i e = some c') :
    ∃ t s t', c.tasks[i]? = some t ∧ gate c.tasks t = true ∧ act e c.shared t = some (s, t')
      ∧ c' = ⟨s, c.tasks.set i t'⟩ := by
  unfold step at h
  split at h
  · exact absurd h (by simp)
  · rename_i t ht
    split at h
    · rename_i hg
      split at h
      · exact absurd h (by simp)
      · rename_i s t' ha
        exact ⟨t, s, t', ht, hg, ha, (Option.some.inj h).symm⟩
    · exact absurd h (by simp)

end Step

/-! ## Termination

Every act brings its task closer to being done, and as long as some task is not done
some task can act. Then there is no schedule longer than the work to be done, and
every schedule can be completed. -/

section Termination

variable {gate : List τ → τ → Bool} {act : ε → σ → τ → Option (σ × τ)} {rank : τ → Nat}
  {done : τ → Bool}

theorem sum_set_lt : ∀ {tasks : List τ} {i : Nat} {t t' : τ}, tasks[i]? = some t →
    rank t' < rank t → ((tasks.set i t').map rank).sum < (tasks.map rank).sum := by
  intro tasks
  induction tasks with
  | nil => intro i t t' h _; simp at h
  | cons u tasks ih =>
      intro i t t' h hlt
      cases i with
      | zero =>
          have hu : u = t := by simpa using h
          simp only [List.set_cons_zero, List.map_cons, List.sum_cons, hu]
          omega
      | succ i =>
          have := ih (by simpa using h) hlt
          simp only [List.set_cons_succ, List.map_cons, List.sum_cons]
          omega

/-- A step lowers the work that is left. -/
theorem step_rank_lt {c c' : State σ τ} {i : Nat} {e : ε}
    (hrank : ∀ e s t s' t', act e s t = some (s', t') → rank t' < rank t)
    (h : step gate act c i e = some c') :
    (c'.tasks.map rank).sum < (c.tasks.map rank).sum := by
  obtain ⟨t, s, t', ht, _, ha, rfl⟩ := step_cases h
  exact sum_set_lt ht (hrank e c.shared t s t' ha)

/-- **No schedule is longer than the work it does.** -/
theorem schedule_length_le {c c' : State σ τ} {schedule : List (Nat × ε)}
    (hrank : ∀ e s t s' t', act e s t = some (s', t') → rank t' < rank t)
    (h : Schedule gate act c schedule c') :
    schedule.length + (c'.tasks.map rank).sum ≤ (c.tasks.map rank).sum := by
  induction h with
  | nil => simp
  | snoc _ hs ih =>
      have := step_rank_lt hrank hs
      rw [List.length_append, List.length_singleton]
      omega

/-- **Every state can be run to where all tasks are done**, whatever the world answers. -/
theorem exists_completion (e : ε)
    (hrank : ∀ e s t s' t', act e s t = some (s', t') → rank t' < rank t)
    (hprogress : ∀ c : State σ τ, (∃ t ∈ c.tasks, done t = false) →
      ∃ i c', step gate act c i e = some c') (c : State σ τ) :
    ∃ schedule c', Schedule gate act c schedule c' ∧ (∀ ie ∈ schedule, ie.2 = e)
      ∧ c'.tasks.all done = true := by
  induction hn : (c.tasks.map rank).sum using Nat.strongRecOn generalizing c with
  | ind n ih =>
      -- by induction on what the tasks still have to do
      by_cases hdone : c.tasks.all done = true
      · exact ⟨[], c, .nil, by simp, hdone⟩
      · obtain ⟨i, c', hs⟩ := hprogress c (by simpa using hdone)
        have hlt := step_rank_lt hrank hs
        obtain ⟨schedule, c'', hrun, he, hdone'⟩ := ih _ (by omega) c' rfl
        have hfirst : Schedule gate act c ([] ++ [(i, e)]) c' := .snoc .nil hs
        refine ⟨_, c'', Run.trans hfirst hrun, fun ie hie => ?_, hdone'⟩
        rcases List.mem_append.mp hie with hie | hie
        · rw [List.mem_singleton.mp hie]
        · exact he ie hie

end Termination

/-! ## Serialization -/

section Serialization

variable {R : State σ τ → Nat × ε → State σ τ → Prop} {c₀ c : State σ τ}
  {schedule : List (Nat × ε)}

/--
**The commit-point argument.** `Inv c done` relates a state to the operations that
have taken effect so far, in order. If every step keeps it, either with the shared
state as it was or with one more operation applied, then the shared state is always
the fold of the operations done.
-/
theorem serializes {δ : Type} (apply : σ → δ → σ) (Inv : State σ τ → List δ → Prop)
    (hrun : Run R c₀ schedule c) (h0 : Inv c₀ [])
    (hstep : ∀ c ie c' done, Inv c done → R c ie c' →
      (c'.shared = c.shared ∧ Inv c' done)
        ∨ ∃ d, c'.shared = apply c.shared d ∧ Inv c' (done ++ [d])) :
    ∃ done, Inv c done ∧ c.shared = done.foldl apply c₀.shared := by
  induction hrun with
  | nil => exact ⟨[], h0, rfl⟩
  | snoc _ hs ih =>
      obtain ⟨done, hinv, hsh⟩ := ih
      rcases hstep _ _ _ done hinv hs with ⟨heq, hinv'⟩ | ⟨d, heq, hinv'⟩
      · exact ⟨done, hinv', by rw [heq, hsh]⟩
      · exact ⟨done ++ [d], hinv', by rw [heq, hsh, List.foldl_append]; rfl⟩

variable {κ : Type} {op : τ → κ} {settled : τ → Bool}

theorem map_set_eq {α β : Type} {f : α → β} {xs : List α} {i : Nat} {x x' : α}
    (h : xs[i]? = some x) (heq : f x' = f x) : (xs.set i x').map f = xs.map f := by
  obtain ⟨hi, rfl⟩ := List.getElem?_eq_some_iff.mp h
  have hi' : i < (xs.map f).length := by rw [List.length_map]; exact hi
  rw [List.map_set, heq, ← List.getElem_map f (h := hi'), List.set_getElem_self]

/-- A task that stays as settled as it was leaves the settled operations alone. -/
theorem settled_set_same : ∀ {tasks : List τ} {i : Nat} {t t' : τ}, tasks[i]? = some t →
    op t' = op t → settled t' = settled t →
      ((tasks.set i t').filter settled).map op = (tasks.filter settled).map op := by
  intro tasks
  induction tasks with
  | nil => intro i t t' h; simp at h
  | cons u tasks ih =>
      intro i t t' h hop heq
      cases i with
      | zero =>
          have hu : u = t := by simpa using h
          subst hu
          -- the task keeps its operation, whether it is settled or not
          rw [List.set_cons_zero, List.filter_cons, List.filter_cons, heq]
          split
          · rw [List.map_cons, List.map_cons, hop]
          · rfl
      | succ i =>
          have hrest := ih (by simpa using h) hop heq
          rw [List.set_cons_succ, List.filter_cons, List.filter_cons]
          split
          · rw [List.map_cons, List.map_cons, hrest]
          · exact hrest

/-- A task that settles adds its operation to them. -/
theorem settled_set_new : ∀ {tasks : List τ} {i : Nat} {t t' : τ}, tasks[i]? = some t →
    op t' = op t → settled t = false → settled t' = true →
      (((tasks.set i t').filter settled).map op).Perm (op t :: (tasks.filter settled).map op) := by
  intro tasks
  induction tasks with
  | nil => intro i t t' h; simp at h
  | cons u tasks ih =>
      intro i t t' h hop hold hnew
      cases i with
      | zero =>
          have hu : u = t := by simpa using h
          -- its operation comes in at the front, and moves past those before it
          subst hu
          rw [List.set_cons_zero, List.filter_cons, List.filter_cons, hold, hnew, if_pos rfl,
            if_neg (by simp), List.map_cons, hop]
      | succ i =>
          have hrest := ih (by simpa using h) hop hold hnew
          rw [List.set_cons_succ, List.filter_cons, List.filter_cons]
          split
          · rw [List.map_cons, List.map_cons]
            exact (hrest.cons _).trans (.swap _ _ _)
          · exact hrest

/--
**Commit points give a serial order.** Suppose every step of a task either leaves the
shared state alone, and the task as settled as it was, or settles it, and does to the
shared state what the task's whole operation would do at one go. Then the shared state
is the one that the operations of the settled tasks leave, each of them once, one after
another in some order.
-/
theorem serializable (apply : σ → ε × κ → σ) (Inv : State σ τ → Prop)
    (hrun : Run R c₀ schedule c) (h0 : Inv c₀) (hfresh : ∀ t ∈ c₀.tasks, settled t = false)
    (hstep : ∀ c i e c', Inv c → R c (i, e) c' → Inv c' ∧ ∃ t t', c.tasks[i]? = some t
      ∧ c'.tasks = c.tasks.set i t' ∧ op t' = op t
      ∧ ((settled t' = settled t ∧ c'.shared = c.shared)
        ∨ (settled t = false ∧ settled t' = true ∧ c'.shared = apply c.shared (e, op t)))) :
    ∃ order : List (ε × κ), (order.map Prod.snd).Perm ((c.tasks.filter settled).map op)
      ∧ c.tasks.map op = c₀.tasks.map op ∧ c.shared = order.foldl apply c₀.shared := by
  have hinit : Inv c₀ ∧ (([] : List (ε × κ)).map Prod.snd).Perm ((c₀.tasks.filter settled).map op)
      ∧ c₀.tasks.map op = c₀.tasks.map op := by
    refine ⟨h0, ?_, rfl⟩
    rw [List.filter_eq_nil_iff.mpr fun t ht => by simp [hfresh t ht]]
    exact .nil
  obtain ⟨order, ⟨_, hperm, hops⟩, hsh⟩ := serializes apply
    (fun c order => Inv c ∧ (order.map Prod.snd).Perm ((c.tasks.filter settled).map op)
      ∧ c.tasks.map op = c₀.tasks.map op) hrun hinit (by
    rintro c ⟨i, e⟩ c' order ⟨hinv, hperm, hops⟩ hs
    obtain ⟨hinv', t, t', ht, htasks, hop, h⟩ := hstep c i e c' hinv hs
    have hops' : c'.tasks.map op = c₀.tasks.map op := by rw [htasks, map_set_eq ht hop, hops]
    -- either nothing has taken effect, or the task's operation has, and it comes last
    rcases h with ⟨hsame, hsh⟩ | ⟨hold, hnew, hsh⟩
    · refine .inl ⟨hsh, hinv', ?_, hops'⟩
      rw [htasks, settled_set_same ht hop hsame]
      exact hperm
    · refine .inr ⟨(e, op t), hsh, hinv', ?_, hops'⟩
      rw [htasks, List.map_append]
      exact (List.perm_append_singleton _ _).trans
        ((hperm.cons _).trans (settled_set_new ht hop hold hnew).symm))
  exact ⟨order, hperm, hops, hsh⟩

end Serialization

end Mintpool.Lib.Interleave
