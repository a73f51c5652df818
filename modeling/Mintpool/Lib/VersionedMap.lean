import Mathlib.Data.List.Induction
import Mathlib.Logic.Function.Basic
import Mathlib.Order.Lattice
import Mintpool.Lib.Run

/-!
# Versioned maps

A map that holds one value per key and replaces it only by a later version. Each
entry also carries a mark, which stays when the value is replaced. This is what a
table with a version column and a flag is for, without the table.

However its calls are ordered, an entry that is never removed ends up with the
latest version stored under its key.
-/

namespace Mintpool.Lib

/-- Under a key, a value and whether it is marked. -/
abbrev VersionedMap (κ ν : Type) := κ → Option (ν × Bool)

namespace VersionedMap

variable {κ ν ω : Type} [DecidableEq κ] [LinearOrder ω]

def empty : VersionedMap κ ν := fun _ => none

section Calls

variable (key : ν → κ) (version : ν → ω)

/-- Insert a value, or replace an earlier version of it; a later or equal one refuses. -/
def store (M : VersionedMap κ ν) (v : ν) : Option (VersionedMap κ ν) :=
  match M (key v) with
  | none => some (Function.update M (key v) (some (v, false)))
  | some (old, marked) =>
      if version v ≤ version old then none
      else some (Function.update M (key v) (some (v, marked)))

/-- Remove the entries with these keys, or mark them. -/
def mark (remove : Bool) (named : κ → Bool) (M : VersionedMap κ ν) : VersionedMap κ ν :=
  fun k =>
    if named k then (if remove then none else (M k).map (fun entry => (entry.1, true)))
    else M k

inductive Call (κ ν : Type) where
  | store (v : ν)
  | mark (named : κ → Bool)

/-- The map after a call; a refused one leaves it as it was. -/
def call (remove : Bool) (M : VersionedMap κ ν) : Call κ ν → VersionedMap κ ν
  | .store v => (M.store key version v).getD M
  | .mark named => M.mark remove named

/-- The call leaves an entry under `k` if there was one. -/
def Keeps (remove : Bool) (k : κ) (M : VersionedMap κ ν) (c : Call κ ν) : Prop :=
  M k ≠ none → call key version remove M c k ≠ none

end Calls

variable {key : ν → κ} {version : ν → ω} {M : VersionedMap κ ν} {v : ν} {k : κ}

/-! ## What a call does to an entry -/

theorem store_of_none (h : M (key v) = none) :
    M.store key version v = some (Function.update M (key v) (some (v, false))) := by
  unfold store
  rw [h]

theorem store_of_lt {old : ν} {marked : Bool} (h : M (key v) = some (old, marked))
    (hlt : version old < version v) :
    M.store key version v = some (Function.update M (key v) (some (v, marked))) := by
  unfold store
  rw [h]
  exact if_neg (not_le.mpr hlt)

theorem store_of_le {old : ν} {marked : Bool} (h : M (key v) = some (old, marked))
    (hle : version v ≤ version old) : M.store key version v = none := by
  unfold store
  rw [h]
  exact if_pos hle

theorem call_store_of_ne {remove : Bool} (h : k ≠ key v) :
    call key version remove M (.store v) k = M k := by
  show ((M.store key version v).getD M) k = M k
  cases hM : M (key v) with
  | none =>
      rw [store_of_none hM]
      exact Function.update_of_ne h _ M
  | some entry =>
      by_cases hle : version v ≤ version entry.1
      · rw [store_of_le hM hle]
        rfl
      · rw [store_of_lt hM (not_le.mp hle)]
        exact Function.update_of_ne h _ M

/-- **A store leaves a version under its key that is no earlier than its own**: the value
itself, or the one that was there. -/
theorem call_store_self (key : ν → κ) (version : ν → ω) (remove : Bool)
    (M : VersionedMap κ ν) (v : ν) :
    ∃ q marked, call key version remove M (.store v) (key v) = some (q, marked)
      ∧ version v ≤ version q
      ∧ (q = v ∧ (∀ old m, M (key v) = some (old, m) → version old < version v)
        ∨ M (key v) = some (q, marked)) := by
  show ∃ q marked, ((M.store key version v).getD M) (key v) = some (q, marked) ∧ _
  -- the first version stays
  cases hM : M (key v) with
  | none =>
      rw [store_of_none hM]
      refine ⟨v, false, Function.update_self .., le_rfl, .inl ⟨rfl, ?_⟩⟩
      intro old m h
      cases h
  | some entry =>
      obtain ⟨old, marked⟩ := entry
      -- a version that is no greater changes nothing
      by_cases hle : version v ≤ version old
      · rw [store_of_le hM hle]
        exact ⟨old, marked, hM, hle, .inr rfl⟩
      · rw [store_of_lt hM (not_le.mp hle)]
        refine ⟨v, marked, Function.update_self .., le_rfl, .inl ⟨rfl, ?_⟩⟩
        intro old' m h
        cases h
        exact not_le.mp hle

/-- A mark changes no value. -/
theorem call_mark {remove : Bool} {named : κ → Bool} {entry : ν × Bool}
    (h : call key version remove M (.mark named) k = some entry) :
    ∃ marked, M k = some (entry.1, marked) := by
  change (if named k then (if remove then none else (M k).map (fun e => (e.1, true)))
    else M k) = some entry at h
  split at h
  · split at h
    · cases h
    · obtain ⟨old, hold, rfl⟩ := Option.map_eq_some_iff.mp h
      exact ⟨old.2, hold⟩
  · exact ⟨entry.2, h⟩

/-- Calls that only mark remove nothing. -/
theorem keeps_of_not_remove (k : κ) (M : VersionedMap κ ν) (c : Call κ ν) :
    Keeps key version false k M c := by
  intro hM
  cases c with
  | store v =>
      by_cases hk : k = key v
      · obtain ⟨q, marked, hself, _⟩ := call_store_self key version false M v
        rw [hk, hself]
        exact Option.some_ne_none _
      · rw [call_store_of_ne hk]
        exact hM
  | mark named =>
      change (if named k then (M k).map (fun e => (e.1, true)) else M k) ≠ none
      split
      · exact fun hnone => hM (Option.map_eq_none_iff.mp hnone)
      · exact hM

/-! ## Whole sequences of calls -/

/-- Every value in the map was stored, under the key it is found at. -/
theorem stored_of_entry {remove : Bool} {calls : List (Call κ ν)} {q : ν} {marked : Bool}
    (h : calls.foldl (call key version remove) empty k = some (q, marked)) :
    .store q ∈ calls ∧ key q = k := by
  induction calls using List.reverseRecOn generalizing q marked with
  | nil => cases h
  | append_singleton calls c ih =>
      rw [List.foldl_append, List.foldl_cons, List.foldl_nil] at h
      have hbefore : ∀ {m : Bool}, calls.foldl (call key version remove) empty k = some (q, m) →
          .store q ∈ calls ++ [c] ∧ key q = k := by
        intro m hm
        exact ⟨List.mem_append_left _ (ih hm).1, (ih hm).2⟩
      -- the last call to the key decides, unless it was refused
      cases c with
      | store v =>
          by_cases hk : k = key v
          · obtain ⟨q', m, hself, _, ⟨rfl, _⟩ | hold⟩ := call_store_self key version
              remove (calls.foldl (call key version remove) empty) v
            · rw [hk, hself] at h
              cases h
              exact ⟨by simp, hk.symm⟩
            · rw [hk, hself] at h
              cases h
              exact hbefore (hk ▸ hold)
          · rw [call_store_of_ne hk] at h
            exact hbefore h
      | mark named =>
          obtain ⟨m, hm⟩ := call_mark h
          exact hbefore hm

/--
**The latest version wins, whatever the order of the calls**: an entry that no call
removed has a version at least that of every value ever stored under its key.
-/
theorem latest {remove : Bool} {calls : List (Call κ ν)} (h : .store v ∈ calls)
    (hkeep : EveryStep (call key version remove) empty (Keeps key version remove (key v)) calls) :
    ∃ q marked, calls.foldl (call key version remove) empty (key v) = some (q, marked)
      ∧ version v ≤ version q := by
  induction calls using List.reverseRecOn with
  | nil => cases h
  | append_singleton calls c ih =>
      obtain ⟨hkeeps, hlast⟩ := everyStep_snoc_iff.mp hkeep
      rw [List.foldl_append, List.foldl_cons, List.foldl_nil]
      rcases List.mem_append.mp h with hbefore | hnow
      · -- stored before: the entry was there, and the last call did not lower its version
        obtain ⟨q, marked, hq, hle⟩ := ih hbefore hkeeps
        cases c with
        | mark named =>
            obtain ⟨⟨q', m⟩, hq'⟩ := Option.ne_none_iff_exists'.mp
              (hlast (by rw [hq]; exact Option.some_ne_none _))
            obtain ⟨m', hm'⟩ := call_mark hq'
            rw [hq] at hm'
            cases hm'
            exact ⟨_, m, hq', hle⟩
        | store w =>
            by_cases hk : key v = key w
            · obtain ⟨q', m, hself, hle', ⟨rfl, hlt⟩ | hold⟩ := call_store_self
                key version remove (calls.foldl (call key version remove) empty) w
              · exact ⟨q', m, hk ▸ hself, hle.trans (hlt q marked (hk ▸ hq)).le⟩
              · rw [← hk, hq] at hold
                cases hold
                exact ⟨_, _, hk ▸ hself, hle⟩
            · exact ⟨q, marked, by rw [call_store_of_ne hk, hq], hle⟩
      · obtain rfl := List.mem_singleton.mp hnow
        obtain ⟨q, marked, hq, hle, _⟩ := call_store_self key version
          remove (calls.foldl (call key version remove) empty) v
        exact ⟨q, marked, hq, hle⟩

/-! ## What is left does not depend on the order -/

/-- What a map has under a key when just these values have been stored and none removed: one
of them, none of them being later, or nothing if none of them has the key. -/
def Top (key : ν → κ) (version : ν → ω) (stored : ν → Prop) (k : κ) : Option ν → Prop
  | none => ∀ v, stored v → key v ≠ k
  | some q => stored q ∧ key q = k ∧ ∀ v, stored v → key v = k → version v ≤ version q

/-- Two values of one key, both of the latest version stored under it. -/
def Tied (key : ν → κ) (version : ν → ω) (stored : ν → Prop) (v w : ν) : Prop :=
  stored v ∧ stored w ∧ key v = key w ∧ version v = version w
    ∧ ∀ u, stored u → key u = key v → version u ≤ version v

section Top

variable {stored : ν → Prop} {a b : Option ν}

omit [DecidableEq κ] in
/-- **The version is the same in every order.** -/
theorem Top.version_eq (ha : Top key version stored k a) (hb : Top key version stored k b) :
    a.map version = b.map version := by
  cases a with
  | none =>
      cases b with
      | none => rfl
      | some w => exact absurd hb.2.1 (ha w hb.1)
  | some v =>
      cases b with
      | none => exact absurd ha.2.1 (hb v ha.1)
      | some w =>
          exact congrArg some (le_antisymm (hb.2.2 v ha.1 ha.2.1) (ha.2.2 w hb.1 hb.2.1))

omit [DecidableEq κ] in
/-- **And so is the value, unless two of them are tied.** -/
theorem Top.eq_of_untied (huntied : ∀ v w, Tied key version stored v w → v = w)
    (ha : Top key version stored k a) (hb : Top key version stored k b) : a = b := by
  have hversion := ha.version_eq hb
  cases a with
  | none =>
      cases b with
      | none => rfl
      | some w => cases hversion
  | some v =>
      cases b with
      | none => cases hversion
      | some w =>
          have htied : Tied key version stored v w :=
            ⟨ha.1, hb.1, ha.2.1.trans hb.2.1.symm, Option.some.inj hversion,
              fun u hu huk => ha.2.2 u hu (huk.trans ha.2.1)⟩
          exact congrArg some (huntied v w htied)

/-! ### One more value -/

variable {v : ν}

omit [DecidableEq κ] in
theorem Top.store_of_ne (ha : Top key version stored k a) (hk : key v ≠ k) :
    Top key version (fun u => stored u ∨ u = v) k a := by
  cases a with
  | none =>
      intro u hu
      rcases hu with hu | rfl
      · exact ha u hu
      · exact hk
  | some q =>
      refine ⟨.inl ha.1, ha.2.1, fun u hu huk => ?_⟩
      rcases hu with hu | rfl
      · exact ha.2.2 u hu huk
      · exact absurd huk hk

omit [DecidableEq κ] in
/-- It is no later than what is there. -/
theorem Top.store_of_le {q : ν} (ha : Top key version stored k (some q))
    (hle : version v ≤ version q) : Top key version (fun u => stored u ∨ u = v) k (some q) := by
  refine ⟨.inl ha.1, ha.2.1, fun u hu huk => ?_⟩
  rcases hu with hu | rfl
  · exact ha.2.2 u hu huk
  · exact hle

omit [DecidableEq κ] in
/-- It takes the place of what is there. -/
theorem Top.store_self (ha : Top key version stored (key v) a)
    (hle : ∀ q, a = some q → version q ≤ version v) :
    Top key version (fun u => stored u ∨ u = v) (key v) (some v) := by
  refine ⟨.inr rfl, rfl, fun u hu huk => ?_⟩
  rcases hu with hu | rfl
  · cases a with
    | none => exact absurd huk (ha u hu)
    | some q => exact (ha.2.2 u hu huk).trans (hle q rfl)
  · exact le_rfl

end Top

end VersionedMap

end Mintpool.Lib
