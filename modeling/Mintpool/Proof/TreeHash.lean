import Mintpool.Lib.Run
import Mintpool.Proof.TreeDiff
import Mintpool.Sample

/-!
# What `rehash` is worth

A clean node is not hashed again, so a flag that is clean too early leaves a stale hash for
good. The invariant is that it never is: a clean node has the hash of what it feeds, and so
has everything below it. Under the invariant `rehash` leaves the hash of a computation from
scratch at every node, and what a tree then looks like is decided by its paths.

Inserting without updating only sets flags, so it keeps the invariant. Inserting with
updating clears the flags along its path, and keeps it when nothing beside that path is
dirty. Nothing in the code sees to that.
-/

namespace Mintpool

open Lib

section

variable {T : Type} [Xxh3] [AsRef T]

namespace Node

/-! ## The hash from scratch -/

mutual

/-- The hash of a tree computed bottom-up over its children and values. -/
def referenceHash (n : Node T) : UInt64 :=
  match n with
  | ⟨value, _, _, _, children, _⟩ =>
    Xxh3.digest (referenceBytes children ++ AsRef.asRef value)

def referenceBytes (children : List (Node T)) : List UInt8 :=
  match children with
  | [] => []
  | child :: children => U64Buffer.update child.referenceHash ++ referenceBytes children

end

theorem referenceBytes_eq (children : List (Node T)) :
    referenceBytes children = children.flatMap fun c => U64Buffer.update c.referenceHash := by
  induction children with
  | nil => rw [referenceBytes, List.flatMap_nil]
  | cons c children ih => rw [referenceBytes, ih, List.flatMap_cons]

theorem referenceHash_eq (n : Node T) :
    n.referenceHash = Xxh3.digest
      (n.children.flatMap (fun c => U64Buffer.update c.referenceHash) ++ AsRef.asRef n.value) := by
  cases n
  rw [referenceHash, referenceBytes_eq]

/-! ## Clean nodes -/

/-- No given hash, and a clean flag means what it says. -/
structure Fresh (n : Node T) : Prop where
  noManual : n.manualHash = none
  hash : n.dirty = false → n.hash = Xxh3.digest n.hashInput
  below : n.dirty = false → ∀ c ∈ n.children, c.dirty = false

/-- Clean, with the hash of what it feeds. -/
structure Hashed (n : Node T) : Prop where
  noManual : n.manualHash = none
  clean : n.dirty = false
  hash : n.hash = Xxh3.digest n.hashInput

abbrev UpToDate (n : Node T) : Prop := All Fresh n

abbrev Settled (n : Node T) : Prop := All Hashed n

theorem Settled.upToDate {n : Node T} (h : Settled n) : UpToDate n := by
  induction h with
  | node hn hcs ih =>
      exact .node ⟨hn.noManual, fun _ => hn.hash, fun _ c hc => (hcs c hc).self.clean⟩ ih

/-- Below a clean node everything is clean. -/
theorem UpToDate.settled {n : Node T} (h : UpToDate n) (hclean : n.dirty = false) :
    Settled n := by
  induction h with
  | node hn _ ih =>
      exact .node ⟨hn.noManual, hclean, hn.hash hclean⟩
        fun c hc => ih c hc (hn.below hclean c hc)

theorem updateHash_of_clean {n : Node T} (hmanual : n.manualHash = none)
    (hclean : n.dirty = false) : n.updateHash = n := by
  unfold updateHash
  rw [hmanual]
  simp [hclean]

theorem updateHash_of_dirty {n : Node T} (hmanual : n.manualHash = none)
    (hdirty : n.dirty = true) :
    n.updateHash = { n with hash := Xxh3.digest n.hashInput, dirty := false } := by
  unfold updateHash
  rw [hmanual]
  simp [hdirty]

/-- Hashing a dirty node over settled children settles it. -/
theorem settled_updateHash {n : Node T} (hmanual : n.manualHash = none) (hdirty : n.dirty = true)
    (hcs : ∀ c ∈ n.children, Settled c) : Settled n.updateHash := by
  rw [updateHash_of_dirty hmanual hdirty]
  exact .node ⟨hmanual, rfl, rfl⟩ hcs

/-- There is nothing to do in a settled tree. -/
theorem rehash_of_settled {n : Node T} (h : Settled n) : n.rehash = n := by
  induction h with
  | @node n hn _ ih =>
      rw [rehash_eq, List.map_congr_left ih, List.map_id']
      cases n
      exact updateHash_of_clean hn.noManual hn.clean

/-- **`rehash` settles a tree whose clean flags can be trusted.** -/
theorem settled_rehash {n : Node T} (h : UpToDate n) : Settled n.rehash := by
  induction h with
  | @node n hn hcs ih =>
      cases hd : n.dirty with
      | false =>
          have hs : Settled n := UpToDate.settled (.node hn hcs) hd
          rw [rehash_of_settled hs]
          exact hs
      | true =>
          rw [rehash_eq]
          refine settled_updateHash hn.noManual hd fun c hc => ?_
          obtain ⟨c', hc', rfl⟩ := List.mem_map.mp hc
          exact ih c' hc'

/-- In a settled tree every hash is the one computed from scratch. -/
theorem Settled.referenceHash {n : Node T} (h : Settled n) :
    All (fun n => n.hash = n.referenceHash) n := by
  induction h with
  | @node n hn _ ih =>
      refine .node ?_ ih
      rw [hn.hash, hashInput, referenceHash_eq]
      congr 2
      exact List.flatMap_congr fun c hc => congrArg U64Buffer.update (ih c hc).self

section Order

variable [LinearOrder T]

/-- **A settled tree is determined by its paths.** -/
theorem Settled.eq_of_paths {n m : Node T} (hn : Settled n) (hm : Settled m) (hnw : WellFormed n)
    (hmw : WellFormed m) (hvalue : n.value = m.value) (hlevel : n.level = m.level)
    (hpaths : n.paths = m.paths) : n = m := by
  induction hn generalizing m with
  | @node n hn _ ih =>
      have hrel : List.Forall₂ Eq n.children m.children := by
        refine forall₂_of_lookupBy hnw.self.sorted hmw.self.sorted fun value => ?_
        show Option.Rel Eq (n.child? value) (m.child? value)
        -- a child on one side is a path of length one, so there is one on the other
        have hsome : (∃ c, n.child? value = some c) ↔ ∃ c, m.child? value = some c := by
          have h1 := @cons_mem_paths_iff T _ n value []
          have h2 := @cons_mem_paths_iff T _ m value []
          simp only [nil_mem_paths, and_true] at h1 h2
          rw [← h1, ← h2, hpaths]
        cases hc : n.child? value with
        | none =>
            cases hd : m.child? value with
            | none => exact .none
            | some d => exact absurd (hsome.mpr ⟨d, hd⟩) (by simp [hc])
        | some c =>
            obtain ⟨d, hd⟩ := hsome.mp ⟨c, hc⟩
            obtain ⟨hcm, hcv⟩ := child?_some hc
            obtain ⟨hdm, hdv⟩ := child?_some hd
            rw [hd]
            refine .some (ih c hcm (hm.child hdm) (hnw.child hcm) (hmw.child hdm) ?_ ?_ ?_)
            · rw [hcv, hdv]
            · rw [hnw.self.level c hcm, hmw.self.level d hdm, hlevel]
            · rw [← below_paths hc, ← below_paths hd, hpaths]
      have hchildren : n.children = m.children := List.forall₂_eq_eq_eq ▸ hrel
      have hhash : n.hash = m.hash := by
        rw [hn.hash, hm.self.hash, hashInput, hashInput, hchildren, hvalue]
      have hdirty : n.dirty = m.dirty := by rw [hn.clean, hm.self.clean]
      have hmanual : n.manualHash = m.manualHash := by rw [hn.noManual, hm.self.noManual]
      cases n; cases m
      simp_all

/-! ## What insertions do to the flags -/

/--
Nothing beside the path is dirty: no node that the path passes has a dirty child off it,
and the node it ends at has no dirty child.
-/
def CleanBeside (n : Node T) : List T → Prop
  | [] => ∀ c ∈ n.children, c.dirty = false
  | value :: path => (∀ c ∈ n.children, c.value ≠ value → c.dirty = false) ∧
      ∀ c, n.child? value = some c → c.CleanBeside path

instance decidableCleanBeside : ∀ (path : List T) (n : Node T), Decidable (n.CleanBeside path)
  | [], n => inferInstanceAs (Decidable (∀ c ∈ n.children, c.dirty = false))
  | value :: path, n =>
    have := fun c => decidableCleanBeside path c
    inferInstanceAs (Decidable ((∀ c ∈ n.children, c.value ≠ value → c.dirty = false) ∧
      ∀ c ∈ n.child? value, c.CleanBeside path))

omit [LinearOrder T] in
theorem upToDate_newChild (n : Node T) (value : T) : UpToDate (n.newChild value false) :=
  .node ⟨rfl, (nomatch ·), (nomatch ·)⟩ fun _ hc => nomatch hc

omit [LinearOrder T] in
theorem settled_newChild (n : Node T) (value : T) : Settled (n.newChild value true) :=
  @settled_updateHash T _ _ { value, level := n.level + 1 } rfl rfl fun _ hc => nomatch hc

omit [Xxh3] [AsRef T] in
theorem cleanBeside_of_children_eq_nil {n : Node T} (h : n.children = []) (path : List T) :
    n.CleanBeside path := by
  cases path with
  | nil => intro c hc; rw [h] at hc; exact absurd hc (by simp)
  | cons value path =>
      refine ⟨fun c hc => ?_, fun c hc => ?_⟩
      · rw [h] at hc; exact absurd hc (by simp)
      · rw [child?, h, lookupBy_nil] at hc; exact absurd hc (by simp)

/-- In a settled tree nothing is dirty, beside any path. -/
theorem Settled.cleanBeside (path : List T) : ∀ {n : Node T}, Settled n → n.CleanBeside path := by
  induction path with
  | nil => intro n h c hc; exact (h.child hc).self.clean
  | cons value path ih =>
      intro n h
      refine ⟨fun c hc _ => (h.child hc).self.clean, fun c hc => ?_⟩
      exact ih (h.child (child?_some hc).1)

theorem upToDate_childOrNew {n : Node T} (h : UpToDate n) (value : T) (update : Bool) :
    UpToDate (n.childOrNew value update) := by
  unfold childOrNew
  cases hc : n.child? value with
  | some c => exact h.child (child?_some hc).1
  | none =>
      cases update with
      | false => exact upToDate_newChild n value
      | true => exact (settled_newChild n value).upToDate

/-- A node that only gets dirty can be trusted as before. -/
theorem UpToDate.touch {n : Node T} {k : T} {f : Node T → Node T} (h : UpToDate n)
    (hw : WellFormed n) (hf : ∀ c, c.value = k → (f c).value = k)
    (hchild : UpToDate (f (n.childOrNew k false))) : UpToDate (n.touch k false f) :=
  All.touch h hw.self.sorted hf
    ⟨by rw [touch_manualHash, h.self.noManual], (nomatch ·), (nomatch ·)⟩ hchild

/-- A node that gets clean needs its other children to be. -/
theorem settled_touch {n : Node T} {k : T} {f : Node T → Node T} (h : UpToDate n)
    (hw : WellFormed n) (hf : ∀ c, c.value = k → (f c).value = k)
    (hbeside : ∀ c ∈ n.children, c.value ≠ k → c.dirty = false)
    (hchild : Settled (f (n.childOrNew k true))) : Settled (n.touch k true f) := by
  refine settled_updateHash h.self.noManual rfl fun c hc => ?_
  have hc' : c ∈ (n.touch k true f).children := by rw [touch_children]; exact hc
  rcases mem_children_touch hw.self.sorted hf hc' with rfl | ⟨hc, hk⟩
  · exact hchild
  · exact UpToDate.settled (h.child hc) (hbeside c hc hk)

omit [LinearOrder T] in
theorem place_none {n : Node T} {value : T} (update : Bool) (h : n.value = value) :
    place value none update n = finish update n := by
  cases h
  cases n
  rfl

/-- Inserting without updating keeps the invariant. -/
theorem UpToDate.insert {value : T} :
    ∀ {path : List T} {n : Node T}, UpToDate n → WellFormed n →
      UpToDate (n.insert path value none false) := by
  intro path
  induction path with
  | nil =>
      intro n h hw
      rw [insert_nil]
      refine h.touch hw (fun c _ => place_value c value none false) ?_
      rw [place_none false (childOrNew_value n value false)]
      exact upToDate_childOrNew h value false
  | cons head tail ih =>
      intro n h hw
      rw [insert_cons]
      refine h.touch hw (fun c hc => by rw [insert_value, hc]) ?_
      exact ih (upToDate_childOrNew h head false) (hw.childOrNew head false).1

/-- The node that an updating insertion ends at. -/
theorem settled_finish {n : Node T} (h : UpToDate n) (hbelow : n.CleanBeside []) :
    Settled (finish true n) := by
  cases hd : n.dirty with
  | false =>
      have hs : Settled n := h.settled hd
      rw [finish, if_pos rfl, updateHash_of_clean h.self.noManual hd]
      exact hs
  | true =>
      exact settled_updateHash h.self.noManual hd fun c hc =>
        UpToDate.settled (h.child hc) (hbelow c hc)

theorem cleanBeside_childOrNew {n : Node T} {k : T} {path : List T}
    (h : n.CleanBeside (k :: path)) : (n.childOrNew k true).CleanBeside path := by
  unfold childOrNew
  cases hc : n.child? k with
  | none => exact cleanBeside_of_children_eq_nil (newChild_children n k true) path
  | some c => exact h.2 c hc

/-- **Inserting with updating settles the tree, if nothing beside the path is dirty.** -/
theorem settled_insert {value : T} :
    ∀ {path : List T} {n : Node T}, UpToDate n → WellFormed n →
      n.CleanBeside (path ++ [value]) → Settled (n.insert path value none true) := by
  intro path
  induction path with
  | nil =>
      intro n h hw hclean
      rw [insert_nil]
      refine settled_touch h hw (fun c _ => place_value c value none true) hclean.1 ?_
      rw [place_none true (childOrNew_value n value true)]
      exact settled_finish (upToDate_childOrNew h value true) (cleanBeside_childOrNew hclean)
  | cons head tail ih =>
      intro n h hw hclean
      rw [insert_cons]
      refine settled_touch h hw (fun c hc => by rw [insert_value, hc]) hclean.1 ?_
      exact ih (upToDate_childOrNew h head true) (hw.childOrNew head true).1
        (cleanBeside_childOrNew hclean)

end Order

end Node

/-! ## Runs -/

variable [LinearOrder T]

namespace TreeOp

/-- No hash is given. -/
def plain : TreeOp T → Bool
  | insert .. | insertUpdate .. | rehash => true
  | insertWithHash .. | insertWithHashUpdate .. => false

/-- Hashing is left to `rehash`. -/
def deferred : TreeOp T → Bool
  | insert .. | rehash => true
  | _ => false

omit [Xxh3] [AsRef T] [LinearOrder T] in
theorem plain_of_deferred {op : TreeOp T} (h : op.deferred) : op.plain := by
  cases op <;> first | rfl | exact nomatch h

end TreeOp

namespace TreeSet

/-- An updating insertion finds nothing dirty beside its path. -/
def CleanStep (t : TreeSet T) : TreeOp T → Prop
  | .insertUpdate path value => t.root.CleanBeside (path ++ [value])
  | _ => True

omit [Xxh3] [AsRef T] in
theorem cleanStep_of_deferred {t : TreeSet T} {op : TreeOp T} (h : op.deferred) :
    t.CleanStep op := by
  cases op <;> trivial

theorem upToDate_apply {t : TreeSet T} {op : TreeOp T} (hplain : op.plain)
    (h : t.root.UpToDate) (hw : t.root.WellFormed) (hclean : t.CleanStep op) :
    (t.apply op).root.UpToDate := by
  cases op with
  | insert path value => exact h.insert hw
  | insertUpdate path value => exact (Node.settled_insert h hw hclean).upToDate
  | rehash => exact (Node.settled_rehash h).upToDate
  | insertWithHash => nomatch hplain
  | insertWithHashUpdate => nomatch hplain

variable [Inhabited T]

theorem upToDate_build {ops : List (TreeOp T)} (hplain : ∀ op ∈ ops, op.plain)
    (hclean : EveryStep apply new CleanStep ops) : (build ops).root.UpToDate := by
  induction ops using List.reverseRecOn with
  | nil => exact .node ⟨rfl, (nomatch ·), (nomatch ·)⟩ fun c hc => nomatch hc
  | append_singleton ops op ih =>
      obtain ⟨hclean, hlast⟩ := everyStep_snoc_iff.mp hclean
      rw [build_snoc]
      exact upToDate_apply (hplain op (by simp))
        (ih (fun op hop => hplain op (List.mem_append_left _ hop)) hclean)
        (wellFormed_build ops) hlast

theorem everyStep_of_deferred {ops : List (TreeOp T)} (h : ∀ op ∈ ops, op.deferred) :
    EveryStep apply new CleanStep ops :=
  fun _ op hd => cleanStep_of_deferred (h op (hd.subset (by simp)))

theorem settled_build {ops : List (TreeOp T)} (hplain : ∀ op ∈ ops, op.plain)
    (hclean : EveryStep apply new CleanStep ops) : (build ops).rehash.root.Settled :=
  Node.settled_rehash (upToDate_build hplain hclean)

/-- Of two settled trees that were built over the same paths there is one. -/
theorem build_eq_of_settled {ops ops' : List (TreeOp T)} (h : (build ops).root.Settled)
    (h' : (build ops').root.Settled) (hpaths : (build ops).root.paths = (build ops').root.paths) :
    build ops = build ops' := by
  have hroot : (build ops).root = (build ops').root := by
    refine h.eq_of_paths h' (wellFormed_build ops) (wellFormed_build ops') ?_ ?_ hpaths
    · rw [root_value_build, root_value_build]
    · rw [root_level_build, root_level_build]
  exact congrArg TreeSet.mk hroot

theorem rehash_build (ops : List (TreeOp T)) : (build ops).rehash = build (ops ++ [.rehash]) :=
  (build_snoc ops .rehash).symm

/-- Two runs that keep the invariant and insert the same paths end in the same tree. -/
theorem rehash_eq_of_paths {ops ops' : List (TreeOp T)} (hplain : ∀ op ∈ ops, op.plain)
    (hclean : EveryStep apply new CleanStep ops) (hplain' : ∀ op ∈ ops', op.plain)
    (hclean' : EveryStep apply new CleanStep ops')
    (hpaths : (build ops).root.paths = (build ops').root.paths) :
    (build ops).rehash = (build ops').rehash := by
  have hs := settled_build hplain hclean
  have hs' := settled_build hplain' hclean'
  have hsame : (build ops).rehash.root.paths = (build ops').rehash.root.paths := by
    rw [rehash, rehash, Node.paths_rehash, Node.paths_rehash, hpaths]
  rw [rehash_build] at hs hs' hsame ⊢
  rw [rehash_build] at hsame ⊢
  exact build_eq_of_settled hs hs' hsame

/--
**`rehash` restores every hash.** After any run of `insert`, `insert_update` and `rehash` in
which updating insertions find nothing dirty beside their path, a last `rehash` leaves at
every node the hash computed from scratch; and two such runs with the same paths do not
differ.
-/
theorem rehash_restores {ops : List (TreeOp T)} (hplain : ∀ op ∈ ops, op.plain)
    (hclean : EveryStep apply new CleanStep ops) :
    (build ops).rehash.root.All (fun n => n.hash = n.referenceHash)
    ∧ ∀ ops' : List (TreeOp T), (∀ op ∈ ops', op.plain) → EveryStep apply new CleanStep ops' →
        (build ops).root.paths = (build ops').root.paths →
        (build ops).rehash.diff (build ops').rehash = [] := by
  refine ⟨(settled_build hplain hclean).referenceHash, fun ops' hplain' hclean' hpaths => ?_⟩
  rw [← rehash_eq_of_paths hplain hclean hplain' hclean' hpaths]
  exact Node.diff_self (Node.wellFormed_rehash (wellFormed_build ops))

/--
**A tree does not remember how it was built.** Two runs of `insert` and `rehash` that insert
the same paths, up to prefixes, end in the same tree after a last `rehash`.
-/
theorem history_independent {ops ops' : List (TreeOp T)} (h : ∀ op ∈ ops, op.deferred)
    (h' : ∀ op ∈ ops', op.deferred) (hsame : inserted ops = inserted ops') :
    (build ops).rehash = (build ops').rehash := by
  refine rehash_eq_of_paths (fun op hop => TreeOp.plain_of_deferred (h op hop))
    (everyStep_of_deferred h) (fun op hop => TreeOp.plain_of_deferred (h' op hop))
    (everyStep_of_deferred h') (PathSet.ext fun q => ?_)
  rw [mem_paths_build_iff, mem_paths_build_iff, hsame]

/-! ## Eager hashing -/

/-- Updating insertions alone leave nothing dirty, from the first one on. -/
theorem settled_insertUpdates {entries : List (List T × T)} (h : entries ≠ []) :
    (build (entries.map fun e => .insertUpdate e.1 e.2)).root.Settled := by
  induction entries using List.reverseRecOn with
  | nil => exact absurd rfl h
  | append_singleton entries e ih =>
      have hw := wellFormed_build (entries.map fun e => TreeOp.insertUpdate e.1 e.2)
      rw [List.map_append, List.map_singleton, build_snoc]
      by_cases hfirst : entries = []
      · -- the new root is dirty, but it has no child that could be
        subst hfirst
        exact Node.settled_insert (upToDate_build (by simp) everyStep_nil) hw
          (Node.cleanBeside_of_children_eq_nil rfl _)
      · have hs := ih hfirst
        exact Node.settled_insert hs.upToDate hw (hs.cleanBeside _)

/--
**Hashing on the way is hashing at the end.** For any sequence of paths and values that is
not empty, updating insertions build the tree that plain insertions and one `rehash` build,
with the same shape, values, levels, hashes and flags at every node.
-/
theorem insertUpdates_eq_rehash (entries : List (List T × T)) (h : entries ≠ []) :
    build (entries.map fun e => .insertUpdate e.1 e.2)
      = (build (entries.map fun e => .insert e.1 e.2)).rehash := by
  have hdeferred : ∀ op ∈ entries.map (fun e => TreeOp.insert e.1 e.2), op.deferred := by
    intro op hop
    obtain ⟨e, _, rfl⟩ := List.mem_map.mp hop
    rfl
  have hbatch := settled_build (fun op hop => TreeOp.plain_of_deferred (hdeferred op hop))
    (everyStep_of_deferred hdeferred)
  rw [rehash_build] at hbatch ⊢
  refine build_eq_of_settled (settled_insertUpdates h) hbatch (PathSet.ext fun q => ?_)
  simp [mem_paths_build_iff, inserted, PathSet.mem_closure_iff, TreeOp.fullPath]

end TreeSet

end

/-! ## Examples -/

section Examples

open Sample TreeSet

attribute [local instance] Sample.asRefBytes Sample.xxh3

/-- Two insertions under one node, in either mode of the second. -/
def deferredThen (op : List Bytes → Bytes → TreeOp Bytes) : List (TreeOp Bytes) :=
  [.insert [[1], [2]] [3], op [[1], [4]] [5]]

/-- An updating insertion next to a deferred one leaves a hash that `rehash` does not restore. -/
theorem stale_hash :
    (∀ op ∈ deferredThen .insertUpdate, op.plain)
    ∧ ¬ (build (deferredThen .insertUpdate)).rehash.root.All (fun n => n.hash = n.referenceHash)
    ∧ (build (deferredThen .insertUpdate)).root.paths = (build (deferredThen .insert)).root.paths
    ∧ (build (deferredThen .insertUpdate)).rehash.diff (build (deferredThen .insert)).rehash
        = [.hashMismatch [[1]]] := by
  refine ⟨by decide, fun h => absurd h.self (by decide +kernel), PathSet.ext fun q => ?_,
    by decide +kernel⟩
  simp [mem_paths_build_iff, inserted, PathSet.mem_closure_iff, deferredThen, TreeOp.fullPath]

/-- With a `rehash` in between, nothing beside the path is dirty. -/
theorem rehash_between_restores :
    (build [.insert [[1], [2]] ([3] : Bytes), .rehash,
        .insertUpdate [[1], [4]] [5]]).rehash.root.All (fun n => n.hash = n.referenceHash) := by
  refine (rehash_restores (by decide) ?_).1
  simp only [everyStep_cons_iff, everyStep_nil, and_true]
  refine ⟨trivial, trivial, ?_⟩
  show Node.CleanBeside _ [[1], [4], [5]]
  decide +kernel

/-- The order of insertions and a `rehash` in between do not matter, nor does the shorter path. -/
theorem same_tree_in_other_order :
    (build [.insert [[1], [2]] ([3] : Bytes), .rehash, .insert [[1]] [4]]).rehash
      = (build [.insert [[1]] [4], .insert [] [1], .insert [[1], [2]] [3]]).rehash := by
  refine history_independent (by decide) (by decide) (PathSet.ext fun q => ?_)
  have hshort : q <+: [[1]] → q <+: ([[1], [4]] : List Bytes) := fun h => h.trans ⟨[[4]], rfl⟩
  simp [inserted, PathSet.mem_closure_iff, TreeOp.fullPath]
  tauto

/-- A leaf that is extended, and a path that ends above it. -/
theorem insertUpdates_over_leaf :
    build ([([[1]], ([2] : Bytes)), ([[1], [2]], [3]), ([], [1])].map
        fun e => .insertUpdate e.1 e.2)
      = (build ([([[1]], ([2] : Bytes)), ([[1], [2]], [3]), ([], [1])].map
          fun e => .insert e.1 e.2)).rehash :=
  insertUpdates_eq_rehash _ (by decide)

end Examples

end Mintpool
