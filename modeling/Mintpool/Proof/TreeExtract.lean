import Mintpool.Proof.TreeDiff
import Mintpool.Proof.TreeVisit

/-!
# Comparing the tops of trees

`extract` visits a tree and inserts what it accepts into a new one, with the hashes found on
the way. A visit comes to a parent before its children, so every node is inserted with its
own hash and none is made up; the extract has the hashes of the tree at the accepted paths,
and nothing else.

`diff` reads nothing but hashes and values, so on two extracts of one depth it answers what
it answers on the trees, except below that depth: there it has no children to look at, and
the fallback entry stands for whatever it would have found.
-/

namespace Mintpool

open Lib

section

variable {T : Type} [LinearOrder T]

namespace Node

/-- The hash at a path, if there is a node. -/
def hashAt (n : Node T) (q : List T) : Option UInt64 := (n.node? q).map Node.hash

theorem hashAt_cons (n : Node T) (value : T) (q : List T) :
    n.hashAt (value :: q) = (n.child? value).bind fun c => c.hashAt q := by
  rw [hashAt, node?_cons]
  cases n.child? value <;> rfl

/-! ## Inserting a given hash -/

section Insert

variable [Xxh3] [AsRef T]

theorem hashAt_touch {n : Node T} {k : T} {f : Node T → Node T}
    (hs : SortedBy Node.value n.children) (hf : ∀ c, c.value = k → (f c).value = k) (q : List T) :
    (n.touch k false f).hashAt q = match q with
      | [] => some n.hash
      | value :: q =>
        if value = k then (f (n.childOrNew k false)).hashAt q else n.hashAt (value :: q) := by
  cases q with
  | nil => rfl
  | cons value q =>
      simp only [hashAt_cons, child?_touch hs hf]
      split <;> rfl

/-- Where the parent exists, an insertion with a hash changes what is at its path. -/
theorem hashAt_insert {value : T} {hash : UInt64} :
    ∀ {path : List T} {n : Node T} (q : List T), WellFormed n → path ∈ n.paths →
      (n.insert path value (some hash) false).hashAt q
        = if q = path ++ [value] then some hash else n.hashAt q := by
  intro path
  induction path with
  | nil =>
      intro n q hw _
      rw [insert_nil, hashAt_touch hw.self.sorted
        (fun c _ => place_value c value (some hash) false)]
      cases q with
      | nil => rfl
      | cons k q =>
          dsimp only
          by_cases hk : k = value
          · subst hk
            rw [if_pos rfl]
            cases q with
            -- the node at the path has the hash that was given
            | nil => rw [if_pos (List.nil_append [k]).symm]; rfl
            | cons l q =>
                -- what is below it stays: a new node has no children, an old one keeps them
                rw [if_neg (by simp), hashAt_cons, hashAt_cons, child?, place_children, childOrNew]
                cases hc : n.child? k with
                | none => rw [Option.getD_none, newChild_children]; rfl
                | some c => exact (hashAt_cons c l q).symm
          · -- on another branch nothing changes
            rw [if_neg hk, if_neg (by simp [hk])]
  | cons head tail ih =>
      intro n q hw hpath
      -- the parent exists, so the child on the way does
      obtain ⟨c, hc, htail⟩ := cons_mem_paths_iff.mp hpath
      rw [insert_cons, hashAt_touch hw.self.sorted (fun c hc => by rw [insert_value, hc])]
      cases q with
      | nil => rfl
      | cons k q =>
          dsimp only
          by_cases hk : k = head
          · subst hk
            have hcw : WellFormed c := hw.child (child?_some hc).1
            rw [if_pos rfl, childOrNew, hc, Option.getD_some, ih q hcw htail, hashAt_cons, hc]
            simp
          · rw [if_neg hk, if_neg (by simp [hk])]

end Insert

end Node

/-! ## Inserting what was visited -/

namespace TreeSet

/-- Each node comes after its parent, unless the parent is known. -/
def ParentsFirst (known : List T → Prop) : List (List T × Node T) → Prop
  | [] => True
  | x :: xs => known x.1 ∧ ParentsFirst (fun p => known p ∨ p = fullPath x) xs

omit [LinearOrder T] in
theorem ParentsFirst.mono {known known' : List T → Prop} {xs : List (List T × Node T)}
    (h : ParentsFirst known xs) (hk : ∀ p, known p → known' p) : ParentsFirst known' xs := by
  induction xs generalizing known known' with
  | nil => trivial
  | cons x xs ih => exact ⟨hk _ h.1, ih h.2 fun p hp => hp.imp_left (hk p)⟩

omit [LinearOrder T] in
theorem ParentsFirst.append {known : List T → Prop} {xs ys : List (List T × Node T)}
    (h : ParentsFirst known xs) (h' : ParentsFirst known ys) : ParentsFirst known (xs ++ ys) := by
  induction xs generalizing known with
  | nil => exact h'
  | cons x xs ih => exact ⟨h.1, ih h.2 (h'.mono fun p hp => .inl hp)⟩

omit [LinearOrder T] in
theorem parentsFirst_visited (accept : List T → T → Bool) (n : Node T) :
    ∀ {path : List T} {known : List T → Prop}, known path →
      ParentsFirst known (Node.visited accept path n.children) := by
  induction n using Node.induct with
  | h n ih =>
      intro path known hknown
      generalize hcs : n.children = children
      have hsub : ∀ c ∈ children, c ∈ n.children := fun c hc => hcs ▸ hc
      clear hcs
      induction children with
      | nil => rw [Node.visited_nil]; trivial
      | cons c children ihcs =>
          rw [Node.visited_cons]
          refine .append ?_ (ihcs fun c hc => hsub c (List.mem_cons_of_mem _ hc))
          split
          · exact ⟨hknown, ih c (hsub c List.mem_cons_self) (.inr rfl)⟩
          · trivial

variable [Xxh3] [AsRef T]

/-- Insert visited nodes with their hashes, in order. -/
def copy (t : TreeSet T) (xs : List (List T × Node T)) : TreeSet T :=
  xs.foldl (fun t x => t.insertWithHash x.1 x.2.value x.2.hash) t

theorem wellFormed_copy {xs : List (List T × Node T)} :
    ∀ {t : TreeSet T}, t.root.WellFormed → (t.copy xs).root.WellFormed := by
  induction xs with
  | nil => intro t h; exact h
  | cons x xs ih => intro t h; exact ih h.insert

/-- **Copying puts every node where it was, and nothing else anywhere.** -/
theorem hashAt_copy {xs : List (List T × Node T)}
    (hsame : ∀ x ∈ xs, ∀ y ∈ xs, fullPath x = fullPath y → x.2.hash = y.2.hash) :
    ∀ {t : TreeSet T}, t.root.WellFormed → ParentsFirst (· ∈ t.root.paths) xs →
      (∀ x ∈ xs, (t.copy xs).root.hashAt (fullPath x) = some x.2.hash)
      ∧ ∀ q, (∀ x ∈ xs, fullPath x ≠ q) → (t.copy xs).root.hashAt q = t.root.hashAt q := by
  induction xs with
  | nil => intro t _ _; exact ⟨fun _ hx => absurd hx (by simp), fun _ _ => rfl⟩
  | cons x xs ih =>
      intro t hw hparents
      have hstep : ∀ q, (t.insertWithHash x.1 x.2.value x.2.hash).root.hashAt q
          = if q = fullPath x then some x.2.hash else t.root.hashAt q :=
        fun q => Node.hashAt_insert q hw hparents.1
      obtain ⟨hin, hout⟩ :=
        @ih (fun y hy z hz => hsame y (List.mem_cons_of_mem _ hy) z (List.mem_cons_of_mem _ hz))
          (t.insertWithHash x.1 x.2.value x.2.hash) hw.insert (hparents.2.mono fun p hp => by
            show p ∈ (t.root.insert _ _ _ _).paths
            rw [Node.mem_paths_insert_iff hw]
            rcases hp with hp | rfl
            · exact .inl hp
            · exact .inr List.prefix_rfl)
      refine ⟨fun y hy => ?_, fun q hq => ?_⟩
      · -- what is inserted last at a path counts, and it is the same hash each time
        by_cases hagain : ∃ z ∈ xs, fullPath z = fullPath y
        · obtain ⟨z, hz, hzy⟩ := hagain
          rw [← hzy, hsame y hy z (List.mem_cons_of_mem _ hz) hzy.symm]
          exact hin z hz
        · rcases List.mem_cons.mp hy with rfl | hy
          · exact (hout _ fun z hz h => hagain ⟨z, hz, h⟩).trans (by rw [hstep, if_pos rfl])
          · exact absurd ⟨y, hy, rfl⟩ hagain
      · refine (hout q fun z hz => hq z (List.mem_cons_of_mem _ hz)).trans ?_
        rw [hstep, if_neg (Ne.symm (hq x List.mem_cons_self))]

/-! ## Extracts -/

variable [Inhabited T]

/-- What the visitor of `extract` goes on below. -/
def accepts (pre : List T) (maxLen : UInt64) (path : List T) (value : T) : Bool :=
  prefixMatch pre path { value } && decide (path.length + 1 ≤ maxLen.toNat)

omit [Xxh3] [AsRef T] [Inhabited T] in
theorem reached_accepts_iff {pre : List T} {maxLen : UInt64} {q : List T} (hq : q ≠ []) :
    Node.Reached (accepts pre maxLen) [] q
      ↔ (pre = [] ∨ q.length = 1 ∨ Comparable q pre) ∧ q.length ≤ maxLen.toNat := by
  unfold accepts
  rw [Node.reached_and_iff, reached_prefixMatch_iff hq, Node.reached_length_iff hq]

omit [Inhabited T] in
theorem accepts_visitor (pre : List T) (maxLen : UInt64) : Node.Accepts (accepts pre maxLen)
    (fun (tree : TreeSet T) path n => tree.insertWithHash path n.value n.hash)
    (fun tree path n =>
      if !prefixMatch pre path n || path.length + 1 > maxLen.toNat then (tree, .skip)
      else (tree.insertWithHash path n.value n.hash, .continue)) := by
  intro tree path n
  have hprefix : prefixMatch pre path { value := n.value : Node T } = prefixMatch pre path n := rfl
  simp only [accepts, hprefix]
  by_cases hp : prefixMatch pre path n = true
  · by_cases hl : path.length + 1 ≤ maxLen.toNat
    · simp [hp, hl, Nat.not_lt.mpr hl]
    · simp [hp, hl, Nat.lt_of_not_le hl]
  · simp [hp]

theorem extract_eq_copy (t : TreeSet T) (pre : List T) (depth : UInt64) :
    t.extract pre depth = (new : TreeSet T).copy
      (Node.visited (accepts pre (UInt64.ofNat pre.length + depth)) [] t.root.children) := by
  rw [extract, visit, Node.visitChildren_eq_foldl (accepts_visitor pre _)]
  rfl

theorem wellFormed_extract (t : TreeSet T) (pre : List T) (depth : UInt64) :
    (t.extract pre depth).root.WellFormed := by
  rw [extract_eq_copy]
  exact wellFormed_copy wellFormed_new

/-- **An extract has the hashes of the tree where it goes, and nothing elsewhere.** -/
theorem hashAt_extract {t : TreeSet T} (hw : t.root.WellFormed) (pre : List T) (depth : UInt64)
    {q : List T} (hq : q ≠ []) :
    (Node.Reached (accepts pre (UInt64.ofNat pre.length + depth)) [] q →
      (t.extract pre depth).root.hashAt q = t.root.hashAt q)
    ∧ (¬ Node.Reached (accepts pre (UInt64.ofNat pre.length + depth)) [] q →
      (t.extract pre depth).root.hashAt q = none) := by
  rw [extract_eq_copy]
  generalize hacc : accepts pre (UInt64.ofNat pre.length + depth) = accept
  have hmem : ∀ x ∈ Node.visited accept [] t.root.children,
      t.root.node? (fullPath x) = some x.2 ∧ Node.Reached accept [] (fullPath x) := by
    rintro ⟨p, m⟩ hx
    obtain ⟨r, rfl, hm, hr⟩ := (Node.mem_visited_iff hw).mp hx
    exact ⟨hm, hr⟩
  obtain ⟨hin, hout⟩ := @hashAt_copy T _ _ _ (Node.visited accept [] t.root.children)
    (fun x hx y hy hxy => by
      have h := (hmem x hx).1
      rw [hxy, (hmem y hy).1] at h
      rw [Option.some.inj h])
    new wellFormed_new (parentsFirst_visited accept t.root (Node.nil_mem_paths _))
  have hnew : (new : TreeSet T).root.hashAt q = none := by
    obtain ⟨value, q, rfl⟩ := List.exists_cons_of_ne_nil hq
    rfl
  by_cases hx : ∃ x ∈ Node.visited accept [] t.root.children, fullPath x = q
  · obtain ⟨x, hx, rfl⟩ := hx
    obtain ⟨hnode, hreached⟩ := hmem x hx
    refine ⟨fun _ => ?_, fun h => absurd hreached h⟩
    rw [hin x hx, Node.hashAt, hnode, Option.map_some]
  · have hnone := (hout q fun x hx' h => hx ⟨x, hx', h⟩).trans hnew
    refine ⟨fun hr => ?_, fun _ => hnone⟩
    -- a node at an accepted path would have been visited
    rw [hnone, Node.hashAt]
    cases hm : t.root.node? q with
    | none => rfl
    | some m =>
        obtain ⟨r, value, rfl⟩ : ∃ r value, q = r ++ [value] :=
          ⟨q.dropLast, q.getLast hq, (List.dropLast_append_getLast hq).symm⟩
        have hvalue := Node.value_of_node? hm
        subst hvalue
        exact absurd ⟨(r, m), (Node.mem_visited_iff hw).mpr ⟨r, rfl, hm, hr⟩, rfl⟩ hx

end TreeSet

/-! ## Comparing extracts -/

/-- The entry as it looks from a tree that is cut off at a depth. -/
def Diff.shorten (depth : Nat) (d : Diff T) : Diff T :=
  if d.path.length ≤ depth then d else .hashMismatch (d.path.take depth)

/-- Shorten the entries, and merge what has become equal. -/
def condense (depth : Nat) (ds : List (Diff T)) : List (Diff T) :=
  (ds.map (Diff.shorten depth)).destutter (· ≠ ·)

omit [LinearOrder T] in
theorem Diff.shorten_under (depth : Nat) (value : T) (d : Diff T) :
    (d.under [value]).shorten (depth + 1) = (d.shorten depth).under [value] := by
  unfold shorten
  by_cases h : d.path.length ≤ depth
  · rw [if_pos h, if_pos (by simpa using h)]
  · rw [if_neg h, if_neg (by simpa using h), path_under]
    rfl

theorem condense_eq_nil_iff {depth : Nat} {ds : List (Diff T)} :
    condense depth ds = [] ↔ ds = [] := by
  rw [condense, List.destutter_eq_nil, List.map_eq_nil_iff]

theorem condense_map_under (depth : Nat) (value : T) (ds : List (Diff T)) :
    condense (depth + 1) (ds.map (Diff.under [value]))
      = (condense depth ds).map (Diff.under [value]) := by
  rw [condense, condense, List.map_destutter_ne _ (Diff.under_injective [value]), List.map_map,
    List.map_map]
  congr 1
  exact List.map_congr_left fun d _ => Diff.shorten_under depth value d

theorem rel_ne_none_iff {α β : Type} {R : α → β → Prop} {a : Option α} {b : Option β}
    (h : Option.Rel R a b) : a ≠ none ↔ b ≠ none := by
  cases h <;> simp

theorem rel_of_some {α β : Type} {R : α → β → Prop} {o : Option α} {o' : Option β} {a : α} {b : β}
    (h : Option.Rel R o o') (ha : o = some a) (hb : o' = some b) : R a b := by
  subst ha hb
  cases h with | some h => exact h

namespace Node

/-- `e` has the hashes of `n` down to a depth, the roots aside, and no node below. -/
def CutAt (depth : Nat) (n e : Node T) : Prop :=
  ∀ q, q ≠ [] → e.hashAt q = if q.length ≤ depth then n.hashAt q else none

theorem CutAt.zero {n e : Node T} (h : CutAt 0 n e) (value : T) : e.child? value = none := by
  have hv := h [value] (List.cons_ne_nil value [])
  rw [if_neg (by simp), hashAt_cons] at hv
  cases hc : e.child? value with
  | none => rfl
  | some c => rw [hc] at hv; nomatch hv

theorem CutAt.succ {depth : Nat} {n e : Node T} (h : CutAt (depth + 1) n e) (value : T) :
    Option.Rel (fun x x' => x.hash = x'.hash ∧ CutAt depth x x') (n.child? value)
      (e.child? value) := by
  have hq : ∀ q, (e.child? value).bind (fun c => c.hashAt q)
      = if q.length ≤ depth then (n.child? value).bind (fun c => c.hashAt q) else none := by
    intro q
    have hv := h (value :: q) (List.cons_ne_nil value q)
    simpa only [hashAt_cons, List.length_cons, Nat.add_le_add_iff_right] using hv
  -- the empty path tells whether the child is there
  have h0 := hq []
  rw [List.length_nil, if_pos (Nat.zero_le depth)] at h0
  cases hx : n.child? value with
  | none =>
      cases hx' : e.child? value with
      | none => exact .none
      | some x' => rw [hx, hx'] at h0; nomatch h0
  | some x =>
      cases hx' : e.child? value with
      | none => rw [hx, hx'] at h0; nomatch h0
      | some x' =>
          rw [hx, hx'] at h0
          refine .some ⟨(Option.some.inj h0).symm, fun q _ => ?_⟩
          have hv := hq q
          rwa [hx, hx'] at hv

/-- Nodes without children do not differ below. -/
theorem diff_of_child?_none {n m : Node T} (hn : WellFormed n) (hm : WellFormed m)
    (hx : ∀ value, n.child? value = none) (hy : ∀ value, m.child? value = none) :
    n.diff [] m = [] := by
  rw [List.eq_nil_iff_forall_not_mem]
  intro d hd
  obtain ⟨value, hd⟩ := (mem_diff_iff hn hm).mp hd
  rw [entriesAt, hx, hy, chunk] at hd
  exact absurd hd (by simp)

/-- What is about different values stays apart when it is shortened. -/
theorem shorten_ne {n m : Node T} {depth : Nat} {k k' : T} (hlt : k < k') :
    ∀ d ∈ (n.entriesAt m k).map (Diff.shorten (depth + 1)),
      ∀ d' ∈ (n.entriesAt m k').map (Diff.shorten (depth + 1)), d ≠ d' := by
  have hhead : ∀ {value : T}, ∀ d ∈ (n.entriesAt m value).map (Diff.shorten (depth + 1)),
      d.path.head? = some value := by
    intro value d hd
    obtain ⟨d, hmem, rfl⟩ := List.mem_map.mp hd
    obtain ⟨path, hpath⟩ := path_of_mem_entriesAt hmem
    unfold Diff.shorten
    split
    · rw [hpath]; rfl
    · show (d.path.take (depth + 1)).head? = some value
      rw [hpath]; rfl
  intro d hd d' hd' heq
  have h := hhead d hd
  rw [heq, hhead d' hd'] at h
  exact hlt.ne (Option.some.inj h).symm

/-- A condensed answer is the condensed parts about each value. -/
theorem condense_diff {n m : Node T} (hn : WellFormed n) (hm : WellFormed m) (depth : Nat) :
    condense (depth + 1) (n.diff [] m)
      = (mergedKeys Node.value Node.value n.children m.children).flatMap
          fun value => condense (depth + 1) (n.entriesAt m value) := by
  rw [diff_eq_flatMap hn hm, condense, List.map_flatMap, destutter_flatMap]
  · rfl
  · exact mergedKeys_pairwise.imp fun hlt => shorten_ne hlt

theorem exists_value_iff {n : Node T} (hn : WellFormed n) {value : T} :
    (∃ c ∈ n.children, c.value = value) ↔ n.child? value ≠ none := by
  constructor
  · rintro ⟨c, hc, rfl⟩
    rw [WellFormed.child?_self hn hc]
    exact Option.some_ne_none c
  · intro h
    obtain ⟨c, hc⟩ := Option.ne_none_iff_exists'.mp h
    exact ⟨c, child?_some hc⟩

/-- Where the trees are cut off, what is below is one entry. -/
theorem condense_zero_childEntries {x y : Node T} (hx : WellFormed x) (hy : WellFormed y) :
    condense 0 (childEntries x y) = if x.hash = y.hash then [] else [.hashMismatch []] := by
  by_cases hh : x.hash = y.hash
  · rw [childEntries, if_pos hh, if_pos hh]; rfl
  · have hne : childEntries x y ≠ [] := fun h => hh (childEntries_eq_nil_iff.mp h)
    rw [if_neg hh, condense]
    refine destutter_of_forall_eq (by simpa using hne) fun d hd => ?_
    obtain ⟨d, hmem, rfl⟩ := List.mem_map.mp hd
    unfold Diff.shorten
    split
    · -- of the entries about a child, only the fallback has an empty path
      rename_i hlen
      unfold childEntries at hmem
      rw [if_neg hh] at hmem
      split at hmem
      · exact List.mem_singleton.mp hmem
      · exact absurd (List.length_eq_zero_iff.mp (Nat.le_zero.mp hlen))
          (path_ne_nil_of_mem_diff hx hy hmem)
    · rfl

/-- Above the cut, the parts about a child correspond. -/
theorem condense_childEntries {depth : Nat} {x y x' y' : Node T} (hx : x.hash = x'.hash)
    (hy : y.hash = y'.hash) (h : condense depth (x.diff [] y) = x'.diff [] y') :
    condense depth (childEntries x y) = childEntries x' y' := by
  have hnil : x.diff [] y = [] ↔ x'.diff [] y' = [] := by rw [← h, condense_eq_nil_iff]
  unfold childEntries
  rw [hx, hy]
  by_cases hh : x'.hash = y'.hash
  · rw [if_pos hh, if_pos hh]; rfl
  · rw [if_neg hh, if_neg hh]
    by_cases hd : x.diff [] y = []
    · rw [if_pos hd, if_pos (hnil.mp hd)]; rfl
    · rw [if_neg hd, if_neg (mt hnil.mpr hd), h]

/-- So do the parts about one value, if they do for the children. -/
theorem condense_entriesAt {depth : Nat} {n m e f : Node T} (hn : CutAt (depth + 1) n e)
    (hm : CutAt (depth + 1) m f) {value : T}
    (h : ∀ x y x' y', n.child? value = some x → m.child? value = some y →
      e.child? value = some x' → f.child? value = some y' →
      condense depth (childEntries x y) = childEntries x' y') :
    condense (depth + 1) (n.entriesAt m value) = e.entriesAt f value := by
  have hx := hn.succ value
  have hy := hm.succ value
  unfold entriesAt
  -- the cut has a child exactly where the tree has one
  cases hnx : n.child? value with
  | none =>
      cases hex : e.child? value with
      | some x' => rw [hnx, hex] at hx; nomatch hx
      | none =>
          cases hmy : m.child? value with
          | none =>
              cases hfy : f.child? value with
              | some y' => rw [hmy, hfy] at hy; nomatch hy
              | none => rfl
          | some y =>
              cases hfy : f.child? value with
              | none => rw [hmy, hfy] at hy; nomatch hy
              | some y' => simp [chunk, condense, Diff.shorten, Diff.path]
  | some x =>
      cases hex : e.child? value with
      | none => rw [hnx, hex] at hx; nomatch hx
      | some x' =>
          cases hmy : m.child? value with
          | none =>
              cases hfy : f.child? value with
              | some y' => rw [hmy, hfy] at hy; nomatch hy
              | none => simp [chunk, condense, Diff.shorten, Diff.path]
          | some y =>
              -- both trees have it, so both cuts do, and what is below is what the hypothesis says
              cases hfy : f.child? value with
              | none => rw [hmy, hfy] at hy; nomatch hy
              | some y' =>
                  rw [chunk, chunk, condense_map_under, h x y x' y' hnx hmy hex hfy]

theorem condense_diff_of_entries {depth : Nat} {n m e f : Node T} (hn : WellFormed n)
    (hm : WellFormed m) (he : WellFormed e) (hf : WellFormed f) (hne : CutAt (depth + 1) n e)
    (hmf : CutAt (depth + 1) m f)
    (h : ∀ value, condense (depth + 1) (n.entriesAt m value) = e.entriesAt f value) :
    condense (depth + 1) (n.diff [] m) = e.diff [] f := by
  have hkeys : mergedKeys Node.value Node.value n.children m.children
      = mergedKeys Node.value Node.value e.children f.children := by
    refine mergedKeys_congr fun value => ?_
    rw [exists_value_iff hn, exists_value_iff hm, exists_value_iff he, exists_value_iff hf,
      rel_ne_none_iff (hne.succ value), rel_ne_none_iff (hmf.succ value)]
  rw [condense_diff hn hm, diff_eq_flatMap he hf, hkeys]
  exact List.flatMap_congr fun value _ => h value

/-- **Trees cut off at one depth differ as the condensed answer says.** -/
theorem condense_diff_of_cutAt (depth : Nat) :
    ∀ {n m e f : Node T}, WellFormed n → WellFormed m → WellFormed e → WellFormed f →
      CutAt (depth + 1) n e → CutAt (depth + 1) m f →
      condense (depth + 1) (n.diff [] m) = e.diff [] f := by
  induction depth with
  | zero =>
      -- at the last level nothing is left below
      intro n m e f hn hm he hf hne hmf
      refine condense_diff_of_entries hn hm he hf hne hmf fun value => ?_
      refine condense_entriesAt hne hmf fun x y x' y' hx hy hx' hy' => ?_
      obtain ⟨hxx, hxc⟩ := rel_of_some (hne.succ value) hx hx'
      obtain ⟨hyy, hyc⟩ := rel_of_some (hmf.succ value) hy hy'
      have hbelow : x'.diff [] y' = [] :=
        diff_of_child?_none (he.child (child?_some hx').1) (hf.child (child?_some hy').1)
          hxc.zero hyc.zero
      rw [condense_zero_childEntries (hn.child (child?_some hx).1) (hm.child (child?_some hy).1),
        childEntries, hxx, hyy, if_pos hbelow]
  | succ depth ih =>
      -- further up the children are cut one level lower
      intro n m e f hn hm he hf hne hmf
      refine condense_diff_of_entries hn hm he hf hne hmf fun value => ?_
      refine condense_entriesAt hne hmf fun x y x' y' hx hy hx' hy' => ?_
      obtain ⟨hxx, hxc⟩ := rel_of_some (hne.succ value) hx hx'
      obtain ⟨hyy, hyc⟩ := rel_of_some (hmf.succ value) hy hy'
      exact condense_childEntries hxx hyy
        (ih (hn.child (child?_some hx).1) (hm.child (child?_some hy).1)
          (he.child (child?_some hx').1) (hf.child (child?_some hy').1) hxc hyc)

/-- The entries that are short enough are left alone, and in order. -/
theorem filter_sublist_condense {n m : Node T} (hn : WellFormed n) (hm : WellFormed m)
    (depth : Nat) : ((n.diff [] m).filter fun d => d.path.length ≤ depth).Sublist
      (condense depth (n.diff [] m)) := by
  refine filter_sublist_destutter (fun d _ hd => ?_) ((diff_pairwise hn hm).imp ?_)
  · rw [Diff.shorten, if_pos (by simpa using hd)]
  · intro d d' hlt hd' heq
    -- cutting a path moves it forward in the order, never past a later one
    have hle : ¬ d.path < (d.shorten depth).path := by
      unfold Diff.shorten
      split
      · exact lt_irrefl _
      · exact List.not_lt.mpr (List.take_prefix depth d.path).le
    rw [heq] at hle
    exact hle hlt

end Node

namespace TreeSet

variable [Xxh3] [AsRef T] [Inhabited T]

theorem cutAt_extractRoot {t : TreeSet T} (hw : t.root.WellFormed) (depth : UInt64) :
    Node.CutAt depth.toNat t.root (t.extractRoot depth).root := by
  intro q hq
  obtain ⟨hin, hout⟩ := hashAt_extract hw [] depth hq
  have hlen : UInt64.ofNat ([] : List T).length + depth = depth := by simp
  have hreached : Node.Reached (accepts [] depth) [] q ↔ q.length ≤ depth.toNat := by
    rw [reached_accepts_iff hq]
    simp
  rw [hlen, hreached] at hin hout
  by_cases h : q.length ≤ depth.toNat
  · rw [if_pos h]; exact hin h
  · rw [if_neg h]; exact hout h

/--
**Comparing extracts is comparing trees from further away.** For any two trees that the calls
built and any depth but zero, the extracts differ as the trees do, with longer entries
shortened to a mismatch and merged; the other entries are left as they are.
-/
theorem extractRoot_coherent (ops ops' : List (TreeOp T)) {depth : UInt64} (hd : 1 ≤ depth) :
    ((build ops).extractRoot depth).diff ((build ops').extractRoot depth)
        = condense depth.toNat ((build ops).diff (build ops'))
    ∧ (((build ops).diff (build ops')).filter fun d => d.path.length ≤ depth.toNat).Sublist
        (((build ops).extractRoot depth).diff ((build ops').extractRoot depth)) := by
  have hn := wellFormed_build ops
  have hm := wellFormed_build ops'
  have hsame : ((build ops).extractRoot depth).diff ((build ops').extractRoot depth)
      = condense depth.toNat ((build ops).diff (build ops')) := by
    obtain ⟨k, hk⟩ : ∃ k, depth.toNat = k + 1 :=
      Nat.exists_eq_add_one.mpr (UInt64.le_iff_toNat_le.mp hd)
    rw [hk]
    exact (Node.condense_diff_of_cutAt k hn hm (wellFormed_extract _ _ _) (wellFormed_extract _ _ _)
      (hk ▸ cutAt_extractRoot hn depth) (hk ▸ cutAt_extractRoot hm depth)).symm
  -- an entry that is short enough is not shortened
  refine ⟨hsame, ?_⟩
  rw [hsame]
  exact Node.filter_sublist_condense hn hm depth.toNat

end TreeSet

end

/-! ## Examples -/

section Examples

open Sample TreeSet

attribute [local instance] Sample.asRefBytes Sample.xxh3

/-- Trees that differ in two leaves, seen from above the leaves. -/
theorem extractRoot_coherent_above_leaves :
    ((build [.insert [[1]] ([2] : Bytes), .rehash]).extractRoot 1).diff
        ((build [.insert [[1]] ([3] : Bytes), .rehash]).extractRoot 1)
      = condense 1 ((build [.insert [[1]] ([2] : Bytes), .rehash]).diff
          (build [.insert [[1]] ([3] : Bytes), .rehash])) :=
  (extractRoot_coherent _ _ (by decide)).1

example : (build [.insert [[1]] ([2] : Bytes), .rehash]).diff
      (build [.insert [[1]] ([3] : Bytes), .rehash])
    = [.missingOther [[1], [2]], .missingSelf [[1], [3]]] := by decide +kernel

example : ((build [.insert [[1]] ([2] : Bytes), .rehash]).extractRoot 1).diff
      ((build [.insert [[1]] ([3] : Bytes), .rehash]).extractRoot 1)
    = [.hashMismatch [[1]]] := by decide +kernel

end Examples

end Mintpool
