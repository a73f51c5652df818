import Mintpool.Lib.VersionedMap
import Mintpool.Proof.Durable

/-!
# Two nodes with the same premints

Gossip and sync bring the premints of a network to a node in any order, and more than once.
Does it matter? For the versions it does not: two nodes that have stored the same premints
have the same version under every key, the highest as the `version` column has it, in 64 bits
with a sign. For the premints themselves it does in one case. The upsert asks for a greater
version, so of two premints of one key whose versions are equal in that column, whichever comes
first stays, and no later copy of the other dislodges it.
-/

namespace Mintpool.Proof

open Mintpool PremintStorage

section Replicas

variable {Text : Type} [Alloy] [Codec Text]

/-- The version as the table has it, in 64 bits with a sign: from `2 ^ 63` on it is negative. -/
def savedVersion (p : PremintTypes) : Int := p.metadata.version.toInt64.toInt

/-- The premint that a node has under a key. -/
def held (s : PremintStorage Text) (k : String × String) : Option PremintTypes :=
  (s.table.lookup k).bind (fun r => (PremintTypes.fromJson r.json).toOption)

/-- One of the calls stores the premint. -/
def Stored (ws : List Write) (p : PremintTypes) : Prop := ∃ now, .store now p ∈ ws

/-- A node's calls: these are the premints that it has stored, each at least once and in some
order, and it has pruned nothing. -/
structure Replica (premints : List PremintTypes) where
  prune : Bool
  writes : List Write
  stored : ∀ p, Stored writes p ↔ p ∈ premints
  unpruned : prune = true → ∀ claim, .markSeenOnChain claim ∉ writes

/-- And its table. -/
def Replica.storage {premints : List PremintTypes} (r : Replica premints) : PremintStorage Text :=
  r.writes.foldl write (.new r.prune)

/-- No two of the premints have one key and both its highest version in the column. -/
def Untied (premints : List PremintTypes) : Prop :=
  ∀ p q, Lib.VersionedMap.Tied premintKey savedVersion (· ∈ premints) p q → p = q

/-! ## What is under a key -/

variable {s : PremintStorage Text} {ws : List Write} {k : String × String} {p q : PremintTypes}

theorem held_of_holds {r : Row Text} (h : s.table.lookup k = some r) (hp : Holds r p) :
    held s k = some p := by
  rw [held, h]
  show (PremintTypes.fromJson r.json).toOption = some p
  rw [hp.json]
  rfl

omit [Alloy] in
theorem held_of_none (h : s.table.lookup k = none) : held s k = none := by
  rw [held, h]
  rfl

omit [Alloy] [Codec Text] in
theorem stored_snoc_store (now : Int) (ws : List Write) (p : PremintTypes) :
    Stored (ws ++ [.store now p]) = fun u => Stored ws u ∨ u = p := by
  funext u
  refine propext ⟨fun ⟨n, hn⟩ => ?_, fun h => ?_⟩
  · rcases List.mem_append.mp hn with hn | hn
    · exact .inl ⟨n, hn⟩
    · cases List.mem_singleton.mp hn
      exact .inr rfl
  · rcases h with ⟨n, hn⟩ | rfl
    · exact ⟨n, List.mem_append_left _ hn⟩
    · exact ⟨now, by simp⟩

omit [Alloy] [Codec Text] in
theorem stored_snoc_mark (ws : List Write) (claim : InclusionClaim) :
    Stored (ws ++ [.markSeenOnChain claim]) = Stored ws := by
  funext u
  refine propext ⟨fun ⟨n, hn⟩ => ?_, fun ⟨n, hn⟩ => ⟨n, List.mem_append_left _ hn⟩⟩
  rcases List.mem_append.mp hn with hn | hn
  · exact ⟨n, hn⟩
  · cases List.mem_singleton.mp hn

omit [Alloy] in
/-- A mark that does not prune changes no premint. -/
theorem held_mark (hprune : s.pruneMintedPremints = false) (claim : InclusionClaim) :
    held (s.markSeenOnChain claim) k = held s k := by
  cases hl : s.table.lookup k with
  | none =>
      have hsame : (s.markSeenOnChain claim).table.lookup k = s.table.lookup k :=
        lookup_mark_of_not_matches fun r hr => by rw [hl] at hr; cases hr
      rw [held, hsame, held]
  | some r =>
      cases hm : claimMatches claim r with
      | false =>
          have hsame : (s.markSeenOnChain claim).table.lookup k = s.table.lookup k :=
            lookup_mark_of_not_matches fun r' hr' => by rw [hl] at hr'; cases hr'; exact hm
          rw [held, hsame, held]
      | true =>
          rw [held, lookup_mark_of_matches hl hm, hprune, held, hl]
          rfl

/-- **One more premint stored, and what is on top of the others stays on top.** -/
theorem top_store [LawfulCodec Text] {stored : PremintTypes → Prop} (now : Int)
    (hholds : AllHold s) (h : Lib.VersionedMap.Top premintKey savedVersion stored k (held s k)) :
    Lib.VersionedMap.Top premintKey savedVersion (fun u => stored u ∨ u = p) k
      (held (write s (.store now p)) k) := by
  by_cases hk : k = premintKey p
  · subst hk
    rcases store_self_cases s now p with ⟨hnone, hnew⟩ | ⟨old, hold, hlt, hup⟩ | ⟨hr, hsame⟩
    · rw [held_of_none hnone] at h
      rw [write, held_of_holds hnew (holds_newRow now p)]
      exact h.store_self (fun q hq => by cases hq)
    · obtain ⟨q, hq⟩ := hholds old (Lib.KeyedTable.lookup_some hold).1
      rw [held_of_holds hold hq] at h
      rw [write, held_of_holds hup (holds_upgradeRow now (Lib.KeyedTable.lookup_some hold).2 hq)]
      refine h.store_self fun q' hq' => ?_
      cases hq'
      rw [hq.version] at hlt
      exact Int.le_of_lt (Int64.lt_iff_toInt_lt.mp hlt)
    · -- refused: the premint that is there is no earlier
      obtain ⟨old, hold, hnot⟩ := hr
      obtain ⟨q, hq⟩ := hholds old (Lib.KeyedTable.lookup_some hold).1
      rw [write, hsame, held_of_holds hold hq]
      rw [held_of_holds hold hq] at h
      rw [hq.version] at hnot
      exact h.store_of_le (Int64.le_iff_toInt_le.mp (Int64.not_lt.mp hnot))
  · have hother : held (write s (.store now p)) k = held s k := by
      rw [held, write, lookup_store_of_ne hk, held]
    rw [hother]
    exact h.store_of_ne (fun heq => hk heq.symm)

/-- **A table that nothing was pruned from has a latest version under every key.** -/
theorem top_writes [LawfulCodec Text] {prune : Bool} (k : String × String) :
    ∀ {ws : List Write}, (prune = true → ∀ claim, .markSeenOnChain claim ∉ ws) →
      Lib.VersionedMap.Top premintKey savedVersion (Stored ws) k
        (held (ws.foldl write (.new prune : PremintStorage Text)) k) := by
  intro ws
  induction ws using List.reverseRecOn with
  | nil =>
      intro _ p hp
      obtain ⟨now, hnow⟩ := hp
      cases hnow
  | append_singleton ws w ih =>
      intro hunpruned
      have hbefore := ih fun hprune claim hmem =>
        hunpruned hprune claim (List.mem_append_left _ hmem)
      have hholds : AllHold (ws.foldl write (.new prune : PremintStorage Text)) :=
        Lib.foldl_invariant (fun s w _ => allHold_write s w) (allHold_new prune)
      have hflag :
          (ws.foldl write (.new prune : PremintStorage Text)).pruneMintedPremints = prune :=
        Lib.foldl_invariant (fun s w _ h => (write_prune s w).trans h) rfl
      rw [List.foldl_append, List.foldl_cons, List.foldl_nil]
      cases w with
      | store now p =>
          rw [stored_snoc_store]
          exact top_store now hholds hbefore
      | markSeenOnChain claim =>
          rw [stored_snoc_mark, write, held_mark ?_ claim]
          · exact hbefore
          · -- a marking takes a row away only where the store prunes
            rw [hflag]
            cases prune with
            | false => rfl
            | true => exact absurd (by simp) (hunpruned rfl claim)

theorem Replica.top [LawfulCodec Text] {premints : List PremintTypes} (r : Replica premints)
    (k : String × String) :
    Lib.VersionedMap.Top premintKey savedVersion (· ∈ premints) k
      (held (r.storage : PremintStorage Text) k) := by
  rw [← show Stored r.writes = (· ∈ premints) from funext fun p => propext (r.stored p)]
  exact top_writes k r.unpruned

/-! ## What may differ -/

/-- These premints once each, and `first` before all of them. -/
def Replica.startingWith (first : PremintTypes) {premints : List PremintTypes}
    (hfirst : first ∈ premints) : Replica premints where
  prune := false
  writes := (first :: premints).map (Write.store 0)
  stored := by
    intro p
    constructor
    · rintro ⟨now, hnow⟩
      obtain ⟨u, hu, heq⟩ := List.mem_map.mp hnow
      cases heq
      rcases List.mem_cons.mp hu with rfl | hu
      · exact hfirst
      · exact hu
    · intro hp
      exact ⟨0, List.mem_map.mpr ⟨p, List.mem_cons_of_mem _ hp, rfl⟩⟩
  unpruned := by simp

theorem startingWith_storage {premints : List PremintTypes} (hp : p ∈ premints) :
    ((Replica.startingWith p hp).storage : PremintStorage Text)
      = (premints.map (Write.store 0)).foldl write (write (.new false) (.store 0 p)) := rfl

/-- **Of the latest versions of a key, the one that is stored first stays.** -/
theorem first_stays [LawfulCodec Text] {premints : List PremintTypes} (hp : p ∈ premints)
    (hlatest : ∀ u ∈ premints, premintKey u = premintKey p → savedVersion u ≤ savedVersion p) :
    held ((Replica.startingWith p hp).storage : PremintStorage Text) (premintKey p) = some p := by
  have htop : Lib.VersionedMap.Top premintKey savedVersion (· ∈ premints) (premintKey p)
      (held ((Replica.startingWith p hp).storage : PremintStorage Text) (premintKey p)) :=
    (Replica.startingWith p hp).top (premintKey p)
  have hnew : (write (.new false : PremintStorage Text) (.store 0 p)).table.lookup (premintKey p)
      = some (newRow 0 p) := lookup_store_of_none 0 rfl
  -- its row is there in the end, with its version
  rcases outlives_writes (premints.map (Write.store 0)) hnew with
    ⟨r, hr, hout⟩ | ⟨w, hw, hprunes⟩
  · have hholds : AllHold ((Replica.startingWith p hp).storage : PremintStorage Text) :=
      Lib.foldl_invariant (fun s w _ => allHold_write s w) (allHold_new false)
    obtain ⟨q, hq⟩ := hholds r (Lib.KeyedTable.lookup_some hr).1
    have hheld := held_of_holds hr hq
    have hversion : savedVersion q = savedVersion p := by
      have hsame := htop.version_eq (b := some p) ⟨hp, rfl, hlatest⟩
      rw [startingWith_storage, hheld] at hsame
      exact Option.some.inj hsame
    rcases hout.later with hlt | ⟨_, hjson⟩
    · rw [hq.version] at hlt
      have hlt' : savedVersion p < savedVersion q := Int64.lt_iff_toInt_lt.mp hlt
      omega
    · have hdecode := hq.json
      rw [hjson, (holds_newRow 0 p).json] at hdecode
      rw [startingWith_storage, hheld, Except.ok.inj hdecode]
  · obtain ⟨u, _, rfl⟩ := List.mem_map.mp hw
    exact hprunes.elim

/--
**Two nodes with the same premints have the same versions, and if no premints are tied for the
highest in the column, and only then, the same premints.** Whatever the order in which they
stored them, however often, whatever was marked in between and whenever it was.
-/
theorem replicas_agree_iff [LawfulCodec Text] (premints : List PremintTypes) :
    (∀ (r r' : Replica premints) (k : String × String),
        (held (r.storage : PremintStorage Text) k).map savedVersion
          = (held (r'.storage : PremintStorage Text) k).map savedVersion)
      ∧ ((∀ (r r' : Replica premints) (k : String × String),
          held (r.storage : PremintStorage Text) k = held (r'.storage : PremintStorage Text) k)
        ↔ Untied premints) := by
  refine ⟨fun r r' k => (r.top k).version_eq (r'.top k), fun hsame p q htied => ?_,
    fun huntied r r' k => (r.top k).eq_of_untied huntied (r'.top k)⟩
  -- one node stores the one first, and the other one the other
  obtain ⟨hp, hq, hkey, hversion, hlatest⟩ := htied
  have hleft : held ((Replica.startingWith p hp).storage : PremintStorage Text) (premintKey p)
      = some p := first_stays hp hlatest
  have hright : held ((Replica.startingWith q hq).storage : PremintStorage Text) (premintKey q)
      = some q := first_stays hq fun u hu huk => by
    rw [← hversion]
    exact hlatest u hu (huk.trans hkey.symm)
  rw [← hkey, ← hsame (Replica.startingWith p hp), hleft] at hright
  exact Option.some.inj hright

end Replicas

/-! ## Two versions of a token -/

section Example

open Sample

attribute [local instance] Sample.alloy

/-- Two versions of one token. -/
def twoVersions : List PremintTypes := [renamed 1 "ipfs://a", renamed 2 "ipfs://b"]

/-- The table of a node that stored this one of them first. -/
def startingWith (p : PremintTypes) (hp : p ∈ twoVersions) : PremintStorage Wire :=
  (Replica.startingWith p hp).storage

/-- **The later one is held, whichever of the two came first.** -/
theorem two_versions_agree :
    held (startingWith (renamed 1 "ipfs://a") (by simp [twoVersions]))
        (premintKey (renamed 1 "ipfs://a"))
      = held (startingWith (renamed 2 "ipfs://b") (by simp [twoVersions]))
        (premintKey (renamed 1 "ipfs://a")) := by
  refine (replicas_agree_iff _).2.mpr ?_ _ _ _
  intro p q htied
  obtain ⟨hp, hq, _, hversion, _⟩ := htied
  have h12 : savedVersion (renamed 1 "ipfs://a") ≠ savedVersion (renamed 2 "ipfs://b") := by decide
  simp only [twoVersions, List.mem_cons, List.not_mem_nil, or_false] at hp hq
  rcases hp with rfl | rfl <;> rcases hq with rfl | rfl
  · rfl
  · exact absurd hversion h12
  · exact absurd hversion.symm h12
  · rfl

end Example

end Mintpool.Proof
