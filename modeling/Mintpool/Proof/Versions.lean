import Mathlib.Algebra.Ring.Int.Defs
import Mintpool.Proof.Crash

/-!
# Two orders on versions

A version is compared twice: by the `version_is_higher` rule, on `u64`, and by the guard
of the upsert, on the `INTEGER` column that `store` casts it to. The cast keeps the order
within each half of the range and swaps the halves. So the rule and the guard agree
exactly on versions of one half — which is all that a Zora premint can have.
-/

namespace Mintpool.Proof

open Mintpool PremintStorage

/-! ## The cast -/

/-- A `u64` as an `i64`. -/
theorem toInt_toInt64 (u : UInt64) :
    u.toInt64.toInt = if u.toNat < 2 ^ 63 then (u.toNat : Int) else u.toNat - 2 ^ 64 := by
  have hlt := u.toNat_lt
  rw [Int64.toInt, UInt64.toBitVec_toInt64, BitVec.toInt_eq_toNat_cond, UInt64.toNat_toBitVec]
  split <;> split <;> omega

/-- **The cast keeps the order of two versions exactly when they are in the same half.** -/
theorem lt_iff_toInt64_lt_iff {u v : UInt64} :
    (u < v ↔ u.toInt64 < v.toInt64) ↔ (u.toNat < 2 ^ 63 ↔ v.toNat < 2 ^ 63) := by
  have hu := u.toNat_lt
  have hv := v.toNat_lt
  rw [Int64.lt_iff_toInt_lt, UInt64.lt_iff_toNat_lt, toInt_toInt64, toInt_toInt64]
  split <;> split <;> omega

/-! ## The rule and the guard -/

section Agreement

variable {Text : Type} [Alloy] [Codec Text]

omit [Alloy] [Codec Text] in
theorem versionIsHigher_accept_iff {p q : PremintTypes} {context : RuleContext Text}
    (hexisting : context.existing = some q) :
    General.versionIsHigher p.metadata context = .ok .accept
      ↔ q.metadata.version < p.metadata.version := by
  unfold General.versionIsHigher
  rw [hexisting]
  dsimp only
  split
  · rename_i hlt
    exact ⟨fun _ => hlt, fun _ => rfl⟩
  · rename_i hle
    exact ⟨fun h => (nomatch h), fun h => absurd h hle⟩

/-- Over a row that holds `q`, an upsert succeeds when the cast version is higher. -/
theorem store_ok_iff {s : PremintStorage Text} {p q : PremintTypes} {r : Row Text} (now : Int)
    (hl : s.table.lookup (premintKey p) = some r) (hq : Holds r q) :
    (s.store now p).1 = .ok () ↔ q.metadata.version.toInt64 < p.metadata.version.toInt64 := by
  rw [← hq.version]
  refine ⟨fun hok => by_contra fun hnot => ?_, fun hlt => store_of_not_refused now ?_⟩
  · rw [store_of_refused now ⟨r, hl, hnot⟩] at hok
    cases hok
  · rintro ⟨old, hold, hnot⟩
    rw [hl] at hold
    cases hold
    exact hnot hlt

/--
**Exactly when the rule and the guard agree.** After any writes to a new table, for every
premint that is there already under the kind and id of the one that comes in.
-/
theorem rule_agrees_with_guard_iff [LawfulCodec Text] {prune : Bool} {ws : List Write}
    {s : PremintStorage Text} (hs : s = ws.foldl write (.new prune)) {p q : PremintTypes}
    (hread : s.getForIdAndKind p.metadata.id p.metadata.kind = .ok q)
    {context : RuleContext Text} (hexisting : context.existing = some q) (now : Int) :
    (General.versionIsHigher p.metadata context = .ok .accept ↔ (s.store now p).1 = .ok ())
      ↔ (p.metadata.version.toNat < 2 ^ 63 ↔ q.metadata.version.toNat < 2 ^ 63) := by
  have hall : AllHold s := by
    rw [hs]
    exact Lib.foldl_invariant (fun s w _ => allHold_write s w) (allHold_new prune)
  obtain ⟨r, hmem, hkey, hjson⟩ := getForIdAndKind_ok hread
  obtain ⟨q', hq'⟩ := hall r hmem
  obtain rfl : q' = q := Except.ok.inj (hq'.json.symm.trans hjson)
  have hl : s.table.lookup (premintKey p) = some r := by
    rw [show premintKey p = r.key from hkey.symm]
    exact Lib.KeyedTable.mem_iff_lookup.mp hmem
  rw [versionIsHigher_accept_iff hexisting, store_ok_iff now hl hq', lt_iff_toInt64_lt_iff]
  exact iff_comm

end Agreement

/-! ## The last version of the lower half -/

section Example

open Sample

attribute [local instance] Sample.alloy

/-- One token at this version. -/
def tokenAt (version : UInt64) : PremintTypes :=
  .simple { version := version, chainId := 1, sender := 1, tokenId := 1, media := "ipfs://a" }

/-- A table with the token at this version. -/
def storeAt (version : UInt64) : PremintStorage Wire :=
  [Write.store 0 (tokenAt version)].foldl write (.new true)

/-- The context in which the token at this version is to be replaced. -/
def contextAt (version : UInt64) : RuleContext Wire :=
  ⟨(storeAt version).clone, some (tokenAt version), none⟩

/-- **Its successor is accepted by the rule, and refused by the table.** -/
theorem next_version_refused :
    (storeAt 9223372036854775807).getForIdAndKind (tokenAt 9223372036854775808).metadata.id
        (tokenAt 9223372036854775808).metadata.kind = .ok (tokenAt 9223372036854775807)
      ∧ ¬ (General.versionIsHigher (tokenAt 9223372036854775808).metadata
          (contextAt 9223372036854775807) = .ok .accept
        ↔ ((storeAt 9223372036854775807).store 0 (tokenAt 9223372036854775808)).1 = .ok ()) := by
  have haccepted : General.versionIsHigher (tokenAt 9223372036854775808).metadata
      (contextAt 9223372036854775807) = .ok .accept := by decide +kernel
  have hrefused : ((storeAt 9223372036854775807).store 0 (tokenAt 9223372036854775808)).1
      ≠ .ok () := by decide +kernel
  exact ⟨by decide +kernel, fun h => hrefused (h.mp haccepted)⟩

/-- A step further down, the two agree. -/
theorem last_version_agrees :
    General.versionIsHigher (tokenAt 9223372036854775807).metadata
        (contextAt 9223372036854775806) = .ok .accept
      ↔ ((storeAt 9223372036854775806).store 0 (tokenAt 9223372036854775807)).1 = .ok () :=
  (rule_agrees_with_guard_iff rfl (by decide +kernel) rfl 0).mpr
    (iff_of_true (by decide +kernel) (by decide +kernel))

end Example

end Mintpool.Proof
