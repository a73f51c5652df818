import Mintpool.Lib.VersionedMap
import Mintpool.Proof.Columns
import Mintpool.Sample

/-!
# The table as a versioned map

For Zora premints the table does what a versioned map does, keyed by the type, the
chain, the collection and the uid of a premint. The key is spelled out in two strings,
which determine it. The version is 32 bits wide, so the column holds it as it is. An
upgrade writes `version` and `json` and nothing else, and that is all there is to
replace: the other columns that a read looks at are part of the key, or the mark.
-/

namespace Mintpool.Proof

open Mintpool PremintStorage

/-! ## The map -/

inductive ZoraType where
  | v2
  | erc20v1
  deriving DecidableEq, Repr

structure ZoraKey where
  type : ZoraType
  chainId : UInt64
  collectionAddress : Address
  uid : UInt32
  deriving DecidableEq, Repr

/-- A premint of one of the two Zora types. -/
inductive ZoraPremints where
  | v2 (p : V2)
  | erc20v1 (p : ERC20V1)
  deriving DecidableEq, Repr

namespace ZoraPremints

def premint : ZoraPremints → PremintTypes
  | v2 p => .zoraV2 p
  | erc20v1 p => .zoraERC20V1 p

def key : ZoraPremints → ZoraKey
  | v2 p => ⟨.v2, p.chainId, p.collectionAddress, p.premint.uid⟩
  | erc20v1 p => ⟨.erc20v1, p.chainId, p.collectionAddress, p.premint.uid⟩

def version : ZoraPremints → Nat
  | v2 p => p.premint.version.toNat
  | erc20v1 p => p.premint.version.toNat

end ZoraPremints

abbrev ZoraMap := Lib.VersionedMap ZoraKey ZoraPremints

def ZoraType.kind : ZoraType → String
  | v2 => Namespace.kind IZoraPremintV2.TokenCreationConfig
  | erc20v1 => Namespace.kind IZoraPremintERC20V1.TokenCreationConfig

/-- The primary key that stands for a key of the map. -/
def ZoraKey.row (k : ZoraKey) : String × String :=
  (k.type.kind, formatId k.chainId k.collectionAddress k.uid.toNat)

/-- The key with the claim's id, chain and kind. -/
def names (claim : InclusionClaim) (k : ZoraKey) : Bool :=
  k.row.2 = claim.premintId && k.chainId = claim.chainId && k.row.1 = claim.kind

/-- A call of the `Writer` for Zora premints. -/
inductive ZoraWrite where
  | store (now : Int) (p : ZoraPremints)
  | markSeenOnChain (claim : InclusionClaim)
  deriving DecidableEq, Repr

namespace ZoraWrite

def write : ZoraWrite → Write
  | store now p => .store now p.premint
  | markSeenOnChain claim => .markSeenOnChain claim

def call : ZoraWrite → Lib.VersionedMap.Call ZoraKey ZoraPremints
  | store _ p => .store p
  | markSeenOnChain claim => .mark (names claim)

end ZoraWrite

/-- The map after these calls. -/
def zoraMap (prune : Bool) (calls : List ZoraWrite) : ZoraMap :=
  (calls.map ZoraWrite.call).foldl
    (Lib.VersionedMap.call ZoraPremints.key ZoraPremints.version prune) Lib.VersionedMap.empty

/-! ## Keys and versions as the table has them -/

theorem ZoraType.kind_inj {t t' : ZoraType} (h : t.kind = t'.kind) : t = t' := by
  cases t with
  | v2 =>
      cases t' with
      | v2 => rfl
      | erc20v1 => exact absurd h (by decide)
  | erc20v1 =>
      cases t' with
      | v2 => exact absurd h (by decide)
      | erc20v1 => rfl

/-- **The two strings determine the key.** -/
theorem ZoraKey.row_inj {k k' : ZoraKey} (h : k.row = k'.row) : k = k' := by
  obtain ⟨hkind, hid⟩ := Prod.mk.inj h
  obtain ⟨hchain, hcollection, huid⟩ := formatId_inj hid
  obtain ⟨type, chainId, collectionAddress, uid⟩ := k
  obtain ⟨type', chainId', collectionAddress', uid'⟩ := k'
  have htype : type = type' := ZoraType.kind_inj hkind
  have huid' : uid = uid' := UInt32.toNat_inj.mp huid
  dsimp only at hchain hcollection
  subst htype hchain hcollection huid'
  rfl

theorem premintKey_premint (p : ZoraPremints) : premintKey p.premint = p.key.row := by
  cases p with
  | v2 p => rfl
  | erc20v1 p => rfl

/-- A 32-bit version survives the cast to the column's type. -/
theorem toInt_version (p : ZoraPremints) :
    p.premint.metadata.version.toInt64.toInt = p.version := by
  have hval : ∀ v : UInt32, v.toUInt64.toInt64.toInt = v.toNat := by
    intro v
    have hlt := v.toNat_lt
    rw [Int64.toInt, UInt64.toBitVec_toInt64, BitVec.toInt_eq_toNat_of_lt]
    · simp
    · simp; omega
  cases p with
  | v2 p => exact hval p.premint.version
  | erc20v1 p => exact hval p.premint.version

/-- **So the column compares as the versions do.** -/
theorem version_lt_iff (p q : ZoraPremints) :
    p.premint.metadata.version.toInt64 < q.premint.metadata.version.toInt64
      ↔ p.version < q.version := by
  rw [Int64.lt_iff_toInt_lt, toInt_version, toInt_version]
  omega

theorem metadata_chainId (p : ZoraPremints) : p.premint.metadata.chainId = p.key.chainId := by
  cases p with
  | v2 p => rfl
  | erc20v1 p => rfl

section Refinement

variable {Text : Type} [Codec Text] [Alloy]

/-! ## The simulation -/

/-- What a lookup in the table finds where the map has this entry. -/
def Shows : Option (Row Text) → Option (ZoraPremints × Bool) → Prop
  | none, none => True
  | some r, some (p, seen) => Holds r p.premint ∧ r.seenOnChain = seen
  | _, _ => False

/-- The table says what the map says. -/
structure Simulates (s : PremintStorage Text) (M : ZoraMap) : Prop where
  /-- There are no rows but those of Zora premints. -/
  known : ∀ r ∈ s.table.rows, ∃ k : ZoraKey, r.key = k.row
  shows : ∀ k : ZoraKey, Shows (s.table.lookup k.row) (M k)

theorem lookup_of_entry {s : PremintStorage Text} {M : ZoraMap} (h : Simulates s M) {k : ZoraKey}
    {p : ZoraPremints} {seen : Bool} (hM : M k = some (p, seen)) :
    ∃ r, s.table.lookup k.row = some r ∧ Holds r p.premint ∧ r.seenOnChain = seen := by
  have hk := h.shows k
  rw [hM] at hk
  cases hl : s.table.lookup k.row with
  | none => rw [hl] at hk; exact hk.elim
  | some r => rw [hl] at hk; exact ⟨r, rfl, hk⟩

theorem lookup_of_no_entry {s : PremintStorage Text} {M : ZoraMap} (h : Simulates s M)
    {k : ZoraKey} (hM : M k = none) : s.table.lookup k.row = none := by
  have hk := h.shows k
  rw [hM] at hk
  cases hl : s.table.lookup k.row with
  | none => rfl
  | some r => rw [hl] at hk; exact hk.elim

theorem entry_of_lookup {s : PremintStorage Text} {M : ZoraMap} (h : Simulates s M) {k : ZoraKey}
    {r : Row Text} (hl : s.table.lookup k.row = some r) :
    ∃ p, M k = some (p, r.seenOnChain) ∧ Holds r p.premint := by
  have hk := h.shows k
  rw [hl] at hk
  cases hM : M k with
  | none => rw [hM] at hk; exact hk.elim
  | some entry => rw [hM] at hk; exact ⟨entry.1, by rw [hk.2], hk.1⟩

theorem simulates_new (prune : Bool) :
    Simulates (.new prune : PremintStorage Text) Lib.VersionedMap.empty where
  known r hr := by cases hr
  shows _ := trivial

/-! ### `store` -/

/-- What the map would refuse, `store` refuses, and nothing else. -/
theorem refused_iff {s : PremintStorage Text} {M : ZoraMap} (h : Simulates s M)
    (p : ZoraPremints) :
    Refused s p.premint ↔ M.store ZoraPremints.key ZoraPremints.version p = none := by
  unfold Refused
  rw [premintKey_premint]
  cases hM : M p.key with
  | none =>
      rw [lookup_of_no_entry h hM, Lib.VersionedMap.store_of_none hM]
      simp
  | some entry =>
      obtain ⟨q, seen⟩ := entry
      obtain ⟨r, hl, hholds, _⟩ := lookup_of_entry h hM
      have hversion : r.version < p.premint.metadata.version.toInt64 ↔ q.version < p.version := by
        rw [hholds.version, version_lt_iff]
      rw [hl]
      -- the column compares as the versions do, for they fit in it
      by_cases hle : p.version ≤ q.version
      · rw [Lib.VersionedMap.store_of_le hM hle]
        exact ⟨fun _ => rfl, fun _ => ⟨r, rfl, fun hlt => not_lt.mpr hle (hversion.mp hlt)⟩⟩
      · rw [Lib.VersionedMap.store_of_lt hM (not_le.mp hle)]
        refine ⟨fun ⟨old, hold, hnot⟩ => ?_, fun hsome => by cases hsome⟩
        cases hold
        exact absurd (hversion.mpr (not_le.mp hle)) hnot

theorem simulates_store [LawfulCodec Text] {s : PremintStorage Text} {M : ZoraMap}
    (h : Simulates s M) (now : Int) (p : ZoraPremints) :
    Simulates (write s (.store now p.premint))
      (Lib.VersionedMap.call ZoraPremints.key ZoraPremints.version s.pruneMintedPremints M
        (.store p)) := by
  constructor
  · refine rows_write ?_ ?_ ?_ h.known
    · intro now' q hw _
      cases hw
      exact ⟨p.key, by rw [newRow_key, premintKey_premint]⟩
    · intro now' q old _ _ _ hold
      exact hold
    · intro r hr
      exact hr
  · intro k
    by_cases hk : k = p.key
    · subst hk
      show Shows ((s.store now p.premint).2.table.lookup p.key.row)
        ((M.store ZoraPremints.key ZoraPremints.version p).getD M p.key)
      cases hM : M p.key with
      | none =>
          have hl := lookup_of_no_entry h hM
          rw [← premintKey_premint] at hl ⊢
          rw [lookup_store_of_none now hl, Lib.VersionedMap.store_of_none hM, Option.getD_some,
            Function.update_self]
          exact ⟨holds_newRow now _, rfl⟩
      | some entry =>
          obtain ⟨q, seen⟩ := entry
          obtain ⟨r, hl, hholds, hseen⟩ := lookup_of_entry h hM
          by_cases hle : p.version ≤ q.version
          · -- refused by both
            have hnone := Lib.VersionedMap.store_of_le hM hle
            rw [store_of_refused now ((refused_iff h p).mpr hnone), hnone, Option.getD_none, hl, hM]
            exact ⟨hholds, hseen⟩
          · have hlt := not_le.mp hle
            rw [Lib.VersionedMap.store_of_lt hM hlt, Option.getD_some, Function.update_self]
            rw [← premintKey_premint] at hl ⊢
            have hcolumn : r.version < p.premint.metadata.version.toInt64 := by
              rw [hholds.version, version_lt_iff]
              exact hlt
            rw [lookup_store_of_lt now hl hcolumn]
            exact ⟨holds_upgradeRow now (Lib.KeyedTable.lookup_some hl).2 hholds, hseen⟩
    · have hne : k.row ≠ premintKey p.premint := by
        rw [premintKey_premint]
        exact fun heq => hk (ZoraKey.row_inj heq)
      rw [Lib.VersionedMap.call_store_of_ne hk, write, lookup_store_of_ne hne]
      exact h.shows k

/-! ### `mark_seen_on_chain` -/

/-- A claim matches a row exactly when it names the row's key. -/
theorem claimMatches_eq_names {r : Row Text} {k : ZoraKey} {p : ZoraPremints}
    (hkey : r.key = k.row) (hholds : Holds r p.premint) (claim : InclusionClaim) :
    claimMatches claim r = names claim k := by
  have hk : p.key = k := ZoraKey.row_inj (by rw [← premintKey_premint, ← hholds.key, hkey])
  obtain ⟨hkind, hid⟩ := Prod.mk.inj hkey
  have hchain : r.chainId = claim.chainId.toInt64 ↔ k.chainId = claim.chainId := by
    rw [hholds.chainId, metadata_chainId, hk]
    exact ⟨fun heq => congrArg Int64.toUInt64 heq, congrArg UInt64.toInt64⟩
  rw [Bool.eq_iff_iff]
  simp only [claimMatches, names, Bool.and_eq_true, decide_eq_true_eq]
  rw [hkind, hid, hchain]
  rfl

theorem simulates_mark {s : PremintStorage Text} {M : ZoraMap} (h : Simulates s M)
    (claim : InclusionClaim) :
    Simulates (s.markSeenOnChain claim)
      (Lib.VersionedMap.call ZoraPremints.key ZoraPremints.version s.pruneMintedPremints M
        (.mark (names claim))) := by
  constructor
  · exact rows_write (w := .markSeenOnChain claim) (fun _ _ hw => by cases hw)
      (fun _ _ _ hw => by cases hw) (fun _ hr => hr) h.known
  · intro k
    show Shows ((s.markSeenOnChain claim).table.lookup k.row)
      (M.mark s.pruneMintedPremints (names claim) k)
    unfold Lib.VersionedMap.mark
    -- row by row: a row stands for an entry, and no row for none
    cases hl : s.table.lookup k.row with
    | none =>
        have hM : M k = none := by
          by_contra hne
          obtain ⟨⟨p, seen⟩, hM⟩ := Option.ne_none_iff_exists'.mp hne
          obtain ⟨r, hr, _⟩ := lookup_of_entry h hM
          rw [hl] at hr
          cases hr
        rw [lookup_mark_of_not_matches (fun r hr => by rw [hl] at hr; cases hr), hl, hM]
        split
        · split <;> trivial
        · trivial
    | some r =>
        obtain ⟨p, hM, hholds⟩ := entry_of_lookup h hl
        -- the claim names the row exactly when it names the entry
        have hmatch := claimMatches_eq_names (Lib.KeyedTable.lookup_some hl).2 hholds claim
        cases hnames : names claim k with
        | true =>
            rw [hnames] at hmatch
            rw [lookup_mark_of_matches hl hmatch, hM, if_pos rfl]
            split
            · trivial
            · exact ⟨holds_markRow hholds, rfl⟩
        | false =>
            rw [hnames] at hmatch
            have hno : ∀ r', s.table.lookup k.row = some r' → claimMatches claim r' = false := by
              intro r' hr'
              rw [hl] at hr'
              cases hr'
              exact hmatch
            rw [lookup_mark_of_not_matches hno, hl, hM, if_neg (by simp)]
            exact ⟨hholds, rfl⟩

/-! ### Sequences -/

theorem simulates_write [LawfulCodec Text] {s : PremintStorage Text} {M : ZoraMap}
    (h : Simulates s M) (w : ZoraWrite) :
    Simulates (write s w.write)
      (Lib.VersionedMap.call ZoraPremints.key ZoraPremints.version s.pruneMintedPremints M
        w.call) := by
  cases w with
  | store now p => exact simulates_store h now p
  | markSeenOnChain claim => exact simulates_mark h claim

/-- **After any sequence of calls the table says what the map says.** -/
theorem simulates_run [LawfulCodec Text] (calls : List ZoraWrite) :
    ∀ {s : PremintStorage Text} {M : ZoraMap}, Simulates s M →
      Simulates ((calls.map ZoraWrite.write).foldl write s)
        ((calls.map ZoraWrite.call).foldl
          (Lib.VersionedMap.call ZoraPremints.key ZoraPremints.version s.pruneMintedPremints)
          M) := by
  induction calls with
  | nil => intro s M h; exact h
  | cons w calls ih =>
      intro s M h
      have hnext := ih (simulates_write h w)
      rw [write_prune] at hnext
      exact hnext

/-! ## What the reads return -/

theorem getForIdAndKind_eq {s : PremintStorage Text} {M : ZoraMap} (h : Simulates s M)
    (p : ZoraPremints) :
    s.getForIdAndKind p.premint.metadata.id p.premint.metadata.kind
      = (M p.key).elim (.error .rowNotFound) (fun entry => .ok entry.1.premint) := by
  have hkey : (p.premint.metadata.kind.name, p.premint.metadata.id) = p.key.row :=
    premintKey_premint p
  unfold getForIdAndKind decodeOne
  rw [hkey]
  cases hM : M p.key with
  | none => rw [lookup_of_no_entry h hM]; rfl
  | some entry =>
      obtain ⟨r, hl, hholds, _⟩ := lookup_of_entry h hM
      rw [hl]
      exact hholds.json

/-- The unseen entries of the map, as the premints they hold. -/
def UnseenEntry (M : ZoraMap) (p : PremintTypes) : Prop :=
  ∃ k q, M k = some (q, false) ∧ p = q.premint

theorem mem_listAll_iff {s : PremintStorage Text} {M : ZoraMap} (h : Simulates s M)
    (p : PremintTypes) : p ∈ s.listAll ↔ UnseenEntry M p := by
  rw [listAll, mem_decodeRows_iff]
  constructor
  · rintro ⟨r, hr, hdecode⟩
    obtain ⟨hmem, hseen⟩ := List.mem_filter.mp hr
    obtain ⟨k, hk⟩ := h.known r hmem
    have hl : s.table.lookup k.row = some r := by
      rw [← hk]
      exact Lib.KeyedTable.mem_iff_lookup.mp hmem
    obtain ⟨q, hM, hholds⟩ := entry_of_lookup h hl
    rw [hholds.json] at hdecode
    refine ⟨k, q, ?_, (Except.ok.inj hdecode).symm⟩
    rw [hM, show r.seenOnChain = false by simpa using hseen]
  · rintro ⟨k, q, hM, rfl⟩
    obtain ⟨r, hl, hholds, hseen⟩ := lookup_of_entry h hM
    exact ⟨r, List.mem_filter.mpr ⟨(Lib.KeyedTable.lookup_some hl).1, by simp [hseen]⟩,
      hholds.json⟩

/-- No premint is listed twice. -/
theorem listAll_nodup {s : PremintStorage Text} {M : ZoraMap} (h : Simulates s M) :
    s.listAll.Nodup := by
  -- a decoded row is the row of its premint, so equal premints are of one row
  have hdecode : ∀ r ∈ s.table.rows, ∀ p, (PremintTypes.fromJson r.json).toOption = some p →
      r.key = premintKey p := by
    intro r hr p hp
    obtain ⟨k, hk⟩ := h.known r hr
    obtain ⟨q, _, hholds⟩ := entry_of_lookup h (k := k)
      (by rw [← hk]; exact Lib.KeyedTable.mem_iff_lookup.mp hr)
    rw [hholds.json] at hp
    cases hp
    exact hholds.key
  unfold listAll decodeRows List.Nodup
  rw [List.pairwise_filterMap]
  refine List.Pairwise.imp_of_mem ?_ ((List.pairwise_map.mp s.table.pk).filter _)
  intro r r' hr hr' hne p hp q hq heq
  refine hne ?_
  rw [hdecode r (List.mem_of_mem_filter hr) p hp, hdecode r' (List.mem_of_mem_filter hr') q hq, heq]

/-! ## The refinement -/

/-- The table stands for the map: the next call does to the one what it does to the
other, and every read returns what is in the map. -/
structure Refines (s : PremintStorage Text) (M : ZoraMap) : Prop extends Simulates s M where
  store_ok : ∀ now (p : ZoraPremints), (s.store now p.premint).1 = .ok ()
    ↔ (M.store ZoraPremints.key ZoraPremints.version p).isSome = true
  /-- A refused premint changes nothing. -/
  store_error : ∀ now (p : ZoraPremints) e,
    (s.store now p.premint).1 = .error e → (s.store now p.premint).2 = s
  get : ∀ p : ZoraPremints, s.getForIdAndKind p.premint.metadata.id p.premint.metadata.kind
    = (M p.key).elim (.error .rowNotFound) (fun entry => .ok entry.1.premint)
  mem_listAll : ∀ p, p ∈ s.listAll ↔ UnseenEntry M p
  nodup_listAll : s.listAll.Nodup

theorem refines_of_simulates {s : PremintStorage Text} {M : ZoraMap} (h : Simulates s M) :
    Refines s M where
  toSimulates := h
  store_ok now p := by
    by_cases href : Refused s p.premint
    · rw [store_of_refused now href, (refused_iff h p).mp href]
      simp
    · have hne := fun hnone => href ((refused_iff h p).mpr hnone)
      rw [store_of_not_refused now href]
      simpa [Option.isSome_iff_ne_none] using hne
  store_error now p e herror := by
    by_cases href : Refused s p.premint
    · rw [store_of_refused now href]
    · rw [store_of_not_refused now href] at herror
      cases herror
  get := getForIdAndKind_eq h
  mem_listAll := mem_listAll_iff h
  nodup_listAll := listAll_nodup h

/--
**The table refines a versioned map.**

After any sequence of calls, pruning or not, it stands for the map after the same
calls. And under every key that no call removed, it holds the latest version ever
passed to `store`, in whatever order the calls came.
-/
theorem storage_refines_zoraMap [LawfulCodec Text] (prune : Bool) (calls : List ZoraWrite) :
    Refines ((calls.map ZoraWrite.write).foldl write (.new prune : PremintStorage Text))
        (zoraMap prune calls)
      ∧ ∀ now p, .store now p ∈ calls →
        Lib.EveryStep (Lib.VersionedMap.call ZoraPremints.key ZoraPremints.version prune)
          Lib.VersionedMap.empty
          (Lib.VersionedMap.Keeps ZoraPremints.key ZoraPremints.version prune p.key)
          (calls.map ZoraWrite.call) →
        ∃ q seen, zoraMap prune calls p.key = some (q, seen) ∧ p.version ≤ q.version
          ∧ q.key = p.key ∧ ∃ now', .store now' q ∈ calls := by
  refine ⟨refines_of_simulates (simulates_run calls (simulates_new prune)), ?_⟩
  intro now p hp hkeep
  -- a call to the key is followed by others that keep what is there
  have hcall : .store p ∈ calls.map ZoraWrite.call := List.mem_map_of_mem (f := ZoraWrite.call) hp
  obtain ⟨q, seen, hq, hle⟩ := Lib.VersionedMap.latest hcall hkeep
  obtain ⟨hstored, hkey⟩ := Lib.VersionedMap.stored_of_entry hq
  obtain ⟨w, hw, hwq⟩ := List.mem_map.mp hstored
  refine ⟨q, seen, hq, hle, hkey, ?_⟩
  cases w with
  | store now' q' => cases hwq; exact ⟨now', hw⟩
  | markSeenOnChain claim => cases hwq

end Refinement

/-! ## Versions out of order -/

section Example

open Sample

attribute [local instance] Sample.alloy

/-- A version of the sample premint. -/
def zoraVersion (version : UInt32) : ZoraPremints := .v2 (validVersion version)

/-- The second version arrives first, is marked, and then the others arrive. -/
def outOfOrder : List ZoraWrite := [
  .store 0 (zoraVersion 2),
  .markSeenOnChain ⟨(zoraVersion 2).premint.metadata.id, 7777777, 5, 0, "zora_premint_v2"⟩,
  .store 1 (zoraVersion 1),
  .store 2 (zoraVersion 3)]

/-- **The third version is stored, whatever came before it.** -/
theorem outOfOrder_refines :
    Refines ((outOfOrder.map ZoraWrite.write).foldl write (.new false : PremintStorage Wire))
        (zoraMap false outOfOrder)
      ∧ ∃ q seen, zoraMap false outOfOrder (zoraVersion 3).key = some (q, seen)
        ∧ 3 ≤ q.version := by
  obtain ⟨hrefines, hlatest⟩ := @storage_refines_zoraMap Wire _ _ _ false outOfOrder
  have hlast : .store 2 (zoraVersion 3) ∈ outOfOrder := by simp [outOfOrder]
  obtain ⟨q, seen, hq, hle, _⟩ := hlatest 2 (zoraVersion 3) hlast
    (fun done c _ => Lib.VersionedMap.keeps_of_not_remove _ _ c)
  exact ⟨hrefines, q, seen, hq, hle⟩

end Example

end Mintpool.Proof
