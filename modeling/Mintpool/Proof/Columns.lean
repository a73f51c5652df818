import Mintpool.Proof.Turns
import Mintpool.Sample

/-!
# The columns and the premint

A row spells out parts of the premint that its `json` column holds. Which of them can
drift apart? An insert writes them all from one premint. An upgrade writes `version`
and `json`, and keeps the rest: what the key determines — the chain, the collection,
the token — still agrees, because the two premints have the same kind and id. The
signer and the uri are not in the key, and agree only if the premint that comes in
has the ones that the row was inserted with.
-/

namespace Mintpool.Proof

open Mintpool PremintStorage

section Columns

variable {Text : Type} [Codec Text] [Alloy]

/-! ## What always agrees -/

/-- The row holds this premint, and agrees with it on what the key determines. -/
structure Holds (r : Row Text) (p : PremintTypes) : Prop where
  json : PremintTypes.fromJson r.json = .ok p
  key : r.key = premintKey p
  version : r.version = p.metadata.version.toInt64
  chainId : r.chainId = p.metadata.chainId.toInt64
  collectionAddress : r.collectionAddress = p.metadata.collectionAddress.toChecksum
  tokenId : r.tokenId = p.metadata.tokenId.toNat.repr

/-- Every row holds a premint. -/
def AllHold (s : PremintStorage Text) : Prop := ∀ r ∈ s.table.rows, ∃ p, Holds r p

theorem holds_unique {r : Row Text} {p q : PremintTypes} (hp : Holds r p) (hq : Holds r q) :
    p = q := by
  have h := hp.json
  rw [hq.json] at h
  exact (Except.ok.inj h).symm

omit [Alloy] in
/-- What a query returns is what its rows decode to. -/
theorem mem_decodeRows_iff {rows : List (Row Text)} {p : PremintTypes} :
    p ∈ decodeRows rows ↔ ∃ r ∈ rows, PremintTypes.fromJson r.json = .ok p := by
  rw [decodeRows, List.mem_filterMap]
  refine exists_congr fun r => and_congr_right fun _ => ?_
  cases PremintTypes.fromJson r.json <;> simp [Except.toOption]

theorem holds_newRow [LawfulCodec Text] (now : Int) (p : PremintTypes) :
    Holds (newRow now p : Row Text) p where
  json := PremintTypes.fromJson_toJson p
  key := rfl
  version := rfl
  chainId := rfl
  collectionAddress := rfl
  tokenId := rfl

/-- An upgrade changes which premint a row holds, and keeps the agreement. -/
theorem holds_upgradeRow [LawfulCodec Text] (now : Int) {p q : PremintTypes} {old : Row Text}
    (hkey : old.key = premintKey p) (hold : Holds old q) :
    Holds (upgradeRow (newRow now p) old) p := by
  have hsame : premintKey q = premintKey p := by rw [← hold.key, hkey]
  obtain ⟨hchain, hcollection, htoken⟩ := metadata_of_key hsame
  exact {
    json := PremintTypes.fromJson_toJson p
    key := hkey
    version := rfl
    chainId := hold.chainId.trans (by rw [hchain])
    collectionAddress := hold.collectionAddress.trans (by rw [hcollection])
    tokenId := hold.tokenId.trans (by rw [htoken]) }

theorem holds_markRow {r : Row Text} {p : PremintTypes} (h : Holds r p) : Holds (markRow r) p :=
  ⟨h.json, h.key, h.version, h.chainId, h.collectionAddress, h.tokenId⟩

theorem allHold_new (prune : Bool) : AllHold (.new prune : PremintStorage Text) := by
  intro r hr
  cases hr

/-- **Preserved by every write.** -/
theorem allHold_write [LawfulCodec Text] (s : PremintStorage Text) (w : Write) (h : AllHold s) :
    AllHold (write s w) := by
  refine rows_write (fun now p _ _ => ⟨p, holds_newRow now p⟩) ?_ ?_ h
  · rintro now p old _ hold _ ⟨q, hq⟩
    exact ⟨p, holds_upgradeRow now (Lib.KeyedTable.lookup_some hold).2 hq⟩
  · rintro r ⟨p, hp⟩
    exact ⟨p, holds_markRow hp⟩

theorem allHold_run [LawfulCodec Text] [Libp2p] {config : Config} {rules : RulesEngine Text}
    {is : List Controller.Input} {c : Controller Text}
    (h : Controller.Run (.new config rules) is c) : AllHold c.store :=
  run_invariant allHold_write (allHold_new _) h

/-! ## What need not -/

/-- The row agrees with its premint on every column. -/
structure Agrees (r : Row Text) (p : PremintTypes) : Prop extends Holds r p where
  signer : r.signer = p.metadata.signer.toChecksum
  tokenUri : r.tokenUri = p.metadata.uri

def AllAgree (s : PremintStorage Text) : Prop := ∀ r ∈ s.table.rows, ∃ p, Agrees r p

/-- If the call upgrades a row, the premint has the signer and the uri of its columns. -/
def KeepsColumns (s : PremintStorage Text) : Write → Prop
  | .store _ p => ∀ old, s.table.lookup (premintKey p) = some old →
      old.version < p.metadata.version.toInt64 →
        old.signer = p.metadata.signer.toChecksum ∧ old.tokenUri = p.metadata.uri
  | .markSeenOnChain _ => True

theorem agrees_newRow [LawfulCodec Text] (now : Int) (p : PremintTypes) :
    Agrees (newRow now p : Row Text) p where
  toHolds := holds_newRow now p
  signer := rfl
  tokenUri := rfl

/-- An upgraded row agrees with the new premint exactly when the old columns did. -/
theorem agrees_upgradeRow_iff [LawfulCodec Text] {now : Int} {p q : PremintTypes}
    {old : Row Text} (hkey : old.key = premintKey p) (hold : Holds old q) :
    (∃ p', Agrees (upgradeRow (newRow now p) old) p')
      ↔ old.signer = p.metadata.signer.toChecksum ∧ old.tokenUri = p.metadata.uri := by
  have hholds := holds_upgradeRow now hkey hold
  constructor
  · rintro ⟨p', hp'⟩
    have heq := holds_unique hp'.toHolds hholds
    subst heq
    exact ⟨hp'.signer, hp'.tokenUri⟩
  · rintro ⟨hsigner, huri⟩
    exact ⟨p, hholds, hsigner, huri⟩

/-- **A write keeps the columns in agreement exactly when it keeps them.** -/
theorem allAgree_write_iff [LawfulCodec Text] (s : PremintStorage Text) (w : Write)
    (hholds : AllHold s) (h : AllAgree s) : AllAgree (write s w) ↔ KeepsColumns s w := by
  constructor
  · -- the columns agree after the write, so the upgrade has not separated them
    intro hagree
    cases w with
    | markSeenOnChain claim => trivial
    | store now p =>
        intro old hold hlt
        obtain ⟨hmem, hkey⟩ := Lib.KeyedTable.lookup_some hold
        obtain ⟨q, hq⟩ := hholds old hmem
        have hup := lookup_store_of_lt now hold hlt
        exact (agrees_upgradeRow_iff hkey hq).mp
          (hagree _ (Lib.KeyedTable.lookup_some hup).1)
  · -- only an upgrade leaves columns behind, and its condition says that they fit
    intro hkeeps
    refine rows_write (fun now p _ _ => ⟨p, agrees_newRow now p⟩) ?_ ?_ h
    · rintro now p old rfl hold hlt ⟨q, hq⟩
      exact (agrees_upgradeRow_iff (Lib.KeyedTable.lookup_some hold).2 hq.toHolds).mpr
        (hkeeps old hold hlt)
    · rintro r ⟨p, hp⟩
      exact ⟨p, holds_markRow hp.toHolds, hp.signer, hp.tokenUri⟩

/--
**The columns agree throughout a run exactly when no upgrade brings in another signer
or uri.**
-/
theorem columns_agree_iff [LawfulCodec Text] (prune : Bool) (ws : List Write) :
    Lib.Always write (.new prune : PremintStorage Text) AllAgree ws
      ↔ Lib.EveryStep write (.new prune : PremintStorage Text) KeepsColumns ws := by
  have hnew : AllAgree (.new prune : PremintStorage Text) := by
    intro r hr
    cases hr
  exact Lib.always_iff_everyStep allHold_write allAgree_write_iff (allHold_new prune) hnew

end Columns

/-! ## An upgrade that renames a token -/

section Example

open Sample

attribute [local instance] Sample.alloy

/-- Version `version` of one token, with the given uri. -/
def renamed (version : UInt64) (uri : String) : PremintTypes :=
  .simple { version := version, chainId := 1, sender := 1, tokenId := 1, media := uri }

/-- **After it, the row's uri is not the uri of the premint it holds.** -/
theorem renamed_token_disagrees :
    ¬ Lib.Always write (.new true : PremintStorage Wire) AllAgree
      [.store 0 (renamed 1 "ipfs://a"), .store 0 (renamed 2 "ipfs://b")] := by
  intro h
  obtain ⟨p, hp⟩ := h _ List.prefix_rfl
    (upgradeRow (newRow 0 (renamed 2 "ipfs://b")) (newRow 0 (renamed 1 "ipfs://a"))) (by decide)
  have hjson : renamed 2 "ipfs://b" = p := Except.ok.inj hp.json
  have huri := hp.tokenUri
  rw [← hjson] at huri
  exact absurd huri (by decide)

/-- The same upgrade without the new name. -/
theorem republished_token_agrees :
    Lib.Always write (.new true : PremintStorage Wire) AllAgree
      [.store 0 (renamed 1 "ipfs://a"), .store 0 (renamed 2 "ipfs://a")] := by
  refine (columns_agree_iff true _).mpr (Lib.everyStep_cons_iff.mpr ⟨?_,
    Lib.everyStep_cons_iff.mpr ⟨?_, Lib.everyStep_nil⟩⟩)
  · intro old hold _
    have hnone : (new true : PremintStorage Wire).table.lookup (premintKey (renamed 1 "ipfs://a"))
        = none := by decide
    rw [hnone] at hold
    cases hold
  · intro old hold _
    have hrow : (write (new true : PremintStorage Wire)
        (.store 0 (renamed 1 "ipfs://a"))).table.lookup (premintKey (renamed 2 "ipfs://a"))
          = some (newRow 0 (renamed 1 "ipfs://a")) := by decide
    rw [hrow] at hold
    cases hold
    exact ⟨by decide, by decide⟩

end Example

end Mintpool.Proof
