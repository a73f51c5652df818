import Mintpool.Proof.Admission
import Mintpool.Proof.Columns

/-!
# Two tokens with one uri

The token-uri rule looks a uri up in the `token_uri` column, and accepts what it finds
if the ids agree. The column says which uri a row was *inserted* with; an upgrade puts
another uri into `json` and leaves the column alone. So the rule misses a row that was
renamed to the uri after it was inserted. And it does not look at kinds: rows of two
kinds with one id may share a uri. Nothing else goes wrong: as long as no check fails,
rows with one uri in the column have one id, and the first of them speaks for all.
-/

namespace Mintpool.Proof

open Mintpool PremintStorage

section TokenUri

variable {Text : Type} [Codec Text] [Alloy]

/-! ## The claim and its condition -/

/-- No two rows hold premints with one uri. -/
def UniqueUris (s : PremintStorage Text) : Prop :=
  ∀ r ∈ s.table.rows, ∀ r' ∈ s.table.rows, r.key ≠ r'.key → ∀ p p' : PremintTypes,
    PremintTypes.fromJson r.json = .ok p → PremintTypes.fromJson r'.json = .ok p' →
      p.metadata.uri ≠ p'.metadata.uri

/-- No rule fails on the premint that the turn inserts. -/
def ChecksOk (engine : RulesEngine Text) (s : PremintStorage Text) : Turn → Prop
  | .insert m p => ¬ Failed engine m s p
  | .markSeenOnChain _ => True

/-- Every other row that holds the premint's uri shows it to the token-uri rule: it still
has it in its column, and under another id. -/
def Shown (s : PremintStorage Text) (p : PremintTypes) : Prop :=
  ∀ r ∈ s.table.rows, r.key ≠ premintKey p → ∀ q, PremintTypes.fromJson r.json = .ok q →
    q.metadata.uri = p.metadata.uri → r.tokenUri = p.metadata.uri ∧ r.id ≠ p.metadata.id

/-- The premint is not let in for another reason, or every row with its uri is shown. -/
def KeepsUris (engine : RulesEngine Text) (s : PremintStorage Text) : Turn → Prop
  | .insert m p => Objected engine m s p ∨ Refused s p ∨ Shown s p
  | .markSeenOnChain _ => True

/-! ## What the rule relies on -/

/-- Every row holds a premint, and rows with one uri in the column have one id. -/
structure UriColumn (s : PremintStorage Text) : Prop where
  holds : AllHold s
  id : ∀ r ∈ s.table.rows, ∀ r' ∈ s.table.rows, r.tokenUri = r'.tokenUri → r.id = r'.id

omit [Alloy] in
/-- Whether a check fails can be read off the results. -/
theorem not_failed_of_isErr {engine : RulesEngine Text} {m : Moment} {s : PremintStorage Text}
    {p : PremintTypes} (h : (engine.evaluate m.chains p s.clone).toOption.map Results.isErr
      = some false) : ¬ Failed engine m s p := by
  intro hfail
  obtain ⟨existing, hread, _⟩ := id hfail
  rw [evaluate_ok_iff.mpr ⟨existing, hread, rfl⟩] at h
  dsimp only [Except.toOption, Option.map_some] at h
  rw [(failed_iff_isErr hread).mp hfail] at h
  cases h

/-- In a store whose rows hold premints the read of the existing row does not fail. -/
theorem readExisting_of_allHold {s : PremintStorage Text} (h : AllHold s) (p : PremintTypes) :
    ∃ existing, RulesEngine.readExisting s.clone p = .ok existing := by
  unfold RulesEngine.readExisting getForIdAndKind decodeOne
  cases hl : s.clone.table.lookup (p.metadata.kind.name, p.metadata.id) with
  | none => exact ⟨none, rfl⟩
  | some r =>
      obtain ⟨q, hq⟩ := h r (Lib.KeyedTable.lookup_some hl).1
      dsimp only
      rw [hq.json]
      exact ⟨some q, rfl⟩

/-- **A premint no rule objects to has the id of every row with its uri in the column.** -/
theorem id_of_not_objected {s : PremintStorage Text} {m : Moment} {p : PremintTypes}
    {enableRpc : Bool} (h : UriColumn s)
    (hobj : ¬ Objected (.newWithDefaultRules enableRpc) m s p) {r : Row Text}
    (hr : r ∈ s.table.rows) (huri : r.tokenUri = p.metadata.uri) : r.id = p.metadata.id := by
  obtain ⟨existing, hread⟩ := readExisting_of_allHold h.holds p
  have hrule : metadataRule "existing_token_uri" General.existingTokenUri
      ∈ (RulesEngine.newWithDefaultRules enableRpc : RulesEngine Text).rules := by
    simp [RulesEngine.newWithDefaultRules, allRules, General.allRules]
  cases hfind : s.table.rows.find? (fun r => r.tokenUri = p.metadata.uri) with
  | none => exact absurd huri (by simpa using List.find?_eq_none.mp hfind r hr)
  | some first =>
      have hmem : first ∈ s.table.rows := List.mem_of_find?_eq_some hfind
      have hcolumn : first.tokenUri = p.metadata.uri := by simpa using List.find?_some hfind
      obtain ⟨q, hq⟩ := h.holds first hmem
      have hid : first.id = q.metadata.id := congrArg Prod.snd hq.key
      -- the rule compares with the first row; its id is the id of all of them
      rw [h.id r hr first hmem (by rw [huri, hcolumn]), hid]
      by_contra hne
      refine hobj ⟨existing, hread, _, hrule, .inl ⟨"Token URI already exists", ?_⟩⟩
      unfold answer metadataRule General.existingTokenUri getForTokenUri clone decodeOne
      dsimp only
      rw [hfind]
      dsimp only
      rw [hq.json]
      exact if_neg hne

/-! ## What a write does to the uris -/

/-- A row after a write is the premint's own, or has the id and the column of one before. -/
theorem origin_write {s : PremintStorage Text} {w : Write} :
    ∀ r ∈ (write s w).table.rows,
      (∃ now p, w = .store now p ∧ r.id = p.metadata.id ∧ r.tokenUri = p.metadata.uri)
        ∨ ∃ r₀ ∈ s.table.rows, r.id = r₀.id ∧ r.tokenUri = r₀.tokenUri := by
  refine rows_write ?_ ?_ ?_ ?_
  · intro now p hw _
    exact .inl ⟨now, p, hw, rfl, rfl⟩
  · intro now p old _ hold _ _
    exact .inr ⟨old, (Lib.KeyedTable.lookup_some hold).1, rfl, rfl⟩
  · intro r h
    exact h
  · intro r hr
    exact .inr ⟨r, hr, rfl, rfl⟩

theorem uriColumn_write [LawfulCodec Text] {s : PremintStorage Text} {w : Write}
    (h : UriColumn s)
    (hid : ∀ now p, w = .store now p →
      ∀ r ∈ s.table.rows, r.tokenUri = p.metadata.uri → r.id = p.metadata.id) :
    UriColumn (write s w) := by
  refine ⟨allHold_write s w h.holds, fun r hr r' hr' huri => ?_⟩
  -- two rows of one uri: the new one and an old one, or two old ones
  rcases origin_write r hr with ⟨now, p, hw, h1, h2⟩ | ⟨r₀, hr₀, h1, h2⟩ <;>
    rcases origin_write r' hr' with ⟨now', p', hw', h1', h2'⟩ | ⟨r₀', hr₀', h1', h2'⟩
  · rw [hw] at hw'
    cases hw'
    rw [h1, h1']
  · rw [h1, h1', hid now p hw r₀' hr₀' (by rw [← h2', ← huri, h2])]
  · rw [h1, h1', hid now' p' hw' r₀ hr₀ (by rw [← h2, huri, h2'])]
  · rw [h1, h1']
    exact h.id r₀ hr₀ r₀' hr₀' (by rw [← h2, huri, h2'])

/-- **Preserved by every turn** in which no check fails. -/
theorem uriColumn_turn [LawfulCodec Text] {enableRpc : Bool} (s : PremintStorage Text) (t : Turn)
    (h : UriColumn s) (hok : ChecksOk (.newWithDefaultRules enableRpc) s t) :
    UriColumn (turn (.newWithDefaultRules enableRpc) s t) := by
  cases t with
  | markSeenOnChain claim =>
      exact uriColumn_write (w := .markSeenOnChain claim) h (fun _ _ hw => by cases hw)
  | insert m p =>
      by_cases hblocked : Objected (.newWithDefaultRules enableRpc) m s p ∨ Refused s p
      · rw [turn, insert_of_objected_or_refused hok hblocked]
        exact h
      · -- the premint is stored, so the rule about addresses saw no row of another id
        obtain ⟨hobj, href⟩ := not_or.mp hblocked
        obtain ⟨existing, hread⟩ := readExisting_of_allHold h.holds p
        rw [turn, insert_of_not_objected hread hobj href]
        refine uriColumn_write h fun now q hw r hr huri => ?_
        cases hw
        exact id_of_not_objected h hobj hr huri

/-! ## The premints a write leaves -/

omit [Alloy] in
/-- A mark leaves no premint behind that was not there. -/
theorem uniqueUris_mark {s : PremintStorage Text} (claim : InclusionClaim) (h : UniqueUris s) :
    UniqueUris (s.markSeenOnChain claim) := by
  have hbefore : ∀ r ∈ (s.markSeenOnChain claim).table.rows,
      ∃ r₀ ∈ s.table.rows, r₀.key = r.key ∧ r₀.json = r.json := by
    intro r hr
    obtain ⟨r₀, hr₀, heq⟩ := lookup_of_lookup_mark (Lib.KeyedTable.mem_iff_lookup.mp hr)
    refine ⟨r₀, (Lib.KeyedTable.lookup_some hr₀).1, ?_⟩
    rcases heq with rfl | rfl <;> exact ⟨rfl, rfl⟩
  intro r hr r' hr' hne p p' hp hp'
  obtain ⟨r₀, hr₀, hk, hj⟩ := hbefore r hr
  obtain ⟨r₀', hr₀', hk', hj'⟩ := hbefore r' hr'
  exact h r₀ hr₀ r₀' hr₀' (by rw [hk, hk']; exact hne) p p' (by rw [hj, hp]) (by rw [hj', hp'])

/-- No other row holds the premint's uri. -/
def Free (s : PremintStorage Text) (p : PremintTypes) : Prop :=
  ∀ r ∈ s.table.rows, r.key ≠ premintKey p → ∀ q, PremintTypes.fromJson r.json = .ok q →
    q.metadata.uri ≠ p.metadata.uri

/-- **An upsert that goes through keeps the uris apart exactly when its uri is free.** -/
theorem uniqueUris_store_iff [LawfulCodec Text] {s : PremintStorage Text} {p : PremintTypes}
    {now : Int} (href : ¬ Refused s p) (h : UniqueUris s) :
    UniqueUris (write s (.store now p)) ↔ Free s p := by
  obtain ⟨own, hown, _, hjson⟩ := stored_of_not_refused now href
  have hownKey : own.key = premintKey p := (Lib.KeyedTable.lookup_some hown).2
  have hother : ∀ r : Row Text, r.key ≠ premintKey p →
      (r ∈ (write s (.store now p)).table.rows ↔ r ∈ s.table.rows) := by
    intro r hne
    rw [Lib.KeyedTable.mem_iff_lookup, Lib.KeyedTable.mem_iff_lookup, write,
      lookup_store_of_ne hne]
  have hself : ∀ r ∈ (write s (.store now p)).table.rows, r.key = premintKey p → r = own := by
    intro r hr hk
    exact Lib.KeyedTable.eq_of_key_eq hr (Lib.KeyedTable.lookup_some hown).1 (hk.trans hownKey.symm)
  constructor
  · -- the premint's own row holds it now, so any other row with its uri clashes
    intro hafter r hr hne q hq
    exact hafter r ((hother r hne).mpr hr) own (Lib.KeyedTable.lookup_some hown).1
      (by rw [hownKey]; exact hne) q p hq hjson
  · intro hfree r hr r' hr' hne q q' hq hq'
    by_cases hk : r.key = premintKey p
    · -- the premint's own row against another one
      have hne' : r'.key ≠ premintKey p := fun hk' => hne (by rw [hk, hk'])
      rw [hself r hr hk, hjson] at hq
      cases hq
      exact (hfree r' ((hother r' hne').mp hr') hne' q' hq').symm
    · by_cases hk' : r'.key = premintKey p
      · rw [hself r' hr' hk', hjson] at hq'
        cases hq'
        exact hfree r ((hother r hk).mp hr) hk q hq
      · exact h r ((hother r hk).mp hr) r' ((hother r' hk').mp hr') hne q q' hq hq'

/-- For a premint that no rule objects to, the uri is free exactly when every row with it
is shown: what is shown, the rule would have found. -/
theorem free_iff_shown {s : PremintStorage Text} {m : Moment} {p : PremintTypes}
    {enableRpc : Bool} (h : UriColumn s)
    (hobj : ¬ Objected (.newWithDefaultRules enableRpc) m s p) : Free s p ↔ Shown s p := by
  constructor
  · intro hfree r hr hne q hq huri
    exact absurd huri (hfree r hr hne q hq)
  · intro hshown r hr hne q hq huri
    obtain ⟨hcolumn, hid⟩ := hshown r hr hne q hq huri
    exact hid (id_of_not_objected h hobj hr hcolumn)

/-- **A turn keeps the uris apart exactly when it meets the condition.** -/
theorem uniqueUris_turn_iff [LawfulCodec Text] {enableRpc : Bool} (s : PremintStorage Text)
    (t : Turn) (hcol : UriColumn s) (h : UniqueUris s)
    (hok : ChecksOk (.newWithDefaultRules enableRpc) s t) :
    UniqueUris (turn (.newWithDefaultRules enableRpc) s t)
      ↔ KeepsUris (.newWithDefaultRules enableRpc) s t := by
  cases t with
  | markSeenOnChain claim => exact iff_of_true (uniqueUris_mark claim h) trivial
  | insert m p =>
      by_cases hblocked : Objected (.newWithDefaultRules enableRpc) m s p ∨ Refused s p
      · rw [turn, insert_of_objected_or_refused hok hblocked]
        exact iff_of_true h (or_assoc.mp (.inl hblocked))
      · -- the premint is stored, and what the rule saw decides whether its address is free
        obtain ⟨hobj, href⟩ := not_or.mp hblocked
        obtain ⟨existing, hread⟩ := readExisting_of_allHold hcol.holds p
        rw [turn, insert_of_not_objected hread hobj href, uniqueUris_store_iff href h,
          free_iff_shown hcol hobj]
        exact ⟨fun hshown => .inr (.inr hshown),
          fun hkeeps => (hkeeps.resolve_left hobj).resolve_left href⟩

/--
**While no check fails, the uris stay apart throughout a run exactly when every premint
that is let in finds all rows with its uri shown.**

For the default rules, with or without RPC, whatever the chains answer.
-/
theorem unique_uris_iff [LawfulCodec Text] (enableRpc prune : Bool) (ts : List Turn)
    (hok : Lib.EveryStep (turn (.newWithDefaultRules enableRpc)) (.new prune : PremintStorage Text)
      (ChecksOk (.newWithDefaultRules enableRpc)) ts) :
    Lib.Always (turn (.newWithDefaultRules enableRpc)) (.new prune : PremintStorage Text)
        UniqueUris ts
      ↔ Lib.EveryStep (turn (.newWithDefaultRules enableRpc)) (.new prune : PremintStorage Text)
        (KeepsUris (.newWithDefaultRules enableRpc)) ts := by
  have hcol : UriColumn (.new prune : PremintStorage Text) :=
    ⟨allHold_new prune, fun r hr => by cases hr⟩
  have hnew : UniqueUris (.new prune : PremintStorage Text) := fun r hr => by cases hr
  exact Lib.always_iff_everyStep_of uriColumn_turn uniqueUris_turn_iff hcol hnew hok

end TokenUri

/-! ## A token that takes another one's uri -/

section Example

open Sample

attribute [local instance] Sample.alloy

/-- Version `version` of token `tokenId`, with the given uri. -/
def token (tokenId version : UInt64) (uri : String) : PremintTypes :=
  .simple { version := version, chainId := 1, sender := 1, tokenId := tokenId, media := uri }

/-- The first token is renamed, and the second comes with its new name. -/
def renames : List Turn := [
  .insert offline (token 1 1 "ipfs://a"),
  .insert offline (token 1 2 "ipfs://b"),
  .insert offline (token 2 1 "ipfs://b")]

/-- **No check fails, and both tokens end up with the uri.** -/
theorem renamed_uri_shared :
    Lib.EveryStep (turn offlineRules) (.new true) (ChecksOk offlineRules) renames
      ∧ ¬ Lib.Always (turn offlineRules) (.new true) UniqueUris renames := by
  constructor
  · exact Lib.everyStep_cons_iff.mpr ⟨not_failed_of_isErr (by decide +kernel),
      Lib.everyStep_cons_iff.mpr ⟨not_failed_of_isErr (by decide +kernel),
        Lib.everyStep_cons_iff.mpr ⟨not_failed_of_isErr (by decide +kernel),
          Lib.everyStep_nil⟩⟩⟩
  · intro h
    have hrows : (renames.foldl (turn offlineRules) (.new true)).table.rows
        = [upgradeRow (newRow 0 (token 1 2 "ipfs://b")) (newRow 0 (token 1 1 "ipfs://a")),
          newRow 0 (token 2 1 "ipfs://b")] := by
      decide +kernel
    have hunique := h renames List.prefix_rfl
    unfold UniqueUris at hunique
    rw [hrows] at hunique
    exact hunique _ List.mem_cons_self _ (List.mem_cons_of_mem _ List.mem_cons_self) (by decide)
      (token 1 2 "ipfs://b") (token 2 1 "ipfs://b") rfl rfl rfl

/-- Two tokens with uris of their own. -/
theorem own_uris_apart :
    Lib.Always (turn offlineRules) (.new true) UniqueUris
      [.insert offline (token 1 1 "ipfs://a"), .insert offline (token 2 1 "ipfs://b")] := by
  have hok : Lib.EveryStep (turn offlineRules) (.new true) (ChecksOk offlineRules)
      [.insert offline (token 1 1 "ipfs://a"), .insert offline (token 2 1 "ipfs://b")] :=
    Lib.everyStep_cons_iff.mpr ⟨not_failed_of_isErr (by decide +kernel),
      Lib.everyStep_cons_iff.mpr ⟨not_failed_of_isErr (by decide +kernel), Lib.everyStep_nil⟩⟩
  refine (unique_uris_iff false true _ hok).mpr (Lib.everyStep_cons_iff.mpr ⟨.inr (.inr ?_),
    Lib.everyStep_cons_iff.mpr ⟨.inr (.inr ?_), Lib.everyStep_nil⟩⟩)
  · intro r hr
    cases hr
  · have hrows : (turn offlineRules (.new true)
        (.insert offline (token 1 1 "ipfs://a"))).table.rows
          = [newRow 0 (token 1 1 "ipfs://a")] := by
      decide +kernel
    intro r hr _ q hq huri
    change r ∈ (turn offlineRules (.new true) (.insert offline (token 1 1 "ipfs://a"))).table.rows
      at hr
    rw [hrows] at hr
    rw [List.mem_singleton.mp hr] at hq
    cases hq
    exact absurd huri (by decide)

end Example

end Mintpool.Proof
