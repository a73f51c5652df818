import Mintpool.Proof.CatchUp

/-!
# What a query returns

A row is text and a few integers, and a query compares them with the text and the integers
of its options. Read back, the columns agree: casts and checksums lose nothing, so each
option selects the value that it names.

Times are another matter. `created_at` has no fraction and no time zone, and a bound is
printed with both, so in the second of the bound the two texts differ in what follows: the
row is below `from` although it is not before it. And a year of five digits is printed with
a sign, which is below every digit.
-/

namespace Mintpool.Proof

open Mintpool PremintStorage

section Times

variable {Text : Type} [Codec Text] {t : DateTime} {n : Int}

/-! ## Times, and their texts -/

/-- In time, not as texts. -/
instance : LE DateTime := ⟨fun t u => t.secs < u.secs ∨ t.secs = u.secs ∧ t.nanos ≤ u.nanos⟩

/-- A second, as `CURRENT_TIMESTAMP` has it. -/
def second (n : Int) : DateTime := ⟨n, ⟨0, by decide⟩⟩

theorem le_second_iff : t ≤ second n ↔ t.secs < n ∨ t = second n := by
  obtain ⟨secs, nanos⟩ := t
  show secs < n ∨ secs = n ∧ nanos ≤ 0 ↔ secs < n ∨ (⟨secs, nanos⟩ : DateTime) = ⟨n, 0⟩
  rw [Fin.le_zero_iff, DateTime.mk.injEq]

theorem second_le_iff : second n ≤ t ↔ n ≤ t.secs := by
  have hnanos : (0 : Fin 1000000000) ≤ t.nanos := Fin.zero_le _
  show n < t.secs ∨ n = t.secs ∧ 0 ≤ t.nanos ↔ n ≤ t.secs
  refine ⟨fun h => ?_, fun h => ?_⟩
  · rcases h with hlt | ⟨heq, _⟩
    · exact Int.le_of_lt hlt
    · exact Int.le_of_eq heq
  · rcases Int.lt_or_eq_of_le h with hlt | heq
    · exact .inl hlt
    · exact .inr ⟨heq, hnanos⟩

/-- **As texts, a clock second is at or before a time exactly when it is not a later second.** -/
theorem le_display_iff [LawfulClock Text] (hn : firstSecond ≤ n) (hn' : n ≤ lastSecond)
    (ht : t.secs ≤ lastSecond) : Codec.dateTimeText Text n ≤ t.display Text ↔ n ≤ t.secs := by
  rw [← Int.not_lt, ← @display_le_iff Text _ _ t n hn hn' ht]
  refine ⟨fun hle hge => ?_, fun hnot => (String.le_total _ _).resolve_right hnot⟩
  -- the two texts are never the same
  have hsame := congrArg String.toList (String.le_antisymm hle hge)
  obtain ⟨c, cs, hdisplay⟩ := @display_toList Text _ t
  rw [hdisplay] at hsame
  rcases Int.lt_or_le t.secs firstSecond with hbefore | hrange
  · obtain ⟨ds, hds⟩ := @LawfulClock.sign Text _ _ t.secs hbefore
    obtain ⟨d, es, hes, hdigit⟩ := @LawfulClock.digit Text _ _ n hn hn'
    rw [hds, hes] at hsame
    obtain ⟨rfl, _⟩ := List.cons.inj hsame
    exact absurd hdigit (by decide)
  · have hlen := congrArg List.length hsame
    rw [List.length_append, LawfulClock.width n hn hn', LawfulClock.width t.secs hrange ht,
      List.length_cons] at hlen
    omega

/-- **A year of five digits is below every other**, as a text. -/
theorem display_lt_of_late [LawfulClock Text] [LawfulLateClock Text] (hn : firstSecond ≤ n)
    (hn' : n ≤ lastSecond) (ht : lastSecond < t.secs) :
    t.display Text < Codec.dateTimeText Text n := by
  obtain ⟨c, cs, hdisplay⟩ := @display_toList Text _ t
  obtain ⟨ds, hds⟩ := @LawfulLateClock.plus Text _ _ t.secs ht
  obtain ⟨d, es, hes, hdigit⟩ := @LawfulClock.digit Text _ _ n hn hn'
  have hlow : '+' < d := by
    rw [Char.lt_def, UInt32.lt_iff_toNat_lt]
    exact Nat.lt_of_lt_of_le (by decide) (Char.isDigit_iff_toNat.mp hdigit).1
  show (t.display Text).toList < (Codec.dateTimeText Text n).toList
  rw [hdisplay, hds, hes]
  exact List.cons_lt_cons_iff.mpr (.inl hlow)

/-! ## The two bounds -/

variable {options : QueryOptions}

/-- The second is not before `from`. -/
def FromOn (options : QueryOptions) (n : Int) : Prop :=
  ∀ t, options.from = some t → t ≤ second n

/-- The second is not after `to`. -/
def UpTo (options : QueryOptions) (n : Int) : Prop :=
  ∀ t, options.to = some t → second n ≤ t

/-- `from` lies after the year 9999. -/
def LateFrom (options : QueryOptions) : Prop := ∃ t, options.from = some t ∧ lastSecond < t.secs

/-- `to` does. -/
def LateTo (options : QueryOptions) : Prop := ∃ t, options.to = some t ∧ lastSecond < t.secs

/-- A second on which the texts and the times disagree: the one that `from` names without a
fraction, and all that a bound after the year 9999 is wrong about. -/
def Misdated (options : QueryOptions) (n : Int) : Prop :=
  options.from = some (second n) ∧ UpTo options n
    ∨ LateTo options ∧ FromOn options n
    ∨ LateFrom options ∧ ¬ LateTo options ∧ UpTo options n

theorem fromText_iff [LawfulClock Text] [LawfulLateClock Text] (hn : firstSecond ≤ n)
    (hn' : n ≤ lastSecond) :
    (∀ t, options.from = some t → t.display Text ≤ Codec.dateTimeText Text n)
      ↔ FromOn options n ∧ options.from ≠ some (second n) ∨ LateFrom options := by
  cases hfrom : options.from with
  | none => simp [FromOn, LateFrom, hfrom]
  | some t =>
      simp only [FromOn, LateFrom, hfrom, Option.some.injEq, forall_eq', exists_eq_left', ne_eq]
      rcases Int.lt_or_le lastSecond t.secs with hlate | hrange
      · have hle : t.display Text ≤ Codec.dateTimeText Text n :=
          List.lt_asymm (display_lt_of_late hn hn' hlate)
        exact ⟨fun _ => .inr hlate, fun _ => hle⟩
      · -- a time that is printed with a year of four digits, so the texts compare like the times
        rw [display_le_iff hn hn' hrange, le_second_iff]
        refine ⟨fun hlt => .inl ⟨.inl hlt, ?_⟩, fun h => ?_⟩
        · rintro rfl
          exact Int.lt_irrefl _ hlt
        · rcases h with ⟨hlt | heq, hne⟩ | hlate
          · exact hlt
          · exact absurd heq hne
          · omega

theorem toText_iff [LawfulClock Text] [LawfulLateClock Text] (hn : firstSecond ≤ n)
    (hn' : n ≤ lastSecond) :
    (∀ t, options.to = some t → Codec.dateTimeText Text n ≤ t.display Text)
      ↔ UpTo options n ∧ ¬ LateTo options := by
  cases hto : options.to with
  | none => simp [UpTo, LateTo, hto]
  | some t =>
      simp only [UpTo, LateTo, hto, Option.some.injEq, forall_eq', exists_eq_left', second_le_iff]
      rcases Int.lt_or_le lastSecond t.secs with hlate | hrange
      · have hlt : t.display Text < Codec.dateTimeText Text n := display_lt_of_late hn hn' hlate
        exact ⟨fun hle => absurd hlt hle, fun h => absurd hlate h.2⟩
      · rw [le_display_iff hn hn' hrange]
        exact ⟨fun h => ⟨h, by omega⟩, And.left⟩

/-- **The texts and the times admit the same seconds, but for the misdated ones.** -/
theorem texts_iff_times [LawfulClock Text] [LawfulLateClock Text] (hn : firstSecond ≤ n)
    (hn' : n ≤ lastSecond) :
    (((∀ t, options.from = some t → t.display Text ≤ Codec.dateTimeText Text n)
        ∧ (∀ t, options.to = some t → Codec.dateTimeText Text n ≤ t.display Text))
      ↔ FromOn options n ∧ UpTo options n) ↔ ¬ Misdated options n := by
  -- at that very second the time is met and the text is not
  have hexact : options.from = some (second n) → FromOn options n := by
    intro h t ht
    obtain rfl := Option.some.inj (h.symm.trans ht)
    exact le_second_iff.mpr (.inr rfl)
  have hlateFrom : LateFrom options → ¬ FromOn options n := by
    rintro ⟨t, ht, hlate⟩ h
    rcases le_second_iff.mp (h t ht) with hlt | heq
    · omega
    · rw [heq] at hlate
      exact absurd hlate (Int.not_lt.mpr hn')
  have hlateTo : LateTo options → UpTo options n := by
    rintro ⟨t, ht, hlate⟩ u hu
    obtain rfl := Option.some.inj (ht.symm.trans hu)
    exact second_le_iff.mpr (by omega)
  rw [fromText_iff hn hn', toText_iff hn hn', Misdated]
  tauto

end Times

/-! ## Rows, read back -/

section Rows

variable {Text : Type} [Codec Text] [Alloy] {r : Row Text}

/-- What a row says, in the types of the options. -/
structure Entry where
  kind : String
  chainId : UInt64
  collectionAddress : Address
  signer : Address
  createdAt : Int
  seenOnChain : Bool
  premint : PremintTypes

/-- The row reads as this entry. -/
structure ReadsAs (r : Row Text) (e : Entry) : Prop where
  kind : r.kind = e.kind
  chainId : r.chainId = e.chainId.toInt64
  collectionAddress : r.collectionAddress = e.collectionAddress.toChecksum
  signer : r.signer = e.signer.toChecksum
  createdAt : r.createdAt = Codec.dateTimeText Text e.createdAt
  seenOnChain : r.seenOnChain = e.seenOnChain
  premint : PremintTypes.fromJson r.json = .ok e.premint
  /-- The clock showed a year of four digits. -/
  onClock : firstSecond ≤ e.createdAt ∧ e.createdAt ≤ lastSecond

omit [Alloy] in
theorem dateTimeText_inj [LawfulClock Text] {m n : Int} (hm : firstSecond ≤ m ∧ m ≤ lastSecond)
    (hn : firstSecond ≤ n ∧ n ≤ lastSecond)
    (h : Codec.dateTimeText Text m = Codec.dateTimeText Text n) : m = n := by
  rcases Int.lt_trichotomy m n with hlt | heq | hgt
  · have hless : Codec.dateTimeText Text m < Codec.dateTimeText Text n :=
      LawfulClock.mono m n hm.1 hn.2 hlt
    rw [h] at hless
    exact absurd hless (List.lt_irrefl _)
  · exact heq
  · have hless : Codec.dateTimeText Text n < Codec.dateTimeText Text m :=
      LawfulClock.mono n m hn.1 hm.2 hgt
    rw [h] at hless
    exact absurd hless (List.lt_irrefl _)

/-- **In one way only.** -/
theorem readsAs_unique [LawfulClock Text] {e e' : Entry} (h : ReadsAs r e) (h' : ReadsAs r e') :
    e = e' := by
  have hkind := h.kind.symm.trans h'.kind
  have hchain := congrArg Int64.toUInt64 (h.chainId.symm.trans h'.chainId)
  have hcollection :=
    Address.toChecksum_inj (h.collectionAddress.symm.trans h'.collectionAddress)
  have hsigner := Address.toChecksum_inj (h.signer.symm.trans h'.signer)
  have hcreated := dateTimeText_inj h.onClock h'.onClock (h.createdAt.symm.trans h'.createdAt)
  have hseen := h.seenOnChain.symm.trans h'.seenOnChain
  have hpremint := Except.ok.inj (h.premint.symm.trans h'.premint)
  cases e
  cases e'
  simp only [UInt64.toUInt64_toInt64] at hchain
  simp only [Entry.mk.injEq]
  exact ⟨hkind, hchain, hcollection, hsigner, hcreated, hseen, hpremint⟩

theorem readsAs_newRow [LawfulCodec Text] {now : Int} (p : PremintTypes)
    (hnow : firstSecond ≤ now ∧ now ≤ lastSecond) :
    ReadsAs (newRow now p : Row Text) {
      kind := p.metadata.kind.name
      chainId := p.metadata.chainId
      collectionAddress := p.metadata.collectionAddress
      signer := p.metadata.signer
      createdAt := now
      seenOnChain := false
      premint := p } :=
  ⟨rfl, rfl, rfl, rfl, rfl, rfl, PremintTypes.fromJson_toJson p, hnow⟩

def AllRead (s : PremintStorage Text) : Prop := ∀ r ∈ s.table.rows, ∃ e, ReadsAs r e

/-- **Preserved by every write** at a time that the clock can show. -/
theorem allRead_write [LawfulCodec Text] {s : PremintStorage Text} {w : Write} (hw : OnClock w)
    (h : AllRead s) : AllRead (write s w) := by
  refine rows_write (fun now p hstore _ => ?_) (fun now p old _ _ _ hold => ?_) (fun r hr => ?_) h
  · subst hstore
    exact ⟨_, readsAs_newRow p hw⟩
  · obtain ⟨e, he⟩ := hold
    exact ⟨{ e with premint := p }, he.kind, he.chainId, he.collectionAddress, he.signer,
      he.createdAt, he.seenOnChain, PremintTypes.fromJson_toJson p, he.onClock⟩
  · obtain ⟨e, he⟩ := hr
    exact ⟨{ e with seenOnChain := true }, he.kind, he.chainId, he.collectionAddress, he.signer,
      he.createdAt, rfl, he.premint, he.onClock⟩

/-! ## What is wanted -/

/-- The entry is unseen and has each value that the options name. -/
structure MeetsColumns (options : QueryOptions) (e : Entry) : Prop where
  unseen : e.seenOnChain = false
  kind : ∀ kind, options.kind = some kind → e.kind = kind
  chainId : ∀ chainId, options.chainId = some chainId → e.chainId = chainId
  collectionAddress : ∀ a, options.collectionAddress = some a → e.collectionAddress = a
  signer : ∀ a, options.creatorAddress = some a → e.signer = a

/-- And it was created within the bounds. -/
structure Wanted (options : QueryOptions) (e : Entry) : Prop where
  columns : MeetsColumns options e
  fromOn : FromOn options e.createdAt
  upTo : UpTo options e.createdAt

def IsWanted (options : QueryOptions) (r : Row Text) : Prop :=
  ∃ e, ReadsAs r e ∧ Wanted options e

open Classical in
/-- The rows that a query is for. -/
noncomputable def wantedRows (s : PremintStorage Text) (options : QueryOptions) :
    List (Row Text) :=
  s.table.rows.filter (fun r => decide (IsWanted options r))

omit [Codec Text] [Alloy] in
theorem pushEq_iff {α β : Type} [DecidableEq β] {option : Option α} {bind : α → β} {column : β} :
    pushEq option bind column = true ↔ ∀ x, option = some x → column = bind x := by
  unfold pushEq
  cases option with
  | none => simp
  | some x => simp

/-- **An option selects the value that it names.** -/
theorem buildQuery_iff {options : QueryOptions} {e : Entry} (h : ReadsAs r e) :
    buildQuery options r = true ↔ MeetsColumns options e
      ∧ (∀ t, options.from = some t → t.display Text ≤ Codec.dateTimeText Text e.createdAt)
      ∧ ∀ t, options.to = some t → Codec.dateTimeText Text e.createdAt ≤ t.display Text := by
  have hchain : ∀ c, e.chainId.toInt64 = UInt64.toInt64 c ↔ e.chainId = c := fun c =>
    ⟨fun heq => by simpa using congrArg Int64.toUInt64 heq, congrArg UInt64.toInt64⟩
  have haddress : ∀ a b : Address, a.toChecksum = b.toChecksum ↔ a = b := fun a b =>
    ⟨Address.toChecksum_inj, congrArg Address.toChecksum⟩
  unfold buildQuery
  simp only [Bool.and_eq_true, Bool.not_eq_true', pushEq_iff, h.kind, h.chainId,
    h.collectionAddress, h.signer, h.createdAt, h.seenOnChain, hchain, haddress, id_eq]
  refine ⟨fun hmeets => ?_, fun hmeets => ?_⟩
  · obtain ⟨⟨⟨⟨⟨⟨hs, hk⟩, hc⟩, ha⟩, hsig⟩, hf⟩, ht⟩ := hmeets
    refine ⟨⟨hs, hk, hc, ha, hsig⟩, fun t heq => ?_, fun t heq => ?_⟩
    · rw [heq] at hf
      exact of_decide_eq_true hf
    · rw [heq] at ht
      exact of_decide_eq_true ht
  · obtain ⟨⟨hs, hk, hc, ha, hsig⟩, hf, ht⟩ := hmeets
    refine ⟨⟨⟨⟨⟨⟨hs, hk⟩, hc⟩, ha⟩, hsig⟩, ?_⟩, ?_⟩
    · cases heq : options.from with
      | none => rfl
      | some t => exact decide_eq_true (hf t heq)
    · cases heq : options.to with
      | none => rfl
      | some t => exact decide_eq_true (ht t heq)

/-- **A row is selected as it is wanted, unless it is misdated.** -/
theorem selected_iff_wanted [LawfulClock Text] [LawfulLateClock Text] {options : QueryOptions}
    {e : Entry} (h : ReadsAs r e) :
    (buildQuery options r = true ↔ IsWanted options r)
      ↔ (MeetsColumns options e → ¬ Misdated options e.createdAt) := by
  have hwanted : IsWanted options r ↔ MeetsColumns options e
      ∧ FromOn options e.createdAt ∧ UpTo options e.createdAt := by
    refine ⟨fun ⟨e', he', hw⟩ => ?_, fun ⟨hm, hf, ht⟩ => ⟨e, h, hm, hf, ht⟩⟩
    obtain rfl := readsAs_unique he' h
    exact ⟨hw.columns, hw.fromOn, hw.upTo⟩
  rw [buildQuery_iff h, hwanted, and_congr_right_iff]
  exact imp_congr_right fun _ => texts_iff_times h.onClock.1 h.onClock.2

/-! ## The two queries -/

variable {s : PremintStorage Text} {options : QueryOptions}

/-- The queries answer for the rows that are wanted, each once and in some order, and for no
others. -/
structure Exact (s : PremintStorage Text) (options : QueryOptions) : Prop where
  listAll : (s.listAllWithOptions options).Perm (decodeRows (wantedRows s options))
  getOne : ∀ p, s.getOne options = .ok p → p ∈ decodeRows (wantedRows s options)
  getNone : (∃ report, s.getOne options = .error report)
    ↔ ∀ r ∈ s.table.rows, ¬ IsWanted options r

theorem mem_wantedRows_iff : r ∈ wantedRows s options ↔ r ∈ s.table.rows ∧ IsWanted options r := by
  simp only [wantedRows, List.mem_filter, decide_eq_true_eq]

/-- No two rows hold one premint. -/
theorem eq_of_fromJson_eq (hholds : AllHold s) {r r' : Row Text} (hr : r ∈ s.table.rows)
    (hr' : r' ∈ s.table.rows) {p : PremintTypes} (hp : PremintTypes.fromJson r.json = .ok p)
    (hp' : PremintTypes.fromJson r'.json = .ok p) : r = r' := by
  obtain ⟨q, hq⟩ := hholds r hr
  obtain ⟨q', hq'⟩ := hholds r' hr'
  obtain rfl := Except.ok.inj (hp.symm.trans hq.json)
  obtain rfl := Except.ok.inj (hp'.symm.trans hq'.json)
  exact Lib.KeyedTable.eq_of_key_eq hr hr' (hq.key.trans hq'.key.symm)

theorem selected_of_listAll (hholds : AllHold s)
    (h : (s.listAllWithOptions options).Perm (decodeRows (wantedRows s options))) :
    ∀ r ∈ s.table.rows, buildQuery options r = true ↔ IsWanted options r := by
  intro r hr
  obtain ⟨p, hp⟩ := hholds r hr
  have hselected : buildQuery options r = true ↔ p ∈ s.listAllWithOptions options := by
    rw [listAllWithOptions, mem_decodeRows_iff]
    refine ⟨fun hq => ⟨r, List.mem_filter.mpr ⟨hr, hq⟩, hp.json⟩, fun hdecoded => ?_⟩
    obtain ⟨r', hr', hjson⟩ := hdecoded
    obtain ⟨hmem, hq⟩ := List.mem_filter.mp hr'
    rwa [eq_of_fromJson_eq hholds hr hmem hp.json hjson]
  have hwanted : IsWanted options r ↔ p ∈ decodeRows (wantedRows s options) := by
    rw [mem_decodeRows_iff]
    refine ⟨fun hw => ⟨r, mem_wantedRows_iff.mpr ⟨hr, hw⟩, hp.json⟩, fun hdecoded => ?_⟩
    obtain ⟨r', hr', hjson⟩ := hdecoded
    obtain ⟨hmem, hw⟩ := mem_wantedRows_iff.mp hr'
    rwa [eq_of_fromJson_eq hholds hr hmem hp.json hjson]
  rw [hselected, h.mem_iff, ← hwanted]

theorem exact_of_selected (hholds : AllHold s)
    (h : ∀ r ∈ s.table.rows, buildQuery options r = true ↔ IsWanted options r) :
    Exact s options := by
  -- the query selects the wanted rows and no others
  have hrows : s.table.rows.filter (buildQuery options) = wantedRows s options :=
    List.filter_congr fun r hr => by
      rw [Bool.eq_iff_iff, h r hr]
      simp only [decide_eq_true_eq]
  refine ⟨.of_eq (by rw [listAllWithOptions, hrows]), fun p hp => ?_, ?_⟩
  · unfold getOne decodeOne at hp
    cases hfind : s.table.rows.find? (buildQuery options) with
    | none => rw [hfind] at hp; cases hp
    | some r =>
        rw [hfind] at hp
        have hmem := List.mem_of_find?_eq_some hfind
        have hw := (h r hmem).mp (List.find?_some hfind)
        exact mem_decodeRows_iff.mpr ⟨r, mem_wantedRows_iff.mpr ⟨hmem, hw⟩, hp⟩
  · unfold getOne decodeOne
    cases hfind : s.table.rows.find? (buildQuery options) with
    | none =>
        refine ⟨fun _ r hr hw => ?_, fun _ => ⟨_, rfl⟩⟩
        exact List.find?_eq_none.mp hfind r hr ((h r hr).mpr hw)
    | some r =>
        have hmem := List.mem_of_find?_eq_some hfind
        -- each row decodes, so a row found is an answer
        obtain ⟨p, hp⟩ := hholds r hmem
        refine ⟨fun hfails => ?_, fun hnone => ?_⟩
        · obtain ⟨report, hreport⟩ := hfails
          dsimp only at hreport
          rw [hp.json] at hreport
          cases hreport
        · exact absurd ((h r hmem).mp (List.find?_some hfind)) (hnone r hmem)

/--
**Exactly when a query is exact.** After any calls of `store` and `mark_seen_on_chain`, and for
all options: no unseen row that meets the other options was created in a misdated second.
-/
theorem exact_iff [LawfulCodec Text] [LawfulClock Text] [LawfulLateClock Text] (prune : Bool)
    {ws : List Write} (hws : ∀ w ∈ ws, OnClock w) (options : QueryOptions) :
    Exact (ws.foldl write (.new prune : PremintStorage Text)) options
      ↔ ∀ r ∈ (ws.foldl write (.new prune : PremintStorage Text)).table.rows, ∀ e, ReadsAs r e →
        MeetsColumns options e → ¬ Misdated options e.createdAt := by
  have hholds : AllHold (ws.foldl write (.new prune : PremintStorage Text)) :=
    Lib.foldl_invariant (fun s w _ => allHold_write s w) (allHold_new prune)
  have hread : AllRead (ws.foldl write (.new prune : PremintStorage Text)) := by
    refine Lib.foldl_invariant (fun s w hw h => allRead_write (hws w hw) h) fun r hr => ?_
    cases hr
  refine ⟨fun h r hr e he => ?_, fun h => exact_of_selected hholds fun r hr => ?_⟩
  · exact (selected_iff_wanted he).mp (selected_of_listAll hholds h.listAll r hr)
  · obtain ⟨e, he⟩ := hread r hr
    exact (selected_iff_wanted he).mpr (h r hr e he)

end Rows

/-! ## The second of the bound -/

section Example

attribute [local instance] Sample.alloy

/-- A premint is stored in second 20. -/
def storedAt20 : List Write := [.store 20 (.zoraV2 Sample.validPremint)]

theorem storedAt20_onClock : ∀ w ∈ storedAt20, OnClock w := by
  intro w hw
  rw [List.mem_singleton.mp hw]
  exact ⟨by decide, by decide⟩

/-- **Asked for everything from second 20 on, the query leaves it out.** -/
theorem row_of_from_missed : (∀ w ∈ storedAt20, OnClock w)
    ∧ ¬ Exact (storedAt20.foldl write (.new true : PremintStorage Wire))
      { «from» := some ⟨20, 0⟩ } := by
  refine ⟨storedAt20_onClock, fun h => ?_⟩
  have hrow : newRow 20 (.zoraV2 Sample.validPremint)
      ∈ (storedAt20.foldl write (.new true : PremintStorage Wire)).table.rows := by decide +kernel
  have hwanted : IsWanted { «from» := some ⟨20, 0⟩ }
      (newRow 20 (.zoraV2 Sample.validPremint) : Row Wire) := by
    refine ⟨_, readsAs_newRow _ ⟨by decide, by decide⟩, ⟨rfl, nofun, nofun, nofun, nofun⟩,
      fun t ht => ?_, nofun⟩
    obtain rfl := Option.some.inj ht
    exact le_second_iff.mpr (.inr rfl)
  have hlist : (storedAt20.foldl write (.new true : PremintStorage Wire)).listAllWithOptions
      { «from» := some ⟨20, 0⟩ } = [] := by decide +kernel
  have hmem : PremintTypes.zoraV2 Sample.validPremint ∈ decodeRows (wantedRows
      (storedAt20.foldl write (.new true : PremintStorage Wire)) { «from» := some ⟨20, 0⟩ }) :=
    mem_decodeRows_iff.mpr ⟨_, mem_wantedRows_iff.mpr ⟨hrow, hwanted⟩,
      PremintTypes.fromJson_toJson _⟩
  rw [← h.listAll.mem_iff, hlist] at hmem
  cases hmem

/-- From half a second earlier, and up to the second itself, it has it. -/
theorem row_before_from_found :
    Exact (storedAt20.foldl write (.new true : PremintStorage Wire))
      { «from» := some ⟨19, 500000000⟩, «to» := some ⟨20, 0⟩ } := by
  refine (exact_iff true storedAt20_onClock _).mpr fun r hr e he hcolumns hmisdated => ?_
  rcases hmisdated with ⟨hfrom, _⟩ | ⟨⟨t, ht, hlate⟩, _⟩ | ⟨⟨t, ht, hlate⟩, _⟩
  · -- the bound has a fraction
    have hnanos := congrArg DateTime.nanos (Option.some.inj hfrom)
    cases hnanos
  · cases ht
    exact absurd hlate (by decide)
  · cases ht
    exact absurd hlate (by decide)

end Example

end Mintpool.Proof
