import Mintpool.Lib.Digits
import Mintpool.Lib.Run
import Mintpool.Proof.Columns

/-!
# What a node that was away is told

A node that asks for everything from a time on wants the versions that were accepted since.
The answer goes by `created_at`, which the insert of a row sets and an upgrade leaves alone:
it says when the *first* version was accepted.

So every call is followed with a ledger: for each key, the second in which its row was
inserted, and the second in which the version it holds was accepted. The answer has the rows
whose first second lies after the time asked for, and that is what is wanted exactly when no
row was upgraded across that time.
-/

namespace Mintpool.Proof

open Mintpool PremintStorage

section CatchUp

variable {Text : Type} [Codec Text]

/-! ## The comparison of texts -/

/-- What `display` adds to the text of the second. -/
theorem display_toList (t : DateTime) : ∃ c cs,
    (t.display Text).toList = (Codec.dateTimeText Text t.secs).toList ++ c :: cs := by
  obtain ⟨c, cs, h⟩ := List.exists_cons_of_ne_nil
    (show (DateTime.fraction t.nanos).toList ++ " UTC".toList ≠ [] by simp)
  refine ⟨c, cs, ?_⟩
  rw [DateTime.display, String.toList_append, String.toList_append, List.append_assoc, h]

/-- **As texts, a clock second is at or after a time exactly when it is a later second.** -/
theorem display_le_iff [LawfulClock Text] {t : DateTime} {n : Int} (hn : firstSecond ≤ n)
    (hn' : n ≤ lastSecond) (ht : t.secs ≤ lastSecond) :
    t.display Text ≤ Codec.dateTimeText Text n ↔ t.secs < n := by
  obtain ⟨c, cs, hdisplay⟩ := @display_toList Text _ t
  have hle : t.display Text ≤ Codec.dateTimeText Text n
      ↔ ¬ (Codec.dateTimeText Text n).toList < (t.display Text).toList := Iff.rfl
  rw [hle, hdisplay]
  rcases Int.lt_or_le t.secs firstSecond with hbefore | hrange
  · -- a sign is below every digit
    obtain ⟨ds, hds⟩ := @LawfulClock.sign Text _ _ t.secs hbefore
    obtain ⟨d, es, hes, hdigit⟩ := @LawfulClock.digit Text _ _ n hn hn'
    refine ⟨fun _ => Int.lt_of_lt_of_le hbefore hn, fun _ => ?_⟩
    have hlow : '-' < d := by
      rw [Char.lt_def, UInt32.lt_iff_toNat_lt]
      exact Nat.lt_of_lt_of_le (by decide) (Char.isDigit_iff_toNat.mp hdigit).1
    rw [hds, hes]
    exact List.lt_asymm (List.cons_lt_cons_iff.mpr (.inl hlow))
  · have hlen : ∀ m, firstSecond ≤ m → m ≤ lastSecond →
        (Codec.dateTimeText Text m).toList.length = 19 := LawfulClock.width
    rcases Int.lt_trichotomy t.secs n with hlt | heq | hgt
    · refine ⟨fun _ => hlt, fun _ h => ?_⟩
      have hmono := @LawfulClock.mono Text _ _ t.secs n hrange hn' hlt
      have happ := Lib.append_lt_append (c :: cs) [] (by rw [hlen _ hrange ht, hlen _ hn hn']) hmono
      rw [List.append_nil] at happ
      exact absurd h (List.lt_asymm happ)
    · refine ⟨fun h => absurd ?_ h, fun h => absurd h (by omega)⟩
      rw [heq]
      have happ : (Codec.dateTimeText Text n).toList ++ []
          < (Codec.dateTimeText Text n).toList ++ c :: cs :=
        List.append_left_lt (List.nil_lt_cons c cs)
      rwa [List.append_nil] at happ
    · refine ⟨fun h => absurd ?_ h, fun h => absurd h (by omega)⟩
      have hmono := @LawfulClock.mono Text _ _ n t.secs hn ht hgt
      have happ := Lib.append_lt_append [] (c :: cs) (by rw [hlen _ hrange ht, hlen _ hn hn']) hmono
      rwa [List.append_nil] at happ

/-! ## The ledger -/

/-- When a row came to hold what it holds. -/
structure Stamp where
  /-- The second in which the row was inserted. -/
  insertedAt : Int
  /-- The second in which its version was accepted. -/
  acceptedAt : Int
  premint : PremintTypes
  deriving DecidableEq

/-- A store, with the stamps of its rows. -/
structure Ledger (Text : Type) where
  store : PremintStorage Text
  stamp : String × String → Option Stamp

namespace Ledger

variable [Alloy]

def new (prune : Bool) : Ledger Text := ⟨.new prune, fun _ => none⟩

/-- The stamp after an accepted premint. -/
def accept (l : Ledger Text) (now : Int) (p : PremintTypes) : Stamp where
  insertedAt :=
    match l.store.table.lookup (premintKey p), l.stamp (premintKey p) with
    | some _, some stamp => stamp.insertedAt
    | _, _ => now
  acceptedAt := now
  premint := p

def call (l : Ledger Text) : Write → Ledger Text
  | .store now p =>
    match l.store.store now p with
    | (.ok _, store) =>
      ⟨store, Function.update l.stamp (premintKey p) (some (l.accept now p))⟩
    | (.error _, store) => ⟨store, l.stamp⟩
  | .markSeenOnChain claim => ⟨l.store.markSeenOnChain claim, l.stamp⟩

variable {l : Ledger Text}

theorem call_of_refused {now : Int} {p : PremintTypes} (h : Refused l.store p) :
    l.call (.store now p) = l := by
  rw [call, store_of_refused now h]

theorem call_of_not_refused {now : Int} {p : PremintTypes} (h : ¬ Refused l.store p) :
    l.call (.store now p) = ⟨(l.store.store now p).2,
      Function.update l.stamp (premintKey p) (some (l.accept now p))⟩ := by
  have hok := store_of_not_refused now h
  rw [call]
  cases hs : l.store.store now p with
  | mk result store =>
      rw [hs] at hok
      cases hok
      rfl

end Ledger

/-- The stamp tells what the row says, and its seconds are ones a clock can show. -/
structure Dated (r : Row Text) (stamp : Stamp) : Prop where
  json : r.json = stamp.premint.toJson
  created : r.createdAt = Codec.dateTimeText Text stamp.insertedAt
  insertedFrom : firstSecond ≤ stamp.insertedAt
  insertedTo : stamp.insertedAt ≤ lastSecond
  acceptedTo : stamp.acceptedAt ≤ lastSecond

/-- Every row is stamped. -/
def AllDated [Alloy] (l : Ledger Text) : Prop := ∀ k r, l.store.table.lookup k = some r →
  ∃ stamp, l.stamp k = some stamp ∧ premintKey stamp.premint = k ∧ Dated r stamp

/-- The clock of the call shows a year of four digits. -/
def OnClock : Write → Prop
  | .store now _ => firstSecond ≤ now ∧ now ≤ lastSecond
  | .markSeenOnChain _ => True

section Calls

variable [Alloy]

theorem allDated_new (prune : Bool) : AllDated (Ledger.new prune : Ledger Text) := by
  intro k r hr
  nomatch hr

/-- **Preserved by every call.** -/
theorem allDated_call {l : Ledger Text} {w : Write} (hw : OnClock w) (h : AllDated l) :
    AllDated (l.call w) := by
  intro k r hr
  cases w with
  | markSeenOnChain claim =>
      obtain ⟨r₀, hr₀, rfl | rfl⟩ := lookup_of_lookup_mark hr
      · exact h k _ hr₀
      · obtain ⟨stamp, hstamp, hkey, hd⟩ := h k r₀ hr₀
        exact ⟨stamp, hstamp, hkey, ⟨hd.json, hd.created, hd.insertedFrom, hd.insertedTo,
          hd.acceptedTo⟩⟩
  | store now p =>
      by_cases href : Refused l.store p
      · rw [Ledger.call_of_refused href] at hr ⊢
        exact h k r hr
      rw [Ledger.call_of_not_refused href] at hr ⊢
      by_cases hk : k = premintKey p
      · subst hk
        refine ⟨l.accept now p, Function.update_self .., rfl, ?_⟩
        rcases store_self_cases l.store now p with ⟨hnone, hnew⟩ | ⟨old, hold, _, hup⟩ | ⟨hr', _⟩
        · cases hnew.symm.trans hr
          have hinserted : (l.accept now p).insertedAt = now := by rw [Ledger.accept, hnone]
          exact ⟨rfl, by rw [hinserted]; rfl, by rw [hinserted]; exact hw.1,
            by rw [hinserted]; exact hw.2, hw.2⟩
        · cases hup.symm.trans hr
          -- an upgrade keeps the column, and the ledger the second
          obtain ⟨stamp, hstamp, _, hd⟩ := h _ old hold
          have hinserted : (l.accept now p).insertedAt = stamp.insertedAt := by
            rw [Ledger.accept, hold, hstamp]
          exact ⟨rfl, by rw [hinserted]; exact hd.created, by rw [hinserted]; exact hd.insertedFrom,
            by rw [hinserted]; exact hd.insertedTo, hw.2⟩
        · exact absurd hr' href
      · rw [show (Ledger.mk (l.store.store now p).2 _ : Ledger Text).store
          = (l.store.store now p).2 from rfl, lookup_store_of_ne hk] at hr
        obtain ⟨stamp, hstamp, hkey, hd⟩ := h k r hr
        exact ⟨stamp, (Function.update_of_ne hk _ _).trans hstamp, hkey, hd⟩

theorem allDated_calls (prune : Bool) {ws : List Write} (hws : ∀ w ∈ ws, OnClock w) :
    AllDated (ws.foldl Ledger.call (Ledger.new prune : Ledger Text)) := by
  exact Lib.foldl_invariant (fun _ w hw h => allDated_call (hws w hw) h) (allDated_new prune)

/-! ## The answer -/

variable {l : Ledger Text} {t : DateTime}

theorem buildQuery_from (r : Row Text) : buildQuery { «from» := some t } r = true
    ↔ r.seenOnChain = false ∧ t.display Text ≤ r.createdAt := by
  simp [buildQuery, pushEq]

/-- **The answer has an accepted version exactly when its row was inserted later.** -/
theorem mem_answer_iff [LawfulCodec Text] [LawfulClock Text] (c : Controller Text)
    (h : AllDated l) {r : Row Text} (hr : r ∈ l.store.table.rows) (hunseen : r.seenOnChain = false)
    {stamp : Stamp} (hstamp : l.stamp r.key = some stamp) (ht : t.secs < stamp.acceptedAt) :
    stamp.premint ∈ ({ c with store := l.store } : Controller Text).answerSyncRequest
        { «from» := some t }
      ↔ t.secs < stamp.insertedAt := by
  have hdated : ∀ r ∈ l.store.table.rows, ∃ stamp, l.stamp r.key = some stamp
      ∧ premintKey stamp.premint = r.key ∧ Dated r stamp :=
    fun r hr => h r.key r (Lib.KeyedTable.mem_iff_lookup.mp hr)
  obtain ⟨stamp', hstamp', hkey, hd⟩ := hdated r hr
  cases hstamp.symm.trans hstamp'
  have hrange : t.secs ≤ lastSecond := Int.le_of_lt (Int.lt_of_lt_of_le ht hd.acceptedTo)
  rw [← @display_le_iff Text _ _ t _ hd.insertedFrom hd.insertedTo hrange, ← hd.created]
  rw [Controller.answerSyncRequest, listAllWithOptions, mem_decodeRows_iff]
  constructor
  · rintro ⟨r', hr', hjson⟩
    obtain ⟨hmem, hquery⟩ := List.mem_filter.mp hr'
    -- the row that decodes to this premint is the row of its key
    obtain ⟨stamp', _, hkey', hd'⟩ := hdated r' hmem
    rw [hd'.json, PremintTypes.fromJson_toJson] at hjson
    have hsame : r' = r := Lib.KeyedTable.eq_of_key_eq hmem hr (by
      rw [← hkey', ← hkey, Except.ok.inj hjson])
    rw [← hsame]
    exact ((buildQuery_from r').mp hquery).2
  · intro hle
    refine ⟨r, List.mem_filter.mpr ⟨hr, (buildQuery_from r).mpr ⟨hunseen, hle⟩⟩, ?_⟩
    rw [hd.json, PremintTypes.fromJson_toJson]

/-- Every unseen version that was accepted after the second of `t` is in the answer. -/
def CatchesUp (c : Controller Text) (l : Ledger Text) (t : DateTime) : Prop :=
  ∀ r ∈ l.store.table.rows, r.seenOnChain = false →
    ∀ stamp, l.stamp r.key = some stamp → t.secs < stamp.acceptedAt →
      stamp.premint ∈ ({ c with store := l.store } : Controller Text).answerSyncRequest
        { «from» := some t }

/-- No unseen version accepted after the second of `t` upgrades a row from before. -/
def NoneUpgradedAcross (l : Ledger Text) (t : DateTime) : Prop :=
  ∀ r ∈ l.store.table.rows, r.seenOnChain = false →
    ∀ stamp, l.stamp r.key = some stamp → t.secs < stamp.acceptedAt → t.secs < stamp.insertedAt

/--
**Exactly when a node catches up.** After any calls of `store` and `mark_seen_on_chain`, and
for every time, the answer has all that was accepted since exactly when nothing was upgraded
across that time.
-/
theorem catchesUp_iff [LawfulCodec Text] [LawfulClock Text] (c : Controller Text) (prune : Bool)
    {ws : List Write} (hws : ∀ w ∈ ws, OnClock w) (t : DateTime) :
    CatchesUp c (ws.foldl Ledger.call (Ledger.new prune)) t
      ↔ NoneUpgradedAcross (ws.foldl Ledger.call (Ledger.new prune : Ledger Text)) t := by
  have h := @allDated_calls Text _ _ prune ws hws
  constructor
  · intro hc r hr hunseen stamp hstamp ht
    exact (mem_answer_iff c h hr hunseen hstamp ht).mp (hc r hr hunseen stamp hstamp ht)
  · intro hn r hr hunseen stamp hstamp ht
    exact (mem_answer_iff c h hr hunseen hstamp ht).mpr (hn r hr hunseen stamp hstamp ht)

end Calls

end CatchUp

/-! ## Examples -/

section Examples

attribute [local instance] Sample.alloy Sample.libp2p Sample.unicode

/-- A premint is stored, and upgraded twenty seconds later. -/
def upgradedLater : List Write :=
  [.store 10 (.zoraV2 (Sample.validVersion 1)), .store 30 (.zoraV2 (Sample.validVersion 2))]

theorem upgradedLater_onClock : ∀ w ∈ upgradedLater, OnClock w := by
  intro w hw
  simp only [upgradedLater, List.mem_cons, List.not_mem_nil, or_false] at hw
  rcases hw with rfl | rfl <;> exact ⟨by decide, by decide⟩

/-- The row that is left, inserted in second 10. -/
def upgradedRow : Row Wire :=
  upgradeRow (newRow 30 (.zoraV2 (Sample.validVersion 2)))
    (newRow 10 (.zoraV2 (Sample.validVersion 1)))

/-- Asked for everything from half way in between, the node leaves the upgrade out. -/
theorem upgrade_not_in_answer : (∀ w ∈ upgradedLater, OnClock w)
    ∧ ¬ CatchesUp (Sample.node {}) (upgradedLater.foldl Ledger.call (Ledger.new false))
      ⟨20, 0⟩ := by
  refine ⟨upgradedLater_onClock, fun h => ?_⟩
  have hrows : (upgradedLater.foldl Ledger.call (Ledger.new false)).store.table.rows
      = [upgradedRow] := by decide +kernel
  have hstamp : (upgradedLater.foldl Ledger.call (Ledger.new false : Ledger Wire)).stamp
      upgradedRow.key = some ⟨10, 30, .zoraV2 (Sample.validVersion 2)⟩ := by decide +kernel
  have hanswer : ({ Sample.node {} with
        store := (upgradedLater.foldl Ledger.call (Ledger.new false)).store } :
      Controller Wire).answerSyncRequest { «from» := some ⟨20, 0⟩ } = [] := by decide +kernel
  have hmem := h upgradedRow (by rw [hrows]; exact List.mem_singleton_self _) (by decide +kernel)
    _ hstamp (by decide)
  rw [hanswer] at hmem
  exact absurd hmem (by simp)

/-- Asked for everything from before both, it has it. -/
theorem upgrade_in_answer :
    CatchesUp (Sample.node {}) (upgradedLater.foldl Ledger.call (Ledger.new false)) ⟨5, 0⟩ := by
  refine (catchesUp_iff (Sample.node {}) false upgradedLater_onClock ⟨5, 0⟩).mpr ?_
  intro r hr hunseen stamp hstamp _
  have hrows : (upgradedLater.foldl Ledger.call (Ledger.new false)).store.table.rows
      = [upgradedRow] := by decide +kernel
  have hupgraded : (upgradedLater.foldl Ledger.call (Ledger.new false : Ledger Wire)).stamp
      upgradedRow.key = some ⟨10, 30, .zoraV2 (Sample.validVersion 2)⟩ := by decide +kernel
  rw [hrows, List.mem_singleton] at hr
  rw [hr, hupgraded] at hstamp
  cases hstamp
  decide

end Examples

end Mintpool.Proof
