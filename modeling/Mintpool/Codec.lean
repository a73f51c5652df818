import Mintpool.Lib.Digits
import Mintpool.PremintTypes

/-!
# Premints and claims as text

`to_json` and `from_json` are `serde_json` over derived implementations, whose code
is not in the repository. The text they produce — the body of a gossip message, the
`json` column of a row — is a type parameter, and the class says what the code
relies on: reading undoes writing, an externally tagged enum is an object whose one
key names the variant, and a derived struct is an object with one key per field.
-/

namespace Mintpool

/-- A UTC instant, to the nanosecond. -/
structure DateTime where
  /-- Seconds since the epoch. -/
  secs : Int
  nanos : Fin 1000000000
  deriving DecidableEq, Repr

/-- The serde variant name of a premint type, `rename_all = "camelCase"`. -/
def PremintTypes.tag : PremintTypes → String
  | simple _ => "simple"
  | zoraV2 _ => "zoraV2"
  | zoraERC20V1 _ => "zoraERC20V1"

/-- The textual encodings. -/
class Codec (Text : Type) where
  premintToJson : PremintTypes → Text
  premintFromJson : Text → Except String PremintTypes
  claimToJson : InclusionClaim → Text
  claimFromJson : Text → Except String InclusionClaim
  /-- The keys of a text that is a JSON object, in order. -/
  objectKeys : Text → Option (List String)
  /-- A text as a string, `String::from_utf8_lossy`. -/
  asString : Text → String
  /-- `YYYY-MM-DD HH:MM:SS` of a second since the epoch: what SQLite's
  `CURRENT_TIMESTAMP` writes, and what chrono prints of the date and time. -/
  dateTimeText : Int → String

/-- The documented behaviour of the encodings. -/
class LawfulCodec (Text : Type) [Codec Text] : Prop where
  premint_roundtrip : ∀ p : PremintTypes,
    Codec.premintFromJson (Codec.premintToJson p : Text) = .ok p
  claim_roundtrip : ∀ c : InclusionClaim,
    Codec.claimFromJson (Codec.claimToJson c : Text) = .ok c
  /-- An externally tagged enum is an object with the variant's name as its only key. -/
  premint_keys : ∀ (t : Text) (p : PremintTypes),
    Codec.premintFromJson t = .ok p → Codec.objectKeys t = some [p.tag]
  /-- A derived struct is an object with its fields as keys. -/
  claim_keys : ∀ c : InclusionClaim, Codec.objectKeys (Codec.claimToJson c : Text)
    = some ["premint_id", "chain_id", "tx_hash", "log_index", "kind"]

/-- The first second of the year 0. -/
def firstSecond : Int := -62167219200

/-- The last second of the year 9999. -/
def lastSecond : Int := 253402300799

/-- The documented behaviour of the clock texts. -/
class LawfulClock (Text : Type) [Codec Text] : Prop where
  /-- Years of four digits give texts of one width. -/
  width : ∀ n : Int, firstSecond ≤ n → n ≤ lastSecond →
    (Codec.dateTimeText Text n).toList.length = 19
  /-- Within them, later is greater. -/
  mono : ∀ m n : Int, firstSecond ≤ m → n ≤ lastSecond → m < n →
    Codec.dateTimeText Text m < Codec.dateTimeText Text n
  /-- They start with a digit, and a year before them with a sign. -/
  digit : ∀ n : Int, firstSecond ≤ n → n ≤ lastSecond →
    ∃ c cs, (Codec.dateTimeText Text n).toList = c :: cs ∧ c.isDigit
  sign : ∀ n : Int, n < firstSecond → ∃ cs, (Codec.dateTimeText Text n).toList = '-' :: cs

/-- A year of more than four digits has a sign as well. -/
class LawfulLateClock (Text : Type) [Codec Text] : Prop where
  plus : ∀ n : Int, lastSecond < n → ∃ cs, (Codec.dateTimeText Text n).toList = '+' :: cs

namespace PremintTypes

variable {Text : Type} [Codec Text]

/-- `serde_json::to_string` has no failing case on these types. -/
def toJson (p : PremintTypes) : Text := Codec.premintToJson p

def fromJson (line : Text) : Except Report PremintTypes :=
  (Codec.premintFromJson line).mapError .msg

@[simp] theorem fromJson_toJson [LawfulCodec Text] (p : PremintTypes) :
    fromJson (p.toJson : Text) = .ok p := by
  rw [fromJson, toJson, LawfulCodec.premint_roundtrip]
  rfl

theorem fromJson_ne_rowNotFound (t : Text) : fromJson t ≠ .error .rowNotFound := by
  rw [fromJson]
  cases Codec.premintFromJson t with
  | error e => simp [Except.mapError]
  | ok p => simp [Except.mapError]

/-- **A claim is never mistaken for a premint.** -/
theorem fromJson_claim [LawfulCodec Text] (c : InclusionClaim) :
    ∃ e, fromJson (Codec.claimToJson c : Text) = .error e := by
  rw [fromJson]
  cases h : Codec.premintFromJson (Codec.claimToJson c : Text) with
  | error e => exact ⟨.msg e, rfl⟩
  | ok p =>
      have hkeys := LawfulCodec.premint_keys _ p h
      rw [LawfulCodec.claim_keys c] at hkeys
      simp at hkeys

end PremintTypes

namespace DateTime

variable {Text : Type} [Codec Text]

/-- The fraction chrono prints after the seconds: none, milli, micro or nano. -/
def fraction (nanos : Nat) : String :=
  let pad (width n : Nat) : String :=
    "." ++ String.ofList (List.replicate (width - n.repr.length) '0') ++ n.repr
  if nanos = 0 then ""
  else if nanos % 1000000 = 0 then pad 3 (nanos / 1000000)
  else if nanos % 1000 = 0 then pad 6 (nanos / 1000)
  else pad 9 nanos

/-- `Display` of `chrono::DateTime<Utc>`. -/
def display (Text : Type) [Codec Text] (t : DateTime) : String :=
  Codec.dateTimeText Text t.secs ++ fraction t.nanos ++ " UTC"

end DateTime

/-! ## A codec to evaluate with -/

/-- Text by what it spells. -/
inductive Wire where
  | premint (p : PremintTypes)
  | claim (c : InclusionClaim)
  | other (s : String)
  deriving DecidableEq, Repr

instance : Codec Wire where
  premintToJson := .premint
  premintFromJson
    | .premint p => .ok p
    | _ => .error "unknown variant"
  claimToJson := .claim
  claimFromJson
    | .claim c => .ok c
    | _ => .error "missing field"
  objectKeys
    | .premint p => some [p.tag]
    | .claim _ => some ["premint_id", "chain_id", "tx_hash", "log_index", "kind"]
    | .other _ => none
  asString
    | .premint p => p.metadata.id
    | .claim c => c.premintId
    | .other s => s
  dateTimeText n :=
    if n < firstSecond then "-"
    else if lastSecond < n then "+"
    else String.ofList (Lib.hexChars 19 (n - firstSecond).toNat)

instance : LawfulCodec Wire where
  premint_roundtrip _ := rfl
  claim_roundtrip _ := rfl
  premint_keys t p h := by
    cases t with
    | premint q => cases h; rfl
    | claim c => cases h
    | other s => cases h
  claim_keys _ := rfl

theorem Wire.dateTimeText_eq {n : Int} (hn : firstSecond ≤ n) (hn' : n ≤ lastSecond) :
    (Codec.dateTimeText Wire n).toList = Lib.hexChars 19 (n - firstSecond).toNat := by
  show (if n < firstSecond then "-" else if lastSecond < n then "+" else String.ofList _).toList = _
  rw [if_neg (Int.not_lt.mpr hn), if_neg (Int.not_lt.mpr hn'), String.toList_ofList]

instance : LawfulClock Wire where
  width n hn hn' := by rw [Wire.dateTimeText_eq hn hn', Lib.length_hexChars]
  mono m n hm hn hlt := by
    show (Codec.dateTimeText Wire m).toList < (Codec.dateTimeText Wire n).toList
    rw [Wire.dateTimeText_eq hm (Int.le_trans (Int.le_of_lt hlt) hn),
      Wire.dateTimeText_eq (Int.le_trans hm (Int.le_of_lt hlt)) hn]
    unfold lastSecond at hn
    unfold firstSecond at hm ⊢
    exact Lib.hexChars_lt (by omega) (by omega)
  digit n hn hn' := by
    rw [Wire.dateTimeText_eq hn hn']
    unfold lastSecond at hn'
    unfold firstSecond at hn ⊢
    exact ⟨'0', _, Lib.hexChars_succ_of_lt (by omega), rfl⟩
  sign n hn := by
    refine ⟨[], ?_⟩
    show (if n < firstSecond then "-" else if lastSecond < n then "+"
      else String.ofList _).toList = _
    rw [if_pos hn]
    rfl

instance : LawfulLateClock Wire where
  plus n hn := by
    have hfirst : ¬ n < firstSecond := by
      unfold lastSecond at hn
      unfold firstSecond
      omega
    refine ⟨[], ?_⟩
    show (if n < firstSecond then "-" else if lastSecond < n then "+"
      else String.ofList _).toList = _
    rw [if_neg hfirst, if_pos hn]
    rfl

end Mintpool
