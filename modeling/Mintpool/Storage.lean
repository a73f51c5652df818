import Mintpool.Codec
import Mintpool.Lib.KeyedTable

/-!
# The premints table

`PremintStorage` is one SQLite table and a flag. The table's primary key is
`(kind, id)`, and each method below is one statement against it.

The upsert has two branches that do not write the same columns: an insert fills the
whole row, while the update after a conflict writes `version` and `json` only.
-/

namespace Mintpool

variable {Text : Type}

/-- A row of `premints`. -/
structure Row (Text : Type) where
  id : String
  kind : String
  version : Int64
  signer : String
  chainId : Int64
  collectionAddress : String
  tokenId : String
  tokenUri : String
  json : Text
  seenOnChain : Bool := false
  createdAt : String
  deriving DecidableEq, Repr

/-- `PRIMARY KEY (kind, id)` -/
def Row.key (r : Row Text) : String × String := (r.kind, r.id)

abbrev Table (Text : Type) := Lib.KeyedTable (Row Text) Row.key

structure PremintStorage (Text : Type) where
  table : Table Text
  pruneMintedPremints : Bool

namespace PremintStorage

/-- The storage over a new database. -/
def new (pruneMintedPremints : Bool) : PremintStorage Text :=
  ⟨Lib.KeyedTable.empty, pruneMintedPremints⟩

/-- Cloning leaves pruning to the original. -/
def clone (s : PremintStorage Text) : PremintStorage Text := { s with pruneMintedPremints := false }

/-! ## `Writer` -/

/-- `DO UPDATE SET version = $3, json = $9` -/
def upgradeRow (excluded old : Row Text) : Row Text :=
  { old with version := excluded.version, json := excluded.json }

theorem upgradeRow_key (excluded old : Row Text) : (upgradeRow excluded old).key = old.key := rfl

section Writer

variable [Alloy] [Codec Text]

/-- The row that `store` inserts at second `now`. -/
def newRow (now : Int) (premint : PremintTypes) : Row Text :=
  let metadata := premint.metadata
  { id := metadata.id
    kind := metadata.kind.name
    version := metadata.version.toInt64
    signer := metadata.signer.toChecksum
    chainId := metadata.chainId.toInt64
    collectionAddress := metadata.collectionAddress.toChecksum
    tokenId := metadata.tokenId.toNat.repr
    tokenUri := metadata.uri
    json := premint.toJson
    createdAt := Codec.dateTimeText Text now }

/-- Insert the premint, or upgrade the row that has its kind and id. -/
def store (s : PremintStorage Text) (now : Int) (premint : PremintTypes) :
    Except Report Unit × PremintStorage Text :=
  let excluded := newRow now premint
  let (rowsAffected, table) := s.table.upsert excluded
    (fun old => excluded.version > old.version) (upgradeRow excluded) (upgradeRow_key excluded)
  if rowsAffected = 0 then
    (.error (.msg "Cannot store premint with lower version than existing"), { s with table })
  else (.ok (), { s with table })

end Writer

/-- `WHERE id = ? AND chain_id = ? AND kind = ?` -/
def claimMatches (claim : InclusionClaim) (r : Row Text) : Bool :=
  r.id = claim.premintId && r.chainId = claim.chainId.toInt64 && r.kind = claim.kind

def markRow (r : Row Text) : Row Text := { r with seenOnChain := true }

theorem markRow_key (r : Row Text) : (markRow r).key = r.key := rfl

def markSeenOnChain (s : PremintStorage Text) (claim : InclusionClaim) : PremintStorage Text :=
  if s.pruneMintedPremints then
    { s with table := s.table.deleteWhere (claimMatches claim) }
  else
    { s with table := s.table.updateWhere (claimMatches claim) markRow markRow_key }

/-! ## `Reader` -/

section Reader

variable [Codec Text]

/-- The rows that decode; a row that does not is skipped with a warning. -/
def decodeRows (rows : List (Row Text)) : List PremintTypes :=
  rows.filterMap (fun r => (PremintTypes.fromJson r.json).toOption)

def listAll (s : PremintStorage Text) : List PremintTypes :=
  decodeRows (s.table.rows.filter (fun r => !r.seenOnChain))

/-- `fetch_one`, then decode. -/
def decodeOne (row : Option (Row Text)) : Except Report PremintTypes :=
  match row with
  | none => .error .rowNotFound
  | some r => PremintTypes.fromJson r.json

def getForIdAndKind (s : PremintStorage Text) (id : String) (kind : PremintName) :
    Except Report PremintTypes :=
  decodeOne (s.table.lookup (kind.name, id))

def getForTokenUri (s : PremintStorage Text) (uri : String) : Except Report PremintTypes :=
  decodeOne (s.table.rows.find? (fun r => r.tokenUri = uri))

end Reader

end PremintStorage

/-! ## Queries -/

structure QueryOptions where
  chainId : Option UInt64 := none
  kind : Option String := none
  collectionAddress : Option Address := none
  creatorAddress : Option Address := none
  «from» : Option DateTime := none
  «to» : Option DateTime := none
  deriving DecidableEq, Repr

section Query

variable [Alloy] [Codec Text]

/-- `AND column = bind`, when the option is given. -/
def pushEq {α β : Type} [DecidableEq β] (option : Option α) (bind : α → β) (column : β) : Bool :=
  match option with
  | none => true
  | some x => column = bind x

/-- The condition that `build_query` puts together. -/
def buildQuery (options : QueryOptions) (r : Row Text) : Bool :=
  !r.seenOnChain
    && pushEq options.kind id r.kind
    && pushEq options.chainId UInt64.toInt64 r.chainId
    && pushEq options.collectionAddress Address.toChecksum r.collectionAddress
    && pushEq options.creatorAddress Address.toChecksum r.signer
    && (match options.from with
        | none => true
        | some t => t.display Text ≤ r.createdAt)
    && (match options.to with
        | none => true
        | some t => r.createdAt ≤ t.display Text)

namespace PremintStorage

/-- The rows come in the order of insertion here. The query has no `ORDER BY`, so which order
they come in is up to the database. -/
def listAllWithOptions (s : PremintStorage Text) (options : QueryOptions) : List PremintTypes :=
  decodeRows (s.table.rows.filter (buildQuery options))

/-- Which row of several is fetched is up to the database; here it is the first. -/
def getOne (s : PremintStorage Text) (options : QueryOptions) : Except Report PremintTypes :=
  decodeOne (s.table.rows.find? (buildQuery options))

end PremintStorage

end Query

end Mintpool
