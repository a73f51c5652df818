import Mintpool.ChainList
import Mintpool.Storage

/-!
# The rules engine

A rule looks at a premint and its context and answers with an `Evaluation`, or
fails. The engine collects every rule's answer; `Results` decides. `is_accept` is
the negation of `is_reject`, and `is_reject` is false as soon as any rule failed.

`evaluate` reads the store twice, once for the row the premint would replace and
once inside the token-uri rule. The two reads are separate awaits, so they are kept
as separate definitions here: `readExisting` and `checkRules`.
-/

namespace Mintpool

inductive Evaluation where
  | accept
  | ignore (reason : String)
  | reject (reason : String)
  deriving DecidableEq, Repr

namespace Evaluation

def variant : Evaluation → String
  | accept => "accept"
  | ignore _ => "ignore"
  | reject _ => "reject"

def reason : Evaluation → Option String
  | ignore reason | reject reason => some reason
  | accept => none

/-- `matches!(e, Evaluation::Reject(_))` -/
def isReject : Evaluation → Bool
  | reject _ => true
  | _ => false

end Evaluation

structure RuleResult where
  ruleName : String
  result : Except Report Evaluation

namespace RuleResult

def isErr (r : RuleResult) : Bool :=
  match r.result with
  | .error _ => true
  | .ok _ => false

/-- `matches!(r.result, Ok(Evaluation::Reject(_)))` -/
def isReject (r : RuleResult) : Bool :=
  match r.result with
  | .error _ => false
  | .ok e => e.isReject

/-- A clone keeps only the text of an error. -/
def clone (r : RuleResult) : RuleResult :=
  { r with result := r.result.mapError (fun e => .msg e.text) }

end RuleResult

/-- `Results(Vec<RuleResult>)` -/
structure Results where
  results : List RuleResult

namespace Results

def isErr (r : Results) : Bool := r.results.any RuleResult.isErr

def isReject (r : Results) : Bool := !r.isErr && r.results.any RuleResult.isReject

def isAccept (r : Results) : Bool := !r.isReject

def onlyFailures (r : Results) : Results :=
  ⟨(r.results.filter (fun r => r.isErr || r.isReject)).map RuleResult.clone⟩

end Results

structure RuleContext (Text : Type) where
  storage : PremintStorage Text
  existing : Option PremintTypes
  rpc : Option Provider

structure Rule (Text : Type) where
  ruleName : String
  check : PremintTypes → RuleContext Text → Except Report Evaluation

variable {Text : Type}

/-- `metadata_rule!` -/
def metadataRule (fnName : String)
    (fn : PremintMetadata → RuleContext Text → Except Report Evaluation) : Rule Text where
  ruleName := "Metadata::" ++ fnName
  check item context := fn item.metadata context

/-- `typed_rule!`; `select` is the match on the enum variant. -/
def typedRule {α : Type} (variant fnName : String) (select : PremintTypes → Option α)
    (fn : α → RuleContext Text → Except Report Evaluation) : Rule Text where
  ruleName := variant ++ "::" ++ fnName
  check item context :=
    match select item with
    | some premint => fn premint context
    | none => .ok (.ignore "Wrong type")

structure RulesEngine (Text : Type) where
  rules : List (Rule Text)
  useRpc : Bool

namespace RulesEngine

variable [Codec Text]

/-- The first read of `evaluate`: the premint this one would replace. -/
def readExisting (store : PremintStorage Text) (item : PremintTypes) :
    Except Report (Option PremintTypes) :=
  match store.getForIdAndKind item.metadata.id item.metadata.kind with
  | .ok existing => .ok (some existing)
  | .error .rowNotFound => .ok none
  | .error report => .error report

/-- The provider the context carries, if RPC is used at all. -/
def contextRpc (engine : RulesEngine Text) (chains : Chains) (metadata : PremintMetadata) :
    Option Provider :=
  if engine.useRpc && metadata.chainId != 0 then
    (chains.getRpc metadata.chainId).toOption
  else none

/-- The rest of `evaluate`: every rule's answer in the context. -/
def checkRules (engine : RulesEngine Text) (chains : Chains) (item : PremintTypes)
    (store : PremintStorage Text) (existing : Option PremintTypes) : Results :=
  let context : RuleContext Text :=
    { storage := store, existing, rpc := engine.contextRpc chains item.metadata }
  ⟨engine.rules.map (fun rule => ⟨rule.ruleName, rule.check item context⟩)⟩

def evaluate (engine : RulesEngine Text) (chains : Chains) (item : PremintTypes)
    (store : PremintStorage Text) : Except Report Results := do
  let existing ← readExisting store item
  return engine.checkRules chains item store existing

end RulesEngine

/-! ## General rules -/

namespace General

def tokenUriLength (metadata : PremintMetadata) (_context : RuleContext Text) :
    Except Report Evaluation :=
  let maxAllowed :=
    -- allow some more data for data uris
    if "data:".toList.isPrefixOf metadata.uri.toList then 8 * 1024 else 2 * 1024
  let len := metadata.uri.utf8ByteSize
  if len = 0 then .ok (.reject "Token URI is empty")
  else if len > maxAllowed then
    .ok (.reject ("Token URI is too long: " ++ len.repr ++ " > " ++ maxAllowed.repr))
  else .ok .accept

def existingTokenUri [Codec Text] (metadata : PremintMetadata) (context : RuleContext Text) :
    Except Report Evaluation :=
  match context.storage.getForTokenUri metadata.uri with
  | .error .rowNotFound => .ok .accept
  | .error report => .error report
  | .ok existing =>
      -- another version of the same token may keep its uri
      if existing.metadata.id = metadata.id then .ok .accept
      else .ok (.reject "Token URI already exists")

def signerMatches (metadata : PremintMetadata) (context : RuleContext Text) :
    Except Report Evaluation :=
  match context.existing with
  | none => .ok (.ignore "No existing premint")
  | some existing =>
      if existing.metadata.signer = metadata.signer then .ok .accept
      else .ok (.reject "Signer does not match")

def versionIsHigher (metadata : PremintMetadata) (context : RuleContext Text) :
    Except Report Evaluation :=
  match context.existing with
  | none => .ok (.ignore "No existing premint")
  | some existing =>
      if metadata.version > existing.metadata.version then .ok .accept
      else .ok (.reject ("Existing premint with version "
        ++ existing.metadata.version.toNat.repr ++ " exists, trying to store version "
        ++ metadata.version.toNat.repr))

def allRules [Codec Text] : List (Rule Text) := [
  metadataRule "token_uri_length" tokenUriLength,
  metadataRule "existing_token_uri" existingTokenUri,
  metadataRule "signer_matches" signerMatches,
  metadataRule "version_is_higher" versionIsHigher]

end General

/-! ## Zora rules -/

namespace ZoraPremint

variable {Config : Type} [Namespace Config]

def isAuthorizedToCreatePremint (premint : ZoraPremint Config) (context : RuleContext Text) :
    Except Report Evaluation :=
  match context.rpc with
  | none => .ok (.ignore "Rule requires RPC call")
  | some rpc => do
      let isAuthorized ← rpc.isAuthorizedToCreatePremint premint.collectionAddress
        premint.collection.contractAdmin premint.collection.contractAdmin
      if isAuthorized then return .accept
      else return .reject "Unauthorized to create premint"

def notMinted (premint : ZoraPremint Config) (context : RuleContext Text) :
    Except Report Evaluation :=
  match context.rpc with
  | none => .ok (.ignore "Rule requires RPC provider")
  | some rpc => do
      let (contractCreated, tokenIdForPremint) ←
        rpc.premintStatus premint.collectionAddress premint.premint.uid
      if contractCreated && tokenIdForPremint != 0 then return .reject "Premint already minted"
      else return .accept

def premintVersionSupported (premint : ZoraPremint Config) (context : RuleContext Text) :
    Except Report Evaluation :=
  match context.rpc with
  | none => .ok (.ignore "Rule requires RPC provider")
  | some rpc => do
      let versions ← rpc.supportedPremintSignatureVersions premint.collectionAddress
      if versions.contains (Namespace.version Config) then return .accept
      else return .reject ("Premint version " ++ Namespace.version Config
        ++ " not supported by contract")

def isValidSignature [Alloy] (premint : ZoraPremint Config) (_context : RuleContext Text) :
    Except Report Evaluation := do
  let signature ← Alloy.signatureFromStr premint.signature
  let hash := Namespace.signingHash premint.eip712Domain premint.premint
  let signer ← Alloy.recoverAddressFromPrehash signature hash
  if signer != premint.collection.contractAdmin then
    return .reject ("Invalid signature for contract admin "
      ++ premint.collection.contractAdmin.toChecksum ++ " vs recovered " ++ signer.toChecksum)
  else return .accept

def supportedChains : List UInt64 := [7777777, 999999999, 8453]

def isChainSupported (premint : ZoraPremint Config) (_context : RuleContext Text) :
    Except Report Evaluation :=
  if supportedChains.contains premint.chainId then .ok .accept
  else .ok (.reject "Chain not supported")

/-- The five typed rules of one premint type. -/
def typedRules [Alloy] (variant type : String)
    (select : PremintTypes → Option (ZoraPremint Config)) : List (Rule Text) := [
  typedRule variant (type ++ "::is_authorized_to_create_premint") select
    isAuthorizedToCreatePremint,
  typedRule variant (type ++ "::is_valid_signature") select isValidSignature,
  typedRule variant (type ++ "::is_chain_supported") select isChainSupported,
  typedRule variant (type ++ "::not_minted") select notMinted,
  typedRule variant (type ++ "::premint_version_supported") select premintVersionSupported]

end ZoraPremint

/-- `v2::all_v2_rules` -/
def V2.allV2Rules [Alloy] : List (Rule Text) :=
  ZoraPremint.typedRules "PremintTypes::ZoraV2" "V2"
    (fun | PremintTypes.zoraV2 premint => some premint | _ => none)

/-- `erc20v1::all_v2_rules`; nothing registers these. -/
def ERC20V1.allV2Rules [Alloy] : List (Rule Text) :=
  ZoraPremint.typedRules "PremintTypes::ZoraERC20V1" "ERC20V1"
    (fun | PremintTypes.zoraERC20V1 premint => some premint | _ => none)

section Default

variable [Alloy] [Codec Text]

def allRules : List (Rule Text) := General.allRules ++ V2.allV2Rules

/-- `RulesEngine::new_with_default_rules` -/
def RulesEngine.newWithDefaultRules (enableRpc : Bool) : RulesEngine Text where
  rules := allRules
  useRpc := enableRpc

end Default

end Mintpool
