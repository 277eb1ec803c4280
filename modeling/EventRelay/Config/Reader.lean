import EventRelay.Config.Basic

/-!
# Reading configurations

A configuration is read from a finished value (`Config.ofJson`) or from a text (`Config.ofText`).
Both accept the same documents, up to gas prices that only a text can write out; both reject a
configuration that `Config.check` rejects.
-/

namespace EventRelay

open Json (Draft Read Source)

/-- What an address is expected to be. -/
def Address.expected : String :=
  "20 bytes, represented as a hex string of length 40, an array of u8, or raw bytes"

/-- The address that a list of bytes gives. One item too many is passed over when it is not a byte;
of a text, only when reading for a byte gets past it, that is when it is no list and no object. -/
def Address.ofItems (source : Source) (items : List Draft) (closed : Bool) : Read Address := do
  let bytes ← Read.items Read.byte (items.take 20)
  if bytes.length < 20 then
    if closed then throw (.wrongLength bytes.length "exactly 20 bytes") else throw .malformed
  match items.drop 20 with
  | [] => if closed then pure (.ofBytes bytes) else throw .malformed
  | extra :: more =>
    match Read.byte extra, source with
    | .ok _, _ => throw (.wrongLength 21 "exactly 20 bytes")
    | .error _, .text =>
      if extra.isScalar && more.isEmpty && closed then pure (.ofBytes bytes) else throw .malformed
    | .error _, .value =>
      if more.isEmpty then pure (.ofBytes bytes)
      else throw (.wrongLength items.length "fewer elements in array")

/-- Reads an address: 40 digits with or without a mark in front, or a list of 20 bytes. -/
def Address.ofDraft (source : Source) : Draft → Read Address
  | .str (some s) =>
    match Address.ofHex? s with
    | some a => .ok a
    | none => .error .malformed
  | .arr items closed => Address.ofItems source items closed
  | d => Read.mismatch Address.expected d

/-- A transport by its name. -/
def Transport.ofDraft : Source → Draft → Read Transport :=
  Read.variant [(Transport.http.name, .http), (Transport.ws.name, .ws)]

namespace ChainConfig

/-- The members of a side read so far. -/
structure Seen where
  url : Option String
  transport : Option (Option Transport)
  contract : Option Address
  abi : Option (Option Json)
  abiPath : Option (Option String)
  gasLimit : Option UInt64
  gasPrice : Option (Option Nat)

/-- The start, before any member. -/
def Seen.none : Seen := ⟨.none, .none, .none, .none, .none, .none, .none⟩

/-- The reader of a member; a description may be nested `depth` deep. -/
def Seen.field (source : Source) (depth : Nat) (s : Seen) (key : String) :
    Option (Draft → Read Seen) :=
  if key = "rpc_url" then
    some (Read.once key s.url Read.string fun x => { s with url := some x })
  else if key = "transport" then
    some (Read.once key s.transport (Read.optional (Transport.ofDraft source)) fun x =>
      { s with transport := some x })
  else if key = "contract_address" then
    some (Read.once key s.contract (Address.ofDraft source) fun x => { s with contract := some x })
  else if key = "abi" then
    some (Read.once key s.abi (Read.optional (Read.json source depth)) fun x =>
      { s with abi := some x })
  else if key = "abi_path" then
    some (Read.once key s.abiPath (Read.optional Read.path) fun x => { s with abiPath := some x })
  else if key = "gas_limit" then
    some (Read.once key s.gasLimit Read.word64 fun x => { s with gasLimit := some x })
  else if key = "gas_price_wei" then
    some (Read.once key s.gasPrice (Read.optional (Read.word128 source)) fun x =>
      { s with gasPrice := some x })
  else .none

/-- The side whose members have all been read. -/
def Seen.finish (s : Seen) : Read ChainConfig := do
  let url ← Read.required "rpc_url" s.url
  let contract ← Read.required "contract_address" s.contract
  pure
    { url, contract
      transport := s.transport.getD .none
      abi := s.abi.getD .none
      abiPath := s.abiPath.getD .none
      gasLimit := s.gasLimit.getD defaultGasLimit
      gasPrice := s.gasPrice.getD .none }

/-- The side that a list gives by position. -/
def ofRow (source : Source) (depth : Nat) (r : Read.Row) : Read (ChainConfig × Read.Row) := do
  let record := "struct ChainConfig with 7 elements"
  let (url, r) ← r.next record Read.string
  let (transport, r) ← r.nextOr none (Read.optional (Transport.ofDraft source))
  let (contract, r) ← r.next record (Address.ofDraft source)
  let (abi, r) ← r.nextOr none (Read.optional (Read.json source depth))
  let (abiPath, r) ← r.nextOr none (Read.optional Read.path)
  let (gasLimit, r) ← r.nextOr defaultGasLimit Read.word64
  let (gasPrice, r) ← r.nextOr none (Read.optional (Read.word128 source))
  pure ({ url, transport, contract, abi, abiPath, gasLimit, gasPrice }, r)

/-- Reads a side whose members may be nested `depth` deep. -/
def ofDraft (source : Source) (depth : Nat) : Draft → Read ChainConfig :=
  Read.record "ChainConfig" source Seen.none (Seen.field source depth) Seen.finish
    (ofRow source depth)

/-- The side that a finished value stands for. -/
def ofJson (j : Json) : Except ConfigError ChainConfig :=
  (ofDraft .value Json.maxDepth j.draft).mapError fun e => .parse (.read e)

end ChainConfig

namespace Config

/-- The members of a configuration read so far. -/
structure Seen where
  pub : Option ChainConfig
  priv : Option ChainConfig
  signingKey : Option Secret
  pollInterval : Option UInt64
  receiptTimeout : Option UInt64
  fromBlock : Option (Option UInt64)
  rules : Option (List Rule)

/-- The start, before any member. -/
def Seen.none : Seen := ⟨.none, .none, .none, .none, .none, .none, .none⟩

/-- How deep a description inside a side may be nested. -/
def abiDepth : Nat := Json.maxDepth - 2

/-- Reads a secret. -/
def secretOfDraft (d : Draft) : Read Secret := (Read.string d).map Secret.mk

/-- The reader of a member. -/
def Seen.field (source : Source) (s : Seen) (key : String) : Option (Draft → Read Seen) :=
  if key = "public" then
    some (Read.once key s.pub (ChainConfig.ofDraft source abiDepth) fun x =>
      { s with pub := some x })
  else if key = "private" then
    some (Read.once key s.priv (ChainConfig.ofDraft source abiDepth) fun x =>
      { s with priv := some x })
  else if key = "signing_key" then
    some (Read.once key s.signingKey secretOfDraft fun x => { s with signingKey := some x })
  else if key = "poll_interval_ms" then
    some (Read.once key s.pollInterval Read.word64 fun x => { s with pollInterval := some x })
  else if key = "receipt_timeout_ms" then
    some (Read.once key s.receiptTimeout Read.word64 fun x => { s with receiptTimeout := some x })
  else if key = "from_block" then
    some (Read.once key s.fromBlock (Read.optional Read.word64) fun x =>
      { s with fromBlock := some x })
  else if key = "rules" then
    some (Read.once key s.rules (Read.list (Rule.ofDraft source)) fun x =>
      { s with rules := some x })
  else .none

/-- The configuration whose members have all been read. -/
def Seen.finish (s : Seen) : Read Config := do
  let pub ← Read.required "public" s.pub
  let priv ← Read.required "private" s.priv
  let signingKey ← Read.required "signing_key" s.signingKey
  let rules ← Read.required "rules" s.rules
  pure
    { pub, priv, signingKey, rules
      pollInterval := s.pollInterval.getD defaultPollInterval
      receiptTimeout := s.receiptTimeout.getD defaultReceiptTimeout
      fromBlock := s.fromBlock.getD .none
      directory := .none }

/-- The configuration that a list gives by position. -/
def ofRow (source : Source) (r : Read.Row) : Read (Config × Read.Row) := do
  let record := "struct RelayConfig with 7 elements"
  let (pub, r) ← r.next record (ChainConfig.ofDraft source abiDepth)
  let (priv, r) ← r.next record (ChainConfig.ofDraft source abiDepth)
  let (signingKey, r) ← r.next record secretOfDraft
  let (pollInterval, r) ← r.nextOr defaultPollInterval Read.word64
  let (receiptTimeout, r) ← r.nextOr defaultReceiptTimeout Read.word64
  let (fromBlock, r) ← r.nextOr none (Read.optional Read.word64)
  let (rules, r) ← r.next record (Read.list (Rule.ofDraft source))
  pure (⟨pub, priv, signingKey, pollInterval, receiptTimeout, fromBlock, rules, none⟩, r)

/-- Reads a configuration. -/
def ofDraft (source : Source) : Draft → Read Config :=
  Read.record "RelayConfig" source Seen.none (Seen.field source) Seen.finish (ofRow source)

/-- Passes on a configuration that is in order. -/
def checked (c : Config) : Except ConfigError Config :=
  match c.check with
  | .ok () => .ok c
  | .error f => .error (.validation f)

/-- The configuration that a finished value stands for. -/
def ofJson (j : Json) : Except ConfigError Config := do
  let c ← (ofDraft .value j.draft).mapError fun e => .parse (.read e)
  c.checked

/-- The configuration that a text stands for, not yet checked. -/
def readText (s : String) : Read Config := do
  let (d, alone) := Draft.ofText s
  let c ← ofDraft .text d
  if alone then pure c else throw .malformed

/-- The configuration in a text, from a file in `directory`. -/
def ofText (directory : String) (s : String) : Except ConfigError Config := do
  let c ← (readText s).mapError fun e => .parse (.read e)
  { c with directory := some directory }.checked

/-- The configuration in a file. -/
def load (files : FileTree) (path : String) : Except ConfigError Config := do
  unless Path.isJson path do throw (.file (.notJson path))
  match ← (files.read path).mapError fun e => .file (.os e) with
  | none => throw (.parse (.read .malformed))
  | some text => ofText (Path.parent path) text

end Config

/-! ## Contracts -/

/-- A deployed contract and what is known about it. -/
structure Binding where
  side : Side
  address : Address
  interface : Abi.Interface

/-- The description of the contract as it is given, from a file taken from `directory`. -/
def ChainConfig.description (c : ChainConfig) (files : FileTree) (directory : Option String) :
    Except ConfigError Json :=
  match c.abi, c.abiPath with
  | some j, none => .ok j
  | none, some path => do
    let path := match directory with
      | some d => Path.join d path
      | none => path
    match ← (files.read path).mapError fun e => .file (.abi path e) with
    | none => throw (.parse (.read .malformed))
    | some text =>
      match Json.parse? text with
      | some j => pure j
      | none => throw (.parse (.read .malformed))
  | _, _ => .error (.validation .abiSource)

/-- The contract's functions and events. -/
def ChainConfig.interface (c : ChainConfig) (files : FileTree) (directory : Option String) :
    Except ConfigError Abi.Interface := do
  let given ← c.description files directory
  let j ← match given with
    | .obj _ =>
      match given.get? "abi" with
      | some j => pure j
      | none => throw (.parse .noAbi)
    | j => pure j
  match Abi.Interface.ofJson? j with
  | some i => pure i
  | none => throw (.parse .invalidAbi)

/-- The contract of one side. -/
def Config.binding (c : Config) (files : FileTree) (side : Side) : Except ConfigError Binding := do
  let i ← (c.chain side).interface files c.directory
  pure ⟨side, (c.chain side).contract, i⟩

end EventRelay
