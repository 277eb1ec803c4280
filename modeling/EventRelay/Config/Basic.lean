import EventRelay.Config.Secret
import EventRelay.Abi.Interface
import EventRelay.Endpoint
import EventRelay.FileTree
import EventRelay.Rule

/-!
# Configurations

A configuration describes both chains, the key that signs, how long and how often to look for
receipts, and the rules. `Config.check` accepts a configuration or gives the first thing that is
wrong with it; everything that can go wrong with one is a `ConfigError`.
-/

namespace EventRelay

/-- One side of the relay: where its node is and which contract it is about. -/
structure ChainConfig where
  url : String
  /-- The transport, where it is not the one that the URL names. -/
  transport : Option Transport
  contract : Address
  /-- The description of the contract: a list, or an object that holds one as `abi`. -/
  abi : Option Json
  /-- A file that holds the description. -/
  abiPath : Option String
  gasLimit : UInt64
  /-- The price of gas, where the node is not asked for it. -/
  gasPrice : Option Nat

/-- The configuration of a relay. Durations are in milliseconds. -/
structure Config where
  pub : ChainConfig
  priv : ChainConfig
  signingKey : Secret
  pollInterval : UInt64
  receiptTimeout : UInt64
  /-- The first block to follow; the newest when there is none. -/
  fromBlock : Option UInt64
  rules : List Rule
  /-- The directory of the file that the configuration comes from. -/
  directory : Option String

/-- The gas limit where none is given. -/
def ChainConfig.defaultGasLimit : UInt64 := 200000

/-- The time between two looks for a receipt where none is given. -/
def Config.defaultPollInterval : UInt64 := 3000

/-- The time to look for a receipt where none is given. -/
def Config.defaultReceiptTimeout : UInt64 := 120000

/-- What is wrong with one side. -/
inductive ChainFault
  | url (e : UnsupportedUrl)
  | abiSource
  | gasLimit
  | gasPrice

/-- What is wrong with a configuration that could be read. -/
inductive ConfigFault
  | url (e : UnsupportedUrl)
  | abiSource
  | chain (side : Side) (f : ChainFault)
  | secret (e : SecretError)
  | noKey
  | pollInterval
  | receiptTimeout
  | noRules
  | ruleEvent
  | ruleMethod (event : String)
  | ruleCallback (event : String)

/-- Why a text is not what it should be. -/
inductive ParseFault
  | read (e : Json.ReadError)
  /-- A description of a contract that is an object without the member `abi`. -/
  | noAbi
  | invalidAbi

/-- Why a file cannot be used. -/
inductive FileFault
  | notJson (path : String)
  | os (e : OsError)
  | abi (path : String) (e : OsError)

/-- What can go wrong with a configuration. -/
inductive ConfigError
  | validation (f : ConfigFault)
  | parse (f : ParseFault)
  | file (f : FileFault)

namespace ConfigFault

/-- The text of what is wrong with the URL alone. -/
def urlMessage (e : UnsupportedUrl) : String := "Validation error: " ++ e.message

/-- The text about the description of a contract. -/
def abiSourceMessage : String := "exactly one of 'abi' or 'abi_path' must be set"

/-- The text of what is wrong with one side. -/
def chainMessage : ChainFault → String
  | .url e => urlMessage e
  | .abiSource => abiSourceMessage
  | .gasLimit => "gas_limit must be greater than 0"
  | .gasPrice => "gas_price_wei must be greater than 0 when set"

/-- The text of what is wrong. -/
def message : ConfigFault → String
  | .url e => e.message
  | .abiSource => abiSourceMessage
  | .chain side f => side.name ++ " chain: " ++ chainMessage f
  | .secret e => e.message
  | .noKey => "signing_key must not be empty"
  | .pollInterval => "poll_interval_ms must be greater than 0"
  | .receiptTimeout => "receipt_timeout_ms must be at least poll_interval_ms"
  | .noRules => "at least one relay rule is required"
  | .ruleEvent => "relay rule event_name must not be empty"
  | .ruleMethod event => "relay rule '" ++ event ++ "' has an empty target method name"
  | .ruleCallback event => "relay rule '" ++ event ++ "' has an incomplete callback"

end ConfigFault

namespace ParseFault

/-- The text of the fault; there is none for a text that is not JSON. -/
def message? : ParseFault → Option String
  | .read e => e.message?
  | .noAbi => some "ABI object does not contain an 'abi' field"
  | .invalidAbi => some "invalid ABI"

end ParseFault

namespace FileFault

/-- The text of the fault. -/
def message : FileFault → String
  | .notJson path => "configuration file must be a .json file: " ++ path
  | .os e => e.message
  | .abi path e => "failed to open ABI file " ++ path ++ ": " ++ e.message

end FileFault

namespace ConfigError

/-- The text of the error; there is none for a text that is not JSON. -/
def message? : ConfigError → Option String
  | .validation f => some ("Validation error: " ++ f.message)
  | .parse f => f.message?.map fun m => "Parse error: " ++ m
  | .file f => some ("File error: " ++ f.message)

/-- The errors in the order in which they come up on the way to this one: the URL of a side is
judged on its own first. -/
def trail : ConfigError → List ConfigError
  | .validation (.chain side (.url e)) => [.validation (.url e), .validation (.chain side (.url e))]
  | e => [e]

end ConfigError

namespace ChainConfig

/-- The endpoint of the node. -/
def endpoint (c : ChainConfig) : Except UnsupportedUrl Endpoint :=
  (Endpoint.ofUrl c.url).map fun e => { e with transport := c.transport.getD e.transport }

/-- Accepts the side or gives the first thing that is wrong with it. -/
def check (c : ChainConfig) : Except ChainFault Unit := do
  let _ ← c.endpoint.mapError .url
  if c.abi.isSome = c.abiPath.isSome then throw .abiSource
  if c.gasLimit = 0 then throw .gasLimit
  if c.gasPrice = some 0 then throw .gasPrice

end ChainConfig

namespace Rule

/-- Accepts the rule or gives the first thing that is wrong with it. -/
def check (r : Rule) : Except ConfigFault Unit := do
  if Text.isBlankText r.event then throw .ruleEvent
  if Text.isBlankText r.call.method then throw (.ruleMethod r.event)
  match r.callback with
  | none => pure ()
  | some c =>
    if (c.event.any Text.isBlankText) || Text.isBlankText c.call.method then
      throw (.ruleCallback r.event)

end Rule

namespace Config

/-- One side of the relay. -/
def chain (c : Config) : Side → ChainConfig
  | .pub => c.pub
  | .priv => c.priv

/-- Accepts the configuration or gives the first thing that is wrong with it. -/
def check (c : Config) : Except ConfigFault Unit := do
  c.pub.check.mapError (.chain .pub)
  c.priv.check.mapError (.chain .priv)
  if c.signingKey.isEmpty then throw .noKey
  if c.pollInterval = 0 then throw .pollInterval
  if c.receiptTimeout < c.pollInterval then throw .receiptTimeout
  if c.rules.isEmpty then throw .noRules
  c.rules.forM Rule.check

end Config

end EventRelay
