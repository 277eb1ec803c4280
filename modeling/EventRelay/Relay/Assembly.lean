import EventRelay.Config.Reader
import EventRelay.Relay.Basic

/-!
# Assembling a relay

A relay is assembled from its configuration and what the nodes say about their chains. One side
after the other gets its contract, its key and its chain; last the rules are checked against both
contracts.
-/

namespace EventRelay.Relay

/-- Why a relay cannot be assembled. -/
inductive AssemblyError
  | config (side : Side) (e : ConfigError)
  /-- The node of a side does not say which chain it is on. -/
  | chainId (side : Side) (e : ChainError)
  | rules (e : RuleError)

/-- The texts of the error and of what caused it. -/
def AssemblyError.causes : AssemblyError → List String
  | .config _ e => [e.message?.getD "Parse error"]
  | .chainId side e =>
    ["failed to read the chain id of the " ++ side.name ++ " chain", e.message]
  | .rules e => ["relay rules do not match the contract ABIs", e.message]

/-- The side that is at fault, if one is. -/
def AssemblyError.side? : AssemblyError → Option Side
  | .config side _ => some side
  | .chainId side _ => some side
  | .rules _ => none

/-- What the configuration says about a side. -/
structure Prepared where
  binding : Binding
  key : Secp256k1.PrivateKey
  patience : Patience

/-- A side on a chain. -/
def Prepared.onChain (c : Config) (side : Side) (p : Prepared) (chainId : UInt64) :
    RelayEnd side :=
  let chain := c.chain side
  ⟨p.binding.address, ⟨side, p.key, chainId, chain.gasLimit, chain.gasPrice, none⟩, rfl, p.patience⟩

/-- A relay that is being assembled. -/
inductive Assembly
  /-- The node of the public side is asked for its chain. -/
  | first (p : Prepared)
  /-- The node of the private side is asked. -/
  | second (pub : RelayEnd .pub) (registry : Abi.Registry) (p : Prepared)
  | done (result : Except AssemblyError Relay)

namespace Assembly

/-- What is known about a side before its node is asked. -/
def prepare (c : Config) (env : Environment) (files : FileTree) (side : Side) :
    Except AssemblyError Prepared := do
  let binding ← (c.binding files side).mapError (.config side)
  let key ← (c.signingKey.key env).mapError fun e => .config side (.validation (.secret e))
  match Patience.of? c.pollInterval.toNat c.receiptTimeout.toNat with
  | some patience => pure ⟨binding, key, patience⟩
  | none => throw (.config side (.validation .pollInterval))

/-- Puts both sides together. -/
def join (c : Config) (pub : RelayEnd .pub) (priv : RelayEnd .priv) (registries : Registries) :
    Assembly :=
  match Dispatch.ofRules registries c.rules with
  | .error e => .done (.error (.rules e))
  | .ok dispatch => .done (.ok ⟨pub, priv, registries, dispatch, c.fromBlock⟩)

/-- The start of an assembly. -/
def start (c : Config) (env : Environment) (files : FileTree) : Assembly :=
  match prepare c env files .pub with
  | .ok p => .first p
  | .error e => .done (.error e)

/-- What an assembly wants next. -/
def turn (c : Config) (env : Environment) (files : FileTree) : Assembly → Turn Assembly
  | .first p => .plain (.ask .pub .chainId fun answer =>
    match answer with
    | .error e => .done (.error (.chainId .pub e))
    | .ok id =>
      match prepare c env files .priv with
      | .error e => .done (.error e)
      | .ok q => .second (p.onChain c .pub id) (.ofInterface p.binding.interface) q)
  | .second pub registry q => .plain (.ask .priv .chainId fun answer =>
    match answer with
    | .error e => .done (.error (.chainId .priv e))
    | .ok id => join c pub (q.onChain c .priv id) ⟨registry, .ofInterface q.binding.interface⟩)
  | .done _ => .plain .nothing

end Assembly

end EventRelay.Relay
