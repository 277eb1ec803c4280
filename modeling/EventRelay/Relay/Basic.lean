import EventRelay.Relay.State

/-!
# Relays

A relay knows both contracts, the accounts it sends from and its rules. `filter` selects the logs
of the public contract that have a rule, and `match?` says for one log whether an attempt begins
with it and how; `callFor` is the call that an invocation makes of a decoded log.
-/

namespace EventRelay

/-- One side of a relay: a contract, the account that calls it and the patience with which the
receipts of its calls are waited for. -/
structure RelayEnd (side : Side) where
  contract : Address
  account : Account
  account_side : account.side = side
  patience : Patience

/-- A relay between two contracts. -/
structure Relay where
  pub : RelayEnd .pub
  priv : RelayEnd .priv
  registries : Registries
  dispatch : Dispatch
  /-- The first block to follow; the newest when there is none. -/
  fromBlock : Option UInt64

namespace Relay

/-- One side of the relay. -/
def side (r : Relay) : (s : Side) → RelayEnd s
  | .pub => r.pub
  | .priv => r.priv

/-- The patience with which receipts are waited for on a side. -/
def patience (r : Relay) (side : Side) : Patience := (r.side side).patience

/-- The topics of the events that have a rule, in order. -/
def topics (r : Relay) : List Word :=
  (r.dispatch.events.filterMap fun name => (r.registries.pub.byName? name).map (·.topic)).mergeSort
    fun a b => a.toNat ≤ b.toNat

/-- The filter for the logs of the public contract that have a rule. -/
def filter (r : Relay) (fromBlock : Option UInt64) : LogFilter :=
  ⟨r.pub.contract, r.topics, fromBlock⟩

/-- The state in which an attempt begins with a log, if one does. -/
def match? (r : Relay) (log : Log) : Option State := do
  guard (log.address = r.pub.contract)
  let signature ← log.topic0.bind r.registries.pub.resolve?
  let rule ← r.dispatch.rule? signature.name
  match signature.decode log with
  | .ok decoded => some (.matched log decoded rule)
  | .error e => some (.decodeFailed (.decode e))

/-- The call of a side's contract that an invocation makes of a decoded log. -/
def callFor (r : Relay) (target : Side) (i : Invocation) (d : Abi.DecodedLog) :
    Except RelayError Call := do
  let args ← (d.project i.params).mapError .project
  let input ← ((r.registries.side target).encodeCall i.method args).mapError .call
  pure ⟨(r.side target).contract, input⟩

end Relay

end EventRelay
