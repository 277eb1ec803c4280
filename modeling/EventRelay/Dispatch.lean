import EventRelay.Abi.Registry
import EventRelay.Rule

/-!
# Rules checked against contracts

`Dispatch.ofRules` accepts a list of rules when each refers only to events, fields and methods of
the two contracts and no two are about one event. `DecodedLog.project` picks the fields of a log
that a call takes as arguments.
-/

namespace EventRelay

open Abi (Registry Signature DecodedLog)

/-- The registries of both contracts. -/
structure Registries where
  pub : Registry
  priv : Registry

/-- The registry of one side's contract. -/
def Registries.side (r : Registries) : Side → Registry
  | .pub => r.pub
  | .priv => r.priv

/-- Why rules do not agree with the contracts. -/
inductive RuleError
  | unknownSource (event : String)
  | noField (name signature : String)
  | unknownMethod (method : String) (arity : Nat)
  | unknownTrigger (event : String)
  | unknownCallbackMethod (method : String) (arity : Nat) (side : Side)
  | repeated (event : String)
  deriving DecidableEq

/-- The text of the error. -/
def RuleError.message : RuleError → String
  | .unknownSource event =>
    "Invalid rule: source event '" ++ event ++ "' is not in the public contract ABI"
  | .noField name signature => "Invalid rule: '" ++ name ++ "' is not a field of " ++ signature
  | .unknownMethod method arity =>
    "Invalid rule: method '" ++ method ++ "' taking " ++ Text.Decimal.ofNat arity ++
      " arguments is not in the private contract ABI"
  | .unknownTrigger event =>
    "Invalid rule: callback event '" ++ event ++ "' is not in the private contract ABI"
  | .unknownCallbackMethod method arity side =>
    "Invalid rule: callback method '" ++ method ++ "' taking " ++ Text.Decimal.ofNat arity ++
      " arguments is not in the " ++ side.name ++ " contract ABI"
  | .repeated event => "Invalid rule: more than one rule for event '" ++ event ++ "'"

/-- A field that a log does not carry. -/
structure MissingField where
  name : String
  signature : String
  deriving DecidableEq

/-- The text of the error. -/
def MissingField.message (e : MissingField) : String :=
  "Missing field: '" ++ e.name ++ "' is not a field of " ++ e.signature

/-- The values of the named fields, in the order of the names. -/
def Abi.DecodedLog.project (d : DecodedLog) : List String → Except MissingField (List Abi.Value)
  | [] => .ok []
  | name :: names =>
    match d.get? name with
    | none => .error ⟨name, d.signature⟩
    | some v => do
      let vs ← project d names
      pure (v :: vs)

/-- Rules by the events they are about. -/
structure Dispatch where
  rules : List Rule

namespace Dispatch

/-- Accepts names that all are fields of an event. -/
def checkFields (s : Signature) (names : List String) : Except RuleError Unit :=
  match names.find? fun n => !s.hasField n with
  | some n => .error (.noField n s.text)
  | none => .ok ()

/-- Accepts a callback of a rule for `event`. -/
def checkCallback (rs : Registries) (event : String) (c : Callback) : Except RuleError Unit := do
  let trigger := c.trigger event
  match rs.priv.byName? trigger with
  | none => throw (.unknownTrigger trigger)
  | some s =>
    checkFields s c.call.params
    let arity := c.call.params.length
    unless (rs.side c.target).hasMethod c.call.method arity do
      throw (.unknownCallbackMethod c.call.method arity c.target)

/-- Accepts a rule on its own. -/
def checkRule (rs : Registries) (r : Rule) : Except RuleError Unit := do
  match rs.pub.byName? r.event with
  | none => throw (.unknownSource r.event)
  | some s =>
    checkFields s r.call.params
    let arity := r.call.params.length
    unless rs.priv.hasMethod r.call.method arity do throw (.unknownMethod r.call.method arity)
    match r.callback with
    | none => pure ()
    | some c => checkCallback rs r.event c

/-- The rule for an event. -/
def rule? (d : Dispatch) (event : String) : Option Rule := d.rules.find? (·.event = event)

/-- Adds a rule for an event that has none yet. -/
def add (rs : Registries) (d : Dispatch) (r : Rule) : Except RuleError Dispatch := do
  checkRule rs r
  if (d.rule? r.event).isSome then throw (.repeated r.event)
  pure ⟨d.rules ++ [r]⟩

/-- The rules, when each of them and all together are in order. -/
def ofRules (rs : Registries) (rules : List Rule) : Except RuleError Dispatch :=
  rules.foldlM (add rs) ⟨[]⟩

/-- The events that have a rule. -/
def events (d : Dispatch) : List String := d.rules.map (·.event)

/-- How many rules there are. -/
def size (d : Dispatch) : Nat := d.rules.length

end Dispatch

end EventRelay
