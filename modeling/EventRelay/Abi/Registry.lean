import EventRelay.Abi.Coerce
import EventRelay.Abi.Decode
import EventRelay.Abi.Encode
import EventRelay.Abi.Interface
import EventRelay.Log

/-!
# The events and methods of one contract

A `Registry` finds events by topic and by name, and methods by name and number of arguments. It
decodes logs by an event's signature (`Signature.decode`) and encodes calls (`Registry.encodeCall`).
Anonymous events have no topic and are left out. Of two events with one signature the one declared
last is kept; of two events with one name the one declared first answers to the name.
-/

namespace EventRelay.Abi

/-- A field of an event. -/
structure Field where
  /-- The declared name, or the position of a field without one. -/
  name : String
  /-- The type as it stands in the signature. -/
  typeName : String
  indexed : Bool
  deriving DecidableEq

/-- An event as logs refer to it. -/
structure Signature where
  name : String
  /-- Name and types, such as `Transfer(address,address,uint256)`. -/
  text : String
  /-- The digest of `text`. -/
  topic : Word
  fields : List Field
  inputs : List Input

/-- Why a log cannot be decoded. -/
inductive DecodeError
  /-- The first topic is not that of the event. -/
  | topicMismatch (signature : String)
  /-- A field has a type that denotes nothing. -/
  | kind (signature : String) (e : KindError)
  | topicCount (signature : String) (expected actual : Nat)
  | data (signature : String) (fault : DataFault)
  | missingValue (signature name : String)

/-- Why values cannot be the arguments of a function. -/
inductive InputFault
  | count (expected actual : Nat)
  /-- A parameter has a type that denotes nothing. -/
  | kind (e : KindError)
  | mismatch (expected : Kind) (actual : Value)

/-- Why a call cannot be encoded. -/
inductive CallError
  | unknownMethod (method : String)
  | noOverload (method : String) (arguments : Nat)
  /-- A parameter has a type that denotes nothing. -/
  | kind (param method : String) (e : KindError)
  | argument (param method : String) (e : Inconvertible)
  /-- The converted arguments are refused. -/
  | input (method : String) (fault : InputFault)

/-- A field of a decoded log. -/
structure DecodedField where
  name : String
  typeName : String
  indexed : Bool
  value : Value

/-- A decoded log: the event and the value of each of its fields. -/
structure DecodedLog where
  name : String
  signature : String
  fields : List DecodedField

/-- The events and methods of one contract. -/
structure Registry where
  /-- The events in order of their topics, one for each topic. -/
  events : List Signature
  /-- The topic that each event name stands for. -/
  names : List (String × Word)
  functions : List Function

namespace DataFault

/-- The text of a fault. -/
def message : DataFault → String
  | .overrun => "ABI decoding failed: buffer overrun while deserializing"
  | .tooDeep => "ABI decoding failed: recursion limit of " ++ Text.Decimal.ofNat maxNesting ++
      " exceeded during decoding"
  | .badOffset w => "type check failed for \"offset (usize)\" with data: " ++
      String.ofList (Text.Hex.digits w.toBytes)

end DataFault

namespace DecodeError

/-- The text of the error. -/
def message : DecodeError → String
  | .topicMismatch signature => "Decode error: log topic does not match " ++ signature
  | .kind signature e => "Decode error: failed to decode " ++ signature ++ ": " ++ e.message
  | .topicCount signature expected actual =>
    "Decode error: failed to decode " ++ signature ++
      ": invalid log topic list length: expected " ++ Text.Decimal.ofNat expected ++
      " topics, got " ++ Text.Decimal.ofNat actual
  | .data signature fault =>
    "Decode error: failed to decode " ++ signature ++ ": " ++ fault.message
  | .missingValue signature name =>
    "Decode error: " ++ signature ++ " is missing a value for field '" ++ name ++ "'"

end DecodeError

namespace InputFault

/-- The text of a fault. -/
def message : InputFault → String
  | .count expected actual => "encode length mismatch: expected " ++ Text.Decimal.ofNat expected ++
      " types, got " ++ Text.Decimal.ofNat actual
  | .kind e => e.message
  | .mismatch expected actual => "type mismatch: expected \"" ++ expected.text ++ "\", got \"" ++
      actual.typeName?.getD "<none>" ++ "\""

end InputFault

namespace CallError

/-- The text of the error. -/
def message : CallError → String
  | .unknownMethod method => "Encode error: method '" ++ method ++ "' is not in the ABI"
  | .noOverload method n => "Encode error: method '" ++ method ++ "' has no overload taking " ++
      Text.Decimal.ofNat n ++ " arguments"
  | .kind param method e => "Invalid ABI: parameter '" ++ param ++ "' of '" ++ method ++ "': " ++
      e.message
  | .argument param method e => "Encode error: argument '" ++ param ++ "' of '" ++ method ++
      "': " ++ e.message
  | .input method fault => "Encode error: failed to encode '" ++ method ++ "': " ++ fault.message

end CallError

namespace DecodedLog

/-- The value of the first field with a name. -/
def get? (d : DecodedLog) (name : String) : Option Value :=
  (d.fields.find? (·.name = name)).map (·.value)

end DecodedLog

namespace Signature

/-- The fields of an event: a field without a name is called by its position. -/
def fieldsOf (inputs : List Input) : List Field :=
  inputs.zipIdx.map fun (i, position) =>
    { name := if i.param.name.isEmpty then Text.Decimal.ofNat position else i.param.name
      typeName := i.param.canonicalType
      indexed := i.indexed }

/-- The signature of a declared event. -/
def ofEvent (e : Event) : Signature :=
  { name := e.name
    text := e.signature
    topic := Word.keccak (Text.Utf8.encode e.signature)
    fields := fieldsOf e.inputs
    inputs := e.inputs }

/-- Whether the event has a field with a name. -/
def hasField (s : Signature) (name : String) : Bool := s.fields.any (·.name = name)

/-- The most topics a log can have. -/
def maxTopics : Nat := 4

/-- The parameters with the types they denote, or the error of the first that denotes none. -/
def resolveInputs : List Input → Except KindError (List (Input × Kind))
  | [] => .ok []
  | i :: is => do
    let k ← i.param.resolve
    let rest ← resolveInputs is
    pure ((i, k) :: rest)

/-- The types of the indexed and of the other parameters. -/
def kinds (s : Signature) : Except DecodeError (List Kind × List Kind) := do
  let typed ← (resolveInputs s.inputs).mapError (.kind s.text)
  let (indexed, body) := typed.partition (·.1.indexed)
  if maxTopics < indexed.length + 1 then
    throw (.topicCount s.text maxTopics (indexed.length + 1))
  pure (indexed.map (·.2), body.map (·.2))

/-- Gives each field its value: an indexed one the next of `indexed`, another the next of `body`. -/
def assign (signature : String) : List Field → (indexed body : List Value) →
    Except DecodeError (List DecodedField)
  | [], _, _ => .ok []
  | f :: fs, indexed, body =>
    match f.indexed, indexed, body with
    | true, v :: indexed, body => do
      let rest ← assign signature fs indexed body
      pure (⟨f.name, f.typeName, f.indexed, v⟩ :: rest)
    | false, indexed, v :: body => do
      let rest ← assign signature fs indexed body
      pure (⟨f.name, f.typeName, f.indexed, v⟩ :: rest)
    | _, _, _ => .error (.missingValue signature f.name)

/-- Decodes a log of the event: each indexed field from a topic of its own, the others in order
from the data. -/
def decode (s : Signature) (log : Log) : Except DecodeError DecodedLog := do
  if log.topic0 ≠ some s.topic then throw (.topicMismatch s.text)
  let (indexed, body) ← s.kinds
  if log.topics.length ≠ indexed.length + 1 then
    throw (.topicCount s.text (indexed.length + 1) log.topics.length)
  let body ← (Kind.decodeAll body log.data).mapError (.data s.text)
  let fields ← assign s.text s.fields (List.zipWith Kind.ofTopic indexed log.topics.tail) body
  pure ⟨s.name, s.text, fields⟩

end Signature

namespace Function

/-- Finds fault with the first value that is not of the type of its parameter. -/
def checkInputs : List Param → List Value → Except InputFault Unit
  | p :: ps, v :: vs => do
    let k ← p.resolve.mapError .kind
    if k.holds v then checkInputs ps vs else throw (.mismatch k v)
  | _, _ => .ok ()

/-- The selector and the encoding of values as arguments. -/
def encodeInput (f : Function) (vs : List Value) : Except InputFault Bytes := do
  if vs.length ≠ f.inputs.length then throw (.count f.inputs.length vs.length)
  checkInputs f.inputs vs
  pure (f.selector ++ Value.encodeAll vs)

end Function

namespace Registry

/-- Puts an event in order of topics, over one of the same topic. -/
def put (s : Signature) : List Signature → List Signature
  | [] => [s]
  | t :: rest =>
    if s.topic.toNat < t.topic.toNat then s :: t :: rest
    else if s.topic = t.topic then s :: rest
    else t :: put s rest

/-- Lets an event answer to its name, unless an earlier one does. -/
def putName (s : Signature) (names : List (String × Word)) : List (String × Word) :=
  if names.any (·.1 = s.name) then names else names ++ [(s.name, s.topic)]

/-- The registry of a described contract. -/
def ofInterface (i : Interface) : Registry :=
  let signatures := (i.events.filter (!·.anonymous)).map .ofEvent
  { events := signatures.foldl (fun acc s => put s acc) []
    names := signatures.foldl (fun acc s => putName s acc) []
    functions := i.functions }

/-- The event with a topic. -/
def resolve? (r : Registry) (topic : Word) : Option Signature :=
  r.events.find? (·.topic = topic)

/-- The event that answers to a name. -/
def byName? (r : Registry) (name : String) : Option Signature := do
  let (_, topic) ← r.names.find? (·.1 = name)
  r.resolve? topic

/-- The topics of all events, in order. -/
def topics (r : Registry) : List Word := r.events.map (·.topic)

/-- The first declared method with a name and a number of arguments. -/
def method? (r : Registry) (name : String) (arity : Nat) : Option Function :=
  r.functions.find? fun f => f.name = name && f.inputs.length = arity

/-- Whether there is a method with a name and a number of arguments. -/
def hasMethod (r : Registry) (name : String) (arity : Nat) : Bool := (r.method? name arity).isSome

/-- The arguments as values of the parameters' types. -/
def coerceAll (method : String) : List Param → List Value → Except CallError (List Value)
  | p :: ps, v :: vs => do
    let k ← p.resolve.mapError (.kind p.name method)
    let w ← (coerce k v).mapError (.argument p.name method)
    let ws ← coerceAll method ps vs
    pure (w :: ws)
  | _, _ => .ok []

/-- The data of a call: the selector and the arguments. -/
def encodeCall (r : Registry) (method : String) (args : List Value) : Except CallError Bytes := do
  unless r.functions.any (·.name = method) do throw (.unknownMethod method)
  match r.method? method args.length with
  | none => throw (.noOverload method args.length)
  | some f =>
    let values ← coerceAll method f.inputs args
    (f.encodeInput values).mapError (.input method)

end Registry

end EventRelay.Abi
