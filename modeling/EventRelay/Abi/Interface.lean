import EventRelay.Abi.Specifier
import EventRelay.Json.Basic
import EventRelay.Text.Utf8

/-!
# The JSON description of a contract

A contract is described by a list of items: functions, events, errors and at most one constructor,
fallback and receive item. `Interface.ofJson?` accepts or refuses a description as a whole and keeps
its functions and events, each sorted by name and in order of declaration within one name.
-/

namespace EventRelay.Abi

/-- A declared parameter. -/
structure Param where
  name : String
  /-- The type as written; `tuple` and its array sizes when there are components. -/
  typeName : String
  components : List Param

/-- A declared parameter of an event. -/
structure Input where
  param : Param
  indexed : Bool

/-- A declared function. -/
structure Function where
  name : String
  inputs : List Param

/-- A declared event. -/
structure Event where
  name : String
  inputs : List Input
  anonymous : Bool

/-- The functions and events of a contract, sorted by name. -/
structure Interface where
  functions : List Function
  events : List Event

namespace Param

mutual

/-- The type as it stands in a signature: components in parentheses in place of `tuple`. -/
def canonicalType : Param → String
  | ⟨_, typeName, components⟩ =>
    match canonicalTypes components with
    | [] => typeName
    | c :: cs =>
      "(" ++ ",".intercalate (c :: cs) ++ ")" ++ String.ofList (typeName.toList.drop 5)

/-- The types of several parameters as they stand in a signature. -/
def canonicalTypes : List Param → List String
  | [] => []
  | p :: ps => canonicalType p :: canonicalTypes ps

end

mutual

/-- The type that a parameter denotes. -/
def resolve : Param → Except KindError Kind
  | ⟨_, typeName, components⟩ =>
    match Specifier.parse? typeName with
    | none => .error .malformed
    | some t =>
      match components with
      | [] => Kind.ofSpecifier t
      | p :: ps => do
        let k ← resolve p
        let ks ← resolveAll ps
        pure ((Kind.tuple (k :: ks)).wrap t.sizes)

/-- The types that several parameters denote, or the error of the first that denotes none. -/
def resolveAll : List Param → Except KindError (List Kind)
  | [] => .ok []
  | p :: ps => do
    let k ← resolve p
    let ks ← resolveAll ps
    pure (k :: ks)

end

end Param

/-- A name and the types of its parameters in parentheses. -/
def signatureText (name : String) (params : List Param) : String :=
  name ++ "(" ++ ",".intercalate (Param.canonicalTypes params) ++ ")"

/-- The signature of a function. -/
def Function.signature (f : Function) : String := signatureText f.name f.inputs

/-- The first four bytes of the digest of the signature. -/
def Function.selector (f : Function) : Bytes :=
  (Hash.Keccak.digest (Text.Utf8.encode f.signature)).take 4

/-- The signature of an event. -/
def Event.signature (e : Event) : String := signatureText e.name (e.inputs.map (·.param))

namespace Interface

/-- An optional member that is absent, null or of the shape that `read?` takes. -/
def optional? {α : Type} (read? : Json → Option α) (j : Json) (name : String) : Option (Option α) :=
  match j.get? name with
  | none | some .null => some none
  | some v => (read? v).map some

/-- The text of a string. -/
def text? : Json → Option String
  | .str s => some s
  | _ => none

/-- The value of a truth value. -/
def flag? : Json → Option Bool
  | .bool b => some b
  | _ => none

/-- A member that is a name: empty or an identifier. -/
def name? (j : Json) : Option String := do
  let s ← text? (← j.get? "name")
  if s.isEmpty || isIdentifier s then some s else none

/-- The words for what a function may do to the state. -/
def mutabilities : List String := ["pure", "view", "nonpayable", "payable"]

/-- Whether the members on mutability are in order: a known word and flags, all optional. -/
def mutabilityOk (j : Json) : Bool :=
  let word := match j.get? "stateMutability" with
    | none | some .null => true
    | some (.str s) => mutabilities.contains s
    | _ => false
  let flag (name : String) : Bool := match j.get? name with
    | none | some .null | some (.bool _) => true
    | _ => false
  word && flag "constant" && flag "payable"

/-- A parameter's name and type fit together: the name is empty or an identifier, and a type
without components is a type name, one with components starts with `tuple`. -/
def paramOk (name typeName : String) (hasComponents : Bool) : Bool :=
  (name.isEmpty || isIdentifier name) &&
    if hasComponents then "tuple".toList.isPrefixOf typeName.toList
    else (Specifier.parse? typeName).isSome

mutual

/-- The parameter that a value describes, and its `indexed` flag. -/
def param? : Json → Option (Param × Option Bool)
  | .obj members => do
    let (name, typeName, indexed, components) ← paramMembers? members
    let typeName ← typeName
    let name := name.getD ""
    if paramOk name typeName (!components.isEmpty) then
      some (⟨name, typeName, components⟩, indexed)
    else none
  | _ => none

/-- The members of a parameter: name, type, `indexed` and components. -/
def paramMembers? : List (String × Json) →
    Option (Option String × Option String × Option Bool × List Param)
  | [] => some (none, none, none, [])
  | (key, v) :: rest => do
    let (name, typeName, indexed, components) ← paramMembers? rest
    if key = "name" then
      let s ← text? v
      some (some s, typeName, indexed, components)
    else if key = "type" then
      let s ← text? v
      some (name, some s, indexed, components)
    else if key = "indexed" then
      match v with
      | .null => some (name, typeName, none, components)
      | .bool b => some (name, typeName, some b, components)
      | _ => none
    else if key = "internalType" then
      match v with
      | .null | .str _ => some (name, typeName, indexed, components)
      | _ => none
    else if key = "components" then
      match v with
      | .arr items => do
        let ps ← params? items
        some (name, typeName, indexed, ps)
      | _ => none
    else some (name, typeName, indexed, components)

/-- The parameters that several values describe; none may say whether it is indexed. -/
def params? : List Json → Option (List Param)
  | [] => some []
  | j :: js => do
    let (p, indexed) ← param? j
    let ps ← params? js
    if indexed.isSome then none else some (p :: ps)

end

/-- The event parameters that several values describe. -/
def inputs? : List Json → Option (List Input)
  | [] => some []
  | j :: js => do
    let (p, indexed) ← param? j
    let ps ← inputs? js
    some (⟨p, indexed.getD false⟩ :: ps)

/-- The items of a list. -/
def items? : Json → Option (List Json)
  | .arr items => some items
  | _ => none

/-- What an item adds to the description. -/
inductive Item
  | function (f : Function)
  | event (e : Event)
  | error
  /-- An item that may stand only once, by its kind. -/
  | single (kind : String)

/-- The function that an item is. -/
def Item.function? : Item → Option Function
  | .function f => some f
  | _ => none

/-- The event that an item is. -/
def Item.event? : Item → Option Event
  | .event e => some e
  | _ => none

/-- The item that a value describes. -/
def item? (j : Json) : Option Item := do
  let kind ← text? (← j.get? "type")
  if kind = "function" then
    let name ← name? j
    let inputs ← params? (← items? (← j.get? "inputs"))
    let _ ← params? (← items? (← j.get? "outputs"))
    if mutabilityOk j then some (.function ⟨name, inputs⟩) else none
  else if kind = "event" then
    let name ← name? j
    let inputs ← inputs? (← items? (← j.get? "inputs"))
    let anonymous ← flag? (← j.get? "anonymous")
    some (.event ⟨name, inputs, anonymous⟩)
  else if kind = "error" then
    let _ ← name? j
    let _ ← params? (← items? (← j.get? "inputs"))
    some .error
  else if kind = "constructor" then
    let _ ← params? (← items? (← j.get? "inputs"))
    if mutabilityOk j then some (.single kind) else none
  else if kind = "fallback" || kind = "receive" then
    if mutabilityOk j then some (.single kind) else none
  else none

/-- Whether no item that may stand only once stands twice. -/
def singlesOk (items : List Item) : Bool :=
  let kinds := items.filterMap fun
    | .single kind => some kind
    | _ => none
  kinds.eraseDups.length = kinds.length

/-- The contract that a value describes. -/
def ofJson? (j : Json) : Option Interface := do
  let items ← (← items? j).mapM item?
  if singlesOk items then
    some
      { functions := (items.filterMap Item.function?).mergeSort fun a b => a.name ≤ b.name
        events := (items.filterMap Item.event?).mergeSort fun a b => a.name ≤ b.name }
  else none

end Interface

end EventRelay.Abi
