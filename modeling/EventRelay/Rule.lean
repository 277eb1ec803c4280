import EventRelay.Json.Reader

/-!
# Relay rules

A rule names an event of the public contract and the method of the private contract that is called
for it; the method's arguments are fields of the event. It may go on with a callback: a second call,
to either contract, for a log that the first call leaves in its receipt.

`Rule.ofDraft` reads a rule. Its members have several spellings, of which at most one may be used;
`Rule.toJson` writes the first of them.
-/

namespace EventRelay

open Json (Draft Read Source)

/-- One of the two chains. -/
inductive Side
  | pub
  | priv
  deriving DecidableEq

/-- The name of a side in configurations and messages. -/
def Side.name : Side → String
  | .pub => "public"
  | .priv => "private"

/-- The other side. -/
def Side.other : Side → Side
  | .pub => .priv
  | .priv => .pub

/-- A method and the fields that are its arguments. -/
structure Invocation where
  method : String
  params : List String
  deriving DecidableEq

/-- The call that answers a log of the first call's receipt. -/
structure Callback where
  /-- The event that triggers it, when it is not named like the rule's own. -/
  event : Option String
  target : Side
  call : Invocation
  deriving DecidableEq

/-- What is called for an event. -/
structure Rule where
  event : String
  call : Invocation
  callback : Option Callback
  deriving DecidableEq

namespace Callback

/-- The name of the event that triggers the callback of a rule for `event`. -/
def trigger (c : Callback) (event : String) : String := c.event.getD event

end Callback

namespace Rule

/-- The rule that passes a bid on: the fields `to` and `value` of the message are the arguments of
the method `bid`. -/
def passingBids : Rule := ⟨"BidMessagePassing", ⟨"bid", ["to", "value"]⟩, none⟩

/-- The callback that a receipt log of the event `name` triggers. -/
def callbackFor? (r : Rule) (name : String) : Option Callback :=
  r.callback.filter fun c => c.trigger r.event = name

end Rule

/-! ## Writing -/

/-- A list of texts. -/
def Json.ofTexts (ss : List String) : Json := .arr (ss.map .str)

/-- The members of an invocation. -/
def Invocation.toJson (i : Invocation) : Json :=
  .obj [("name", .str i.method), ("params", .ofTexts i.params)]

/-- The members of a callback. -/
def Callback.toJson (c : Callback) : Json :=
  .obj [("event_name", match c.event with | some e => .str e | none => .null),
    ("target", .str c.target.name), ("method", .str c.call.method),
    ("params", .ofTexts c.call.params)]

/-- The members of a rule. -/
def Rule.toJson (r : Rule) : Json :=
  .obj [("event_name", .str r.event), ("target_method", r.call.toJson),
    ("callback", match r.callback with | some c => c.toJson | none => .null)]

/-! ## Reading -/

/-- A side by its name. -/
def Side.ofDraft : Source → Draft → Read Side :=
  Read.variant [(Side.pub.name, .pub), (Side.priv.name, .priv)]

namespace Invocation

/-- The members of an invocation read so far. -/
structure Seen where
  name : Option String
  params : Option (List String)

/-- The reader of a member. -/
def Seen.field (s : Seen) (key : String) : Option (Draft → Read Seen) :=
  if key = "name" then some (Read.once "name" s.name Read.string fun x => { s with name := some x })
  else if key = "params" then
    some (Read.once "params" s.params (Read.list Read.string) fun x => { s with params := some x })
  else none

/-- The invocation whose members have all been read. -/
def Seen.finish (s : Seen) : Read Invocation := do
  let name ← Read.required "name" s.name
  pure ⟨name, s.params.getD []⟩

/-- The invocation that a list gives by position. -/
def ofRow (r : Read.Row) : Read (Invocation × Read.Row) := do
  let (name, r) ← r.next "struct TargetInvocation with 2 elements" Read.string
  let (params, r) ← r.nextOr [] (Read.list Read.string)
  pure (⟨name, params⟩, r)

/-- Reads an invocation. -/
def ofDraft (source : Source) : Draft → Read Invocation :=
  Read.record "TargetInvocation" source ⟨none, none⟩ Seen.field Seen.finish ofRow

end Invocation

namespace Callback

/-- The members of a callback read so far. -/
structure Seen where
  event : Option (Option String)
  target : Option Side
  method : Option String
  params : Option (List String)

/-- The reader of a member. -/
def Seen.field (source : Source) (s : Seen) (key : String) : Option (Draft → Read Seen) :=
  if ["event_name", "eventName"].contains key then
    some (Read.once "event_name" s.event (Read.optional Read.string) fun x =>
      { s with event := some x })
  else if ["target", "targetTag", "contract"].contains key then
    some (Read.once "target" s.target (Side.ofDraft source) fun x => { s with target := some x })
  else if key = "method" then
    some (Read.once "method" s.method Read.string fun x => { s with method := some x })
  else if key = "params" then
    some (Read.once "params" s.params (Read.list Read.string) fun x => { s with params := some x })
  else none

/-- The callback whose members have all been read. -/
def Seen.finish (s : Seen) : Read Callback := do
  let target ← Read.required "target" s.target
  let method ← Read.required "method" s.method
  pure ⟨s.event.getD none, target, ⟨method, s.params.getD []⟩⟩

/-- The callback that a list gives by position. -/
def ofRow (source : Source) (r : Read.Row) : Read (Callback × Read.Row) := do
  let record := "struct CallbackRule with 4 elements"
  let (event, r) ← r.nextOr none (Read.optional Read.string)
  let (target, r) ← r.next record (Side.ofDraft source)
  let (method, r) ← r.next record Read.string
  let (params, r) ← r.nextOr [] (Read.list Read.string)
  pure (⟨event, target, ⟨method, params⟩⟩, r)

/-- Reads a callback. -/
def ofDraft (source : Source) : Draft → Read Callback :=
  Read.record "CallbackRule" source ⟨none, none, none, none⟩ (Seen.field source) Seen.finish
    (ofRow source)

end Callback

namespace Rule

/-- The members of a rule read so far. -/
structure Seen where
  event : Option String
  call : Option Invocation
  callback : Option (Option Callback)

/-- The reader of a member. -/
def Seen.field (source : Source) (s : Seen) (key : String) : Option (Draft → Read Seen) :=
  if ["event_name", "eventName"].contains key then
    some (Read.once "event_name" s.event Read.string fun x => { s with event := some x })
  else if ["target_method", "targetMethod", "privateMethod"].contains key then
    some (Read.once "target_method" s.call (Invocation.ofDraft source) fun x =>
      { s with call := some x })
  else if key = "callback" then
    some (Read.once "callback" s.callback (Read.optional (Callback.ofDraft source)) fun x =>
      { s with callback := some x })
  else none

/-- The rule whose members have all been read. -/
def Seen.finish (s : Seen) : Read Rule := do
  let event ← Read.required "event_name" s.event
  let call ← Read.required "target_method" s.call
  pure ⟨event, call, s.callback.getD none⟩

/-- The rule that a list gives by position. -/
def ofRow (source : Source) (r : Read.Row) : Read (Rule × Read.Row) := do
  let record := "struct RelayRule with 3 elements"
  let (event, r) ← r.next record Read.string
  let (call, r) ← r.next record (Invocation.ofDraft source)
  let (callback, r) ← r.nextOr none (Read.optional (Callback.ofDraft source))
  pure (⟨event, call, callback⟩, r)

/-- Reads a rule. -/
def ofDraft (source : Source) : Draft → Read Rule :=
  Read.record "RelayRule" source ⟨none, none, none⟩ (Seen.field source) Seen.finish (ofRow source)

/-- The rule that a finished value stands for. -/
def ofJson (j : Json) : Read Rule := ofDraft .value j.draft

/-- The rule that a text stands for. -/
def ofText (s : String) : Read Rule := do
  let (d, alone) := Draft.ofText s
  let r ← ofDraft .text d
  if alone then pure r else throw .malformed

end Rule

end EventRelay
