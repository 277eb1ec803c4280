import EventRelay.Chain.Query
import EventRelay.Metrics.Basic
import EventRelay.Rule

/-!
# Activities

An activity is a state together with a function that says what the state wants next: an answer from
a node, the right to send, to wait, and so on. A `Demand` names the want and how the activity goes
on once it is met; a `Turn` adds what may come in between, a deadline or the end of the relay. Who
meets demands, and in which order those of several activities, is not said here.
-/

namespace EventRelay

/-- What an activity wants next; `α` is what it then goes on as. Times are in milliseconds. -/
inductive Demand (α : Type)
  /-- Nothing: the activity has ended. -/
  | nothing
  /-- The time, and whether the relay was told to stop. -/
  | look (seen : Nat → Bool → α)
  /-- An answer from the node of a side. -/
  | ask (side : Side) (q : Query) (answered : Except ChainError q.Reply → α)
  /-- The right to send on a side, which one activity has at a time, and the next nonce if it is
  known. -/
  | acquire (side : Side) (acquired : Option UInt64 → α)
  /-- To give that right back and leave what is known about the next nonce. -/
  | release (side : Side) (nonce : Option UInt64) (next : α)
  /-- To wait until a time. -/
  | pause (time : Nat) (resumed : Nat → α)
  /-- The next log of the subscription on a side, `none` when it has ended. -/
  | receive (side : Side) (received : Option Log → α)
  /-- To start another activity. -/
  | spawn (child next : α)
  /-- To count an event. -/
  | count (e : Metrics.Event) (next : α)
  /-- To wait for all other activities. -/
  | join (next : α)

/-- A demand of an activity that is part of another. -/
def Demand.map {α β : Type} (f : α → β) : Demand α → Demand β
  | .nothing => .nothing
  | .look seen => .look fun time stop => f (seen time stop)
  | .ask side q answered => .ask side q fun r => f (answered r)
  | .acquire side acquired => .acquire side fun n => f (acquired n)
  | .release side nonce next => .release side nonce (f next)
  | .pause time resumed => .pause time fun now => f (resumed now)
  | .receive side received => .receive side fun l => f (received l)
  | .spawn child next => .spawn (f child) (f next)
  | .count e next => .count e (f next)
  | .join next => .join (f next)

/-- What an activity wants next, and what may come in between. -/
structure Turn (α : Type) where
  demand : Demand α
  /-- A time from which on the activity no longer waits, and how it then goes on. -/
  deadline : Option (Nat × α)
  /-- How the activity goes on when the relay stops. -/
  cancelled : Option α
  /-- Whether what it wants may still come first when the relay stops and both are there; otherwise
  the end of the relay does. -/
  fair : Bool

namespace Turn

/-- A turn in which nothing comes in between. -/
def plain {α : Type} (d : Demand α) : Turn α := ⟨d, none, none, false⟩

/-- A turn of an activity that is part of another. -/
def map {α β : Type} (f : α → β) (t : Turn α) : Turn β :=
  ⟨t.demand.map f, t.deadline.map fun (time, a) => (time, f a), t.cancelled.map f, t.fair⟩

end Turn

/-- A single question to a node. -/
inductive Asking (q : Query)
  | unasked
  | answered (reply : Except ChainError q.Reply)

/-- What a single question wants next. -/
def Asking.turn (side : Side) {q : Query} : Asking q → Turn (Asking q)
  | .unasked => .plain (.ask side q .answered)
  | .answered _ => .plain .nothing

end EventRelay
