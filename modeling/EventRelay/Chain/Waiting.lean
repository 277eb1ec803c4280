import EventRelay.Chain.Activity
import EventRelay.Text.Duration

/-!
# Waiting for a receipt

The node is asked for the receipt at once and then again and again until it has one. Questions are
an interval apart; one that has to wait for the answer to the question before it moves those that
follow, unless it is late by no more than the `slack`. Failed questions do not matter. The wait
ends without a receipt at its deadline or when the relay stops, also while a question is open; of
the two the deadline goes first.
-/

namespace EventRelay

/-- How often to ask for a receipt, and how long to wait for it, in milliseconds. -/
structure Patience where
  interval : Nat
  timeout : Nat
  interval_pos : 0 < interval

/-- The patience with an interval, unless the interval is no time at all. -/
def Patience.of? (interval timeout : Nat) : Option Patience :=
  if h : 0 < interval then some ⟨interval, timeout, h⟩ else none

/-- Why a wait ends without a receipt. -/
inductive WaitError
  | timeout (hash : Word) (after : Nat)
  | cancelled (hash : Word)
  deriving DecidableEq

/-- The text of the error. -/
def WaitError.message : WaitError → String
  | .timeout hash after =>
    "Timeout error: no receipt for " ++ hash.hex ++ " after " ++ Text.Duration.ofMilliseconds after
  | .cancelled hash => "Cancelled while waiting for the receipt of " ++ hash.hex

/-- A wait for the receipt of a transaction. -/
inductive Waiting
  | starting (hash : Word)
  /-- Until the time to ask. -/
  | resting (hash : Word) (deadline next : Nat)
  /-- For an answer. -/
  | asking (hash : Word) (deadline next : Nat)
  | done (result : Except WaitError Receipt)

namespace Waiting

/-- By how many milliseconds a question may be late and still not move those that follow. -/
def slack : Nat := 5

/-- The time of the next question after one that was due at `due` and is asked now. -/
def nextTime (p : Patience) (due now : Nat) : Nat :=
  (if due + slack < now then now else due) + p.interval

/-- A turn that ends with the deadline and with the relay. -/
def within (p : Patience) (hash : Word) (deadline : Nat) (d : Demand Waiting) : Turn Waiting :=
  ⟨d, some (deadline, .done (.error (.timeout hash p.timeout))),
    some (.done (.error (.cancelled hash))), false⟩

/-- What a wait wants next. -/
def turn (side : Side) (p : Patience) : Waiting → Turn Waiting
  | .starting hash => .plain (.look fun now stop =>
    if stop then .done (.error (.cancelled hash)) else .resting hash (now + p.timeout) now)
  | .resting hash deadline next =>
    within p hash deadline (.pause next fun now => .asking hash deadline (nextTime p next now))
  | .asking hash deadline next => within p hash deadline (.ask side (.receipt hash) fun r =>
    match r with
    | .ok (some receipt) => .done (.ok receipt)
    | _ => .resting hash deadline next)
  | .done _ => .plain .nothing

end Waiting

end EventRelay
