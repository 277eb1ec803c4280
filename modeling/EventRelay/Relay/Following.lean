import EventRelay.Relay.Attempt

/-!
# Following the public contract

A relay subscribes to the logs that have a rule and starts a course for each. When a subscription
ends it opens the next one, from the block of the last log that stood somewhere, and passes over
the logs that do not stand after that one. Before there is such a log it goes on from the block it
was told, or else from the newest block at the time of an earlier opening. A subscription that
cannot be opened is tried again after longer and longer pauses. Once told to stop, the relay takes
no more logs and waits for the courses under way. While it opens a subscription, what it waits for
and the end may be there at once; then either goes first.
-/

namespace EventRelay.Relay

/-- How often a subscription that cannot be opened is tried again. -/
def maxRetries : Nat := 10

/-- The pause before a further try, in milliseconds: doubled each time up to a limit. -/
def retryPause (retry : Nat) : Nat := min (500 * Nat.pow 2 retry) 30000

/-- Whether a position stands at or before another. -/
def atOrBefore (a b : UInt64 × UInt64) : Bool := a.1 < b.1 || (a.1 = b.1 && a.2 ≤ b.2)

/-- What a relay is doing while it follows. -/
inductive Phase
  /-- It is about to open a subscription. -/
  | turning
  /-- It asks for the newest block. -/
  | heading
  /-- It subscribes for the given time again. -/
  | opening (head : Option UInt64) (retries : Nat)
  | retrying (head : Option UInt64) (retries : Nat)
  /-- It waits before it subscribes again. -/
  | pausing (head : Option UInt64) (retries : Nat) (time : Nat)
  | opened (head : Option UInt64)
  | listening
  /-- It starts a course for a log. -/
  | handing (log : Log)
  /-- It waits for the courses under way. -/
  | leaving (result : Except RelayError Unit)
  | done (result : Except RelayError Unit)

/-- A relay that follows the public contract. -/
structure Following where
  /-- Where the last log stood that was handed on and stood somewhere. -/
  last : Option (UInt64 × UInt64)
  /-- The block to subscribe from. -/
  fromBlock : Option UInt64
  phase : Phase

/-- What runs in a relay. -/
inductive Task
  | following (f : Following)
  | course (c : Course)

namespace Following

/-- A relay that begins to follow. -/
def start (r : Relay) : Following := ⟨none, r.fromBlock, .turning⟩

/-- Goes on in another phase. -/
def enter (f : Following) (p : Phase) : Task := .following { f with phase := p }

/-- A turn that ends when the relay stops. -/
def untilStopped (f : Following) (d : Demand Task) : Turn Task :=
  ⟨d, none, some (f.enter (.leaving (.ok ()))), false⟩

/-- A turn that ends when the relay stops or with what it wants, whichever is looked at first. -/
def orStopped (f : Following) (d : Demand Task) : Turn Task :=
  { f.untilStopped d with fair := true }

/-- Turns to the next subscription. -/
def reopen (f : Following) (stop : Bool) : Task :=
  if stop then f.enter (.leaving (.ok ()))
  else
    let f := match f.last with
      | some (block, _) => { f with fromBlock := some block }
      | none => f
    match f.fromBlock with
    | some _ => f.enter (.opening none 0)
    | none => f.enter .heading

/-- Takes what a subscription sends. -/
def take (f : Following) : Option Log → Task
  | none => f.enter .turning
  | some log =>
    match log.position? with
    | none => f.enter (.handing log)
    | some position =>
      if f.last.any (atOrBefore position) then f.enter .listening
      else { f with last := some position }.enter (.handing log)

/-- What a relay that follows wants next. -/
def turn (r : Relay) (f : Following) : Turn Task :=
  match f.phase with
  | .turning => .plain (.look fun _ stop => f.reopen stop)
  | .heading => f.orStopped (.ask .pub .blockNumber fun answer =>
    match answer with
    | .ok head => f.enter (.opening (some head) 0)
    | .error _ => f.enter (.opening none 0))
  | .opening head retries =>
    f.orStopped (.ask .pub (.subscribe (r.filter f.fromBlock)) fun answer =>
      match answer with
      | .ok () => f.enter (.opened head)
      | .error e =>
        if retries < maxRetries then f.enter (.retrying head retries)
        else f.enter (.leaving (.error (.subscription e.message))))
  -- A pause that only begins is never over when the relay stops.
  | .retrying head retries => f.untilStopped (.look fun now _ =>
    f.enter (.pausing head (retries + 1) (now + retryPause retries)))
  | .pausing head retries time =>
    f.orStopped (.pause time fun _ => f.enter (.opening head retries))
  | .opened head =>
    .plain (.count .opened ({ f with fromBlock := f.fromBlock <|> head }.enter .listening))
  | .listening => f.untilStopped (.receive .pub f.take)
  | .handing log => .plain (.spawn (.course (.arriving log)) (f.enter .listening))
  | .leaving result => .plain (.join (f.enter (.done result)))
  | .done _ => .plain .nothing

end Following

/-- What a task wants next. -/
def Task.turn (r : Relay) : Task → Turn Task
  | .following f => f.turn r
  | .course c => (c.turn r).map .course

end EventRelay.Relay
