import EventRelay.Relay.Basic

/-!
# Attempts

An attempt carries one event through to a terminal state. `Attempt` is what it does between two
states: send the target call, wait for its receipt, then for each log of the receipt that asks for
it send a callback and wait for its receipt, one after the other. The first failure ends it.
`Course` takes a log from its arrival through all states and counts on the way.
-/

namespace EventRelay.Relay

/-- What an attempt knows while it calls back. -/
structure CallingBack where
  /-- The target transaction. -/
  tx : Word
  rule : Rule
  /-- The side of the callback that is under way. -/
  target : Side
  /-- The logs not yet looked at. -/
  rest : List Log
  /-- The callbacks that took effect. -/
  sent : List Pending

/-- What an attempt does. -/
inductive Attempt
  | sendingTarget (rule : Rule) (s : Sending)
  | awaitingTarget (p : Pending) (w : Waiting)
  | sendingCallback (c : CallingBack) (s : Sending)
  | awaitingCallback (c : CallingBack) (p : Pending) (w : Waiting)
  /-- Nothing: it is in a state. -/
  | resting (s : State)

namespace Attempt

/-- Goes on to the next log that asks for a callback. -/
def nextCallback (r : Relay) (tx : Word) (rule : Rule) (sent : List Pending) : List Log → Attempt
  | [] => .resting (if sent.isEmpty then .noCallback tx else .calledBack tx sent)
  | log :: rest =>
    let asking : Option (Abi.Signature × Callback) := do
      guard (log.address = r.priv.contract)
      let signature ← log.topic0.bind r.registries.priv.resolve?
      let callback ← rule.callbackFor? signature.name
      pure (signature, callback)
    match asking with
    | none => nextCallback r tx rule sent rest
    | some (signature, callback) =>
      match signature.decode log with
      | .error e => .resting (.decodeFailed (.decode e))
      | .ok decoded =>
        match r.callFor callback.target callback.call decoded with
        | .error e => .resting (.callbackFailed tx e)
        | .ok call => .sendingCallback ⟨tx, rule, callback.target, rest, sent⟩ (.queued call)

/-- What an attempt does in a state. -/
def ofState (r : Relay) : State → Attempt
  | .matched _ decoded rule =>
    match r.callFor .priv rule.call decoded with
    | .ok call => .sendingTarget rule (.queued call)
    | .error e => .resting (.submitFailed e)
  | .submitted p => .awaitingTarget p (.starting p.hash)
  | .mined p receipt =>
    if p.rule.callback.isSome then nextCallback r p.hash p.rule [] receipt.logs
    else .resting (.noCallback p.hash)
  | s => .resting s

/-- The receipt of a transaction that took effect. -/
def effective : Except WaitError Receipt → (hash : Word) → Except RelayError Receipt
  | .error e, _ => .error (.wait e)
  | .ok receipt, hash => if receipt.status then .ok receipt else .error (.reverted hash)

/-- Goes on after sending the target call. -/
def afterTarget (rule : Rule) : Sending → Attempt
  | .done (.ok s) => .resting (.submitted ⟨s.hash, s.nonce, .priv, .submitted, rule⟩)
  | .done (.error e) => .resting (.submitFailed (.chain e))
  | s => .sendingTarget rule s

/-- Goes on after waiting for the receipt of the target call. -/
def afterTargetReceipt (p : Pending) : Waiting → Attempt
  | .done result =>
    match effective result p.hash with
    | .ok receipt => .resting (.mined { p with status := .mined } receipt)
    | .error e => .resting (.receiptFailed { p with status := .failed } e)
  | w => .awaitingTarget p w

/-- Goes on after sending a callback. -/
def afterCallback (c : CallingBack) : Sending → Attempt
  | .done (.ok s) =>
    .awaitingCallback c ⟨s.hash, s.nonce, c.target, .submitted, c.rule⟩ (.starting s.hash)
  | .done (.error e) => .resting (.callbackFailed c.tx (.chain e))
  | s => .sendingCallback c s

/-- Goes on after waiting for the receipt of a callback. -/
def afterCallbackReceipt (r : Relay) (c : CallingBack) (p : Pending) : Waiting → Attempt
  | .done result =>
    match effective result p.hash with
    | .ok _ => nextCallback r c.tx c.rule (c.sent ++ [{ p with status := .mined }]) c.rest
    | .error e => .resting (.callbackFailed c.tx e)
  | w => .awaitingCallback c p w

/-- What an attempt wants next. -/
def turn (r : Relay) : Attempt → Turn Attempt
  | .sendingTarget rule s => (s.turn r.priv.account).map (afterTarget rule)
  | .awaitingTarget p w => (w.turn p.side (r.patience p.side)).map (afterTargetReceipt p)
  | .sendingCallback c s => (s.turn (r.side c.target).account).map (afterCallback c)
  | .awaitingCallback c p w => (w.turn p.side (r.patience p.side)).map (afterCallbackReceipt r c p)
  | .resting _ => .plain .nothing

/-- The state in which an attempt rests. -/
def state? : Attempt → Option State
  | .resting s => some s
  | _ => none

end Attempt

/-- The way of a log through the relay. -/
inductive Course
  | arriving (log : Log)
  /-- An attempt begins in a state. -/
  | entering (s : State)
  | moving (a : Attempt)
  /-- The attempt is over. -/
  | finishing (s : State)
  | leaving (s : State)
  /-- The log is dealt with: the last state of the attempt, if there was one. -/
  | done (s : Option State)

namespace Course

/-- Goes on from a state. -/
def ofState (r : Relay) (s : State) : Course :=
  if s.isTerminal then .finishing s
  else
    match Attempt.ofState r s with
    | .resting s => .finishing s
    | a => .moving a

/-- Goes on with what an attempt does. -/
def ofAttempt (r : Relay) : Attempt → Course
  | .resting s => ofState r s
  | a => .moving a

/-- What a log on its way wants next. -/
def turn (r : Relay) : Course → Turn Course
  | .arriving log =>
    match r.match? log with
    | some s => .plain (.count .matched (.entering s))
    | none => .plain (.count .ignored (.done none))
  | .entering s => .plain (.count .enter (ofState r s))
  | .moving a => (a.turn r).map (ofAttempt r)
  | .finishing s => .plain (.count (.finished s.name) (.leaving s))
  | .leaving s => .plain (.count .leave (.done (some s)))
  | .done _ => .plain .nothing

end Course

end EventRelay.Relay
