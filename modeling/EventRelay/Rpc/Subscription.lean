import EventRelay.Rpc.Exchange

/-!
# Subscriptions

A node that can is told to send new logs on its own; one that only answers is told to keep them, and
is asked for them again and again. Then it is asked for the logs that are already in the chain, so
that none falls between the two; what is already there comes first. A turn that fails brings no
logs, and the next one is taken as if nothing had happened, unless the node says that it no longer
keeps the filter.
-/

namespace EventRelay.Rpc

/-- What a subscription brought. -/
structure Collected where
  logs : List Log
  /-- Whether no more can come. -/
  ended : Bool

/-- What a node says that no longer keeps a filter. -/
def droppedFilter : String := "filter not found"

/-- Whether a text occurs in another. -/
def occurs (part : List Char) : List Char → Bool
  | [] => part.isEmpty
  | c :: cs => part.isPrefixOf (c :: cs) || occurs part cs

/-- Whether a failure says that the filter is no longer kept. -/
def Failure.isDroppedFilter : Failure → Bool
  | .refused r => occurs droppedFilter.toList r.text.toList
  | _ => false

/-- Asks for the new logs of a filter, and after each but the last turn lets the interval pass. -/
def poll (filter interval : Nat) : (turns : Nat) → Session → Collected × Session
  | 0, s => (⟨[], false⟩, s)
  | turns + 1, s =>
    let (answer, s) := s.ask (.changes filter)
    let (fresh, dropped) := match answer with
      | .ok logs => (logs, false)
      | .error e => ([], e.isDroppedFilter)
    if dropped then (⟨fresh, true⟩, s)
    else
      let s := if turns = 0 then s else { s with now := s.now + interval }
      let (later, s) := poll filter interval turns s
      (⟨fresh ++ later.logs, later.ended⟩, s)

/-- How new logs come to a subscription. -/
inductive Live
  /-- The node is asked for them by the name of its filter. -/
  | kept (filter : Nat)
  | pushed (p : Pushed)

/-- The time at which no more comes, at the latest. -/
def Pushed.last (p : Pushed) (time : Nat) : Nat :=
  match p.lost with
  | some lost => min lost time
  | none => time

/-- What comes until a time. A notice that is no log is left out. -/
def Pushed.upTo (p : Pushed) (time : Nat) : Collected :=
  let heard := p.notices.filter (·.1 ≤ p.last time)
  ⟨heard.filterMap (log? ·.2), p.lost.any (· ≤ time)⟩

namespace Session

/-- Asks for the new logs of a filter, as the line allows. -/
def watch (s : Session) (transport : Transport) (f : LogFilter) :
    Except ChainError Live × Session :=
  match transport with
  | .ws =>
    match s.pushes with
    | none => (.error ((Question.subscription f).error .noSubscriptions), s)
    | some pushes =>
      match s.ask (.subscription f) with
      | (.error e, s) => (.error ((Question.subscription f).error e), s)
      | (.ok _, s) => (.ok (.pushed (pushes f s.now)), s)
  | .http =>
    match s.ask (.newFilter f) with
    | (.error e, s) => (.error ((Question.newFilter f).error e), s)
    | (.ok filter, s) => (.ok (.kept filter), s)

/-- Asks for the logs that are already there, from the block of a filter on. -/
def backfill (s : Session) (f : LogFilter) : Except ChainError (List Log) × Session :=
  match f.fromBlock with
  | none => (.ok [], s)
  | some _ =>
    match s.ask (.logs f) with
    | (.error e, s) => (.error ((Question.logs f).error e), s)
    | (.ok logs, s) => (.ok logs, s)

/-- Collects new logs for some time. -/
def collect (s : Session) (live : Live) (interval span : Nat) : Collected × Session :=
  match live with
  | .kept filter =>
    let (live, s') := poll filter interval (span / interval + 1) s
    (live, if live.ended then s' else { s' with now := s.now + span })
  | .pushed p =>
    (p.upTo (s.now + span), { s with now := max s.now (p.last (s.now + span)) })

/-- Subscribes to the logs of a filter and collects them for some time. The new ones are asked for
before those that are already there, and without the block of the filter. -/
def subscribe (s : Session) (transport : Transport) (interval : Nat) (f : LogFilter) (span : Nat) :
    Except ChainError Collected × Session :=
  match s.watch transport { f with fromBlock := none } with
  | (.error e, s) => (.error e, s)
  | (.ok live, s) =>
    match s.backfill f with
    | (.error e, s) => (.error e, s)
    | (.ok past, s) =>
      let (live, s) := s.collect live interval span
      (.ok ⟨past ++ live.logs, live.ended⟩, s)

end Session

end EventRelay.Rpc
