import EventRelay.Rehearsal.Stage
import EventRelay.Relay.Attempt

/-!
# Walking through the states of an attempt

`walk` takes an attempt from state to state and keeps, for each state, the stage on which it was
reached. The last state is visited twice: nothing follows it but itself.
-/

namespace EventRelay.Rehearsal

open Relay (Attempt State)

/-- A state of an attempt, and the stage with what was asked on the way to it. -/
structure Visit where
  state : State
  stage : Stage

/-- The visits that follow a state; `count` bounds them. -/
def visitsFrom (r : Relay) : (count : Nat) → Run Attempt → State → List Visit
  | 0, _, _ => []
  | count + 1, run, s =>
    let run := (run.resume [Attempt.ofState r s]).finished (Attempt.turn r)
    match run.endings with
    | [.resting next] =>
      let visit : Visit := ⟨next, run.stage⟩
      if s.isTerminal then [visit]
      else visit :: visitsFrom r count { run with stage := run.stage.forget } next
    | _ => []

/-- All states of the attempt that begins with a log; none when no attempt does. -/
def walk (r : Relay) (stage : Stage) (stop : Stop) (log : Log) : List Visit :=
  match r.match? log with
  | none => []
  | some s => ⟨s, stage⟩ :: visitsFrom r 4 (Run.start stage stop []) s

end EventRelay.Rehearsal
