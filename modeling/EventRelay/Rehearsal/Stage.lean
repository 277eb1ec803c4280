import EventRelay.Chain.Activity
import EventRelay.Rehearsal.Node

/-!
# Rehearsals

A rehearsal runs activities against scripted nodes, on a clock that moves only when every activity
waits, and then to the next time at which one of them goes on. Activities that can go on do so in
the order in which they became able to, each until it has to wait. The right to send on a side goes
to whoever has waited longest for it. When the relay is told to stop at a time, that comes before
everything else at that time, but after what is due at the start.
-/

namespace EventRelay.Rehearsal

/-- The right to send on a side. -/
structure Permit where
  /-- What was left about the next nonce. -/
  nonce : Option UInt64
  /-- Whether an activity has the right. -/
  held : Bool
  /-- Which activities wait for it, the first in front. -/
  queue : List Nat

/-- The right that nobody has used. -/
def Permit.fresh : Permit := ⟨none, false, []⟩

/-- What outlives the activities: the clock, the nodes, the rights to send, the counts. -/
structure Stage where
  now : Nat
  pub : Node
  priv : Node
  pubPermit : Permit
  privPermit : Permit
  metrics : Metrics

namespace Stage

/-- The stage at the start. -/
def opening (pub priv : Node) : Stage := ⟨0, pub, priv, .fresh, .fresh, .zero⟩

/-- The node of a side. -/
def node (s : Stage) : Side → Node
  | .pub => s.pub
  | .priv => s.priv

/-- The stage with another node on a side. -/
def setNode (s : Stage) (side : Side) (n : Node) : Stage :=
  match side with
  | .pub => { s with pub := n }
  | .priv => { s with priv := n }

/-- The right to send on a side. -/
def permit (s : Stage) : Side → Permit
  | .pub => s.pubPermit
  | .priv => s.privPermit

/-- The stage with another right to send on a side. -/
def setPermit (s : Stage) (side : Side) (p : Permit) : Stage :=
  match side with
  | .pub => { s with pubPermit := p }
  | .priv => { s with privPermit := p }

/-- The stage without the record of what was asked. -/
def forget (s : Stage) : Stage :=
  { s with pub := { s.pub with asked := [] }, priv := { s.priv with asked := [] } }

/-- What the node of a side was asked, in order. -/
def asked (s : Stage) (side : Side) : List Asked := (s.node side).asked.reverse

end Stage

/-- When and how the relay is told to stop, from the start of a run. -/
inductive Stop
  | never
  /-- It was told before. -/
  | already
  /-- Nobody is left to tell it. -/
  | deserted
  | toldAfter (ms : Nat)
  | desertedAfter (ms : Nat)

/-- How an activity stands. -/
inductive Standing (α : Type)
  /-- It can go on. -/
  | able (a : α)
  /-- It waits: how it goes on at a time, at its deadline, and when the relay stops, and its place
  among those that wait. -/
  | waiting (at? deadline : Option (Nat × α)) (cancelled : Option α) (place : Nat)
  /-- It waits for the right to send. -/
  | queueing (acquired : Option UInt64 → α)
  /-- It waits for all others. -/
  | joining (next : α)
  | ended (a : α)

/-- A run of activities. -/
structure Run (α : Type) where
  stage : Stage
  activities : List (Standing α)
  /-- The activities that can go on, the next in front. -/
  able : List Nat
  /-- The time at which the relay is told to stop, and whether it is told or deserted. -/
  plan : Option (Nat × Bool)
  /-- Whether the relay was told to stop. -/
  told : Bool
  /-- Whether the relay stops. -/
  stopping : Bool
  /-- The next place among those that wait. -/
  place : Nat

namespace Run

/-- A run of activities at its start. -/
def start {α : Type} (stage : Stage) (stop : Stop) (activities : List α) : Run α :=
  let plan := match stop with
    | .toldAfter ms => some (stage.now + ms, true)
    | .desertedAfter ms => some (stage.now + ms, false)
    | _ => none
  let told := match stop with
    | .already => true
    | _ => false
  let stopping := match stop with
    | .already | .deserted => true
    | _ => false
  ⟨stage, activities.map .able, List.range activities.length, plan, told, stopping, 0⟩

variable {α : Type}

/-- The run with other activities, at the time and with the plan that it has. -/
def resume {β : Type} (r : Run α) (activities : List β) : Run β :=
  ⟨r.stage, activities.map .able, List.range activities.length, r.plan, r.told, r.stopping, r.place⟩

/-- Puts an activity somewhere. -/
def put (r : Run α) (i : Nat) (s : Standing α) : Run α :=
  { r with activities := r.activities.set i s }

/-- Lets an activity go on as `a`. -/
def goOn (r : Run α) (i : Nat) (a : α) : Run α := r.put i (.able a)

/-- Takes the activity in front off the list of those that can go on. -/
def park (r : Run α) (i : Nat) (s : Standing α) : Run α :=
  { r.put i s with able := r.able.tail }

/-- Lets the activity in front wait for a time, its deadline or the end of the relay. -/
def wait (r : Run α) (i : Nat) (t : Turn α) (at? : Option (Nat × α)) : Run α :=
  { r.park i (.waiting at? t.deadline t.cancelled r.place) with place := r.place + 1 }

/-- Lets the activity in front go on as `a` after a delay. -/
def delay (r : Run α) (i : Nat) (t : Turn α) (ms : Nat) (a : α) : Run α :=
  if ms = 0 then r.goOn i a else r.wait i t (some (r.stage.now + ms, a))

/-- Whether an activity has ended. -/
def hasEnded : Standing α → Bool
  | .ended _ => true
  | _ => false

/-- Whether an activity has ended or only waits for the others. -/
def isIdle : Standing α → Bool
  | .ended _ | .joining _ => true
  | _ => false

/-- The first activity that waits for all others, and how it goes on. -/
def joiner? (r : Run α) : Option (Nat × α) :=
  (List.range r.activities.length).findSome? fun (j : Nat) =>
    match r.activities[j]? with
    | some (.joining next) => some (j, next)
    | _ => none

/-- Ends the activity in front. If no other goes on, the first that waits for all others does. -/
def finish (r : Run α) (i : Nat) (a : α) : Run α :=
  let r := r.park i (.ended a)
  if r.activities.all isIdle then
    match r.joiner? with
    | some (j, next) => { r.goOn j next with able := r.able ++ [j] }
    | none => r
  else r

/-- Gives the right to send to the activity in front, or lets it queue. -/
def acquire (r : Run α) (i : Nat) (side : Side) (acquired : Option UInt64 → α) : Run α :=
  let p := r.stage.permit side
  if p.held then
    { r.park i (.queueing acquired) with
      stage := r.stage.setPermit side { p with queue := p.queue ++ [i] } }
  else
    { r.goOn i (acquired p.nonce) with stage := r.stage.setPermit side { p with held := true } }

/-- Takes the right to send back and gives it to the next in the queue. -/
def release (r : Run α) (side : Side) (nonce : Option UInt64) : Run α :=
  match (r.stage.permit side).queue with
  | [] => { r with stage := r.stage.setPermit side ⟨nonce, false, []⟩ }
  | j :: rest =>
    let r : Run α := { r with stage := r.stage.setPermit side ⟨nonce, true, rest⟩ }
    match r.activities[j]? with
    | some (.queueing acquired) => { r.put j (.able (acquired nonce)) with able := r.able ++ [j] }
    | _ => r

/-- Lets the activity in front receive from a subscription. -/
def receive (r : Run α) (i : Nat) (t : Turn α) (side : Side) (received : Option Log → α) : Run α :=
  let n := r.stage.node side
  match n.feed.logs with
  | log :: rest =>
    let n := { n with feed := { n.feed with logs := rest } }
    { r with stage := r.stage.setNode side n }.delay i t n.feed.pause (received (some log))
  | [] => if n.feed.ends then r.goOn i (received none) else r.wait i t none

/-- Meets what the activity in front wants, or lets it wait. -/
def meet (r : Run α) (i : Nat) (a : α) (t : Turn α) : Run α :=
  match t.demand with
  | .nothing => r.finish i a
  | .look seen => r.goOn i (seen r.stage.now r.told)
  | .ask side q answered =>
    let n := r.stage.node side
    let (reply, n) := n.ask r.stage.now q
    let r := { r with stage := r.stage.setNode side n }
    match reply with
    | none => r.wait i t none
    | some reply => r.delay i t n.latency (answered reply)
  | .acquire side acquired => r.acquire i side acquired
  | .release side nonce next => (r.release side nonce).goOn i next
  | .pause time resumed =>
    if time ≤ r.stage.now then r.goOn i (resumed r.stage.now)
    else r.wait i t (some (time, resumed time))
  | .receive side received => r.receive i t side received
  | .spawn child next =>
    let r := r.goOn i next
    { r with
      activities := r.activities ++ [.able child], able := r.able ++ [r.activities.length] }
  | .count e next =>
    { r.goOn i next with stage := { r.stage with metrics := r.stage.metrics.record e } }
  | .join next =>
    let r := r.put i (.joining next)
    if r.activities.all isIdle then r.goOn i next else { r with able := r.able.tail }

/-- Lets the activity in front go on by one turn. -/
def advance (turn : α → Turn α) (r : Run α) (i : Nat) (a : α) : Run α :=
  let t := turn a
  match t.deadline, t.cancelled with
  | some (time, late), _ =>
    if time ≤ r.stage.now then r.goOn i late
    else
      match t.cancelled with
      | some a' => if r.stopping then r.goOn i a' else r.meet i a t
      | none => r.meet i a t
  | none, some a' => if r.stopping then r.goOn i a' else r.meet i a t
  | none, none => r.meet i a t

/-- How a waiting activity goes on at the present time, if it does. -/
def due (r : Run α) : Standing α → Option (Nat × α)
  | .waiting at? deadline cancelled place =>
    let reached (x : Option (Nat × α)) : Option α :=
      match x with
      | some (time, a) => if time ≤ r.stage.now then some a else none
      | none => none
    let stopped := if r.stopping then cancelled else none
    ((reached deadline <|> stopped) <|> reached at?).map fun a => (place, a)
  | _ => none

/-- The times at which a waiting activity goes on. -/
def times : Standing α → List Nat
  | .waiting at? deadline _ _ => (at?.map (·.1)).toList ++ (deadline.map (·.1)).toList
  | _ => []

/-- Moves the clock to a time and lets go on what is then due. -/
def moveTo (r : Run α) (time : Nat) : Run α :=
  let r := { r with stage := { r.stage with now := time } }
  let r := match r.plan with
    | some (t, told) =>
      if t ≤ time then { r with plan := none, told := r.told || told, stopping := true } else r
    | none => r
  let found := (List.range r.activities.length).filterMap fun i =>
    match r.activities[i]?.bind r.due with
    | some (place, a) => some (place, i, a)
    | none => none
  let found := found.mergeSort fun a b => a.1 ≤ b.1
  found.foldl (fun r (_, i, a) => { r.put i (.able a) with able := r.able ++ [i] }) r

/-- One step: an activity goes on or the clock moves. There is none when all activities have ended
or none ever goes on. -/
def step (turn : α → Turn α) (r : Run α) : Option (Run α) :=
  match r.able with
  | i :: rest =>
    match r.activities[i]? with
    | some (.able a) => some (r.advance turn i a)
    | _ => some { r with able := rest }
  | [] =>
    if r.activities.all hasEnded then none
    else
      match (r.activities.flatMap times ++ (r.plan.map (·.1)).toList).min? with
      | none => none
      | some time => some (r.moveTo time)

/-- Goes on for a number of steps at most. -/
def steps (turn : α → Turn α) : Nat → Run α → Run α
  | 0, r => r
  | n + 1, r =>
    match r.step turn with
    | none => r
    | some r => steps turn n r

/-- The activities that have ended, in their order. -/
def endings (r : Run α) : List α :=
  r.activities.filterMap fun s =>
    match s with
    | .ended a => some a
    | _ => none

end Run

/-- More steps than a rehearsal takes. -/
def maxSteps : Nat := 10000000

/-- Goes on until all activities have ended or none ever goes on. -/
def Run.finished {α : Type} (turn : α → Turn α) (r : Run α) : Run α := r.steps turn maxSteps

/-- Runs activities to their end: the stage afterwards, and the activities that ended. -/
def rehearse {α : Type} (turn : α → Turn α) (stage : Stage) (stop : Stop) (activities : List α) :
    Stage × List α :=
  let r := (Run.start stage stop activities).finished turn
  (r.stage, r.endings)

end EventRelay.Rehearsal
