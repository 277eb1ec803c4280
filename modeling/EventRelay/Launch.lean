import EventRelay.Chain.Error
import EventRelay.CommandLine.Reader
import EventRelay.Journal.Setup
import EventRelay.Metrics.Address
import EventRelay.Rehearsal.Stage
import EventRelay.Relay.Assembly
import EventRelay.Relay.Following

/-!
# Launching the relay

A launch takes the relay from its arguments and variables to its end. The configuration is loaded,
the public and then the private node connected, the relay assembled and the metrics served; then it
follows the public contract until it gives up or is interrupted. Each step may be the last one.
The journal gets what is told on the way, with the time since the launch.
-/

namespace EventRelay.Launch

open CommandLine (Arguments)
open Journal (Record)
open Rehearsal (Node Stage Stop rehearse)
open Relay (Assembly AssemblyError RelayError Task)

/-- The nodes: the one that is reached at an endpoint, or what the transport says instead. -/
def Network := Endpoint → Except String Node

/-- The network on which there is no node. -/
def Network.empty : Network := fun _ => .error "no node"

/-- How a launch ends. -/
inductive Outcome
  /-- With an error and its causes. -/
  | failed (causes : List String)
  /-- The relay is over. -/
  | stopped
  /-- Never: something is waited for that does not come. -/
  | waiting
  deriving DecidableEq

/-- What a launch has told, with the times, and the present time. -/
structure Diary where
  now : Nat
  told : List (Nat × Record)

/-- A part of a launch, which may be the last one. -/
abbrev Part := ExceptT Outcome (StateM Diary)

/-- Tells a record. -/
def tell (r : Record) : Part Unit := modify fun d => { d with told := d.told ++ [(d.now, r)] }

/-- Goes to a later time. -/
def goTo (time : Nat) : Part Unit := modify fun d => { d with now := max d.now time }

/-! ## What is told -/

/-- Where the relay tells what concerns all of it. -/
def mainTarget : String := "cross_chain_relay"

/-- Where the start of the relay is told. -/
def bootstrapTarget : String := "cross_chain_relay::bootstrap"

/-- Where connections to nodes are told. -/
def clientTarget : String := "cross_chain_relay::services::blockchain::clients::evm::client"

/-- Where the metrics server tells what it does. -/
def metricsTarget : String := "cross_chain_relay::utils::metrics::server"

/-- Where errors of configurations are told. -/
def configTarget : String := "cross_chain_relay::models::config::error"

/-- Where errors of nodes are told. -/
def chainTarget : String := "cross_chain_relay::services::blockchain::error"

/-- Where errors of rules are told. -/
def rulesTarget : String := "cross_chain_relay::services::dispatch::error"

/-- A record without fields about what goes on. -/
def note (target message : String) : Record := ⟨.info, target, message, []⟩

/-- The record of an error. -/
def complaint (target message : String) : Record := ⟨.error, target, message, []⟩

/-- The text of an error of a configuration. -/
def configText (e : ConfigError) : String := e.message?.getD "Parse error"

/-- The records of an error of a configuration. -/
def configComplaints (e : ConfigError) : List Record :=
  e.trail.map fun e => complaint configTarget (configText e)

/-- Ends a launch with an error. -/
def fail {α : Type} (complaints : List Record) (causes : List String) : Part α := do
  complaints.forM tell
  throw (.failed causes)

/-! ## Nodes -/

/-- The name of a transport in the journal. -/
def transportText : Transport → String
  | .http => "Http"
  | .ws => "Ws"

/-- The node of an endpoint once it has said which chain it is on. -/
def connected (e : Endpoint) (n : Node) : Part (Except ChainError Node) := do
  let (reply, n) := n.ask (← get).now .chainId
  match reply with
  | none => throw .waiting
  | some reply =>
    goTo ((← get).now + n.latency)
    match reply with
    | .error error => return .error (e.silent error.text)
    | .ok id =>
      tell ⟨.debug, clientTarget, "connected to node",
        [("url", e.url), ("chain_id", Text.Decimal.ofNat id.toNat)]⟩
      return .ok n

/-- Connects to the node of a side. -/
def connect (network : Network) (c : Config) (side : Side) : Part Node := do
  match (c.chain side).endpoint with
  | .error e =>
    let e : ConfigError := .validation (.url e)
    fail (configComplaints e) [configText e]
  | .ok endpoint =>
    let answer ← match network endpoint with
      | .error text => pure (.error (endpoint.unreachable text))
      | .ok n => connected endpoint n
    match answer with
    | .error e =>
      fail [complaint chainTarget e.message]
        ["failed to connect to the " ++ side.name ++ " chain", e.message]
    | .ok n =>
      tell ⟨.info, bootstrapTarget, "chain client ready",
        [("chain", side.name), ("url", endpoint.url),
          ("transport", transportText endpoint.transport)]⟩
      return n

/-! ## The relay -/

/-- The records of an error of an assembly. -/
def assemblyComplaints : AssemblyError → List Record
  | .config _ e => configComplaints e
  | .chainId _ e => [complaint chainTarget e.message]
  | .rules e => [complaint rulesTarget e.message]

/-- The record of a side that can send. -/
def readiness (c : Config) (env : Environment) (files : FileTree) (side : Side) : List Record :=
  match Assembly.prepare c env files side with
  | .error _ => []
  | .ok p => [⟨.info, bootstrapTarget, "sender ready",
      [("chain", side.name), ("account", p.key.address.checksummed),
        ("contract", p.binding.address.checksummed)]⟩]

/-- The sides that could send when an assembly was over or went no further; the node of the private
side was asked `count` times before. -/
def ready (count : Nat) (after : Stage) : List Assembly → List Side
  | [.done (.ok _)] => [.pub, .priv]
  | [.done (.error e)] =>
    match e.side? with
    | some .pub => []
    | some .priv => [.pub]
    | none => [.pub, .priv]
  | _ => if count < (after.asked .priv).length then [.pub] else []

/-- Assembles the relay. -/
def assemble (c : Config) (env : Environment) (files : FileTree) (pub priv : Node) :
    Part (Relay × Stage) := do
  let stage : Stage := { Stage.opening pub priv with now := (← get).now }
  let (after, built) := rehearse (Assembly.turn c env files) stage .never
    [Assembly.start c env files]
  for side in ready (stage.asked .priv).length after built do
    goTo (match side with
      | .pub => stage.now + pub.latency
      | .priv => after.now)
    (readiness c env files side).forM tell
  goTo after.now
  match built with
  | [.done (.ok r)] =>
    tell ⟨.info, bootstrapTarget, "relay engine initialized",
      [("rules", Text.Decimal.ofNat r.dispatch.rules.length)]⟩
    return (r, after)
  | [.done (.error e)] => fail (assemblyComplaints e) e.causes
  | _ => throw .waiting

/-- Serves the metrics if that is wanted. -/
def serveMetrics (a : Arguments) (env : Environment) : Part Unit := do
  if a.has .metrics || env.get? "METRICS_ENABLED" = some "true" then
    let address := (a.value? .metricsAddress).getD Metrics.defaultAddress
    tell (note mainTarget ("Metrics server enabled, starting on " ++ address))
    tell (note metricsTarget ("Starting metrics server on " ++ address ++ " (actual bind: " ++
      Metrics.effectiveAddress env address ++ ")"))
    match Metrics.bind env address with
    | .ok () => pure ()
    | .error e => tell (complaint mainTarget ("Failed to create metrics server: " ++ e.message))
  else
    tell (note mainTarget
      "Metrics server disabled. Use --metrics flag or METRICS_ENABLED=true to enable")

/-- When the relay is told to stop: at the interrupt, if there is one. -/
def stopAt : (interrupt : Option Nat) → Stop
  | some ms => .toldAfter ms
  | none => .never

/-- The relay follows the public contract on a stage, and may be interrupted. -/
def follow (r : Relay) (stage : Stage) (interrupt : Option Nat) : Rehearsal.Run Task :=
  (Rehearsal.Run.start stage (stopAt interrupt) [Task.following (.start r)]).finished (Task.turn r)

/-- What a relay that follows has come to. -/
def result? (run : Rehearsal.Run Task) : Option (Except RelayError Unit) :=
  match run.activities.head? with
  | some (.ended (.following ⟨_, _, .done result⟩)) => some result
  | _ => none

/-- How a launch ends with a relay that followed. An error counts only while nobody has interrupted
it. -/
def verdict (run : Rehearsal.Run Task) : Outcome :=
  match result? run with
  | none => .waiting
  | some (.ok ()) => .stopped
  | some (.error e) => if run.told then .stopped else .failed ["relay stopped", e.message]

/-- Tells how a relay stopped that was interrupted at a time. -/
def tellShutdown (run : Rehearsal.Run Task) (time : Nat) : Part Unit := do
  goTo time
  tell (note mainTarget "Shutdown signal received, stopping relay...")
  goTo run.stage.now
  match result? run with
  | none => pure ()
  | some (.ok ()) => tell (note mainTarget "Shutdown complete")
  | some (.error e) =>
    tell (complaint mainTarget ("Relay stopped with an error: " ++ e.message))
    tell (note mainTarget "Shutdown complete")

/-- Lets the relay follow the public contract until it is over. -/
def serve (r : Relay) (stage : Stage) (interrupt : Option Nat) : Part Outcome := do
  tell (note mainTarget "Relay started. Press Ctrl+C to shutdown")
  let run := follow r stage interrupt
  if run.told then tellShutdown run (stage.now + interrupt.getD 0)
  return verdict run

/-! ## The whole launch -/

/-- The configuration where none is named. -/
def defaultConfig : String := "config/relay.json"

/-- The path of the configuration. -/
def configPath (env : Environment) : String := (env.get? "RELAY_CONFIG").getD defaultConfig

/-- Loads the configuration. -/
def load (env : Environment) (files : FileTree) : Part Config := do
  let path := configPath env
  match Config.load files path with
  | .error e =>
    fail (configComplaints e) ["failed to load relay configuration from " ++ path, configText e]
  | .ok c =>
    tell ⟨.info, mainTarget, "configuration loaded",
      [("path", path), ("rules", Text.Decimal.ofNat c.rules.length)]⟩
    return c

/-- Connects to both nodes and assembles the relay. -/
def bootstrap (network : Network) (c : Config) (env : Environment) (files : FileTree) :
    Part (Relay × Stage) := do
  let pub ← connect network c .pub
  let priv ← connect network c .priv
  assemble c env files pub priv

/-- Launches the relay. -/
def launch (network : Network) (interrupt : Option Nat) (a : Arguments) (env : Environment)
    (files : FileTree) : Part Outcome := do
  let c ← load env files
  let (r, stage) ← bootstrap network c env files
  serveMetrics a env
  serve r stage interrupt

/-- What comes of a part of a launch at its start: the outcome, and what was told. -/
def run (p : Part Outcome) : Outcome × List (Nat × Record) :=
  let (result, diary) := Id.run (p.run.run ⟨0, []⟩)
  match result with
  | .ok outcome => (outcome, diary.told)
  | .error outcome => (outcome, diary.told)

end EventRelay.Launch
