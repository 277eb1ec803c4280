import EventRelay.Text.Decimal

/-!
# Metrics

What the relay counts, and the text in which a collector reads it: one family after the other in
order of their names, the samples of a family in order of their labels. A labelled family without
samples does not appear.
-/

namespace EventRelay

/-- The counts of a relay. -/
structure Metrics where
  /-- Source events that matched a rule. -/
  matched : Nat
  /-- Source events that matched none. -/
  ignored : Nat
  /-- Subscriptions opened. -/
  opened : Nat
  /-- Attempts that have begun and not ended. -/
  inFlight : Int
  /-- Ended attempts by the name of their last state, in order of the names. -/
  finished : List (String × Nat)
  /-- Submitted transactions by chain, in order of the names. -/
  submitted : List (String × Nat)
  deriving DecidableEq

namespace Metrics

/-- The counts at the start. -/
def zero : Metrics := ⟨0, 0, 0, 0, [], []⟩

/-- One more for a label. -/
def bump (label : String) : List (String × Nat) → List (String × Nat)
  | [] => [(label, 1)]
  | (l, n) :: rest =>
    if label < l then (label, 1) :: (l, n) :: rest
    else if label = l then (l, n + 1) :: rest
    else (l, n) :: bump label rest

/-- The count of a label. -/
def count (label : String) (samples : List (String × Nat)) : Nat :=
  ((samples.find? (·.1 = label)).map (·.2)).getD 0

/-- What can be counted. -/
inductive Event
  | matched
  | ignored
  | opened
  | enter
  | leave
  | finished (outcome : String)
  | submitted (chain : String)
  deriving DecidableEq

/-- Counts an event. -/
def record (m : Metrics) : Event → Metrics
  | .matched => { m with matched := m.matched + 1 }
  | .ignored => { m with ignored := m.ignored + 1 }
  | .opened => { m with opened := m.opened + 1 }
  | .enter => { m with inFlight := m.inFlight + 1 }
  | .leave => { m with inFlight := m.inFlight - 1 }
  | .finished outcome => { m with finished := bump outcome m.finished }
  | .submitted chain => { m with submitted := bump chain m.submitted }

/-- The text of a label's value between its quotes. -/
def labelText (s : String) : String :=
  String.ofList (s.toList.flatMap fun c =>
    if c = '\\' then ['\\', '\\']
    else if c = '"' then ['\\', '"']
    else if c = '\n' then ['\\', 'n']
    else [c])

/-- A family: what it is about, its kind, and its samples. -/
structure Family where
  name : String
  help : String
  kind : String
  samples : List String

/-- A family of one sample without a label. -/
def single (name help kind : String) (value : Int) : Family :=
  ⟨name, help, kind, [name ++ " " ++ Text.Decimal.ofInt value]⟩

/-- A family of counters with a label. -/
def labelled (name help label : String) (samples : List (String × Nat)) : Family :=
  ⟨name, help, "counter", samples.map fun (v, n) =>
    name ++ "\x7b" ++ label ++ "=\"" ++ labelText v ++ "\"\x7d " ++ Text.Decimal.ofNat n⟩

/-- All families in order of their names. -/
def families (m : Metrics) : List Family :=
  [labelled "relay_attempts_finished_total" "Relay attempts by terminal state" "outcome" m.finished,
   single "relay_attempts_in_flight" "Relay attempts not yet finished" "gauge" m.inFlight,
   single "relay_events_ignored_total" "Source events without a matching rule" "counter" m.ignored,
   single "relay_events_matched_total" "Source events that matched a relay rule" "counter"
     m.matched,
   single "relay_subscriptions_opened_total" "Source event subscriptions opened" "counter"
     m.opened,
   labelled "relay_transactions_submitted_total" "Transactions submitted per chain" "chain"
     m.submitted]

/-- The lines about one family. -/
def Family.lines (f : Family) : List String :=
  if f.samples.isEmpty then []
  else ("# HELP " ++ f.name ++ " " ++ f.help) :: ("# TYPE " ++ f.name ++ " " ++ f.kind) :: f.samples

/-- The samples of all families. -/
def samples (m : Metrics) : List String := m.families.flatMap (·.samples)

/-- The text for a collector. -/
def text (m : Metrics) : String :=
  String.join ((m.families.flatMap Family.lines).map (· ++ "\n"))

end Metrics

end EventRelay
