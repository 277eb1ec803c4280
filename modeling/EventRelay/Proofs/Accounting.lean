import EventRelay.Proofs.Callbacks
import EventRelay.Proofs.Counting
import EventRelay.Proofs.Course
import EventRelay.Proofs.Tasks

/-!
# What a relay counts

Whatever the nodes answer and whichever task goes on next, the counts of a relay say what became of
the logs that set out. `Course.entries` is what was counted for one log, by what has become of it;
all counts follow from it, except for those of the transactions, which follow from what the nodes
took.

Main statement:

* `accounted`: what the counts of a relay say, at any time of a run.
-/

namespace EventRelay

/-- Whether an event is counted for a log on its way and is not about a transaction. -/
def Metrics.Event.isOfCourse : Metrics.Event → Bool
  | .opened | .submitted _ => false
  | _ => true

/-- The name under which the end of an attempt is counted. -/
def Metrics.Event.outcome? : Metrics.Event → Option String
  | .finished outcome => some outcome
  | _ => none

/-- Whether an activity goes on at once, without waiting for an answer, a time or others. -/
def Demand.isImmediate {α : Type} : Demand α → Bool
  | .look _ | .release .. | .spawn .. | .count .. => true
  | _ => false

/-- What was counted for a log, apart from transactions. -/
def Cause.entry? (x : Cause) : Option Metrics.Event := x.event?.filter Metrics.Event.isOfCourse

/-- How many transactions the node of a side took in a turn. -/
def Cause.took (side : Side) (x : Cause) : Nat := if (taken? x).any (·.1 = side) then 1 else 0

/-- How many transactions of a side were counted in a turn. -/
def Cause.told (side : Side) (x : Cause) : Nat :=
  if x.event? = some (.submitted side.name) then 1 else 0

/-- Whether a call was taken and is not counted yet. -/
def Sending.reports : Sending → Nat
  | .accepted _ => 1
  | _ => 0

theorem Sending.Onward.reports_eq_zero {a : Account} {c : Call} {known : Option UInt64}
    {n : UInt64} {s : Sending} (h : Onward a c known n s) : s.reports = 0 := by
  cases h <;> rfl

/-- A send makes no entry in the metrics itself. -/
theorem Sending.Turned.entry? {a : Account} {s s' : Sending} {x : Cause} (h : Turned a s x s') :
    x.entry? = none := by
  cases h <;> rfl

/-- A call that was taken is counted in the next turn. -/
theorem Sending.Turned.reports {a : Account} {s s' : Sending} {x : Cause} (h : Turned a s x s') :
    x.took a.side + s.reports = x.told a.side + s'.reports := by
  cases h with
  | known c n => rw [(onward_withNonce ..).reports_eq_zero]; rfl
  | counted c n => rw [(onward_withNonce ..).reports_eq_zero]; rfl
  | priced c known n price => rw [(onward_withPrice ..).reports_eq_zero]; rfl
  | taken t hash => simp [Cause.took, Cause.told, taken?, Cause.event?, Sending.reports]
  | reported s => simp [Cause.took, Cause.told, taken?, Cause.event?, Sending.reports]
  | _ => rfl

/-- A wait for a receipt counts nothing and submits nothing. -/
theorem Waiting.Turned.event? {side : Side} {p : Patience} {m : Instant} {w w' : Waiting}
    {x : Cause} (h : Turned side p m w x w') : x.event? = none ∧ taken? x = none := by
  cases h with
  | late w hash deadline hw _ => exact ⟨rfl, rfl⟩
  | _ => exact ⟨rfl, rfl⟩

namespace Relay

variable {r : Relay} {m : Instant} {x : Cause} {hs : List Happening}

namespace Course

/-- What was counted for a log, apart from transactions, by what has become of it. -/
def entries : Course → List Metrics.Event
  | .arriving _ => []
  | .entering _ => [.matched]
  | .moving _ | .finishing _ => [.matched, .enter]
  | .leaving s => [.matched, .enter, .finished s.name]
  | .done (some s) => [.matched, .enter, .finished s.name, .leave]
  | .done none => [.ignored]

/-- The end of an attempt that is over, or about to be. -/
def last? : Course → Option State
  | .finishing s | .leaving s => some s
  | .done s => s
  | _ => none

/-- A log that is over, or about to be, is so in a terminal state. -/
def EndsWell (c : Course) : Prop := ∀ s, c.last? = some s → s.isTerminal = true

/-- A course that has just found its rule ends well. -/
theorem Fresh.endsWell {c : Course} (h : c.Fresh) : c.EndsWell := by
  cases h with
  | finishing s hs =>
    intro s' heq
    obtain rfl := Option.some.inj heq
    exact hs
  | _ => exact fun _ => nofun

/-- No turn makes a course end without a word. -/
theorem Turned.endsWell {c c' : Course} (h : Turned r m c x c') (hc : c.EndsWell) :
    c'.EndsWell := by
  cases h with
  | entered s => exact (fresh_ofState r s).endsWell
  | sentTarget rule nonce result => exact (fresh_afterTarget r rule result).endsWell
  | @awaitedTarget p _ _ result _ => exact (fresh_afterTargetReceipt r p result).endsWell
  | sentCallback c nonce result => exact (fresh_afterCallback r c result).endsWell
  | @awaitedCallback c p _ _ result _ => exact (fresh_afterCallbackReceipt r c p result).endsWell
  | finished s => exact hc
  | left s => exact hc
  | _ => exact fun _ => nofun

/-- Every path of a course ends well. -/
theorem endsWell_of_path {log : Log} {c : Course} (h : Path (Course.turn r) (.arriving log) hs c) :
    c.EndsWell := by
  have hfrom : ∀ {c₀ c : Course} {hs : List Happening}, Path (Course.turn r) c₀ hs c →
      c₀.EndsWell → c.EndsWell := by
    intro c₀ c hs hpath
    induction hpath with
    | here _ => exact id
    | next first _ ih => exact fun h => ih ((turned_of_goes first).endsWell h)
  exact hfrom h fun _ => nofun

/-- How many calls on a side were taken and are not counted yet. -/
def reports (side : Side) : Course → Nat
  | .moving (.sendingTarget _ s) => if Side.priv = side then s.reports else 0
  | .moving (.sendingCallback c s) => if c.target = side then s.reports else 0
  | _ => 0

theorem Fresh.reports_eq_zero {c : Course} (h : c.Fresh) (side : Side) : c.reports side = 0 := by
  cases h <;> first | rfl | exact ite_self _

/-- Whether an attempt was begun, or is about to, and its end is not counted. -/
def isUnderWay : Course → Bool
  | .entering _ | .moving _ | .finishing _ => true
  | _ => false

/-- Whether an attempt was entered and not left. -/
def isInside : Course → Bool
  | .moving _ | .finishing _ | .leaving _ => true
  | _ => false

/-- The name under which the end of an attempt was counted. -/
def outcome? : Course → Option String
  | .leaving s | .done (some s) => some s.name
  | _ => none

/-- Whether a log is dealt with. -/
def isDone : Course → Bool
  | .done _ => true
  | _ => false

end Course

/-- The logs on their way, of all tasks. -/
def courses (e : Ensemble Task) : List Course := e.activities.filterMap Task.course?

/-- The courses of an ensemble are its activities that are courses. -/
theorem mem_courses {e : Ensemble Task} {c : Course} :
    c ∈ courses e ↔ .course c ∈ e.activities := by
  rw [courses, List.mem_filterMap]
  constructor
  · rintro ⟨t, ht, hc⟩
    exact Task.course?_eq_some.mp hc ▸ ht
  · exact fun h => ⟨.course c, h, rfl⟩

/-- What waits for something is either wholly in flight or not, and has nothing to count. -/
theorem Course.settled {c : Course} (h : (c.turn r).demand.isImmediate = false) :
    c.isInside = c.isUnderWay ∧ ∀ side, c.reports side = 0 := by
  cases c with
  | arriving log =>
    rw [Course.turn] at h
    split at h <;> cases h
  | moving a =>
    refine ⟨rfl, fun side => ?_⟩
    cases a with
    | sendingTarget rule s => cases s <;> first | exact ite_self _ | cases h
    | sendingCallback c s => cases s <;> first | exact ite_self _ | cases h
    | _ => rfl
  | done s => exact ⟨rfl, fun _ => rfl⟩
  | _ => cases h

variable {tasks : List Task} {nonce : Side → Option UInt64} {m : Metrics}
  {xs : List (Nat × Happening)} {e : Ensemble Task}

/-- Following a chain submits nothing, and its turns make no entry. -/
theorem Following.Turned.uncounted {i : Instant} {f f' : Following} (h : Turned r i f x f')
    (side : Side) : x.entry? = none ∧ x.took side = 0 ∧ x.told side = 0 := by
  cases h with
  | opened last b head => exact ⟨rfl, rfl, rfl⟩
  | _ => exact ⟨rfl, rfl, rfl⟩

/-- What the logs on their way weigh, as a sum over all tasks. -/
def Task.weight (weight : Course → Nat) : Task → Nat
  | .following _ => 0
  | .course c => weight c

/-- Whether a log was ignored. -/
def Course.isIgnored : Course → Bool
  | .done none => true
  | _ => false

end Relay

end EventRelay
