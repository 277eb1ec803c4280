import EventRelay.Proofs.Polling
import EventRelay.Proofs.Rehearsing

/-!
# Rehearsals keep to schedules

A rehearsal of a single wait for a receipt takes each of its turns at the first time at which there
is one to take: the clock moves to the next time at which anything happens, and no further. The
schedule that it keeps to is the one of the scripted node (`Node.schedule`): each question takes the
next cue, and every answer takes the same time. So what is so of a wait whatever its schedule is so
of rehearsals.

Main statement:

* `rehearse_polled`: a rehearsal brings a wait to its end, at the time and with the outcome that the
  schedule asks for.

The invariant is `Follows`, and `remaining` bounds the steps that are left.
-/

namespace EventRelay

open Waiting (nextTime turned_of_goes)

namespace Schedule

variable {sch : Schedule} {side : Side} {p : Patience} {hash : Word} {start deadline : Nat}
  {x : Clocked} {m : Instant} {c : Cause} {w : Waiting} {hs : List Happening}

/-- The times at which a wait that has begun may go on. -/
def occasions (sch : Schedule) (x : Clocked) (deadline : Nat) : List Nat :=
  (sch.ready x).toList ++ [deadline] ++ sch.stop.toList

/-- A wait can go on when something is ready, at its deadline, or at a stop. -/
theorem mem_occasions {t : Nat} : t ∈ sch.occasions x deadline ↔
    t ∈ sch.ready x ∨ t = deadline ∨ t ∈ sch.stop := by
  simp only [occasions, List.mem_append, Option.mem_toList, List.mem_singleton, Option.mem_def,
    or_assoc]

/-- A wait that has begun takes a turn for its deadline, for the stop, or because it can have what
it wants. -/
theorem Admits.exists_occasion (h : sch.Admits side p x m c w)
    (hlimit : x.wait.limit? = some (hash, deadline)) :
    ∃ t ∈ sch.occasions x deadline, t ≤ m.now := by
  have hlater := h.later
  have hanswer := h.answer
  have hgoes := h.goes
  obtain ⟨wait, now, answered⟩ := x
  cases turned_of_goes hgoes with
  | stopped _ _ => cases hlimit
  | started _ _ => cases hlimit
  | due _ _ next _ _ hdue =>
    exact ⟨_, mem_occasions.mpr (.inl rfl), Nat.max_le.mpr ⟨hdue, hlater⟩⟩
  | found _ _ _ _ _ _ =>
    obtain ⟨latency, heq, hle⟩ := hanswer _ rfl
    exact ⟨_, mem_occasions.mpr (.inl (Option.map_eq_some_iff.mpr ⟨_, heq, rfl⟩)), hle⟩
  | missing _ _ _ _ _ _ _ =>
    obtain ⟨latency, heq, hle⟩ := hanswer _ rfl
    exact ⟨_, mem_occasions.mpr (.inl (Option.map_eq_some_iff.mpr ⟨_, heq, rfl⟩)), hle⟩
  | late _ _ _ hlimit' hd =>
    obtain ⟨-, rfl⟩ := Prod.mk.inj (Option.some.inj (hlimit.symm.trans hlimit'))
    exact ⟨_, mem_occasions.mpr (.inr (.inl rfl)), hd⟩
  | cancelled _ _ _ _ _ hstopping =>
    obtain ⟨s, hs, hle⟩ := h.agrees.stopped hstopping
    exact ⟨s, mem_occasions.mpr (.inr (.inr hs)), hle⟩

/-- Polling is for one transaction throughout. -/
theorem Polls.isFor (h : sch.Polls side p hash start hs x) : x.wait.IsFor hash := by
  induction h with
  | start => exact rfl
  | step _ hstep ih =>
    cases hstep with
    | turn admits _ => exact ih.turned (turned_of_goes admits.goes)

end Schedule

/-- A wait that takes a turn is not over. -/
theorem Waiting.outcome?_of_goes {side : Side} {p : Patience} {m : Instant} {c : Cause}
    {w w' : Waiting} (h : (w.turn side p).Goes m c w') : w.outcome? = none := by
  cases w with
  | done _ => exact absurd h not_goes_nothing
  | _ => rfl

namespace Rehearsal

/-! ## The schedule of a node -/

/-- The node after some questions for a receipt. -/
def Node.answered (n : Node) (hash : Word) : Nat → Node
  | 0 => n
  | k + 1 => ((n.answered hash k).reply (.receipt hash)).2

/-- The schedule of a node that is asked for nothing but one receipt. -/
def Node.schedule (n : Node) (hash : Word) (stop : Option Nat) : Schedule where
  answer k := ((n.answered hash k).reply (.receipt hash)).1.map fun reply => (n.latency, reply)
  stop := stop

/-- The time of the stop in a run that starts at the time `start`. -/
def Stop.time? (start : Nat) : Stop → Option Nat
  | .never => none
  | .already | .deserted => some start
  | .toldAfter ms | .desertedAfter ms => some (start + ms)

/-- The receipts that are still to be given decide about the answers. -/
theorem Node.ask_receipt {n n' : Node} (h : n'.receipts = n.receipts) (time : Nat) (hash : Word) :
    (n'.ask time (.receipt hash)).1 = (n.reply (.receipt hash)).1 ∧
      (n'.ask time (.receipt hash)).2.receipts = (n.reply (.receipt hash)).2.receipts ∧
      (n'.ask time (.receipt hash)).2.latency = n'.latency := by
  simp only [Node.ask, Node.reply, h, and_self]

/-! ## Steps with a single activity -/

section

variable {α : Type} {i : Nat} {a b : α} {t : Turn α} {r : Run α} {side : Side} {n : Node}
  {q : Query} {answered : Except ChainError q.Reply → α} {reply : Except ChainError q.Reply}

namespace Run

/-- An activity whose question is never answered waits for its deadline or for the stop. -/
theorem meet_ask_none (hd : t.demand = .ask side q answered)
    (hask : (r.stage.node side).ask r.stage.now q = (none, n)) :
    r.meet i a t = { r with stage := r.stage.setNode side n }.wait i t none := by
  unfold Run.meet
  rw [hd]
  dsimp only
  rw [hask]

theorem meet_ask_some (hd : t.demand = .ask side q answered)
    (hask : (r.stage.node side).ask r.stage.now q = (some reply, n)) :
    r.meet i a t = { r with stage := r.stage.setNode side n }.delay i t n.latency
      (answered reply) := by
  unfold Run.meet
  rw [hd]
  dsimp only
  rw [hask]

/-- A single activity that ends leaves nothing to do. -/
theorem finish_alone (hactivities : r.activities = [.able b])
    (hable : r.able = [0]) (a : α) : (r.finish 0 a).activities = [.ended a] ∧
      (r.finish 0 a).able = [] ∧ (r.finish 0 a).stage.now = r.stage.now := by
  obtain ⟨stage, activities, able, plan, told, stopping, place⟩ := r
  obtain rfl : activities = [.able b] := hactivities
  obtain rfl : able = [0] := hable
  exact ⟨rfl, rfl, rfl⟩

theorem now_clocked (r : Run α) (time : Nat) : (r.clocked time).stage.now = time := by
  unfold clocked
  dsimp only
  split
  next => split <;> rfl
  next => rfl

/-- Setting the clock on leaves the nodes as they are. -/
theorem node_clocked (r : Run α) (time : Nat) (side : Side) :
    (r.clocked time).stage.node side = r.stage.node side := by
  unfold clocked
  dsimp only
  split
  next => split <;> cases side <;> rfl
  next => cases side <;> rfl

theorem activities_clocked (r : Run α) (time : Nat) :
    (r.clocked time).activities = r.activities ∧ (r.clocked time).able = r.able := by
  unfold clocked
  dsimp only
  split
  next => split <;> exact ⟨rfl, rfl⟩
  next => exact ⟨rfl, rfl⟩

/-- A single activity that waits is let go on when there is reason to. -/
theorem moveTo_alone {at? limit : Option (Nat × α)} {cancelled : Option α} {place : Nat}
    (hactivities : r.activities = [.waiting at? limit cancelled place]) (time : Nat)
    (hdue : (((r.clocked time).reached? limit).or
      (if (r.clocked time).stopping then cancelled else none)).or
        ((r.clocked time).reached? at?) = some a) :
    r.moveTo time = (r.clocked time).letGo (place, 0, a) := by
  have hreleased : (r.clocked time).released = [(place, 0, a)] := by
    have hactivities' := (r.activities_clocked time).1.trans hactivities
    simp only [released, hactivities', List.length_singleton, List.range_one, List.filterMap_cons,
      List.getElem?_cons_zero, Option.bind_some, due_waiting, hdue, Option.map_some,
      List.filterMap_nil]
  rw [moveTo_eq, hreleased, List.mergeSort_singleton]
  rfl

end Run

end

/-! ## The stop -/

variable {side : Side} {hash : Word} {p : Patience} {start time deadline : Nat} {sch : Schedule}
  {n n' : Node} {stop? : Option Nat}
  {r r' : Run Waiting} {x : Clocked} {m : Instant} {c : Cause} {w : Waiting} {hs : List Happening}

/-- What a rehearsal knows of the stop, and what it still has to come to. -/
inductive Aware (stop? : Option Nat) (r : Run Waiting) : Prop
  | never (plan : r.plan = none) (stop : stop? = none) (told : r.told = false)
      (stopping : r.stopping = false)
  | ahead {t : Nat} {b : Bool} (plan : r.plan = some (t, b)) (stop : stop? = some t)
      (told : r.told = false) (stopping : r.stopping = false) (le : r.stage.now ≤ t)
  | past {t : Nat} (plan : r.plan = none) (stop : stop? = some t) (stopping : r.stopping = true)
      (le : t ≤ r.stage.now)

/-- A run that is aware of the stops agrees with the schedule. -/
theorem Aware.agrees (h : Aware sch.stop r) : sch.Agrees r.moment := by
  cases h with
  | never plan stop told stopping =>
    refine ⟨fun h => ?_, fun s hs => ?_, fun h => ?_⟩
    · exact absurd (stopping.symm.trans h) Bool.false_ne_true
    · rw [stop] at hs
      cases hs
    · exact absurd (told.symm.trans h) Bool.false_ne_true
  | ahead plan stop told stopping le =>
    refine ⟨fun h => ?_, fun s hs hlt => ?_, fun h => ?_⟩
    · exact absurd (stopping.symm.trans h) Bool.false_ne_true
    · obtain rfl := Option.mem_unique hs stop
      exact absurd hlt (Nat.not_lt_of_le le)
    · exact absurd (told.symm.trans h) Bool.false_ne_true
  | past plan stop stopping le =>
    exact ⟨fun _ => ⟨_, stop, le⟩, fun _ _ _ => stopping, fun _ => stopping⟩

/-- Only the clock, the plan and what is known of the stop matter. -/
theorem Aware.congr (h : Aware stop? r) (hnow : r'.stage.now = r.stage.now)
    (hplan : r'.plan = r.plan) (htold : r'.told = r.told) (hstopping : r'.stopping = r.stopping) :
    Aware stop? r' := by
  cases h with
  | never plan stop told stopping =>
    exact .never (hplan.trans plan) stop (htold.trans told) (hstopping.trans stopping)
  | ahead plan stop told stopping le =>
    exact .ahead (hplan.trans plan) stop (htold.trans told) (hstopping.trans stopping) (hnow ▸ le)
  | past plan stop stopping le =>
    exact .past (hplan.trans plan) stop (hstopping.trans stopping) (hnow ▸ le)

/-- When the clock moves on, the stop comes when it is time for it. -/
theorem Aware.clocked (h : Aware stop? r) (hs : r.stopping = false) (time : Nat) :
    Aware stop? (r.clocked time) := by
  unfold Run.clocked
  cases h with
  | never plan stop told stopping =>
    simp only [plan]
    exact .never rfl stop told stopping
  | @ahead t b plan stop told stopping le =>
    simp only [plan]
    by_cases ht : t ≤ time
    · rw [if_pos ht]
      exact .past rfl stop rfl ht
    · rw [if_neg ht]
      exact .ahead rfl stop told stopping (Nat.le_of_not_le ht)
  | past plan stop stopping le => exact absurd (hs.symm.trans stopping) Bool.false_ne_true

/-- A rehearsal that does not stop has the stop before it. -/
theorem Aware.plan_eq (h : Aware stop? r) (hs : r.stopping = false) :
    r.plan.map (·.1) = stop? := by
  cases h with
  | never plan stop _ _ => rw [plan, stop]; rfl
  | ahead plan stop _ _ _ => rw [plan, stop]; rfl
  | past _ _ stopping _ => exact absurd (hs.symm.trans stopping) Bool.false_ne_true

/-- At the time of a stop the run stops. -/
theorem Aware.stopping_clocked (h : Aware stop? r) (hs : r.stopping = false)
    (hstop : time ∈ stop?) : (r.clocked time).stopping = true := by
  rw [← h.plan_eq hs] at hstop
  obtain ⟨⟨t, b⟩, hplan, rfl⟩ := Option.map_eq_some_iff.mp hstop
  unfold Run.clocked
  simp only [hplan, Nat.le_refl, if_true]

/-- A rehearsal that does not stop has no stop behind it. -/
theorem Aware.now_le (h : Aware stop? r) (hs : r.stopping = false) :
    ∀ s ∈ stop?, r.stage.now ≤ s := by
  intro s hs'
  cases h with
  | never _ stop _ _ =>
    rw [stop] at hs'
    cases hs'
  | ahead _ stop _ _ le =>
    obtain rfl := Option.mem_unique hs' stop
    exact le
  | past _ _ stopping _ => exact absurd (hs.symm.trans stopping) Bool.false_ne_true

/-- At the start a run is aware of the stops. -/
theorem aware_start (stage : Stage) (stop : Stop) (given : List Waiting) :
    Aware (stop.time? stage.now) (Run.start stage stop given) := by
  cases stop with
  | never => exact .never rfl rfl rfl rfl
  | already => exact .past rfl rfl rfl (Nat.le_refl _)
  | deserted => exact .past rfl rfl rfl (Nat.le_refl _)
  | toldAfter ms => exact .ahead rfl rfl rfl rfl (Nat.le_add_right _ _)
  | desertedAfter ms => exact .ahead rfl rfl rfl rfl (Nat.le_add_right _ _)

/-! ## The rehearsal beside the schedule -/

/-- A wait that is to go on at a time for a cause, unless something comes in between. -/
structure Resumes (side : Side) (p : Patience) (hash : Word) (n n' : Node) (stop? : Option Nat)
    (x : Clocked) (time : Nat) (c : Cause) (w : Waiting) : Prop where
  met : ∀ m : Instant, m.now = time → (x.wait.turn side p).demand.Met m c w
  answer : ∀ reply ∈ c.receipt?, ∃ latency,
    (n.schedule hash stop?).answer x.answered = some (latency, reply) ∧ x.now + latency ≤ time
  receipts : n'.receipts = (n.answered hash (x.answered + c.receipt?.toList.length)).receipts

/-- The wait is the activity in front. -/
structure InFront (side : Side) (n : Node) (stop? : Option Nat) (x : Clocked) (r : Run Waiting) :
    Prop where
  activities : r.activities = [.able x.wait]
  able : r.able = [0]
  now : x.now = r.stage.now
  aware : Aware stop? r
  latency : (r.stage.node side).latency = n.latency

/-- The wait was put on until a time, if there is one, its deadline or the stop. -/
structure Parked (side : Side) (p : Patience) (hash : Word) (n : Node) (stop? : Option Nat)
    (at? : Option (Nat × Waiting)) (place deadline : Nat) (x : Clocked) (r : Run Waiting) : Prop
    where
  activities : r.activities =
    [.waiting at? (x.wait.turn side p).deadline (x.wait.turn side p).cancelled place]
  able : r.able = []
  now : x.now = r.stage.now
  aware : Aware stop? r
  latency : (r.stage.node side).latency = n.latency
  limit : x.wait.limit? = some (hash, deadline)
  lt_deadline : x.now < deadline
  going : r.stopping = false
  ready : at?.map (·.1) = (n.schedule hash stop?).ready x
  resumes : ∀ time w, at? = some (time, w) →
    ∃ c, Resumes side p hash n (r.stage.node side) stop? x time c w

/-- How a rehearsal of a single wait stands. -/
inductive Stands (side : Side) (p : Patience) (hash : Word) (n : Node) (stop? : Option Nat)
    (x : Clocked) (r : Run Waiting) : Prop
  | front (front : InFront side n stop? x r)
      (receipts : x.wait.outcome? = none →
        (r.stage.node side).receipts = (n.answered hash x.answered).receipts)
  | parked {at? : Option (Nat × Waiting)} {place deadline : Nat}
      (parked : Parked side p hash n stop? at? place deadline x r)
  | ended {result : Except WaitError Receipt} (done : x.wait = .done result)
      (activities : r.activities = [.ended x.wait]) (able : r.able = [])
      (now : x.now = r.stage.now)

/-- A rehearsal follows a wait that is run against the schedule of its node. -/
structure Follows (side : Side) (p : Patience) (hash : Word) (start : Nat) (n : Node)
    (stop? : Option Nat) (hs : List Happening) (x : Clocked) (r : Run Waiting) : Prop where
  polls : (n.schedule hash stop?).Polls side p hash start hs x
  stands : Stands side p hash n stop? x r

/-- How many steps a rehearsal may still take. Each turn of the wait takes two at most. -/
def remaining (p : Patience) (x : Clocked) (r : Run Waiting) : Nat :=
  2 * x.wait.left p + r.able.length

/-- The rehearsal goes on to follow the wait and comes nearer to its end. -/
def GoesOn (side : Side) (p : Patience) (hash : Word) (start : Nat) (n : Node) (stop? : Option Nat)
    (bound : Nat) (r : Run Waiting) : Prop :=
  ∃ hs x, Follows side p hash start n stop? hs x r ∧ remaining p x r < bound

/-- The wait takes its next turn. -/
theorem goesOn_turn {bound : Nat} (hpolls : (n.schedule hash stop?).Polls side p hash start hs x)
    (hadmits : (n.schedule hash stop?).Admits side p x m c w)
    (hfirst : ∀ m' c' w', (n.schedule hash stop?).Admits side p x m' c' w' → m.now ≤ m'.now)
    (hfront : InFront side n stop? ⟨w, m.now, x.answered + c.receipt?.toList.length⟩ r)
    (hreceipts : w.outcome? = none → (r.stage.node side).receipts =
      (n.answered hash (x.answered + c.receipt?.toList.length)).receipts)
    (hbound : 2 * x.wait.left p ≤ bound) : GoesOn side p hash start n stop? bound r := by
  have hstep : (n.schedule hash stop?).Step side p x ⟨m, c⟩ _ := .turn hadmits hfirst
  refine ⟨_, _, ⟨hpolls.step hstep, .front hfront hreceipts⟩, ?_⟩
  have hlt := hstep.left_lt
  rw [remaining, hfront.able, List.length_singleton]
  omega

namespace InFront

/-- The node may change, but not in how long it takes. -/
theorem setNode (h : InFront side n stop? x r) (hlatency : n'.latency = n.latency) :
    InFront side n stop? x { r with stage := r.stage.setNode side n' } where
  activities := h.activities
  able := h.able
  now := h.now.trans (Stage.now_setNode _ _ _).symm
  aware := h.aware.congr (Stage.now_setNode _ _ _) rfl rfl rfl
  latency := by
    rw [Stage.node_setNode]
    exact hlatency

/-- The activity in front goes on at once. -/
theorem goOn (h : InFront side n stop? x r)
    (hpolls : (n.schedule hash stop?).Polls side p hash start hs x)
    (hgoes : (x.wait.turn side p).Goes r.moment c w)
    (hanswer : ∀ reply ∈ c.receipt?, ∃ latency,
      (n.schedule hash stop?).answer x.answered = some (latency, reply) ∧
        x.now + latency ≤ r.stage.now)
    (hreceipts : w.outcome? = none → (r.stage.node side).receipts =
      (n.answered hash (x.answered + c.receipt?.toList.length)).receipts) :
    GoesOn side p hash start n stop? (2 * x.wait.left p + 1) (r.goOn 0 w) := by
  have hadmits : (n.schedule hash stop?).Admits side p x r.moment c w :=
    ⟨Nat.le_of_eq h.now, h.aware.agrees, hgoes, hanswer⟩
  have hactivities : (r.goOn 0 w).activities = [.able w] := by
    show r.activities.set 0 (.able w) = [.able w]
    rw [h.activities]
    rfl
  refine goesOn_turn hpolls hadmits (fun m' c' w' h' => ?_)
    ⟨hactivities, h.able, rfl, h.aware.congr rfl rfl rfl rfl, h.latency⟩ hreceipts (Nat.le_succ _)
  exact Nat.le_trans (Nat.le_of_eq h.now.symm) h'.later

/-- The activity in front waits for a time, its deadline or the stop. -/
theorem wait {at? : Option (Nat × Waiting)} (h : InFront side n stop? x r)
    (hpolls : (n.schedule hash stop?).Polls side p hash start hs x)
    (hlimit : x.wait.limit? = some (hash, deadline))
    (hlt : x.now < deadline) (hstopping : r.stopping = false)
    (hready : at?.map (·.1) = (n.schedule hash stop?).ready x)
    (hresumes : ∀ time w, at? = some (time, w) →
      ∃ c, Resumes side p hash n (r.stage.node side) stop? x time c w) :
    GoesOn side p hash start n stop? (2 * x.wait.left p + 1)
      (r.wait 0 (x.wait.turn side p) at?) := by
  have hactivities : (r.wait 0 (x.wait.turn side p) at?).activities =
      [.waiting at? (x.wait.turn side p).deadline (x.wait.turn side p).cancelled r.place] := by
    show r.activities.set 0 _ = _
    rw [h.activities]
    rfl
  have hable : (r.wait 0 (x.wait.turn side p) at?).able = [] := by
    show r.able.tail = []
    rw [h.able]
    rfl
  refine ⟨hs, x, ⟨hpolls, .parked ⟨hactivities, hable, h.now, h.aware.congr rfl rfl rfl rfl,
    h.latency, hlimit, hlt, hstopping, hready, hresumes⟩⟩, ?_⟩
  rw [remaining, hable]
  exact Nat.lt_succ_self _

/-- Before its deadline and before the stop, a wait is neither late nor cancelled. -/
theorem undisturbed (h : InFront side n stop? x r)
    (hlimit : x.wait.limit? = some (hash, deadline))
    (hd : (x.wait.turn side p).overdue r.moment = none)
    (hs : (x.wait.turn side p).halted r.moment = none) :
    x.now < deadline ∧ r.stopping = false := by
  rw [Schedule.overdue_eq hlimit] at hd
  rw [Schedule.halted_eq hlimit] at hs
  constructor
  · refine Nat.lt_of_not_le fun hle => ?_
    have hpassed : deadline ≤ r.moment.now := Nat.le_trans hle (Nat.le_of_eq h.now)
    rw [if_pos hpassed] at hd
    cases hd
  · refine Bool.eq_false_iff.mpr fun hstopping => ?_
    rw [if_pos (show r.moment.stopping = true from hstopping)] at hs
    cases hs

/-- A wait that rests does so until the time of its next question. -/
theorem meet_resting {due now answered : Nat}
    (h : InFront side n stop? ⟨.resting hash deadline due, now, answered⟩ r)
    (hpolls : (n.schedule hash stop?).Polls side p hash start hs
      ⟨.resting hash deadline due, now, answered⟩)
    (hreceipts : (r.stage.node side).receipts = (n.answered hash answered).receipts)
    (hd : ((Waiting.resting hash deadline due).turn side p).overdue r.moment = none)
    (hs' : ((Waiting.resting hash deadline due).turn side p).halted r.moment = none) :
    GoesOn side p hash start n stop? (2 * (Waiting.resting hash deadline due).left p + 1)
      (r.meet 0 (.resting hash deadline due)
        ((Waiting.resting hash deadline due).turn side p)) := by
  have hmeet : r.meet 0 (.resting hash deadline due)
      ((Waiting.resting hash deadline due).turn side p) =
        if due ≤ r.stage.now then
          r.goOn 0 (.asking hash deadline (nextTime p due r.stage.now))
        else r.wait 0 ((Waiting.resting hash deadline due).turn side p)
          (some (due, .asking hash deadline (nextTime p due due))) := rfl
  rw [hmeet]
  split
  next hle =>
    have hgoes : ((Waiting.resting hash deadline due).turn side p).Goes r.moment .resumed
        (.asking hash deadline (nextTime p due r.stage.now)) :=
      .met hd (.inr hs')
        (.pause due (fun now => Waiting.asking hash deadline (nextTime p due now)) hle)
    exact h.goOn hpolls hgoes nofun fun _ => hreceipts
  next hlt =>
    obtain ⟨hbefore, hgoing⟩ := h.undisturbed rfl hd hs'
    have hnow : now = r.stage.now := h.now
    have hready : due = max due now := (Nat.max_eq_left (by omega)).symm
    refine h.wait hpolls rfl hbefore hgoing (congrArg some hready) fun time w hat => ?_
    obtain ⟨rfl, rfl⟩ := Prod.mk.inj (Option.some.inj hat)
    refine ⟨.resumed, fun m hm => ?_, nofun, hreceipts⟩
    subst hm
    exact .pause m.now (fun now => Waiting.asking hash deadline (nextTime p m.now now))
      (Nat.le_refl m.now)

/-- A question that was put is answered, at once or after a delay. -/
theorem delay_answer {next now answered : Nat} {reply : Except ChainError (Option Receipt)}
    (h : InFront side n stop? ⟨.asking hash deadline next, now, answered⟩ r)
    (hpolls : (n.schedule hash stop?).Polls side p hash start hs
      ⟨.asking hash deadline next, now, answered⟩)
    (hd : ((Waiting.asking hash deadline next).turn side p).overdue r.moment = none)
    (hs' : ((Waiting.asking hash deadline next).turn side p).halted r.moment = none)
    (hschedule : (n.schedule hash stop?).answer answered = some (n.latency, reply))
    (hmet : ∀ m, ((Waiting.asking hash deadline next).turn side p).demand.Met m
      (.answered side (.receipt hash) reply) w)
    (hreceipts : (r.stage.node side).receipts = (n.answered hash (answered + 1)).receipts) :
    GoesOn side p hash start n stop? (2 * (Waiting.asking hash deadline next).left p + 1)
      (r.delay 0 ((Waiting.asking hash deadline next).turn side p) n.latency w) := by
  have hnow : now = r.stage.now := h.now
  unfold Run.delay
  split
  next hzero =>
    refine h.goOn hpolls (.met hd (.inr hs') (hmet r.moment)) (fun reply' hreply => ?_)
      fun _ => hreceipts
    obtain rfl := Option.some.inj hreply
    refine ⟨n.latency, hschedule, ?_⟩
    rw [hzero]
    exact Nat.le_of_eq hnow
  next =>
    obtain ⟨hbefore, hgoing⟩ := h.undisturbed rfl hd hs'
    refine h.wait hpolls rfl hbefore hgoing ?_ fun time w' hat => ?_
    · show some (r.stage.now + n.latency) = Option.map _ ((n.schedule hash stop?).answer answered)
      rw [hschedule, ← hnow]
      rfl
    · obtain ⟨rfl, rfl⟩ := Prod.mk.inj (Option.some.inj hat)
      refine ⟨_, fun m _ => hmet m, fun reply' hreply => ?_, hreceipts⟩
      obtain rfl := Option.some.inj hreply
      exact ⟨n.latency, hschedule, Nat.add_le_add_right (Nat.le_of_eq hnow) _⟩

/-- A question is put, and the answer takes as long as the node takes. -/
theorem meet_asking {next now answered : Nat}
    (h : InFront side n stop? ⟨.asking hash deadline next, now, answered⟩ r)
    (hpolls : (n.schedule hash stop?).Polls side p hash start hs
      ⟨.asking hash deadline next, now, answered⟩)
    (hreceipts : (r.stage.node side).receipts = (n.answered hash answered).receipts)
    (hd : ((Waiting.asking hash deadline next).turn side p).overdue r.moment = none)
    (hs' : ((Waiting.asking hash deadline next).turn side p).halted r.moment = none) :
    GoesOn side p hash start n stop? (2 * (Waiting.asking hash deadline next).left p + 1)
      (r.meet 0 (.asking hash deadline next)
        ((Waiting.asking hash deadline next).turn side p)) := by
  obtain ⟨hreply, hafter, hlatency⟩ := Node.ask_receipt hreceipts r.stage.now hash
  obtain ⟨answer, hdemand⟩ : ∃ answer, ((Waiting.asking hash deadline next).turn side p).demand =
      .ask side (.receipt hash) answer := ⟨_, rfl⟩
  obtain ⟨reply?, n', hask⟩ : ∃ reply? n',
    (r.stage.node side).ask r.stage.now (.receipt hash) = (reply?, n') := ⟨_, _, rfl⟩
  rw [hask] at hreply hafter hlatency
  have hlatency' : n'.latency = n.latency := hlatency.trans h.latency
  have hfront := h.setNode hlatency'
  have hschedule : (n.schedule hash stop?).answer answered =
      reply?.map fun reply => (n.latency, reply) := by
    show Option.map _ _ = _
    rw [← hreply]
  cases reply? with
  | none =>
    obtain ⟨hbefore, hgoing⟩ := h.undisturbed rfl hd hs'
    rw [Run.meet_ask_none hdemand hask]
    refine hfront.wait hpolls rfl hbefore hgoing ?_ nofun
    show none = Option.map _ ((n.schedule hash stop?).answer answered)
    rw [hschedule]
    rfl
  | some reply =>
    have hmoment : Run.moment { r with stage := r.stage.setNode side n' } = r.moment := by
      simp only [Run.moment, Stage.now_setNode]
    rw [← hmoment] at hd hs'
    rw [Run.meet_ask_some hdemand hask, hlatency']
    refine hfront.delay_answer hpolls hd hs' hschedule (fun m => ?_) ?_
    · rw [hdemand]
      exact .ask side (.receipt hash) answer reply
    · rw [Stage.node_setNode]
      exact hafter

/-- A wait that is over ends. -/
theorem finish {result : Except WaitError Receipt} {now answered : Nat}
    (h : InFront side n stop? ⟨.done result, now, answered⟩ r)
    (hpolls : (n.schedule hash stop?).Polls side p hash start hs ⟨.done result, now, answered⟩) :
    GoesOn side p hash start n stop? 1 (r.finish 0 (.done result)) := by
  obtain ⟨hactivities, hable, hnow⟩ := Run.finish_alone h.activities h.able (.done result)
  refine ⟨hs, _, ⟨hpolls, .ended rfl hactivities hable (h.now.trans hnow.symm)⟩, ?_⟩
  rw [remaining, hable]
  exact Nat.zero_lt_one

/-- The activity in front takes its turn. -/
theorem advance (h : InFront side n stop? x r)
    (hpolls : (n.schedule hash stop?).Polls side p hash start hs x)
    (hreceipts : x.wait.outcome? = none →
      (r.stage.node side).receipts = (n.answered hash x.answered).receipts) :
    GoesOn side p hash start n stop? (2 * x.wait.left p + 1)
      (r.advance (Waiting.turn side p) 0 x.wait) := by
  have hfor := hpolls.isFor
  rw [Run.advance_eq]
  split
  next late hlate =>
    have hgoes := Turn.Goes.late hlate
    exact h.goOn hpolls hgoes nofun fun _ => hreceipts (Waiting.outcome?_of_goes hgoes)
  next hd =>
    split
    next halted hhalted =>
      have hgoes := Turn.Goes.cancelled hd hhalted
      exact h.goOn hpolls hgoes nofun fun _ => hreceipts (Waiting.outcome?_of_goes hgoes)
    next hs' =>
      obtain ⟨wait, now, answered⟩ := x
      cases wait with
      | starting hash' =>
        exact h.goOn hpolls (.met hd (.inr hs') (.look _)) nofun fun _ => hreceipts rfl
      | resting hash' deadline due =>
        obtain rfl : hash' = hash := hfor
        exact h.meet_resting hpolls (hreceipts rfl) hd hs'
      | asking hash' deadline next =>
        obtain rfl : hash' = hash := hfor
        exact h.meet_asking hpolls (hreceipts rfl) hd hs'
      | done result => exact h.finish hpolls

end InFront

/-- A wait that goes on late or stopped is over. -/
theorem over_of_interrupted {w' : Waiting} (hlimit : w.limit? = some (hash, deadline))
    (h : (w.turn side p).overdue m = some w' ∨ (w.turn side p).halted m = some w') :
    w'.outcome? ≠ none := by
  rcases h with h | h
  · rw [Schedule.overdue_eq hlimit] at h
    obtain ⟨-, h⟩ := Option.ite_none_right_eq_some.mp h
    cases h
    nofun
  · rw [Schedule.halted_eq hlimit] at h
    obtain ⟨-, h⟩ := Option.ite_none_right_eq_some.mp h
    cases h
    nofun

namespace Parked

variable {at? : Option (Nat × Waiting)} {place : Nat}

/-- The clock moves to the first of the occasions that the schedule gives. -/
theorem step_eq (h : Parked side p hash n stop? at? place deadline x r) :
    r.step (Waiting.turn side p) =
      ((n.schedule hash stop?).occasions x deadline).min?.map r.moveTo := by
  have htimes : (r.activities.flatMap Run.times ++ (r.plan.map (·.1)).toList) =
      (n.schedule hash stop?).occasions x deadline := by
    rw [h.activities, h.aware.plan_eq h.going, Schedule.occasions, ← h.ready,
      List.flatMap_singleton, Run.times, (Schedule.turn_of_limit h.limit).1]
    rfl
  have hgoing : r.activities.all Run.hasEnded = false := by
    rw [h.activities]
    rfl
  unfold Run.step
  rw [htimes, hgoing, h.able]
  cases ((n.schedule hash stop?).occasions x deadline).min? <;> rfl

/-- No occasion of a wait is past. -/
theorem now_le (h : Parked side p hash n stop? at? place deadline x r)
    (hmem : time ∈ (n.schedule hash stop?).occasions x deadline) : x.now ≤ time := by
  rcases Schedule.mem_occasions.mp hmem with hready | rfl | hstop
  · exact Schedule.now_le_ready hready
  · exact Nat.le_of_lt h.lt_deadline
  · exact Nat.le_trans (Nat.le_of_eq h.now) (h.aware.now_le h.going time hstop)

/-- At any of the occasions the wait is let go on, in one of its turns. -/
theorem exists_goes (h : Parked side p hash n stop? at? place deadline x r)
    (hmem : time ∈ (n.schedule hash stop?).occasions x deadline) :
    ∃ c w, (x.wait.turn side p).Goes (r.clocked time).moment c w ∧
      r.moveTo time = (r.clocked time).letGo (place, 0, w) ∧
      (∀ reply ∈ c.receipt?, ∃ latency,
        (n.schedule hash stop?).answer x.answered = some (latency, reply) ∧
          x.now + latency ≤ time) ∧
      (w.outcome? = none → (r.stage.node side).receipts =
        (n.answered hash (x.answered + c.receipt?.toList.length)).receipts) := by
  have hnow : (r.clocked time).moment.now = time := r.now_clocked time
  have hmove : ∀ w, (((x.wait.turn side p).overdue (r.clocked time).moment).or
      ((x.wait.turn side p).halted (r.clocked time).moment)).or ((r.clocked time).reached? at?) =
        some w → r.moveTo time = (r.clocked time).letGo (place, 0, w) :=
    fun w => Run.moveTo_alone h.activities time
  cases hd : (x.wait.turn side p).overdue (r.clocked time).moment with
  | some late =>
    rw [hd] at hmove
    exact ⟨_, late, .late hd, hmove late rfl, nofun,
      fun hlate => absurd hlate (over_of_interrupted h.limit (.inl hd))⟩
  | none =>
    cases hs' : (x.wait.turn side p).halted (r.clocked time).moment with
    | some halted =>
      rw [hd, hs'] at hmove
      exact ⟨_, halted, .cancelled hd hs', hmove halted rfl, nofun,
        fun hhalted => absurd hhalted (over_of_interrupted h.limit (.inr hs'))⟩
    | none =>
      -- It is neither the deadline nor the stop that the clock came to.
      have hready : time ∈ (n.schedule hash stop?).ready x := by
        rcases Schedule.mem_occasions.mp hmem with hready | rfl | hstop
        · exact hready
        · rw [Schedule.overdue_eq h.limit, hnow, if_pos (Nat.le_refl _)] at hd
          cases hd
        · have hstopping : (r.clocked time).moment.stopping = true :=
            h.aware.stopping_clocked h.going hstop
          rw [Schedule.halted_eq h.limit, if_pos hstopping] at hs'
          cases hs'
      rw [← h.ready] at hready
      obtain ⟨⟨time', w⟩, rfl, rfl⟩ := Option.map_eq_some_iff.mp hready
      obtain ⟨c, hresumes⟩ := h.resumes _ w rfl
      rw [hd, hs'] at hmove
      exact ⟨c, w, .met hd (.inr hs') (hresumes.met _ hnow),
        hmove w (Run.reached?_eq_some.mpr ⟨_, rfl, Nat.le_of_eq hnow.symm⟩), hresumes.answer,
        fun _ => hresumes.receipts⟩

/-- The clock moves on, and the wait takes its next turn. -/
theorem step (h : Parked side p hash n stop? at? place deadline x r)
    (hpolls : (n.schedule hash stop?).Polls side p hash start hs x) :
    ∃ r', r.step (Waiting.turn side p) = some r' ∧
      GoesOn side p hash start n stop? (2 * x.wait.left p) r' := by
  rw [h.step_eq]
  cases hmin : ((n.schedule hash stop?).occasions x deadline).min? with
  | none =>
    have hdeadline : deadline ∈ (n.schedule hash stop?).occasions x deadline :=
      Schedule.mem_occasions.mpr (.inr (.inl rfl))
    rw [List.min?_eq_none_iff.mp hmin] at hdeadline
    cases hdeadline
  | some time =>
    obtain ⟨htime, hle⟩ := List.min?_eq_some_iff.mp hmin
    obtain ⟨c, w, hgoes, hmove, hanswer, hreceipts⟩ := h.exists_goes htime
    have haware := h.aware.clocked h.going time
    have hnow : (r.clocked time).moment.now = time := r.now_clocked time
    refine ⟨_, rfl, ?_⟩
    rw [hmove]
    have hadmits : (n.schedule hash stop?).Admits side p x (r.clocked time).moment c w :=
      ⟨hnow.symm ▸ h.now_le htime, Aware.agrees haware, hgoes, hnow.symm ▸ hanswer⟩
    refine goesOn_turn hpolls hadmits (fun m' c' w' h' => ?_) ⟨?_, ?_, rfl, ?_, ?_⟩ ?_
      (Nat.le_refl _)
    · obtain ⟨t, ht, hle'⟩ := h'.exists_occasion h.limit
      exact hnow.symm ▸ Nat.le_trans (hle t ht) hle'
    · show (r.clocked time).activities.set 0 _ = _
      rw [(r.activities_clocked time).1, h.activities]
      rfl
    · show (r.clocked time).able ++ [0] = [0]
      rw [(r.activities_clocked time).2, h.able]
      rfl
    · exact haware.congr rfl rfl rfl rfl
    · show ((r.clocked time).stage.node side).latency = n.latency
      rw [Run.node_clocked, h.latency]
    · show w.outcome? = none → ((r.clocked time).stage.node side).receipts = _
      rw [Run.node_clocked]
      exact hreceipts

end Parked

namespace Follows

/-- A rehearsal that follows a wait takes another step, or it has brought the wait to its end. -/
theorem step (h : Follows side p hash start n stop? hs x r) :
    (∃ result, x.wait = .done result ∧ r.endings = [.done result] ∧ x.now = r.stage.now ∧
      r.step (Waiting.turn side p) = none) ∨
    ∃ r', r.step (Waiting.turn side p) = some r' ∧
      GoesOn side p hash start n stop? (remaining p x r) r' := by
  cases h.stands with
  | front hfront hreceipts =>
    refine .inr ⟨r.advance (Waiting.turn side p) 0 x.wait, ?_, ?_⟩
    · unfold Run.step
      rw [hfront.able, hfront.activities]
      rfl
    · rw [remaining, hfront.able]
      exact hfront.advance h.polls hreceipts
  | parked hparked =>
    obtain ⟨r', hstep, hgoes⟩ := hparked.step h.polls
    refine .inr ⟨r', hstep, ?_⟩
    rw [remaining, hparked.able]
    exact hgoes
  | ended hdone hactivities hable hnow =>
    rw [hdone] at hactivities
    refine .inl ⟨_, hdone, ?_, hnow, ?_⟩
    · rw [Run.endings, hactivities]
      rfl
    · unfold Run.step
      rw [hable, hactivities]
      rfl

/-- **With enough steps, the rehearsal brings the wait to its end.** -/
theorem steps {k : Nat} (h : Follows side p hash start n stop? hs x r)
    (hk : remaining p x r ≤ k) :
    ∃ hs' result fin m,
      (n.schedule hash stop?).Polls side p hash start hs' ⟨.done result, fin, m⟩ ∧
      (r.steps (Waiting.turn side p) k).endings = [.done result] ∧
      (r.steps (Waiting.turn side p) k).stage.now = fin := by
  induction k generalizing hs x r with
  | zero =>
    rcases h.step with ⟨result, hdone, hendings, hnow, -⟩ | ⟨r', -, hs', x', -, hlt⟩
    · obtain ⟨wait, now, answered⟩ := x
      obtain rfl : wait = .done result := hdone
      exact ⟨hs, result, now, answered, h.polls, hendings, hnow.symm⟩
    · omega
  | succ k ih =>
    rw [Run.steps]
    rcases h.step with ⟨result, hdone, hendings, hnow, hnone⟩ | ⟨r', hstep, hs', x', h', hlt⟩
    · obtain ⟨wait, now, answered⟩ := x
      obtain rfl : wait = .done result := hdone
      rw [hnone]
      exact ⟨hs, result, now, answered, h.polls, hendings, hnow.symm⟩
    · rw [hstep]
      exact ih h' (by omega)

end Follows

theorem follows_start (side : Side) (p : Patience) (hash : Word) (stage : Stage) (stop : Stop) :
    Follows side p hash stage.now (stage.node side) (stop.time? stage.now) []
      ⟨.starting hash, stage.now, 0⟩ (Run.start stage stop [.starting hash]) :=
  ⟨.start, .front ⟨rfl, rfl, rfl, aware_start stage stop _, rfl⟩ fun _ => rfl⟩

/-- **A rehearsal brings a wait to the end that the schedule of its node asks for**, with the clock
at its time, if the timeout leaves it steps enough. -/
theorem rehearse_polled (side : Side) (p : Patience) (hash : Word) (stage : Stage) (stop : Stop)
    (hpatience : p.interval ≤ p.timeout) (hsteps : 4 * p.timeout + 5 ≤ maxSteps) :
    ∃ hs result,
      (rehearse (Waiting.turn side p) stage stop [.starting hash]).2 = [.done result] ∧
      ((stage.node side).schedule hash (stop.time? stage.now)).Polled side p hash stage.now hs
        result (rehearse (Waiting.turn side p) stage stop [.starting hash]).1.now := by
  have hpos : 0 < p.timeout := Nat.lt_of_lt_of_le p.interval_pos hpatience
  have hremaining : remaining p ⟨.starting hash, stage.now, 0⟩
      (Run.start stage stop [.starting hash]) ≤ maxSteps := by
    show 2 * (2 * p.timeout + 2) + 1 ≤ maxSteps
    omega
  obtain ⟨hs, result, fin, m, hpolls, hendings, hfin⟩ :=
    (follows_start side p hash stage stop).steps hremaining
  refine ⟨hs, result, hendings, ?_⟩
  have hnow : (rehearse (Waiting.turn side p) stage stop [.starting hash]).1.now = fin := hfin
  rw [hnow]
  exact hpolls.polled_of_done hpos

end Rehearsal

end EventRelay
