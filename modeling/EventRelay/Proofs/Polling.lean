import EventRelay.Proofs.Waiting
import Mathlib.Data.Nat.Find

/-!
# When a wait for a receipt ends, and with what

A wait is run against a `Schedule`: how long the node takes for each question and what it answers,
and when the relay stops. Nothing keeps the wait from going on as soon as it can: each of its turns
is taken at the first time at which there is one to take (`Schedule.Step`). At the time of the stop
itself the wait may or may not know of it yet.

`Schedule.lookup` says when the questions are put, as if the wait went on for ever. It looks at the
schedule alone, so that what a wait does can be said in terms of it: which receipts would be
brought, and when.

Main statement:

* `Schedule.polled`: a wait comes to its end, and it is the end that the schedule asks for.

The invariant is `Schedule.Kept`. What decides the end is that the next turn comes no later than the
deadline, the stop, and any receipt that is still to be brought (`Kept.now_le_deadline`,
`Kept.now_le_stop`, `Kept.now_le_delivery`).
-/

namespace EventRelay

open Waiting (nextTime turned_of_goes)

/-- What a wait meets. -/
structure Schedule where
  /-- How long the node takes for each question, the first of them `0`, and what it then answers;
  `none` when it never answers. -/
  answer : Nat → Option (Nat × Except ChainError (Option Receipt))
  /-- When the relay is told to stop, or nobody is left to tell it. -/
  stop : Option Nat

/-- The answer to a question for a receipt. -/
def Cause.receipt? : Cause → Option (Except ChainError (Option Receipt))
  | .answered _ (.receipt _) reply => some reply
  | _ => none

/-- A wait at a time, with the number of its questions that were answered. -/
structure Clocked where
  wait : Waiting
  now : Nat
  answered : Nat

/-- The times at which the questions are put: a wait puts the next one as soon as it resumes. -/
def lookupTimes (hs : List Happening) : List Nat :=
  hs.filterMap fun h =>
    match h.cause with
    | .resumed => some h.moment.now
    | _ => none

namespace Schedule

/-- What is known of the stop at a moment is so. At the time of the stop both are. -/
structure Agrees (sch : Schedule) (m : Instant) : Prop where
  stopped : m.stopping = true → ∃ s ∈ sch.stop, s ≤ m.now
  stops : ∀ s ∈ sch.stop, s < m.now → m.stopping = true
  told : m.told = true → m.stopping = true

/-- A turn that may come next. An answer comes no sooner than the node gives it. -/
structure Admits (sch : Schedule) (side : Side) (p : Patience) (x : Clocked) (m : Instant)
    (c : Cause) (w : Waiting) : Prop where
  later : x.now ≤ m.now
  agrees : sch.Agrees m
  goes : (x.wait.turn side p).Goes m c w
  answer : ∀ reply ∈ c.receipt?,
    ∃ latency, sch.answer x.answered = some (latency, reply) ∧ x.now + latency ≤ m.now

/-- The next turn is one that comes first. -/
inductive Step (sch : Schedule) (side : Side) (p : Patience) (x : Clocked) :
    Happening → Clocked → Prop
  | turn {m : Instant} {c : Cause} {w : Waiting} (admits : sch.Admits side p x m c w)
      (first : ∀ m' c' w', sch.Admits side p x m' c' w' → m.now ≤ m'.now) :
      Step sch side p x ⟨m, c⟩ ⟨w, m.now, x.answered + c.receipt?.toList.length⟩

/-- A wait for the receipt of `hash` that begins at the time `start`. -/
inductive Polls (sch : Schedule) (side : Side) (p : Patience) (hash : Word) (start : Nat) :
    List Happening → Clocked → Prop
  | start : Polls sch side p hash start [] ⟨.starting hash, start, 0⟩
  | step {hs : List Happening} {x x' : Clocked} {h : Happening}
      (before : Polls sch side p hash start hs x) (step : sch.Step side p x h x') :
      Polls sch side p hash start (hs ++ [h]) x'

/-! ## When questions are put -/

/-- The time at which a question is due, and the time at which it is put: the first at once, the
next when it is due and the one before is answered. -/
def lookup (sch : Schedule) (p : Patience) (start : Nat) : Nat → Option (Nat × Nat)
  | 0 => some (start, start)
  | k + 1 =>
    match sch.lookup p start k, sch.answer k with
    | some (due, time), some (latency, _) =>
      some (nextTime p due time, max (nextTime p due time) (time + latency))
    | _, _ => none

/-- A question brings a receipt at the time `r`. -/
def Delivers (sch : Schedule) (p : Patience) (start k : Nat) (receipt : Receipt) (r : Nat) : Prop :=
  ∃ due time latency, sch.lookup p start k = some (due, time) ∧
    sch.answer k = some (latency, .ok (some receipt)) ∧ r = time + latency

variable {sch : Schedule} {side : Side} {p : Patience} {hash : Word} {start k j t : Nat}
  {x x' : Clocked} {y : Happening} {m : Instant} {c : Cause} {w : Waiting} {hs : List Happening}
  {due time latency deadline next : Nat} {receipt : Receipt}
  {reply : Except ChainError (Option Receipt)}

/-- The lookup after one that is answered is due at the next time of the interval. -/
theorem lookup_succ (h : sch.lookup p start k = some (due, time))
    (ha : sch.answer k = some (latency, reply)) :
    sch.lookup p start (k + 1) =
      some (nextTime p due time, max (nextTime p due time) (time + latency)) := by
  rw [lookup, h, ha]

/-- A later lookup follows one that was answered. -/
theorem of_lookup_succ (h : sch.lookup p start (k + 1) = some (next, t)) :
    ∃ due time latency reply, sch.lookup p start k = some (due, time) ∧
      sch.answer k = some (latency, reply) ∧ next = nextTime p due time ∧
        t = max (nextTime p due time) (time + latency) := by
  rw [lookup] at h
  split at h
  next due time latency reply hlookup hanswer =>
    obtain ⟨rfl, rfl⟩ := Prod.mk.inj (Option.some.inj h)
    exact ⟨due, time, latency, reply, hlookup, hanswer, rfl, rfl⟩
  next => cases h

/-- Before a question all others were put that come first. -/
theorem exists_lookup_of_le (hj : sch.lookup p start j = some (next, t)) (h : k ≤ j) :
    ∃ due time, sch.lookup p start k = some (due, time) ∧ time ≤ t := by
  induction j generalizing next t with
  | zero =>
    obtain rfl := Nat.le_zero.mp h
    exact ⟨next, t, hj, Nat.le_refl t⟩
  | succ j ih =>
    rcases Nat.le_succ_iff.mp h with hle | rfl
    · obtain ⟨due', time', latency, reply, hj', -, -, rfl⟩ := of_lookup_succ hj
      obtain ⟨due, time, hk, hle'⟩ := ih hj' hle
      exact ⟨due, time, hk, by omega⟩
    · exact ⟨next, t, hj, Nat.le_refl t⟩

/-- A question is answered before those after it are put. -/
theorem lookup_le (hk : sch.lookup p start k = some (due, time))
    (hj : sch.lookup p start j = some (next, t)) (h : k < j) :
    ∃ latency reply, sch.answer k = some (latency, reply) ∧ time + latency ≤ t := by
  obtain ⟨next', t', hsucc, hle⟩ := exists_lookup_of_le hj h
  obtain ⟨due', time', latency, reply, hk', hanswer, -, rfl⟩ := of_lookup_succ hsucc
  obtain ⟨-, rfl⟩ := Prod.mk.inj (Option.some.inj (hk.symm.trans hk'))
  exact ⟨latency, reply, hanswer, by omega⟩

/-- No lookup is before the start. -/
theorem start_le_lookup (h : sch.lookup p start k = some (due, time)) : start ≤ time := by
  obtain ⟨_, _, h₀, hle⟩ := exists_lookup_of_le h (Nat.zero_le k)
  obtain ⟨-, rfl⟩ := Prod.mk.inj (Option.some.inj h₀)
  exact hle

theorem Delivers.start_le {r : Nat} (h : sch.Delivers p start k receipt r) : start ≤ r := by
  obtain ⟨due, time, latency, hlookup, -, rfl⟩ := h
  exact Nat.le_trans (start_le_lookup hlookup) (Nat.le_add_right _ _)

/-- With answers that take no longer than the interval, the questions are an interval apart. -/
theorem lookup_eq_of_prompt
    (hprompt : ∀ k, ∃ latency reply, sch.answer k = some (latency, reply) ∧ latency ≤ p.interval)
    (k : Nat) :
    sch.lookup p start k = some (start + k * p.interval, start + k * p.interval) := by
  induction k with
  | zero => simp [lookup]
  | succ k ih =>
    obtain ⟨latency, reply, hanswer, hle⟩ := hprompt k
    have hnext : nextTime p (start + k * p.interval) (start + k * p.interval) =
        start + (k + 1) * p.interval := by
      rw [nextTime, if_neg (by omega), Nat.succ_mul]
      omega
    rw [lookup_succ ih hanswer, hnext, Nat.max_eq_left]
    rw [Nat.succ_mul]
    omega

/-! ## One turn -/

/-- The time from which on what the wait wants can be had. -/
def ready (sch : Schedule) (x : Clocked) : Option Nat :=
  match x.wait with
  | .resting _ _ next => some (max next x.now)
  | .asking _ _ _ => (sch.answer x.answered).map fun (latency, _) => x.now + latency
  | .starting _ => some x.now
  | .done _ => none

/-- Every time has a moment that agrees with the schedule. -/
theorem exists_moment (sch : Schedule) (t : Nat) :
    ∃ m : Instant, m.now = t ∧ sch.Agrees m ∧ (m.stopping = true ↔ ∃ s ∈ sch.stop, s ≤ t) := by
  by_cases h : ∃ s ∈ sch.stop, s ≤ t
  · exact ⟨⟨t, false, true⟩, rfl, ⟨fun _ => h, fun _ _ _ => rfl, nofun⟩, iff_of_true rfl h⟩
  · refine ⟨⟨t, false, false⟩, rfl, ⟨nofun, fun s hs hlt => ?_, nofun⟩, iff_of_false nofun h⟩
    exact absurd ⟨s, hs, Nat.le_of_lt hlt⟩ h

/-- What a wait that has begun ends with when its deadline passes, and when the relay stops. -/
theorem turn_of_limit (h : w.limit? = some (hash, deadline)) :
    (w.turn side p).deadline = some (deadline, .done (.error (.timeout hash p.timeout))) ∧
      (w.turn side p).cancelled = some (.done (.error (.cancelled hash))) := by
  cases w with
  | resting _ _ _ => cases h; exact ⟨rfl, rfl⟩
  | asking _ _ _ => cases h; exact ⟨rfl, rfl⟩
  | _ => cases h

/-- A wait is overdue from its deadline on. -/
theorem overdue_eq (h : w.limit? = some (hash, deadline)) : (w.turn side p).overdue m =
    if deadline ≤ m.now then some (.done (.error (.timeout hash p.timeout))) else none := by
  rw [Turn.overdue, (turn_of_limit h).1]
  rfl

/-- A wait halts when the relay stops. -/
theorem halted_eq (h : w.limit? = some (hash, deadline)) : (w.turn side p).halted m =
    if m.stopping then some (.done (.error (.cancelled hash))) else none := by
  rw [Turn.halted, (turn_of_limit h).2]

/-- From its deadline on, from the stop on, and from when it can have what it wants, a wait that has
begun can take a turn. -/
theorem exists_admits (hnow : x.now ≤ t) (hlimit : x.wait.limit? = some (hash, deadline))
    (hwhy : deadline ≤ t ∨ (∃ s ∈ sch.stop, s ≤ t) ∨ ∃ r ∈ sch.ready x, r ≤ t) :
    ∃ m c w, m.now = t ∧ sch.Admits side p x m c w := by
  obtain ⟨m, rfl, hagrees, hstopping⟩ := sch.exists_moment t
  by_cases hd : deadline ≤ m.now
  · exact ⟨m, _, _, rfl, hnow, hagrees, .late ((overdue_eq hlimit).trans (if_pos hd)), nofun⟩
  have hoverdue : (x.wait.turn side p).overdue m = none := (overdue_eq hlimit).trans (if_neg hd)
  by_cases hs : m.stopping = true
  · have hhalted : (x.wait.turn side p).halted m = some (.done (.error (.cancelled hash))) :=
      (halted_eq hlimit).trans (if_pos hs)
    exact ⟨m, _, _, rfl, hnow, hagrees, .cancelled hoverdue hhalted, nofun⟩
  have hhalted : (x.wait.turn side p).halted m = none := (halted_eq hlimit).trans (if_neg hs)
  obtain ⟨r, hr, hle⟩ := (hwhy.resolve_left hd).resolve_left (fun h => hs (hstopping.mpr h))
  obtain ⟨wait, now, answered⟩ := x
  cases wait with
  | resting _ _ next =>
    obtain rfl := Option.some.inj hr
    refine ⟨m, .resumed, _, rfl, hnow, hagrees,
      .met hoverdue (.inr hhalted) (.pause next _ ?_), nofun⟩
    exact Nat.le_trans (Nat.le_max_left _ _) hle
  | asking hash' _ _ =>
    obtain ⟨⟨latency, reply⟩, hanswer, rfl⟩ := Option.map_eq_some_iff.mp hr
    refine ⟨m, _, _, rfl, hnow, hagrees,
      .met hoverdue (.inr hhalted) (.ask side (.receipt hash') _ reply),
      fun reply' h => ?_⟩
    obtain rfl := Option.some.inj h
    exact ⟨latency, hanswer, hle⟩
  | _ => cases hlimit

/-- The next turn comes no later than any that could be taken. -/
theorem Step.now_le (h : sch.Step side p x y x') (hnow : x.now ≤ t)
    (hlimit : x.wait.limit? = some (hash, deadline))
    (hwhy : deadline ≤ t ∨ (∃ s ∈ sch.stop, s ≤ t) ∨ ∃ r ∈ sch.ready x, r ≤ t) : x'.now ≤ t := by
  cases h with
  | turn _ first =>
    obtain ⟨m, c, w, rfl, hadmits⟩ := exists_admits hnow hlimit hwhy
    exact first m c w hadmits

theorem admits_look (sch : Schedule) (side : Side) (p : Patience) (h : x.wait = .starting hash) :
    ∃ m c w, m.now = x.now ∧ sch.Admits side p x m c w := by
  obtain ⟨m, hm, hagrees, -⟩ := sch.exists_moment x.now
  obtain ⟨wait, now, answered⟩ := x
  obtain rfl : wait = .starting hash := h
  exact ⟨m, .looked, _, hm, Nat.le_of_eq hm.symm, hagrees,
    .met rfl (.inr (ite_self _)) (.look _), nofun⟩

/-- A wait that is not over takes another turn. -/
theorem exists_step (sch : Schedule) (side : Side) (p : Patience) (h : x.wait.outcome? = none) :
    ∃ y x', sch.Step side p x y x' := by
  have hadmits : ∃ t m c w, m.now = t ∧ sch.Admits side p x m c w := by
    cases hw : x.wait with
    | starting hash => exact ⟨x.now, admits_look sch side p hw⟩
    | resting hash deadline next =>
      have hlimit : x.wait.limit? = some (hash, deadline) := by rw [hw]; rfl
      exact ⟨_, exists_admits (Nat.le_max_right deadline _) hlimit (.inl (Nat.le_max_left _ _))⟩
    | asking hash deadline next =>
      have hlimit : x.wait.limit? = some (hash, deadline) := by rw [hw]; rfl
      exact ⟨_, exists_admits (Nat.le_max_right deadline _) hlimit (.inl (Nat.le_max_left _ _))⟩
    | done result => rw [hw] at h; cases h
  classical
  obtain ⟨m, c, w, hm, hfirst⟩ := Nat.find_spec hadmits
  refine ⟨_, _, .turn hfirst fun m' c' w' h' => ?_⟩
  rw [hm]
  exact Nat.find_min' hadmits ⟨m', c', w', rfl, h'⟩

/-! ## The whole wait -/

/-- Where a wait stands that is not over, and how many questions it has put. -/
inductive Stands (sch : Schedule) (p : Patience) (hash : Word) (start : Nat) :
    Clocked → Nat → Prop
  | starting : Stands sch p hash start ⟨.starting hash, start, 0⟩ 0
  | resting {next now k : Nat} (h : sch.lookup p start k = some (next, max next now)) :
      Stands sch p hash start ⟨.resting hash (start + p.timeout) next, now, k⟩ k
  | asking {due now k : Nat} (h : sch.lookup p start k = some (due, now)) :
      Stands sch p hash start ⟨.asking hash (start + p.timeout) (nextTime p due now), now, k⟩
        (k + 1)

/-- The questions put so far are the first of the schedule, before the deadline and the stop. -/
structure Timed (sch : Schedule) (p : Patience) (start : Nat) (hs : List Happening) (now : Nat) :
    Prop where
  times : (lookupTimes hs).map some =
    (List.range (lookupTimes hs).length).map fun k => (sch.lookup p start k).map (·.2)
  le_now : ∀ t ∈ lookupTimes hs, t ≤ now
  lt_deadline : ∀ t ∈ lookupTimes hs, t < start + p.timeout
  le_stop : ∀ t ∈ lookupTimes hs, ∀ s ∈ sch.stop, t ≤ s

/-- What is so of a wait until it is over. -/
structure Kept (sch : Schedule) (side : Side) (p : Patience) (hash : Word) (start : Nat)
    (hs : List Happening) (x : Clocked) : Prop where
  stands : sch.Stands p hash start x (lookupTimes hs).length
  timed : sch.Timed p start hs x.now
  start_le : start ≤ x.now
  lt_deadline : x.now < start + p.timeout
  le_stop : ∀ s ∈ sch.stop, x.now ≤ max s start
  /-- No question brought a receipt. -/
  missing : ∀ k < x.answered, ∀ receipt r, ¬ sch.Delivers p start k receipt r
  lookups : lookups hs = List.replicate x.answered (side, hash)
  begun : hs = [] → x.wait = .starting hash
  untold : ∀ h ∈ hs.head?, h.moment.told = false

/-- How a wait may end. -/
inductive Ends (sch : Schedule) (p : Patience) (hash : Word) (start fin : Nat) :
    Except WaitError Receipt → Prop
  | found {k : Nat} {receipt : Receipt} (delivers : sch.Delivers p start k receipt fin)
      (first : ∀ j < k, ∀ receipt r, ¬ sch.Delivers p start j receipt r)
      (lt_deadline : fin < start + p.timeout) (le_stop : ∀ s ∈ sch.stop, fin ≤ s) :
      Ends sch p hash start fin (.ok receipt)
  | timeout (eq : fin = start + p.timeout)
      (missing : ∀ k receipt r, sch.Delivers p start k receipt r → start + p.timeout ≤ r)
      (going : ∀ s ∈ sch.stop, start + p.timeout ≤ s) :
      Ends sch p hash start fin (.error (.timeout hash p.timeout))
  | cancelled {s : Nat} (stop : s ∈ sch.stop) (lt_deadline : s < start + p.timeout)
      (eq : fin = max s start)
      (missing : ∀ k receipt r, sch.Delivers p start k receipt r → s ≤ r) :
      Ends sch p hash start fin (.error (.cancelled hash))

/-- What is so of a wait that is over. -/
structure Ended (sch : Schedule) (side : Side) (p : Patience) (hash : Word) (start : Nat)
    (hs : List Happening) (result : Except WaitError Receipt) (fin : Nat) : Prop where
  ends : sch.Ends p hash start fin result
  timed : sch.Timed p start hs fin
  /-- No question of the schedule was left out. -/
  complete : ∀ k due time, sch.lookup p start k = some (due, time) → time < fin →
    k < (lookupTimes hs).length
  lookups : lookups hs = List.replicate (lookupTimes hs).length (side, hash)
  told : (∃ h ∈ hs.head?, h.moment.told = true) →
    lookupTimes hs = [] ∧ result = .error (.cancelled hash) ∧ fin = start

variable {n r s : Nat}

/-- While the relay goes on no stop has come. -/
theorem Agrees.le_stop (h : sch.Agrees m) (hgoing : m.stopping = false) :
    ∀ s ∈ sch.stop, m.now ≤ s := by
  intro s hs
  by_contra hlt
  rw [h.stops s hs (Nat.lt_of_not_le hlt)] at hgoing
  cases hgoing

/-- Nothing is ready before now. -/
theorem now_le_ready (h : r ∈ sch.ready x) : x.now ≤ r := by
  obtain ⟨wait, now, answered⟩ := x
  cases wait with
  | starting _ => exact Nat.le_of_eq (Option.some.inj h)
  | resting _ _ next => exact (Option.some.inj h) ▸ Nat.le_max_right _ _
  | asking _ _ _ =>
    obtain ⟨⟨latency, _⟩, -, rfl⟩ := Option.map_eq_some_iff.mp h
    exact Nat.le_add_right _ _
  | done _ => cases h

/-- What the wait wants can be had before any question is put that has not been put yet. -/
theorem Stands.ready_le_lookup (h : sch.Stands p hash start x n)
    (hlookup : sch.lookup p start n = some (due, time)) : ∃ r ∈ sch.ready x, r ≤ time := by
  cases h with
  | starting =>
    obtain ⟨-, rfl⟩ := Prod.mk.inj (Option.some.inj hlookup)
    exact ⟨_, rfl, Nat.le_refl _⟩
  | resting h =>
    obtain ⟨-, rfl⟩ := Prod.mk.inj (Option.some.inj (h.symm.trans hlookup))
    exact ⟨_, rfl, Nat.le_refl _⟩
  | asking h =>
    obtain ⟨latency, reply, hanswer, hle⟩ := lookup_le h hlookup (Nat.lt_succ_self _)
    exact ⟨_, Option.map_eq_some_iff.mpr ⟨_, hanswer, rfl⟩, hle⟩

/-- It can be had before any question brings a receipt that has not been answered yet. -/
theorem Stands.ready_le_delivery (h : sch.Stands p hash start x n) (hk : x.answered ≤ k)
    (hdelivers : sch.Delivers p start k receipt r) : ∃ r' ∈ sch.ready x, r' ≤ r := by
  obtain ⟨due, time, latency, hlookup, hanswer, rfl⟩ := hdelivers
  cases h with
  | starting =>
    exact ⟨start, rfl, Nat.le_trans (start_le_lookup hlookup) (Nat.le_add_right _ _)⟩
  | @resting next now _ h =>
    rcases Nat.lt_or_eq_of_le hk with hlt | rfl
    · obtain ⟨_, _, -, hle⟩ := lookup_le h hlookup hlt
      exact ⟨max next now, rfl, by omega⟩
    · obtain ⟨-, rfl⟩ := Prod.mk.inj (Option.some.inj (h.symm.trans hlookup))
      exact ⟨_, rfl, Nat.le_add_right _ _⟩
  | @asking _ now _ h =>
    rcases Nat.lt_or_eq_of_le hk with hlt | rfl
    · obtain ⟨latency', _, hanswer', hle⟩ := lookup_le h hlookup hlt
      exact ⟨now + latency', Option.map_eq_some_iff.mpr ⟨_, hanswer', rfl⟩, by omega⟩
    · obtain ⟨-, rfl⟩ := Prod.mk.inj (Option.some.inj (h.symm.trans hlookup))
      exact ⟨_, Option.map_eq_some_iff.mpr ⟨_, hanswer, rfl⟩, Nat.le_refl _⟩

theorem Stands.answered_le (h : sch.Stands p hash start x n) : x.answered ≤ n := by
  cases h with
  | starting => exact Nat.le_refl _
  | resting _ => exact Nat.le_refl _
  | asking _ => exact Nat.le_succ _

/-- A wait stands for its own transaction and deadline. -/
theorem Stands.limit_eq {hash' : Word} (h : sch.Stands p hash start x n)
    (hlimit : x.wait.limit? = some (hash', deadline)) :
    hash' = hash ∧ deadline = start + p.timeout := by
  cases h with
  | starting => cases hlimit
  | resting _ => cases hlimit; exact ⟨rfl, rfl⟩
  | asking _ => cases hlimit; exact ⟨rfl, rfl⟩

/-- In a turn the question that is open is put for good, if there is one. -/
theorem Stands.lookups (h : sch.Stands p hash start x n)
    (hgoes : (x.wait.turn side p).Goes m c w) :
    EventRelay.lookups [⟨m, c⟩] = List.replicate (n - x.answered) (side, hash) := by
  have hquestion := hgoes.question
  cases h with
  | starting => simp [EventRelay.lookups, questions, hquestion, Waiting.turn, Turn.plain,
      Demand.question?]
  | resting _ => simp [EventRelay.lookups, questions, hquestion, Waiting.turn, Waiting.within,
      Demand.question?]
  | asking _ => simp [EventRelay.lookups, questions, hquestion, Waiting.turn, Waiting.within,
      Demand.question?]

/-- Only a wait that resumes looks up. -/
theorem lookupTimes_snoc (hs : List Happening) (m : Instant) (hc : c ≠ .resumed) :
    lookupTimes (hs ++ [⟨m, c⟩]) = lookupTimes hs := by
  cases c with
  | resumed => exact absurd rfl hc
  | _ => simp [lookupTimes]

theorem lookupTimes_resumed (hs : List Happening) (m : Instant) :
    lookupTimes (hs ++ [⟨m, .resumed⟩]) = lookupTimes hs ++ [m.now] := by
  simp [lookupTimes]

theorem Timed.later {hs' : List Happening} {now now' : Nat} (h : sch.Timed p start hs now)
    (heq : lookupTimes hs' = lookupTimes hs) (hle : now ≤ now') : sch.Timed p start hs' now' where
  times := by rw [heq]; exact h.times
  le_now t ht := Nat.le_trans (h.le_now t (heq ▸ ht)) hle
  lt_deadline t ht := h.lt_deadline t (heq ▸ ht)
  le_stop t ht := h.le_stop t (heq ▸ ht)

/-- The next lookup is made at its time. -/
theorem Timed.snoc {now : Nat} (h : sch.Timed p start hs now) (hle : now ≤ m.now)
    (hlookup : sch.lookup p start (lookupTimes hs).length = some (due, m.now))
    (hd : m.now < start + p.timeout) (hs' : ∀ s ∈ sch.stop, m.now ≤ s) :
    sch.Timed p start (hs ++ [⟨m, .resumed⟩]) m.now := by
  constructor
  · rw [lookupTimes_resumed, List.map_append, h.times, List.length_append, List.length_singleton,
      List.range_succ, List.map_append, List.map_singleton, List.map_singleton, hlookup]
    rfl
  · rw [lookupTimes_resumed]
    intro t ht
    rcases List.mem_append.mp ht with hmem | hmem
    · exact Nat.le_trans (h.le_now t hmem) hle
    · exact Nat.le_of_eq (List.mem_singleton.mp hmem)
  · rw [lookupTimes_resumed]
    intro t ht
    rcases List.mem_append.mp ht with hmem | hmem
    · exact h.lt_deadline t hmem
    · exact List.mem_singleton.mp hmem ▸ hd
  · rw [lookupTimes_resumed]
    intro t ht
    rcases List.mem_append.mp ht with hmem | hmem
    · exact h.le_stop t hmem
    · exact List.mem_singleton.mp hmem ▸ hs'

namespace Kept

/-- A step goes no further than the first time at which something happens. -/
theorem now_le (h : sch.Kept side p hash start hs x) (hstep : sch.Step side p x y x')
    (hnow : x.now ≤ t) (hwhy : start + p.timeout ≤ t ∨ (∃ s ∈ sch.stop, s ≤ t) ∨
      ∃ r ∈ sch.ready x, r ≤ t) : x'.now ≤ t := by
  have hstands := h.stands
  generalize (lookupTimes hs).length = n at hstands
  cases hstands with
  | starting =>
    cases hstep with
    | turn _ first =>
      obtain ⟨m, c, w, hm, hadmits⟩ :=
        admits_look sch side p (x := ⟨.starting hash, start, 0⟩) rfl
      exact Nat.le_trans (first m c w hadmits) (hm ▸ hnow)
  | resting _ => exact hstep.now_le hnow rfl hwhy
  | asking _ => exact hstep.now_le hnow rfl hwhy

/-- A step does not pass over a delivery. -/
theorem now_le_delivery (h : sch.Kept side p hash start hs x) (hstep : sch.Step side p x y x')
    (hdelivers : sch.Delivers p start k receipt r) : x'.now ≤ r := by
  have hk : x.answered ≤ k := by
    by_contra hlt
    exact h.missing k (Nat.lt_of_not_le hlt) receipt r hdelivers
  obtain ⟨r', hr', hle⟩ := h.stands.ready_le_delivery hk hdelivers
  exact h.now_le hstep (Nat.le_trans (now_le_ready hr') hle) (.inr (.inr ⟨r', hr', hle⟩))

theorem now_le_lookup (h : sch.Kept side p hash start hs x) (hstep : sch.Step side p x y x')
    (hlookup : sch.lookup p start (lookupTimes hs).length = some (due, time)) :
    x'.now ≤ time := by
  obtain ⟨r, hr, hle⟩ := h.stands.ready_le_lookup hlookup
  exact h.now_le hstep (Nat.le_trans (now_le_ready hr) hle) (.inr (.inr ⟨r, hr, hle⟩))

/-- A step does not pass over the deadline. -/
theorem now_le_deadline (h : sch.Kept side p hash start hs x) (hstep : sch.Step side p x y x') :
    x'.now ≤ start + p.timeout :=
  h.now_le hstep (Nat.le_of_lt h.lt_deadline) (.inl (Nat.le_refl _))

/-- A step does not pass over a stop that is still to come. -/
theorem now_le_stop (h : sch.Kept side p hash start hs x) (hstep : sch.Step side p x y x')
    (hs : s ∈ sch.stop) : x'.now ≤ max s x.now :=
  h.now_le hstep (Nat.le_max_right _ _) (.inr (.inl ⟨s, hs, Nat.le_max_left _ _⟩))

/-- A wait looks up its own transaction, as often as it resumes. -/
theorem lookups_snoc (h : sch.Kept side p hash start hs x)
    (hgoes : (x.wait.turn side p).Goes m c w) :
    EventRelay.lookups (hs ++ [⟨m, c⟩]) =
      List.replicate (lookupTimes hs).length (side, hash) := by
  have happend : EventRelay.lookups (hs ++ [⟨m, c⟩]) =
      EventRelay.lookups hs ++ EventRelay.lookups [⟨m, c⟩] := by
    simp only [EventRelay.lookups, questions_append, List.filterMap_append]
  rw [happend, h.lookups, h.stands.lookups hgoes, List.replicate_append_replicate,
    Nat.add_sub_cancel' h.stands.answered_le]

/-- What a last turn makes of a wait. -/
theorem ended (h : sch.Kept side p hash start hs x) (result : Except WaitError Receipt)
    (hstep : sch.Step side p x ⟨m, c⟩ x') (hgoes : (x.wait.turn side p).Goes m c w)
    (hnow : x.now ≤ m.now) (heq : x'.now = m.now) (hc : c ≠ .resumed)
    (hends : sch.Ends p hash start m.now result)
    (htold : hs = [] → m.told = true →
      lookupTimes hs = [] ∧ result = .error (.cancelled hash) ∧ m.now = start) :
    sch.Ended side p hash start (hs ++ [⟨m, c⟩]) result m.now where
  ends := hends
  timed := h.timed.later (lookupTimes_snoc hs m hc) hnow
  complete k due time hlookup hlt := by
    rw [lookupTimes_snoc hs m hc]
    by_contra hk
    obtain ⟨due', time', hlookup', hle⟩ := exists_lookup_of_le hlookup (Nat.le_of_not_lt hk)
    have hfirst := h.now_le_lookup hstep hlookup'
    omega
  lookups := by rw [lookupTimes_snoc hs m hc, h.lookups_snoc hgoes]
  told := by
    rw [lookupTimes_snoc hs m hc]
    rintro ⟨y, hy, hytold⟩
    cases hs with
    | nil =>
      obtain rfl := Option.some.inj hy
      exact htold rfl hytold
    | cons z hs =>
      obtain rfl := Option.some.inj hy
      rw [h.untold z rfl] at hytold
      cases hytold

theorem head?_untold {h' : Happening} (h : sch.Kept side p hash start hs x)
    (htold : hs = [] → h'.moment.told = false) :
    ∀ z ∈ (hs ++ [h']).head?, z.moment.told = false := by
  intro z hz
  cases hs with
  | nil =>
    obtain rfl := Option.some.inj hz
    exact htold rfl
  | cons y hs =>
    obtain rfl := Option.some.inj hz
    exact h.untold y rfl

/-- A wait whose deadline has come ends with a timeout. -/
theorem ends_late (h : sch.Kept side p hash start hs x) (hstep : sch.Step side p x y x')
    (hd : start + p.timeout ≤ x'.now) :
    sch.Ends p hash start x'.now (.error (.timeout hash p.timeout)) := by
  refine .timeout (Nat.le_antisymm (h.now_le_deadline hstep) hd) ?_ ?_
  · intro k receipt r hdelivers
    exact Nat.le_trans hd (h.now_le_delivery hstep hdelivers)
  · intro s hs
    have hle := h.now_le_stop hstep hs
    have hlt := h.lt_deadline
    omega

/-- A wait that a stop reaches before the deadline is cancelled. -/
theorem ends_cancelled (h : sch.Kept side p hash start hs x) (hstep : sch.Step side p x y x')
    (hlater : x.now ≤ x'.now) (hd : x'.now < start + p.timeout) (hs : s ∈ sch.stop)
    (hle : s ≤ x'.now) : sch.Ends p hash start x'.now (.error (.cancelled hash)) := by
  refine .cancelled hs (Nat.lt_of_le_of_lt hle hd) ?_ ?_
  · have hfirst := h.now_le_stop hstep hs
    have hbefore := h.le_stop s hs
    have hstart := h.start_le
    omega
  · intro k receipt r hdelivers
    exact Nat.le_trans hle (h.now_le_delivery hstep hdelivers)

/-- A wait whose receipt is there before the deadline and every stop ends with it. -/
theorem ends_found (h : sch.Kept side p hash start hs x) (hstep : sch.Step side p x y x')
    (hlookup : sch.lookup p start x.answered = some (due, x.now))
    (hanswer : sch.answer x.answered = some (latency, .ok (some receipt)))
    (hle : x.now + latency ≤ x'.now) (hd : x'.now < start + p.timeout)
    (hs : ∀ s ∈ sch.stop, x'.now ≤ s) : sch.Ends p hash start x'.now (.ok receipt) := by
  have hdelivers : sch.Delivers p start x.answered receipt (x.now + latency) :=
    ⟨due, x.now, latency, hlookup, hanswer, rfl⟩
  have heq : x'.now = x.now + latency := Nat.le_antisymm (h.now_le_delivery hstep hdelivers) hle
  exact .found (heq ▸ hdelivers) h.missing hd hs

/-- What holds of a wait at its start. -/
theorem initially (sch : Schedule) (side : Side) (hash : Word) (start : Nat)
    (hpos : 0 < p.timeout) : sch.Kept side p hash start [] ⟨.starting hash, start, 0⟩ where
  stands := .starting
  timed := ⟨rfl, fun _ ht => absurd ht List.not_mem_nil, fun _ ht => absurd ht List.not_mem_nil,
    fun _ ht => absurd ht List.not_mem_nil⟩
  start_le := Nat.le_refl start
  lt_deadline := Nat.lt_add_of_pos_right hpos
  le_stop s _ := Nat.le_max_right s start
  missing k hk := absurd hk (Nat.not_lt_zero k)
  lookups := rfl
  begun _ := rfl
  untold z hz := by cases hz

/-- The wait has begun. -/
theorem started (h : sch.Kept side p hash m.now hs ⟨.starting hash, m.now, 0⟩)
    (hn : (lookupTimes hs).length = 0) (hlookups : EventRelay.lookups (hs ++ [⟨m, .looked⟩]) = [])
    (htold : m.told = false) :
    sch.Kept side p hash m.now (hs ++ [⟨m, .looked⟩])
      ⟨.resting hash (m.now + p.timeout) m.now, m.now, 0⟩ where
  stands := by
    rw [lookupTimes_snoc hs m (c := .looked) nofun, hn]
    exact .resting (by rw [Nat.max_self]; rfl)
  timed := h.timed.later (lookupTimes_snoc hs m nofun) (Nat.le_refl _)
  start_le := Nat.le_refl _
  lt_deadline := h.lt_deadline
  le_stop := h.le_stop
  missing k hk := absurd hk (Nat.not_lt_zero k)
  lookups := hlookups
  begun hnil := by simp at hnil
  untold := h.head?_untold fun _ => htold

/-- A question is put. -/
theorem asked {now : Nat} (h : sch.Kept side p hash start hs
      ⟨.resting hash (start + p.timeout) next, now, k⟩) (hn : (lookupTimes hs).length = k)
    (hlookups : EventRelay.lookups (hs ++ [⟨m, .resumed⟩]) = List.replicate k (side, hash))
    (hlookup : sch.lookup p start k = some (next, m.now)) (hlater : now ≤ m.now)
    (hd : m.now < start + p.timeout) (hs' : ∀ s ∈ sch.stop, m.now ≤ s) :
    sch.Kept side p hash start (hs ++ [⟨m, .resumed⟩])
      ⟨.asking hash (start + p.timeout) (nextTime p next m.now), m.now, k⟩ where
  stands := by
    rw [lookupTimes_resumed, List.length_append, hn]
    exact .asking hlookup
  timed := h.timed.snoc hlater (hn ▸ hlookup) hd hs'
  start_le := Nat.le_trans h.start_le hlater
  lt_deadline := hd
  le_stop s hs := Nat.le_trans (hs' s hs) (Nat.le_max_left _ _)
  missing := h.missing
  lookups := hlookups
  begun hnil := by simp at hnil
  untold := h.head?_untold fun hnil => nomatch h.begun hnil

/-- A question is answered, and not with a receipt. -/
theorem answered {now : Nat} (h : sch.Kept side p hash start hs
      ⟨.asking hash (start + p.timeout) (nextTime p due now), now, k⟩)
    (hn : (lookupTimes hs).length = k + 1)
    (hlookups : EventRelay.lookups (hs ++ [⟨m, .answered side (.receipt hash) reply⟩]) =
      List.replicate (k + 1) (side, hash))
    (hlookup : sch.lookup p start k = some (due, now))
    (hanswer : sch.answer k = some (latency, reply)) (hm : m.now = now + latency)
    (hreply : ∀ receipt, reply ≠ .ok (some receipt)) (hd : m.now < start + p.timeout)
    (hs' : ∀ s ∈ sch.stop, m.now ≤ s) :
    sch.Kept side p hash start (hs ++ [⟨m, .answered side (.receipt hash) reply⟩])
      ⟨.resting hash (start + p.timeout) (nextTime p due now), m.now, k + 1⟩ where
  stands := by
    have hsucc := lookup_succ hlookup hanswer
    rw [← hm] at hsucc
    rw [lookupTimes_snoc hs m (c := .answered side (.receipt hash) reply) nofun, hn]
    exact .resting hsucc
  timed := h.timed.later (lookupTimes_snoc hs m nofun) (hm ▸ Nat.le_add_right _ _)
  start_le := Nat.le_trans h.start_le (hm ▸ Nat.le_add_right _ _)
  lt_deadline := hd
  le_stop s hs := Nat.le_trans (hs' s hs) (Nat.le_max_left _ _)
  missing j hj receipt r hdelivers := by
    rcases Nat.lt_succ_iff_lt_or_eq.mp hj with hlt | rfl
    · exact h.missing j hlt receipt r hdelivers
    · obtain ⟨_, _, _, -, hanswer', -⟩ := hdelivers
      exact hreply receipt (Prod.mk.inj (Option.some.inj (hanswer.symm.trans hanswer'))).2
  lookups := hlookups
  begun hnil := by simp at hnil
  untold := h.head?_untold fun hnil => nomatch h.begun hnil

/-- **With every turn a wait keeps to the schedule, or it ends as the schedule asks.** -/
theorem step (h : sch.Kept side p hash start hs x) (hstep : sch.Step side p x y x') :
    sch.Kept side p hash start (hs ++ [y]) x' ∨
      ∃ result, x'.wait = .done result ∧
        sch.Ended side p hash start (hs ++ [y]) result x'.now := by
  have hstep' := hstep
  cases hstep with
  | @turn m c w admits _ =>
  have hgoes := admits.goes
  have hlookups := h.lookups_snoc hgoes
  have hend := fun result => h.ended result hstep' hgoes admits.later rfl
  have hready := fun r hr => h.now_le hstep' (now_le_ready hr) (.inr (.inr ⟨r, hr, Nat.le_refl r⟩))
  have hstands := h.stands
  generalize hn : (lookupTimes hs).length = n at hstands hlookups
  obtain ⟨wait, now, answered⟩ := x
  have hlater : now ≤ m.now := admits.later
  -- A turn that the demand allows is taken when what is wanted can be had, and not later.
  cases turned_of_goes hgoes with
  | stopped hash' htold =>
    cases hstands with
    | starting =>
      have hm : m.now = start := Nat.le_antisymm (hready start rfl) hlater
      obtain ⟨s, hs, hle⟩ := admits.agrees.stopped (admits.agrees.told htold)
      have hends := h.ends_cancelled hstep' hlater (hm ▸ h.lt_deadline) hs hle
      exact .inr ⟨_, rfl, hend _ nofun hends
        fun _ _ => ⟨List.eq_nil_of_length_eq_zero hn, rfl, hm⟩⟩
  | started hash' htold =>
    cases hstands with
    | starting =>
      obtain rfl : m.now = start := Nat.le_antisymm (hready start rfl) hlater
      exact .inl (h.started hn hlookups htold)
  | due hash' deadline next hd hgoing hdue =>
    cases hstands with
    | resting hlookup =>
      have hle : m.now ≤ max next now := hready _ rfl
      have hm : max next now = m.now := by omega
      rw [hm] at hlookup
      exact .inl (h.asked hn hlookups hlookup hlater hd (admits.agrees.le_stop hgoing))
  | found hash' deadline next receipt hd hgoing =>
    cases hstands with
    | asking hlookup =>
      obtain ⟨latency, hanswer, hle⟩ := admits.answer _ rfl
      have hends := h.ends_found hstep' hlookup hanswer hle hd (admits.agrees.le_stop hgoing)
      exact .inr ⟨_, rfl, hend _ nofun hends fun hnil => nomatch h.begun hnil⟩
  | missing hash' deadline next reply hd hgoing hreply =>
    cases hstands with
    | asking hlookup =>
      obtain ⟨latency, hanswer, hle⟩ := admits.answer _ rfl
      have hm : m.now = now + latency :=
        Nat.le_antisymm (hready _ (Option.map_eq_some_iff.mpr ⟨_, hanswer, rfl⟩)) hle
      exact .inl (h.answered hn hlookups hlookup hanswer hm hreply hd
        (admits.agrees.le_stop hgoing))
  | late _ hash' deadline hlimit hd =>
    obtain ⟨rfl, rfl⟩ := hstands.limit_eq hlimit
    exact .inr ⟨_, rfl, hend _ nofun (h.ends_late hstep' hd)
      fun hnil => absurd hlimit (by rw [h.begun hnil]; nofun)⟩
  | cancelled _ hash' deadline hlimit hd hstopping =>
    obtain ⟨rfl, rfl⟩ := hstands.limit_eq hlimit
    obtain ⟨s, hs, hle⟩ := admits.agrees.stopped hstopping
    exact .inr ⟨_, rfl, hend _ nofun (h.ends_cancelled hstep' hlater hd hs hle)
      fun hnil => absurd hlimit (by rw [h.begun hnil]; nofun)⟩

end Kept

/-- A wait that is over takes no turn. -/
theorem not_step_done {result : Except WaitError Receipt} (hx : x.wait = .done result) :
    ¬ sch.Step side p x y x' := by
  intro h
  cases h with
  | turn admits _ =>
    have hgoes := admits.goes
    rw [hx] at hgoes
    exact not_goes_nothing hgoes

/-- Polling keeps to the schedule until it has ended as it says. -/
theorem Polls.kept (hpos : 0 < p.timeout) (h : sch.Polls side p hash start hs x) :
    sch.Kept side p hash start hs x ∨
      ∃ result, x.wait = .done result ∧ sch.Ended side p hash start hs result x.now := by
  induction h with
  | start => exact .inl (.initially sch side hash start hpos)
  | step _ hstep ih =>
    rcases ih with hkept | ⟨result, hdone, -⟩
    · exact hkept.step hstep
    · exact absurd hstep (not_step_done hdone)

/-- Every step leaves less to do. -/
theorem Step.left_lt (h : sch.Step side p x y x') : x'.wait.left p < x.wait.left p := by
  cases h with
  | turn admits _ => exact Waiting.left_lt admits.goes

/-- A path of polling has no more turns than twice its timeout allows. -/
theorem Polls.length_le (h : sch.Polls side p hash start hs x) :
    hs.length + x.wait.left p ≤ 2 * p.timeout + 2 := by
  induction h with
  | start => exact Nat.le_of_eq (Nat.zero_add _)
  | step _ hstep ih =>
    have hlt := hstep.left_lt
    rw [List.length_append, List.length_singleton]
    omega

/-- Nothing but the times sets these turns apart from those of any other path. -/
theorem Polls.path (h : sch.Polls side p hash start hs x) :
    Path (Waiting.turn side p) (.starting hash) hs x.wait := by
  induction h with
  | start => exact .here _
  | step _ hstep ih =>
    cases hstep with
    | turn admits _ => exact ih.snoc admits.goes

/-- However far a wait has come, it comes to its end. -/
theorem Polls.exists_done (h : sch.Polls side p hash start hs x) :
    ∃ more result fin n, sch.Polls side p hash start (hs ++ more) ⟨.done result, fin, n⟩ := by
  induction hleft : x.wait.left p using Nat.strongRecOn generalizing hs x with
  | ind left ih =>
    subst hleft
    cases hdone : x.wait.outcome? with
    | some result =>
      obtain ⟨wait, fin, n⟩ := x
      obtain rfl : wait = .done result := Waiting.outcome?_eq_some.mp hdone
      exact ⟨[], result, fin, n, by rw [List.append_nil]; exact h⟩
    | none =>
      obtain ⟨y, x', hstep⟩ := sch.exists_step side p hdone
      obtain ⟨more, result, fin, n, hmore⟩ := ih _ hstep.left_lt (h.step hstep) rfl
      exact ⟨y :: more, result, fin, n, by rw [List.append_cons]; exact hmore⟩

/-- What a wait makes of a schedule. -/
structure Polled (sch : Schedule) (side : Side) (p : Patience) (hash : Word) (start : Nat)
    (hs : List Happening) (result : Except WaitError Receipt) (fin : Nat) : Prop where
  /-- When the relay was to stop before the start, no question is put. -/
  stopped : (∃ h ∈ hs.head?, h.moment.told = true) ∨ (∃ s ∈ sch.stop, s < start) →
    lookups hs = [] ∧ result = .error (.cancelled hash) ∧ fin = start
  bounded : fin ≤ start + p.timeout
  /-- A receipt is the first that any question brings, before the deadline and no later than the
  stop. -/
  found : ∀ receipt, result = .ok receipt →
    (∃ k, sch.Delivers p start k receipt fin ∧
      ∀ j < k, ∀ receipt r, ¬ sch.Delivers p start j receipt r) ∧
    fin < start + p.timeout ∧ ∀ s ∈ sch.stop, fin ≤ s
  /-- A receipt that comes before the deadline and before the stop is not missed. -/
  delivered : ∀ k receipt r, sch.Delivers p start k receipt r → r < start + p.timeout →
    (∀ s ∈ sch.stop, r < s) → ∃ receipt, result = .ok receipt
  /-- The wait times out when neither comes before the deadline. -/
  timeout_iff : result = .error (.timeout hash p.timeout) ↔
    (∀ k receipt r, sch.Delivers p start k receipt r → start + p.timeout ≤ r) ∧
      ∀ s ∈ sch.stop, start + p.timeout ≤ s
  timeout_at : result = .error (.timeout hash p.timeout) → fin = start + p.timeout
  /-- The wait is cancelled when the stop comes before the deadline and before a receipt. -/
  cancelled_of : ∀ s ∈ sch.stop, s < start + p.timeout →
    (∀ k receipt r, sch.Delivers p start k receipt r → s < r) →
      result = .error (.cancelled hash)
  cancelled : result = .error (.cancelled hash) →
    ∃ s ∈ sch.stop, s < start + p.timeout ∧ fin = max s start ∧
      ∀ k receipt r, sch.Delivers p start k receipt r → s ≤ r
  /-- There is no other end. -/
  outcome : (∃ receipt, result = .ok receipt) ∨ result = .error (.timeout hash p.timeout) ∨
    result = .error (.cancelled hash)
  /-- The questions are those of the schedule up to the end, whatever the answers are that bring no
  receipt. -/
  lookups : lookups hs = List.replicate (lookupTimes hs).length (side, hash)
  times : (lookupTimes hs).map some =
    (List.range (lookupTimes hs).length).map fun k => (sch.lookup p start k).map (·.2)
  complete : ∀ k due time, sch.lookup p start k = some (due, time) → time < fin →
    k < (lookupTimes hs).length
  /-- With answers that take no longer than the interval, the questions are put at the start and
  every interval after it until the end. -/
  prompt : (∀ k, ∃ latency reply, sch.answer k = some (latency, reply) ∧ latency ≤ p.interval) →
    ∃ n, lookupTimes hs = (List.range n).map (start + · * p.interval) ∧
      (∀ k, start + k * p.interval < fin → k < n) ∧ (∀ k < n, start + k * p.interval ≤ fin) ∧
      (result = .error (.timeout hash p.timeout) →
        n = (p.timeout + p.interval - 1) / p.interval)

/-- All lookups are after the start. -/
theorem Timed.start_le {fin : Nat} (h : sch.Timed p start hs fin) :
    ∀ t ∈ lookupTimes hs, start ≤ t := by
  intro t ht
  have hmem : some t ∈ (lookupTimes hs).map some := List.mem_map_of_mem ht
  rw [h.times] at hmem
  obtain ⟨k, -, hk⟩ := List.mem_map.mp hmem
  obtain ⟨⟨due, time⟩, hlookup, rfl⟩ := Option.map_eq_some_iff.mp hk
  exact start_le_lookup hlookup

/-- After a stop before the start there are no lookups. -/
theorem Timed.eq_nil {fin : Nat} (h : sch.Timed p start hs fin) (hs' : s ∈ sch.stop)
    (hlt : s < start) : lookupTimes hs = [] := by
  refine List.eq_nil_iff_forall_not_mem.mpr fun t ht => ?_
  have hstart := h.start_le t ht
  have hstop := h.le_stop t ht s hs'
  omega

/-- With prompt answers, the times of the questions are known. -/
theorem Timed.eq_of_prompt {fin : Nat} (h : sch.Timed p start hs fin)
    (hprompt : ∀ k, ∃ latency reply, sch.answer k = some (latency, reply) ∧ latency ≤ p.interval) :
    lookupTimes hs = (List.range (lookupTimes hs).length).map (start + · * p.interval) := by
  have htimes := h.times
  simp only [lookup_eq_of_prompt hprompt, Option.map_some] at htimes
  rw [← Function.comp_def some, ← List.map_map] at htimes
  exact (List.map_inj_right fun _ _ => Option.some.inj).mp htimes

/-- How many questions fit in before the deadline. -/
theorem eq_ceil {n timeout interval : Nat} (hpos : 0 < timeout) (hle : timeout ≤ n * interval)
    (hlt : ∀ k < n, k * interval < timeout) : n = (timeout + interval - 1) / interval := by
  obtain _ | n := n
  · omega
  · have hn := hlt n (Nat.lt_succ_self n)
    rw [Nat.succ_mul] at hle
    symm
    refine Nat.div_eq_of_lt_le ?_ ?_
    · rw [Nat.succ_mul]
      omega
    · rw [Nat.succ_mul, Nat.succ_mul]
      omega

namespace Ends

variable {fin : Nat} {result : Except WaitError Receipt}

/-- No wait ends after its deadline. -/
theorem le_deadline (h : sch.Ends p hash start fin result) (hpos : 0 < p.timeout) :
    fin ≤ start + p.timeout := by
  cases h with
  | found _ _ hlt _ => exact Nat.le_of_lt hlt
  | timeout heq _ _ => exact Nat.le_of_eq heq
  | cancelled _ hlt heq _ => omega

/-- A stop before the start leaves but one end. -/
theorem eq_of_stop_lt (h : sch.Ends p hash start fin result) (hs : s ∈ sch.stop) (hlt : s < start) :
    result = .error (.cancelled hash) ∧ fin = start := by
  cases h with
  | found hdelivers _ _ hle =>
    have hstart := hdelivers.start_le
    have hstop := hle s hs
    omega
  | timeout _ _ hgoing =>
    have hstop := hgoing s hs
    omega
  | cancelled hs' _ heq _ =>
    obtain rfl := Option.mem_unique hs hs'
    exact ⟨rfl, by omega⟩

/-- A delivery before the deadline and every stop ends the wait with a receipt. -/
theorem of_delivers (h : sch.Ends p hash start fin result)
    (hdelivers : sch.Delivers p start k receipt r) (hlt : r < start + p.timeout)
    (hstop : ∀ s ∈ sch.stop, r < s) : ∃ receipt, result = .ok receipt := by
  cases h with
  | found _ _ _ _ => exact ⟨_, rfl⟩
  | timeout _ hmissing _ => exact absurd hlt (Nat.not_lt_of_le (hmissing k receipt r hdelivers))
  | cancelled hs _ _ hmissing =>
    exact absurd (hstop _ hs) (Nat.not_lt_of_le (hmissing k receipt r hdelivers))

/-- A timeout is the end of just those waits that neither a delivery nor a stop reaches. -/
theorem timeout_iff (h : sch.Ends p hash start fin result) :
    result = .error (.timeout hash p.timeout) ↔
      (∀ k receipt r, sch.Delivers p start k receipt r → start + p.timeout ≤ r) ∧
        ∀ s ∈ sch.stop, start + p.timeout ≤ s := by
  constructor
  · intro hresult
    subst hresult
    cases h with
    | timeout _ hmissing hgoing => exact ⟨hmissing, hgoing⟩
  · rintro ⟨hmissing, hgoing⟩
    cases h with
    | found hdelivers _ hlt _ => exact absurd hlt (Nat.not_lt_of_le (hmissing _ _ _ hdelivers))
    | timeout _ _ _ => rfl
    | cancelled hs hlt _ _ => exact absurd hlt (Nat.not_lt_of_le (hgoing _ hs))

/-- A stop before the deadline and every delivery cancels the wait. -/
theorem of_stop (h : sch.Ends p hash start fin result) (hs : s ∈ sch.stop)
    (hlt : s < start + p.timeout)
    (hmissing : ∀ k receipt r, sch.Delivers p start k receipt r → s < r) :
    result = .error (.cancelled hash) := by
  cases h with
  | found hdelivers _ _ hle =>
    exact absurd (hmissing _ _ _ hdelivers) (Nat.not_lt_of_le (hle s hs))
  | timeout _ _ hgoing => exact absurd hlt (Nat.not_lt_of_le (hgoing s hs))
  | cancelled _ _ _ _ => rfl

end Ends

/-- With prompt answers the questions are put until the end. -/
theorem Ended.prompt {result : Except WaitError Receipt} {fin : Nat} (hpos : 0 < p.timeout)
    (h : sch.Ended side p hash start hs result fin)
    (hprompt : ∀ k, ∃ latency reply, sch.answer k = some (latency, reply) ∧ latency ≤ p.interval) :
    ∃ n, lookupTimes hs = (List.range n).map (start + · * p.interval) ∧
      (∀ k, start + k * p.interval < fin → k < n) ∧ (∀ k < n, start + k * p.interval ≤ fin) ∧
      (result = .error (.timeout hash p.timeout) →
        n = (p.timeout + p.interval - 1) / p.interval) := by
  have htimes := h.timed.eq_of_prompt hprompt
  have hmem : ∀ k < (lookupTimes hs).length, start + k * p.interval ∈ lookupTimes hs := by
    intro k hk
    rw [htimes]
    exact List.mem_map_of_mem (List.mem_range.mpr hk)
  have hcomplete : ∀ k, start + k * p.interval < fin → k < (lookupTimes hs).length := by
    intro k hlt
    exact h.complete k _ _ (lookup_eq_of_prompt hprompt k) hlt
  refine ⟨_, htimes, hcomplete, fun k hk => h.timed.le_now _ (hmem k hk), fun hresult => ?_⟩
  subst hresult
  cases h.ends with
  | timeout heq _ _ =>
    -- The last question comes before the deadline, and the next would not.
    refine eq_ceil hpos ?_ ?_
    · by_contra hlt
      exact absurd (hcomplete _ (by omega)) (Nat.lt_irrefl _)
    · intro k hk
      have hlt := h.timed.lt_deadline _ (hmem k hk)
      omega

/-- A wait that has ended was polled as the schedule says. -/
theorem polled_of_ended {result : Except WaitError Receipt} {fin : Nat} (hpos : 0 < p.timeout)
    (h : sch.Ended side p hash start hs result fin) :
    sch.Polled side p hash start hs result fin where
  stopped := by
    rintro (htold | ⟨s, hs, hlt⟩)
    · obtain ⟨htimes, hresult, hfin⟩ := h.told htold
      exact ⟨by rw [h.lookups, htimes]; rfl, hresult, hfin⟩
    · exact ⟨by rw [h.lookups, h.timed.eq_nil hs hlt]; rfl, h.ends.eq_of_stop_lt hs hlt⟩
  bounded := h.ends.le_deadline hpos
  found receipt hresult := by
    subst hresult
    cases h.ends with
    | found hdelivers hfirst hlt hle => exact ⟨⟨_, hdelivers, hfirst⟩, hlt, hle⟩
  delivered _ _ _ hdelivers hlt hstop := h.ends.of_delivers hdelivers hlt hstop
  timeout_iff := h.ends.timeout_iff
  timeout_at hresult := by
    subst hresult
    cases h.ends with
    | timeout heq _ _ => exact heq
  cancelled_of _ hs hlt hmissing := h.ends.of_stop hs hlt hmissing
  cancelled hresult := by
    subst hresult
    cases h.ends with
    | cancelled hs hlt heq hmissing => exact ⟨_, hs, hlt, heq, hmissing⟩
  outcome := by
    cases h.ends with
    | found _ _ _ _ => exact .inl ⟨_, rfl⟩
    | timeout _ _ _ => exact .inr (.inl rfl)
    | cancelled _ _ _ _ => exact .inr (.inr rfl)
  lookups := h.lookups
  times := h.timed.times
  complete := h.complete
  prompt := h.prompt hpos

/-- A path that has come to an end was polled as the schedule says. -/
theorem Polls.polled_of_done {result : Except WaitError Receipt} {fin n : Nat}
    (hpos : 0 < p.timeout) (h : sch.Polls side p hash start hs ⟨.done result, fin, n⟩) :
    sch.Polled side p hash start hs result fin := by
  rcases h.kept hpos with hkept | ⟨result', hdone, hended⟩
  · have hstands := hkept.stands
    cases hstands
  · obtain rfl := Waiting.done.inj hdone
    exact polled_of_ended hpos hended

/-- **A wait for a receipt comes to its end, and it is the one that the schedule asks for.** However
far it has come, it goes on to the end, in a bounded number of turns. Nothing is assumed of the
schedule: the node may fail to answer any question, and take as long as it likes. -/
theorem polled (sch : Schedule) (side : Side) (p : Patience) (hash : Word) (start : Nat)
    (hpatience : p.interval ≤ p.timeout) :
    (∀ hs x, sch.Polls side p hash start hs x →
      Path (Waiting.turn side p) (.starting hash) hs x.wait ∧ hs.length ≤ 2 * p.timeout + 2 ∧
        ∃ more result fin n, sch.Polls side p hash start (hs ++ more) ⟨.done result, fin, n⟩) ∧
    ∀ hs result fin n, sch.Polls side p hash start hs ⟨.done result, fin, n⟩ →
      sch.Polled side p hash start hs result fin := by
  have hpos : 0 < p.timeout := Nat.lt_of_lt_of_le p.interval_pos hpatience
  constructor
  · intro hs x h
    exact ⟨h.path, Nat.le_trans (Nat.le_add_right _ _) h.length_le, h.exists_done⟩
  · intro hs result fin n h
    exact h.polled_of_done hpos

/-- A node that has no receipt and says so at once is asked three times in 25 milliseconds, with 10
between them. -/
theorem polled_without_receipt :
    10 ≤ 25 ∧ ∃ hs n, Polls ⟨fun _ => some (0, .ok none), none⟩ .priv ⟨10, 25, by decide⟩ 1 0 hs
      ⟨.done (.error (.timeout 1 25)), 25, n⟩ ∧ lookupTimes hs = [0, 10, 20] := by
  refine ⟨by decide, ?_⟩
  obtain ⟨hends, hall⟩ :=
    polled ⟨fun _ => some (0, .ok none), none⟩ .priv ⟨10, 25, by decide⟩ 1 0 (by decide)
  obtain ⟨-, -, hs, result, fin, n, hpolls⟩ := hends [] _ .start
  have h := hall hs result fin n hpolls
  have hnone : ∀ k receipt r, ¬ Delivers ⟨fun _ => some (0, .ok none), none⟩ ⟨10, 25, by decide⟩ 0
      k receipt r := by
    rintro k receipt r ⟨_, _, _, -, hanswer, -⟩
    cases hanswer
  obtain rfl := h.timeout_iff.mpr ⟨fun k receipt r hr => absurd hr (hnone k receipt r), nofun⟩
  obtain rfl := h.timeout_at rfl
  obtain ⟨n', htimes, -, -, hn'⟩ := h.prompt fun k => ⟨0, _, rfl, Nat.zero_le _⟩
  obtain rfl := hn' rfl
  exact ⟨hs, n, hpolls, htimes⟩

end Schedule
end EventRelay
