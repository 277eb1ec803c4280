import EventRelay.Proofs.Course
import EventRelay.Proofs.Following

/-!
# The tasks of a relay

A relay that follows and the logs on their way are tasks that run together. `Course.Turned` lists
every turn of a log on its way, as `Following.Turned` does for the relay that follows.

Main statements:

* `Course.turned_of_goes`: a log on its way takes no other turn;
* `Task.holding`: a task has the right to send from the time it gets it until it gives it back;
* `Task.wellFounded_step`: tasks come to an end where the relay that follows only stops;
* `done_or_exists_step`: until all tasks are done one of them can go on;
* `run_of_rehearse`: a relay that is rehearsed is a run of its tasks, in the order of time.
-/

namespace EventRelay

/-- The right to send that a call on its way has. -/
def Sending.held (side : Side) : Sending → Option Side
  | .queued _ | .done _ => none
  | _ => some side

/-- A call that is on its way has the right to send on its side. -/
theorem Sending.Onward.held_eq {a : Account} {c : Call} {known : Option UInt64} {n : UInt64}
    {s : Sending} (h : Onward a c known n s) (side : Side) : s.held side = some side := by
  cases h <;> rfl

/-- A call has the right to send from the time it gets it until it gives it back. -/
theorem Sending.Turned.passes {a : Account} {s s' : Sending} {x : Cause} (h : Turned a s x s') :
    x.Passes (s.held a.side) (s'.held a.side) := by
  cases h with
  | known c n => exact ⟨rfl, (onward_withNonce ..).held_eq a.side⟩
  | unknown c => exact ⟨rfl, rfl⟩
  | counted c n => exact (onward_withNonce ..).held_eq a.side
  | priced c known n price => exact (onward_withPrice ..).held_eq a.side
  | left next result => exact ⟨rfl, rfl⟩
  | _ => rfl

/-- A call that has the right to send does not wait for others. -/
theorem Sending.ready_of_held {a : Account} {s : Sending} {side side' : Side}
    (h : s.held side = some side') : (s.turn a).demand.isReady = true := by
  cases s <;> first | rfl | cases h

/-- A call is dealt with in the turn in which it gives the right to send back. -/
theorem Sending.Turned.of_done {a : Account} {s : Sending} {x : Cause}
    {result : Except ChainError Submitted} (h : Turned a s x (.done result)) :
    ∃ nonce, s = .leaving nonce result ∧ x = .released a.side nonce := by
  have honward {c known n s'} (h : Onward a c known n s') : s' ≠ .done result := by
    cases h <;> exact nofun
  generalize hs' : Sending.done result = s' at h
  cases h with
  | known c n => exact absurd hs'.symm (honward (onward_withNonce a c (some n) n))
  | counted c n => exact absurd hs'.symm (honward (onward_withNonce a c none n))
  | priced c known n price => exact absurd hs'.symm (honward (onward_withPrice a c known n price))
  | left nonce _ =>
    cases hs'
    exact ⟨nonce, rfl, rfl⟩
  | _ => cases hs'

/-- A wait neither gets the right to send nor gives it back. -/
theorem Waiting.Turned.passes {side : Side} {p : Patience} {m : Instant} {w w' : Waiting}
    {x : Cause} (h : Turned side p m w x w') (held : Option Side) : x.Passes held held := by
  cases h <;> rfl

namespace Relay

variable {r : Relay} {m : Instant} {x : Cause} {hs : List Happening}

/-! ## A log on its way -/

namespace Course

/-- One turn of a log on its way, by what becomes of it. A call or a wait that an attempt makes goes
on, or it is over and the attempt goes on. -/
inductive Turned (r : Relay) (m : Instant) : Course → Cause → Course → Prop
  | ignored (log : Log) (h : r.match? log = none) :
      Turned r m (.arriving log) (.counted .ignored) (.done none)
  | matched (log : Log) (s : State) (h : r.match? log = some s) :
      Turned r m (.arriving log) (.counted .matched) (.entering s)
  | entered (s : State) : Turned r m (.entering s) (.counted .enter) (ofState r s)
  | sendingTarget {rule : Rule} {s s' : Sending} {x : Cause}
      (h : Sending.Turned r.priv.account s x s') (hs' : s'.outcome? = none) :
      Turned r m (.moving (.sendingTarget rule s)) x (.moving (.sendingTarget rule s'))
  | sentTarget (rule : Rule) (nonce : Option UInt64) (result : Except ChainError Submitted) :
      Turned r m (.moving (.sendingTarget rule (.leaving nonce result)))
        (.released r.priv.account.side nonce)
        (ofAttempt r (Attempt.afterTarget rule (.done result)))
  | awaitingTarget {p : Pending} {w w' : Waiting} {x : Cause}
      (h : Waiting.Turned p.side (r.patience p.side) m w x w') (hw' : w'.outcome? = none) :
      Turned r m (.moving (.awaitingTarget p w)) x (.moving (.awaitingTarget p w'))
  | awaitedTarget {p : Pending} {w : Waiting} {x : Cause} {result : Except WaitError Receipt}
      (h : Waiting.Turned p.side (r.patience p.side) m w x (.done result)) :
      Turned r m (.moving (.awaitingTarget p w)) x
        (ofAttempt r (Attempt.afterTargetReceipt p (.done result)))
  | sendingCallback {c : CallingBack} {s s' : Sending} {x : Cause}
      (h : Sending.Turned (r.side c.target).account s x s') (hs' : s'.outcome? = none) :
      Turned r m (.moving (.sendingCallback c s)) x (.moving (.sendingCallback c s'))
  | sentCallback (c : CallingBack) (nonce : Option UInt64) (result : Except ChainError Submitted) :
      Turned r m (.moving (.sendingCallback c (.leaving nonce result)))
        (.released (r.side c.target).account.side nonce)
        (ofAttempt r (Attempt.afterCallback c (.done result)))
  | awaitingCallback {c : CallingBack} {p : Pending} {w w' : Waiting} {x : Cause}
      (h : Waiting.Turned p.side (r.patience p.side) m w x w') (hw' : w'.outcome? = none) :
      Turned r m (.moving (.awaitingCallback c p w)) x (.moving (.awaitingCallback c p w'))
  | awaitedCallback {c : CallingBack} {p : Pending} {w : Waiting} {x : Cause}
      {result : Except WaitError Receipt}
      (h : Waiting.Turned p.side (r.patience p.side) m w x (.done result)) :
      Turned r m (.moving (.awaitingCallback c p w)) x
        (ofAttempt r (Attempt.afterCallbackReceipt r c p (.done result)))
  | finished (s : State) : Turned r m (.finishing s) (.counted (.finished s.name)) (.leaving s)
  | left (s : State) : Turned r m (.leaving s) (.counted .leave) (.done (some s))

theorem goes_moving {a a' : Attempt} (h : (a.turn r).Goes m x a') :
    ((Course.moving a).turn r).Goes m x (ofAttempt r a') :=
  Turn.goes_map_iff.mpr ⟨a', h, rfl⟩

/-- A course under way takes the turns of its attempt only. -/
theorem turned_of_moving {a : Attempt} {c' : Course} (h : ((Course.moving a).turn r).Goes m x c') :
    Turned r m (.moving a) x c' := by
  obtain ⟨a', ha, rfl⟩ := Turn.goes_map_iff.mp h
  cases a with
  | sendingTarget rule s =>
    obtain ⟨s', hs, rfl⟩ := Turn.goes_map_iff.mp ha
    have hturned := Sending.goes_iff_turned.mp hs
    cases s' with
    | done result =>
      obtain ⟨nonce, rfl, rfl⟩ := hturned.of_done
      exact .sentTarget rule nonce result
    | _ => exact .sendingTarget hturned rfl
  | awaitingTarget p w =>
    obtain ⟨w', hw, rfl⟩ := Turn.goes_map_iff.mp ha
    have hturned := Waiting.turned_of_goes hw
    cases w' with
    | done result => exact .awaitedTarget hturned
    | _ => exact .awaitingTarget hturned rfl
  | sendingCallback c s =>
    obtain ⟨s', hs, rfl⟩ := Turn.goes_map_iff.mp ha
    have hturned := Sending.goes_iff_turned.mp hs
    cases s' with
    | done result =>
      obtain ⟨nonce, rfl, rfl⟩ := hturned.of_done
      exact .sentCallback c nonce result
    | _ => exact .sendingCallback hturned rfl
  | awaitingCallback c p w =>
    obtain ⟨w', hw, rfl⟩ := Turn.goes_map_iff.mp ha
    have hturned := Waiting.turned_of_goes hw
    cases w' with
    | done result => exact .awaitedCallback hturned
    | _ => exact .awaitingCallback hturned rfl
  | resting s => exact absurd ha not_goes_nothing

/-- **A log on its way takes no other turn.** -/
theorem turned_of_goes {c c' : Course} (h : (c.turn r).Goes m x c') : Turned r m c x c' := by
  cases c with
  | arriving log =>
    rw [turn] at h
    cases hm : r.match? log with
    | none =>
      rw [hm] at h
      obtain ⟨rfl, rfl⟩ := Turn.goes_count h
      exact .ignored log hm
    | some s =>
      rw [hm] at h
      obtain ⟨rfl, rfl⟩ := Turn.goes_count h
      exact .matched log s hm
  | entering s =>
    obtain ⟨rfl, rfl⟩ := Turn.goes_count h
    exact .entered s
  | moving a => exact turned_of_moving h
  | finishing s =>
    obtain ⟨rfl, rfl⟩ := Turn.goes_count h
    exact .finished s
  | leaving s =>
    obtain ⟨rfl, rfl⟩ := Turn.goes_count h
    exact .left s
  | done s => exact absurd h not_goes_nothing

/-! ## What an attempt goes on with -/

/-- An attempt that is over, or has only just begun with a call or a wait. -/
inductive Fresh : Course → Prop
  | finishing (s : State) (h : s.isTerminal = true) : Fresh (.finishing s)
  | sendingTarget (rule : Rule) (call : Call) : Fresh (.moving (.sendingTarget rule (.queued call)))
  | awaitingTarget (p : Pending) : Fresh (.moving (.awaitingTarget p (.starting p.hash)))
  | sendingCallback (c : CallingBack) (call : Call) :
      Fresh (.moving (.sendingCallback c (.queued call)))
  | awaitingCallback (c : CallingBack) (p : Pending) :
      Fresh (.moving (.awaitingCallback c p (.starting p.hash)))

/-- After a callback a course comes to the next one or ends. -/
theorem fresh_nextCallback (r : Relay) (tx : Word) (rule : Rule) (sent : List Pending)
    (logs : List Log) : (ofAttempt r (Attempt.nextCallback r tx rule sent logs)).Fresh := by
  rcases nextCallback_cases r tx rule sent logs with ⟨s, h, hs⟩ | ⟨c, call, h, -⟩
  · rw [h, ofAttempt, ofState, hs, if_pos rfl]
    exact .finishing s hs
  · rw [h]
    exact .sendingCallback c call

/-- **A state is followed by the end, or by something that has only just begun.** -/
theorem fresh_ofState (r : Relay) (s : State) : (ofState r s).Fresh := by
  cases hs : s.isTerminal with
  | true =>
    rw [ofState, hs, if_pos rfl]
    exact .finishing s hs
  | false =>
    rw [ofState_eq hs]
    cases s with
    | matched event d rule =>
      rw [Attempt.ofState]
      cases r.callFor .priv rule.call d with
      | error e => exact .finishing _ rfl
      | ok call => exact .sendingTarget rule call
    | submitted p => exact .awaitingTarget p
    | mined p receipt =>
      rw [Attempt.ofState]
      split
      next => exact fresh_nextCallback r p.hash p.rule [] receipt.logs
      next => exact .finishing _ rfl
    | _ => cases hs

theorem fresh_afterTarget (r : Relay) (rule : Rule) (result : Except ChainError Submitted) :
    (ofAttempt r (Attempt.afterTarget rule (.done result))).Fresh := by
  cases result <;> exact fresh_ofState r _

theorem fresh_afterTargetReceipt (r : Relay) (p : Pending) (result : Except WaitError Receipt) :
    (ofAttempt r (Attempt.afterTargetReceipt p (.done result))).Fresh := by
  rw [Attempt.afterTargetReceipt]
  cases Attempt.effective result p.hash <;> exact fresh_ofState r _

/-- After a callback was sent a course waits for its receipt or ends. -/
theorem fresh_afterCallback (r : Relay) (c : CallingBack) (result : Except ChainError Submitted) :
    (ofAttempt r (Attempt.afterCallback c (.done result))).Fresh := by
  cases result with
  | error e => exact fresh_ofState r _
  | ok s => exact .awaitingCallback c _

/-- After a callback's receipt a course comes to the next one or ends. -/
theorem fresh_afterCallbackReceipt (r : Relay) (c : CallingBack) (p : Pending)
    (result : Except WaitError Receipt) :
    (ofAttempt r (Attempt.afterCallbackReceipt r c p (.done result))).Fresh := by
  rw [afterCallbackReceipt_done]
  cases Attempt.effective result p.hash with
  | error e => exact fresh_ofState r _
  | ok receipt => exact fresh_nextCallback r c.tx c.rule _ c.rest

/-! ## The right to send -/

/-- The right to send that a log on its way has. -/
def holds : Course → Option Side
  | .moving (.sendingTarget _ s) => s.held .priv
  | .moving (.sendingCallback c s) => s.held c.target
  | _ => none

theorem Fresh.holds_eq_none {c : Course} (h : c.Fresh) : c.holds = none := by
  cases h <;> rfl

/-- A log on its way has the right to send from the time it gets it until it gives it back. -/
theorem Turned.passes {c c' : Course} (h : Turned r m c x c') : x.Passes c.holds c'.holds := by
  have hpriv := r.priv.account_side
  cases h with
  | ignored _ _ => rfl
  | matched _ _ _ => rfl
  | entered s => exact (fresh_ofState r s).holds_eq_none
  | @sendingTarget _ s s' _ h _ =>
    show x.Passes (s.held .priv) (s'.held .priv)
    rw [← hpriv]
    exact h.passes
  | sentTarget rule nonce result =>
    exact ⟨congrArg some hpriv.symm, (fresh_afterTarget r rule result).holds_eq_none⟩
  | awaitingTarget h _ => exact h.passes none
  | @awaitedTarget p _ _ result h =>
    rw [(fresh_afterTargetReceipt r p result).holds_eq_none]
    exact h.passes none
  | @sendingCallback c s s' _ h _ =>
    show x.Passes (s.held c.target) (s'.held c.target)
    rw [← (r.side c.target).account_side]
    exact h.passes
  | sentCallback c nonce result =>
    exact ⟨congrArg some (r.side c.target).account_side.symm,
      (fresh_afterCallback r c result).holds_eq_none⟩
  | awaitingCallback h _ => exact h.passes none
  | @awaitedCallback c p _ _ result h =>
    rw [(fresh_afterCallbackReceipt r c p result).holds_eq_none]
    exact h.passes none
  | finished s => rfl
  | left s => rfl

/-- A log on its way neither starts tasks nor receives logs. -/
theorem Turned.not_following {c c' : Course} (h : Turned r m c x c') :
    x ≠ .spawned ∧ ∀ side log, x ≠ .received side log := by
  have hsend : ∀ {a : Account} {s s' : Sending}, Sending.Turned a s x s' →
      x ≠ .spawned ∧ ∀ side log, x ≠ .received side log := by
    intro a s s' h
    cases h <;> exact ⟨nofun, nofun⟩
  have hwait : ∀ {side : Side} {w w' : Waiting}, Waiting.Turned side (r.patience side) m w x w' →
      x ≠ .spawned ∧ ∀ side log, x ≠ .received side log := by
    intro side w w' h
    cases h <;> exact ⟨nofun, nofun⟩
  cases h with
  | sendingTarget h _ => exact hsend h
  | awaitingTarget h _ => exact hwait h
  | awaitedTarget h => exact hwait h
  | sendingCallback h _ => exact hsend h
  | awaitingCallback h _ => exact hwait h
  | awaitedCallback h => exact hwait h
  | _ => exact ⟨nofun, nofun⟩

/-- A course that has the right to send waits for no other activity. -/
theorem ready_of_holds {c : Course} {side : Side} (h : c.holds = some side) :
    (c.turn r).demand.isReady = true := by
  cases c with
  | moving a =>
    cases a with
    | sendingTarget rule s =>
      show (((s.turn r.priv.account).demand.map _).map _).isReady = true
      rw [Demand.isReady_map, Demand.isReady_map]
      exact Sending.ready_of_held h
    | sendingCallback c s =>
      show (((s.turn (r.side c.target).account).demand.map _).map _).isReady = true
      rw [Demand.isReady_map, Demand.isReady_map]
      exact Sending.ready_of_held h
    | _ => cases h
  | _ => cases h

end Course

/-! ## Tasks -/

namespace Task

/-- The log on its way that a task is. -/
def course? : Task → Option Course
  | .following _ => none
  | .course c => some c

theorem course?_eq_some {t : Task} {c : Course} : t.course? = some c ↔ t = .course c := by
  cases t with
  | following f => exact ⟨nofun, nofun⟩
  | course c' => exact ⟨fun h => congrArg Task.course (Option.some.inj h), fun h => by cases h; rfl⟩

/-- Tasks that have only just begun, or a relay that follows. -/
def IsNew : Task → Prop
  | .following _ | .course (.arriving _) => True
  | _ => False

/-- Whether a task is over. -/
def isDone : Task → Bool
  | .following ⟨_, _, .done _⟩ | .course (.done _) => true
  | _ => false

/-- A log on its way goes on as if it were alone. -/
theorem goes_course_iff {c : Course} {t : Task} :
    ((Task.course c).turn r).Goes m x t ↔ ∃ c', (c.turn r).Goes m x c' ∧ .course c' = t :=
  Turn.goes_map_iff

/-- A course stays a course. -/
theorem path_course {c : Course} {t : Task} (h : Path (Task.turn r) (.course c) hs t) :
    ∃ c', t = .course c' ∧ Path (Course.turn r) c hs c' := by
  generalize hs : Task.course c = s at h
  induction h generalizing c with
  | here _ => exact ⟨c, hs.symm, .here c⟩
  | next first _ ih =>
    subst hs
    obtain ⟨c₁, hc₁, rfl⟩ := goes_course_iff.mp first
    obtain ⟨c', rfl, hpath⟩ := ih rfl
    exact ⟨c', rfl, .next hc₁ hpath⟩

/-- A following stays a following. -/
theorem path_following {f : Following} {t : Task} (h : Path (Task.turn r) (.following f) hs t) :
    ∃ f', t = .following f' := by
  generalize hs : Task.following f = s at h
  induction h generalizing f with
  | here _ => exact ⟨f, hs.symm⟩
  | next first _ ih =>
    subst hs
    obtain ⟨f₁, rfl, -⟩ := Following.turned_of_goes first
    exact ih rfl

/-- A turn of a relay that follows, or of a log on its way. -/
theorem turned_of_goes {t t' : Task} (h : (t.turn r).Goes m x t') :
    (∃ f f', t = .following f ∧ t' = .following f' ∧ Following.Turned r m f x f') ∨
      ∃ c c', t = .course c ∧ t' = .course c' ∧ Course.Turned r m c x c' := by
  cases t with
  | following f =>
    obtain ⟨f', rfl, hf⟩ := Following.turned_of_goes h
    exact .inl ⟨f, f', rfl, rfl, hf⟩
  | course c =>
    obtain ⟨c', hc, rfl⟩ := goes_course_iff.mp h
    exact .inr ⟨c, c', rfl, rfl, Course.turned_of_goes hc⟩

/-- Only the relay that follows starts a task: a log that it received sets out. -/
theorem started_eq {t t' : Task} (h : (t.turn r).Goes m x t') :
    (t.turn r).started x = [] ∨ ∃ last b log, t = .following ⟨last, b, .handing log⟩ ∧
      x = .spawned ∧ (t.turn r).started x = [.course (.arriving log)] := by
  cases x with
  | spawned =>
    rcases turned_of_goes h with ⟨f, f', rfl, -, hf⟩ | ⟨c, c', rfl, -, hc⟩
    · cases hf with
      | handed last b log => exact .inr ⟨last, b, log, rfl, rfl, rfl⟩
    · exact absurd rfl hc.not_following.1
  | _ => exact .inl rfl

/-- A course sets out no other activity. -/
theorem started_course {c : Course} {t : Task} (h : ((Task.course c).turn r).Goes m x t) :
    ((Task.course c).turn r).started x = [] := by
  rcases started_eq h with hnil | ⟨last, b, log, heq, -, -⟩
  · exact hnil
  · cases heq

/-- What is set out is new. -/
theorem isNew_of_started {t t' : Task} (h : (t.turn r).Goes m x t') :
    ∀ child ∈ (t.turn r).started x, child.IsNew := by
  intro child hchild
  rcases started_eq h with hnil | ⟨last, b, log, -, -, hone⟩
  · rw [hnil] at hchild
    cases hchild
  · rw [hone, List.mem_singleton] at hchild
    rw [hchild]
    trivial

/-- The right to send that a task has. -/
def holds : Task → Option Side
  | .following _ => none
  | .course c => c.holds

/-- Tasks that are not stuck. -/
def IsSound : Task → Prop
  | .following _ => True
  | .course c => c.IsSound

theorem IsNew.isSound {t : Task} (h : t.IsNew) : t.IsSound := by
  cases t with
  | following f => trivial
  | course c =>
    cases c with
    | arriving log => trivial
    | _ => cases h

/-- What is new has no right to send. -/
theorem IsNew.holds_eq_none {t : Task} (h : t.IsNew) : t.holds = none := by
  cases t with
  | following f => rfl
  | course c =>
    cases c with
    | arriving log => rfl
    | _ => cases h

/-- **A task has the right to send from the time it gets it until it gives it back**, and meanwhile
does not wait for others. -/
theorem holding (r : Relay) : Ensemble.Holding (Task.turn r) holds where
  passes t t' x h := by
    rcases turned_of_goes h with ⟨f, f', rfl, rfl, hf⟩ | ⟨c, c', rfl, rfl, hc⟩
    · generalize x.cause = cause at hf
      cases hf <;> rfl
    · exact hc.passes
  born t t' x h child hchild := (isNew_of_started h child hchild).holds_eq_none
  ready t side h := by
    cases t with
    | following f => cases h
    | course c =>
      show ((c.turn r).demand.map _).isReady = true
      rw [Demand.isReady_map]
      exact Course.ready_of_holds h

/-- A turn of a sound activity leaves it sound, and so is what it sets out. -/
theorem sound_of_goes {t t' : Task} (h : (t.turn r).Goes m x t') :
    t'.IsSound ∧ ∀ child ∈ (t.turn r).started x, child.IsSound := by
  refine ⟨?_, fun child hchild => (isNew_of_started h child hchild).isSound⟩
  cases t with
  | following f =>
    obtain ⟨f', rfl, -⟩ := Following.turned_of_goes h
    trivial
  | course c =>
    obtain ⟨c', hc, rfl⟩ := goes_course_iff.mp h
    exact (Course.less_of_goes hc).2

/-- A sound activity that demands nothing is done. -/
theorem done_of_nothing {t : Task} (h : t.IsSound) (hd : (t.turn r).demand = .nothing) :
    t.isDone = true := by
  cases t with
  | following f =>
    obtain ⟨last, b, phase⟩ := f
    cases phase <;> first | rfl | cases hd
  | course c =>
    have hnothing : (c.turn r).demand = .nothing := by
      have hmap : ((c.turn r).demand.map Task.course) = .nothing := hd
      cases hc : (c.turn r).demand <;> rw [hc] at hmap <;> first | rfl | cases hmap
    obtain ⟨result, rfl⟩ := Course.done_of_nothing h hnothing
    rfl

end Task

/-! ## All tasks come to an end -/

/-- How many turns of a relay that stops are left at most. It no longer listens and begins no pause,
but what it waits for while it opens a subscription may still come. -/
def Phase.left : Phase → Nat
  | .done _ => 0
  | .leaving _ => 1
  | .retrying .. | .listening => 2
  | .opened _ | .handing _ => 3
  | .opening .. => 4
  | .heading | .pausing .. => 5
  | .turning => 6

/-- With every turn a relay that stops comes nearer to its end. -/
theorem Following.Turned.left_lt {f f' : Following} (h : Turned r m f x f')
    (hs : m.stopping = true) : f'.phase.left < f.phase.left := by
  have hpos : ∀ p : Phase, p.yields = true → 1 < p.left := by
    intro p hp
    cases p <;> first | cases hp; done | (simp only [Phase.left]; omega)
  cases h with
  | cancelled f _ hf => exact hpos f.phase hf
  | backedOff _ _ _ _ hn | ended _ _ hn | unplaced _ _ _ hn | skipped _ _ _ _ hn
  | taken _ _ _ _ hn => cases hs.symm.trans hn
  | _ =>
    simp only [Phase.left]
    omega

/-- Less is left of a task: first of the relay that follows, then of a log on its way. -/
def Task.left (r : Relay) : Task → Nat × (Nat × Nat)
  | .following f => (f.phase.left, (0, 0))
  | .course c => (0, c.left r.patience)

/-- Tasks come to an end where the relay that follows takes only turns that bring it nearer to its
end, whatever the nodes answer and whatever the clocks say. -/
theorem Task.wellFounded_of (r : Relay) (p : Task → Happening → Prop)
    (hp : ∀ (f f' : Following) (x : Happening), p (.following f) x →
      Following.Turned r x.moment f x.cause f' → f'.phase.left < f.phase.left) :
    WellFounded fun e' e => ∃ i x,
      (∀ t, e.activities[i]? = some t → p t x) ∧ Ensemble.Step (Task.turn r) e i x e' := by
  -- A log that sets out is less than the relay that starts it.
  have hless : WellFounded (InvImage (Prod.Lex (· < ·) Less) (Task.left r)) :=
    InvImage.wf _ (Prod.lex Nat.lt_wfRel ⟨Less, less_wellFounded⟩).wf
  refine Ensemble.wellFounded_step hless _ fun t t' x hpx h => ?_
  rcases turned_of_goes h with ⟨f, f', rfl, rfl, hf⟩ | ⟨c, c', rfl, rfl, hc⟩
  · refine ⟨.left _ _ (hp f f' x hpx hf), fun child hchild => ?_⟩
    rcases started_eq h with hnil | ⟨last, b, log, heq, -, hone⟩
    · rw [hnil] at hchild
      cases hchild
    · rw [hone, List.mem_singleton] at hchild
      rw [hchild, heq]
      exact .left _ _ (Nat.succ_pos 2)
  · obtain ⟨c'', hgoes, heq⟩ := goes_course_iff.mp h
    obtain rfl := Task.course.inj heq
    refine ⟨.right _ (Course.less_of_goes hgoes).1, fun child hchild => ?_⟩
    rw [started_course h] at hchild
    cases hchild

/-- **Tasks come to an end where the relay that follows only stops**, whatever the nodes answer and
whatever the clocks say. -/
theorem Task.wellFounded_step (r : Relay) :
    WellFounded fun e' e => ∃ i x,
      (∀ t, e.activities[i]? = some t → t.course?.isSome ∨ x.moment.stopping = true) ∧
        Ensemble.Step (Task.turn r) e i x e' :=
  wellFounded_of r _ fun _ _ _ hp h => h.left_lt (hp.resolve_left Bool.false_ne_true)

/-! ## Runs of tasks -/

variable {tasks : List Task} {nonce : Side → Option UInt64} {metrics : Metrics}
  {xs : List (Nat × Happening)} {e : Ensemble Task}

/-- **Each log goes its own way from its arrival on**, whatever the other tasks do in between. -/
theorem course_path {i : Nat} {c : Course} (hnew : ∀ t ∈ tasks, t.IsNew)
    (h : Ensemble.Run (Task.turn r) (.start tasks nonce metrics) xs e)
    (hc : e.activities[i]? = some (.course c)) :
    ∃ log, Path (Course.turn r) (.arriving log) (Ensemble.share i xs) c := by
  obtain ⟨t, ht, hpath⟩ :=
    (h.path_from hnew fun _ _ _ hgoes => Task.isNew_of_started hgoes).1 i _ hc
  cases t with
  | following f =>
    obtain ⟨f', heq⟩ := Task.path_following hpath
    cases heq
  | course c₀ =>
    cases c₀ with
    | arriving log =>
      obtain ⟨c', heq, hway⟩ := Task.path_course hpath
      obtain rfl := Task.course.inj heq
      exact ⟨log, hway⟩
    | _ => cases ht

/-- **Until all tasks are done one of them can go on**, at any moment from some time on. -/
theorem done_or_exists_step (hnew : ∀ t ∈ tasks, t.IsNew)
    (h : Ensemble.Run (Task.turn r) (.start tasks nonce metrics) xs e) :
    (∀ t ∈ e.activities, t.isDone = true) ∨
      ∃ time, ∀ m : Instant, time ≤ m.now →
        ∃ j x e', x.moment = m ∧ Ensemble.Step (Task.turn r) e j x e' := by
  have hsound : ∀ t ∈ e.activities, t.IsSound :=
    h.forall_mem (fun t ht => (hnew t ht).isSound) fun _ _ _ _ => Task.sound_of_goes
  have horderly : Ensemble.Orderly Task.holds e := by
    refine h.orderly (Task.holding r) fun side i => ?_
    -- At the start nobody has the right to send.
    have hnobody : tasks[i]?.bind Task.holds = none := by
      cases ht : tasks[i]? with
      | none => rfl
      | some t => exact (hnew t (List.mem_of_getElem? ht)).holds_eq_none
    show (none : Option Nat) = some i ↔ tasks[i]?.bind Task.holds = some side
    rw [hnobody]
    exact ⟨nofun, nofun⟩
  by_cases hall : ∀ t ∈ e.activities, t.isDone = true
  · exact .inl hall
  · right
    simp only [not_forall] at hall
    obtain ⟨t, ht, hnot⟩ := hall
    obtain ⟨i, hi⟩ := List.getElem?_of_mem ht
    exact Ensemble.exists_step (Task.holding r) horderly hi
      fun hd => hnot (Task.done_of_nothing (hsound t ht) hd)

/-! ## Rehearsals -/

/-- A task waits for others whatever time it is, and when the relay stops. -/
theorem Task.waitsPlainly (r : Relay) (t : Task) : (t.turn r).WaitsPlainly := by
  cases t with
  | course c => exact (c.waitsPlainly r).map _
  | following f =>
    obtain ⟨last, fromBlock, phase⟩ := f
    cases phase with
    | heading | opening | pausing | retrying | listening => exact .of_ready rfl
    | _ => exact Turn.waitsPlainly_plain _

/-- **A relay that is rehearsed is a run of its tasks**: what is so of all runs is so of it. -/
theorem run_of_rehearse (r : Relay) {stage : Rehearsal.Stage} (hfree : stage.IsFree)
    (stop : Rehearsal.Stop) (tasks : List Task) (hnew : ∀ t ∈ tasks, t.IsNew) :
    ∃ hs e, Ensemble.Run (Task.turn r)
        (.start tasks (fun side => (stage.permit side).nonce) stage.metrics) hs e ∧
      Ensemble.InOrder hs ∧
      Rehearsal.Shares (Rehearsal.rehearse (Task.turn r) stage stop tasks).1 e.shared ∧
      (Rehearsal.rehearse (Task.turn r) stage stop tasks).2.Sublist e.activities ∧
      ∀ t ∈ (Rehearsal.rehearse (Task.turn r) stage stop tasks).2, t.isDone = true := by
  obtain ⟨hs, e, hrun, horder, hshares, hsublist, hends⟩ :=
    Rehearsal.rehearse_run (Task.waitsPlainly r) hfree stop tasks
  have hsound : ∀ t ∈ e.activities, t.IsSound :=
    hrun.forall_mem (fun t ht => (hnew t ht).isSound) fun _ _ _ _ => Task.sound_of_goes
  exact ⟨hs, e, hrun, horder, hshares, hsublist,
    fun t ht => Task.done_of_nothing (hsound t (hsublist.subset ht)) (hends t ht)⟩

end Relay

open Relay

variable {r : Relay} {start e : Ensemble Task} {xs : List (Nat × Happening)} {x : Cause}

/-- A log on its way takes a turn. -/
theorem Ensemble.Run.courseAt {c c' : Course} (h : Ensemble.Run (Task.turn r) start xs e)
    (m : Instant) (i : Nat) (here : e.activities[i]? = some (.course c))
    (goes : (c.turn r).Goes m x c') (admits : e.Admits (Task.turn r) i x) :
    Ensemble.Run (Task.turn r) start (xs ++ [(i, ⟨m, x⟩)])
      ⟨e.activities.set i (.course c'), e.shared.after i x⟩ := by
  have hgoes : (Task.turn r (.course c)).Goes m x (.course c') :=
    Task.goes_course_iff.mpr ⟨c', goes, rfl⟩
  have hstep := Ensemble.Step.turn (x := ⟨m, x⟩) here hgoes admits
  rw [Task.started_course hgoes, List.append_nil] at hstep
  exact h.step hstep

/-- A log on its way takes a turn at the first moment. -/
theorem Ensemble.Run.course {c c' : Course} (h : Ensemble.Run (Task.turn r) start xs e) (i : Nat)
    (here : e.activities[i]? = some (.course c)) (goes : (c.turn r).Goes .zero x c')
    (admits : e.Admits (Task.turn r) i x) :
    Ensemble.Run (Task.turn r) start (xs ++ [(i, ⟨.zero, x⟩)])
      ⟨e.activities.set i (.course c'), e.shared.after i x⟩ :=
  h.courseAt .zero i here goes admits

/-- The relay that follows takes a turn. -/
theorem Ensemble.Run.following {f f' : Following} (h : Ensemble.Run (Task.turn r) start xs e)
    (m : Instant) (here : e.activities[0]? = some (.following f))
    (turned : Following.Turned r m f x f') (admits : e.Admits (Task.turn r) 0 x) :
    Ensemble.Run (Task.turn r) start (xs ++ [(0, ⟨m, x⟩)])
      ⟨e.activities.set 0 (.following f') ++ (f.turn r).started x, e.shared.after 0 x⟩ :=
  h.step (.turn here turned.goes admits)

end EventRelay
