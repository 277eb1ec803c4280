import EventRelay.Proofs.Attempt

/-!
# A log's way through the relay ends

`Course.left` falls with every turn of a log on its way, whatever the nodes answer and whatever the
clocks say: what is left of an attempt is first a matter of the state that it is in, then of the
logs of the receipt that are not yet looked at, and then of the call or the wait under way.
`IsSound` says that a log on its way is not stuck.

Main statements:

* `Course.wellFounded`: no log is on its way forever;
* `Course.can_go`: a log that is not dealt with can always go on.
-/

namespace EventRelay

/-- How many turns a call may still take. -/
def Sending.left : Sending → Nat
  | .queued _ => 6
  | .counting _ => 5
  | .pricing .. => 4
  | .submitting _ => 3
  | .accepted _ => 2
  | .leaving .. => 1
  | .done _ => 0

/-- With its price at hand a call has three turns left at the most. -/
theorem Sending.left_withPrice (a : Account) (c : Call) (known : Option UInt64) (n : UInt64)
    (price : Nat) : (withPrice a c known n price).left ≤ 3 := by
  unfold withPrice
  split <;> exact Nat.le_of_ble_eq_true rfl

/-- A call that is under way has four turns left at the most. -/
theorem Sending.Onward.left_le {a : Account} {c : Call} {known : Option UInt64} {n : UInt64}
    {s : Sending} (h : Onward a c known n s) : s.left ≤ 4 := by
  cases h <;> exact Nat.le_of_ble_eq_true rfl

/-- With every turn a call comes nearer to its end. -/
theorem Sending.left_lt {a : Account} {m : Instant} {s s' : Sending} {c : Cause}
    (h : (turn a s).Goes m c s') : s'.left < s.left := by
  cases goes_iff_turned.mp h with
  | known c n =>
    exact Nat.lt_of_le_of_lt (onward_withNonce a c (some n) n).left_le (by simp only [left]; omega)
  | counted c n =>
    exact Nat.lt_of_le_of_lt (onward_withNonce a c none n).left_le (by simp only [left]; omega)
  | priced c known n price => exact Nat.lt_succ_of_le (left_withPrice a c known n price)
  | _ =>
    simp only [left]
    omega

namespace Relay

variable {r : Relay}

/-- How many turns may be left for a log of a receipt, and for all after it. -/
def turnsFor (p : Side → Patience) (logs : Nat) : Nat :=
  logs * (2 * (p .pub).timeout + 2 * (p .priv).timeout + 9)

/-- What is left of a log's way: first how far on it is, then how many turns there may still be. -/
def Course.left (p : Side → Patience) : Course → Nat × Nat
  | .arriving _ => (5, 0)
  | .entering _ => (4, 0)
  | .moving (.sendingTarget _ s) => (3, s.left)
  | .moving (.awaitingTarget pending w) => (2, w.left (p pending.side))
  | .moving (.sendingCallback c s) =>
    (1, turnsFor p c.rest.length + (2 * (p c.target).timeout + 3) + s.left)
  | .moving (.awaitingCallback c pending w) =>
    (1, turnsFor p c.rest.length + w.left (p pending.side))
  | .moving (.resting _) => (0, 3)
  | .finishing _ => (0, 2)
  | .leaving _ => (0, 1)
  | .done _ => (0, 0)

/-- Less is left. -/
def Less (a b : Nat × Nat) : Prop := a.1 < b.1 ∨ a.1 = b.1 ∧ a.2 < b.2

/-- There is no endless descent. -/
theorem less_wellFounded : WellFounded Less := by
  refine Subrelation.wf (r := Prod.Lex (· < ·) (· < ·)) ?_ (Prod.lex Nat.lt_wfRel Nat.lt_wfRel).wf
  intro x y hless
  obtain ⟨a, b⟩ := x
  obtain ⟨c, d⟩ := y
  rcases hless with h | ⟨heq, h⟩
  · exact .left _ _ h
  · obtain rfl : a = c := heq
    exact .right _ h

/-- An attempt that comes to rest has ended. -/
theorem isTerminal_of_resting {s s' : State} (hs : s.isTerminal = false)
    (h : Attempt.ofState r s = .resting s') : s'.isTerminal = true := by
  cases s with
  | matched event d rule =>
    rw [Attempt.ofState] at h
    cases hc : r.callFor .priv rule.call d with
    | error e =>
      rw [hc] at h
      obtain rfl := Attempt.resting.inj h
      rfl
    | ok call =>
      rw [hc] at h
      cases h
  | submitted p => cases h
  | mined p receipt =>
    rw [Attempt.ofState] at h
    split at h
    next =>
      rcases nextCallback_cases r p.hash p.rule [] receipt.logs with ⟨s, hs, ht⟩ | ⟨c, call, hs, -⟩
      · obtain rfl := Attempt.resting.inj (hs.symm.trans h)
        exact ht
      · cases hs.symm.trans h
    next =>
      obtain rfl := Attempt.resting.inj h
      rfl
  | _ => cases hs

/-- From a state that is not terminal a log goes on with the attempt. -/
theorem ofState_eq {s : State} (hs : s.isTerminal = false) :
    Course.ofState r s = Course.ofAttempt r (Attempt.ofState r s) := by
  rw [Course.ofState, hs, if_neg Bool.false_ne_true]
  split
  next s' h =>
    rw [h, Course.ofAttempt, Course.ofState, isTerminal_of_resting hs h, if_pos rfl]
  next h =>
    rw [Course.ofAttempt]
    exact h

/-- An attempt that has not come to rest and whose part is under way. -/
def Attempt.IsUnderWay : Attempt → Prop
  | .sendingTarget _ s | .sendingCallback _ s => s.outcome? = none
  | .awaitingTarget _ w | .awaitingCallback _ _ w => w.outcome? = none
  | .resting _ => False

namespace Course

/-- A log on its way that is not stuck in an attempt. -/
def IsSound : Course → Prop
  | .moving a => a.IsUnderWay
  | _ => True

/-- A state is followed by less than came before it, and by something sound. -/
theorem ofState_left (r : Relay) (s : State) :
    ((ofState r s).left r.patience).1 ≤ 3 - s.stage ∧ (ofState r s).IsSound := by
  cases hs : s.isTerminal with
  | true =>
    rw [ofState, hs, if_pos rfl]
    exact ⟨Nat.zero_le _, trivial⟩
  | false =>
    rw [ofState_eq hs]
    cases s with
    | matched event d rule =>
      rw [Attempt.ofState]
      cases r.callFor .priv rule.call d with
      | error e => exact ⟨Nat.zero_le _, trivial⟩
      | ok call => exact ⟨Nat.le_refl 3, rfl⟩
    | submitted p => exact ⟨Nat.le_refl 2, rfl⟩
    | mined p receipt =>
      rw [Attempt.ofState]
      split
      next =>
        rcases nextCallback_cases r p.hash p.rule [] receipt.logs with ⟨s, h, hs⟩ | ⟨c, call, h, -⟩
        · rw [h, ofAttempt, ofState, hs, if_pos rfl]
          exact ⟨Nat.zero_le _, trivial⟩
        · rw [h]
          exact ⟨Nat.le_refl 1, rfl⟩
      next => exact ⟨Nat.zero_le _, trivial⟩
    | _ => cases hs

/-- A state that an attempt comes to is followed by less than was left of the attempt. -/
theorem less_of_resting {s : State} {stage rest : Nat} (h : 3 - s.stage < stage) :
    Less ((ofAttempt r (.resting s)).left r.patience) (stage, rest) ∧
      (ofAttempt r (.resting s)).IsSound := by
  obtain ⟨hle, hsound⟩ := ofState_left r s
  exact ⟨.inl (Nat.lt_of_le_of_lt hle h), hsound⟩

/-- What is left falls in each phase of an attempt, as here while the target call is sent. -/
theorem less_sendingTarget {rule : Rule} {s s' : Sending} (h : s'.left < s.left) :
    Less ((ofAttempt r (Attempt.afterTarget rule s')).left r.patience)
      ((Course.moving (.sendingTarget rule s)).left r.patience) ∧
      (ofAttempt r (Attempt.afterTarget rule s')).IsSound := by
  cases s' with
  | done result =>
    cases result with
    | error e => exact less_of_resting (by simp only [State.stage]; omega)
    | ok s => exact less_of_resting (by simp only [State.stage]; omega)
  | _ => exact ⟨.inr ⟨rfl, h⟩, rfl⟩

/-- A wait for the target's receipt brings the course closer to its end. -/
theorem less_awaitingTarget {p : Pending} {w w' : Waiting}
    (h : w'.left (r.patience p.side) < w.left (r.patience p.side)) :
    Less ((ofAttempt r (Attempt.afterTargetReceipt p w')).left r.patience)
      ((Course.moving (.awaitingTarget p w)).left r.patience) ∧
      (ofAttempt r (Attempt.afterTargetReceipt p w')).IsSound := by
  cases w' with
  | done result =>
    rw [Attempt.afterTargetReceipt]
    cases Attempt.effective result p.hash with
    | error e => exact less_of_resting (by simp only [State.stage]; omega)
    | ok receipt => exact less_of_resting (by simp only [State.stage]; omega)
  | _ => exact ⟨.inr ⟨rfl, h⟩, rfl⟩

/-- So does a turn of a callback's send. -/
theorem less_sendingCallback {c : CallingBack} {s s' : Sending} (h : s'.left < s.left) :
    Less ((ofAttempt r (Attempt.afterCallback c s')).left r.patience)
      ((Course.moving (.sendingCallback c s)).left r.patience) ∧
      (ofAttempt r (Attempt.afterCallback c s')).IsSound := by
  cases s' with
  | done result =>
    cases result with
    | error e => exact less_of_resting (by simp only [State.stage]; omega)
    | ok s =>
      -- What was kept for the wait is now there for it.
      refine ⟨.inr ⟨rfl, ?_⟩, rfl⟩
      simp only [ofAttempt, Attempt.afterCallback, left, Waiting.left]
      omega
  | _ => exact ⟨.inr ⟨rfl, Nat.add_lt_add_left h _⟩, rfl⟩

/-- So does a wait for a callback's receipt. -/
theorem less_awaitingCallback {c : CallingBack} {p : Pending} {w w' : Waiting}
    (h : w'.left (r.patience p.side) < w.left (r.patience p.side)) :
    Less ((ofAttempt r (Attempt.afterCallbackReceipt r c p w')).left r.patience)
      ((Course.moving (.awaitingCallback c p w)).left r.patience) ∧
      (ofAttempt r (Attempt.afterCallbackReceipt r c p w')).IsSound := by
  cases w' with
  | done result =>
    rw [afterCallbackReceipt_done]
    cases Attempt.effective result p.hash with
    | error e => exact less_of_resting (by simp only [State.stage]; omega)
    | ok receipt =>
      rcases nextCallback_cases r c.tx c.rule (c.sent ++ [{ p with status := .mined }]) c.rest with
        ⟨s, hs, ht⟩ | ⟨c', call, hs, hlt⟩
      · simp only [hs]
        exact less_of_resting (by rw [State.stage_of_isTerminal ht]; omega)
      · -- The logs still to be looked at have become fewer, which pays for the next callback.
        simp only [hs]
        refine ⟨.inr ⟨rfl, ?_⟩, rfl⟩
        have hmul := Nat.mul_le_mul_right
          (2 * (r.patience .pub).timeout + 2 * (r.patience .priv).timeout + 9) hlt
        rw [Nat.succ_mul] at hmul
        simp only [ofAttempt, left, turnsFor, Sending.left]
        cases c'.target <;> omega
  | _ => exact ⟨.inr ⟨rfl, Nat.add_lt_add_left h _⟩, rfl⟩

/-- What is left falls with every turn of an attempt. -/
theorem less_moving {a : Attempt} {m : Instant} {x : Cause} {c' : Course}
    (h : (Course.turn r (.moving a)).Goes m x c') :
    Less (c'.left r.patience) ((Course.moving a).left r.patience) ∧ c'.IsSound := by
  obtain ⟨a', ha, rfl⟩ := Turn.goes_map_iff.mp h
  cases a with
  | sendingTarget rule s =>
    obtain ⟨s', hs, rfl⟩ := Turn.goes_map_iff.mp ha
    exact less_sendingTarget (Sending.left_lt hs)
  | awaitingTarget p w =>
    obtain ⟨w', hw, rfl⟩ := Turn.goes_map_iff.mp ha
    exact less_awaitingTarget (Waiting.left_lt hw)
  | sendingCallback c s =>
    obtain ⟨s', hs, rfl⟩ := Turn.goes_map_iff.mp ha
    exact less_sendingCallback (Sending.left_lt hs)
  | awaitingCallback c p w =>
    obtain ⟨w', hw, rfl⟩ := Turn.goes_map_iff.mp ha
    exact less_awaitingCallback (Waiting.left_lt hw)
  | resting s => exact absurd ha not_goes_nothing

/-- **With every turn less is left of a log's way**, and it does not get stuck. -/
theorem less_of_goes {c c' : Course} {m : Instant} {x : Cause} (h : (c.turn r).Goes m x c') :
    Less (c'.left r.patience) (c.left r.patience) ∧ c'.IsSound := by
  cases c with
  | arriving log =>
    rw [turn] at h
    split at h
    next s _ =>
      obtain ⟨-, rfl⟩ := Turn.goes_count h
      exact ⟨.inl (Nat.lt_succ_self 4), trivial⟩
    next =>
      obtain ⟨-, rfl⟩ := Turn.goes_count h
      exact ⟨.inl (Nat.succ_pos 4), trivial⟩
  | entering s =>
    obtain ⟨-, rfl⟩ := Turn.goes_count h
    obtain ⟨hle, hsound⟩ := ofState_left r s
    exact ⟨.inl (Nat.lt_of_le_of_lt hle (by simp only [left]; omega)), hsound⟩
  | moving a => exact less_moving h
  | finishing s =>
    obtain ⟨-, rfl⟩ := Turn.goes_count h
    exact ⟨.inr ⟨rfl, Nat.lt_succ_self 1⟩, trivial⟩
  | leaving s =>
    obtain ⟨-, rfl⟩ := Turn.goes_count h
    exact ⟨.inr ⟨rfl, Nat.lt_succ_self 0⟩, trivial⟩
  | done s => exact absurd h not_goes_nothing

/-- **No log is on its way forever**, whatever the nodes answer and whatever the clocks say. -/
theorem wellFounded (r : Relay) : WellFounded fun c' c => ∃ m x, (Course.turn r c).Goes m x c' := by
  -- The clocks do not matter: `Course.left` falls with every turn, whatever the moment.
  refine Subrelation.wf ?_ (InvImage.wf (Course.left r.patience) less_wellFounded)
  intro c' c h
  obtain ⟨m, x, h⟩ := h
  exact (less_of_goes h).1

/-- Every path of a sound course is sound. -/
theorem sound_path {c c' : Course} {hs : List Happening} (h : c.IsSound)
    (hpath : Path (Course.turn r) c hs c') : c'.IsSound := by
  induction hpath with
  | here _ => exact h
  | next first _ ih => exact ih (less_of_goes first).2

/-- A sound log that wants nothing is dealt with. -/
theorem done_of_nothing {c : Course} (h : c.IsSound) (hd : (c.turn r).demand = .nothing) :
    ∃ result, c = .done result := by
  cases c with
  | arriving log =>
    rw [turn] at hd
    split at hd <;> cases hd
  | moving a =>
    cases a with
    | sendingTarget rule s =>
      cases s with
      | done _ => cases h
      | _ => cases hd
    | awaitingTarget p w =>
      cases w with
      | done _ => cases h
      | _ => cases hd
    | sendingCallback c s =>
      cases s with
      | done _ => cases h
      | _ => cases hd
    | awaitingCallback c p w =>
      cases w with
      | done _ => cases h
      | _ => cases hd
    | resting s => exact h.elim
  | done result => exact ⟨result, rfl⟩
  | _ => cases hd

/-- **A log that arrived and is not dealt with can go on**, at any moment from some time on. -/
theorem can_go {log : Log} {c : Course} {hs : List Happening}
    (h : Path (Course.turn r) (.arriving log) hs c) :
    (∃ result, c = .done result) ∨
      ∃ time, ∀ m : Instant, time ≤ m.now → ∃ x c', (c.turn r).Goes m x c' := by
  by_cases hd : (c.turn r).demand = .nothing
  · exact .inl (done_of_nothing (sound_path (c := .arriving log) trivial h) hd)
  · exact .inr (Turn.can_go hd)

end Course

end Relay

end EventRelay
