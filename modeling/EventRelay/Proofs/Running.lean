import EventRelay.Chain.Activity

/-!
# How activities go on

A `Turn` says what an activity wants and what may come in between. This file says what may come of
it, whoever meets the demand: `Turn.Goes` relates a turn, a moment and a cause to what the activity
goes on as. A deadline that has passed goes before the end of the relay, and that before the demand
itself, unless the turn is fair: then either may go first. A `Path` is a run of one activity through
any number of turns, with what happened on the way.

Main statements:

* `Path.det`: what happened on the way decides where a path leads;
* `Path.complete_unique`: no path to an end is a proper beginning of another;
* `Path.through`: an activity that is part of another goes its own way until it is over.

Nothing is assumed about the moments of a path or about the answers of nodes. A statement about all
paths of an activity is therefore one about all nodes, all clocks and all times to stop.
-/

namespace EventRelay

variable {α β γ : Type}

/-- A point of time, and what is known then about the end of the relay. -/
structure Instant where
  now : Nat
  /-- Whether the relay was told to stop. -/
  told : Bool
  /-- Whether the relay stops: it was told, or nobody is left to tell it. -/
  stopping : Bool

/-- The first moment, when nobody has told the relay to stop. -/
def Instant.zero : Instant := ⟨0, false, false⟩

/-- Why an activity goes on. -/
inductive Cause
  /-- It looked at the time. -/
  | looked
  | answered (side : Side) (q : Query) (reply : Except ChainError q.Reply)
  | acquired (side : Side) (nonce : Option UInt64)
  | released (side : Side) (nonce : Option UInt64)
  | resumed
  | received (side : Side) (log : Option Log)
  | spawned
  | counted (e : Metrics.Event)
  | joined
  /-- Its deadline passed. It may have put the question that it wanted to put. -/
  | late (question : Option (Side × Query))
  /-- The relay stopped. It may have put the question that it wanted to put. -/
  | cancelled (question : Option (Side × Query))

/-- A turn of an activity as it happened. -/
structure Happening where
  moment : Instant
  cause : Cause

/-- The question that a demand puts to a node. -/
def Demand.question? : Demand α → Option (Side × Query)
  | .ask side q _ => some (side, q)
  | _ => none

/-- A demand is met by a cause, and the activity goes on as the last argument says. -/
inductive Demand.Met (m : Instant) : Demand α → Cause → α → Prop
  | look (seen : Nat → Bool → α) : Met m (.look seen) .looked (seen m.now m.told)
  | ask (side : Side) (q : Query) (answered : Except ChainError q.Reply → α)
      (reply : Except ChainError q.Reply) :
      Met m (.ask side q answered) (.answered side q reply) (answered reply)
  | acquire (side : Side) (acquired : Option UInt64 → α) (nonce : Option UInt64) :
      Met m (.acquire side acquired) (.acquired side nonce) (acquired nonce)
  | release (side : Side) (nonce : Option UInt64) (next : α) :
      Met m (.release side nonce next) (.released side nonce) next
  | pause (time : Nat) (resumed : Nat → α) (h : time ≤ m.now) :
      Met m (.pause time resumed) .resumed (resumed m.now)
  | receive (side : Side) (received : Option Log → α) (log : Option Log) :
      Met m (.receive side received) (.received side log) (received log)
  | spawn (child next : α) : Met m (.spawn child next) .spawned next
  | count (e : Metrics.Event) (next : α) : Met m (.count e next) (.counted e) next
  | join (next : α) : Met m (.join next) .joined next

namespace Turn

/-- How an activity goes on when its deadline has passed. -/
def overdue (t : Turn α) (m : Instant) : Option α :=
  t.deadline.bind fun (time, a) => if time ≤ m.now then some a else none

/-- How an activity goes on when the relay has stopped. -/
def halted (t : Turn α) (m : Instant) : Option α := if m.stopping then t.cancelled else none

/-- A turn ends for a cause, and the activity goes on as the last argument says. -/
inductive Goes (m : Instant) (t : Turn α) : Cause → α → Prop
  | late {a : α} (h : t.overdue m = some a) : Goes m t (.late t.demand.question?) a
  | cancelled {a : α} (hd : t.overdue m = none) (h : t.halted m = some a) :
      Goes m t (.cancelled t.demand.question?) a
  | met {c : Cause} {a : α} (hd : t.overdue m = none) (hs : t.fair = true ∨ t.halted m = none)
      (h : t.demand.Met m c a) : Goes m t c a

end Turn

/-- A run of one activity, with what happened on the way. -/
inductive Path (turn : α → Turn α) : α → List Happening → α → Prop
  | here (a : α) : Path turn a [] a
  | next {a b c : α} {h : Happening} {hs : List Happening}
      (first : (turn a).Goes h.moment h.cause b) (rest : Path turn b hs c) :
      Path turn a (h :: hs) c

/-- The question that was, or may have been, put in a turn. -/
def Cause.question? : Cause → Option (Side × Query)
  | .answered side q _ => some (side, q)
  | .late question => question
  | .cancelled question => question
  | _ => none

/-- The questions that were, or may have been, put on a way. -/
def questions (hs : List Happening) : List (Side × Query) :=
  hs.filterMap fun h => h.cause.question?

/-- The transactions that nodes were, or may have been, asked to take on a way. -/
def submissions (hs : List Happening) : List (Side × SignedTransaction) :=
  (questions hs).filterMap fun
    | (side, .submit t) => some (side, t)
    | _ => none

/-- The transactions whose receipts nodes were, or may have been, asked for on a way. -/
def lookups (hs : List Happening) : List (Side × Word) :=
  (questions hs).filterMap fun
    | (side, .receipt hash) => some (side, hash)
    | _ => none

@[simp] theorem questions_append (xs ys : List Happening) :
    questions (xs ++ ys) = questions xs ++ questions ys :=
  List.filterMap_append

/-- Only the causes decide what is asked. -/
theorem questions_eq_map (hs : List Happening) :
    questions hs = (hs.map (·.cause)).filterMap Cause.question? := by
  rw [List.filterMap_map]
  rfl

theorem questions_cons (x : Happening) (xs : List Happening) :
    questions (x :: xs) = x.cause.question?.toList ++ questions xs := by
  cases hx : x.cause.question? <;> simp [questions, hx]

@[simp] theorem submissions_append (xs ys : List Happening) :
    submissions (xs ++ ys) = submissions xs ++ submissions ys := by
  simp [submissions]

theorem submissions_of_questions_nil {hs : List Happening} (h : questions hs = []) :
    submissions hs = [] := by
  rw [submissions, h, List.filterMap_nil]

theorem lookups_of_questions_nil {hs : List Happening} (h : questions hs = []) :
    lookups hs = [] := by
  rw [lookups, h, List.filterMap_nil]

/-! ## One turn -/

/-- A demand that is met for one cause has one outcome. -/
theorem Demand.Met.det {m : Instant} {d : Demand α} {c : Cause} {a b : α}
    (ha : d.Met m c a) (hb : d.Met m c b) : a = b := by
  cases ha <;> cases hb <;> rfl

theorem Demand.Met.to {m : Instant} {d : Demand α} {c : Cause} {a b : α} (h : d.Met m c a)
    (e : a = b) : d.Met m c b := e ▸ h

/-- What meets a demand is neither lateness nor the end of the relay. -/
theorem Demand.Met.timely {m : Instant} {d : Demand α} {c : Cause} {a : α} (h : d.Met m c a) :
    (∀ q, c ≠ .late q) ∧ ∀ q, c ≠ .cancelled q := by
  cases h <;> exact ⟨fun q hc => Cause.noConfusion hc, fun q hc => Cause.noConfusion hc⟩

/-- A question that is answered is one that the demand puts. -/
theorem Demand.Met.question {m : Instant} {d : Demand α} {c : Cause} {a : α} (h : d.Met m c a) :
    c.question? = d.question? := by
  cases h <;> rfl

namespace Turn

/-- In a turn only the question of its demand is put. -/
theorem Goes.question {m : Instant} {t : Turn α} {c : Cause} {a : α} (h : t.Goes m c a) :
    c.question? = t.demand.question? := by
  cases h with
  | late _ => rfl
  | cancelled _ _ => rfl
  | met _ _ h => exact h.question

/-- A cause leads only one way on from a turn. -/
theorem Goes.det {m : Instant} {t : Turn α} {c : Cause} {a b : α} (ha : t.Goes m c a)
    (hb : t.Goes m c b) : a = b := by
  cases ha with
  | late ha =>
    cases hb with
    | late hb => exact Option.some.inj (ha.symm.trans hb)
    | met _ _ hb => exact absurd rfl (hb.timely.1 _)
  | cancelled hd ha =>
    cases hb with
    | cancelled _ hb => exact Option.some.inj (ha.symm.trans hb)
    | met _ _ hb => exact absurd rfl (hb.timely.2 _)
  | met hd hs ha =>
    cases hb with
    | late _ => exact absurd rfl (ha.timely.1 _)
    | cancelled _ _ => exact absurd rfl (ha.timely.2 _)
    | met _ _ hb => exact ha.det hb

@[simp] theorem goes_plain {m : Instant} {d : Demand α} {c : Cause} {a : α} :
    (plain d).Goes m c a ↔ d.Met m c a := by
  constructor
  · intro h
    cases h with
    | late h => simp [plain, overdue] at h
    | cancelled _ h => simp [plain, halted] at h
    | met _ _ h => exact h
  · intro h
    exact .met rfl (.inr (by simp [plain, halted])) h

theorem goes_count {m : Instant} {e : Metrics.Event} {next a : α} {c : Cause}
    (h : (plain (.count e next)).Goes m c a) : c = .counted e ∧ a = next := by
  cases goes_plain.mp h
  exact ⟨rfl, rfl⟩

/-- What an activity wants can come about, at any time from some time on. -/
theorem can_go {t : Turn α} (h : t.demand ≠ .nothing) :
    ∃ time, ∀ m, time ≤ m.now → ∃ c a, t.Goes m c a := by
  -- A pause has to be waited for; everything else can come about at any time.
  have hmet : ∃ time, ∀ m : Instant, time ≤ m.now → ∃ c a, t.demand.Met m c a := by
    cases hd : t.demand with
    | nothing => exact absurd hd h
    | look seen => exact ⟨0, fun m _ => ⟨_, _, .look seen⟩⟩
    | ask side q answered =>
      exact ⟨0, fun m _ => ⟨_, _, .ask side q answered (.error (.request ""))⟩⟩
    | acquire side acquired => exact ⟨0, fun m _ => ⟨_, _, .acquire side acquired none⟩⟩
    | release side nonce next => exact ⟨0, fun m _ => ⟨_, _, .release side nonce next⟩⟩
    | pause time resumed => exact ⟨time, fun m hm => ⟨_, _, .pause time resumed hm⟩⟩
    | receive side received => exact ⟨0, fun m _ => ⟨_, _, .receive side received none⟩⟩
    | spawn child next => exact ⟨0, fun m _ => ⟨_, _, .spawn child next⟩⟩
    | count e next => exact ⟨0, fun m _ => ⟨_, _, .count e next⟩⟩
    | join next => exact ⟨0, fun m _ => ⟨_, _, .join next⟩⟩
  obtain ⟨time, hmet⟩ := hmet
  -- Where the deadline or the end of the relay goes first, that is a way on too.
  refine ⟨time, fun m hm => ?_⟩
  cases hd : t.overdue m with
  | some a => exact ⟨_, a, .late hd⟩
  | none =>
    cases hs : t.halted m with
    | some a => exact ⟨_, a, .cancelled hd hs⟩
    | none =>
      obtain ⟨c, a, h⟩ := hmet m hm
      exact ⟨c, a, .met hd (.inr hs) h⟩

end Turn

/-- Nothing comes to what demands nothing. -/
theorem not_goes_nothing {m : Instant} {c : Cause} {a : α} :
    ¬ (Turn.plain (.nothing : Demand α)).Goes m c a := by
  rw [Turn.goes_plain]
  intro h
  cases h

/-! ## A turn of a part -/

theorem Demand.question?_map (f : α → β) (d : Demand α) : (d.map f).question? = d.question? := by
  cases d <;> rfl

theorem Demand.met_map_iff {m : Instant} {f : α → β} {d : Demand α} {c : Cause} {b : β} :
    (d.map f).Met m c b ↔ ∃ a, d.Met m c a ∧ f a = b := by
  constructor
  · intro h
    cases d <;> cases h
    case look seen => exact ⟨_, .look seen, rfl⟩
    case ask side q answered reply => exact ⟨_, .ask side q answered reply, rfl⟩
    case acquire side acquired nonce => exact ⟨_, .acquire side acquired nonce, rfl⟩
    case release side nonce next => exact ⟨_, .release side nonce next, rfl⟩
    case pause time resumed h => exact ⟨_, .pause time resumed h, rfl⟩
    case receive side received log => exact ⟨_, .receive side received log, rfl⟩
    case spawn child next => exact ⟨_, .spawn child next, rfl⟩
    case count e next => exact ⟨_, .count e next, rfl⟩
    case join next => exact ⟨_, .join next, rfl⟩
  · intro h
    obtain ⟨a, h, rfl⟩ := h
    cases h with
    | look seen => exact Met.look fun time stop => f (seen time stop)
    | ask side q answered reply => exact Met.ask side q (fun r => f (answered r)) reply
    | acquire side acquired nonce => exact Met.acquire side (fun n => f (acquired n)) nonce
    | release side nonce next => exact Met.release side nonce (f _)
    | pause time resumed h => exact Met.pause time (fun now => f (resumed now)) h
    | receive side received log => exact Met.receive side (fun l => f (received l)) log
    | spawn child next => exact Met.spawn (f child) (f _)
    | count e next => exact Met.count e (f _)
    | join next => exact Met.join (f _)

namespace Turn

/-- A turn under a map is overdue when the turn is. -/
theorem overdue_map (f : α → β) (t : Turn α) (m : Instant) :
    (t.map f).overdue m = (t.overdue m).map f := by
  obtain ⟨d, _ | ⟨time, a⟩, cancelled⟩ := t
  · rfl
  · simp only [overdue, map, Option.map_some, Option.bind_some]
    split <;> rfl

theorem halted_map (f : α → β) (t : Turn α) (m : Instant) :
    (t.map f).halted m = (t.halted m).map f := by
  unfold halted map
  split <;> rfl

/-- A turn of a part goes on as the part does. -/
theorem goes_map_iff {m : Instant} {f : α → β} {t : Turn α} {c : Cause} {b : β} :
    (t.map f).Goes m c b ↔ ∃ a, t.Goes m c a ∧ f a = b := by
  have hq : (t.map f).demand.question? = t.demand.question? := Demand.question?_map f t.demand
  constructor
  · intro h
    cases h with
    | late h =>
      rw [overdue_map, Option.map_eq_some_iff] at h
      obtain ⟨a, ha, rfl⟩ := h
      exact ⟨a, hq ▸ .late ha, rfl⟩
    | cancelled hd h =>
      rw [overdue_map, Option.map_eq_none_iff] at hd
      rw [halted_map, Option.map_eq_some_iff] at h
      obtain ⟨a, ha, rfl⟩ := h
      exact ⟨a, hq ▸ .cancelled hd ha, rfl⟩
    | met hd hs h =>
      rw [overdue_map, Option.map_eq_none_iff] at hd
      rw [halted_map, Option.map_eq_none_iff, show (t.map f).fair = t.fair from rfl] at hs
      obtain ⟨a, ha, rfl⟩ := Demand.met_map_iff.mp h
      exact ⟨a, .met hd hs ha, rfl⟩
  · intro h
    obtain ⟨a, h, rfl⟩ := h
    cases h with
    | late h => exact hq ▸ Goes.late (by rw [overdue_map, h]; rfl)
    | cancelled hd h =>
      exact hq ▸ Goes.cancelled (by rw [overdue_map, hd]; rfl) (by rw [halted_map, h]; rfl)
    | met hd hs h =>
      refine .met (by rw [overdue_map, hd]; rfl) ?_ (Demand.met_map_iff.mpr ⟨a, h, rfl⟩)
      rw [halted_map, Option.map_eq_none_iff]
      exact hs

end Turn

/-! ## Paths -/

/-- An activity that goes nowhere. -/
def Stuck (turn : α → Turn α) (a : α) : Prop := ∀ m c b, ¬ (turn a).Goes m c b

namespace Path

variable {turn : α → Turn α} {a b c : α} {xs ys hs : List Happening}

/-- Paths follow one another. -/
theorem append (h₁ : Path turn a xs b) (h₂ : Path turn b ys c) : Path turn a (xs ++ ys) c := by
  induction h₁ with
  | here _ => exact h₂
  | next first _ ih => exact .next first (ih h₂)

theorem snoc {h : Happening} (h₁ : Path turn a xs b) (h₂ : (turn b).Goes h.moment h.cause c) :
    Path turn a (xs ++ [h]) c :=
  h₁.append (.next h₂ (.here c))

theorem snoc_zero {cause : Cause} (h₁ : Path turn a xs b) (h₂ : (turn b).Goes .zero cause c) :
    Path turn a (xs ++ [⟨.zero, cause⟩]) c :=
  h₁.snoc h₂

/-- A path can be cut anywhere. -/
theorem of_append (h : Path turn a (xs ++ ys) c) : ∃ b, Path turn a xs b ∧ Path turn b ys c := by
  induction xs generalizing a with
  | nil => exact ⟨a, .here a, h⟩
  | cons x xs ih =>
    cases h with
    | next first rest =>
      obtain ⟨b, h₁, h₂⟩ := ih rest
      exact ⟨b, .next first h₁, h₂⟩

/-- What happened on the way decides where a path leads. -/
theorem det (h₁ : Path turn a hs b) (h₂ : Path turn a hs c) : b = c := by
  induction h₁ with
  | here _ => cases h₂; rfl
  | next first _ ih =>
    cases h₂ with
    | next first' rest' =>
      obtain rfl := first.det first'
      exact ih rest'

/-- What takes no turn stays where it is. -/
theorem eq_nil_of_stuck (h : Path turn a hs b) (ha : Stuck turn a) : hs = [] ∧ b = a := by
  cases h with
  | here _ => exact ⟨rfl, rfl⟩
  | next first _ => exact absurd first (ha _ _ _)

/-- No path to an end is a proper beginning of another. -/
theorem complete_unique {xs' ys' : List Happening} (h₁ : Path turn a xs b) (hb : Stuck turn b)
    (h₂ : Path turn a ys c) (hc : Stuck turn c) (h : xs ++ xs' = ys ++ ys') :
    xs = ys ∧ b = c := by
  rcases List.append_eq_append_iff.mp h with ⟨zs, rfl, -⟩ | ⟨zs, rfl, -⟩
  · obtain ⟨d, hd, hrest⟩ := of_append h₂
    obtain rfl := h₁.det hd
    -- The rest of the second path begins at the end of the first, which leads nowhere.
    obtain ⟨rfl, rfl⟩ := hrest.eq_nil_of_stuck hb
    exact ⟨(List.append_nil _).symm, rfl⟩
  · obtain ⟨d, hd, hrest⟩ := of_append h₁
    obtain rfl := h₂.det hd
    obtain ⟨rfl, rfl⟩ := hrest.eq_nil_of_stuck hc
    exact ⟨List.append_nil _, rfl⟩

/-- **An activity that is part of another goes its own way until it is over.** Let `f` put a part
into a whole whose turns are those of the part as long as nothing came of the part. Then a path of
the whole to an end outside that time is first a path of the part until something came of it. -/
theorem through {whole : β → Turn β} {f : α → β} {e : β} (outcome? : α → Option γ)
    (hturn : ∀ a, outcome? a = none → whole (f a) = (turn a).map f)
    (he : ∀ a, outcome? a = none → f a ≠ e) {a : α} (h : Path whole (f a) hs e) :
    ∃ xs a' result ys, outcome? a' = some result ∧ Path turn a xs a' ∧ Path whole (f a') ys e ∧
      hs = xs ++ ys := by
  -- Along the path of the whole: each of its turns is one of the part, up to the outcome.
  induction hs generalizing a with
  | nil =>
    cases ha : outcome? a with
    | some result => exact ⟨[], a, result, [], ha, .here a, h, rfl⟩
    | none =>
      cases h
      exact absurd rfl (he a ha)
  | cons x hs ih =>
    cases ha : outcome? a with
    | some result => exact ⟨[], a, result, x :: hs, ha, .here a, h, rfl⟩
    | none =>
      cases h with
      | next first rest =>
        rw [hturn a ha, Turn.goes_map_iff] at first
        obtain ⟨b, hb, rfl⟩ := first
        obtain ⟨xs, a', result, ys, ha', hpath, hrest, rfl⟩ := ih rest
        exact ⟨x :: xs, a', result, ys, ha', .next hb hpath, hrest, rfl⟩

end Path

end EventRelay
