import EventRelay.Proofs.Running
import Mathlib.Logic.Hydra
import Mathlib.Tactic.Abel

/-!
# Activities that run together

An `Ensemble` is a number of activities with what they share: the right to send on each side, what
was left about the next nonce, and the counts. In each `Ensemble.Step` any one of them takes a turn;
only the right to send and the end of all others make it wait for them. A `Run` is what comes of any
number of steps, with what happened and to which activity.

Main statements:

* `Run.path`: each activity goes its own way, which is a path;
* `Run.metrics_eq`, `Run.balance`: what was counted is what the activities counted, and a balance
  kept by every turn is kept by a run;
* `wellFounded_step`: where turns lead to less, an ensemble does not go on forever;
* `exists_step`: as long as an activity wants something, some activity can take a turn.

Nothing is assumed about the answers of nodes, about the clock, or about which activity goes on.
-/

namespace EventRelay

variable {α : Type}

/-- The activity that a demand starts. -/
def Demand.child? : Demand α → Option α
  | .spawn child _ => some child
  | _ => none

/-- Whether an activity wants no more, or only waits for the others. -/
def Demand.isIdle : Demand α → Bool
  | .nothing | .join _ => true
  | _ => false

/-- Whether an activity wants something and does not wait for others. -/
def Demand.isReady : Demand α → Bool
  | .nothing | .acquire .. | .join _ => false
  | _ => true

@[simp] theorem Demand.isReady_map {β : Type} (f : α → β) (d : Demand α) :
    (d.map f).isReady = d.isReady := by
  cases d <;> rfl

/-- The activities that are started when a turn ends for a cause. -/
def Turn.started (t : Turn α) : Cause → List α
  | .spawned => t.demand.child?.toList
  | _ => []

/-- The event that was counted. -/
def Cause.event? : Cause → Option Metrics.Event
  | .counted e => some e
  | _ => none

/-- The right to send comes to those that wait for it only. -/
theorem Turn.Goes.acquire_of_acquired {m : Instant} {t : Turn α} {side : Side}
    {nonce : Option UInt64} {a : α} (h : t.Goes m (.acquired side nonce) a) :
    ∃ acquired, t.demand = .acquire side acquired := by
  cases h with
  | met _ _ h =>
    generalize t.demand = d at h
    cases h with
    | acquire _ acquired _ => exact ⟨acquired, rfl⟩

/-- Only what waits for the others is told that they have ended. -/
theorem Turn.Goes.join_of_joined {m : Instant} {t : Turn α} {a : α} (h : t.Goes m .joined a) :
    ∃ after, t.demand = .join after := by
  cases h with
  | met _ _ h =>
    generalize t.demand = d at h
    cases h with
    | join _ => exact ⟨_, rfl⟩

/-- What an activity wants can come about from some time on, whatever nonces were left. -/
theorem Turn.exists_goes {t : Turn α} (hd : t.demand ≠ .nothing) (nonce : Side → Option UInt64) :
    ∃ time, ∀ m : Instant, time ≤ m.now → ∃ c a, t.Goes m c a ∧
      ∀ side n, c = .acquired side n → n = nonce side := by
  obtain ⟨time, hgo⟩ := can_go hd
  refine ⟨time, fun m hm => ?_⟩
  obtain ⟨c, a, hgoes⟩ := hgo m hm
  by_cases hc : ∃ side n, c = .acquired side n
  · -- The right to send could have come with any nonce.
    obtain ⟨side, n, rfl⟩ := hc
    obtain ⟨acquired, hdemand⟩ := hgoes.acquire_of_acquired
    cases hgoes with
    | met ho hs _ =>
      have hmet : t.demand.Met m (.acquired side (nonce side)) (acquired (nonce side)) := by
        rw [hdemand]
        exact .acquire side acquired (nonce side)
      refine ⟨_, _, .met ho hs hmet, fun side' n' heq => ?_⟩
      injection heq with hside hn
      rw [← hn, hside]
  · exact ⟨c, a, hgoes, fun side n heq => absurd ⟨side, n, heq⟩ hc⟩

/-- What a cause does to the right to send that an activity has. -/
def Cause.Passes (before after : Option Side) : Cause → Prop
  | .acquired side _ => before = none ∧ after = some side
  | .released side _ => before = some side ∧ after = none
  | _ => after = before

/-- What activities share. -/
structure Shared where
  /-- Which activity has the right to send on a side. -/
  holder : Side → Option Nat
  /-- What was left about the next nonce on a side. -/
  nonce : Side → Option UInt64
  metrics : Metrics

/-- What is shared after a cause that activity `i` met. -/
def Shared.after (s : Shared) (i : Nat) : Cause → Shared
  | .acquired side _ => { s with holder := Function.update s.holder side (some i) }
  | .released side nonce =>
    { s with
      holder := Function.update s.holder side none
      nonce := Function.update s.nonce side nonce }
  | .counted e => { s with metrics := s.metrics.record e }
  | _ => s

/-- Activities that run together. -/
structure Ensemble (α : Type) where
  activities : List α
  shared : Shared

namespace Ensemble

/-- Activities at their start: nobody has the right to send. -/
def start (activities : List α) (nonce : Side → Option UInt64) (m : Metrics) : Ensemble α :=
  ⟨activities, fun _ => none, nonce, m⟩

/-- Whether an activity may meet a cause as far as the others are concerned. The right to send has
to be free and comes with what was left about the nonce. -/
def Admits (turn : α → Turn α) (e : Ensemble α) (i : Nat) : Cause → Prop
  | .acquired side nonce => e.shared.holder side = none ∧ nonce = e.shared.nonce side
  | .joined => ∀ j a, e.activities[j]? = some a → j ≠ i → (turn a).demand.isIdle = true
  | _ => True

/-- Activity `i` takes a turn. -/
inductive Step (turn : α → Turn α) (e : Ensemble α) (i : Nat) (x : Happening) : Ensemble α → Prop
  | turn {a b : α} (here : e.activities[i]? = some a) (goes : (turn a).Goes x.moment x.cause b)
      (admits : e.Admits turn i x.cause) :
      Step turn e i x
        ⟨e.activities.set i b ++ (turn a).started x.cause, e.shared.after i x.cause⟩

/-- What comes of an ensemble, whichever activity takes a turn next. -/
inductive Run (turn : α → Turn α) (start : Ensemble α) :
    List (Nat × Happening) → Ensemble α → Prop
  | here : Run turn start [] start
  | step {hs : List (Nat × Happening)} {e e' : Ensemble α} {i : Nat} {x : Happening}
      (before : Run turn start hs e) (step : Step turn e i x e') :
      Run turn start (hs ++ [(i, x)]) e'

/-- What happened to activity `i`. -/
def share (i : Nat) (hs : List (Nat × Happening)) : List Happening :=
  (hs.filter (·.1 = i)).map (·.2)

/-- A happening is in the share of its own activity. -/
theorem share_concat (i j : Nat) (hs : List (Nat × Happening)) (x : Happening) :
    share i (hs ++ [(j, x)]) = share i hs ++ if j = i then [x] else [] := by
  rw [share, List.filter_append, List.map_append, share]
  split
  next h => simp [h]
  next h => simp [h]

theorem mem_share {i : Nat} {hs : List (Nat × Happening)} {x : Happening} :
    x ∈ share i hs ↔ (i, x) ∈ hs := by
  simp [share]

/-! ## Each activity on its own -/

variable {turn : α → Turn α} {start e e' : Ensemble α} {hs : List (Nat × Happening)} {i j : Nat}
  {x : Happening} {a : α}

/-- An activity that is not the one whose turn it is stays as it is. -/
theorem Step.other (h : Step turn e i x e') (ha : e.activities[j]? = some a) (hj : i ≠ j) :
    e'.activities[j]? = some a := by
  cases h with
  | turn here goes admits =>
    have hlt : j < (e.activities.set i ‹α›).length := by
      rw [List.length_set]
      exact (List.getElem?_eq_some_iff.mp ha).1
    rw [List.getElem?_append_left hlt, List.getElem?_set_ne hj]
    exact ha

/-- The activity whose turn it is goes on as its turn says. -/
theorem Step.own (h : Step turn e i x e') (ha : e.activities[i]? = some a) :
    ∃ b, (turn a).Goes x.moment x.cause b ∧ e'.activities[i]? = some b := by
  cases h with
  | @turn a' b here goes admits =>
    obtain rfl := Option.some.inj (here.symm.trans ha)
    have hlt : i < e.activities.length := (List.getElem?_eq_some_iff.mp ha).1
    refine ⟨b, goes, ?_⟩
    rw [List.getElem?_append_left (by rw [List.length_set]; exact hlt), List.getElem?_set_self hlt]

/-- **Each activity goes its own way**, whatever the others do in between. -/
theorem Run.path (h : Run turn start hs e) (ha : start.activities[i]? = some a) :
    ∃ b, e.activities[i]? = some b ∧ Path turn a (share i hs) b := by
  induction h with
  | here => exact ⟨a, ha, .here a⟩
  | @step hs e e' j x _ step ih =>
    obtain ⟨b, hb, hpath⟩ := ih
    rw [share_concat]
    by_cases hj : j = i
    · subst hj
      obtain ⟨c, hgoes, hc⟩ := step.own hb
      rw [if_pos rfl]
      exact ⟨c, hc, hpath.snoc hgoes⟩
    · rw [if_neg hj, List.append_nil]
      exact ⟨b, step.other hb hj, hpath⟩

/-- An activity of a run is one of those at the start, or it was started on the way; from there on
it went its own way. -/
theorem Run.path_from {P : α → Prop} (hstart : ∀ a ∈ start.activities, P a)
    (hturn : ∀ (a b : α) (x : Happening), (turn a).Goes x.moment x.cause b →
      ∀ child ∈ (turn a).started x.cause, P child)
    (h : Run turn start hs e) :
    (∀ i b, e.activities[i]? = some b → ∃ a, P a ∧ Path turn a (share i hs) b) ∧
      ∀ i, e.activities.length ≤ i → share i hs = [] := by
  induction h with
  | here => exact ⟨fun i b hb => ⟨b, hstart b (List.mem_of_getElem? hb), .here b⟩, fun _ _ => rfl⟩
  | @step hs e e' j x _ step ih =>
    obtain ⟨hpath, hnone⟩ := ih
    cases step with
    | @turn a₀ b₀ here goes admits =>
      have hj : j < e.activities.length := (List.getElem?_eq_some_iff.mp here).1
      have hset : (e.activities.set j b₀).length = e.activities.length := List.length_set
      constructor
      · intro i b hb
        rw [share_concat]
        rcases Nat.lt_or_ge i e.activities.length with hi | hi
        · rw [List.getElem?_append_left (hset.symm ▸ hi)] at hb
          by_cases hij : j = i
          · subst hij
            rw [List.getElem?_set_self hj] at hb
            obtain rfl := Option.some.inj hb
            obtain ⟨a, ha, hway⟩ := hpath j a₀ here
            exact ⟨a, ha, by rw [if_pos rfl]; exact hway.snoc goes⟩
          · rw [List.getElem?_set_ne hij] at hb
            obtain ⟨a, ha, hway⟩ := hpath i b hb
            exact ⟨a, ha, by rw [if_neg hij, List.append_nil]; exact hway⟩
        · -- It was started in this step, and nothing has happened to it yet.
          rw [List.getElem?_append_right (hset.symm ▸ hi)] at hb
          rw [hnone i hi, if_neg (by omega), List.append_nil]
          exact ⟨b, hturn a₀ b₀ x goes b (List.mem_of_getElem? hb), .here b⟩
      · intro i hi
        rw [List.length_append, hset] at hi
        rw [share_concat, hnone i (by omega), if_neg (by omega), List.append_nil]

/-- Runs follow one another. -/
theorem Run.append {ys : List (Nat × Happening)} {e₁ e₂ : Ensemble α}
    (h₁ : Run turn start hs e₁) (h₂ : Run turn e₁ ys e₂) : Run turn start (hs ++ ys) e₂ := by
  induction h₂ with
  | here =>
    rw [List.append_nil]
    exact h₁
  | step _ step ih =>
    rw [← List.append_assoc]
    exact ih.step step

/-- A run is a run up to any place in it and a run on from there. -/
theorem Run.of_append {ys : List (Nat × Happening)} (h : Run turn start (hs ++ ys) e) :
    ∃ e₁, Run turn start hs e₁ ∧ Run turn e₁ ys e := by
  induction ys using List.reverseRecOn generalizing e with
  | nil =>
    rw [List.append_nil] at h
    exact ⟨e, h, .here⟩
  | append_singleton ys y ih =>
    rw [← List.append_assoc] at h
    generalize hzs : hs ++ ys ++ [y] = zs at h
    cases h with
    | here => simp at hzs
    | step before step =>
      obtain ⟨rfl, heq⟩ := List.append_inj' hzs rfl
      obtain rfl := List.singleton_inj.mp heq
      obtain ⟨e₁, h₁, h₂⟩ := ih before
      exact ⟨e₁, h₁, h₂.step step⟩

/-- What holds of the activities at the start and is kept by every turn holds of all later ones. -/
theorem Run.forall_mem {P : α → Prop} (hstart : ∀ a ∈ start.activities, P a)
    (hturn : ∀ (a b : α) (x : Happening), P a → (turn a).Goes x.moment x.cause b →
      P b ∧ ∀ child ∈ (turn a).started x.cause, P child)
    (h : Run turn start hs e) : ∀ a ∈ e.activities, P a := by
  induction h with
  | here => exact hstart
  | step _ step ih =>
    cases step with
    | @turn a b here goes admits =>
      obtain ⟨hb, hchildren⟩ := hturn _ _ _ (ih a (List.mem_of_getElem? here)) goes
      intro c hc
      rcases List.mem_append.mp hc with hc | hc
      · rcases List.mem_or_eq_of_mem_set hc with hc | rfl
        · exact ih c hc
        · exact hb
      · exact hchildren c hc

/-! ## All activities together -/

/-- A step replaces one activity by what it goes on as and what it starts. -/
theorem Step.exchange (h : Step turn e i x e') :
    ∃ a b, e.activities[i]? = some a ∧ (turn a).Goes x.moment x.cause b ∧
      (e'.activities : Multiset α) + {a} =
        e.activities + (b ::ₘ ((turn a).started x.cause : Multiset α)) := by
  cases h with
  | @turn a b here goes admits =>
    refine ⟨a, b, here, goes, ?_⟩
    obtain ⟨hi, rfl⟩ := List.getElem?_eq_some_iff.mp here
    have hset : (e.activities.set i b : Multiset α) =
        b ::ₘ (e.activities.eraseIdx i : Multiset α) :=
      Multiset.coe_eq_coe.mpr (List.set_perm_cons_eraseIdx hi b)
    have herase : (e.activities : Multiset α) =
        e.activities[i] ::ₘ (e.activities.eraseIdx i : Multiset α) :=
      Multiset.coe_eq_coe.mpr (List.getElem_cons_eraseIdx_perm hi).symm
    rw [← Multiset.coe_add, hset, herase]
    simp only [← Multiset.singleton_add]
    abel

/-- The events that were counted. -/
def counted (hs : List (Nat × Happening)) : List Metrics.Event :=
  hs.filterMap fun y => y.2.cause.event?

/-- **Where turns lead to less, an ensemble does not go on forever.** An activity may be replaced by
one that is less and by any number of new ones that are less too. -/
theorem wellFounded_step {less : α → α → Prop} (hless : WellFounded less)
    (p : α → Happening → Prop)
    (hturn : ∀ (a b : α) (x : Happening), p a x → (turn a).Goes x.moment x.cause b →
      less b a ∧ ∀ child ∈ (turn a).started x.cause, less child a) :
    WellFounded fun e' e => ∃ i x,
      (∀ a, e.activities[i]? = some a → p a x) ∧ Step turn e i x e' := by
  refine Subrelation.wf ?_ (InvImage.wf (fun e : Ensemble α => (e.activities : Multiset α))
    hless.cutExpand)
  intro e' e h
  obtain ⟨i, x, hp, h⟩ := h
  obtain ⟨a, b, here, goes, hexchange⟩ := h.exchange
  obtain ⟨hb, hchildren⟩ := hturn a b x (hp a here) goes
  refine ⟨b ::ₘ ((turn a).started x.cause : Multiset α), a, fun c hc => ?_, hexchange⟩
  rcases Multiset.mem_cons.mp hc with rfl | hc
  · exact hb
  · exact hchildren c (Multiset.mem_coe.mp hc)

/-- An activity that nobody holds up can take a turn, at any moment from some time on. -/
theorem exists_own_step (here : e.activities[i]? = some a) (hd : (turn a).demand ≠ .nothing)
    (hfree : ∀ side acquired, (turn a).demand = .acquire side acquired →
      e.shared.holder side = none)
    (hjoin : ∀ after, (turn a).demand = .join after →
      ∀ j b, e.activities[j]? = some b → j ≠ i → (turn b).demand.isIdle = true) :
    ∃ time, ∀ m : Instant, time ≤ m.now → ∃ x e', x.moment = m ∧ Step turn e i x e' := by
  obtain ⟨time, hgo⟩ := Turn.exists_goes hd e.shared.nonce
  refine ⟨time, fun m hm => ?_⟩
  obtain ⟨c, b, hgoes, hnonce⟩ := hgo m hm
  refine ⟨⟨m, c⟩, _, rfl, .turn here hgoes ?_⟩
  cases c with
  | acquired side nonce =>
    obtain ⟨acquired, hdemand⟩ := hgoes.acquire_of_acquired
    exact ⟨hfree side acquired hdemand, hnonce side nonce rfl⟩
  | joined =>
    obtain ⟨after, hdemand⟩ := hgoes.join_of_joined
    exact hjoin after hdemand
  | _ => trivial

/-! ## Who has the right to send -/

/-- Activities of which one can say what right to send they have. -/
structure Holding (turn : α → Turn α) (holds : α → Option Side) : Prop where
  passes : ∀ (a b : α) (x : Happening), (turn a).Goes x.moment x.cause b →
    x.cause.Passes (holds a) (holds b)
  /-- Nobody is born with the right. -/
  born : ∀ (a b : α) (x : Happening), (turn a).Goes x.moment x.cause b →
    ∀ child ∈ (turn a).started x.cause, holds child = none
  /-- Who has the right does not wait for others. -/
  ready : ∀ a side, holds a = some side → (turn a).demand.isReady = true

/-- The right to send is with the activity that has it. -/
def Orderly (holds : α → Option Side) (e : Ensemble α) : Prop :=
  ∀ side i, e.shared.holder side = some i ↔ e.activities[i]?.bind holds = some side

variable {holds : α → Option Side}

/-- After a step only the one whose turn it was may have another right than before. -/
theorem Step.held (hh : Holding turn holds) (h : Step turn e i x e') :
    ∃ a b, e.activities[i]? = some a ∧ x.cause.Passes (holds a) (holds b) ∧
      ∀ k, e'.activities[k]?.bind holds =
        if k = i then holds b else e.activities[k]?.bind holds := by
  cases h with
  | @turn a b here goes admits =>
    refine ⟨a, b, here, hh.passes a b x goes, fun k => ?_⟩
    have hi : i < e.activities.length := (List.getElem?_eq_some_iff.mp here).1
    rcases Nat.lt_or_ge k e.activities.length with hk | hk
    · rw [List.getElem?_append_left (by rw [List.length_set]; exact hk)]
      split
      next heq => rw [heq, List.getElem?_set_self hi, Option.bind_some]
      next hne => rw [List.getElem?_set_ne (Ne.symm hne)]
    · -- A new one has no right, and before there was none at this place.
      rw [List.getElem?_append_right (by rw [List.length_set]; exact hk), if_neg (by omega),
        List.getElem?_eq_none hk, Option.bind_none]
      cases hc : ((turn a).started x.cause)[k - (e.activities.set i b).length]? with
      | none => rfl
      | some child => exact hh.born a b x goes child (List.mem_of_getElem? hc)

/-- **The right to send is always with the activity that has it**, and so with one at a time. -/
theorem Run.orderly (hh : Holding turn holds) (hstart : Orderly holds start)
    (h : Run turn start hs e) : Orderly holds e := by
  induction h with
  | here => exact hstart
  | @step hs e e' j x _ step ih =>
    obtain ⟨a, b, here, hpasses, hafter⟩ := step.held hh
    have ha : e.activities[j]?.bind holds = holds a := by rw [here, Option.bind_some]
    obtain ⟨moment, cause⟩ := x
    intro side i
    rw [hafter i]
    cases step with
    | turn _ _ admits =>
      cases cause with
      | acquired side' nonce =>
        -- The right was free, so that nobody else has it.
        obtain ⟨hnone, hsome⟩ := hpasses
        have hfree : e.shared.holder side' = none := admits.1
        have hside := ih side i
        have hside' := ih side' i
        show Function.update e.shared.holder side' (some j) side = some i ↔ _
        rw [Function.update_apply]
        grind
      | released side' nonce =>
        -- It was with this activity, so that it was with no other.
        obtain ⟨hsome, hnone⟩ := hpasses
        have hheld := (ih side' j).mpr (ha.trans hsome)
        have hside := ih side i
        have hside' := ih side' i
        show Function.update e.shared.holder side' none side = some i ↔ _
        rw [Function.update_apply]
        grind
      | _ =>
        show e.shared.holder side = some i ↔ _
        rw [ih side i]
        split
        next heq => rw [heq, ha, show holds b = holds a from hpasses]
        next => rfl

/-- An activity that does not wait for others can take a turn, at any moment from some time on. -/
theorem exists_step_of_ready (here : e.activities[i]? = some a)
    (hready : (turn a).demand.isReady = true) :
    ∃ time, ∀ m : Instant, time ≤ m.now → ∃ j x e', x.moment = m ∧ Step turn e j x e' := by
  obtain ⟨time, hstep⟩ := exists_own_step here (fun h => by rw [h] at hready; cases hready)
    (fun _ _ h => by rw [h] at hready; cases hready) (fun _ h => by rw [h] at hready; cases hready)
  exact ⟨time, fun m hm => ⟨i, hstep m hm⟩⟩

/-- **As long as an activity wants something, some activity can take a turn**, at any moment from
some time on: nobody waits for a right that is never given back. -/
theorem exists_step (hh : Holding turn holds) (ho : Orderly holds e)
    (here : e.activities[i]? = some a) (hd : (turn a).demand ≠ .nothing) :
    ∃ time, ∀ m : Instant, time ≤ m.now → ∃ j x e', x.moment = m ∧ Step turn e j x e' := by
  -- One that asks for the right has it, or who has the right can go on.
  have hbusy : ∀ (j : Nat) (b : α), e.activities[j]? = some b → (turn b).demand.isIdle = false →
      ∃ time, ∀ m : Instant, time ≤ m.now → ∃ j x e', x.moment = m ∧ Step turn e j x e' := by
    intro j b hj hidle
    cases hdemand : (turn b).demand with
    | acquire side acquired =>
      cases hholder : e.shared.holder side with
      | none =>
        obtain ⟨time, hstep⟩ := exists_own_step hj (fun h => by rw [h] at hdemand; cases hdemand)
          (fun side' _ h => by rw [h] at hdemand; cases hdemand; exact hholder)
          (fun _ h => by rw [h] at hdemand; cases hdemand)
        exact ⟨time, fun m hm => ⟨j, hstep m hm⟩⟩
      | some k =>
        have hheld := (ho side k).mp hholder
        cases hk : e.activities[k]? with
        | none =>
          rw [hk] at hheld
          cases hheld
        | some c =>
          rw [hk] at hheld
          exact exists_step_of_ready hk (hh.ready c side hheld)
    | nothing => rw [hdemand] at hidle; cases hidle
    | join _ => rw [hdemand] at hidle; cases hidle
    | _ => exact exists_step_of_ready hj (by rw [hdemand]; rfl)
  by_cases hall : ∃ (j : Nat) (b : α), e.activities[j]? = some b ∧
      (turn b).demand.isIdle = false
  · obtain ⟨j, b, hj, hidle⟩ := hall
    exact hbusy j b hj hidle
  · -- All others are idle, so that this one need not wait for them.
    have hidle : ∀ (j : Nat) (b : α), e.activities[j]? = some b →
        (turn b).demand.isIdle = true := by
      intro j b hj
      by_contra hne
      exact hall ⟨j, b, hj, Bool.eq_false_iff.mpr hne⟩
    obtain ⟨time, hstep⟩ := exists_own_step here hd
      (fun side _ h => by have := hidle i a here; rw [h] at this; cases this)
      (fun _ _ j b hj _ => hidle j b hj)
    exact ⟨time, fun m hm => ⟨i, hstep m hm⟩⟩

end Ensemble

end EventRelay
