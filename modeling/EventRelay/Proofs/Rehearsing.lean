import EventRelay.Proofs.Ensemble
import EventRelay.Rehearsal.Stage

/-!
# Rehearsals are runs

What holds of all runs of an ensemble holds of what a rehearsal makes of it: the nodes of a
rehearsal answer as nodes can, its clock only goes forward, and which activity goes on next is a
choice like any other. An activity that waits in a rehearsal has not taken its turn yet, even where
the answer that it waits for is known already; it takes its turn when it is let go on.

`StandsFor` relates how an activity waits in a rehearsal to what it is in the ensemble, `Mirrors` a
rehearsal to an ensemble, with the rights to send and the queues for them. `Mirrors.step` follows
each step of a rehearsal by steps of the ensemble at the same moment.

Main statements:

* `rehearse_run`: a rehearsal is a run, in the order of time, to where its activities ended;
* `rehearse_path_given`: where no activity starts another, each that ended went there along a path;
* `isFree_of_rehearse`: activities that never have the right to send leave it to others.
-/

namespace EventRelay

variable {α β : Type}

/-- Whether an activity wants to start another. -/
def Demand.isSpawn : Demand α → Bool
  | .spawn _ _ => true
  | _ => false

@[simp] theorem Demand.isSpawn_map (f : α → β) (d : Demand α) :
    (d.map f).isSpawn = d.isSpawn := by
  cases d <;> rfl

/-- Where an activity waits for others, nothing comes in between. -/
def Turn.WaitsPlainly (t : Turn α) : Prop := t.demand.isReady = false → t = .plain t.demand

theorem Turn.waitsPlainly_plain (d : Demand α) : (Turn.plain d).WaitsPlainly := fun _ => rfl

theorem Turn.WaitsPlainly.of_ready {t : Turn α} (h : t.demand.isReady = true) : t.WaitsPlainly :=
  fun h' => by rw [h] at h'; cases h'

/-- A part of an activity waits as the whole does. -/
theorem Turn.WaitsPlainly.map {t : Turn α} (h : t.WaitsPlainly) (f : α → β) :
    (t.map f).WaitsPlainly := by
  intro hready
  rw [h ((Demand.isReady_map f t.demand).symm.trans hready)]
  rfl

/-- Whether a cause concerns nobody but the activity that meets it. -/
def Cause.isPrivate : Cause → Bool
  | .acquired .. | .released .. | .spawned | .counted _ | .joined => false
  | _ => true

/-- A moment does not come after another. -/
structure Instant.Before (m m' : Instant) : Prop where
  now : m.now ≤ m'.now
  told : m.told = true → m'.told = true
  stopping : m.stopping = true → m'.stopping = true

theorem Instant.Before.refl (m : Instant) : m.Before m := ⟨Nat.le_refl _, id, id⟩

theorem Instant.Before.trans {m m' m'' : Instant} (h : m.Before m') (h' : m'.Before m'') :
    m.Before m'' :=
  ⟨Nat.le_trans h.now h'.now, h'.told ∘ h.told, h'.stopping ∘ h.stopping⟩

namespace Ensemble

variable {turn : α → Turn α} {e : Ensemble α} {i : Nat} {a b : α} {m : Instant} {c : Cause}

/-- What happened is told in the order of time. -/
def InOrder (hs : List (Nat × Happening)) : Prop :=
  hs.Pairwise fun x y => x.2.moment.Before y.2.moment

/-- A turn that starts no other activity changes one activity and what is shared. -/
theorem step_alone (here : e.activities[i]? = some a) (goes : (turn a).Goes m c b)
    (admits : e.Admits turn i c) (hc : c ≠ .spawned) :
    Step turn e i ⟨m, c⟩ ⟨e.activities.set i b, e.shared.after i c⟩ := by
  have hstep := Step.turn (x := ⟨m, c⟩) here goes admits
  have hstarted : (turn a).started c = [] := by
    cases c <;> first | rfl | exact absurd rfl hc
  rwa [hstarted, List.append_nil] at hstep

/-- A cause that no other activity has a part in changes one activity. -/
theorem step_private (here : e.activities[i]? = some a) (goes : (turn a).Goes m c b)
    (hc : c.isPrivate = true) :
    Step turn e i ⟨m, c⟩ { e with activities := e.activities.set i b } := by
  have hadmits : e.Admits turn i c := by cases c <;> trivial
  have hspawned : c ≠ .spawned := by
    rintro rfl
    cases hc
  have hafter : e.shared.after i c = e.shared := by cases c <;> first | rfl | cases hc
  have hstep := step_alone here goes hadmits hspawned
  rwa [hafter] at hstep

end Ensemble

end EventRelay

namespace EventRelay.Rehearsal

namespace Stage

variable (s : Stage) (side side' : Side) (n : Node) (p : Permit)

@[simp] theorem node_setNode : (s.setNode side n).node side = n := by cases side <;> rfl

@[simp] theorem now_setNode : (s.setNode side n).now = s.now := by cases side <;> rfl

@[simp] theorem metrics_setNode : (s.setNode side n).metrics = s.metrics := by cases side <;> rfl

@[simp] theorem permit_setNode : (s.setNode side n).permit side' = s.permit side' := by
  cases side <;> cases side' <;> rfl

@[simp] theorem now_setPermit : (s.setPermit side p).now = s.now := by cases side <;> rfl

@[simp] theorem metrics_setPermit : (s.setPermit side p).metrics = s.metrics := by
  cases side <;> rfl

/-- Setting a permit changes that of its own side. -/
theorem permit_setPermit :
    (s.setPermit side p).permit side' = if side' = side then p else s.permit side' := by
  cases side <;> cases side' <;> rfl

@[simp] theorem setPermit_setPermit (p' : Permit) :
    (s.setPermit side p).setPermit side p' = s.setPermit side p' := by
  cases side <;> rfl

/-- Nobody has or wants the right to send. -/
def IsFree (s : Stage) : Prop :=
  ∀ side, (s.permit side).held = false ∧ (s.permit side).queue = []

theorem isFree_opening (pub priv : Node) : (opening pub priv).IsFree := by
  intro side
  cases side <;> exact ⟨rfl, rfl⟩

end Stage

variable {α : Type} {turn : α → Turn α} {given : List α}

/-- What an activity is, at a time, that stands in a certain way. -/
inductive StandsFor (turn : α → Turn α) (now : Nat) : Standing α → α → Prop
  | able (a : α) : StandsFor turn now (.able a) a
  | waiting {a : α} {at? : Option (Nat × α)} {place : Nat}
      (hat : ∀ time b, at? = some (time, b) → now ≤ time ∧
        ∀ m : Instant, m.now = time → ∃ c, (turn a).demand.Met m c b ∧ c.isPrivate = true)
      (hdeadline : ∀ limit late, (turn a).deadline = some (limit, late) → now ≤ limit) :
      StandsFor turn now (.waiting at? (turn a).deadline (turn a).cancelled place) a
  | queueing {a : α} {side : Side} {acquired : Option UInt64 → α}
      (h : turn a = .plain (.acquire side acquired)) : StandsFor turn now (.queueing acquired) a
  | joining {a next : α} (h : turn a = .plain (.join next)) : StandsFor turn now (.joining next) a
  | ended {a : α} (h : (turn a).demand = .nothing) : StandsFor turn now (.ended a) a

/-- The rights to send and the counts are the same. -/
structure Shares (stage : Stage) (shared : Shared) : Prop where
  metrics : shared.metrics = stage.metrics
  nonce : ∀ side, shared.nonce side = (stage.permit side).nonce
  free : ∀ side, (stage.permit side).held = false ↔ shared.holder side = none

/-- The right to send on a side changes hands, in the ensemble as well. -/
theorem Shares.setPermit {stage : Stage} {shared shared' : Shared} {side : Side} {p : Permit}
    (h : Shares stage shared) (hmetrics : shared'.metrics = shared.metrics)
    (hother : ∀ side', side' ≠ side → shared'.nonce side' = shared.nonce side' ∧
      shared'.holder side' = shared.holder side')
    (hnonce : shared'.nonce side = p.nonce)
    (hfree : p.held = false ↔ shared'.holder side = none) :
    Shares (stage.setPermit side p) shared' := by
  refine ⟨by simpa [hmetrics] using h.metrics, fun side' => ?_, fun side' => ?_⟩
  · rw [Stage.permit_setPermit]
    split
    next hside => rw [hside, hnonce]
    next hside => rw [(hother side' hside).1, h.nonce side']
  · rw [Stage.permit_setPermit]
    split
    next hside => exact hside ▸ hfree
    next hside => rw [(hother side' hside).2]; exact h.free side'

namespace Run

variable {r r' : Run α} {e : Ensemble α} {i j : Nat} {a b : α} {m : Instant} {c : Cause}

/-- The present moment of a rehearsal. -/
def moment (r : Run α) : Instant := ⟨r.stage.now, r.told, r.stopping⟩

/-- A rehearsal is where an ensemble is. -/
structure Mirrors (turn : α → Turn α) (r : Run α) (e : Ensemble α) : Prop where
  length : r.activities.length = e.activities.length
  stands : ∀ (i : Nat) (s : Standing α) (a : α), r.activities[i]? = some s →
    e.activities[i]? = some a → StandsFor turn r.stage.now s a
  shares : Shares r.stage e.shared
  /-- Whoever queues does so once. -/
  nodup : ∀ side, (r.stage.permit side).queue.Nodup
  queued : ∀ side, ∀ j ∈ (r.stage.permit side).queue, ∃ a acquired,
    r.activities[j]? = some (.queueing acquired) ∧ e.activities[j]? = some a ∧
      turn a = .plain (.acquire side acquired)
  /-- The relay is not told to stop in the past. -/
  planned : ∀ time told, r.plan = some (time, told) → r.stage.now ≤ time

/-- What comes of an ensemble in steps of one moment is where a rehearsal then is. -/
def Reflects (turn : α → Turn α) (e : Ensemble α) (m : Instant) (r : Run α) : Prop :=
  ∃ hs e', Ensemble.Run turn e hs e' ∧ r.Mirrors turn e' ∧ r.moment = m ∧
    ∀ x ∈ hs, x.2.moment = m

/-- One more step in front. -/
theorem Reflects.of_step {e₁ : Ensemble α} {x : Happening} (hstep : e.Step turn i x e₁)
    (hx : x.moment = m) (h : Reflects turn e₁ m r) : Reflects turn e m r := by
  obtain ⟨hs, e', hrun, hmirrors, hm, hall⟩ := h
  refine ⟨(i, x) :: hs, e', ?_, hmirrors, hm, List.forall_mem_cons.mpr ⟨hx, hall⟩⟩
  exact (Ensemble.Run.step .here hstep).append hrun

/-- Who can go on next and who waits in which place does not matter. -/
theorem Mirrors.congr (h : r.Mirrors turn e) (hactivities : r'.activities = r.activities)
    (hstage : r'.stage = r.stage) (hplan : r'.plan = r.plan) : r'.Mirrors turn e where
  length := by rw [hactivities, h.length]
  stands := by rw [hactivities, hstage]; exact h.stands
  shares := by rw [hstage]; exact h.shares
  nodup := by rw [hstage]; exact h.nodup
  queued := by rw [hactivities, hstage]; exact h.queued
  planned := by rw [hplan, hstage]; exact h.planned

/-- A rehearsal that is mirrored is reflected at its own moment, without a step. -/
theorem Mirrors.reflects (h : r.Mirrors turn e) (hactivities : r'.activities = r.activities)
    (hstage : r'.stage = r.stage) (hplan : r'.plan = r.plan) (hm : r'.moment = m) :
    Reflects turn e m r' :=
  ⟨[], e, .here, h.congr hactivities hstage hplan, hm, List.forall_mem_nil _⟩

/-- Nor does it matter for what is reflected. -/
theorem Reflects.congr (h : Reflects turn e m r) (hactivities : r'.activities = r.activities)
    (hstage : r'.stage = r.stage) (hplan : r'.plan = r.plan) (hm : r'.moment = m) :
    Reflects turn e m r' := by
  obtain ⟨hs, e', hrun, hmirrors, -, hall⟩ := h
  exact ⟨hs, e', hrun, hmirrors.congr hactivities hstage hplan, hm, hall⟩

/-- Another node changes nothing that the ensemble knows of. -/
theorem Mirrors.setNode (h : r.Mirrors turn e) (side : Side) (n : Node) :
    ({ r with stage := r.stage.setNode side n } : Run α).Mirrors turn e where
  length := h.length
  stands := by simpa using h.stands
  shares := ⟨by simpa using h.shares.metrics, by simpa using h.shares.nonce,
    by simpa using h.shares.free⟩
  nodup := by simpa using h.nodup
  queued := by simpa using h.queued
  planned := by simpa using h.planned

@[simp] theorem moment_setNode (side : Side) (n : Node) :
    ({ r with stage := r.stage.setNode side n } : Run α).moment = r.moment := by
  simp [moment]

/-- Every standing of the stage stands for an activity. -/
theorem Mirrors.exists_activity {s : Standing α} (h : r.Mirrors turn e)
    (hi : r.activities[i]? = some s) : ∃ a, e.activities[i]? = some a ∧
      StandsFor turn r.stage.now s a := by
  obtain ⟨hlt, -⟩ := List.getElem?_eq_some_iff.mp hi
  have ha := List.getElem?_eq_getElem (h.length ▸ hlt)
  exact ⟨_, ha, h.stands i _ _ hi ha⟩

/-- Every activity has its standing on the stage. -/
theorem Mirrors.exists_standing (h : r.Mirrors turn e) (ha : e.activities[i]? = some a) :
    ∃ s, r.activities[i]? = some s ∧ StandsFor turn r.stage.now s a := by
  obtain ⟨hlt, -⟩ := List.getElem?_eq_some_iff.mp ha
  have hi := List.getElem?_eq_getElem (h.length.symm ▸ hlt)
  exact ⟨_, hi, h.stands i _ _ hi ha⟩

/-- Whoever can go on is in the ensemble what it goes on as. -/
theorem Mirrors.of_able (h : r.Mirrors turn e) (hi : r.activities[i]? = some (.able a)) :
    e.activities[i]? = some a := by
  obtain ⟨a', ha', hstands⟩ := h.exists_activity hi
  cases hstands
  exact ha'

/-- What does not queue is in no queue. -/
theorem Mirrors.not_queued {s : Standing α} (h : r.Mirrors turn e)
    (hi : r.activities[i]? = some s) (hs : ∀ acquired, s ≠ .queueing acquired) (side : Side) :
    i ∉ (r.stage.permit side).queue := by
  intro hmem
  obtain ⟨a, acquired, hstanding, -⟩ := h.queued side i hmem
  exact hs acquired (Option.some.inj (hi.symm.trans hstanding))

/-- An activity that does not queue stands in another way, and what is shared is still the same. -/
theorem Mirrors.set {s' : Standing α} {stage : Stage} {shared : Shared} (h : r.Mirrors turn e)
    (hnot : ∀ side, i ∉ (r.stage.permit side).queue)
    (hb : StandsFor turn r.stage.now s' b) (hshares : Shares stage shared)
    (hnow : stage.now = r.stage.now)
    (hqueue : ∀ side, (stage.permit side).queue = (r.stage.permit side).queue) :
    ({ r with activities := r.activities.set i s', stage := stage } : Run α).Mirrors turn
      ⟨e.activities.set i b, shared⟩ where
  length := by simpa using h.length
  stands j t a ht ha := by
    simp only [List.getElem?_set] at ht ha
    rw [hnow]
    split at ht
    next hij =>
      subst hij
      rw [if_pos rfl, h.length] at *
      split at ht
      next hlt =>
        rw [if_pos hlt] at ha
        obtain rfl := Option.some.inj ht
        obtain rfl := Option.some.inj ha
        exact hb
      next => cases ht
    next hij =>
      rw [if_neg hij] at ha
      exact h.stands j t a ht ha
  shares := hshares
  nodup side := hqueue side ▸ h.nodup side
  queued side j hj := by
    rw [hqueue side] at hj
    obtain ⟨a, acquired, hstanding, ha, hturn⟩ := h.queued side j hj
    have hij : i ≠ j := fun heq => hnot side (heq ▸ hj)
    exact ⟨a, acquired, by simpa [List.getElem?_set_ne hij] using hstanding,
      by simpa [List.getElem?_set_ne hij] using ha, hturn⟩
  planned := hnow ▸ h.planned

/-- An activity that can go on stands in another way, but is what it was. -/
theorem Mirrors.stay {s' : Standing α} (h : r.Mirrors turn e)
    (hi : r.activities[i]? = some (.able a)) (hs' : StandsFor turn r.stage.now s' a) :
    ({ r with activities := r.activities.set i s' } : Run α).Mirrors turn e := by
  have hmirrors := h.set (h.not_queued hi fun _ => nofun) hs' h.shares rfl fun _ => rfl
  obtain ⟨hlt, rfl⟩ := List.getElem?_eq_some_iff.mp (h.of_able hi)
  rwa [List.set_getElem_self] at hmirrors

/-- The right to send on a side changes hands. -/
theorem Mirrors.setPermit {side : Side} {p : Permit} {shared : Shared} (h : r.Mirrors turn e)
    (hshares : Shares (r.stage.setPermit side p) shared) (hnodup : p.queue.Nodup)
    (hqueued : ∀ j ∈ p.queue, ∃ a acquired, r.activities[j]? = some (.queueing acquired) ∧
      e.activities[j]? = some a ∧ turn a = .plain (.acquire side acquired)) :
    ({ r with stage := r.stage.setPermit side p } : Run α).Mirrors turn ⟨e.activities, shared⟩ where
  length := h.length
  stands := by simpa using h.stands
  shares := hshares
  nodup side' := by
    rw [Stage.permit_setPermit]
    split
    next => exact hnodup
    next => exact h.nodup side'
  queued side' := by
    rw [Stage.permit_setPermit]
    split
    next heq => exact heq ▸ hqueued
    next => exact h.queued side'
  planned := by simpa using h.planned

/-! ## Single turns -/

/-- An activity takes a turn that concerns nobody else, and goes on. -/
theorem Mirrors.goOn (h : r.Mirrors turn e) (hi : r.activities[i]? = some (.able a))
    (hgoes : (turn a).Goes r.moment c b) (hc : c.isPrivate = true) :
    Reflects turn e r.moment (r.goOn i b) := by
  have hmirrors := h.set (h.not_queued hi fun _ => nofun) (.able b) h.shares rfl fun _ => rfl
  exact .of_step (Ensemble.step_private (h.of_able hi) hgoes hc) rfl
    (hmirrors.reflects rfl rfl rfl rfl)

/-- An activity begins to wait; in the ensemble nothing happens. -/
theorem Mirrors.wait {at? : Option (Nat × α)} (h : r.Mirrors turn e)
    (hi : r.activities[i]? = some (.able a)) (hd : (turn a).overdue r.moment = none)
    (hat : ∀ time b, at? = some (time, b) → r.stage.now ≤ time ∧
      ∀ m : Instant, m.now = time → ∃ c, (turn a).demand.Met m c b ∧ c.isPrivate = true) :
    Reflects turn e r.moment (r.wait i (turn a) at?) := by
  have hlimit : ∀ limit late, (turn a).deadline = some (limit, late) → r.stage.now ≤ limit := by
    intro limit late hlimit
    rw [Turn.overdue, hlimit, Option.bind_some] at hd
    exact Nat.le_of_not_le fun hle => by simp [moment, hle] at hd
  have hstands : StandsFor turn r.stage.now
      (.waiting at? (turn a).deadline (turn a).cancelled r.place) a := .waiting hat hlimit
  exact (h.stay hi hstands).reflects rfl rfl rfl rfl

/-- An answer that is known already is met at once, or later at any moment of its time. -/
theorem Mirrors.delay {ms : Nat} (h : r.Mirrors turn e) (hi : r.activities[i]? = some (.able a))
    (hd : (turn a).overdue r.moment = none) (hs : (turn a).halted r.moment = none)
    (hmet : ∀ m, (turn a).demand.Met m c b) (hc : c.isPrivate = true) :
    Reflects turn e r.moment (r.delay i (turn a) ms b) := by
  unfold Run.delay
  split
  next => exact h.goOn hi (.met hd (.inr hs) (hmet _)) hc
  next =>
    refine h.wait hi hd fun time b' hat => ?_
    obtain ⟨rfl, rfl⟩ := Prod.mk.inj (Option.some.inj hat)
    exact ⟨Nat.le_add_right _ _, fun m _ => ⟨c, hmet m, hc⟩⟩

/-- Whoever waits for all others goes on when no other does. -/
theorem Mirrors.joined {s : Standing α} (h : r.Mirrors turn e) (hi : r.activities[i]? = some s)
    (hs : s = .joining b) (hidle : r.activities.all isIdle = true) :
    Reflects turn e r.moment (r.goOn i b) := by
  subst hs
  obtain ⟨a, ha, hstands⟩ := h.exists_activity hi
  cases hstands with
  | joining hturn =>
    have hgoes : (turn a).Goes r.moment .joined b := by
      rw [hturn, Turn.goes_plain]
      exact .join b
    have hadmits : e.Admits turn i .joined := by
      intro j a' ha' _
      obtain ⟨s, hj, hstands'⟩ := h.exists_standing ha'
      have hidle' := List.all_eq_true.mp hidle _ (List.mem_of_getElem? hj)
      cases hstands' with
      | joining h => rw [h]; rfl
      | ended h => rw [h]; rfl
      | _ => cases hidle'
    have hmirrors := h.set (h.not_queued hi fun _ => nofun) (.able b) h.shares rfl fun _ => rfl
    exact .of_step (Ensemble.step_alone ha hgoes hadmits nofun) rfl
      (hmirrors.reflects rfl rfl rfl rfl)

/-- The joiner of the stage is joining. -/
theorem of_joiner? (h : r.joiner? = some (j, b)) : r.activities[j]? = some (.joining b) := by
  obtain ⟨k, -, hk⟩ := List.exists_of_findSome?_eq_some h
  split at hk
  next next hstanding =>
    obtain ⟨rfl, rfl⟩ := Prod.mk.inj (Option.some.inj hk)
    exact hstanding
  next => cases hk

/-- An activity that ends may let another go on that waits for it. -/
theorem Mirrors.finish (h : r.Mirrors turn e) (hi : r.activities[i]? = some (.able a))
    (hn : (turn a).demand = .nothing) : Reflects turn e r.moment (r.finish i a) := by
  have hended : (r.park i (.ended a)).Mirrors turn e := (h.stay hi (.ended hn)).congr rfl rfl rfl
  unfold Run.finish
  dsimp only
  split
  next hidle =>
    split
    next j b hj =>
      exact (hended.joined (of_joiner? hj) rfl hidle).congr rfl rfl rfl rfl
    next => exact hended.reflects rfl rfl rfl rfl
  next => exact hended.reflects rfl rfl rfl rfl

/-- An activity that wants the right to send has it: it is free, and none of those that still queue
for it is this one. -/
theorem Mirrors.take {side : Side} {acquired : Option UInt64 → α} {p : Permit}
    (h : r.Mirrors turn e) (ha : e.activities[j]? = some a)
    (hturn : turn a = .plain (.acquire side acquired))
    (hfree : (r.stage.permit side).held = false)
    (hnonce : p.nonce = (r.stage.permit side).nonce) (hheld : p.held = true)
    (hqueue : p.queue.Sublist (r.stage.permit side).queue) (hnot : j ∉ p.queue) :
    Reflects turn e r.moment { r with
      activities := r.activities.set j (.able (acquired p.nonce))
      stage := r.stage.setPermit side p } := by
  have hgoes : (turn a).Goes r.moment (.acquired side p.nonce) (acquired p.nonce) := by
    rw [hturn, Turn.goes_plain]
    exact .acquire side acquired p.nonce
  have hadmits : e.Admits turn j (.acquired side p.nonce) :=
    ⟨(h.shares.free side).mp hfree, hnonce.trans (h.shares.nonce side).symm⟩
  have hshares : Shares (r.stage.setPermit side p)
      (e.shared.after j (.acquired side p.nonce)) :=
    h.shares.setPermit rfl (fun side' hside => ⟨rfl, Function.update_of_ne hside _ _⟩)
      ((h.shares.nonce side).trans hnonce.symm) (by simp [hheld, Shared.after])
  have htaken := h.setPermit hshares ((h.nodup side).sublist hqueue) fun k hk =>
    h.queued side k (hqueue.subset hk)
  refine .of_step (Ensemble.step_alone ha hgoes hadmits nofun) rfl ?_
  have hmirrors := htaken.set (i := j) (fun side' => ?_) (.able (acquired p.nonce)) hshares rfl
    fun _ => rfl
  · exact hmirrors.reflects rfl rfl rfl (by simp [moment])
  · dsimp only
    rw [Stage.permit_setPermit]
    split
    next => exact hnot
    next hside =>
      -- It queues for the right on one side only.
      intro hmem
      obtain ⟨a', acquired', -, ha', hturn'⟩ := h.queued side' j hmem
      obtain rfl := Option.some.inj (ha.symm.trans ha')
      have hdemand := congrArg Turn.demand (hturn'.symm.trans hturn)
      exact hside (by injection hdemand)

/-- Whoever wants the right to send has it at once or queues for it. -/
theorem Mirrors.acquire {side : Side} {acquired : Option UInt64 → α} (h : r.Mirrors turn e)
    (hi : r.activities[i]? = some (.able a)) (hturn : turn a = .plain (.acquire side acquired)) :
    Reflects turn e r.moment (r.acquire i side acquired) := by
  have hnot := h.not_queued hi fun _ => nofun
  have ha := h.of_able hi
  unfold Run.acquire
  dsimp only
  split
  next hheld =>
    have hparked := h.stay hi (.queueing hturn)
    have hshares : Shares (r.stage.setPermit side { r.stage.permit side with
        queue := (r.stage.permit side).queue ++ [i] }) e.shared :=
      h.shares.setPermit rfl (fun _ _ => ⟨rfl, rfl⟩) (h.shares.nonce side) (h.shares.free side)
    have hnodup : ((r.stage.permit side).queue ++ [i]).Nodup :=
      List.concat_eq_append ▸ (h.nodup side).concat (hnot side)
    have hmirrors := hparked.setPermit hshares hnodup fun j hj => ?_
    · exact hmirrors.reflects rfl rfl rfl (by simp [moment, park, put])
    · rcases List.mem_append.mp hj with hj | hj
      · exact hparked.queued side j hj
      · obtain rfl := List.mem_singleton.mp hj
        exact ⟨a, acquired, by simp [(List.getElem?_eq_some_iff.mp hi).1], ha, hturn⟩
  next hfree =>
    exact h.take ha hturn (Bool.eq_false_iff.mpr hfree) rfl rfl (.refl _) (hnot side)

/-- The right to send goes to the first that queues for it. -/
theorem Mirrors.release {side : Side} {nonce : Option UInt64} (h : r.Mirrors turn e)
    (hi : r.activities[i]? = some (.able a))
    (hgoes : (turn a).Goes r.moment (.released side nonce) b) :
    Reflects turn e r.moment ((r.release side nonce).goOn i b) := by
  have hnot := h.not_queued hi fun _ => nofun
  have hshares : Shares (r.stage.setPermit side ⟨nonce, false, (r.stage.permit side).queue⟩)
      (e.shared.after i (.released side nonce)) :=
    h.shares.setPermit rfl
      (fun side' hside => ⟨Function.update_of_ne hside _ _, Function.update_of_ne hside _ _⟩)
      (Function.update_self ..) (iff_of_true rfl (Function.update_self ..))
  have hreleased := h.set hnot (.able b) hshares (by simp) fun side' => by
    rw [Stage.permit_setPermit]
    split
    next hside => rw [hside]
    next => rfl
  refine .of_step (Ensemble.step_alone (h.of_able hi) hgoes trivial nofun) rfl ?_
  unfold Run.release
  split
  next hqueue =>
    rw [hqueue] at hreleased
    exact hreleased.reflects rfl rfl rfl (by simp [moment, Run.goOn, put])
  next j rest hqueue =>
    obtain ⟨a', acquired, hj, ha', hturn'⟩ := h.queued side j (hqueue ▸ List.mem_cons_self)
    have hij : i ≠ j := fun heq => hnot side (hqueue ▸ heq ▸ List.mem_cons_self)
    have hnodup := List.nodup_cons.mp (hqueue ▸ h.nodup side)
    have hpermit : (r.stage.setPermit side ⟨nonce, false, (r.stage.permit side).queue⟩).permit
        side = ⟨nonce, false, j :: rest⟩ := by
      rw [Stage.permit_setPermit, if_pos rfl, hqueue]
    have htaken := hreleased.take (p := ⟨nonce, true, rest⟩)
      ((List.getElem?_set_ne hij).trans ha') hturn' (by rw [hpermit]) (by rw [hpermit]) rfl
      (by rw [hpermit]; exact List.sublist_cons_self ..) hnodup.1
    dsimp only
    rw [hj]
    rw [moment, Stage.now_setPermit] at htaken
    refine htaken.congr (List.set_comm _ _ hij.symm) ?_ rfl ?_
    · simp [Run.goOn, put]
    · simp [moment, Run.goOn, put]

/-- What the node gives in a subscription is received at once, or when it is due. -/
theorem Mirrors.receive {side : Side} {received : Option Log → α} (h : r.Mirrors turn e)
    (hi : r.activities[i]? = some (.able a)) (hd : (turn a).overdue r.moment = none)
    (hs : (turn a).halted r.moment = none)
    (hdemand : (turn a).demand = .receive side received) :
    Reflects turn e r.moment (r.receive i (turn a) side received) := by
  have hmet (log : Option Log) (m : Instant) :
      (turn a).demand.Met m (.received side log) (received log) :=
    hdemand ▸ .receive side received log
  unfold Run.receive
  dsimp only
  split
  next log rest _ =>
    have hfed := h.setNode side { r.stage.node side with
      feed := { (r.stage.node side).feed with logs := rest } }
    rw [← moment_setNode (r := r) side { r.stage.node side with
      feed := { (r.stage.node side).feed with logs := rest } }] at hd hs ⊢
    exact hfed.delay hi hd hs (c := .received side (some log)) (hmet _) rfl
  next =>
    split
    next => exact h.goOn hi (.met hd (.inr hs) (hmet none _)) rfl
    next => exact h.wait hi hd nofun

/-- A new activity is one that can go on. -/
theorem Mirrors.append (h : r.Mirrors turn e) (child : α) :
    ({ r with activities := r.activities ++ [.able child] } : Run α).Mirrors turn
      ⟨e.activities ++ [child], e.shared⟩ where
  length := by simp [h.length]
  stands j t a ht ha := by
    rcases Nat.lt_or_ge j r.activities.length with hj | hj
    · rw [List.getElem?_append_left hj] at ht
      rw [List.getElem?_append_left (h.length ▸ hj)] at ha
      exact h.stands j t a ht ha
    · rw [List.getElem?_append_right hj] at ht
      rw [List.getElem?_append_right (h.length ▸ hj), ← h.length] at ha
      obtain rfl := List.mem_singleton.mp (List.mem_of_getElem? ht)
      obtain rfl := List.mem_singleton.mp (List.mem_of_getElem? ha)
      exact .able _
  shares := h.shares
  nodup := h.nodup
  queued side j hj := by
    obtain ⟨a, acquired, hstanding, ha, hturn⟩ := h.queued side j hj
    have hlt := (List.getElem?_eq_some_iff.mp hstanding).1
    exact ⟨a, acquired, (List.getElem?_append_left hlt).trans hstanding,
      (List.getElem?_append_left (h.length ▸ hlt)).trans ha, hturn⟩
  planned := h.planned

/-- **What an activity wants is met as it can be**, or the activity waits. -/
theorem Mirrors.meet (h : r.Mirrors turn e) (hplain : ∀ a, (turn a).WaitsPlainly)
    (hi : r.activities[i]? = some (.able a)) (hd : (turn a).overdue r.moment = none)
    (hs : (turn a).halted r.moment = none) :
    Reflects turn e r.moment (r.meet i a (turn a)) := by
  have ha := h.of_able hi
  have hnot := h.not_queued hi fun _ => nofun
  have hgoes {d : Demand α} {c : Cause} {b : α} (hdemand : (turn a).demand = d)
      (hmet : d.Met r.moment c b) : (turn a).Goes r.moment c b :=
    .met hd (.inr hs) (hdemand ▸ hmet)
  unfold Run.meet
  split
  next hdemand => exact h.finish hi hdemand
  next seen hdemand => exact h.goOn hi (hgoes hdemand (.look seen)) rfl
  next side q answered hdemand =>
    dsimp only
    generalize (r.stage.node side).ask r.stage.now q = answer
    obtain ⟨reply?, n⟩ := answer
    have hasked := h.setNode side n
    rw [← moment_setNode (r := r) side n] at hd hs ⊢
    split
    next => exact hasked.wait hi hd nofun
    next reply _ =>
      exact hasked.delay hi hd hs (c := .answered side q reply)
        (fun m => hdemand ▸ .ask side q answered reply) rfl
  next side acquired hdemand =>
    exact h.acquire hi (by rw [hplain a (by rw [hdemand]; rfl), hdemand])
  next side nonce next hdemand => exact h.release hi (hgoes hdemand (.release side nonce next))
  next time resumed hdemand =>
    split
    next hnow => exact h.goOn hi (hgoes hdemand (.pause time resumed hnow)) rfl
    next hnow =>
      refine h.wait hi hd fun time' b hat => ?_
      obtain ⟨rfl, rfl⟩ := Prod.mk.inj (Option.some.inj hat)
      refine ⟨Nat.le_of_not_le hnow, fun m hm => ⟨.resumed, ?_, rfl⟩⟩
      subst hm
      rw [hdemand]
      exact .pause m.now resumed (Nat.le_refl _)
  next side received hdemand => exact h.receive hi hd hs hdemand
  next child next hdemand =>
    have hstep := Ensemble.Step.turn (x := ⟨r.moment, .spawned⟩) ha
      (hgoes hdemand (.spawn child next)) trivial
    rw [show (turn a).started .spawned = [child] by rw [Turn.started, hdemand]; rfl] at hstep
    have hmirrors := (h.set hnot (.able next) h.shares rfl fun _ => rfl).append child
    exact .of_step hstep rfl (hmirrors.reflects rfl rfl rfl rfl)
  next event next hdemand =>
    have hshares : Shares { r.stage with metrics := r.stage.metrics.record event }
        (e.shared.after i (.counted event)) :=
      ⟨congrArg (·.record event) h.shares.metrics, h.shares.nonce, h.shares.free⟩
    have hmirrors := h.set hnot (.able next) hshares rfl fun _ => rfl
    exact .of_step (Ensemble.step_alone ha (hgoes hdemand (.count event next)) trivial nofun) rfl
      (hmirrors.reflects rfl rfl rfl rfl)
  next next hdemand =>
    have hjoining := h.stay hi (.joining (by rw [hplain a (by rw [hdemand]; rfl), hdemand]))
    have hself : (r.put i (.joining next)).activities[i]? = some (.joining next) := by
      simp [put, (List.getElem?_eq_some_iff.mp hi).1]
    dsimp only
    split
    next hidle => exact Mirrors.joined (r := r.put i (.joining next)) hjoining hself rfl hidle
    next => exact hjoining.reflects rfl rfl rfl rfl

/-- How an activity whose turn it is goes on: past its deadline, else stopped, else as its demand
is met. -/
theorem advance_eq (turn : α → Turn α) (r : Run α) (i : Nat) (a : α) :
    r.advance turn i a =
      match (turn a).overdue r.moment with
      | some late => r.goOn i late
      | none =>
        match (turn a).halted r.moment with
        | some stopped => r.goOn i stopped
        | none => r.meet i a (turn a) := by
  unfold advance Turn.overdue Turn.halted moment
  obtain ⟨d, deadline, cancelled, fair⟩ := turn a
  cases deadline with
  | none =>
    cases cancelled with
    | none => cases r.stopping <;> rfl
    | some stopped => cases r.stopping <;> rfl
  | some limit =>
    obtain ⟨time, late⟩ := limit
    by_cases ht : time ≤ r.stage.now
    · simp only [Option.bind_some, if_pos ht]
    · simp only [Option.bind_some, if_neg ht]
      cases cancelled with
      | none => cases r.stopping <;> rfl
      | some stopped => cases r.stopping <;> rfl

/-- The activity whose turn it is goes on as it can. -/
theorem Mirrors.advance (h : r.Mirrors turn e) (hplain : ∀ a, (turn a).WaitsPlainly)
    (hi : r.activities[i]? = some (.able a)) :
    Reflects turn e r.moment (r.advance turn i a) := by
  rw [advance_eq]
  split
  next late hlate => exact h.goOn hi (.late hlate) rfl
  next hd =>
    split
    next stopped hstopped => exact h.goOn hi (.cancelled hd hstopped) rfl
    next hs => exact h.meet hplain hi hd hs

/-! ## The clock -/

/-- What is to come at a time, once the rehearsal is there. -/
def reached? (r : Run α) (x : Option (Nat × α)) : Option α :=
  x.bind fun (time, a) => if time ≤ r.stage.now then some a else none

theorem reached?_eq_some {x : Option (Nat × α)} :
    r.reached? x = some a ↔ ∃ time, x = some (time, a) ∧ time ≤ r.stage.now := by
  constructor
  · intro h
    obtain ⟨⟨time, b⟩, rfl, hb⟩ := Option.bind_eq_some_iff.mp h
    obtain ⟨hle, hb⟩ := Option.ite_none_right_eq_some.mp hb
    obtain rfl := Option.some.inj hb
    exact ⟨time, rfl, hle⟩
  · intro ⟨time, hx, hle⟩
    rw [reached?, hx, Option.bind_some]
    exact if_pos hle

/-- A wait is due for its deadline, then for the stop, then for its time. -/
theorem due_waiting {at? deadline : Option (Nat × α)} {cancelled : Option α} {place : Nat} :
    r.due (.waiting at? deadline cancelled place) =
      (((r.reached? deadline).or (if r.stopping then cancelled else none)).or
        (r.reached? at?)).map fun a => (place, a) := by
  have horElse : ∀ o o' : Option α, (o <|> o') = o.or o' := fun _ _ => Option.orElse_eq_or
  simp only [due, horElse]
  cases at? <;> cases deadline <;> rfl

/-- The rehearsal at a time, told to stop if it is time for that. -/
def clocked (r : Run α) (time : Nat) : Run α :=
  let r := { r with stage := { r.stage with now := time } }
  match r.plan with
  | some (t, told) =>
    if t ≤ time then { r with plan := none, told := r.told || told, stopping := true } else r
  | none => r

/-- The activities that are let go on at the present time, with their places and as what. -/
def released (r : Run α) : List (Nat × Nat × α) :=
  (List.range r.activities.length).filterMap fun i =>
    match r.activities[i]?.bind r.due with
    | some (place, a) => some (place, i, a)
    | none => none

/-- Lets an activity go on. -/
def letGo (r : Run α) (x : Nat × Nat × α) : Run α :=
  { r.put x.2.1 (.able x.2.2) with able := r.able ++ [x.2.1] }

theorem moveTo_eq (r : Run α) (time : Nat) :
    r.moveTo time =
      ((r.clocked time).released.mergeSort fun a b => a.1 ≤ b.1).foldl letGo (r.clocked time) := rfl

/-- The times at which anything happens next. -/
def prospects (r : Run α) : List Nat := r.activities.flatMap times ++ (r.plan.map (·.1)).toList

/-- Whoever waits still does when the clock has moved, but not past its time. -/
theorem standsFor_later {now now' : Nat} {s : Standing α} (h : StandsFor turn now s a)
    (hmin : ∀ t ∈ times s, now' ≤ t) : StandsFor turn now' s a := by
  cases h with
  | able => exact .able a
  | @waiting _ at? place hat hdeadline =>
    refine .waiting (fun time b hb => ⟨hmin time ?_, (hat time b hb).2⟩)
      fun limit late hlimit => hmin limit ?_
    · simp [times, hb]
    · simp [times, hlimit]
  | queueing h => exact .queueing h
  | joining h => exact .joining h
  | ended h => exact .ended h

/-- The clock does not go back. -/
theorem Mirrors.now_le (h : r.Mirrors turn e) {time : Nat} (htime : time ∈ r.prospects) :
    r.stage.now ≤ time := by
  rcases List.mem_append.mp htime with hmem | hmem
  · obtain ⟨s, hs, htime⟩ := List.mem_flatMap.mp hmem
    obtain ⟨i, hi⟩ := List.getElem?_of_mem hs
    obtain ⟨a, -, hstands⟩ := h.exists_activity hi
    cases hstands with
    | waiting hat hdeadline =>
      rcases List.mem_append.mp htime with hmem | hmem
      · obtain ⟨⟨t, b⟩, ht, rfl⟩ := Option.map_eq_some_iff.mp (Option.mem_toList.mp hmem)
        exact (hat t b ht).1
      · obtain ⟨⟨t, b⟩, ht, rfl⟩ := Option.map_eq_some_iff.mp (Option.mem_toList.mp hmem)
        exact hdeadline t b ht
    | _ => cases htime
  · obtain ⟨⟨t, told⟩, ht, rfl⟩ := Option.map_eq_some_iff.mp (Option.mem_toList.mp hmem)
    exact h.planned t told ht

/-- The clock moves; in the ensemble nothing happens. -/
theorem Mirrors.clocked (h : r.Mirrors turn e) {time : Nat} (hmin : ∀ t ∈ r.prospects, time ≤ t) :
    (r.clocked time).Mirrors turn e := by
  have hmoved : ({ r with stage := { r.stage with now := time } } : Run α).Mirrors turn e := by
    refine ⟨h.length, fun i s a hi ha => ?_, ⟨h.shares.metrics, h.shares.nonce, h.shares.free⟩,
      h.nodup, h.queued, fun t told ht => hmin t ?_⟩
    · refine standsFor_later (h.stands i s a hi ha) fun t ht => hmin t ?_
      exact List.mem_append_left _ (List.mem_flatMap.mpr ⟨s, List.mem_of_getElem? hi, ht⟩)
    · exact List.mem_append_right _ (by simp [show r.plan = some (t, told) from ht])
  unfold Run.clocked
  dsimp only
  split
  next =>
    split
    next =>
      exact ⟨hmoved.length, hmoved.stands, hmoved.shares, hmoved.nodup, hmoved.queued, nofun⟩
    next => exact hmoved
  next => exact hmoved

/-- Setting the clock on moves to a later moment. -/
theorem before_clocked {time : Nat} (h : r.stage.now ≤ time) :
    r.moment.Before (r.clocked time).moment := by
  unfold Run.clocked
  dsimp only
  split
  next =>
    split
    next => exact ⟨h, fun ht => by simp_all [moment], fun _ => rfl⟩
    next => exact ⟨h, id, id⟩
  next => exact ⟨h, id, id⟩

/-- Whoever is let go on takes a turn that it can take at that time. -/
theorem goes_of_due {s : Standing α} {place : Nat} (h : StandsFor turn r.stage.now s a)
    (hdue : r.due s = some (place, b)) :
    ∃ c, (turn a).Goes r.moment c b ∧ c.isPrivate = true := by
  cases h with
  | waiting hat hdeadline =>
    rw [due_waiting] at hdue
    obtain ⟨b', hb, heq⟩ := Option.map_eq_some_iff.mp hdue
    obtain ⟨-, rfl⟩ := Prod.mk.inj heq
    rcases Option.or_eq_some_iff.mp hb with hb | ⟨hnone, hb⟩
    · rcases Option.or_eq_some_iff.mp hb with hlate | ⟨hd, hstopped⟩
      · exact ⟨_, .late hlate, rfl⟩
      · exact ⟨_, .cancelled hd hstopped, rfl⟩
    · obtain ⟨hd, hs⟩ := Option.or_eq_none_iff.mp hnone
      obtain ⟨time, htime, hle⟩ := reached?_eq_some.mp hb
      obtain ⟨hge, hmet⟩ := hat time b' htime
      obtain ⟨c, hmet, hc⟩ := hmet r.moment (Nat.le_antisymm hge hle)
      exact ⟨c, .met hd (.inr hs) hmet, hc⟩
  | _ => cases hdue

/-- What is released was due. -/
theorem mem_released {x : Nat × Nat × α} (h : x ∈ r.released) :
    ∃ s, r.activities[x.2.1]? = some s ∧ r.due s = some (x.1, x.2.2) := by
  obtain ⟨i, -, hi⟩ := List.mem_filterMap.mp h
  split at hi
  next place b hdue =>
    obtain rfl := Option.some.inj hi
    exact Option.bind_eq_some_iff.mp hdue
  next => cases hi

/-- Nobody is let go on twice. -/
theorem nodup_released (r : Run α) : (r.released.map (·.2.1)).Nodup := by
  rw [released, List.map_filterMap]
  refine List.nodup_range.filterMap fun i j k hi hj => ?_
  have hindex {i : Nat} (hi : k ∈ Option.map (·.2.1)
      (match r.activities[i]?.bind r.due with
        | some (place, a) => some (place, i, a)
        | none => none)) : i = k := by
    split at hi
    next => exact Option.some.inj hi
    next => cases hi
  exact (hindex hi).trans (hindex hj).symm

/-- Those whose time has come are let go on, one after the other. -/
theorem Mirrors.letGo {found : List (Nat × Nat × α)} (h : r.Mirrors turn e)
    (hfound : ∀ x ∈ found, ∃ s, r.activities[x.2.1]? = some s ∧ r.due s = some (x.1, x.2.2))
    (hnodup : (found.map (·.2.1)).Nodup) : Reflects turn e r.moment (found.foldl Run.letGo r) := by
  induction found generalizing r e with
  | nil => exact h.reflects rfl rfl rfl rfl
  | cons x found ih =>
    obtain ⟨⟨s, hs, hdue⟩, hfound⟩ := List.forall_mem_cons.mp hfound
    obtain ⟨hx, hnodup⟩ := List.nodup_cons.mp hnodup
    obtain ⟨a, ha, hstands⟩ := h.exists_activity hs
    obtain ⟨c, hgoes, hc⟩ := goes_of_due hstands hdue
    have hnot := h.not_queued hs fun acquired heq => by
      rw [heq] at hdue
      cases hdue
    refine .of_step (Ensemble.step_private ha hgoes hc) rfl (ih ?_ ?_ hnodup)
    · exact (h.set hnot (.able x.2.2) h.shares rfl fun _ => rfl).congr rfl rfl rfl
    · intro y hy
      obtain ⟨s', hs', hdue'⟩ := hfound y hy
      have hxy : x.2.1 ≠ y.2.1 := fun heq => hx (List.mem_map.mpr ⟨y, hy, heq.symm⟩)
      exact ⟨s', (List.getElem?_set_ne hxy).trans hs', hdue'⟩

/-- **The clock moves on**, and at that time everybody is let go on whose time it is. -/
theorem Mirrors.moveTo {time : Nat} (h : r.Mirrors turn e) (htime : r.prospects.min? = some time) :
    r.moment.Before (r.moveTo time).moment ∧
      Reflects turn e (r.moveTo time).moment (r.moveTo time) := by
  obtain ⟨hmem, hmin⟩ := List.min?_eq_some_iff.mp htime
  have hclocked := h.clocked hmin
  have hreflects : Reflects turn e (r.clocked time).moment (r.moveTo time) := by
    rw [moveTo_eq]
    exact hclocked.letGo (fun x hx => mem_released (List.mem_mergeSort.mp hx))
      (((List.mergeSort_perm _ _).map _).nodup_iff.mpr (nodup_released _))
  have hmoment : (r.moveTo time).moment = (r.clocked time).moment := by
    obtain ⟨_, _, _, _, hmoment, _⟩ := hreflects
    exact hmoment
  rw [hmoment]
  exact ⟨before_clocked (h.now_le hmem), hreflects⟩

/-! ## All steps -/

/-- **A step of a rehearsal is followed in an ensemble**, at the moment to which it leads. -/
theorem Mirrors.step (h : r.Mirrors turn e) (hplain : ∀ a, (turn a).WaitsPlainly)
    (hstep : r.step turn = some r') :
    r.moment.Before r'.moment ∧ Reflects turn e r'.moment r' := by
  have hstill (hreflects : Reflects turn e r.moment r') :
      r.moment.Before r'.moment ∧ Reflects turn e r'.moment r' := by
    obtain ⟨_, _, _, _, hmoment, _⟩ := id hreflects
    rw [hmoment]
    exact ⟨.refl _, hreflects⟩
  unfold Run.step at hstep
  split at hstep
  next j rest _ =>
    split at hstep
    next a ha =>
      obtain rfl := Option.some.inj hstep
      exact hstill (h.advance hplain ha)
    next =>
      obtain rfl := Option.some.inj hstep
      exact hstill (h.reflects rfl rfl rfl rfl)
  next =>
    split at hstep
    next => cases hstep
    next =>
      split at hstep
      next => cases hstep
      next time htime =>
        obtain rfl := Option.some.inj hstep
        exact h.moveTo htime

/-- However many steps a rehearsal takes, what happened in the ensemble is in the order of time and
between the moments of its beginning and its end. -/
theorem Mirrors.steps (h : r.Mirrors turn e) (hplain : ∀ a, (turn a).WaitsPlainly) (n : Nat) :
    ∃ hs e', Ensemble.Run turn e hs e' ∧ (r.steps turn n).Mirrors turn e' ∧
      Ensemble.InOrder hs ∧ r.moment.Before (r.steps turn n).moment ∧
      ∀ x ∈ hs, r.moment.Before x.2.moment ∧ x.2.moment.Before (r.steps turn n).moment := by
  induction n generalizing r e with
  | zero => exact ⟨[], e, .here, h, .nil, .refl _, by simp⟩
  | succ n ih =>
    rw [Run.steps]
    split
    next => exact ⟨[], e, .here, h, .nil, .refl _, by simp⟩
    next r' hstep =>
      obtain ⟨hbefore, hs, e₁, hrun, hmirrors, -, hall⟩ := h.step hplain hstep
      obtain ⟨hs', e', hrun', hmirrors', horder, hend, hbetween⟩ := ih hmirrors
      refine ⟨hs ++ hs', e', hrun.append hrun', hmirrors', List.pairwise_append.mpr ⟨?_, horder,
        fun x hx y hy => hall x hx ▸ (hbetween y hy).1⟩, hbefore.trans hend, fun x hx => ?_⟩
      · refine List.pairwise_of_forall_mem_list fun x hx y hy => ?_
        rw [hall x hx, hall y hy]
        exact .refl _
      · rcases List.mem_append.mp hx with hx | hx
        · rw [hall x hx]
          exact ⟨hbefore, hend⟩
        · exact ⟨hbefore.trans (hbetween x hx).1, (hbetween x hx).2⟩

/-- A rehearsal begins where an ensemble does. -/
theorem mirrors_start {stage : Stage} (stop : Stop) (hfree : stage.IsFree) :
    (start stage stop given).Mirrors turn
      (.start given (fun side => (stage.permit side).nonce) stage.metrics) where
  length := List.length_map _
  stands i s a hi ha := by
    obtain ⟨b, hb, rfl⟩ := List.getElem?_map .. ▸ hi |> Option.map_eq_some_iff.mp
    obtain rfl := Option.some.inj (hb.symm.trans ha)
    exact .able b
  shares := ⟨rfl, fun _ => rfl, fun side => iff_of_true (hfree side).1 rfl⟩
  nodup side := by
    rw [show ((start stage stop given).stage.permit side).queue = [] from (hfree side).2]
    exact .nil
  queued side j hj := by
    rw [show ((start stage stop given).stage.permit side).queue = [] from (hfree side).2] at hj
    cases hj
  planned time told hplan := by
    cases stop with
    | toldAfter ms | desertedAfter ms =>
      obtain ⟨rfl, -⟩ := Prod.mk.inj (Option.some.inj hplan)
      exact Nat.le_add_right _ _
    | _ => cases hplan

/-- The endings of the stage are activities, in their order. -/
theorem Mirrors.sublist_endings (h : r.Mirrors turn e) : r.endings.Sublist e.activities := by
  have hforall : List.Forall₂ (StandsFor turn r.stage.now) r.activities e.activities :=
    List.forall₂_iff_get.mpr ⟨h.length, fun i hi hi' =>
      h.stands i _ _ (List.getElem?_eq_getElem hi) (List.getElem?_eq_getElem hi')⟩
  unfold endings
  generalize r.activities = standings at hforall
  generalize e.activities = activities at hforall
  induction hforall with
  | nil => exact .slnil
  | @cons s a _ _ hstands _ ih =>
    cases hstands with
    | ended _ => exact ih.cons_cons _
    | _ => exact ih.cons _

/-- **A rehearsal is where an ensemble comes to** from the same start. -/
theorem finished_mirrors (hplain : ∀ a, (turn a).WaitsPlainly) {stage : Stage}
    (hfree : stage.IsFree) (stop : Stop) (given : List α) :
    ∃ hs e, Ensemble.Run turn
        (.start given (fun side => (stage.permit side).nonce) stage.metrics) hs e ∧
      ((start stage stop given).finished turn).Mirrors turn e ∧ Ensemble.InOrder hs ∧
      ∀ x ∈ hs, x.2.moment.Before ((start stage stop given).finished turn).moment := by
  obtain ⟨hs, e, hrun, hmirrors, horder, -, hbetween⟩ :=
    (mirrors_start stop hfree).steps hplain maxSteps
  exact ⟨hs, e, hrun, hmirrors, horder, fun x hx => (hbetween x hx).2⟩

/-- What has ended wants nothing. -/
theorem Mirrors.of_mem_endings (h : r.Mirrors turn e) (ha : a ∈ r.endings) :
    (turn a).demand = .nothing := by
  obtain ⟨s, hs, hended⟩ := List.mem_filterMap.mp ha
  obtain ⟨i, hi⟩ := List.getElem?_of_mem hs
  obtain ⟨b, -, hstands⟩ := h.exists_activity hi
  cases hstands with
  | ended hn =>
    obtain rfl := Option.some.inj hended
    exact hn
  | _ => cases hended

end Run

/-- **A rehearsal is a run**: what becomes of the activities, of the nonces and of the counts comes
about in steps of an ensemble that follow each other in the order of time. -/
theorem rehearse_run (hplain : ∀ a, (turn a).WaitsPlainly) {stage : Stage} (hfree : stage.IsFree)
    (stop : Stop) (given : List α) :
    ∃ hs e, Ensemble.Run turn
        (.start given (fun side => (stage.permit side).nonce) stage.metrics) hs e ∧
      Ensemble.InOrder hs ∧ Shares (rehearse turn stage stop given).1 e.shared ∧
      (rehearse turn stage stop given).2.Sublist e.activities ∧
      ∀ a ∈ (rehearse turn stage stop given).2, (turn a).demand = .nothing := by
  obtain ⟨hs, e, hrun, hmirrors, horder, -⟩ := Run.finished_mirrors hplain hfree stop given
  exact ⟨hs, e, hrun, horder, hmirrors.shares, hmirrors.sublist_endings,
    fun a ha => hmirrors.of_mem_endings ha⟩

/-- **Activities that never have the right to send leave the stage free.** -/
theorem isFree_of_rehearse (hplain : ∀ a, (turn a).WaitsPlainly)
    (hholding : Ensemble.Holding turn fun _ => none) {stage : Stage} (hfree : stage.IsFree)
    (stop : Stop) (given : List α) : (rehearse turn stage stop given).1.IsFree := by
  obtain ⟨hs, e, hrun, hmirrors, -, -⟩ := Run.finished_mirrors hplain hfree stop given
  have hstart : Ensemble.Orderly (fun _ : α => none)
      (.start given (fun side => (stage.permit side).nonce) stage.metrics) := by
    intro side i
    simp [Ensemble.start]
  have horderly := hrun.orderly hholding hstart
  intro side
  have hnobody : e.shared.holder side = none := by
    by_contra hne
    obtain ⟨i, hi⟩ := Option.ne_none_iff_exists'.mp hne
    have hheld := (horderly side i).mp hi
    simp at hheld
  refine ⟨(hmirrors.shares.free side).mpr hnobody,
    List.eq_nil_iff_forall_not_mem.mpr fun j hj => ?_⟩
  obtain ⟨a, acquired, -, -, hturn⟩ := hmirrors.queued side j hj
  -- One that queues would get the right.
  have hgoes : (turn a).Goes .zero (.acquired side none) (acquired none) := by
    rw [hturn, Turn.goes_plain]
    exact .acquire side acquired none
  obtain ⟨-, hnone⟩ := hholding.passes a _ ⟨.zero, .acquired side none⟩ hgoes
  cases hnone

/-- **A rehearsal brings activities to their ends along paths.** -/
theorem rehearse_path_given (hplain : ∀ a, (turn a).WaitsPlainly) {stage : Stage}
    (hfree : stage.IsFree) {stop : Stop} {a : α} (hnever : ∀ a, (turn a).demand.isSpawn = false)
    (h : a ∈ (rehearse turn stage stop given).2) :
    (turn a).demand = .nothing ∧ ∃ o ∈ given, ∃ hs, Path turn o hs a := by
  obtain ⟨hs, e, hrun, -, -, hsublist, hends⟩ := rehearse_run hplain hfree stop given
  have hnobody (b c : α) (x : Happening) (_ : (turn b).Goes x.moment x.cause c) :
      ∀ child ∈ (turn b).started x.cause, child ∈ given := by
    intro child hchild
    have hspawn := hnever b
    unfold Turn.started at hchild
    split at hchild
    next =>
      cases hdemand : (turn b).demand with
      | spawn => rw [hdemand] at hspawn; cases hspawn
      | _ => rw [hdemand] at hchild; cases hchild
    next => cases hchild
  obtain ⟨i, hi⟩ := List.getElem?_of_mem (hsublist.subset h)
  obtain ⟨o, ho, hpath⟩ := (hrun.path_from (fun b hb => hb) hnobody).1 i a hi
  exact ⟨hends a h, o, ho, _, hpath⟩

end EventRelay.Rehearsal
