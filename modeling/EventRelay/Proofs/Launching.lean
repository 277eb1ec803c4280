import EventRelay.Launch
import EventRelay.Proofs.Tasks

/-!
# Launches are runs of the relay

A launch that gets to the relay lets it follow on a stage on which nobody has the right to send:
the assembly asks the nodes for their chains and for nothing else. So what a launch comes to is
what a run of the relay comes to, and what is so of all runs is so of it.

Main statements:

* `launch_eq_ok`: a launch that is not over before ends as the relay that was assembled does;
* `gaveUp_of_failed`: one that then fails was told by nobody to stop, and its relay gave up.
-/

namespace EventRelay.Launch

open CommandLine (Arguments)
open Rehearsal (Node Stage rehearse)
open Relay (Assembly RelayError Task)

variable {α β : Type} {d d' : Diary} {c : Config} {env : Environment} {files : FileTree}

/-! ## Parts -/

/-- Two parts are not over where neither is. -/
theorem bind_eq_ok {p : Part α} {f : α → Part β} {b : β}
    (h : (p >>= f).run.run d = (.ok b, d')) :
    ∃ a d₁, p.run.run d = (.ok a, d₁) ∧ (f a).run.run d₁ = (.ok b, d') := by
  rw [ExceptT.run_bind, StateT.run_bind] at h
  generalize hp : p.run.run d = answer at h
  obtain ⟨result, d₁⟩ := answer
  cases result with
  | ok a => exact ⟨a, d₁, rfl, h⟩
  | error o => cases h

theorem pure_eq_ok {a b : α} (h : (pure a : Part α).run.run d = (.ok b, d')) : a = b := by
  cases h
  rfl

theorem not_throw_eq_ok {o : Outcome} {b : β} :
    (throw o : Part β).run.run d ≠ (.ok b, d') := by
  intro h
  cases h

/-- Who fails is over. -/
theorem not_fail_eq_ok {complaints : List Journal.Record} {causes : List String} {b : β} :
    (fail complaints causes : Part β).run.run d ≠ (.ok b, d') := by
  intro h
  obtain ⟨-, d₁, -, h⟩ := bind_eq_ok h
  exact not_throw_eq_ok h

/-! ## The assembly -/

/-- An assembly asks for nothing but the chains of the nodes. -/
theorem assembly_turn (c : Config) (env : Environment) (files : FileTree) (a : Assembly) :
    Assembly.turn c env files a = .plain .nothing ∨
      ∃ side answered, Assembly.turn c env files a = .plain (.ask side .chainId answered) := by
  cases a with
  | first p => exact .inr ⟨_, _, rfl⟩
  | second pub registry p => exact .inr ⟨_, _, rfl⟩
  | done result => exact .inl rfl

/-- An assembly never waits for a time to come. -/
theorem assembly_waitsPlainly (a : Assembly) : (Assembly.turn c env files a).WaitsPlainly := by
  rcases assembly_turn c env files a with h | ⟨side, answered, h⟩
  · rw [h]
    exact Turn.waitsPlainly_plain _
  · rw [h]
    exact Turn.waitsPlainly_plain _

/-- An assembly never has the right to send. -/
theorem assembly_holding (c : Config) (env : Environment) (files : FileTree) :
    Ensemble.Holding (Assembly.turn c env files) fun _ => none := by
  have hcause (a b : Assembly) (x : Happening)
      (h : (Assembly.turn c env files a).Goes x.moment x.cause b) :
      ∃ side reply, x.cause = .answered side .chainId reply := by
    rcases assembly_turn c env files a with ha | ⟨side, answered, ha⟩
    · rw [ha] at h
      exact absurd h not_goes_nothing
    · rw [ha, Turn.goes_plain] at h
      generalize x.cause = cause at h
      cases h with
      | ask _ _ _ reply => exact ⟨side, reply, rfl⟩
  refine ⟨fun a b x h => ?_, fun a b x h child hchild => ?_, fun _ _ h => by cases h⟩
  · obtain ⟨side, reply, hx⟩ := hcause a b x h
    rw [hx]
    exact rfl
  · obtain ⟨side, reply, hx⟩ := hcause a b x h
    rw [hx] at hchild

/-- **An assembled relay has a free stage.** -/
theorem assemble_eq_ok {pub priv : Node} {r : Relay} {stage : Stage}
    (h : (assemble c env files pub priv).run.run d = (.ok (r, stage), d')) : stage.IsFree ∧
      ∃ before, rehearse (Assembly.turn c env files) before .never [Assembly.start c env files] =
        (stage, [.done (.ok r)]) := by
  unfold assemble at h
  obtain ⟨diary, d₁, -, h⟩ := bind_eq_ok h
  dsimp only at h
  generalize hbefore : ({ Stage.opening pub priv with now := diary.now } : Stage) = before at h
  have hfree : before.IsFree := hbefore ▸ Stage.isFree_opening pub priv
  have hafter := Rehearsal.isFree_of_rehearse assembly_waitsPlainly
    (assembly_holding c env files) hfree .never [Assembly.start c env files]
  generalize hbuilt : rehearse (Assembly.turn c env files) before .never
    [Assembly.start c env files] = answer at h hafter
  obtain ⟨after, built⟩ := answer
  obtain ⟨-, d₂, -, h⟩ := bind_eq_ok h
  obtain ⟨-, d₃, -, h⟩ := bind_eq_ok h
  dsimp only at h
  split at h
  next r' =>
    obtain ⟨-, d₄, -, h⟩ := bind_eq_ok h
    obtain ⟨rfl, rfl⟩ := Prod.mk.inj (pure_eq_ok h)
    exact ⟨hafter, before, hbuilt⟩
  next => exact absurd h not_fail_eq_ok
  next => exact absurd h not_throw_eq_ok

/-! ## The relay -/

/-- **A relay gives up before anyone tells it to stop**, where it is the reason that a launch fails.
What it did until then is a run in the order of time. -/
theorem gaveUp_of_failed {r : Relay} {stage : Stage} {interrupt : Option Nat} {causes : List String}
    (hfree : stage.IsFree) (h : verdict (follow r stage interrupt) = .failed causes) :
    ∃ hs e last fromBlock error, Ensemble.Run (Task.turn r)
        (.start [.following (.start r)] (fun side => (stage.permit side).nonce) stage.metrics)
        hs e ∧
      Ensemble.InOrder hs ∧ (∀ x ∈ hs, x.2.moment.told = false) ∧
      e.activities[0]? = some (.following ⟨last, fromBlock, .done (.error error)⟩) ∧
      causes = ["relay stopped", error.message] := by
  obtain ⟨hs, e, hrun, hmirrors, horder, hbefore⟩ := Rehearsal.Run.finished_mirrors
    (Relay.Task.waitsPlainly r) hfree (stopAt interrupt) [Task.following (.start r)]
  change (follow r stage interrupt).Mirrors _ e at hmirrors
  change ∀ x ∈ hs, x.2.moment.Before (follow r stage interrupt).moment at hbefore
  unfold verdict at h
  split at h
  next => cases h
  next => cases h
  next error hresult =>
    split at h
    next => cases h
    next htold =>
      unfold result? at hresult
      split at hresult
      next last fromBlock result hended =>
        obtain rfl := Option.some.inj hresult
        rw [List.head?_eq_getElem?] at hended
        obtain ⟨t, ht, hstands⟩ := hmirrors.exists_activity hended
        cases hstands
        injection h with hcauses
        refine ⟨hs, e, last, fromBlock, error, hrun, horder, fun x hx => ?_, ht, hcauses.symm⟩
        exact Bool.eq_false_iff.mpr fun hx' => htold ((hbefore x hx).told hx')
      next => cases hresult

/-! ## The whole launch -/

/-- **A launch that is not over before ends as the relay does that was assembled**, from a
configuration that was loaded and on a stage on which nobody has the right to send. -/
theorem launch_eq_ok {network : Network} {interrupt : Option Nat} {a : Arguments} {o : Outcome}
    (h : (launch network interrupt a env files).run.run d = (.ok o, d')) :
    ∃ c r before stage, Config.load files (configPath env) = .ok c ∧
      rehearse (Assembly.turn c env files) before .never [Assembly.start c env files] =
        (stage, [.done (.ok r)]) ∧
      stage.IsFree ∧ o = verdict (follow r stage interrupt) := by
  unfold launch at h
  obtain ⟨c, d₁, hload, h⟩ := bind_eq_ok h
  obtain ⟨⟨r, stage⟩, d₂, hbootstrap, h⟩ := bind_eq_ok h
  obtain ⟨-, d₃, -, h⟩ := bind_eq_ok h
  have hconfig : Config.load files (configPath env) = .ok c := by
    unfold load at hload
    dsimp only at hload
    split at hload
    next => exact absurd hload not_fail_eq_ok
    next c' hc =>
      obtain ⟨-, d₄, -, hload⟩ := bind_eq_ok hload
      rw [hc, pure_eq_ok hload]
  unfold bootstrap at hbootstrap
  obtain ⟨pub, d₄, -, hbootstrap⟩ := bind_eq_ok hbootstrap
  obtain ⟨priv, d₅, -, hbootstrap⟩ := bind_eq_ok hbootstrap
  obtain ⟨hfree, before, hassembled⟩ := assemble_eq_ok hbootstrap
  refine ⟨c, r, before, stage, hconfig, hassembled, hfree, ?_⟩
  unfold serve at h
  obtain ⟨-, d₆, -, h⟩ := bind_eq_ok h
  dsimp only at h
  split at h
  next =>
    obtain ⟨-, d₇, -, h⟩ := bind_eq_ok h
    exact (pure_eq_ok h).symm
  next => exact (pure_eq_ok h).symm

end EventRelay.Launch
