import EventRelay.Dispatch
import EventRelay.Proofs.Registry

/-!
# What is known of accepted rules

`Dispatch.ofRules` accepts rules one after the other. `Dispatch.ofRules_eq_ok` says what that means
for all of them, `Dispatch.rule?_eq_some_iff` which rule an event then has, and
`Abi.Signature.project_eq_ok_iff` when the arguments of a call are there.
-/

namespace EventRelay

open Abi (Registry Signature DecodedLog)

/-- Each of the names is that of a field of the event. -/
def Abi.Signature.HasFields (s : Signature) (names : List String) : Prop :=
  ∀ n ∈ names, s.hasField n = true

instance {s : Abi.Signature} {names : List String} : Decidable (s.HasFields names) :=
  inferInstanceAs (Decidable (∀ n ∈ names, s.hasField n = true))

namespace Abi.DecodedLog

/-- A projection has a value for every name. -/
theorem length_project {d : DecodedLog} {names : List String} {args : List Abi.Value}
    (h : d.project names = .ok args) : args.length = names.length := by
  induction names generalizing args with
  | nil =>
    obtain rfl := Except.ok.inj h
    rfl
  | cons n names ih =>
    rw [project] at h
    split at h
    next => cases h
    next v _ =>
      obtain ⟨vs, hvs, h⟩ := bind_eq_ok.mp h
      obtain rfl := Except.ok.inj h
      rw [List.length_cons, List.length_cons, ih hvs]

/-- The arguments of a call are there when the log has a value for each of their names. -/
theorem project_eq_ok_iff {d : DecodedLog} {names : List String} :
    (∃ args, d.project names = .ok args) ↔ ∀ n ∈ names, (d.get? n).isSome = true := by
  induction names with
  | nil => exact ⟨fun _ n hn => absurd hn List.not_mem_nil, fun _ => ⟨[], rfl⟩⟩
  | cons n names ih =>
    rw [List.forall_mem_cons, ← ih]
    cases hn : d.get? n with
    | none =>
      constructor
      · intro h
        obtain ⟨args, h⟩ := h
        rw [project, hn] at h
        cases h
      · intro h
        obtain ⟨h, -⟩ := h
        cases h
    | some v =>
      constructor
      · intro h
        obtain ⟨args, h⟩ := h
        rw [project, hn] at h
        obtain ⟨vs, hvs, -⟩ := bind_eq_ok.mp h
        exact ⟨rfl, vs, hvs⟩
      · intro h
        obtain ⟨-, vs, hvs⟩ := h
        refine ⟨v :: vs, ?_⟩
        rw [project, hn, hvs]
        rfl

end Abi.DecodedLog

/-- **The arguments of a call are there when each of their names is a field of the event** that the
log was decoded by. -/
theorem Abi.Signature.project_eq_ok_iff {s : Signature} {log : Log} {d : DecodedLog}
    {names : List String} (h : s.decode log = .ok d) :
    (∃ args, d.project names = .ok args) ↔ s.HasFields names := by
  rw [DecodedLog.project_eq_ok_iff]
  simp only [get?_isSome h, HasFields]

namespace Dispatch

variable {rs : Registries} {rules : List Rule} {d d' : Dispatch}

/-- A check of fields passes when the event has them all. -/
theorem checkFields_eq_ok {s : Signature} {names : List String} :
    checkFields s names = .ok () ↔ s.HasFields names := by
  unfold checkFields Abi.Signature.HasFields
  split
  next n hn =>
    refine ⟨fun h => (by cases h), fun h => ?_⟩
    have hmem := List.mem_of_find?_eq_some hn
    have hnot := List.find?_some hn
    rw [h n hmem] at hnot
    cases hnot
  next hn =>
    refine ⟨fun _ n hmem => ?_, fun _ => rfl⟩
    simpa using List.find?_eq_none.mp hn n hmem

/-- A callback is accepted when it answers an event of the private contract, takes its arguments
from the fields of the one that the name stands for, and calls a method of its contract. -/
theorem checkCallback_eq_ok {event : String} {c : Callback} :
    checkCallback rs event c = .ok () ↔
      (∃ s, rs.priv.byName? (c.trigger event) = some s ∧ s.HasFields c.call.params) ∧
        (rs.side c.target).hasMethod c.call.method c.call.params.length = true := by
  unfold checkCallback
  dsimp only
  split
  next hs => exact ⟨fun h => (by cases h), fun ⟨⟨s, hs', _⟩, _⟩ => (by cases hs.symm.trans hs')⟩
  next s hs =>
    rw [bind_eq_ok]
    constructor
    · intro h
      obtain ⟨_, hfields, h⟩ := h
      split at h
      next hm => exact ⟨⟨s, hs, checkFields_eq_ok.mp hfields⟩, hm⟩
      next => cases h
    · intro h
      obtain ⟨⟨s', hs', hfields⟩, hm⟩ := h
      obtain rfl := Option.some.inj (hs.symm.trans hs')
      exact ⟨(), checkFields_eq_ok.mpr hfields, if_pos hm⟩

/-- A rule is accepted when it is about an event of the public contract, takes its arguments from
the fields of the one that the name stands for, and calls a method of the private contract. -/
theorem checkRule_eq_ok {r : Rule} :
    checkRule rs r = .ok () ↔
      (∃ s, rs.pub.byName? r.event = some s ∧ s.HasFields r.call.params) ∧
        rs.priv.hasMethod r.call.method r.call.params.length = true ∧
        ∀ c, r.callback = some c → checkCallback rs r.event c = .ok () := by
  unfold checkRule
  dsimp only
  split
  next hs => exact ⟨fun h => (by cases h), fun ⟨⟨s, hs', _⟩, _⟩ => (by cases hs.symm.trans hs')⟩
  next s hs =>
    rw [bind_eq_ok]
    constructor
    · intro h
      obtain ⟨_, hfields, h⟩ := h
      split at h
      next hm =>
        refine ⟨⟨s, hs, checkFields_eq_ok.mp hfields⟩, hm, fun c hc => ?_⟩
        rw [hc] at h
        exact h
      next => cases h
    · intro h
      obtain ⟨⟨s', hs', hfields⟩, hm, hcallback⟩ := h
      obtain rfl := Option.some.inj (hs.symm.trans hs')
      refine ⟨(), checkFields_eq_ok.mpr hfields, ?_⟩
      rw [if_pos hm]
      cases hc : r.callback with
      | none => rfl
      | some c => exact hcallback c hc

/-- A rule is added behind the others if it passes its check and its event is free. -/
theorem add_eq_ok {r : Rule} :
    add rs d r = .ok d' ↔
      checkRule rs r = .ok () ∧ d.rule? r.event = none ∧ d' = ⟨d.rules ++ [r]⟩ := by
  unfold add
  rw [bind_eq_ok]
  constructor
  · intro h
    obtain ⟨_, hcheck, h⟩ := h
    dsimp only at h
    split at h
    next => cases h
    next hnew =>
      obtain rfl := Except.ok.inj h
      exact ⟨hcheck, Option.not_isSome_iff_eq_none.mp hnew, rfl⟩
  · intro h
    obtain ⟨hcheck, hnew, rfl⟩ := h
    exact ⟨(), hcheck, if_neg (Option.not_isSome_iff_eq_none.mpr hnew)⟩

/-- No two rules are about one event. -/
def Distinct (rules : List Rule) : Prop := rules.Pairwise fun r s => r.event ≠ s.event

/-- A rule is about another event than all those before it when its own event has no rule yet. -/
theorem distinct_concat {r : Rule} :
    Distinct (d.rules ++ [r]) ↔ Distinct d.rules ∧ d.rule? r.event = none := by
  unfold Distinct rule?
  rw [List.pairwise_append, List.find?_eq_none]
  simp

/-- Rules are added in their order when each passes and their events differ. -/
theorem foldlM_add_eq_ok (hd : Distinct d.rules) :
    rules.foldlM (add rs) d = .ok d' ↔
      d'.rules = d.rules ++ rules ∧ Distinct (d.rules ++ rules) ∧
        ∀ r ∈ rules, checkRule rs r = .ok () := by
  induction rules generalizing d with
  | nil =>
    rw [List.append_nil]
    constructor
    · intro h
      obtain rfl := Except.ok.inj h
      exact ⟨rfl, hd, fun r hr => absurd hr List.not_mem_nil⟩
    · intro h
      obtain ⟨hrules, -, -⟩ := h
      exact congrArg Except.ok (congrArg Dispatch.mk hrules.symm)
  | cons r rules ih =>
    have hsplit : d.rules ++ r :: rules = (d.rules ++ [r]) ++ rules := by simp
    rw [List.foldlM_cons, bind_eq_ok, List.forall_mem_cons, hsplit]
    constructor
    · intro h
      obtain ⟨d₁, hadd, h⟩ := h
      obtain ⟨hcheck, hnew, rfl⟩ := add_eq_ok.mp hadd
      obtain ⟨hrules, hdistinct, hchecks⟩ := (ih (distinct_concat.mpr ⟨hd, hnew⟩)).mp h
      exact ⟨hrules, hdistinct, hcheck, hchecks⟩
    · intro h
      obtain ⟨hrules, hdistinct, hcheck, hchecks⟩ := h
      -- No rule before this one is about its event, for none of all of them is.
      have hfirst : Distinct (d.rules ++ [r]) := (List.pairwise_append.mp hdistinct).1
      exact ⟨⟨d.rules ++ [r]⟩, add_eq_ok.mpr ⟨hcheck, (distinct_concat.mp hfirst).2, rfl⟩,
        (ih hfirst).mpr ⟨hrules, hdistinct, hchecks⟩⟩

/-- **Rules are accepted when each is in order on its own and no two are about one event.** -/
theorem ofRules_eq_ok :
    ofRules rs rules = .ok d ↔
      d.rules = rules ∧ Distinct rules ∧ ∀ r ∈ rules, checkRule rs r = .ok () :=
  foldlM_add_eq_ok (d := ⟨[]⟩) List.Pairwise.nil

/-- The rule of an event is the one that watches it. -/
theorem rule?_eq_some_iff {r : Rule} {event : String} (h : Distinct d.rules) :
    d.rule? event = some r ↔ r ∈ d.rules ∧ r.event = event := by
  constructor
  · intro hr
    exact ⟨List.mem_of_find?_eq_some hr, by simpa using List.find?_some hr⟩
  · intro hr
    obtain ⟨hmem, rfl⟩ := hr
    exact find?_of_distinct h hmem

end Dispatch

end EventRelay
