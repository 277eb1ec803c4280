import EventRelay.Proofs.Rules
import EventRelay.Relay.Basic

/-!
# Which lists of rules are accepted

`Rule.Valid` says what a rule needs in the two contracts and `Rule.Fault` what is reported of one
that lacks it: the first thing that is not there, in the order event, fields, method, callback.
Rules are accepted one after the other, so that an error is that of the first rule which has a fault
of its own or is about the event of an earlier one.

Main statements:

* `Relay.topics_eq_of_perm`: the topics of the filter do not depend on the order of the rules;
* `Dispatch.accepted_or_first_fault`: when rules are accepted, what is then known of them, and
  which error there is otherwise.
-/

namespace EventRelay

open Abi (Registry Signature)

/-! ## Rules in order -/

/-- A callback of a rule for `event` answers an event of the private contract, takes its arguments
from the fields of that event, and calls a method of its own contract. -/
structure Callback.Valid (rs : Registries) (event : String) (c : Callback) : Prop where
  trigger : ∃ s, rs.priv.byName? (c.trigger event) = some s ∧ s.HasFields c.call.params
  method : (rs.side c.target).hasMethod c.call.method c.call.params.length = true

/-- A rule is about an event of the public contract, takes its arguments from the fields of that
event, and calls a method of the private contract. -/
structure Rule.Valid (rs : Registries) (r : Rule) : Prop where
  source : ∃ s, rs.pub.byName? r.event = some s ∧ s.HasFields r.call.params
  method : rs.priv.hasMethod r.call.method r.call.params.length = true
  callback : ∀ c, r.callback = some c → c.Valid rs r.event

/-- The first of some names that is not that of a field of the event. -/
def Abi.Signature.FirstMissing (s : Signature) (names : List String) (n : String) : Prop :=
  s.hasField n = false ∧ ∃ before after, names = before ++ n :: after ∧ s.HasFields before

/-- What is reported of a callback that is not in order. -/
inductive Callback.Fault (rs : Registries) (event : String) (c : Callback) : RuleError → Prop
  | trigger (h : rs.priv.byName? (c.trigger event) = none) :
      Fault rs event c (.unknownTrigger (c.trigger event))
  | field {s : Signature} {n : String} (hs : rs.priv.byName? (c.trigger event) = some s)
      (hn : s.FirstMissing c.call.params n) : Fault rs event c (.noField n s.text)
  | method {s : Signature} (hs : rs.priv.byName? (c.trigger event) = some s)
      (hf : s.HasFields c.call.params)
      (hm : (rs.side c.target).hasMethod c.call.method c.call.params.length = false) :
      Fault rs event c (.unknownCallbackMethod c.call.method c.call.params.length c.target)

/-- What is reported of a rule that is not in order. -/
inductive Rule.Fault (rs : Registries) (r : Rule) : RuleError → Prop
  | source (h : rs.pub.byName? r.event = none) : Fault rs r (.unknownSource r.event)
  | field {s : Signature} {n : String} (hs : rs.pub.byName? r.event = some s)
      (hn : s.FirstMissing r.call.params n) : Fault rs r (.noField n s.text)
  | method {s : Signature} (hs : rs.pub.byName? r.event = some s) (hf : s.HasFields r.call.params)
      (hm : rs.priv.hasMethod r.call.method r.call.params.length = false) :
      Fault rs r (.unknownMethod r.call.method r.call.params.length)
  | callback {s : Signature} {c : Callback} {e : RuleError} (hs : rs.pub.byName? r.event = some s)
      (hf : s.HasFields r.call.params)
      (hm : rs.priv.hasMethod r.call.method r.call.params.length = true)
      (hc : r.callback = some c) (he : c.Fault rs r.event e) : Fault rs r e

namespace Dispatch

variable {rs : Registries} {r : Rule} {rules : List Rule} {d : Dispatch} {e : RuleError}

/-- The error of a check of fields names the first of them that the event lacks. -/
theorem checkFields_eq_error {s : Signature} {names : List String} :
    checkFields s names = .error e ↔ ∃ n, s.FirstMissing names n ∧ e = .noField n s.text := by
  have hfind : ∀ n, names.find? (fun n => !s.hasField n) = some n ↔ s.FirstMissing names n := by
    intro n
    rw [List.find?_eq_some_iff_append, Signature.FirstMissing]
    simp only [Bool.not_eq_true', Bool.not_not, Signature.HasFields]
  unfold checkFields
  split
  next n hn =>
    constructor
    · intro h
      exact ⟨n, (hfind n).mp hn, (Except.error.inj h).symm⟩
    · intro h
      obtain ⟨m, hm, rfl⟩ := h
      obtain rfl := Option.some.inj (hn.symm.trans ((hfind m).mpr hm))
      rfl
  next hn =>
    constructor
    · intro h
      cases h
    · intro h
      obtain ⟨m, hm, -⟩ := h
      cases hn.symm.trans ((hfind m).mpr hm)

/-- A check of a callback fails with its fault: the events, then the fields, then the method. -/
theorem checkCallback_eq_error {event : String} {c : Callback} :
    checkCallback rs event c = .error e ↔ c.Fault rs event e := by
  unfold checkCallback
  dsimp only
  constructor
  · intro h
    split at h
    next hs =>
      obtain rfl := Except.error.inj h
      exact .trigger hs
    next s hs =>
      rcases bind_eq_error.mp h with h | ⟨_, hfields, h⟩
      · obtain ⟨n, hn, rfl⟩ := checkFields_eq_error.mp h
        exact .field hs hn
      · split at h
        next => cases h
        next hm =>
          obtain rfl := Except.error.inj h
          exact .method hs (checkFields_eq_ok.mp hfields) (Bool.eq_false_iff.mpr hm)
  · intro h
    cases h with
    | trigger hs => rw [hs]; rfl
    | field hs hn =>
      rw [hs]
      exact bind_eq_error.mpr (.inl (checkFields_eq_error.mpr ⟨_, hn, rfl⟩))
    | method hs hf hm =>
      rw [hs]
      refine bind_eq_error.mpr (.inr ⟨(), checkFields_eq_ok.mpr hf, ?_⟩)
      rw [if_neg (Bool.eq_false_iff.mp hm)]
      rfl

/-- A check of a callback passes for valid callbacks only. -/
theorem checkCallback_eq_ok_iff {event : String} {c : Callback} :
    checkCallback rs event c = .ok () ↔ c.Valid rs event := by
  rw [checkCallback_eq_ok]
  constructor
  · intro h
    exact ⟨h.1, h.2⟩
  · intro h
    exact ⟨h.trigger, h.method⟩

/-- **A check passes just the rules that are in order.** -/
theorem checkRule_eq_ok_iff : checkRule rs r = .ok () ↔ r.Valid rs := by
  rw [checkRule_eq_ok]
  simp only [checkCallback_eq_ok_iff]
  constructor
  · intro h
    exact ⟨h.1, h.2.1, h.2.2⟩
  · intro h
    exact ⟨h.source, h.method, h.callback⟩

/-- **A check reports the first fault of a rule.** -/
theorem checkRule_eq_error : checkRule rs r = .error e ↔ r.Fault rs e := by
  unfold checkRule
  dsimp only
  constructor
  · intro h
    split at h
    next hs =>
      obtain rfl := Except.error.inj h
      exact .source hs
    next s hs =>
      rcases bind_eq_error.mp h with h | ⟨_, hfields, h⟩
      · obtain ⟨n, hn, rfl⟩ := checkFields_eq_error.mp h
        exact .field hs hn
      · have hf := checkFields_eq_ok.mp hfields
        split at h
        next hm =>
          cases hc : r.callback with
          | none => rw [hc] at h; cases h
          | some c =>
            rw [hc] at h
            exact .callback hs hf hm hc (checkCallback_eq_error.mp h)
        next hm =>
          obtain rfl := Except.error.inj h
          exact .method hs hf (Bool.eq_false_iff.mpr hm)
  · intro h
    cases h with
    | source hs => rw [hs]; rfl
    | field hs hn =>
      rw [hs]
      exact bind_eq_error.mpr (.inl (checkFields_eq_error.mpr ⟨_, hn, rfl⟩))
    | method hs hf hm =>
      rw [hs]
      refine bind_eq_error.mpr (.inr ⟨(), checkFields_eq_ok.mpr hf, ?_⟩)
      rw [if_neg (Bool.eq_false_iff.mp hm)]
      rfl
    | callback hs hf hm hc he =>
      rw [hs]
      refine bind_eq_error.mpr (.inr ⟨(), checkFields_eq_ok.mpr hf, ?_⟩)
      rw [if_pos hm, hc]
      exact checkCallback_eq_error.mpr he

/-! ## Lists of rules -/

/-- A rule is refused for a fault of its own, else because there is one for its event. -/
theorem add_eq_error : add rs d r = .error e ↔
    r.Fault rs e ∨ r.Valid rs ∧ (d.rule? r.event).isSome = true ∧ e = .repeated r.event := by
  unfold add
  rw [bind_eq_error, checkRule_eq_error]
  refine or_congr_right ⟨fun h => ?_, fun h => ?_⟩
  · obtain ⟨_, hcheck, h⟩ := h
    split at h
    next hr => exact ⟨checkRule_eq_ok_iff.mp hcheck, hr, (Except.error.inj h).symm⟩
    next => cases h
  · obtain ⟨hvalid, hr, rfl⟩ := h
    refine ⟨(), checkRule_eq_ok_iff.mpr hvalid, ?_⟩
    rw [if_pos hr]
    rfl

/-- What goes wrong in a fold is what goes wrong at the first element that it does not get past. -/
theorem foldlM_eq_error {ε α β : Type} {f : β → α → Except ε β} {xs : List α} {b : β} {e : ε} :
    xs.foldlM f b = .error e ↔ ∃ before x after b',
      xs = before ++ x :: after ∧ before.foldlM f b = .ok b' ∧ f b' x = .error e := by
  induction xs generalizing b with
  | nil =>
    constructor
    · intro h
      cases h
    · intro h
      obtain ⟨before, x, after, _, hxs, -⟩ := h
      exact absurd hxs (by simp)
  | cons x xs ih =>
    rw [List.foldlM_cons, bind_eq_error]
    constructor
    · intro h
      rcases h with h | ⟨b₁, hx, h⟩
      · exact ⟨[], x, xs, b, rfl, rfl, h⟩
      · obtain ⟨before, y, after, b', rfl, hbefore, hy⟩ := ih.mp h
        refine ⟨x :: before, y, after, b', rfl, ?_, hy⟩
        rw [List.foldlM_cons]
        exact bind_eq_ok.mpr ⟨b₁, hx, hbefore⟩
    · intro h
      obtain ⟨before, y, after, b', hxs, hbefore, hy⟩ := h
      cases before with
      | nil =>
        obtain ⟨rfl, rfl⟩ := List.cons.inj hxs
        obtain rfl := Except.ok.inj hbefore
        exact .inl hy
      | cons z before =>
        obtain ⟨rfl, rfl⟩ := List.cons.inj hxs
        rw [List.foldlM_cons] at hbefore
        obtain ⟨b₁, hx, hbefore⟩ := bind_eq_ok.mp hbefore
        exact .inr ⟨b₁, hx, ih.mpr ⟨before, y, after, b', rfl, hbefore, hy⟩⟩

/-- What is reported of a list of rules: of the first rule that is not in order or repeats the event
of an earlier one, its own fault, else the repetition. -/
def FirstFault (rs : Registries) (rules : List Rule) (e : RuleError) : Prop :=
  ∃ before r after, rules = before ++ r :: after ∧
    (∀ s ∈ before, s.Valid rs) ∧ Distinct before ∧
    (r.Fault rs e ∨ r.Valid rs ∧ (∃ s ∈ before, s.event = r.event) ∧ e = .repeated r.event)

/-- A table is refused for the first fault of its rules, in the order of the rules. -/
theorem ofRules_eq_error : ofRules rs rules = .error e ↔ FirstFault rs rules e := by
  have hrule : ∀ (d : Dispatch) (event : String),
      (d.rule? event).isSome = true ↔ ∃ s ∈ d.rules, s.event = event := by
    intro d event
    simp [rule?]
  rw [ofRules, foldlM_eq_error]
  constructor
  · intro h
    obtain ⟨before, r, after, d, hrules, hbefore, hr⟩ := h
    obtain ⟨hd, hdistinct, hchecks⟩ := ofRules_eq_ok.mp hbefore
    rw [add_eq_error, hrule, hd] at hr
    have hvalid := fun s hs => checkRule_eq_ok_iff.mp (hchecks s hs)
    exact ⟨before, r, after, hrules, hvalid, hdistinct, hr⟩
  · intro h
    obtain ⟨before, r, after, hrules, hvalid, hdistinct, hr⟩ := h
    refine ⟨before, r, after, ⟨before⟩, hrules, ?_, ?_⟩
    · exact ofRules_eq_ok.mpr ⟨rfl, hdistinct, fun s hs => checkRule_eq_ok_iff.mpr (hvalid s hs)⟩
    · rw [add_eq_error, hrule]
      exact hr

/-- There is a table for just those rules that are valid and watch different events. -/
theorem exists_ofRules_iff :
    (∃ d, ofRules rs rules = .ok d) ↔ (∀ r ∈ rules, r.Valid rs) ∧ Distinct rules := by
  simp only [ofRules_eq_ok, checkRule_eq_ok_iff]
  constructor
  · intro h
    obtain ⟨d, -, hdistinct, hvalid⟩ := h
    exact ⟨hvalid, hdistinct⟩
  · intro h
    exact ⟨⟨rules⟩, rfl, h.2, h.1⟩

/-- The events of a table are those of its rules. -/
theorem mem_events {name : String} : name ∈ d.events ↔ ∃ r ∈ d.rules, r.event = name := by
  rw [events, List.mem_map]

/-- No event stands twice among the events of a table. -/
theorem nodup_events (h : Distinct d.rules) : d.events.Nodup := List.pairwise_map.mpr h

end Dispatch

namespace Relay

/-- The topics of a filter are in order. -/
theorem topics_sorted (r : Relay) : r.topics.Pairwise fun s t => s.toNat ≤ t.toNat := by
  have hsorted : r.topics.Pairwise fun s t => decide (s.toNat ≤ t.toNat) = true :=
    List.pairwise_mergeSort
      (fun a b c hab hbc => by
        simp only [decide_eq_true_eq] at *
        omega)
      (fun a b => by
        simp only [Bool.or_eq_true, decide_eq_true_eq]
        omega) _
  exact hsorted.imp of_decide_eq_true

/-- **The topics of a filter do not depend on the order of the rules**: they are sorted. -/
theorem topics_eq_of_perm {r r' : Relay} (h : r'.dispatch.rules.Perm r.dispatch.rules)
    (hpub : r'.registries.pub = r.registries.pub) : r'.topics = r.topics := by
  have hperm : r'.topics.Perm r.topics := by
    rw [topics, topics, hpub]
    exact (List.mergeSort_perm _ _).trans
      (((h.map _).filterMap _).trans (List.mergeSort_perm _ _).symm)
  exact hperm.eq_of_pairwise
    (fun a b _ _ hab hba => BitVec.eq_of_toNat_eq (Nat.le_antisymm hab hba))
    r'.topics_sorted r.topics_sorted

end Relay

namespace Dispatch

variable {rs : Registries} {rules : List Rule} {d : Dispatch} {e : RuleError}

/-- **Rules are accepted just when each is in order and no two are about one event.** Then there are
as many as were given, the events with a rule are those of the rules, each once, and the rule for an
event is the one that is about it; and the same rules in another order are accepted as well, with
the same rule for each event and the same filter. Otherwise the error is that of the first rule that
is not in order or repeats the event of an earlier one. -/
theorem accepted_or_first_fault (rs : Registries) (rules : List Rule) :
    ((∃ d, ofRules rs rules = .ok d) ↔ (∀ r ∈ rules, r.Valid rs) ∧ Distinct rules) ∧
    (∀ d, ofRules rs rules = .ok d →
      d.size = rules.length ∧
      d.events.Nodup ∧ (∀ name, name ∈ d.events ↔ ∃ r ∈ rules, r.event = name) ∧
      (∀ name r, d.rule? name = some r ↔ r ∈ rules ∧ r.event = name) ∧
      ∀ rules', rules'.Perm rules → ∃ d', ofRules rs rules' = .ok d' ∧
        (∀ name, d'.rule? name = d.rule? name) ∧
        ∀ (relay : Relay) (b : Option UInt64),
          { relay with registries := rs, dispatch := d' }.filter b =
            { relay with registries := rs, dispatch := d }.filter b) ∧
    ∀ e, ofRules rs rules = .error e ↔ FirstFault rs rules e := by
  refine ⟨exists_ofRules_iff, fun d hd => ?_, fun e => ofRules_eq_error⟩
  obtain ⟨hvalid, -⟩ := exists_ofRules_iff.mp ⟨d, hd⟩
  obtain ⟨rfl, hdistinct, -⟩ := ofRules_eq_ok.mp hd
  refine ⟨rfl, nodup_events hdistinct, fun name => mem_events,
    fun name r => rule?_eq_some_iff hdistinct, fun rules' hperm => ?_⟩
  have hdistinct' : Distinct rules' := hperm.symm.pairwise hdistinct fun h => h.symm
  obtain ⟨d', hd'⟩ : ∃ d', ofRules rs rules' = .ok d' :=
    exists_ofRules_iff.mpr ⟨fun r hr => hvalid r (hperm.mem_iff.mp hr), hdistinct'⟩
  obtain ⟨rfl, -, -⟩ := ofRules_eq_ok.mp hd'
  refine ⟨d', hd', fun name => ?_, fun relay b => ?_⟩
  · apply Option.ext
    intro r
    rw [rule?_eq_some_iff hdistinct', rule?_eq_some_iff hdistinct, hperm.mem_iff]
  · have htopics : { relay with registries := rs, dispatch := d' }.topics =
        { relay with registries := rs, dispatch := d }.topics := Relay.topics_eq_of_perm hperm rfl
    rw [Relay.filter, Relay.filter, htopics]

end Dispatch

end EventRelay
