import EventRelay.Proofs.Acceptance
import EventRelay.Proofs.Coverage
import EventRelay.Proofs.Names

/-!
# Which logs a node is asked for

The filter for the logs that have a rule takes the topic of one event for each rule, the one that
answers to the name. A log that arrives is matched by the event that its topic stands for, whichever
of the events with the name of a rule that is. This file says exactly when the two agree.

Main statements:

* `Relay.filter_selects`: what the filter selects, and when that is all that matches;
* `Relay.overloaded_not_selected`: a log that matches and is not selected.
-/

namespace EventRelay

open Abi (Registry Signature)

/-- What a filter selects: the logs of its contract whose first topic it has. -/
def LogFilter.Selects (f : LogFilter) (log : Log) : Prop :=
  log.address = f.address ∧ ∃ topic, log.topic0 = some topic ∧ topic ∈ f.topics

namespace Relay

variable {r : Relay} {pub priv : Abi.Interface} {rules : List Rule} {log : Log} {topic : Word}

/-- An attempt begins with a log whose event has the name of a rule. -/
theorem match?_isSome : (r.match? log).isSome = true ↔ log.address = r.pub.contract ∧
    ∃ s rule, log.topic0.bind r.registries.pub.resolve? = some s ∧
      r.dispatch.rule? s.name = some rule := by
  constructor
  · intro h
    obtain ⟨state, h⟩ := Option.isSome_iff_exists.mp h
    obtain ⟨_, hguard, h⟩ := Option.bind_eq_some_iff.mp h
    obtain ⟨s, hs, h⟩ := Option.bind_eq_some_iff.mp h
    obtain ⟨rule, hrule, -⟩ := Option.bind_eq_some_iff.mp h
    exact ⟨guard_eq_some.mp hguard, s, rule, hs, hrule⟩
  · intro h
    obtain ⟨ha, s, rule, hs, hrule⟩ := h
    have hguard : (guard (log.address = r.pub.contract) : Option Unit) = some () :=
      guard_eq_some.mpr ha
    cases hd : s.decode log with
    | ok d => exact Option.isSome_iff_exists.mpr ⟨_, match?_eq_matched.mpr ⟨ha, s, hs, hrule, hd⟩⟩
    | error e =>
      have hstate : r.match? log = some (.decodeFailed (.decode e)) := by
        refine Option.bind_eq_some_iff.mpr ⟨(), hguard, ?_⟩
        refine Option.bind_eq_some_iff.mpr ⟨s, hs, ?_⟩
        refine Option.bind_eq_some_iff.mpr ⟨rule, hrule, ?_⟩
        rw [hd]
      rw [hstate, Option.isSome_some]

namespace Accepted

/-- The topics of the filter are those of the events that answer to the names of the rules. -/
theorem mem_topics (h : Accepted r pub priv rules) : topic ∈ r.topics ↔
    ∃ rule ∈ rules, ∃ s, r.registries.pub.byName? rule.event = some s ∧ s.topic = topic := by
  rw [topics, List.mem_mergeSort, List.mem_filterMap]
  simp only [Dispatch.events, List.mem_map, Option.map_eq_some_iff,
    (Dispatch.ofRules_eq_ok.mp h.rules).1]
  constructor
  · intro h
    obtain ⟨_, ⟨rule, hr, rfl⟩, s, hs, ht⟩ := h
    exact ⟨rule, hr, s, hs, ht⟩
  · intro h
    obtain ⟨rule, hr, s, hs, ht⟩ := h
    exact ⟨_, ⟨rule, hr, rfl⟩, s, hs, ht⟩

/-- The event that answers to a name has that name and is found by its topic. -/
theorem resolve_byName (h : Accepted r pub priv rules) (hclear : pub.Clear) {name : String}
    {s : Signature} (hs : r.registries.pub.byName? name = some s) :
    s.name = name ∧ r.registries.pub.resolve? s.topic = some s := by
  rw [h.registries] at hs ⊢
  obtain ⟨_, -, hresolve⟩ := Option.bind_eq_some_iff.mp hs
  exact ⟨Registry.name_of_byName? hclear hs,
    Registry.resolve?_of_mem (Registry.mem_of_resolve? hresolve).1⟩

/-- **The filter selects the logs that match and whose event is the one that answers to its
name.** -/
theorem selects_iff (h : Accepted r pub priv rules) (hclear : pub.Clear) (b : Option UInt64) :
    (r.filter b).Selects log ↔ (r.match? log).isSome = true ∧
      ∃ s, log.topic0.bind r.registries.pub.resolve? = some s ∧
        r.registries.pub.byName? s.name = some s := by
  rw [match?_isSome]
  constructor
  · intro hselects
    obtain ⟨ha, topic, htopic, hmem⟩ := hselects
    obtain ⟨rule, hr, s, hs, rfl⟩ := h.mem_topics.mp hmem
    obtain ⟨hname, hresolve⟩ := h.resolve_byName hclear hs
    have hevent : log.topic0.bind r.registries.pub.resolve? = some s := by
      rw [htopic]
      exact hresolve
    exact ⟨⟨ha, s, rule, hevent, h.rule?_iff.mpr ⟨hr, hname.symm⟩⟩, s, hevent, hname ▸ hs⟩
  · intro h'
    obtain ⟨⟨ha, s, rule, hevent, hrule⟩, s', hevent', hs⟩ := h'
    obtain rfl := Option.some.inj (hevent.symm.trans hevent')
    obtain ⟨hr, hname⟩ := h.rule?_iff.mp hrule
    obtain ⟨topic, htopic, hresolve⟩ := Option.bind_eq_some_iff.mp hevent
    refine ⟨ha, topic, htopic, h.mem_topics.mpr ⟨rule, hr, s, hname ▸ hs, ?_⟩⟩
    exact (Registry.mem_of_resolve? hresolve).2

/-- The topics of the filter are in order, and none is there twice. -/
theorem topics_increasing (h : Accepted r pub priv rules) (hclear : pub.Clear) :
    r.topics.Pairwise fun s t => s.toNat < t.toNat := by
  obtain ⟨hrules, hdistinct, -⟩ := Dispatch.ofRules_eq_ok.mp h.rules
  -- Different names lead to different events, and these have different topics.
  have hnames : r.dispatch.events.Nodup := Dispatch.nodup_events (hrules ▸ hdistinct)
  have hne : r.topics.Pairwise (· ≠ ·) := by
    refine (List.mergeSort_perm _ _).symm.pairwise ?_ fun h => h.symm
    refine List.pairwise_filterMap.mpr (hnames.imp ?_)
    intro m n hmn topic hm topic' hn heq
    obtain ⟨s, hs, rfl⟩ := Option.map_eq_some_iff.mp hm
    obtain ⟨t, ht, rfl⟩ := Option.map_eq_some_iff.mp hn
    obtain ⟨hsname, hsresolve⟩ := h.resolve_byName hclear hs
    obtain ⟨htname, htresolve⟩ := h.resolve_byName hclear ht
    rw [heq] at hsresolve
    obtain rfl := Option.some.inj (hsresolve.symm.trans htresolve)
    exact hmn (hsname.symm.trans htname)
  refine (r.topics_sorted.and hne).imp ?_
  intro s t h
  obtain ⟨hle, hne⟩ := h
  exact Nat.lt_of_le_of_ne hle fun heq => hne (BitVec.eq_of_toNat_eq heq)

/-- With a rule the filter has a topic, so that it does not select every log of the contract. -/
theorem topics_ne_nil (h : Accepted r pub priv rules) (hr : rules ≠ []) : r.topics ≠ [] := by
  obtain ⟨rule, hmem⟩ := List.exists_mem_of_ne_nil rules hr
  obtain ⟨⟨s, hs, -⟩, -⟩ := h.checkRule hmem
  exact List.ne_nil_of_mem (h.mem_topics.mpr ⟨rule, hmem, s, hs, rfl⟩)

end Accepted

/-- **The filter selects what matches exactly when each event with the name of a rule is the one
that answers to that name**; all it selects matches in any case. Its topics are in order, none is
there twice, and with a rule there is one. -/
theorem filter_selects (h : Accepted r pub priv rules) (hclear : pub.Clear) :
    (∀ b log, (r.filter b).Selects log ↔ (r.match? log).isSome = true ∧
      ∃ s, log.topic0.bind r.registries.pub.resolve? = some s ∧
        r.registries.pub.byName? s.name = some s) ∧
      ((∀ b log, (r.filter b).Selects log ↔ (r.match? log).isSome = true) ↔
        ∀ rule ∈ rules, ∀ s ∈ r.registries.pub.events, s.name = rule.event →
          r.registries.pub.byName? s.name = some s) ∧
      (∀ b, (r.filter b).topics.Pairwise fun s t => s.toNat < t.toNat) ∧
      (rules ≠ [] → ∀ b, (r.filter b).topics ≠ []) := by
  refine ⟨fun b log => h.selects_iff hclear b, ⟨fun hall rule hr s hs hname => ?_, ?_⟩,
    fun _ => h.topics_increasing hclear, fun hr _ => h.topics_ne_nil hr⟩
  · -- A log with the topic of the event matches, so the filter selects it.
    have hresolve : r.registries.pub.resolve? s.topic = some s := by
      rw [h.registries] at hs ⊢
      exact Registry.resolve?_of_mem hs
    have hmatch : (r.match? ⟨r.pub.contract, [s.topic], [], none, none, none⟩).isSome = true :=
      match?_isSome.mpr ⟨rfl, s, rule, hresolve, h.rule?_iff.mpr ⟨hr, hname.symm⟩⟩
    obtain ⟨-, s', hs', hbyName⟩ := (h.selects_iff hclear none).mp ((hall none _).mpr hmatch)
    obtain rfl := Option.some.inj (hresolve.symm.trans hs')
    exact hbyName
  · intro hall b log
    refine (h.selects_iff hclear b).trans ⟨fun h => h.1, fun hmatch => ⟨hmatch, ?_⟩⟩
    obtain ⟨-, s, rule, hevent, hrule⟩ := match?_isSome.mp hmatch
    obtain ⟨topic, -, hresolve⟩ := Option.bind_eq_some_iff.mp hevent
    obtain ⟨hr, hname⟩ := h.rule?_iff.mp hrule
    exact ⟨s, hevent, hall rule hr s (Registry.mem_of_resolve? hresolve).1 hname.symm⟩

/-- The rule that calls `act` for `Done`. -/
def doneRule : Rule := ⟨"Done", ⟨"act", []⟩, none⟩

theorem accepted_doneRule {events : List Abi.Event} {s : Signature}
    (hname : (Registry.ofInterface (noting events)).byName? "Done" = some s) :
    Accepted (between (noting events) (noting []) [doneRule]) (noting events) (noting [])
      [doneRule] where
  registries := rfl
  rules := by
    refine Dispatch.ofRules_eq_ok.mpr ⟨rfl, List.pairwise_singleton _ _, fun rule hr => ?_⟩
    obtain rfl := List.mem_singleton.mp hr
    exact Dispatch.checkRule_eq_ok.mpr ⟨⟨s, hname, nofun⟩, rfl, nofun⟩

/-- The events of one name do not collide, whatever their digests. -/
theorem clear_noting {events : List Abi.Event} (h : ∀ e ∈ events, e.name = "Done") :
    (noting events).Clear := by
  have hname : ∀ s ∈ (noting events).signatures, s.name = "Done" := by
    intro s hs
    obtain ⟨e, he, rfl⟩ := List.mem_map.mp hs
    exact h e (List.mem_filter.mp he).1
  exact fun s hs t ht _ => (hname s hs).trans (hname t ht).symm

/-- With one event of the name `Done` the filter selects what matches. -/
theorem filter_selects_doneRule :
    Accepted (between (noting [doneWho]) (noting []) [doneRule]) (noting [doneWho]) (noting [])
        [doneRule] ∧
      (noting [doneWho]).Clear ∧
      ∀ b log, ((between (noting [doneWho]) (noting []) [doneRule]).filter b).Selects log ↔
        ((between (noting [doneWho]) (noting []) [doneRule]).match? log).isSome = true := by
  have hname : (Registry.ofInterface (noting [doneWho])).byName? "Done" =
      some (.ofEvent doneWho) :=
    Registry.byName?_of_mem (s := .ofEvent doneWho) rfl (Registry.mem_put_self _ _)
  have h := accepted_doneRule hname
  have hclear : (noting [doneWho]).Clear := clear_noting fun e he => by
    obtain rfl := List.mem_singleton.mp he
    rfl
  refine ⟨h, hclear, (filter_selects h hclear).2.1.mpr fun rule hr s hs hrule => ?_⟩
  obtain rfl := List.mem_singleton.mp hs
  exact hname

/-- **The filter need not select what matches.** Of the events `Done(address)` and `Done()` the
first answers to the name, and its topic is that of the filter; a log of the second matches the rule
as well. The two topics differ. -/
theorem overloaded_not_selected :
    ∃ r, Accepted r (noting [doneWho, doneBare]) (noting []) [doneRule] ∧
      (Signature.ofEvent doneBare).topic ≠ (Signature.ofEvent doneWho).topic ∧
      (r.match? doneLog).isSome = true ∧ ∀ b, ¬ (r.filter b).Selects doneLog := by
  have hevents := events_noting_pair (a := doneWho) (b := doneBare) rfl rfl
  have hwho : Signature.ofEvent doneWho ∈
      (Registry.ofInterface (noting [doneWho, doneBare])).events :=
    hevents ▸ Registry.mem_put_of_mem (List.mem_singleton_self _) doneBare_topic_ne
  have hbare : Signature.ofEvent doneBare ∈
      (Registry.ofInterface (noting [doneWho, doneBare])).events :=
    hevents ▸ Registry.mem_put_self _ _
  have hname : (Registry.ofInterface (noting [doneWho, doneBare])).byName? "Done" =
      some (.ofEvent doneWho) := Registry.byName?_of_mem (s := .ofEvent doneWho) rfl hwho
  have h := accepted_doneRule hname
  have hevent := h.resolve_decoded .pub hbare decode_doneLog
  have hclear : (noting [doneWho, doneBare]).Clear := clear_noting fun e he => by
    rcases List.mem_cons.mp he with rfl | he
    · rfl
    · obtain rfl := List.mem_singleton.mp he
      rfl
  refine ⟨_, h, doneBare_topic_ne, ?_, fun b hselects => ?_⟩
  · exact match?_isSome.mpr ⟨rfl, _, doneRule, hevent, rfl⟩
  · -- The event of the log would have to answer to the name.
    obtain ⟨-, s, hs, hbyName⟩ := (h.selects_iff hclear b).mp hselects
    obtain rfl := Option.some.inj (hevent.symm.trans hs)
    have heq := Option.some.inj (hname.symm.trans hbyName)
    cases congrArg Signature.fields heq

end Relay

end EventRelay
