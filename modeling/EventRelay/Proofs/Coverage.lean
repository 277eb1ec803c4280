import EventRelay.Proofs.Attempt
import EventRelay.Proofs.Rules

/-!
# Which logs accepted rules cover

Rules are checked when they are loaded, against the one event that answers to a name. A running
relay finds the event of a log by its topic, and then the rule by the name of the event; with
overloaded events these need not be the same. This file says exactly when the check covers what the
relay meets.

Main statements:

* `Relay.covered_iff`: the methods that accepted rules call are always there, and the fields are
  exactly when all events of the names, as far as their logs can be decoded, have them;
* `Relay.Accepted.covered_of_unique`: so they are when every event answers to its name;
* `Relay.overloaded_not_covered`: accepted rules whose callback fails for a field that is not there.
-/

namespace EventRelay

open Abi (Registry Signature DecodedLog)

/-- The events with a name, as far as their logs can be decoded, have the fields. -/
def Abi.Registry.AllHave (reg : Registry) (name : String) (fields : List String) : Prop :=
  ∀ s ∈ reg.events, s.name = name → (∃ log d, s.decode log = .ok d) → s.HasFields fields

/-- Each event is the one that answers to its name. -/
def Abi.Registry.Unique (reg : Registry) : Prop :=
  ∀ s ∈ reg.events, reg.byName? s.name = some s

/-- All events that a rule may be about have the fields that its calls take as arguments. -/
structure Registries.AllFit (rs : Registries) (rule : Rule) : Prop where
  call : rs.pub.AllHave rule.event rule.call.params
  callback : ∀ c, rule.callback = some c → rs.priv.AllHave (c.trigger rule.event) c.call.params

namespace Relay

variable {r : Relay}

/-- A relay between described contracts, with rules that were accepted. -/
structure Accepted (r : Relay) (pub priv : Abi.Interface) (rules : List Rule) : Prop where
  registries : r.registries = ⟨.ofInterface pub, .ofInterface priv⟩
  rules : Dispatch.ofRules r.registries rules = .ok r.dispatch

/-- A call that the relay makes for a decoded log fails neither for a field nor for a method that is
not there. -/
def CanCall (r : Relay) (target : Side) (i : Invocation) (d : DecodedLog) : Prop :=
  (∃ args, d.project i.params = .ok args) ∧
    (r.registries.side target).hasMethod i.method i.params.length = true ∧
    ∀ e, r.callFor target i d = .error e → ∃ c, e = .call c ∧ c.isUnmatched = false

/-- The target call of every log that matches a rule, and the callback of every receipt log that
asks for one, fail neither for a field nor for a method that is not there. -/
structure Covered (r : Relay) : Prop where
  target : ∀ log d rule, r.match? log = some (.matched log d rule) → r.CanCall .priv rule.call d
  callback : ∀ rule ∈ r.dispatch.rules, ∀ log s c d, r.asked? rule log = some (s, c) →
    s.decode log = .ok d → r.CanCall c.target c.call d

theorem guard_eq_some {p : Prop} [Decidable p] {u : Unit} :
    (guard p : Option Unit) = some u ↔ p := by
  by_cases hp : p
  · have hguard : (guard p : Option Unit) = some () := if_pos hp
    exact ⟨fun _ => hp, fun _ => hguard⟩
  · have hguard : (guard p : Option Unit) = none := if_neg hp
    constructor
    · intro h
      cases hguard.symm.trans h
    · intro h
      exact absurd h hp

/-- A log matches a rule when its topic stands for an event of the rule's name. -/
theorem match?_eq_matched {log : Log} {d : DecodedLog} {rule : Rule} :
    r.match? log = some (.matched log d rule) ↔
      log.address = r.pub.contract ∧ ∃ s, log.topic0.bind r.registries.pub.resolve? = some s ∧
        r.dispatch.rule? s.name = some rule ∧ s.decode log = .ok d := by
  constructor
  · intro h
    obtain ⟨_, hguard, h⟩ := Option.bind_eq_some_iff.mp h
    obtain ⟨s, hs, h⟩ := Option.bind_eq_some_iff.mp h
    obtain ⟨rule', hrule, h⟩ := Option.bind_eq_some_iff.mp h
    refine ⟨guard_eq_some.mp hguard, s, hs, ?_⟩
    split at h
    next d' hd =>
      obtain ⟨-, rfl, rfl⟩ := State.matched.inj (Option.some.inj h)
      exact ⟨hrule, hd⟩
    next => cases Option.some.inj h
  · intro h
    obtain ⟨ha, s, hs, hrule, hd⟩ := h
    refine Option.bind_eq_some_iff.mpr ⟨(), guard_eq_some.mpr ha, ?_⟩
    refine Option.bind_eq_some_iff.mpr ⟨s, hs, ?_⟩
    refine Option.bind_eq_some_iff.mpr ⟨rule, hrule, ?_⟩
    rw [hd]

/-- A log asks for a callback when its topic stands for an event of the name that triggers it. -/
theorem asked?_eq_some {rule : Rule} {log : Log} {s : Signature} {c : Callback} :
    r.asked? rule log = some (s, c) ↔
      log.address = r.priv.contract ∧ log.topic0.bind r.registries.priv.resolve? = some s ∧
        rule.callback = some c ∧ c.trigger rule.event = s.name := by
  constructor
  · intro h
    obtain ⟨_, hguard, h⟩ := Option.bind_eq_some_iff.mp h
    obtain ⟨s', hs, h⟩ := Option.bind_eq_some_iff.mp h
    obtain ⟨c', hc, h⟩ := Option.bind_eq_some_iff.mp h
    obtain ⟨rfl, rfl⟩ := Prod.mk.inj (Option.some.inj h)
    obtain ⟨hcallback, hname⟩ := Option.filter_eq_some_iff.mp hc
    exact ⟨guard_eq_some.mp hguard, hs, hcallback, of_decide_eq_true hname⟩
  · intro h
    obtain ⟨ha, hs, hcallback, hname⟩ := h
    refine Option.bind_eq_some_iff.mpr ⟨(), guard_eq_some.mpr ha, ?_⟩
    refine Option.bind_eq_some_iff.mpr ⟨s, hs, ?_⟩
    refine Option.bind_eq_some_iff.mpr ⟨c, ?_, rfl⟩
    exact Option.filter_eq_some_iff.mpr ⟨hcallback, decide_eq_true hname⟩

/-- With its fields and its method there, a call can be made but for the types of its arguments. -/
theorem canCall_of_hasFields {target : Side} {i : Invocation} {s : Signature} {log : Log}
    {d : DecodedLog} (hd : s.decode log = .ok d) (hfields : s.HasFields i.params)
    (hm : (r.registries.side target).hasMethod i.method i.params.length = true) :
    r.CanCall target i d := by
  obtain ⟨args, hargs⟩ := (Signature.project_eq_ok_iff hd).mpr hfields
  refine ⟨⟨args, hargs⟩, hm, fun e he => ?_⟩
  rw [callFor_of_projected hargs] at he
  cases hc : (r.registries.side target).encodeCall i.method args with
  | ok input =>
    rw [hc] at he
    cases he
  | error c =>
    rw [hc] at he
    obtain rfl := Except.error.inj he
    rw [← DecodedLog.length_project hargs] at hm
    exact ⟨c, rfl, Registry.matched_of_hasMethod hm hc⟩

namespace Accepted

variable {pub priv : Abi.Interface} {rules : List Rule}

/-- Every rule of an accepted table has passed its checks. -/
theorem checkRule (h : Accepted r pub priv rules) {rule : Rule} (hr : rule ∈ rules) :
    (∃ s, r.registries.pub.byName? rule.event = some s ∧ s.HasFields rule.call.params) ∧
      r.registries.priv.hasMethod rule.call.method rule.call.params.length = true ∧
      ∀ c, rule.callback = some c → Dispatch.checkCallback r.registries rule.event c = .ok () :=
  Dispatch.checkRule_eq_ok.mp ((Dispatch.ofRules_eq_ok.mp h.rules).2.2 rule hr)

/-- Every rule of an accepted table calls methods that are there. -/
theorem hasMethod (h : Accepted r pub priv rules) {rule : Rule} (hr : rule ∈ rules) :
    r.registries.priv.hasMethod rule.call.method rule.call.params.length = true ∧
      ∀ c, rule.callback = some c →
        (r.registries.side c.target).hasMethod c.call.method c.call.params.length = true := by
  obtain ⟨-, hm, hcallback⟩ := h.checkRule hr
  exact ⟨hm, fun c hc => (Dispatch.checkCallback_eq_ok.mp (hcallback c hc)).2⟩

/-- A table has a rule for an event when the rule was given to it. -/
theorem rule?_iff (h : Accepted r pub priv rules) {event : String} {rule : Rule} :
    r.dispatch.rule? event = some rule ↔ rule ∈ rules ∧ rule.event = event := by
  obtain ⟨hrules, hdistinct, -⟩ := Dispatch.ofRules_eq_ok.mp h.rules
  rw [← hrules] at hdistinct ⊢
  exact Dispatch.rule?_eq_some_iff hdistinct

/-- The event that a log is decoded by is found by the first topic of the log. -/
theorem resolve_decoded (h : Accepted r pub priv rules) (side : Side) {s : Signature} {log : Log}
    {d : DecodedLog} (hs : s ∈ (r.registries.side side).events) (hd : s.decode log = .ok d) :
    log.topic0.bind (r.registries.side side).resolve? = some s := by
  rw [(Signature.decode_eq_ok hd).1, Option.bind_some]
  rw [h.registries] at hs ⊢
  cases side with
  | pub => exact Registry.resolve?_of_mem hs
  | priv => exact Registry.resolve?_of_mem hs

/-- Where all events of their names have the fields, accepted rules cover what the relay meets. -/
theorem covered_of_allFit (h : Accepted r pub priv rules)
    (hfit : ∀ rule ∈ rules, r.registries.AllFit rule) : r.Covered where
  target log d rule hmatch := by
    obtain ⟨-, s, hs, hrule, hd⟩ := match?_eq_matched.mp hmatch
    obtain ⟨topic, -, hresolve⟩ := Option.bind_eq_some_iff.mp hs
    obtain ⟨hr, hevent⟩ := h.rule?_iff.mp hrule
    have hmem := (Registry.mem_of_resolve? hresolve).1
    exact canCall_of_hasFields hd ((hfit rule hr).call s hmem hevent.symm ⟨log, d, hd⟩)
      (h.hasMethod hr).1
  callback rule hrule log s c d hasked hd := by
    obtain ⟨-, hs, hc, hname⟩ := asked?_eq_some.mp hasked
    obtain ⟨topic, -, hresolve⟩ := Option.bind_eq_some_iff.mp hs
    rw [(Dispatch.ofRules_eq_ok.mp h.rules).1] at hrule
    have hmem := (Registry.mem_of_resolve? hresolve).1
    exact canCall_of_hasFields hd
      ((hfit rule hrule).callback c hc s hmem hname.symm ⟨log, d, hd⟩)
      ((h.hasMethod hrule).2 c hc)

/-- Accepted rules that cover what the relay meets find their fields in all events of the names,
for a log of such an event may always come from the contract. -/
theorem allFit_of_covered (h : Accepted r pub priv rules) (hcovered : r.Covered) {rule : Rule}
    (hr : rule ∈ rules) : r.registries.AllFit rule where
  call s hs hname := by
    intro h
    obtain ⟨log, d, hd⟩ := h
    -- The same log from the public contract is decoded alike, and matches the rule.
    have hmatch : r.match? { log with address := r.pub.contract } =
        some (.matched { log with address := r.pub.contract } d rule) :=
      match?_eq_matched.mpr
        ⟨rfl, s, h.resolve_decoded .pub hs hd, h.rule?_iff.mpr ⟨hr, hname.symm⟩, hd⟩
    exact (Signature.project_eq_ok_iff hd).mp (hcovered.target _ _ _ hmatch).1
  callback c hc s hs hname := by
    intro h
    obtain ⟨log, d, hd⟩ := h
    have hasked : r.asked? rule { log with address := r.priv.contract } = some (s, c) :=
      asked?_eq_some.mpr ⟨rfl, h.resolve_decoded .priv hs hd, hc, hname.symm⟩
    have hrule : rule ∈ r.dispatch.rules := (Dispatch.ofRules_eq_ok.mp h.rules).1 ▸ hr
    exact (Signature.project_eq_ok_iff hd).mp (hcovered.callback rule hrule _ s c d hasked hd).1

/-- Where every event is the one that answers to its name, accepted rules cover what the relay
meets. -/
theorem covered_of_unique (h : Accepted r pub priv rules) (hpub : r.registries.pub.Unique)
    (hpriv : r.registries.priv.Unique) : r.Covered :=
  h.covered_of_allFit fun rule hr => by
    obtain ⟨⟨s, hs, hfields⟩, -, hcallback⟩ := h.checkRule hr
    refine ⟨fun t ht hname _ => ?_, fun c hc t ht hname _ => ?_⟩
    · obtain rfl := Option.some.inj (hs.symm.trans (hname ▸ hpub t ht))
      exact hfields
    · obtain ⟨⟨u, hu, hfields⟩, -⟩ := Dispatch.checkCallback_eq_ok.mp (hcallback c hc)
      obtain rfl := Option.some.inj (hu.symm.trans (hname ▸ hpriv t ht))
      exact hfields

end Accepted

variable {pub priv : Abi.Interface} {rules : List Rule}

/-- **Accepted rules call methods that are always there; the fields they refer to are exactly when
every event of the names has them**, as far as its logs can be decoded. -/
theorem covered_iff (h : Accepted r pub priv rules) :
    (∀ rule ∈ rules,
      r.registries.priv.hasMethod rule.call.method rule.call.params.length = true ∧
        ∀ c, rule.callback = some c →
          (r.registries.side c.target).hasMethod c.call.method c.call.params.length = true) ∧
      (r.Covered ↔ ∀ rule ∈ rules, r.registries.AllFit rule) :=
  ⟨fun _ hr => h.hasMethod hr, fun hcovered _ hr => h.allFit_of_covered hcovered hr,
    h.covered_of_allFit⟩

/-- A relay between two contracts with rules, whether or not they are accepted. -/
def between (pub priv : Abi.Interface) (rules : List Rule) : Relay :=
  { idle with
    registries := ⟨.ofInterface pub, .ofInterface priv⟩
    dispatch := ⟨rules⟩ }

/-- A contract with the event `Ask`. -/
def asking : Abi.Interface := ⟨[], [⟨"Ask", [], false⟩]⟩

/-- A contract with the methods `act` and `note`. -/
def noting (events : List Abi.Event) : Abi.Interface :=
  ⟨[⟨"act", []⟩, ⟨"note", [⟨"who", "address", []⟩]⟩], events⟩

/-- The event `Done(address)`. -/
def doneWho : Abi.Event := ⟨"Done", [⟨⟨"who", "address", []⟩, false⟩], false⟩

/-- The event `Done()`. -/
def doneBare : Abi.Event := ⟨"Done", [], false⟩

/-- The rule that calls `act` for `Ask`, and `note` for the event `Done` of that call. -/
def askRule : Rule := ⟨"Ask", ⟨"act", []⟩, some ⟨some "Done", .priv, ⟨"note", ["who"]⟩⟩⟩

/-- The rule is accepted when the first event of the name `Done` has the field. -/
theorem accepted_askRule (events : List Abi.Event)
    (hname : (Registry.ofInterface (noting events)).byName? "Done" = some (.ofEvent doneWho)) :
    Accepted (between asking (noting events) [askRule]) asking (noting events) [askRule] where
  registries := rfl
  rules := by
    have hask : (Registry.ofInterface asking).byName? "Ask" =
        some (.ofEvent ⟨"Ask", [], false⟩) :=
      Registry.byName?_of_mem (s := .ofEvent ⟨"Ask", [], false⟩) rfl (Registry.mem_put_self _ _)
    refine Dispatch.ofRules_eq_ok.mpr ⟨rfl, List.pairwise_singleton _ _, fun rule hr => ?_⟩
    obtain rfl := List.mem_singleton.mp hr
    refine Dispatch.checkRule_eq_ok.mpr ⟨⟨_, hask, nofun⟩, rfl, ?_⟩
    intro _ h
    cases h
    exact Dispatch.checkCallback_eq_ok.mpr ⟨⟨_, hname, by decide⟩, rfl⟩

/-- With one event of the name `Done` the rule covers what the relay meets. -/
theorem covered_askRule :
    Accepted (between asking (noting [doneWho]) [askRule]) asking (noting [doneWho]) [askRule] ∧
      (between asking (noting [doneWho]) [askRule]).Covered := by
  have h := accepted_askRule [doneWho]
    (Registry.byName?_of_mem (s := .ofEvent doneWho) rfl (Registry.mem_put_self _ _))
  refine ⟨h, (covered_iff h).2.mpr fun rule hr => ?_⟩
  obtain rfl := List.mem_singleton.mp hr
  refine ⟨fun _ _ _ _ => nofun, ?_⟩
  intro _ h s hs _ _
  cases h
  obtain rfl := List.mem_singleton.mp hs
  decide

theorem events_noting_pair {a b : Abi.Event} (ha : a.anonymous = false)
    (hb : b.anonymous = false) : (Registry.ofInterface (noting [a, b])).events =
      Registry.put (.ofEvent b) [.ofEvent a] := by
  simp [Registry.ofInterface, noting, ha, hb, Registry.put]

/-! The only digests that are evaluated, each in a step of its own. -/

/-- The topic of `Done()`. -/
theorem doneBare_topic :
    (Signature.ofEvent doneBare).topic =
      0x9f9fb434574749b74458e0ddc3cf5fd5bdb1b009c8615e825606b53724576f35 := by
  have hdigest : Word.keccak (Text.Utf8.encode "Done()") =
      0x9f9fb434574749b74458e0ddc3cf5fd5bdb1b009c8615e825606b53724576f35 := by decide +kernel
  have htext : doneBare.signature = "Done()" := rfl
  rw [← htext] at hdigest
  exact hdigest

/-- The topic of `Done(address)`. -/
theorem doneWho_topic :
    (Signature.ofEvent doneWho).topic =
      0x214e6b190d37f0d8c2e24568ab7d010a93f97e697952e3605e79dd4e10b9c8d0 := by
  have hdigest : Word.keccak (Text.Utf8.encode "Done(address)") =
      0x214e6b190d37f0d8c2e24568ab7d010a93f97e697952e3605e79dd4e10b9c8d0 := by decide +kernel
  have htext : doneWho.signature = "Done(address)" := rfl
  rw [← htext] at hdigest
  exact hdigest

/-- The two overloads have different topics. -/
theorem doneBare_topic_ne :
    (Signature.ofEvent doneBare).topic ≠ (Signature.ofEvent doneWho).topic := by
  rw [doneBare_topic, doneWho_topic]
  decide

/-- A log of the event `Done()`. -/
def doneLog : Log := ⟨.zero, [(Signature.ofEvent doneBare).topic], [], none, none, none⟩

/-- A log of `Done()` has no fields. -/
theorem decode_doneLog :
    (Signature.ofEvent doneBare).decode doneLog = .ok ⟨"Done", "Done()", []⟩ := by
  -- For any topic, so that the comparison of the topics evaluates no digest.
  have hdecode : ∀ topic : Word, Signature.decode ⟨"Done", "Done()", topic, [], []⟩
      ⟨.zero, [topic], [], none, none, none⟩ = .ok ⟨"Done", "Done()", []⟩ := by
    intro topic
    rw [Signature.decode, if_neg (fun h => h rfl)]
    rfl
  exact hdecode _

/-- **Accepted rules need not cover what the relay meets.** The field `who` was looked for in the
event `Done(address)`; a log of the event `Done()` asks for the callback as well, and then the field
is missing. -/
theorem overloaded_not_covered :
    ∃ r, Accepted r asking (noting [doneWho, doneBare]) [askRule] ∧
      (∃ c d, r.asked? askRule doneLog = some (.ofEvent doneBare, c) ∧
        (Signature.ofEvent doneBare).decode doneLog = .ok d ∧
        r.callFor c.target c.call d = .error (.project ⟨"who", "Done()"⟩)) ∧
      ¬ r.Covered := by
  have hevents := events_noting_pair (a := doneWho) (b := doneBare) rfl rfl
  have hwho : Signature.ofEvent doneWho ∈
      (Registry.ofInterface (noting [doneWho, doneBare])).events :=
    hevents ▸ Registry.mem_put_of_mem (List.mem_singleton_self _) doneBare_topic_ne
  have hbare : Signature.ofEvent doneBare ∈
      (Registry.ofInterface (noting [doneWho, doneBare])).events :=
    hevents ▸ Registry.mem_put_self _ _
  have h := accepted_askRule _ (Registry.byName?_of_mem (s := .ofEvent doneWho) rfl hwho)
  have hasked : (between asking (noting [doneWho, doneBare]) [askRule]).asked? askRule doneLog =
      some (.ofEvent doneBare, ⟨some "Done", .priv, ⟨"note", ["who"]⟩⟩) :=
    asked?_eq_some.mpr ⟨rfl, h.resolve_decoded .priv hbare decode_doneLog, rfl, rfl⟩
  -- The callback is asked for, and `who` is not among the fields of the decoded log.
  refine ⟨_, h, ⟨_, _, hasked, decode_doneLog, callFor_of_unprojected rfl⟩, fun hcovered => ?_⟩
  have hrule : askRule ∈ [askRule] := List.mem_singleton_self _
  obtain ⟨args, hargs⟩ := (hcovered.callback _ hrule _ _ _ _ hasked decode_doneLog).1
  cases hargs

end Relay

end EventRelay
