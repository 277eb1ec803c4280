import EventRelay.Proofs.Coverage
import EventRelay.Proofs.Names

/-!
# What a registry keeps of the declared events

A registry is filled with the events of a description, whose signatures and names may repeat in any
pattern. Under a topic it keeps the event that was declared last, and under a name the topic of the
event that was declared first; the two agree as long as no two signatures have one digest
(`Registry.Represents`).

Main statements:

* `Registry.resolve?_eq`: which of the events of one topic is found;
* `Registry.represents_declared`: how a registry stands for the events of a description.
-/

namespace EventRelay.Abi

namespace Event

/-- The event that was declared last with a signature, of those that logs can refer to. -/
def latest? (declared : List Event) (text : String) : Option Event :=
  (declared.filter fun e => !e.anonymous && e.signature = text).getLast?

/-- The event that was declared first under a name, of those that logs can refer to. -/
def first? (declared : List Event) (name : String) : Option Event :=
  declared.find? fun e => !e.anonymous && e.name = name

/-- The digest of the signature of an event. -/
def digest (e : Event) : Word := Word.keccak (Text.Utf8.encode e.signature)

/-- The topic of a signature is the digest of its event. -/
theorem topic_ofEvent (e : Event) : (Signature.ofEvent e).topic = e.digest := by
  rw [Signature.ofEvent, digest]

/-- Different signatures of the events that logs can refer to have different digests. -/
def NoCollision (declared : List Event) : Prop :=
  ∀ e ∈ declared, ∀ f ∈ declared, e.anonymous = false → f.anonymous = false →
    e.digest = f.digest → e.signature = f.signature

end Event

namespace Registry

/-- How a registry stands for the events that are declared. -/
structure Represents (r : Registry) (declared : List Event) : Prop where
  /-- What stands under a topic has that topic, which is the digest of its signature. -/
  entry : ∀ topic s, r.resolve? topic = some s →
    s.topic = topic ∧ topic = Word.keccak (Text.Utf8.encode s.text)
  /-- All that is kept stands under its topic. -/
  stored : ∀ s ∈ r.events, r.resolve? s.topic = some s
  /-- Names lead to what is kept, each to an event of that name. -/
  leads : ∀ p ∈ r.names, ∃ s, r.byName? p.1 = some s ∧ r.resolve? p.2 = some s ∧ s.name = p.1
  named : ∀ name, (r.byName? name).isSome ↔ ∃ e ∈ declared, e.anonymous = false ∧ e.name = name
  /-- Under a topic stands the last declaration of the signature; anonymous events do not count. -/
  latest : ∀ e ∈ declared, e.anonymous = false → ∃ f, Event.latest? declared e.signature = some f ∧
    r.resolve? e.digest = some (.ofEvent f)
  /-- A name leads to the signature that was declared first under it, in its last declaration. -/
  first : ∀ e ∈ declared, e.anonymous = false → ∃ f g, Event.first? declared e.name = some f ∧
    Event.latest? declared f.signature = some g ∧ r.byName? e.name = some (.ofEvent g)
  increasing : r.topics.Pairwise fun t u => t.toNat < u.toNat
  listed : ∀ topic, topic ∈ r.topics ↔ (r.resolve? topic).isSome
  /-- Only events that logs can refer to are found. -/
  seen : ∀ s, (∃ topic, r.resolve? topic = some s) ∨ (∃ name, r.byName? name = some s) →
    ∃ e ∈ declared, e.anonymous = false ∧ s = .ofEvent e

/-! ## Which of the events is found -/

/-- An entry that is put in is what its own topic finds. -/
theorem find?_put (s : Signature) (events : List Signature) (topic : Word) :
    (put s events).find? (·.topic = topic) =
      if s.topic = topic then some s else events.find? (·.topic = topic) := by
  induction events with
  | nil => by_cases heq : s.topic = topic <;> simp [put, heq]
  | cons t events ih =>
    rw [put]
    split
    next => by_cases heq : s.topic = topic <;> simp [heq]
    next =>
      split
      next hsame =>
        -- The event takes the place of one that would be found for the same topic.
        by_cases heq : s.topic = topic
        · simp [heq]
        · simp [heq, hsame ▸ heq]
      next hne =>
        by_cases heq : t.topic = topic
        · rw [List.find?_cons_of_pos (by simpa using heq), if_neg fun h => hne (h.trans heq.symm),
            List.find?_cons_of_pos (by simpa using heq)]
        · rw [List.find?_cons_of_neg (by simpa using heq), ih,
            List.find?_cons_of_neg (by simpa using heq)]

/-- Of several entries for a topic the last one put in is found. -/
theorem find?_foldl_put (signatures events : List Signature) (topic : Word) :
    (signatures.foldl (fun acc s => put s acc) events).find? (·.topic = topic) =
      (signatures.filter (·.topic = topic)).getLast?.or (events.find? (·.topic = topic)) := by
  induction signatures generalizing events with
  | nil => rfl
  | cons s signatures ih =>
    rw [List.foldl_cons, ih, find?_put]
    by_cases heq : s.topic = topic
    · rw [if_pos heq, List.filter_cons_of_pos (by simpa using heq), List.getLast?_cons]
      cases (signatures.filter (·.topic = topic)).getLast? <;> rfl
    · rw [if_neg heq, List.filter_cons_of_neg (by simpa using heq)]

/-- **Of the events of one topic the one that was declared last is found.** -/
theorem resolve?_eq (i : Interface) (topic : Word) :
    (ofInterface i).resolve? topic = (i.signatures.filter (·.topic = topic)).getLast? :=
  (find?_foldl_put i.signatures [] topic).trans Option.or_none

/-! ## The names -/

/-- Putting a name in keeps the names different. -/
theorem distinct_putName {s : Signature} {names : List (String × Word)}
    (h : names.Pairwise fun p q => p.1 ≠ q.1) :
    (putName s names).Pairwise fun p q => p.1 ≠ q.1 := by
  unfold putName
  split
  next => exact h
  next hany =>
    refine List.pairwise_append.mpr ⟨h, List.pairwise_singleton _ _, fun p hp q hq heq => ?_⟩
    obtain rfl := List.mem_singleton.mp hq
    exact hany (List.any_eq_true.mpr ⟨p, hp, decide_eq_true heq⟩)

/-- So does putting in several. -/
theorem distinct_foldl_putName {signatures : List Signature} {names : List (String × Word)}
    (h : names.Pairwise fun p q => p.1 ≠ q.1) :
    (signatures.foldl (fun acc s => putName s acc) names).Pairwise fun p q => p.1 ≠ q.1 := by
  induction signatures generalizing names with
  | nil => exact h
  | cons s signatures ih => exact ih (distinct_putName h)

/-- A name is kept with the topic of the event that was declared first under it. -/
theorem first_of_mem_names {i : Interface} {p : String × Word} (hp : p ∈ (ofInterface i).names) :
    ∃ s, i.signatures.find? (·.name = p.1) = some s ∧ p = (s.name, s.topic) := by
  have hfind : (ofInterface i).names.find? (·.1 = p.1) = some p :=
    find?_of_distinct (distinct_foldl_putName List.Pairwise.nil) hp
  have hfirst : (ofInterface i).names.find? (·.1 = p.1) =
      (i.signatures.find? (·.name = p.1)).map fun s => (s.name, s.topic) :=
    (find?_foldl_putName i.signatures [] p.1).trans Option.none_or
  obtain ⟨s, hs, heq⟩ := Option.map_eq_some_iff.mp (hfirst.symm.trans hfind)
  exact ⟨s, hs, heq.symm⟩

/-- **The names lead to what is kept**, each to an event of that name. -/
theorem byName?_of_mem_names {i : Interface} (hi : i.Clear) {p : String × Word}
    (hp : p ∈ (ofInterface i).names) :
    ∃ s, (ofInterface i).byName? p.1 = some s ∧ (ofInterface i).resolve? p.2 = some s ∧
      s.name = p.1 := by
  obtain ⟨s, hs, heq⟩ := first_of_mem_names hp
  obtain ⟨t, ht⟩ := resolve?_isSome (List.mem_of_find?_eq_some hs)
  have hname : (ofInterface i).byName? p.1 = some t := by
    rw [byName?_eq, hs]
    exact ht
  exact ⟨t, hname, by rw [heq]; exact ht, name_of_byName? hi hname⟩

/-- The topics are those under which an event stands. -/
theorem mem_topics_iff {i : Interface} {topic : Word} :
    topic ∈ (ofInterface i).topics ↔ ((ofInterface i).resolve? topic).isSome := by
  constructor
  · intro h
    obtain ⟨s, hs, rfl⟩ := List.mem_map.mp h
    rw [resolve?_of_mem hs]
    rfl
  · intro h
    obtain ⟨s, hs⟩ := Option.isSome_iff_exists.mp h
    obtain ⟨hmem, rfl⟩ := mem_of_resolve? hs
    exact List.mem_map_of_mem hmem

end Registry

/-! ## The order of declaration -/

section Declared

variable {js : List Json} {items : List Interface.Item} {i : Interface}

namespace Interface

theorem mem_events_iff (hitems : js.mapM item? = some items) (h : ofJson? (.arr js) = some i)
    {e : Event} : e ∈ i.events ↔ e ∈ items.filterMap Item.event? := by
  rw [eq_of_ofJson? hitems h]
  exact List.mem_mergeSort

/-- The signatures of an interface are those of the events that carry a topic. -/
theorem mem_signatures_iff (hitems : js.mapM item? = some items)
    (h : ofJson? (.arr js) = some i) {s : Signature} :
    s ∈ i.signatures ↔
      ∃ e ∈ items.filterMap Item.event?, e.anonymous = false ∧ s = .ofEvent e := by
  constructor
  · intro hs
    obtain ⟨e, he, rfl⟩ := List.mem_map.mp hs
    obtain ⟨he, hseen⟩ := List.mem_filter.mp he
    exact ⟨e, (mem_events_iff hitems h).mp he, by simpa using hseen, rfl⟩
  · intro hs
    obtain ⟨e, he, hseen, rfl⟩ := hs
    refine List.mem_map_of_mem (List.mem_filter.mpr ⟨(mem_events_iff hitems h).mpr he, ?_⟩)
    rw [hseen]
    rfl

/-- Events of one name stand in the order in which they were declared. -/
theorem filter_events (hitems : js.mapM item? = some items) (h : ofJson? (.arr js) = some i)
    {name : String} {p : Event → Bool}
    (hp : ∀ e ∈ items.filterMap Item.event?, p e = true → e.name = name) :
    i.events.filter p = (items.filterMap Item.event?).filter p := by
  rw [eq_of_ofJson? hitems h]
  exact filter_mergeSort hp

/-- The first event of a name is the one that was declared first under it. -/
theorem find?_signatures (hitems : js.mapM item? = some items) (h : ofJson? (.arr js) = some i)
    (name : String) : i.signatures.find? (·.name = name) =
      (Event.first? (items.filterMap Item.event?) name).map .ofEvent := by
  have hname (e : Event) (_ : e ∈ items.filterMap Item.event?)
      (he : (!e.anonymous && decide (e.name = name)) = true) : e.name = name :=
    of_decide_eq_true ((Bool.and_eq_true _ _).mp he).2
  have hfilter : (i.events.filter (!·.anonymous)).filter (fun e => decide (e.name = name)) =
      (items.filterMap Item.event?).filter fun e => !e.anonymous && decide (e.name = name) := by
    rw [List.filter_filter, ← filter_events hitems h hname]
    exact List.filter_congr fun e _ => Bool.and_comm _ _
  rw [signatures, List.find?_map, Event.first?, ← List.head?_filter, ← List.head?_filter, ← hfilter]
  rfl

end Interface

namespace Registry

open Interface (item? ofJson? Item)

/-- What stands under the topic of an event is the last declaration of its signature. -/
theorem resolve?_digest (hitems : js.mapM item? = some items) (h : ofJson? (.arr js) = some i)
    (hclear : Event.NoCollision (items.filterMap Item.event?)) {e : Event}
    (he : e ∈ items.filterMap Item.event?) (hseen : e.anonymous = false) :
    (ofInterface i).resolve? e.digest =
      (Event.latest? (items.filterMap Item.event?) e.signature).map .ofEvent := by
  have hmem := Interface.mem_events_iff hitems h (e := e)
  have hname (f : Event) (hf : f ∈ items.filterMap Item.event?)
      (hsame : (!f.anonymous && decide (f.signature = e.signature)) = true) : f.name = e.name :=
    Interface.name_of_signature h ((Interface.mem_events_iff hitems h).mpr hf) (hmem.mpr he)
      (of_decide_eq_true ((Bool.and_eq_true _ _).mp hsame).2)
  have hfilter : (i.events.filter (!·.anonymous)).filter (fun f => decide (f.digest = e.digest)) =
      (items.filterMap Item.event?).filter
        fun f => !f.anonymous && decide (f.signature = e.signature) := by
    rw [List.filter_filter, ← Interface.filter_events hitems h hname]
    refine List.filter_congr fun f hf => ?_
    -- Digests of events that logs can refer to are equal when the signatures are.
    cases hanonymous : f.anonymous with
    | true => rw [Bool.not_true, Bool.and_false, Bool.false_and]
    | false =>
      rw [Bool.not_false, Bool.and_true, Bool.true_and]
      refine decide_eq_decide.mpr ⟨fun heq => ?_, fun heq => ?_⟩
      · exact hclear f ((Interface.mem_events_iff hitems h).mp hf) e he hanonymous hseen heq
      · exact congrArg (fun text => Word.keccak (Text.Utf8.encode text)) heq
  rw [resolve?_eq, Interface.signatures, List.filter_map, List.getLast?_map, Event.latest?,
    ← hfilter]
  simp only [Function.comp_def, Event.topic_ofEvent]

/-- A signature that was declared has a last declaration. -/
theorem latest?_isSome {declared : List Event} {e : Event} (he : e ∈ declared)
    (hseen : e.anonymous = false) : ∃ f, Event.latest? declared e.signature = some f := by
  have hmem : e ∈ declared.filter fun f => !f.anonymous && f.signature = e.signature :=
    List.mem_filter.mpr ⟨he, by rw [hseen]; simp⟩
  exact ⟨_, List.getLast?_eq_some_getLast (List.ne_nil_of_mem hmem)⟩

/-- A name that was declared has a first declaration. -/
theorem first?_isSome {declared : List Event} {e : Event} (he : e ∈ declared)
    (hseen : e.anonymous = false) : ∃ f, Event.first? declared e.name = some f ∧
      f ∈ declared ∧ f.anonymous = false := by
  obtain ⟨f, hf⟩ := Option.isSome_iff_exists.mp
    (List.find?_isSome (p := fun f : Event => !f.anonymous && f.name = e.name).mpr
      ⟨e, he, by rw [hseen]; simp⟩)
  have hp := List.find?_some hf
  rw [Bool.and_eq_true] at hp
  exact ⟨f, hf, List.mem_of_find?_eq_some hf, by simpa using hp.1⟩

/-- A digest resolves to the last declaration of its signature. -/
theorem resolve?_latest (hitems : js.mapM item? = some items) (h : ofJson? (.arr js) = some i)
    (hclear : Event.NoCollision (items.filterMap Item.event?)) {e : Event}
    (he : e ∈ items.filterMap Item.event?) (hseen : e.anonymous = false) :
    ∃ f, Event.latest? (items.filterMap Item.event?) e.signature = some f ∧
      (ofInterface i).resolve? e.digest = some (.ofEvent f) := by
  obtain ⟨f, hf⟩ := latest?_isSome he hseen
  refine ⟨f, hf, ?_⟩
  rw [resolve?_digest hitems h hclear he hseen, hf]
  rfl

/-- **A registry stands for the events of a description**, however their signatures and names
repeat: the last declaration of each signature is found by its topic, and by its name the first
event that was declared under it. -/
theorem represents_declared (hitems : js.mapM item? = some items)
    (h : ofJson? (.arr js) = some i)
    (hclear : Event.NoCollision (items.filterMap Item.event?)) :
    (ofInterface i).Represents (items.filterMap Item.event?) := by
  have hone : i.Clear := Interface.clear_of_ofJson? h fun s hs t ht htopic => by
    obtain ⟨e, he, hseen, rfl⟩ := (Interface.mem_signatures_iff hitems h).mp hs
    obtain ⟨f, hf, hseen', rfl⟩ := (Interface.mem_signatures_iff hitems h).mp ht
    exact hclear e he f hf hseen hseen' htopic
  have hseen (s : Signature) (hs : s ∈ (ofInterface i).events) :=
    (Interface.mem_signatures_iff hitems h).mp (mem_signatures hs)
  refine ⟨?entry, fun s hs => resolve?_of_mem hs, fun p hp => byName?_of_mem_names hone hp, ?named,
    fun e he hseen => resolve?_latest hitems h hclear he hseen, ?first,
    List.pairwise_map.mpr (inOrder_ofInterface i), fun topic => mem_topics_iff, ?seen⟩
  case entry =>
    intro topic s hs
    obtain ⟨hmem, rfl⟩ := mem_of_resolve? hs
    obtain ⟨e, -, -, rfl⟩ := hseen s hmem
    exact ⟨rfl, rfl⟩
  case named =>
    intro name
    rw [Option.isSome_iff_exists, byName?_isSome]
    constructor
    · intro hname
      obtain ⟨s, hs, hname⟩ := hname
      obtain ⟨e, he, hseen, rfl⟩ := (Interface.mem_signatures_iff hitems h).mp hs
      exact ⟨e, he, hseen, hname⟩
    · intro hname
      obtain ⟨e, he, hseen, hname⟩ := hname
      exact ⟨.ofEvent e, (Interface.mem_signatures_iff hitems h).mpr ⟨e, he, hseen, rfl⟩, hname⟩
  case first =>
    intro e he hseen
    obtain ⟨f, hfirst, hf, hseen'⟩ := first?_isSome he hseen
    obtain ⟨g, hg, hresolve⟩ := resolve?_latest hitems h hclear hf hseen'
    refine ⟨f, g, hfirst, hg, ?_⟩
    rw [byName?_eq, Interface.find?_signatures hitems h, hfirst]
    exact hresolve
  case seen =>
    intro s hs
    rcases hs with ⟨topic, hs⟩ | ⟨name, hs⟩
    · exact hseen s (mem_of_resolve? hs).1
    · obtain ⟨p, -, hs⟩ := Option.bind_eq_some_iff.mp hs
      exact hseen s (mem_of_resolve? hs).1

/-- The description of an event `Done`, with an address if that has a name. -/
def doneJson (who : Option String) (anonymous : Bool) : Json :=
  .obj [("type", .str "event"), ("name", .str "Done"), ("anonymous", .bool anonymous),
    ("inputs", .arr (who.toList.map fun name =>
      .obj [("name", .str name), ("type", .str "address")]))]

/-- The event that is described. -/
def doneEvent (who : Option String) (anonymous : Bool) : Event :=
  ⟨"Done", who.toList.map fun name => ⟨⟨name, "address", []⟩, false⟩, anonymous⟩

/-- Its digests are those of `Done()` and `Done(address)`, which differ. -/
theorem noCollision_done {declared : List Event}
    (h : ∀ e ∈ declared, ∃ who anonymous, e = doneEvent who anonymous) :
    Event.NoCollision declared := by
  have htext (e : Event) (he : e ∈ declared) : e.signature = Relay.doneBare.signature ∨
      e.signature = Relay.doneWho.signature := by
    obtain ⟨who, anonymous, rfl⟩ := h e he
    cases who with
    | none => exact .inl rfl
    | some name => exact .inr rfl
  intro e he f hf _ _ heq
  have hne := Relay.doneBare_topic_ne
  unfold Event.digest at heq
  rcases htext e he with hbare | hwho <;> rcases htext f hf with hbare' | hwho'
  · rw [hbare, hbare']
  · rw [hbare, hwho'] at heq
    exact absurd heq hne
  · rw [hwho, hbare'] at heq
    exact absurd heq.symm hne
  · rw [hwho, hwho']

theorem item?_doneJson {who : Option String} (h : who ∈ [none, some "who", some "whom"])
    (anonymous : Bool) :
    item? (doneJson who anonymous) = some (.event (doneEvent who anonymous)) := by
  simp only [List.mem_cons, List.not_mem_nil, or_false] at h
  rcases h with rfl | rfl | rfl <;> rfl

/-- Declared are `Done(address)`, then `Done()`, `Done(address)` again and an anonymous event. -/
theorem represents_done :
    ∃ i, ofJson? (.arr [doneJson (some "who") false, doneJson none false,
        doneJson (some "whom") false, doneJson (some "who") true]) = some i ∧
      (ofInterface i).Represents [doneEvent (some "who") false, doneEvent none false,
        doneEvent (some "whom") false, doneEvent (some "who") true] := by
  have hitems : [doneJson (some "who") false, doneJson none false, doneJson (some "whom") false,
      doneJson (some "who") true].mapM item? =
        some [.event (doneEvent (some "who") false), .event (doneEvent none false),
          .event (doneEvent (some "whom") false), .event (doneEvent (some "who") true)] := by
    simp only [List.mapM_cons, List.mapM_nil, item?_doneJson, List.mem_cons, true_or, or_true]
    rfl
  have h := Interface.ofJson?_of_items hitems (by decide)
  refine ⟨_, h, represents_declared hitems h (noCollision_done fun e he => ?_)⟩
  simp only [List.filterMap_cons, Item.event?, List.filterMap_nil, List.mem_cons,
    List.not_mem_nil, or_false] at he
  rcases he with rfl | rfl | rfl | rfl <;> exact ⟨_, _, rfl⟩

end Registry

end Declared

end EventRelay.Abi
