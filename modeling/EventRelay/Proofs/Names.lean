import EventRelay.Proofs.Registry

/-!
# Events by their names

The names of a registry lead to the events that were declared first under them. That such an event
has the name that leads to it is clear only when events of one topic have one name
(`Interface.Clear`), as those of a described contract have unless two signatures have one digest
(`Interface.clear_of_ofJson?`).

Main statements:

* `Registry.byName?_isSome`: which names lead to an event;
* `Registry.name_of_byName?`: the event that a name leads to has that name;
* `Interface.filter_mergeSort`: what is declared under one name keeps its order.
-/

namespace EventRelay.Abi

/-- The signatures of the events that logs can refer to, as they were declared. -/
def Interface.signatures (i : Interface) : List Signature :=
  (i.events.filter (!·.anonymous)).map .ofEvent

/-- Events of one topic have one name. -/
def Interface.Clear (i : Interface) : Prop :=
  ∀ s ∈ i.signatures, ∀ t ∈ i.signatures, s.topic = t.topic → s.name = t.name

namespace Registry

/-! ## The events that are kept -/

/-- Putting in adds no signatures but those that are put in. -/
theorem mem_foldl_put {t : Signature} {signatures events : List Signature}
    (h : t ∈ signatures.foldl (fun acc s => put s acc) events) : t ∈ signatures ∨ t ∈ events := by
  induction signatures generalizing events with
  | nil => exact .inr h
  | cons s signatures ih =>
    rcases ih h with h | h
    · exact .inl (List.mem_cons_of_mem _ h)
    · rcases mem_put h with rfl | h
      · exact .inl List.mem_cons_self
      · exact .inr h

/-- A registry has none but the declared events. -/
theorem mem_signatures {i : Interface} {s : Signature} (h : s ∈ (ofInterface i).events) :
    s ∈ i.signatures :=
  (mem_foldl_put h).resolve_right List.not_mem_nil

/-- A topic that is there stays there, whatever is put. -/
theorem topic_mem_put {topic : Word} (s : Signature) {events : List Signature}
    (h : ∃ t ∈ events, t.topic = topic) : ∃ t ∈ put s events, t.topic = topic := by
  obtain ⟨t, ht, rfl⟩ := h
  by_cases heq : s.topic = t.topic
  · exact ⟨s, mem_put_self s events, heq⟩
  · exact ⟨t, mem_put_of_mem ht heq, rfl⟩

/-- No topic is lost when signatures are put in. -/
theorem topic_mem_foldl_put {topic : Word} {signatures events : List Signature}
    (h : (∃ s ∈ signatures, s.topic = topic) ∨ ∃ t ∈ events, t.topic = topic) :
    ∃ t ∈ signatures.foldl (fun acc s => put s acc) events, t.topic = topic := by
  induction signatures generalizing events with
  | nil =>
    rcases h with ⟨s, hs, -⟩ | h
    · cases hs
    · exact h
  | cons s signatures ih =>
    apply ih
    rcases h with ⟨t, ht, htopic⟩ | h
    · rcases List.mem_cons.mp ht with rfl | ht
      · exact .inr ⟨t, mem_put_self t events, htopic⟩
      · exact .inl ⟨t, ht, htopic⟩
    · exact .inr (topic_mem_put s h)

/-- The topic of each declared event is that of an event of the registry. -/
theorem resolve?_isSome {i : Interface} {s : Signature} (h : s ∈ i.signatures) :
    ∃ t, (ofInterface i).resolve? s.topic = some t := by
  obtain ⟨t, ht, htopic⟩ : ∃ t ∈ (ofInterface i).events, t.topic = s.topic :=
    topic_mem_foldl_put (.inl ⟨s, h, rfl⟩)
  exact ⟨t, htopic ▸ resolve?_of_mem ht⟩

/-! ## The names that lead to them -/

/-- A name keeps the first topic that was put in for it. -/
theorem find?_putName (s : Signature) (names : List (String × Word)) (name : String) :
    (putName s names).find? (·.1 = name) = (names.find? (·.1 = name)).or
      (if s.name = name then some (s.name, s.topic) else none) := by
  unfold putName
  split
  next hany =>
    by_cases heq : s.name = name
    · -- An earlier event has the name.
      obtain ⟨p, hp⟩ := Option.isSome_iff_exists.mp ((List.isSome_find?).trans hany)
      rw [← heq, hp, Option.some_or]
    · rw [if_neg heq, Option.or_none]
  next =>
    rw [List.find?_append]
    by_cases heq : s.name = name
    · rw [if_pos heq, List.find?_cons, decide_eq_true heq]
    · rw [if_neg heq, List.find?_cons, decide_eq_false heq, List.find?_nil]

/-- Of several signatures with a name the first one gives the topic. -/
theorem find?_foldl_putName (signatures : List Signature) (names : List (String × Word))
    (name : String) :
    (signatures.foldl (fun acc s => putName s acc) names).find? (·.1 = name) =
      (names.find? (·.1 = name)).or
        ((signatures.find? (·.name = name)).map fun s => (s.name, s.topic)) := by
  induction signatures generalizing names with
  | nil => exact Option.or_none.symm
  | cons s signatures ih =>
    rw [List.foldl_cons, ih, find?_putName, Option.or_assoc, List.find?_cons]
    by_cases heq : s.name = name
    · rw [if_pos heq, decide_eq_true heq, Option.some_or, Option.map_some]
    · rw [if_neg heq, decide_eq_false heq, Option.none_or]

/-- A name leads to the topic of the event that was declared first under it. -/
theorem byName?_eq (i : Interface) (name : String) :
    (ofInterface i).byName? name =
      (i.signatures.find? (·.name = name)).bind fun s => (ofInterface i).resolve? s.topic := by
  have hnames : (ofInterface i).names.find? (·.1 = name) =
      (i.signatures.find? (·.name = name)).map fun s => (s.name, s.topic) :=
    (find?_foldl_putName i.signatures [] name).trans Option.none_or
  unfold byName?
  rw [hnames]
  cases i.signatures.find? (·.name = name) <;> rfl

/-- **The names of the declared events lead to an event**, and no others. -/
theorem byName?_isSome {i : Interface} {name : String} :
    (∃ s, (ofInterface i).byName? name = some s) ↔ ∃ s ∈ i.signatures, s.name = name := by
  rw [byName?_eq]
  constructor
  · intro h
    obtain ⟨s, h⟩ := h
    obtain ⟨t, ht, -⟩ := Option.bind_eq_some_iff.mp h
    exact ⟨t, List.mem_of_find?_eq_some ht, by simpa using List.find?_some ht⟩
  · intro h
    obtain ⟨s, hs, rfl⟩ := h
    obtain ⟨t, ht⟩ := Option.isSome_iff_exists.mp
      (List.find?_isSome (p := fun t : Signature => t.name = s.name).mpr
        ⟨s, hs, decide_eq_true rfl⟩)
    obtain ⟨u, hu⟩ := resolve?_isSome (List.mem_of_find?_eq_some ht)
    exact ⟨u, Option.bind_eq_some_iff.mpr ⟨t, ht, hu⟩⟩

/-- **The event that a name leads to has that name.** -/
theorem name_of_byName? {i : Interface} {name : String} {s : Signature} (hi : i.Clear)
    (h : (ofInterface i).byName? name = some s) : s.name = name := by
  rw [byName?_eq] at h
  obtain ⟨t, ht, hs⟩ := Option.bind_eq_some_iff.mp h
  have hname : t.name = name := by simpa using List.find?_some ht
  obtain ⟨hmem, htopic⟩ := mem_of_resolve? hs
  -- The two have one topic.
  rw [hi s (mem_signatures hmem) t (List.mem_of_find?_eq_some ht) htopic, hname]

end Registry

/-! ## The order of declaration -/

namespace Interface

/-- The interface that is read has the declared functions and events, sorted by name. -/
theorem eq_of_ofJson? {js : List Json} {items : List Item} {i : Interface}
    (hitems : js.mapM item? = some items) (h : ofJson? (.arr js) = some i) :
    i = ⟨(items.filterMap Item.function?).mergeSort fun f g => f.name ≤ g.name,
      (items.filterMap Item.event?).mergeSort fun e f => e.name ≤ f.name⟩ := by
  obtain ⟨items', hitems', h⟩ := Option.bind_eq_some_iff.mp h
  obtain rfl : items = items' := Option.some.inj (hitems.symm.trans hitems')
  split at h
  next => exact (Option.some.inj h).symm
  next => cases h

/-- Items that can stand together are read as an interface. -/
theorem ofJson?_of_items {js : List Json} {items : List Item} (hitems : js.mapM item? = some items)
    (hsingles : singlesOk items = true) : ofJson? (.arr js) =
      some ⟨(items.filterMap Item.function?).mergeSort fun f g => f.name ≤ g.name,
        (items.filterMap Item.event?).mergeSort fun e f => e.name ≤ f.name⟩ := by
  show (js.mapM item? >>= _) = _
  rw [hitems]
  exact if_pos hsingles

/-- Sorting by name leaves what has one name in its order. -/
theorem filter_mergeSort {α : Type} {name : α → String} {xs : List α} {n : String} {p : α → Bool}
    (hp : ∀ x ∈ xs, p x = true → name x = n) :
    (xs.mergeSort fun x y => name x ≤ name y).filter p = xs.filter p := by
  have hpairwise : (xs.filter p).Pairwise fun x y => decide (name x ≤ name y) = true := by
    refine List.pairwise_of_forall_mem_list fun x hx y hy => decide_eq_true ?_
    obtain ⟨hx, hpx⟩ := List.mem_filter.mp hx
    obtain ⟨hy, hpy⟩ := List.mem_filter.mp hy
    have heq : name x = name y := (hp x hx hpx).trans (hp y hy hpy).symm
    exact heq ▸ String.le_refl (name x)
  have htrans (x y z : α) (hxy : decide (name x ≤ name y) = true)
      (hyz : decide (name y ≤ name z) = true) : decide (name x ≤ name z) = true :=
    decide_eq_true (String.le_trans (of_decide_eq_true hxy) (of_decide_eq_true hyz))
  have htotal (x y : α) : (decide (name x ≤ name y) || decide (name y ≤ name x)) = true := by
    rw [Bool.or_eq_true, decide_eq_true_iff, decide_eq_true_iff]
    exact String.le_total (name x) (name y)
  have hsub := (List.sublist_mergeSort htrans htotal hpairwise List.filter_sublist).filter p
  simp only [List.filter_filter, Bool.and_self] at hsub
  have hlength := ((List.mergeSort_perm xs fun x y => name x ≤ name y).filter p).length_eq
  exact (hsub.eq_of_length hlength.symm).symm

/-! ## Names in a description -/

/-- A name in a description has no parenthesis. -/
theorem not_mem_of_name? {j : Json} {name : String} (h : name? j = some name) :
    '(' ∉ name.toList := by
  obtain ⟨v, -, h⟩ := Option.bind_eq_some_iff.mp h
  obtain ⟨s, -, h⟩ := Option.bind_eq_some_iff.mp h
  split at h
  next hok =>
    obtain rfl := Option.some.inj h
    intro hmem
    rcases (Bool.or_eq_true _ _).mp hok with hempty | hident
    · rw [String.isEmpty_iff.mp hempty] at hmem
      cases hmem
    · unfold isIdentifier at hident
      split at hident
      next => cases hident
      next c cs hcs =>
        obtain ⟨hfirst, hrest⟩ := (Bool.and_eq_true _ _).mp hident
        rcases List.mem_cons.mp (hcs ▸ hmem) with rfl | hmem
        · cases hfirst
        · cases List.all_eq_true.mp hrest _ hmem
  next => cases h

/-- What a map gives comes from what it was given. -/
theorem exists_of_mem_mapM {α β : Type} {f : α → Option β} {xs : List α} {ys : List β} {y : β}
    (h : xs.mapM f = some ys) (hy : y ∈ ys) : ∃ x ∈ xs, f x = some y := by
  induction xs generalizing ys with
  | nil =>
    obtain rfl := Option.some.inj h
    cases hy
  | cons x xs ih =>
    rw [List.mapM_cons] at h
    obtain ⟨z, hz, h⟩ := Option.bind_eq_some_iff.mp h
    obtain ⟨zs, hzs, h⟩ := Option.bind_eq_some_iff.mp h
    obtain rfl := Option.some.inj h
    rcases List.mem_cons.mp hy with rfl | hy
    · exact ⟨x, List.mem_cons_self, hz⟩
    · obtain ⟨x', hx', h⟩ := ih hzs hy
      exact ⟨x', List.mem_cons_of_mem _ hx', h⟩

/-- The name of an event that is read has no bracket in it. -/
theorem not_mem_of_item? {j : Json} {e : Event} (h : item? j = some (.event e)) :
    '(' ∉ e.name.toList := by
  obtain ⟨v, -, h⟩ := Option.bind_eq_some_iff.mp h
  obtain ⟨kind, -, h⟩ := Option.bind_eq_some_iff.mp h
  split at h
  next => simp [Option.bind_eq_some_iff] at h
  next =>
    split at h
    next =>
      obtain ⟨name, hname, h⟩ := Option.bind_eq_some_iff.mp h
      obtain rfl : e.name = name := by
        simp only [bind, Option.bind_eq_some_iff, Option.some.injEq, Item.event.injEq] at h
        obtain ⟨_, -, _, -, _, -, _, -, _, -, rfl⟩ := h
        rfl
      exact not_mem_of_name? hname
    next =>
      -- No other kind of item is an event.
      split at h
      next => simp [Option.bind_eq_some_iff] at h
      next =>
        split at h
        next => simp [Option.bind_eq_some_iff] at h
        next => simp at h

/-- The names of the events of a described contract have no parenthesis. -/
theorem not_mem_of_ofJson? {j : Json} {i : Interface} {e : Event} (h : ofJson? j = some i)
    (he : e ∈ i.events) : '(' ∉ e.name.toList := by
  obtain ⟨list, -, h⟩ := Option.bind_eq_some_iff.mp h
  obtain ⟨items, hitems, h⟩ := Option.bind_eq_some_iff.mp h
  split at h
  next =>
    obtain rfl := Option.some.inj h
    obtain ⟨item, hmem, hitem⟩ := List.mem_filterMap.mp (List.mem_mergeSort.mp he)
    unfold Item.event? at hitem
    split at hitem
    next =>
      obtain rfl := Option.some.inj hitem
      obtain ⟨x, -, hx⟩ := exists_of_mem_mapM hitems hmem
      exact not_mem_of_item? hx
    next => cases hitem
  next => cases h

/-- A name without a parenthesis is what stands before the first parenthesis of a signature. -/
theorem name_of_signatureText {name : String} (h : '(' ∉ name.toList) (params : List Param) :
    (signatureText name params).toList.takeWhile (· ≠ '(') = name.toList := by
  rw [signatureText, String.append_assoc, String.append_assoc, String.toList_append,
    List.takeWhile_append_of_pos fun c hc => by
      have hne : c ≠ '(' := fun heq => h (heq ▸ hc)
      simpa using hne,
    String.toList_append]
  simp

/-- In a described contract events of one signature have one name. -/
theorem name_of_signature {j : Json} {i : Interface} {e f : Event} (h : ofJson? j = some i)
    (he : e ∈ i.events) (hf : f ∈ i.events) (heq : e.signature = f.signature) :
    e.name = f.name := by
  have hbefore := congrArg (fun text => text.toList.takeWhile (· ≠ '(')) heq
  have hname : e.name.toList = f.name.toList := by
    rw [← name_of_signatureText (not_mem_of_ofJson? h he),
      ← name_of_signatureText (not_mem_of_ofJson? h hf)]
    exact hbefore
  exact String.toList_injective hname

/-- **In a described contract events of one topic have one name**, unless two signatures have one
digest. -/
theorem clear_of_ofJson? {j : Json} {i : Interface} (h : ofJson? j = some i)
    (hk : ∀ s ∈ i.signatures, ∀ t ∈ i.signatures, s.topic = t.topic → s.text = t.text) :
    i.Clear := by
  intro s hs t ht htopic
  have htext := hk s hs t ht htopic
  obtain ⟨e, he, rfl⟩ := List.mem_map.mp hs
  obtain ⟨f, hf, rfl⟩ := List.mem_map.mp ht
  exact name_of_signature h (List.mem_filter.mp he).1 (List.mem_filter.mp hf).1 htext

end Interface

end EventRelay.Abi
