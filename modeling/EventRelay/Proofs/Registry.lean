import EventRelay.Abi.Registry

/-!
# What a registry finds, and what a decoded log carries

The events of a registry stand in order of their topics, so that each is found by its topic
(`Registry.resolve?_of_mem`). A log that is decoded carries the fields of the event that its topic
stands for (`Signature.get?_isSome`), and a call of a method that is there fails for its arguments
only (`Registry.matched_of_hasMethod`).
-/

namespace EventRelay

/-- A chain of two succeeds when both do. -/
theorem bind_eq_ok {ε α β : Type} {x : Except ε α} {f : α → Except ε β} {b : β} :
    x >>= f = .ok b ↔ ∃ a, x = .ok a ∧ f a = .ok b := by
  cases x with
  | error e => exact ⟨fun h => (by cases h), fun ⟨a, h, _⟩ => (by cases h)⟩
  | ok a =>
    constructor
    · exact fun h => ⟨a, rfl, h⟩
    · intro h
      obtain ⟨a', h, hf⟩ := h
      obtain rfl := Except.ok.inj h
      exact hf

/-- A chain of two fails with the first error. -/
theorem bind_eq_error {ε α β : Type} {x : Except ε α} {f : α → Except ε β} {e : ε} :
    x >>= f = .error e ↔ x = .error e ∨ ∃ a, x = .ok a ∧ f a = .error e := by
  cases x with
  | error e' =>
    constructor
    · intro h
      obtain rfl := Except.error.inj h
      exact .inl rfl
    · intro h
      obtain h | ⟨a, h, -⟩ := h
      · obtain rfl := Except.error.inj h
        rfl
      · cases h
  | ok a =>
    constructor
    · exact fun h => .inr ⟨a, rfl, h⟩
    · intro h
      obtain h | ⟨a', h, hf⟩ := h
      · cases h
      · obtain rfl := Except.ok.inj h
        exact hf

theorem map_eq_ok {ε α β : Type} {x : Except ε α} {f : α → β} {b : β} :
    x.map f = .ok b ↔ ∃ a, x = .ok a ∧ f a = b := by
  cases x with
  | error e => exact ⟨nofun, nofun⟩
  | ok a =>
    constructor
    · exact fun h => ⟨a, rfl, Except.ok.inj h⟩
    · intro h
      obtain ⟨a', h, rfl⟩ := h
      obtain rfl := Except.ok.inj h
      rfl

theorem mapError_eq_error {ε ε' α : Type} {x : Except ε α} {f : ε → ε'} {e : ε'}
    (h : x.mapError f = .error e) : ∃ e', x = .error e' ∧ f e' = e := by
  cases x with
  | error e' => exact ⟨e', rfl, Except.error.inj h⟩
  | ok a => cases h

theorem mapError_eq_ok {ε ε' α : Type} {x : Except ε α} {f : ε → ε'} {a : α} :
    x.mapError f = .ok a ↔ x = .ok a := by
  cases x with
  | error e => exact ⟨nofun, nofun⟩
  | ok a' => exact ⟨fun h => congrArg _ (Except.ok.inj h), fun h => congrArg _ (Except.ok.inj h)⟩

/-- Of elements with different keys each is found by its key. -/
theorem find?_of_distinct {α β : Type} [DecidableEq β] {key : α → β} {x : α} {xs : List α}
    (h : xs.Pairwise fun y z => key y ≠ key z) (hx : x ∈ xs) :
    xs.find? (fun y => key y = key x) = some x := by
  induction xs with
  | nil => cases hx
  | cons y xs ih =>
    obtain ⟨hfirst, hrest⟩ := List.pairwise_cons.mp h
    rcases List.mem_cons.mp hx with rfl | hx
    · exact List.find?_cons_of_pos (decide_eq_true rfl)
    · rw [List.find?_cons_of_neg (by simpa using hfirst x hx)]
      exact ih hrest hx

namespace Abi

/-! ## Events by their topics -/

/-- Events in order of their topics, one for each topic. -/
def InOrder (events : List Signature) : Prop :=
  events.Pairwise fun s t => s.topic.toNat < t.topic.toNat

/-- Putting a signature in adds no other. -/
theorem Registry.mem_put {s t : Signature} {events : List Signature} (h : t ∈ put s events) :
    t = s ∨ t ∈ events := by
  induction events with
  | nil => exact .inl (List.mem_singleton.mp h)
  | cons u events ih =>
    rw [put] at h
    split at h
    · exact List.mem_cons.mp h
    · split at h
      · exact (List.mem_cons.mp h).imp_right (List.mem_cons_of_mem _)
      · rcases List.mem_cons.mp h with rfl | h
        · exact .inr List.mem_cons_self
        · exact (ih h).imp_right (List.mem_cons_of_mem _)

/-- A signature that is put in is there. -/
theorem Registry.mem_put_self (s : Signature) (events : List Signature) : s ∈ put s events := by
  induction events with
  | nil => exact List.mem_singleton_self s
  | cons t events ih =>
    rw [put]
    split
    · exact List.mem_cons_self
    · split
      · exact List.mem_cons_self
      · exact List.mem_cons_of_mem _ ih

/-- An event stays when one of another topic is put. -/
theorem Registry.mem_put_of_mem {s t : Signature} {events : List Signature} (h : t ∈ events)
    (hne : s.topic ≠ t.topic) : t ∈ put s events := by
  induction events with
  | nil => cases h
  | cons u events ih =>
    rw [put]
    split
    · exact List.mem_cons_of_mem _ h
    · split
      next heq =>
        rcases List.mem_cons.mp h with rfl | h
        · exact absurd heq hne
        · exact List.mem_cons_of_mem _ h
      next =>
        rcases List.mem_cons.mp h with rfl | h
        · exact List.mem_cons_self
        · exact List.mem_cons_of_mem _ (ih h)

/-- An event is put where its topic stands. -/
theorem Registry.inOrder_put {s : Signature} {events : List Signature} (h : InOrder events) :
    InOrder (put s events) := by
  induction events with
  | nil => exact List.pairwise_singleton _ _
  | cons t events ih =>
    obtain ⟨hfirst, hrest⟩ := List.pairwise_cons.mp h
    rw [put]
    split
    next hlt =>
      refine List.pairwise_cons.mpr ⟨fun u hu => ?_, h⟩
      rcases List.mem_cons.mp hu with rfl | hu
      · exact hlt
      · exact Nat.lt_trans hlt (hfirst u hu)
    next hge =>
      split
      next heq =>
        refine List.pairwise_cons.mpr ⟨fun u hu => ?_, hrest⟩
        rw [heq]
        exact hfirst u hu
      next hne =>
        have hlt : t.topic.toNat < s.topic.toNat := by
          have : s.topic.toNat ≠ t.topic.toNat := fun h => hne (BitVec.eq_of_toNat_eq h)
          omega
        -- The event goes somewhere behind the first one, whose topic is smaller.
        refine List.pairwise_cons.mpr ⟨fun u hu => ?_, ih hrest⟩
        rcases mem_put hu with rfl | hu
        · exact hlt
        · exact hfirst u hu

/-- Putting signatures in keeps the events in order. -/
theorem Registry.inOrder_foldl {signatures events : List Signature} (h : InOrder events) :
    InOrder (signatures.foldl (fun acc s => put s acc) events) := by
  induction signatures generalizing events with
  | nil => exact h
  | cons s signatures ih => exact ih (inOrder_put h)

theorem Registry.inOrder_ofInterface (i : Interface) : InOrder (ofInterface i).events :=
  inOrder_foldl List.Pairwise.nil

/-- An event in order is the one that is found by its topic. -/
theorem find?_of_inOrder {s : Signature} {events : List Signature} (h : InOrder events)
    (hs : s ∈ events) : events.find? (·.topic = s.topic) = some s :=
  find?_of_distinct (h.imp fun hlt heq => absurd (heq ▸ hlt) (Nat.lt_irrefl _)) hs

/-- **Each event of a described contract is found by its topic.** -/
theorem Registry.resolve?_of_mem {i : Interface} {s : Signature}
    (hs : s ∈ (ofInterface i).events) : (ofInterface i).resolve? s.topic = some s :=
  find?_of_inOrder (inOrder_ofInterface i) hs

/-- A name stands for the event of the described contract that has the topic of the name. -/
theorem Registry.byName?_of_mem {i : Interface} {s : Signature} {name : String}
    (hname : (ofInterface i).names.find? (·.1 = name) = some (s.name, s.topic))
    (hs : s ∈ (ofInterface i).events) : (ofInterface i).byName? name = some s :=
  Option.bind_eq_some_iff.mpr ⟨(s.name, s.topic), hname, resolve?_of_mem hs⟩

/-- What a topic resolves to is an event of this topic. -/
theorem Registry.mem_of_resolve? {r : Registry} {topic : Word} {s : Signature}
    (h : r.resolve? topic = some s) : s ∈ r.events ∧ s.topic = topic :=
  ⟨List.mem_of_find?_eq_some h, by simpa using List.find?_some h⟩

/-! ## The fields of a decoded log -/

namespace Signature

/-- Values are given to the fields in their order. -/
theorem names_of_assign {text : String} {fields : List Field} {indexed body : List Value}
    {decoded : List DecodedField} (h : assign text fields indexed body = .ok decoded) :
    decoded.map (·.name) = fields.map (·.name) := by
  induction fields generalizing indexed body decoded with
  | nil =>
    obtain rfl := Except.ok.inj h
    rfl
  | cons f fields ih =>
    unfold assign at h
    split at h
    · obtain ⟨rest, hrest, h⟩ := bind_eq_ok.mp h
      obtain rfl := Except.ok.inj h
      rw [List.map_cons, List.map_cons, ih hrest]
    · obtain ⟨rest, hrest, h⟩ := bind_eq_ok.mp h
      obtain rfl := Except.ok.inj h
      rw [List.map_cons, List.map_cons, ih hrest]
    · cases h

/-- A log that is decoded has the topic of the event and carries its fields. -/
theorem decode_eq_ok {s : Signature} {log : Log} {d : DecodedLog} (h : s.decode log = .ok d) :
    log.topic0 = some s.topic ∧ d.fields.map (·.name) = s.fields.map (·.name) := by
  rw [decode] at h
  split at h
  next => cases h
  next htopic =>
    obtain ⟨⟨indexed, body⟩, -, h⟩ := bind_eq_ok.mp h
    simp only at h
    split at h
    next => cases h
    next =>
      obtain ⟨values, -, h⟩ := bind_eq_ok.mp h
      obtain ⟨fields, hfields, h⟩ := bind_eq_ok.mp h
      obtain rfl := Except.ok.inj h
      exact ⟨Decidable.not_not.mp htopic, names_of_assign hfields⟩

/-- **A decoded log has a value for each field of its event**, and for no other name. -/
theorem get?_isSome {s : Signature} {log : Log} {d : DecodedLog} (h : s.decode log = .ok d)
    (name : String) : (d.get? name).isSome = s.hasField name := by
  have hnames := (decode_eq_ok h).2
  have hany : d.fields.any (·.name = name) = s.fields.any (·.name = name) := by
    have := congrArg (List.any · (· = name)) hnames
    simpa only [List.any_map, Function.comp_def] using this
  rw [DecodedLog.get?, Option.isSome_map, List.isSome_find?, hany, hasField]

end Signature

/-! ## Calls of methods -/

/-- Whether a call fails because there is no such method. -/
def CallError.isUnmatched : CallError → Bool
  | .unknownMethod _ | .noOverload .. => true
  | _ => false

/-- Arguments fail for their types only. -/
theorem Registry.matched_of_coerceAll {method : String} {params : List Param} {args : List Value}
    {e : CallError} (h : coerceAll method params args = .error e) : e.isUnmatched = false := by
  induction params generalizing args e with
  | nil => cases h
  | cons p params ih =>
    cases args with
    | nil => cases h
    | cons v args =>
      rw [coerceAll] at h
      rcases bind_eq_error.mp h with h | ⟨k, -, h⟩
      · obtain ⟨fault, -, rfl⟩ := mapError_eq_error h
        rfl
      · rcases bind_eq_error.mp h with h | ⟨w, -, h⟩
        · obtain ⟨fault, -, rfl⟩ := mapError_eq_error h
          rfl
        · rcases bind_eq_error.mp h with h | ⟨ws, -, h⟩
          · exact ih h
          · cases h

/-- A method that is found has the name it was looked up by. -/
theorem Registry.named_of_method? {r : Registry} {method : String} {arity : Nat} {f : Function}
    (h : r.method? method arity = some f) : r.functions.any (·.name = method) = true := by
  have hfound := List.find?_some h
  rw [Bool.and_eq_true] at hfound
  exact List.any_eq_true.mpr ⟨f, List.mem_of_find?_eq_some h, hfound.1⟩

/-- **A call of a method that is there fails for the types of its arguments only.** -/
theorem Registry.matched_of_hasMethod {r : Registry} {method : String} {args : List Value}
    {e : CallError} (hm : r.hasMethod method args.length = true)
    (h : r.encodeCall method args = .error e) : e.isUnmatched = false := by
  obtain ⟨f, hf⟩ := Option.isSome_iff_exists.mp hm
  rw [encodeCall, named_of_method? hf, if_pos rfl] at h
  dsimp only at h
  rw [hf] at h
  rcases bind_eq_error.mp h with h | ⟨values, -, h⟩
  · exact matched_of_coerceAll h
  · obtain ⟨fault, -, rfl⟩ := mapError_eq_error h
    rfl

end Abi

end EventRelay
