import EventRelay.Proofs.Grammar
import EventRelay.Proofs.Values

/-!
# Every spelling of a rule means the same rule

A rule can be written as any object that is `Rendered` from its parts: members in any order, each
field under any of its names, members that are no fields, null or nothing for what there is none of.
A draft is `Doubled` when a record in it names one of its fields twice. `Rule.spellings_agree` says
what becomes of either, in every text that is written for it and in a finished value.
-/

namespace EventRelay

namespace Json

/-! ## Renderings -/

/-- Members that have names. -/
def Draft.named (ms : List (String × Draft)) : List (Option String × Draft) :=
  ms.map fun m => (some m.1, m.2)

/-- A field of a record that is to be written: its names, whether it may be left out, and what may
be written for it. -/
structure Part where
  names : List String
  omissible : Prop
  written : Draft → Prop

/-- The members that give a field: one under any of its names, or none. -/
inductive Part.Given (p : Part) : List (String × Draft) → Prop
  | here {n : String} {d : Draft} (hn : n ∈ p.names) (hd : p.written d) : p.Given [(n, d)]
  | leftOut (h : p.omissible) : p.Given []

/-- An object that gives some fields, each of them once, in any order and among members that are no
fields. -/
inductive Rendered (parts : List Part) : Draft → Prop
  | intro {given : List (List (String × Draft))} {others ms : List (String × Draft)}
      (hgiven : List.Forall₂ Part.Given parts given)
      (hothers : ∀ m ∈ others, (∀ p ∈ parts, m.1 ∉ p.names) ∧ m.2.isWhole = true)
      (hms : ms.Perm (given.flatten ++ others)) :
      Rendered parts (.obj (Draft.named ms) true)

/-- What stands at the place of a field. -/
inductive Part.Stands (p : Part) : Option Draft → Prop
  | here {d : Draft} (hd : p.written d) : p.Stands (some d)
  | leftOut (h : p.omissible) : p.Stands none

/-- Nothing is gathered from members of other names. -/
theorem gathered_eq_nil {names : List String} {ms : List (String × Draft)}
    (h : ∀ m ∈ ms, m.1 ∉ names) : gathered names (Draft.named ms) = [] := by
  induction ms with
  | nil => rfl
  | cons m ms ih =>
    obtain ⟨hm, hms⟩ := List.forall_mem_cons.mp h
    rw [Draft.named, List.map_cons, gathered_cons_of_not_mem hm]
    exact ih hms

theorem gathered_named_append (names : List String) (ms ms' : List (String × Draft)) :
    gathered names (Draft.named (ms ++ ms')) =
      gathered names (Draft.named ms) ++ gathered names (Draft.named ms') := by
  rw [Draft.named, List.map_append, gathered, List.filterMap_append]
  rfl

/-- The members that give a field go by its names. -/
theorem Part.Given.mem_names {p : Part} {ms : List (String × Draft)} (h : p.Given ms) :
    ∀ m ∈ ms, m.1 ∈ p.names := by
  cases h with
  | here hn _ => exact List.forall_mem_singleton.mpr hn
  | leftOut _ => nofun

/-- A part is given at most once, under one of its names. -/
theorem Part.Given.gathered {p : Part} {ms : List (String × Draft)} (h : p.Given ms) :
    ∃ o : Option Draft, p.Stands o ∧ gathered p.names (Draft.named ms) = o.toList := by
  cases h with
  | @here n d hn hd => exact ⟨some d, .here hd, gathered_cons_of_mem hn d []⟩
  | leftOut h => exact ⟨none, .leftOut h, rfl⟩

/-- The members that give several fields go by the names of those. -/
theorem exists_mem_names {parts : List Part} {given : List (List (String × Draft))}
    (h : List.Forall₂ Part.Given parts given) :
    ∀ m ∈ given.flatten, ∃ p ∈ parts, m.1 ∈ p.names := by
  induction h with
  | nil => nofun
  | @cons p ms parts given hp _ ih =>
    intro m hm
    rw [List.flatten_cons, List.mem_append] at hm
    obtain hm | hm := hm
    · exact ⟨p, List.mem_cons_self, hp.mem_names m hm⟩
    · obtain ⟨q, hq, hmq⟩ := ih m hm
      exact ⟨q, List.mem_cons_of_mem _ hq, hmq⟩

/-- What is given for a field among all that is given. -/
theorem gathered_flatten {parts : List Part} {given : List (List (String × Draft))}
    (hapart : parts.Pairwise fun p q => ∀ n ∈ p.names, n ∉ q.names)
    (h : List.Forall₂ Part.Given parts given) {p : Part} (hp : p ∈ parts) :
    ∃ o : Option Draft, p.Stands o ∧
      gathered p.names (Draft.named given.flatten) = o.toList := by
  induction h with
  | nil => cases hp
  | @cons q ms parts given hq hgiven ih =>
    obtain ⟨hfirst, hapart⟩ := List.pairwise_cons.mp hapart
    rw [List.flatten_cons, gathered_named_append]
    obtain rfl | hp := List.mem_cons.mp hp
    · have hrest : gathered p.names (Draft.named given.flatten) = [] := by
        refine gathered_eq_nil fun m hm hmem => ?_
        obtain ⟨r, hr, hmr⟩ := exists_mem_names hgiven m hm
        exact hfirst r hr m.1 hmem hmr
      rw [hrest, List.append_nil]
      exact hq.gathered
    · have hskip : gathered p.names (Draft.named ms) = [] :=
        gathered_eq_nil fun m hm => hfirst p hp m.1 (hq.mem_names m hm)
      rw [hskip, List.nil_append]
      exact ih hapart hp

/-- A rendered object has the fields that it gives. -/
theorem Rendered.fields? {parts : List Part} {d : Draft}
    (hapart : parts.Pairwise fun p q => ∀ n ∈ p.names, n ∉ q.names) (h : Rendered parts d) :
    ∃ f, Draft.fields? (parts.map Part.names) d = some f ∧
      ∀ (i : Nat) (p : Part), parts[i]? = some p → p.Stands (f i) := by
  obtain @⟨given, others, ms, hgiven, hothers, hms⟩ := h
  have hone : ∀ p ∈ parts, ∃ o : Option Draft, p.Stands o ∧
      gathered p.names (Draft.named ms) = o.toList := by
    intro p hp
    obtain ⟨o, ho, hgathered⟩ := gathered_flatten hapart hgiven hp
    have hrest := gathered_eq_nil fun m hm => (hothers m hm).1 p hp
    have hperm : (gathered p.names (Draft.named ms)).Perm o.toList := by
      have hall := gathered_named_append p.names given.flatten others
      rw [hgathered, hrest, List.append_nil] at hall
      rw [← hall]
      exact (hms.map _).filterMap _
    refine ⟨o, ho, ?_⟩
    cases o with
    | none => exact hperm.eq_nil
    | some d => exact List.perm_singleton.mp hperm
  have hpass : (Draft.named ms).all (passable (parts.map Part.names)) = true := by
    rw [List.all_eq_true]
    intro m hm
    obtain ⟨m, hmem, rfl⟩ := List.mem_map.mp hm
    obtain hm | hm := List.mem_append.mp (hms.mem_iff.mp hmem)
    · obtain ⟨p, hp, hmp⟩ := exists_mem_names hgiven m hm
      have hknown : (parts.map Part.names).any (·.contains m.1) = true := by
        simpa using ⟨p, hp, hmp⟩
      simp only [passable, Option.any_some, hknown, Bool.true_or]
    · simp only [passable, Option.any_some, (hothers m hm).2, Bool.or_true]
  have hmost : ((parts.map Part.names).all fun names =>
      (gathered names (Draft.named ms)).length ≤ 1) = true := by
    rw [List.all_eq_true]
    intro names hnames
    obtain ⟨p, hp, rfl⟩ := List.mem_map.mp hnames
    obtain ⟨o, -, ho⟩ := hone p hp
    rw [ho]
    cases o <;> rfl
  refine ⟨_, if_pos ⟨hpass, hmost⟩, fun i p hi => ?_⟩
  obtain ⟨o, ho, hgathered⟩ := hone p (List.mem_of_getElem? hi)
  have hnames : (parts.map Part.names).getD i [] = p.names := by
    rw [List.getD_eq_getElem?_getD, List.getElem?_map, hi]
    rfl
  rw [hnames, hgathered]
  cases o <;> exact ho

/-! ## Fields that are given twice -/

/-- A record names one of its fields twice, under one spelling or two, or gives a record that
does. -/
inductive Doubled : Form → Draft → Prop
  | here {fields : List (Field Form)} {f : Field Form} {n n' : String}
      {ms : List (Option String × Draft)} {closed : Bool} (hf : f ∈ fields) (hn : n ∈ f.names)
      (hn' : n' ∈ f.names) (h : [some n, some n'].Sublist (ms.map Prod.fst)) :
      Doubled (.record fields) (.obj ms closed)
  | member {fields : List (Field Form)} {f : Field Form} {n : String} {d : Draft}
      {ms : List (Option String × Draft)} {closed : Bool} (hf : f ∈ fields) (hn : n ∈ f.names)
      (hd : (some n, d) ∈ ms) (h : Doubled f.form d) : Doubled (.record fields) (.obj ms closed)
  | place {fields : List (Field Form)} {f : Field Form} {i : Nat} {d : Draft} {ds : List Draft}
      {closed : Bool} (hf : fields[i]? = some f) (hd : ds[i]? = some d) (h : Doubled f.form d) :
      Doubled (.record fields) (.arr ds closed)

/-- A reader that takes nothing in which a field is given twice. -/
def Form.Refuses {α : Type} (form : Form) (read : Draft → Read α) : Prop :=
  ∀ ⦃d : Draft⦄, Doubled form d → (read d).toOption = none

/-- What two members give is gathered from both. -/
theorem one_lt_length_gathered {names : List String} {n n' : String} (hn : n ∈ names)
    (hn' : n' ∈ names) {ms : List (Option String × Draft)}
    (h : [some n, some n'].Sublist (ms.map Prod.fst)) : 1 < (gathered names ms).length := by
  obtain ⟨two, hsub, htwo⟩ := List.sublist_map_iff.mp h
  obtain ⟨d, d', rfl⟩ : ∃ d d', two = [(some n, d), (some n', d')] := by
    obtain _ | ⟨⟨_, d⟩, _ | ⟨⟨_, d'⟩, _ | _⟩⟩ := two <;> cases htwo
    exact ⟨d, d', rfl⟩
  have hgathered : gathered names [(some n, d), (some n', d')] = [d, d'] := by
    rw [gathered_cons_of_mem hn, gathered_cons_of_mem hn']
    rfl
  have hlen := (hsub.filterMap fun m => if m.1.any names.contains then some m.2 else none).length_le
  change (gathered names [(some n, d), (some n', d')]).length ≤ (gathered names ms).length at hlen
  rwa [hgathered] at hlen

/-- The fields of an object have each been given at most once. -/
theorem Draft.fields?_obj_eq_some {layout : List (List String)} {ms : List (Option String × Draft)}
    {closed : Bool} {f : Nat → Option Draft} (h : Draft.fields? layout (.obj ms closed) = some f) :
    (∀ names ∈ layout, (gathered names ms).length ≤ 1) ∧
      ∀ i, f i = (gathered (layout.getD i []) ms).head? := by
  cases closed with
  | false => cases h
  | true =>
    rw [Draft.fields?, Option.ite_none_right_eq_some] at h
    obtain ⟨⟨-, hmost⟩, hf⟩ := h
    obtain rfl := Option.some.inj hf
    exact ⟨fun names hnames => of_decide_eq_true (List.all_eq_true.mp hmost names hnames),
      fun i => rfl⟩

/-- What a member gives stands at the place of its field. -/
theorem Draft.fields?_of_mem {layout : List (List String)} {ms : List (Option String × Draft)}
    {closed : Bool} {f : Nat → Option Draft} (h : Draft.fields? layout (.obj ms closed) = some f)
    {i : Nat} {names : List String} (hi : layout[i]? = some names) {n : String} (hn : n ∈ names)
    {d : Draft} (hd : (some n, d) ∈ ms) : f i = some d := by
  obtain ⟨hmost, hf⟩ := Draft.fields?_obj_eq_some h
  have hone := hmost names (List.mem_of_getElem? hi)
  have hmem : d ∈ gathered names ms :=
    List.mem_filterMap.mpr ⟨(some n, d), hd, if_pos (by simpa using hn)⟩
  rw [hf i, List.getD_eq_getElem?_getD, hi, Option.getD_some]
  obtain ⟨e, he⟩ := List.length_eq_one_iff.mp
    (Nat.le_antisymm hone (List.length_pos_of_mem hmem))
  rw [he] at hmem ⊢
  rw [List.mem_singleton.mp hmem, List.head?_singleton]

namespace Form

variable {α : Type} {read : Draft → Read α}

/-- A reader that refuses still does so when its value may be absent. -/
theorem Refuses.optional {form : Form} (h : form.Refuses read) :
    form.Refuses (Read.optional read) := by
  intro d hd
  have hread := h hd
  cases hd <;> simp only [Read.optional, toOption_map, hread, Option.map_none]

/-- A record is refused when what makes it is, at some place. -/
theorem refuses_record {fields : List (Field Form)} {ofFields : (Nat → Option Draft) → Option α}
    (hread : ∀ d, (read d).toOption = (Draft.fields? (spellings fields) d).bind ofFields)
    (hfields : ∀ (f : Nat → Option Draft) (i : Nat) (g : Field Form) (d : Draft),
      fields[i]? = some g → f i = some d → Doubled g.form d → ofFields f = none) :
    (Form.record fields).Refuses read := by
  intro d h
  rw [hread, Option.bind_eq_none_iff]
  intro f hf
  cases h with
  | @here _ g _ _ ms closed hg hn hn' h =>
    have hmost := (Draft.fields?_obj_eq_some hf).1 g.names (List.mem_map_of_mem hg)
    exact absurd (one_lt_length_gathered hn hn' h) (Nat.not_lt.mpr hmost)
  | @member _ g n d ms closed hg hn hd h =>
    obtain ⟨i, hi⟩ := List.mem_iff_getElem?.mp hg
    have hnames : (spellings fields)[i]? = some g.names := by
      rw [spellings, List.getElem?_map, hi, Option.map_some]
    exact hfields f i g d hi (Draft.fields?_of_mem hf hnames hn hd) h
  | @place _ g i d ds closed hg hd h =>
    cases closed with
    | false => cases hf
    | true =>
      rw [Draft.fields?, Option.ite_none_right_eq_some] at hf
      obtain rfl := Option.some.inj hf.2
      exact hfields _ i g d hg hd h

end Form

end Json

open Json (Draft Read Source Form Field Part Rendered Doubled)

/-! ## Rules -/

/-- A list of texts as it is read. -/
def Json.Draft.texts (ss : List String) : Draft := .arr (ss.map fun s => .str (some s)) true

/-- What an invocation gives. -/
def Invocation.parts (i : Invocation) : List Part :=
  [⟨["name"], False, (· = .str (some i.method))⟩,
   ⟨["params"], i.params = [], (· = Draft.texts i.params)⟩]

/-- What a callback gives. -/
def Callback.parts (c : Callback) : List Part :=
  [⟨["event_name", "eventName"], c.event = none, (· = c.event.elim .null fun e => .str (some e))⟩,
   ⟨["target", "targetTag", "contract"], False, (· = .str (some c.target.name))⟩,
   ⟨["method"], False, (· = .str (some c.call.method))⟩,
   ⟨["params"], c.call.params = [], (· = Draft.texts c.call.params)⟩]

/-- What a rule gives. -/
def Rule.parts (r : Rule) : List Part :=
  [⟨["event_name", "eventName"], False, (· = .str (some r.event))⟩,
   ⟨["target_method", "targetMethod", "privateMethod"], False, Rendered r.call.parts⟩,
   ⟨["callback"], r.callback = none, fun d => r.callback.elim (d = .null) (Rendered ·.parts d)⟩]

namespace Json

variable {α : Type} {names : List String} {omissible : Prop} {written : Draft → Prop}
  {read : Draft → Read α} {o : Option Draft} {x : α}

/-- A field that must be there is read as what it is written for. -/
theorem Part.Stands.need (h : Part.Stands ⟨names, False, written⟩ o)
    (hread : ∀ d, written d → (read d).toOption = some x) : Read.need read o = some x := by
  cases h with
  | here hd => exact hread _ hd
  | leftOut h => exact h.elim

/-- A field that may be left out is read as what it is written for, or as its own value. -/
theorem Part.Stands.orElse {default : α} (h : Part.Stands ⟨names, omissible, written⟩ o)
    (hread : ∀ d, written d → (read d).toOption = some x) (hdefault : omissible → x = default) :
    Read.orElse default read o = some x := by
  cases h with
  | here hd => exact hread _ hd
  | leftOut h => rw [hdefault h, Read.orElse]

theorem toOption_string (s : String) : ∀ d, d = Draft.str (some s) →
    (Read.string d).toOption = some s := by
  rintro _ rfl
  rfl

/-- A list of texts is read as it stands. -/
theorem toOption_texts (ss : List String) : ∀ d, d = Draft.texts ss →
    (Read.list Read.string d).toOption = some ss := by
  rintro _ rfl
  have hitems : (Read.items Read.string (ss.map fun s => .str (some s))).toOption = some ss := by
    induction ss with
    | nil => rfl
    | cons s ss ih =>
      rw [List.map_cons, Read.items, toOption_bind, toOption_string s _ rfl, Option.bind_some,
        toOption_bind, ih]
      rfl
  simp only [Draft.texts, Read.list, toOption_bind, hitems, Option.bind_some, if_true,
    toOption_pure]

end Json

theorem Side.toOption_ofDraft (source : Source) (side : Side) : ∀ d,
    d = Draft.str (some side.name) → (Side.ofDraft source d).toOption = some side := by
  rintro _ rfl
  cases side <;> rfl

/-- An invocation is read from every way to write it. -/
theorem Invocation.toOption_of_rendered (source : Source) (i : Invocation) : ∀ d,
    Rendered i.parts d → (Invocation.ofDraft source d).toOption = some i := by
  intro d h
  obtain ⟨f, hf, hstands⟩ := h.fields? (by simp [parts])
  have hfields : Draft.fields? layout.names d = some f := hf
  rw [toOption_ofDraft, hfields, Option.bind_some, ofFields,
    (hstands 0 _ rfl).need (Json.toOption_string _),
    (hstands 1 _ rfl).orElse (Json.toOption_texts _) id]
  rfl

/-- A callback is read from every way to write it. -/
theorem Callback.toOption_of_rendered (source : Source) (c : Callback) : ∀ d,
    Rendered c.parts d → (Callback.ofDraft source d).toOption = some c := by
  intro d h
  obtain ⟨f, hf, hstands⟩ := h.fields? (by simp [parts])
  have hfields : Draft.fields? (layout source).names d = some f := hf
  have hevent : ∀ d, d = c.event.elim Draft.null (fun e => .str (some e)) →
      (Read.optional Read.string d).toOption = some c.event := by
    rintro _ rfl
    cases c.event <;> rfl
  rw [toOption_ofDraft, hfields, Option.bind_some, ofFields,
    (hstands 0 _ rfl).orElse hevent id, (hstands 1 _ rfl).need (Side.toOption_ofDraft source _),
    (hstands 2 _ rfl).need (Json.toOption_string _),
    (hstands 3 _ rfl).orElse (Json.toOption_texts _) id]
  rfl

namespace Rule

/-- A rule is read from every way to write it. -/
theorem toOption_of_rendered (source : Source) (r : Rule) {d : Draft} (h : Rendered r.parts d) :
    (Rule.ofDraft source d).toOption = some r := by
  obtain ⟨f, hf, hstands⟩ := h.fields? (by simp [parts])
  have hfields : Draft.fields? (layout source).names d = some f := hf
  have hcallback : ∀ d, (r.callback.elim (d = Draft.null) fun c => Rendered c.parts d) →
      (Read.optional (Callback.ofDraft source) d).toOption = some r.callback := by
    intro d hd
    cases hc : r.callback with
    | none =>
      rw [hc] at hd
      obtain rfl : d = .null := hd
      rfl
    | some c =>
      rw [hc] at hd
      have hread := Callback.toOption_of_rendered source c d hd
      obtain @⟨given, others, ms, _, _, _⟩ : Rendered c.parts d := hd
      simp only [Read.optional, toOption_map, hread, Option.map_some]
  rw [toOption_ofDraft, hfields, Option.bind_some, ofFields,
    (hstands 0 _ rfl).need (Json.toOption_string _),
    (hstands 1 _ rfl).need (Invocation.toOption_of_rendered source _),
    (hstands 2 _ rfl).orElse hcallback id]
  rfl

end Rule

/-! ### Rules that give a field twice -/

/-- An invocation that names a field twice is refused. -/
theorem Invocation.refuses_ofDraft (source : Source) :
    Invocation.form.Refuses (Invocation.ofDraft source) := by
  refine Form.refuses_record (toOption_ofDraft source) fun f i g d hg hd h => ?_
  -- No field of an invocation is a record.
  obtain _ | _ | i := i <;> cases hg <;> cases h

theorem Callback.refuses_ofDraft (source : Source) :
    Callback.form.Refuses (Callback.ofDraft source) := by
  refine Form.refuses_record (toOption_ofDraft source) fun f i g d hg hd h => ?_
  obtain _ | _ | _ | _ | i := i <;> cases hg <;> cases h

/-- A rule that gives a field twice is refused. -/
theorem Rule.refuses_ofDraft (source : Source) : Rule.form.Refuses (Rule.ofDraft source) := by
  refine Form.refuses_record (toOption_ofDraft source) fun f i g d hg hd h => ?_
  obtain _ | _ | _ | i := i <;> cases hg
  · cases h
  · have hcall : Read.need (Invocation.ofDraft source) (f 1) = none := by
      rw [hd]
      exact Invocation.refuses_ofDraft source h
    simp only [ofFields, hcall, Option.bind_eq_bind, Option.bind_none, Option.bind_fun_none]
  · have hcallback :
        Read.orElse none (Read.optional (Callback.ofDraft source)) (f 2) = none := by
      rw [hd]
      exact (Callback.refuses_ofDraft source).optional h
    simp only [ofFields, hcallback, Option.bind_eq_bind, Option.bind_none, Option.bind_fun_none]

/-! ### Texts and values -/

theorem Json.draft_ofTexts (ss : List String) : (Json.ofTexts ss).draft = Draft.texts ss := by
  rw [Json.ofTexts, Json.draft, Draft.draftItems_eq_map, List.map_map]
  rfl

theorem Json.writtenAs_ofTexts (ss : List String) :
    (Json.ofTexts ss).draft.WrittenAs (Json.ofTexts ss).render := by
  refine Json.writtenAs_arr fun j hj => ?_
  obtain ⟨s, -, rfl⟩ := List.mem_map.mp hj
  exact Json.writtenAs_str s

/-- The members that are given, and nothing else. -/
theorem Json.Rendered.plain {parts : List Part} {given : List (List (String × Draft))}
    (h : List.Forall₂ Part.Given parts given) :
    Rendered parts (.obj (Draft.named given.flatten) true) :=
  .intro h (List.forall_mem_nil _) (by rw [List.append_nil])

theorem Invocation.rendered_toJson (i : Invocation) : Rendered i.parts i.toJson.draft :=
  .plain (.cons (.here List.mem_cons_self rfl)
    (.cons (.here List.mem_cons_self (Json.draft_ofTexts _)) .nil))

theorem Invocation.writtenAs_toJson (i : Invocation) : i.toJson.draft.WrittenAs i.toJson.render :=
  Json.writtenAs_obj (List.forall_mem_cons.mpr ⟨Json.writtenAs_str _,
    List.forall_mem_singleton.mpr (Json.writtenAs_ofTexts _)⟩)

/-- The JSON of a callback renders its parts. -/
theorem Callback.rendered_toJson (c : Callback) : Rendered c.parts c.toJson.draft := by
  obtain ⟨event, target, call⟩ := c
  have htexts := Json.draft_ofTexts call.params
  cases event <;>
    exact .plain (.cons (.here List.mem_cons_self rfl) (.cons (.here List.mem_cons_self rfl)
      (.cons (.here List.mem_cons_self rfl) (.cons (.here List.mem_cons_self htexts) .nil))))

theorem Callback.writtenAs_toJson (c : Callback) : c.toJson.draft.WrittenAs c.toJson.render := by
  refine Json.writtenAs_obj (List.forall_mem_cons.mpr ⟨?_, List.forall_mem_cons.mpr
    ⟨Json.writtenAs_str _, List.forall_mem_cons.mpr ⟨Json.writtenAs_str _,
      List.forall_mem_singleton.mpr (Json.writtenAs_ofTexts _)⟩⟩⟩)
  cases c.event with
  | none => exact Json.writtenAs_null
  | some e => exact Json.writtenAs_str e

namespace Rule

/-- The JSON of a rule renders its parts. -/
theorem rendered_toJson (r : Rule) : Rendered r.parts r.toJson.draft := by
  obtain ⟨event, call, callback⟩ := r
  have hcall := call.rendered_toJson
  cases callback with
  | none =>
    exact .plain (.cons (.here List.mem_cons_self rfl) (.cons (.here List.mem_cons_self hcall)
      (.cons (.here List.mem_cons_self rfl) .nil)))
  | some c =>
    exact .plain (.cons (.here List.mem_cons_self rfl) (.cons (.here List.mem_cons_self hcall)
      (.cons (.here List.mem_cons_self c.rendered_toJson) .nil)))

/-- The text of a rule is one of its JSON. -/
theorem writtenAs_toJson (r : Rule) : r.toJson.draft.WrittenAs r.toJson.render := by
  refine Json.writtenAs_obj (List.forall_mem_cons.mpr ⟨Json.writtenAs_str _,
    List.forall_mem_cons.mpr ⟨r.call.writtenAs_toJson, List.forall_mem_singleton.mpr ?_⟩⟩)
  cases r.callback with
  | none => exact Json.writtenAs_null
  | some c => exact c.writtenAs_toJson

/-- A text is read as what it says, if it says nothing else. -/
theorem ofText_eq (t : String) : Rule.ofText t =
    (Rule.ofDraft .text (Draft.ofText t).1).bind fun r =>
      if (Draft.ofText t).2 then .ok r else .error .malformed :=
  rfl

/-- A rule is read from any text of its draft. -/
theorem ofText_of_written {d : Draft} {t : String} (h : d.WrittenAs t) :
    Rule.ofText t = Rule.ofDraft .text d := by
  rw [ofText_eq, h.ofText]
  cases Rule.ofDraft .text d <;> rfl

/-- A text is rejected when what it says as far as it is JSON is. -/
theorem exists_ofText_eq_error {t : String}
    (h : (Rule.ofDraft .text (Draft.ofText t).1).toOption = none) :
    ∃ e, Rule.ofText t = .error e := by
  obtain ⟨e, he⟩ := toOption_eq_none.mp h
  exact ⟨e, by rw [ofText_eq, he]; rfl⟩

/-- **Every spelling of a rule means the same rule**, in the texts that are written for it and in
finished values, so that what is written from a rule is read as it again; and whatever names a field
twice is rejected. -/
theorem spellings_agree (r : Rule) (d : Draft) :
    (Rendered r.parts d →
      (∀ t, d.WrittenAs t → Rule.ofText t = .ok r) ∧
      ∀ j : Json, j.draft = d → Rule.ofJson j = .ok r) ∧
    Rule.ofText r.toJson.render = .ok r ∧ Rule.ofJson r.toJson = .ok r ∧
    (Doubled Rule.form d →
      (∀ t, d.WrittenAs t ∨ (Draft.ofText t).1 = d → ∃ e, Rule.ofText t = .error e) ∧
      ∀ j : Json, j.draft = d → ∃ e, Rule.ofJson j = .error e) := by
  have hread : ∀ {d}, Rendered r.parts d → ∀ source, Rule.ofDraft source d = .ok r :=
    fun h source => toOption_eq_some.mp (toOption_of_rendered source r h)
  refine ⟨fun h => ⟨fun t ht => ?_, ?_⟩, ?_, ?_, fun h => ⟨fun t ht => ?_, ?_⟩⟩
  · rw [ofText_of_written ht]
    exact hread h .text
  · rintro j rfl
    exact hread h .value
  · rw [ofText_of_written r.writtenAs_toJson]
    exact hread r.rendered_toJson .text
  · exact hread r.rendered_toJson .value
  · have hsaid : (Draft.ofText t).1 = d := ht.elim (fun ht => by rw [ht.ofText]) id
    refine exists_ofText_eq_error ?_
    rw [hsaid]
    exact Rule.refuses_ofDraft .text h
  · rintro j rfl
    exact toOption_eq_none.mp (Rule.refuses_ofDraft .value h)

/-- The rule that passes a bid on, in other words than it is written in, with a member more. -/
def passingBidsRenamed : Json :=
  .obj [("note", .arr [.null]), ("callback", .null),
    ("privateMethod", passingBids.call.toJson), ("eventName", .str passingBids.event)]

/-- The same rule with its event named under two spellings. -/
def passingBidsDoubled : Json :=
  .obj [("event_name", .str passingBids.event), ("target_method", passingBids.call.toJson),
    ("eventName", .str passingBids.event)]

/-- The rule in other words is the same rule, and the rule with its event named twice is none. -/
theorem spellings_agree_passingBids :
    Rule.ofText passingBidsRenamed.render = .ok passingBids ∧
      ∃ e, Rule.ofText passingBidsDoubled.render = .error e := by
  have hgiven : List.Forall₂ Part.Given passingBids.parts
      [[("eventName", .str (some passingBids.event))],
        [("privateMethod", passingBids.call.toJson.draft)], [("callback", .null)]] :=
    .cons (.here (by decide) rfl) (.cons (.here (by decide) passingBids.call.rendered_toJson)
      (.cons (.here (by decide) rfl) .nil))
  have hothers : ∀ m ∈ [("note", Draft.arr [.null] true)],
      (∀ p ∈ passingBids.parts, m.1 ∉ p.names) ∧ m.2.isWhole = true :=
    List.forall_mem_singleton.mpr ⟨by simp [parts], rfl⟩
  have hrenamed : Rendered passingBids.parts passingBidsRenamed.draft :=
    .intro hgiven hothers (List.reverse_perm _)
  have hdoubled : Doubled Rule.form passingBidsDoubled.draft :=
    .here List.mem_cons_self List.mem_cons_self (List.mem_cons_of_mem _ List.mem_cons_self)
      (by decide)
  have hcall := passingBids.call.writtenAs_toJson
  have hevent := Json.writtenAs_str passingBids.event
  have hnote : (Json.arr [.null]).draft.WrittenAs (Json.arr [.null]).render :=
    Json.writtenAs_arr (List.forall_mem_singleton.mpr Json.writtenAs_null)
  have hwritten : passingBidsRenamed.draft.WrittenAs passingBidsRenamed.render :=
    Json.writtenAs_obj (by simpa using ⟨hnote, Json.writtenAs_null, hcall, hevent⟩)
  have hwritten' : passingBidsDoubled.draft.WrittenAs passingBidsDoubled.render :=
    Json.writtenAs_obj (by simpa using ⟨hevent, hcall, hevent⟩)
  obtain ⟨hread, -, -, -⟩ := spellings_agree passingBids passingBidsRenamed.draft
  obtain ⟨-, -, -, hrejected⟩ := spellings_agree passingBids passingBidsDoubled.draft
  exact ⟨(hread hrenamed).1 _ hwritten, (hrejected hdoubled).1 _ (.inl hwritten')⟩

end Rule

end EventRelay
