import EventRelay.Proofs.Fields
import Mathlib.Data.List.Pairwise
import Mathlib.Data.String.Basic
import Mathlib.Logic.Relation

/-!
# Writing the same in another way

`Respelled` is one edit of a document that leaves alone what it says: the members of an object in
another order, a member that is no field, another spelling of a field, null in place of a field that
may be left out. What may be edited where is told by a `Form`, and the form of a record by those of
its fields. A reader `Respects` a form when no edit changes what it reads; for a record this follows
from its fields (`Form.respects_record`), since an edit of a record changes them one by one
(`Respelled.fields?`). Readers of configurations respect `Config.form`.
-/

namespace EventRelay.Json

/-! ## Another order -/

namespace Draft

/-- One step of putting the members of objects into another order, at any depth. -/
inductive Reordered : Draft → Draft → Prop
  | swap {before after : List (Option String × Draft)} {m m' : Option String × Draft}
      {closed : Bool} (h : m.1 ≠ m'.1) :
      Reordered (.obj (before ++ m :: m' :: after) closed)
        (.obj (before ++ m' :: m :: after) closed)
  | member {before after : List (Option String × Draft)} {name : Option String} {d d' : Draft}
      {closed : Bool} (h : Reordered d d') :
      Reordered (.obj (before ++ (name, d) :: after) closed)
        (.obj (before ++ (name, d') :: after) closed)
  | item {before after : List Draft} {d d' : Draft} {closed : Bool} (h : Reordered d d') :
      Reordered (.arr (before ++ d :: after) closed) (.arr (before ++ d' :: after) closed)

theorem heights_append (xs ys : List Draft) :
    heights (xs ++ ys) = max (heights xs) (heights ys) := by
  induction xs with
  | nil => simp [heights]
  | cons x xs ih => simp [heights, ih, Nat.max_assoc]

theorem memberHeights_append (xs ys : List (Option String × Draft)) :
    memberHeights (xs ++ ys) = max (memberHeights xs) (memberHeights ys) := by
  induction xs with
  | nil => simp [memberHeights]
  | cons x xs ih => simp [memberHeights, ih, Nat.max_assoc]

theorem allWhole_append (xs ys : List Draft) :
    allWhole (xs ++ ys) = (allWhole xs && allWhole ys) := by
  induction xs with
  | nil => simp [allWhole]
  | cons x xs ih => simp [allWhole, ih, Bool.and_assoc]

theorem membersWhole_append (xs ys : List (Option String × Draft)) :
    membersWhole (xs ++ ys) = (membersWhole xs && membersWhole ys) := by
  induction xs with
  | nil => simp [membersWhole]
  | cons x xs ih => simp [membersWhole, ih, Bool.and_assoc]

/-- The order of the members does not change the height. -/
theorem Reordered.height_eq {d d' : Draft} (h : Reordered d d') : d.height = d'.height := by
  induction h with
  | swap _ => simp [height, memberHeights_append, memberHeights, Nat.max_left_comm]
  | member _ ih => simp [height, memberHeights_append, memberHeights, ih]
  | item _ ih => simp [height, heights_append, heights, ih]

/-- Nor does it change whether all is whole. -/
theorem Reordered.isWhole_eq {d d' : Draft} (h : Reordered d d') : d.isWhole = d'.isWhole := by
  induction h with
  | swap _ => simp [isWhole, membersWhole_append, membersWhole, Bool.and_left_comm]
  | member _ ih => simp [isWhole, membersWhole_append, membersWhole, ih]
  | item _ ih => simp [isWhole, allWhole_append, allWhole, ih]

end Draft

theorem put_cons_of_lt {n k : String} (h : n < k) (v w : Json) (ms : List (String × Json)) :
    put n v ((k, w) :: ms) = (n, v) :: (k, w) :: ms := by
  simp [put, h]

theorem put_cons_self (n : String) (v w : Json) (ms : List (String × Json)) :
    put n v ((n, w) :: ms) = (n, v) :: ms := by
  simp [put]

theorem put_cons_of_gt {n k : String} (h : k < n) (v w : Json) (ms : List (String × Json)) :
    put n v ((k, w) :: ms) = (k, w) :: put n v ms := by
  simp [put, h.not_gt, h.ne']

/-- Members of two names can be put into an object in any order. -/
theorem put_comm_of_lt {n n' : String} (h : n < n') (v v' : Json) (ms : List (String × Json)) :
    put n v (put n' v' ms) = put n' v' (put n v ms) := by
  induction ms with
  | nil =>
    have hleft : put n v (put n' v' []) = [(n, v), (n', v')] := put_cons_of_lt h v v' []
    have hright : put n' v' (put n v []) = [(n, v), (n', v')] := put_cons_of_gt h v' v []
    rw [hleft, hright]
  | cons m ms ih =>
    obtain ⟨k, w⟩ := m
    rcases lt_trichotomy n k with hk | rfl | hk
    · rw [put_cons_of_lt hk, put_cons_of_gt h]
      rcases lt_trichotomy n' k with hk' | rfl | hk'
      · rw [put_cons_of_lt hk', put_cons_of_lt h]
      · rw [put_cons_self, put_cons_of_lt h]
      · rw [put_cons_of_gt hk', put_cons_of_lt hk]
    · rw [put_cons_self, put_cons_of_gt h, put_cons_of_gt h, put_cons_self]
    · rw [put_cons_of_gt hk, put_cons_of_gt (hk.trans h), put_cons_of_gt (hk.trans h),
        put_cons_of_gt hk, ih]

/-- Different names are put in either way round. -/
theorem put_comm {n n' : String} (h : n ≠ n') (v v' : Json) (ms : List (String × Json)) :
    put n v (put n' v' ms) = put n' v' (put n v ms) := by
  rcases lt_or_gt_of_ne h with hlt | hlt
  · exact put_comm_of_lt hlt v v' ms
  · exact (put_comm_of_lt hlt v' v ms).symm

namespace Draft

/-- The members of an object with those of a list put over them. -/
def putAll (acc : List (String × Json)) (ms : List (String × Json)) : List (String × Json) :=
  ms.foldl (fun acc (n, v) => put n v acc) acc

/-- Drafts that read alike can stand for each other among items. -/
theorem toItems?_congr {depth : Nat} {d d' : Draft} (h : d.toJson? depth = d'.toJson? depth)
    (before after : List Draft) :
    toItems? depth (before ++ d :: after) = toItems? depth (before ++ d' :: after) := by
  induction before with
  | nil => simp [toItems?, h]
  | cons x xs ih => simp [toItems?, ih]

/-- Drafts that read alike can stand for each other among members. -/
theorem toMembers?_congr {depth : Nat} {d d' : Draft} (h : d.toJson? depth = d'.toJson? depth)
    (before after : List (Option String × Draft)) (name : Option String) :
    toMembers? depth (before ++ (name, d) :: after) =
      toMembers? depth (before ++ (name, d') :: after) := by
  induction before with
  | nil => simp [toMembers?, h]
  | cons x xs ih => simp [toMembers?, ih]

/-- Exchanging two members of different names leaves the object as it is. -/
theorem object_swap {m m' : Option String × Draft} (h : m.1 ≠ m'.1) (depth : Nat)
    (before after : List (Option String × Draft)) (acc : List (String × Json)) :
    (toMembers? depth (before ++ m :: m' :: after)).map (putAll acc) =
      (toMembers? depth (before ++ m' :: m :: after)).map (putAll acc) := by
  -- The two members are put into the same object, which is what the members before them made.
  induction before generalizing acc with
  | nil =>
    obtain ⟨n, d⟩ := m
    obtain ⟨n', d'⟩ := m'
    cases n with
    | none => cases n' <;> simp [toMembers?]
    | some n =>
      cases n' with
      | none => simp [toMembers?]
      | some n' =>
        have hn : n ≠ n' := fun hn => h (congrArg some hn)
        cases hd : toJson? depth d <;> cases hd' : toJson? depth d' <;>
          cases hrest : toMembers? depth after <;>
          simp [toMembers?, hd, hd', hrest, putAll, put_comm hn]
  | cons x xs ih =>
    obtain ⟨k, e⟩ := x
    cases k with
    | none => simp [toMembers?]
    | some k =>
      cases he : toJson? depth e with
      | none => simp [toMembers?, he]
      | some j =>
        have hstep := ih (put k j acc)
        cases hl : toMembers? depth (xs ++ m :: m' :: after) <;>
          cases hr : toMembers? depth (xs ++ m' :: m :: after) <;>
          simp_all [toMembers?, putAll]

/-- The value of a draft does not depend on the order of members. -/
theorem Reordered.toJson?_eq {d d' : Draft} (h : Reordered d d') (depth : Nat) :
    d.toJson? depth = d'.toJson? depth := by
  induction h generalizing depth with
  | @swap before after m m' closed h =>
    cases depth with
    | zero => rfl
    | succ depth =>
      have hobject : ∀ l : Option (List (String × Json)),
          l.map object = (l.map (putAll [])).map .obj := by
        intro l
        cases l <;> rfl
      simp only [toJson?, hobject, object_swap h]
  | @member before after name d d' closed _ ih =>
    cases depth with
    | zero => rfl
    | succ depth => simp only [toJson?, toMembers?_congr (ih depth)]
  | @item before after d d' closed _ ih =>
    cases depth with
    | zero => rfl
    | succ depth => simp only [toJson?, toItems?_congr (ih depth)]

end Draft

/-! ## Writing the same in another way -/

/-- A field of a record: its spellings, whether null stands for its absence, and what it is. -/
structure Field (φ : Type) where
  names : List String
  nullable : Bool
  form : φ

/-- What a draft is read as, as far as one thing can be written in several ways. -/
inductive Form
  | plain
  | list (item : Form)
  | record (fields : List (Field Form))

/-- One step of writing the same in another way. -/
inductive Respelled : Form → Draft → Draft → Prop
  /-- The members of an object stand in another order. -/
  | order {form : Form} {d d' : Draft} (h : d.Reordered d') : Respelled form d d'
  /-- A record has a member more that is not one of its fields. -/
  | unknown {fields : List (Field Form)} {before after : List (Option String × Draft)}
      {name : String} {d : Draft} {closed : Bool} (hname : ∀ f ∈ fields, name ∉ f.names)
      (hd : d.isWhole = true) :
      Respelled (.record fields) (.obj (before ++ after) closed)
        (.obj (before ++ (some name, d) :: after) closed)
  /-- A field goes by another of its names. -/
  | renamed {fields : List (Field Form)} {before after : List (Option String × Draft)}
      {f : Field Form} {name name' : String} {d : Draft} {closed : Bool} (hf : f ∈ fields)
      (hname : name ∈ f.names) (hname' : name' ∈ f.names) :
      Respelled (.record fields) (.obj (before ++ (some name, d) :: after) closed)
        (.obj (before ++ (some name', d) :: after) closed)
  /-- A field that is not there is null instead. -/
  | nulled {fields : List (Field Form)} {before after : List (Option String × Draft)}
      {f : Field Form} {name : String} {closed : Bool} (hf : f ∈ fields)
      (hnull : f.nullable = true) (hname : name ∈ f.names)
      (habsent : ∀ m ∈ before ++ after, ∀ n ∈ f.names, m.1 ≠ some n) :
      Respelled (.record fields) (.obj (before ++ after) closed)
        (.obj (before ++ (some name, .null) :: after) closed)
  /-- A field that is left out at the end of a list is null instead. -/
  | extended {fields : List (Field Form)} {items : List Draft} {f : Field Form} {closed : Bool}
      (hf : fields[items.length]? = some f) (hnull : f.nullable = true) :
      Respelled (.record fields) (.arr items closed) (.arr (items ++ [.null]) closed)
  /-- A field of an object is written in another way. -/
  | member {fields : List (Field Form)} {before after : List (Option String × Draft)}
      {f : Field Form} {name : String} {d d' : Draft} {closed : Bool} (hf : f ∈ fields)
      (hname : name ∈ f.names) (h : Respelled f.form d d') :
      Respelled (.record fields) (.obj (before ++ (some name, d) :: after) closed)
        (.obj (before ++ (some name, d') :: after) closed)
  /-- A field of a list is written in another way. -/
  | place {fields : List (Field Form)} {before after : List Draft} {f : Field Form}
      {d d' : Draft} {closed : Bool} (hf : fields[before.length]? = some f)
      (h : Respelled f.form d d') :
      Respelled (.record fields) (.arr (before ++ d :: after) closed)
        (.arr (before ++ d' :: after) closed)
  /-- An item is written in another way. -/
  | item {form : Form} {before after : List Draft} {d d' : Draft} {closed : Bool}
      (h : Respelled form d d') :
      Respelled (.list form) (.arr (before ++ d :: after) closed)
        (.arr (before ++ d' :: after) closed)

/-- Only lists and objects can be written in another way. -/
theorem Respelled.containers {form : Form} {d d' : Draft} (h : Respelled form d d') :
    (∃ xs ys c, d = .arr xs c ∧ d' = .arr ys c) ∨ ∃ ms ns c, d = .obj ms c ∧ d' = .obj ns c := by
  cases h with
  | order h =>
    cases h with
    | item _ => exact .inl ⟨_, _, _, rfl, rfl⟩
    | swap _ => exact .inr ⟨_, _, _, rfl, rfl⟩
    | member _ => exact .inr ⟨_, _, _, rfl, rfl⟩
  | extended _ _ => exact .inl ⟨_, _, _, rfl, rfl⟩
  | place _ _ => exact .inl ⟨_, _, _, rfl, rfl⟩
  | item _ => exact .inl ⟨_, _, _, rfl, rfl⟩
  | unknown _ _ => exact .inr ⟨_, _, _, rfl, rfl⟩
  | renamed _ _ _ => exact .inr ⟨_, _, _, rfl, rfl⟩
  | nulled _ _ _ _ => exact .inr ⟨_, _, _, rfl, rfl⟩
  | member _ _ _ => exact .inr ⟨_, _, _, rfl, rfl⟩

theorem Draft.Reordered.ne_null {d d' : Draft} (h : d.Reordered d') : d ≠ .null ∧ d' ≠ .null := by
  cases h <;> exact ⟨nofun, nofun⟩

/-- A reader that makes the same of what is written in different ways. -/
def Form.Respects {α : Type} (form : Form) (read : Draft → Read α) : Prop :=
  ∀ ⦃d d' : Draft⦄, Respelled form d d' → (read d).toOption = (read d').toOption

namespace Form

variable {α : Type}

/-- What is read of lists and objects alone does not depend on how anything is written. -/
theorem respects_of_containers {form : Form} {read : Draft → Read α}
    (harr : ∀ ds c, (read (.arr ds c)).toOption = none)
    (hobj : ∀ ms c, (read (.obj ms c)).toOption = none) : form.Respects read := by
  intro d d' h
  rcases h.containers with ⟨xs, ys, c, rfl, rfl⟩ | ⟨ms, ns, c, rfl, rfl⟩
  · rw [harr, harr]
  · rw [hobj, hobj]

theorem respects_string (form : Form) : form.Respects Read.string :=
  respects_of_containers (fun _ _ => rfl) fun _ _ => rfl

theorem respects_path (form : Form) : form.Respects Read.path :=
  respects_of_containers (fun _ _ => rfl) fun _ _ => rfl

theorem respects_word64 (form : Form) : form.Respects Read.word64 :=
  respects_of_containers (fun _ _ => rfl) fun _ _ => rfl

theorem respects_word128 (form : Form) (source : Source) : form.Respects (Read.word128 source) := by
  cases source <;> exact respects_of_containers (fun _ _ => rfl) fun _ _ => rfl

/-- A finished value does not depend on the order of members. -/
theorem respects_json (source : Source) (depth : Nat) :
    plain.Respects (Read.json source depth) := by
  intro d d' h
  obtain h | _ := h
  cases source <;> simp only [Read.json, h.toJson?_eq, h.height_eq]

/-- An object names a variant only when it has one member and that is null. -/
theorem toOption_variant_obj {variants : List (String × α)} {source : Source}
    {ms : List (Option String × Draft)} (h : ∀ name, ms ≠ [(name, .null)]) (closed : Bool) :
    (Read.variant variants source (.obj ms closed)).toOption = none := by
  match ms with
  | [] => cases source <;> rfl
  | [(none, v)] => cases source <;> rfl
  | [(some name, v)] =>
    have hv : v ≠ .null := fun hv => h (some name) (by rw [hv])
    cases v <;> simp_all [Read.variant]
  | (none, v) :: _ :: _ => cases source <;> rfl
  | (some name, v) :: _ :: _ =>
    cases source with
    | value => rfl
    | text => cases v <;> simp [Read.variant]

/-- A variant is read alike from every respelling. -/
theorem respects_variant (variants : List (String × α)) (source : Source) :
    plain.Respects (Read.variant variants source) := by
  intro d d' h
  obtain h | _ := h
  cases h with
  | item _ => cases source <;> rfl
  | swap _ =>
    rw [toOption_variant_obj, toOption_variant_obj] <;> simp [List.append_eq_singleton_iff]
  | member h =>
    obtain ⟨h0, h1⟩ : _ ∧ _ := h.ne_null
    rw [toOption_variant_obj, toOption_variant_obj] <;> simp [List.append_eq_singleton_iff, h0, h1]

/-- However often something is written in another way. -/
theorem Respects.toOption_eq {form : Form} {read : Draft → Read α} (h : form.Respects read)
    {d d' : Draft} (hd : Relation.EqvGen (Respelled form) d d') :
    (read d).toOption = (read d').toOption := by
  induction hd with
  | rel _ _ hd => exact h hd
  | refl _ => rfl
  | symm _ _ _ ih => exact ih.symm
  | trans _ _ _ _ _ ih ih' => exact ih.trans ih'

/-- Nothing is written for null in another way. -/
theorem Respects.optional {form : Form} {read : Draft → Read α} (h : form.Respects read) :
    form.Respects (Read.optional read) := by
  intro d d' hd
  have hread := h hd
  rcases hd.containers with ⟨xs, ys, c, rfl, rfl⟩ | ⟨ms, ns, c, rfl, rfl⟩ <;>
    simp [Read.optional, hread]

/-- A list is read alike when its items are. -/
theorem Respects.list {form : Form} {read : Draft → Read α} (h : form.Respects read) :
    (Form.list form).Respects (Read.list read) := by
  intro d d' hd
  have hitem : ∀ {before after : List Draft} {d d' : Draft} (c : Bool), Respelled form d d' →
      (Read.list read (.arr (before ++ d :: after) c)).toOption =
        (Read.list read (.arr (before ++ d' :: after) c)).toOption := by
    intro before after d d' c hd
    have hsame : ∀ ds : List Draft,
        List.Forall₂ (fun d d' => (read d).toOption = (read d').toOption) ds ds :=
      fun ds => List.forall₂_same.mpr fun _ _ => rfl
    have hitems := Read.toOption_items_congr
      (List.rel_append (hsame before) (.cons (h hd) (hsame after)))
    simp only [Read.list, toOption_bind, hitems]
  cases hd with
  | item hd => exact hitem _ hd
  | order hd =>
    cases hd with
    | item hd => exact hitem _ (.order hd)
    | swap _ => rfl
    | member _ => rfl

end Form

/-! ## Records -/

/-- How what stands at a place may differ when a record is written in another way. -/
inductive Field.Differs : Option (Field Form) → Option Draft → Option Draft → Prop
  | same {f : Option (Field Form)} {o : Option Draft} : Differs f o o
  | nulled {f : Field Form} (h : f.nullable = true) : Differs (some f) none (some .null)
  | respelled {f : Field Form} {d d' : Draft} (h : Respelled f.form d d') :
    Differs (some f) (some d) (some d')

/-- What members give for a field that may differ: twice in both, or once or not at all. -/
def Field.GivenAlike (f : Option (Field Form)) (l l' : List Draft) : Prop :=
  (l.length ≤ 1 ↔ l'.length ≤ 1) ∧ (l.length ≤ 1 → Differs f l.head? l'.head?)

theorem Field.GivenAlike.refl (f : Option (Field Form)) (l : List Draft) : GivenAlike f l l :=
  ⟨Iff.rfl, fun _ => .same⟩

/-- What members give in another order. -/
theorem Field.GivenAlike.of_perm {f : Option (Field Form)} {l l' : List Draft} (h : l.Perm l') :
    GivenAlike f l l' := by
  refine ⟨by rw [h.length_eq], fun hl => ?_⟩
  have hl' : l = l' := by
    match l, hl with
    | [], _ => exact (List.nil_perm.mp h).symm
    | [x], _ => exact List.singleton_perm.mp h
  rw [hl']
  exact .same

/-- What members give when one of them is written in another way. -/
theorem Field.GivenAlike.of_respelled {f : Field Form} {d d' : Draft} (h : Respelled f.form d d')
    (before after : List Draft) :
    GivenAlike (some f) (before ++ d :: after) (before ++ d' :: after) := by
  refine ⟨by simp, fun hl => ?_⟩
  have hnil : before = [] ∧ after = [] := by
    simp only [List.length_append, List.length_cons] at hl
    exact ⟨List.eq_nil_of_length_eq_zero (by omega), List.eq_nil_of_length_eq_zero (by omega)⟩
  rw [hnil.1, hnil.2]
  exact .respelled h

variable {fields : List (Field Form)}

/-- The spellings of the fields. -/
def spellings (fields : List (Field Form)) : List (List String) := fields.map Field.names

/-- No name is a spelling of two fields. -/
def Apart (fields : List (Field Form)) : Prop :=
  fields.Pairwise fun f g => ∀ n ∈ f.names, n ∉ g.names

@[simp] theorem gathered_nil_left {α : Type} (ms : List (Option String × α)) :
    gathered [] ms = [] := by
  refine List.filterMap_eq_nil_iff.mpr fun m _ => ?_
  cases m.1 <;> rfl

/-- Each field is given at most once, said by places. -/
theorem all_gathered_le {α : Type} (layout : List (List String)) (ms : List (Option String × α)) :
    (layout.all fun names => (gathered names ms).length ≤ 1) = true ↔
      ∀ i, (gathered (layout.getD i []) ms).length ≤ 1 := by
  simp only [List.all_eq_true, decide_eq_true_eq, List.getD_eq_getElem?_getD]
  constructor
  · intro h i
    cases hi : layout[i]? with
    | none => simp
    | some names => exact h names (List.mem_of_getElem? hi)
  · intro h names hnames
    obtain ⟨i, hi⟩ := List.mem_iff_getElem?.mp hnames
    simpa [hi] using h i

/-- The fields of objects whose members give alike. -/
theorem Draft.fields?_obj_alike {ms ms' : List (Option String × Draft)}
    (hpass : ms.all (passable (spellings fields)) = ms'.all (passable (spellings fields)))
    (halike : ∀ i, Field.GivenAlike fields[i]? (gathered ((spellings fields).getD i []) ms)
      (gathered ((spellings fields).getD i []) ms')) (closed : Bool) :
    Option.Rel (fun f f' => ∀ i, Field.Differs fields[i]? (f i) (f' i))
      (Draft.fields? (spellings fields) (.obj ms closed))
      (Draft.fields? (spellings fields) (.obj ms' closed)) := by
  cases closed with
  | false => exact .none
  | true =>
    have hmost : ((spellings fields).all fun names => (gathered names ms).length ≤ 1) =
        (spellings fields).all fun names => (gathered names ms').length ≤ 1 := by
      rw [Bool.eq_iff_iff, all_gathered_le, all_gathered_le]
      exact forall_congr' fun i => (halike i).1
    simp only [Draft.fields?, hpass, hmost]
    split
    · rename_i h
      exact .some fun i => (halike i).2 ((halike i).1.mpr ((all_gathered_le _ _).mp h.2 i))
    · exact .none

theorem mem_getD_spellings {i : Nat} {n : String} :
    n ∈ (spellings fields).getD i [] ↔ ∃ f, fields[i]? = some f ∧ n ∈ f.names := by
  rw [spellings, List.getD_eq_getElem?_getD, List.getElem?_map]
  cases fields[i]? <;> simp

/-- A name belongs to one field. -/
theorem Apart.eq_of_mem (h : Apart fields) {f g : Field Form} (hf : f ∈ fields) (hg : g ∈ fields)
    {n : String} (hnf : n ∈ f.names) (hng : n ∈ g.names) : f = g := by
  by_contra hne
  have hsymm : Std.Symm fun f g : Field Form => ∀ n ∈ f.names, n ∉ g.names :=
    ⟨fun f g hfg n hn hn' => hfg n hn' hn⟩
  exact List.Pairwise.forall h hf hg hne n hnf hng

/-- A member with the name of a field passes. -/
theorem passable_of_mem {f : Field Form} (hf : f ∈ fields) {n : String} (hn : n ∈ f.names)
    (d : Draft) : passable (spellings fields) (some n, d) = true := by
  have hany : (spellings fields).any (·.contains n) = true := by
    simp only [spellings, List.any_map, List.any_eq_true]
    exact ⟨f, hf, by simpa using hn⟩
  simp only [passable, Option.any_some, hany, Bool.true_or]

theorem gathered_around_of_mem {α : Type} {names : List String} {n : String} (h : n ∈ names) (x : α)
    (before after : List (Option String × α)) :
    gathered names (before ++ (some n, x) :: after) =
      gathered names before ++ x :: gathered names after := by
  rw [gathered, List.filterMap_append]
  exact congrArg _ (gathered_cons_of_mem h x after)

theorem gathered_around_of_not_mem {α : Type} {names : List String} {n : String} (h : n ∉ names)
    (x : α) (before after : List (Option String × α)) :
    gathered names (before ++ (some n, x) :: after) = gathered names (before ++ after) := by
  rw [gathered, List.filterMap_append, gathered, List.filterMap_append]
  exact congrArg _ (gathered_cons_of_not_mem h x after)

/-- The fields of objects that differ in what one member is. -/
theorem Draft.fields?_member_alike (before after : List (Option String × Draft)) {n : String}
    {d d' : Draft} (closed : Bool)
    (hpass : passable (spellings fields) (some n, d) = passable (spellings fields) (some n, d'))
    (h : ∀ f ∈ fields, n ∈ f.names → Respelled f.form d d') :
    Option.Rel (fun f f' => ∀ i, Field.Differs fields[i]? (f i) (f' i))
      (Draft.fields? (spellings fields) (.obj (before ++ (some n, d) :: after) closed))
      (Draft.fields? (spellings fields) (.obj (before ++ (some n, d') :: after) closed)) := by
  refine Draft.fields?_obj_alike ?_ (fun i => ?_) closed
  · simp only [List.all_append, List.all_cons, hpass]
  · by_cases hn : n ∈ (spellings fields).getD i []
    · obtain ⟨f, hf, hnf⟩ := mem_getD_spellings.mp hn
      rw [gathered_around_of_mem hn, gathered_around_of_mem hn, hf]
      exact .of_respelled (h f (List.mem_of_getElem? hf) hnf) _ _
    · rw [gathered_around_of_not_mem hn, gathered_around_of_not_mem hn]
      exact .refl _ _

/-- The fields of lists that differ in one item. -/
theorem Draft.fields?_place_alike (before after : List Draft) {d d' : Draft} (closed : Bool)
    (h : ∀ f, fields[before.length]? = some f → Respelled f.form d d') :
    Option.Rel (fun f f' => ∀ i, Field.Differs fields[i]? (f i) (f' i))
      (Draft.fields? (spellings fields) (.arr (before ++ d :: after) closed))
      (Draft.fields? (spellings fields) (.arr (before ++ d' :: after) closed)) := by
  cases closed with
  | false => exact .none
  | true =>
    have hlen : (before ++ d :: after).length = (before ++ d' :: after).length := by simp
    simp only [Draft.fields?, hlen]
    split
    · rename_i hmost
      refine .some fun i => ?_
      rcases Nat.lt_trichotomy i before.length with hi | rfl | hi
      · rw [List.getElem?_append_left hi, List.getElem?_append_left hi]
        exact .same
      · obtain ⟨f, hf⟩ : ∃ f, fields[before.length]? = some f := by
          simp only [spellings, List.length_append, List.length_cons, List.length_map] at hmost
          exact ⟨_, List.getElem?_eq_getElem (by omega)⟩
        rw [hf]
        simpa using Field.Differs.respelled (h f hf)
      · obtain ⟨k, rfl⟩ := Nat.exists_eq_add_of_lt hi
        have hskip : ∀ e : Draft, (before ++ e :: after)[before.length + k + 1]? = after[k]? := by
          intro e
          rw [List.getElem?_append_right (by omega), show before.length + k + 1 - before.length =
            k + 1 by omega, List.getElem?_cons_succ]
        rw [hskip, hskip]
        exact .same
    · exact .none

/-- The fields of a list whose last field is null and of the list without it. -/
theorem Draft.fields?_extended_alike (items : List Draft) {f : Field Form} (closed : Bool)
    (hf : fields[items.length]? = some f) (hnull : f.nullable = true) :
    Option.Rel (fun f f' => ∀ i, Field.Differs fields[i]? (f i) (f' i))
      (Draft.fields? (spellings fields) (.arr items closed))
      (Draft.fields? (spellings fields) (.arr (items ++ [.null]) closed)) := by
  cases closed with
  | false => exact .none
  | true =>
    obtain ⟨hlen, -⟩ := List.getElem?_eq_some_iff.mp hf
    have hmost : items.length ≤ (spellings fields).length := by
      simpa [spellings] using Nat.le_of_lt hlen
    have hmost' : (items ++ [Draft.null]).length ≤ (spellings fields).length := by
      simpa [spellings, Nat.succ_le_iff] using hlen
    simp only [Draft.fields?, if_pos hmost, if_pos hmost']
    refine .some fun i => ?_
    rcases Nat.lt_trichotomy i items.length with hi | rfl | hi
    · rw [List.getElem?_append_left hi]
      exact .same
    · rw [hf]
      simpa using Field.Differs.nulled hnull
    · have hbeyond : (items ++ [Draft.null])[i]? = items[i]? := by
        rw [List.getElem?_eq_none (by simp; omega), List.getElem?_eq_none (by omega)]
      rw [hbeyond]
      exact .same

/-- The fields of objects that differ in the spelling of a name. -/
theorem Draft.fields?_renamed_alike (hapart : Apart fields)
    (before after : List (Option String × Draft)) (d : Draft) (closed : Bool) {f : Field Form}
    (hf : f ∈ fields) {n n' : String} (hname : n ∈ f.names) (hname' : n' ∈ f.names) :
    Option.Rel (fun f f' => ∀ i, Field.Differs fields[i]? (f i) (f' i))
      (Draft.fields? (spellings fields) (.obj (before ++ (some n, d) :: after) closed))
      (Draft.fields? (spellings fields) (.obj (before ++ (some n', d) :: after) closed)) := by
  refine Draft.fields?_obj_alike ?_ (fun i => ?_) closed
  · simp only [List.all_append, List.all_cons, passable_of_mem hf hname,
      passable_of_mem hf hname']
  · have hother : ∀ {a b : String}, a ∈ f.names → b ∈ f.names →
        a ∈ (spellings fields).getD i [] → b ∈ (spellings fields).getD i [] := by
      intro a b ha hb hmem
      obtain ⟨g, hg, hag⟩ := mem_getD_spellings.mp hmem
      exact mem_getD_spellings.mpr
        ⟨g, hg, hapart.eq_of_mem hf (List.mem_of_getElem? hg) ha hag ▸ hb⟩
    have halike : gathered ((spellings fields).getD i []) (before ++ (some n, d) :: after) =
        gathered ((spellings fields).getD i []) (before ++ (some n', d) :: after) := by
      by_cases hn : n ∈ (spellings fields).getD i []
      · rw [gathered_around_of_mem hn, gathered_around_of_mem (hother hname hname' hn)]
      · rw [gathered_around_of_not_mem hn,
          gathered_around_of_not_mem fun hn' => hn (hother hname' hname hn')]
    rw [halike]
    exact .refl _ _

/-- The fields of objects that differ in a field that is not there or null. -/
theorem Draft.fields?_nulled_alike (hapart : Apart fields)
    (before after : List (Option String × Draft)) (closed : Bool) {f : Field Form}
    (hf : f ∈ fields) (hnull : f.nullable = true) {n : String} (hname : n ∈ f.names)
    (habsent : ∀ m ∈ before ++ after, ∀ n ∈ f.names, m.1 ≠ some n) :
    Option.Rel (fun f f' => ∀ i, Field.Differs fields[i]? (f i) (f' i))
      (Draft.fields? (spellings fields) (.obj (before ++ after) closed))
      (Draft.fields? (spellings fields) (.obj (before ++ (some n, .null) :: after) closed)) := by
  refine Draft.fields?_obj_alike ?_ (fun i => ?_) closed
  · simp only [List.all_append, List.all_cons, passable_of_mem hf hname, Bool.true_and]
  · by_cases hn : n ∈ (spellings fields).getD i []
    · obtain ⟨g, hg, hng⟩ := mem_getD_spellings.mp hn
      obtain rfl : f = g := hapart.eq_of_mem hf (List.mem_of_getElem? hg) hname hng
      have hnames : (spellings fields).getD i [] = f.names := by
        rw [spellings, List.getD_eq_getElem?_getD, List.getElem?_map, hg]
        rfl
      -- Nothing else is given for the field, under any of its names.
      have hnil : ∀ {ms}, (∀ m ∈ ms, m ∈ before ++ after) → gathered f.names ms = [] := by
        intro ms hms
        refine List.filterMap_eq_nil_iff.mpr fun m hm => if_neg fun hany => ?_
        cases hk : m.1 with
        | none => simp [hk] at hany
        | some k => exact habsent m (hms m hm) k (by simpa [hk] using hany) hk
      rw [gathered_around_of_mem hn, hg, hnames, hnil fun m hm => hm,
        hnil fun m hm => List.mem_append_left _ hm, hnil fun m hm => List.mem_append_right _ hm]
      exact ⟨by simp, fun _ => .nulled hnull⟩
    · rw [gathered_around_of_not_mem hn]
      exact .refl _ _

/-- Writing a record in another way changes its fields one by one. -/
theorem Respelled.fields? (hapart : Apart fields) {d d' : Draft}
    (h : Respelled (.record fields) d d') :
    Option.Rel (fun f f' => ∀ i, Field.Differs fields[i]? (f i) (f' i))
      (Draft.fields? (spellings fields) d) (Draft.fields? (spellings fields) d') := by
  cases h with
  | order h =>
    cases h with
    | @swap before after m m' closed _ =>
      have hperm : (before ++ m :: m' :: after).Perm (before ++ m' :: m :: after) :=
        (List.Perm.swap m' m after).append_left before
      refine Draft.fields?_obj_alike ?_ (fun i => .of_perm (hperm.filterMap _)) closed
      simp only [List.all_append, List.all_cons, Bool.and_left_comm]
    | @member before after name d d' closed h =>
      cases name with
      -- The name of this member is no string, and the record is rejected.
      | none =>
        have hnone : ∀ e, Draft.fields? (spellings fields)
            (.obj (before ++ (none, e) :: after) closed) = none := by
          intro e
          cases closed with
          | false => rfl
          | true => exact if_neg fun hf => by simp [passable] at hf
        rw [hnone, hnone]
        exact .none
      | some n =>
        refine Draft.fields?_member_alike before after closed ?_ fun _ _ _ => .order h
        simp only [passable, h.isWhole_eq]
    | @item before after _ _ closed h =>
      exact Draft.fields?_place_alike before after closed fun _ _ => .order h
  | unknown hname hd =>
    refine Draft.fields?_obj_alike ?_ (fun i => ?_) _
    · simp [List.all_append, passable, hd]
    · rw [gathered_around_of_not_mem]
      · exact .refl _ _
      · intro hn
        obtain ⟨f, hf, hnf⟩ := mem_getD_spellings.mp hn
        exact hname f (List.mem_of_getElem? hf) hnf
  | renamed hf hname hname' => exact Draft.fields?_renamed_alike hapart _ _ _ _ hf hname hname'
  | nulled hf hnull hname habsent =>
    exact Draft.fields?_nulled_alike hapart _ _ _ hf hnull hname habsent
  | @extended _ items f closed hf hnull => exact Draft.fields?_extended_alike items closed hf hnull
  | @member _ before after f name d d' closed hf hname h =>
    refine Draft.fields?_member_alike before after closed ?_ fun g hg hng => ?_
    · rw [passable_of_mem hf hname, passable_of_mem hf hname]
    · exact hapart.eq_of_mem hf hg hname hng ▸ h
  | @place _ before after f d d' closed hf h =>
    refine Draft.fields?_place_alike before after closed fun g hg => ?_
    rw [hf, Option.some.injEq] at hg
    exact hg ▸ h

/-! ## Readers of records -/

namespace Form

variable {α : Type} {form : Form} {read : Draft → Read α} {o o' : Option Draft}

/-- A field that must be there is read as before. -/
theorem Respects.need {names : List String} (h : form.Respects read)
    (ho : Field.Differs (some ⟨names, false, form⟩) o o') :
    Read.need read o = Read.need read o' := by
  cases ho with
  | same => rfl
  | nulled hnull => cases hnull
  | respelled hd => exact h hd

/-- A field with a value of its own is read as before. -/
theorem Respects.orElse {names : List String} (h : form.Respects read) (default : α)
    (ho : Field.Differs (some ⟨names, false, form⟩) o o') :
    Read.orElse default read o = Read.orElse default read o' := by
  cases ho with
  | same => rfl
  | nulled hnull => cases hnull
  | respelled hd => exact h hd

/-- A field that null stands for is read as before. -/
theorem Respects.orNull {names : List String} (h : form.Respects read)
    (ho : Field.Differs (some ⟨names, true, form⟩) o o') :
    Read.orElse none (Read.optional read) o = Read.orElse none (Read.optional read) o' := by
  cases ho with
  | same => rfl
  | nulled _ => rfl
  | respelled hd => exact h.optional hd

/-- A record is read as before when what its fields make is. -/
theorem respects_record {fields : List (Field Form)} (hapart : Apart fields)
    {ofFields : (Nat → Option Draft) → Option α}
    (hread : ∀ d, (read d).toOption = (Draft.fields? (spellings fields) d).bind ofFields)
    (hfields : ∀ f f', (∀ i, Field.Differs fields[i]? (f i) (f' i)) → ofFields f = ofFields f') :
    (Form.record fields).Respects read := by
  intro d d' h
  have hrel := h.fields? hapart
  rw [hread, hread]
  generalize Draft.fields? (spellings fields) d = o at hrel ⊢
  generalize Draft.fields? (spellings fields) d' = o' at hrel ⊢
  cases hrel with
  | none => rfl
  | some hff => exact hfields _ _ hff

end Form

end EventRelay.Json

namespace EventRelay

open Json (Draft Read Source Form Field)

theorem Side.respects_ofDraft (source : Source) : Form.plain.Respects (Side.ofDraft source) :=
  Form.respects_variant _ source

theorem Transport.respects_ofDraft (source : Source) :
    Form.plain.Respects (Transport.ofDraft source) :=
  Form.respects_variant _ source

/-- Of the items of an address only those that are bytes or scalars matter. -/
theorem Address.toOption_ofItems_congr {source : Source} {ds ds' : List Draft}
    (h : List.Forall₂ (fun d d' => (Read.byte d).toOption = (Read.byte d').toOption ∧
      d.isScalar = d'.isScalar) ds ds') (closed : Bool) :
    (ofItems source ds closed).toOption = (ofItems source ds' closed).toOption := by
  have hends : endsWith source closed (ds.drop 20) = endsWith source closed (ds'.drop 20) := by
    have hrest := List.forall₂_drop 20 h
    generalize ds.drop 20 = xs at hrest ⊢
    generalize ds'.drop 20 = ys at hrest ⊢
    cases hrest with
    | nil => rfl
    | cons hd htl =>
      cases htl with
      | nil => simp only [endsWith, hd.1, hd.2]
      | cons _ _ => simp [endsWith]
  have hbytes := Read.toOption_items_congr ((List.forall₂_take 20 h).imp fun _ _ hd => hd.1)
  rw [toOption_ofItems, toOption_ofItems, hbytes, hends]

theorem Address.respects_ofDraft (source : Source) :
    Form.plain.Respects (Address.ofDraft source) := by
  intro d d' h
  obtain h | _ := h
  cases h with
  | swap _ => rfl
  | member _ => rfl
  | @item before after d d' closed h =>
    have hsame : ∀ ds : List Draft, List.Forall₂ (fun d d' => (Read.byte d).toOption =
        (Read.byte d').toOption ∧ d.isScalar = d'.isScalar) ds ds :=
      fun ds => List.forall₂_same.mpr fun _ _ => ⟨rfl, rfl⟩
    have hd : (Read.byte d).toOption = (Read.byte d').toOption ∧ d.isScalar = d'.isScalar := by
      cases h <;> exact ⟨rfl, rfl⟩
    exact toOption_ofItems_congr (List.rel_append (hsame before) (.cons hd (hsame after))) closed

/-- How an invocation may be written. -/
def Invocation.form : Form := .record [⟨["name"], false, .plain⟩, ⟨["params"], false, .list .plain⟩]

theorem Invocation.respects_ofDraft (source : Source) :
    Invocation.form.Respects (Invocation.ofDraft source) := by
  refine Form.respects_record (by simp [Json.Apart]) (toOption_ofDraft source) fun f f' h => ?_
  have h0 := (Form.respects_string _).need (h 0)
  have h1 := (Form.respects_string _).list.orElse [] (h 1)
  simp only [ofFields, h0, h1]

/-- How a callback may be written. -/
def Callback.form : Form :=
  .record [⟨["event_name", "eventName"], true, .plain⟩,
    ⟨["target", "targetTag", "contract"], false, .plain⟩, ⟨["method"], false, .plain⟩,
    ⟨["params"], false, .list .plain⟩]

theorem Callback.respects_ofDraft (source : Source) :
    Callback.form.Respects (Callback.ofDraft source) := by
  refine Form.respects_record (by simp [Json.Apart]) (toOption_ofDraft source) fun f f' h => ?_
  have h0 := (Form.respects_string _).orNull (h 0)
  have h1 := (Side.respects_ofDraft source).need (h 1)
  have h2 := (Form.respects_string _).need (h 2)
  have h3 := (Form.respects_string _).list.orElse [] (h 3)
  simp only [ofFields, h0, h1, h2, h3]

/-- How a rule may be written. -/
def Rule.form : Form :=
  .record [⟨["event_name", "eventName"], false, .plain⟩,
    ⟨["target_method", "targetMethod", "privateMethod"], false, Invocation.form⟩,
    ⟨["callback"], true, Callback.form⟩]

theorem Rule.respects_ofDraft (source : Source) : Rule.form.Respects (Rule.ofDraft source) := by
  refine Form.respects_record (by simp [Json.Apart]) (toOption_ofDraft source) fun f f' h => ?_
  have h0 := (Form.respects_string _).need (h 0)
  have h1 := (Invocation.respects_ofDraft source).need (h 1)
  have h2 := (Callback.respects_ofDraft source).orNull (h 2)
  simp only [ofFields, h0, h1, h2]

/-- How a side may be written. -/
def ChainConfig.form : Form :=
  .record [⟨["rpc_url"], false, .plain⟩, ⟨["transport"], true, .plain⟩,
    ⟨["contract_address"], false, .plain⟩, ⟨["abi"], true, .plain⟩, ⟨["abi_path"], true, .plain⟩,
    ⟨["gas_limit"], false, .plain⟩, ⟨["gas_price_wei"], true, .plain⟩]

theorem ChainConfig.respects_ofDraft (source : Source) (depth : Nat) :
    ChainConfig.form.Respects (ChainConfig.ofDraft source depth) := by
  refine Form.respects_record (by simp [Json.Apart]) (toOption_ofDraft source depth)
    fun f f' h => ?_
  have h0 := (Form.respects_string _).need (h 0)
  have h1 := (Transport.respects_ofDraft source).orNull (h 1)
  have h2 := (Address.respects_ofDraft source).need (h 2)
  have h3 := (Form.respects_json source depth).orNull (h 3)
  have h4 := (Form.respects_path _).orNull (h 4)
  have h5 := (Form.respects_word64 _).orElse defaultGasLimit (h 5)
  have h6 := (Form.respects_word128 _ source).orNull (h 6)
  simp only [ofFields, h0, h1, h2, h3, h4, h5, h6]

/-- How a configuration may be written. -/
def Config.form : Form :=
  .record [⟨["public"], false, ChainConfig.form⟩, ⟨["private"], false, ChainConfig.form⟩,
    ⟨["signing_key"], false, .plain⟩, ⟨["poll_interval_ms"], false, .plain⟩,
    ⟨["receipt_timeout_ms"], false, .plain⟩, ⟨["from_block"], true, .plain⟩,
    ⟨["rules"], false, .list Rule.form⟩]

/-- A configuration is read alike from every respelling. -/
theorem Config.respects_ofDraft (source : Source) :
    Config.form.Respects (Config.ofDraft source) := by
  refine Form.respects_record (by simp [Json.Apart]) (toOption_ofDraft source) fun f f' h => ?_
  have hsecret : Form.plain.Respects secretOfDraft :=
    Form.respects_of_containers (fun _ _ => rfl) fun _ _ => rfl
  have h0 := (ChainConfig.respects_ofDraft source abiDepth).need (h 0)
  have h1 := (ChainConfig.respects_ofDraft source abiDepth).need (h 1)
  have h2 := hsecret.need (h 2)
  have h3 := (Form.respects_word64 _).orElse defaultPollInterval (h 3)
  have h4 := (Form.respects_word64 _).orElse defaultReceiptTimeout (h 4)
  have h5 := (Form.respects_word64 _).orNull (h 5)
  have h6 := (Rule.respects_ofDraft source).list.need (h 6)
  simp only [ofFields, h0, h1, h2, h3, h4, h5, h6]

end EventRelay
