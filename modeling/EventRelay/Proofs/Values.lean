import EventRelay.Proofs.Respelling
import Mathlib.Data.List.Nodup

/-!
# Texts, values and their fields

A value keeps of a text without repeated names all but the order of members: the draft of the value
is the draft of the text with its objects sorted (`Draft.sameMembers_toJson?`). For what is read of
one field of a record, `fields?` takes a finished value apart as `Draft.fields?` does its draft, and
`adjust` changes a field and nothing else (`fields?_adjust`).
-/

namespace EventRelay.Json

/-! ## Texts and the values they stand for -/

namespace Draft

mutual

/-- Whether no object has a repeated name. -/
def distinct : Draft → Bool
  | .arr items _ => allDistinct items
  | .obj members _ => decide (members.map Prod.fst).Nodup && membersDistinct members
  | _ => true

/-- Whether no object in several drafts has a repeated name. -/
def allDistinct : List Draft → Bool
  | [] => true
  | d :: ds => d.distinct && allDistinct ds

/-- Whether no object in the values of members has a repeated name. -/
def membersDistinct : List (Option String × Draft) → Bool
  | [] => true
  | (_, d) :: ms => d.distinct && membersDistinct ms

end

/-- Drafts that differ in the order of members alone. -/
abbrev SameMembers : Draft → Draft → Prop := Relation.EqvGen Reordered

namespace SameMembers

theorem member {d d' : Draft} (h : SameMembers d d') (before after : List (Option String × Draft))
    (name : Option String) (closed : Bool) :
    SameMembers (.obj (before ++ (name, d) :: after) closed)
      (.obj (before ++ (name, d') :: after) closed) := by
  induction h with
  | rel d d' h => exact .rel _ _ (.member h)
  | refl d => exact .refl _
  | symm d d' _ ih => exact .symm _ _ ih
  | trans d d' d'' _ _ ih ih' => exact .trans _ _ _ ih ih'

theorem item {d d' : Draft} (h : SameMembers d d') (before after : List Draft) (closed : Bool) :
    SameMembers (.arr (before ++ d :: after) closed) (.arr (before ++ d' :: after) closed) := by
  induction h with
  | rel d d' h => exact .rel _ _ (.item h)
  | refl d => exact .refl _
  | symm d d' _ ih => exact .symm _ _ ih
  | trans d d' d'' _ _ ih ih' => exact .trans _ _ _ ih ih'

/-- Lists whose items differ in the order of members alone. -/
theorem items {ds ds' : List Draft} (h : List.Forall₂ SameMembers ds ds') (before : List Draft)
    (closed : Bool) : SameMembers (.arr (before ++ ds) closed) (.arr (before ++ ds') closed) := by
  induction h generalizing before with
  | nil => exact .refl _
  | @cons d d' ds ds' hd _ ih =>
    have hrest := ih (before ++ [d'])
    simp only [List.append_assoc, List.singleton_append] at hrest
    exact .trans _ _ _ (hd.item before ds closed) hrest

/-- Objects whose members differ in the order of members alone. -/
theorem members {ms ms' : List (Option String × Draft)}
    (h : List.Forall₂ (fun m m' => m.1 = m'.1 ∧ SameMembers m.2 m'.2) ms ms')
    (before : List (Option String × Draft)) (closed : Bool) :
    SameMembers (.obj (before ++ ms) closed) (.obj (before ++ ms') closed) := by
  induction h generalizing before with
  | nil => exact .refl _
  | @cons m m' ms ms' hm _ ih =>
    obtain ⟨n, d⟩ := m
    obtain ⟨n', d'⟩ := m'
    obtain ⟨rfl, hd⟩ := hm
    have hrest := ih (before ++ [(n, d')])
    simp only [List.append_assoc, List.singleton_append] at hrest
    exact .trans _ _ _ (hd.member before ms n closed) hrest

/-- The members of an object in any order. -/
theorem of_perm {ms ms' : List (Option String × Draft)} (h : ms.Perm ms')
    (hnodup : (ms.map Prod.fst).Nodup) (before : List (Option String × Draft)) (closed : Bool) :
    SameMembers (.obj (before ++ ms) closed) (.obj (before ++ ms') closed) := by
  induction h generalizing before with
  | nil => exact .refl _
  | cons m _ ih =>
    have hrest := ih (List.nodup_cons.mp hnodup).2 (before ++ [m])
    simpa only [List.append_assoc, List.singleton_append] using hrest
  | swap m m' ms =>
    have hne : m'.1 ≠ m.1 := fun h => by simp [h] at hnodup
    exact .rel _ _ (.swap hne)
  | trans hp _ ih ih' =>
    exact .trans _ _ _ (ih hnodup before) (ih' ((hp.map Prod.fst).nodup_iff.mp hnodup) before)

end SameMembers

end Draft

/-- A member of a new name is put somewhere among the others. -/
theorem put_perm {n : String} {ms : List (String × Json)} (h : n ∉ ms.map Prod.fst) (v : Json) :
    (put n v ms).Perm ((n, v) :: ms) := by
  induction ms with
  | nil => exact List.Perm.refl _
  | cons m ms ih =>
    obtain ⟨k, w⟩ := m
    simp only [List.map_cons, List.mem_cons, not_or] at h
    unfold put
    split
    · exact List.Perm.refl _
    · rw [if_neg h.1]
      exact ((ih h.2).cons (k, w)).trans (List.Perm.swap _ _ _)

namespace Draft

/-- The members of an object with different names are those it is made of. -/
theorem putAll_perm {acc ms : List (String × Json)} (h : ((acc ++ ms).map Prod.fst).Nodup) :
    (putAll acc ms).Perm (acc ++ ms) := by
  induction ms generalizing acc with
  | nil => simp [putAll]
  | cons m ms ih =>
    obtain ⟨n, v⟩ := m
    have hmid : ((n, v) :: (acc ++ ms)).Perm (acc ++ (n, v) :: ms) := List.perm_middle.symm
    have hn : n ∉ acc.map Prod.fst := by
      have := (hmid.map Prod.fst).nodup_iff.mpr h
      simp only [List.map_cons, List.map_append, List.nodup_cons, List.mem_append, not_or] at this
      exact this.1.1
    have hput : (put n v acc ++ ms).Perm (acc ++ (n, v) :: ms) :=
      ((put_perm hn v).append_right ms).trans hmid
    exact (ih ((hput.map Prod.fst).nodup_iff.mpr h)).trans hput

theorem draftMembers_eq_map (ms : List (String × Json)) :
    draftMembers ms = ms.map fun m => (some m.1, m.2.draft) := by
  induction ms with
  | nil => rfl
  | cons m ms ih => exact congrArg _ ih

theorem draftItems_eq_map (js : List Json) : draftItems js = js.map draft := by
  induction js with
  | nil => rfl
  | cons j js ih => exact congrArg _ ih

/-- The names of members that have values. -/
theorem names_of_toMembers? {depth : Nat} {ms : List (Option String × Draft)}
    {js : List (String × Json)} (h : toMembers? depth ms = some js) :
    ms.map Prod.fst = js.map fun m => some m.1 := by
  induction ms generalizing js with
  | nil => cases h; rfl
  | cons m ms ih =>
    obtain ⟨name, d⟩ := m
    simp only [toMembers?, Option.bind_eq_bind, Option.bind_eq_some_iff] at h
    obtain ⟨n, rfl, j, -, rest, hrest, hjs⟩ := h
    cases hjs
    simp [ih hrest]

mutual

/-- The draft of the value that a draft stands for has the same members, sorted. -/
theorem sameMembers_toJson? {depth : Nat} {j : Json} : ∀ d : Draft, d.toJson? depth = some j →
    d.distinct = true → SameMembers d j.draft
  | .null, h, _ => by cases h; exact .refl _
  | .bool b, h, _ => by cases h; exact .refl _
  | .num n, h, _ => by
    obtain ⟨_, -, rfl⟩ := Option.map_eq_some_iff.mp h
    exact .refl _
  | .str s, h, _ => by
    obtain ⟨s, rfl, rfl⟩ := Option.map_eq_some_iff.mp h
    exact .refl _
  | .arr items closed, h, hd => by
    match depth, closed with
    | depth + 1, true =>
      obtain ⟨js, hjs, rfl⟩ := Option.map_eq_some_iff.mp h
      exact SameMembers.items (sameMembers_toItems? items hjs hd) [] true
  | .obj members closed, h, hd => by
    match depth, closed with
    | depth + 1, true =>
      obtain ⟨js, hjs, rfl⟩ := Option.map_eq_some_iff.mp h
      simp only [distinct, Bool.and_eq_true, decide_eq_true_eq] at hd
      obtain ⟨hnodup, hdeep⟩ := hd
      -- First each member becomes the draft of its value, then they are sorted.
      have hmembers := SameMembers.members (sameMembers_toMembers? members hjs hdeep) [] true
      rw [names_of_toMembers? hjs] at hnodup
      have hjs' : (([] ++ js).map Prod.fst).Nodup :=
        List.Nodup.of_map some (by simpa [Function.comp_def] using hnodup)
      have hperm : (draftMembers js).Perm (draftMembers (putAll [] js)) := by
        simpa only [draftMembers_eq_map, List.nil_append] using (putAll_perm hjs').symm.map _
      have hnames : ((draftMembers js).map Prod.fst).Nodup := by
        simpa [draftMembers_eq_map, Function.comp_def] using hnodup
      exact .trans _ _ _ hmembers (SameMembers.of_perm hperm hnames [] true)
  | .fault, h, _ => by cases h

/-- Items that become values have the same members as these. -/
theorem sameMembers_toItems? {depth : Nat} {js : List Json} : ∀ ds : List Draft,
    toItems? depth ds = some js → allDistinct ds = true →
    List.Forall₂ SameMembers ds (draftItems js)
  | [], h, _ => by cases h; exact .nil
  | d :: ds, h, hd => by
    simp only [toItems?, Option.bind_eq_bind, Option.bind_eq_some_iff] at h
    obtain ⟨j, hj, rest, hrest, hjs⟩ := h
    cases hjs
    simp only [allDistinct, Bool.and_eq_true] at hd
    exact .cons (sameMembers_toJson? d hj hd.1) (sameMembers_toItems? ds hrest hd.2)

/-- Members that become values have the same members as these. -/
theorem sameMembers_toMembers? {depth : Nat} {js : List (String × Json)} :
    ∀ ms : List (Option String × Draft), toMembers? depth ms = some js →
    membersDistinct ms = true →
    List.Forall₂ (fun m m' => m.1 = m'.1 ∧ SameMembers m.2 m'.2) ms (draftMembers js)
  | [], h, _ => by cases h; exact .nil
  | (name, d) :: ms, h, hd => by
    simp only [toMembers?, Option.bind_eq_bind, Option.bind_eq_some_iff] at h
    obtain ⟨n, rfl, j, hj, rest, hrest, hjs⟩ := h
    cases hjs
    simp only [membersDistinct, Bool.and_eq_true] at hd
    exact .cons ⟨rfl, sameMembers_toJson? d hj hd.1⟩ (sameMembers_toMembers? ms hrest hd.2)

end

/-! ## Depth -/

/-- What has the same members has the same height. -/
theorem SameMembers.height_eq {d d' : Draft} (h : SameMembers d d') : d.height = d'.height := by
  induction h with
  | rel _ _ h => exact h.height_eq
  | refl _ => rfl
  | symm _ _ _ ih => exact ih.symm
  | trans _ _ _ _ _ ih ih' => exact ih.trans ih'

mutual

/-- A draft with a value is no deeper than is allowed. -/
theorem height_le_of_toJson? {depth : Nat} {j : Json} : ∀ d : Draft, d.toJson? depth = some j →
    d.height ≤ depth
  | .null, _ => Nat.zero_le _
  | .bool _, _ => Nat.zero_le _
  | .num _, _ => Nat.zero_le _
  | .str _, _ => Nat.zero_le _
  | .arr items closed, h => by
    match depth, closed with
    | depth + 1, true =>
      obtain ⟨js, hjs, -⟩ := Option.map_eq_some_iff.mp h
      exact Nat.succ_le_succ (heights_le_of_toItems? items hjs)
  | .obj members closed, h => by
    match depth, closed with
    | depth + 1, true =>
      obtain ⟨js, hjs, -⟩ := Option.map_eq_some_iff.mp h
      exact Nat.succ_le_succ (memberHeights_le_of_toMembers? members hjs)
  | .fault, h => by cases h

/-- Items that become values are no deeper than allowed. -/
theorem heights_le_of_toItems? {depth : Nat} {js : List Json} : ∀ ds : List Draft,
    toItems? depth ds = some js → heights ds ≤ depth
  | [], _ => Nat.zero_le _
  | d :: ds, h => by
    simp only [toItems?, Option.bind_eq_bind, Option.bind_eq_some_iff] at h
    obtain ⟨j, hj, rest, hrest, -⟩ := h
    exact Nat.max_le.mpr ⟨height_le_of_toJson? d hj, heights_le_of_toItems? ds hrest⟩

/-- Members that become values are no deeper than allowed. -/
theorem memberHeights_le_of_toMembers? {depth : Nat} {js : List (String × Json)} :
    ∀ ms : List (Option String × Draft), toMembers? depth ms = some js → memberHeights ms ≤ depth
  | [], _ => Nat.zero_le _
  | (name, d) :: ms, h => by
    simp only [toMembers?, Option.bind_eq_bind, Option.bind_eq_some_iff] at h
    obtain ⟨n, -, j, hj, rest, hrest, -⟩ := h
    exact Nat.max_le.mpr ⟨height_le_of_toJson? d hj, memberHeights_le_of_toMembers? ms hrest⟩

end

mutual

/-- Allowing more depth than there is changes nothing. -/
theorem toJson?_of_height_le : ∀ (d : Draft) {depth depth' : Nat}, d.height ≤ depth →
    d.height ≤ depth' → d.toJson? depth = d.toJson? depth'
  | .null, _, _, _, _ => rfl
  | .bool _, _, _, _, _ => rfl
  | .num _, _, _, _, _ => rfl
  | .str _, _, _, _, _ => rfl
  | .arr items closed, depth, depth', h, h' => by
    match depth, depth', h, h' with
    | depth + 1, depth' + 1, h, h' =>
      simp only [toJson?, toItems?_of_heights_le items (Nat.le_of_succ_le_succ h)
        (Nat.le_of_succ_le_succ h')]
  | .obj members closed, depth, depth', h, h' => by
    match depth, depth', h, h' with
    | depth + 1, depth' + 1, h, h' =>
      simp only [toJson?, toMembers?_of_memberHeights_le members (Nat.le_of_succ_le_succ h)
        (Nat.le_of_succ_le_succ h')]
  | .fault, _, _, _, _ => rfl

/-- For items that are not too deep the limit does not matter. -/
theorem toItems?_of_heights_le : ∀ (ds : List Draft) {depth depth' : Nat}, heights ds ≤ depth →
    heights ds ≤ depth' → toItems? depth ds = toItems? depth' ds
  | [], _, _, _, _ => rfl
  | d :: ds, _, _, h, h' => by
    obtain ⟨hd, hds⟩ := Nat.max_le.mp h
    obtain ⟨hd', hds'⟩ := Nat.max_le.mp h'
    simp only [toItems?, toJson?_of_height_le d hd hd', toItems?_of_heights_le ds hds hds']

/-- For members that are not too deep the limit does not matter. -/
theorem toMembers?_of_memberHeights_le : ∀ (ms : List (Option String × Draft))
    {depth depth' : Nat}, memberHeights ms ≤ depth → memberHeights ms ≤ depth' →
    toMembers? depth ms = toMembers? depth' ms
  | [], _, _, _, _ => rfl
  | (name, d) :: ms, _, _, h, h' => by
    obtain ⟨hd, hds⟩ := Nat.max_le.mp h
    obtain ⟨hd', hds'⟩ := Nat.max_le.mp h'
    simp only [toMembers?, toJson?_of_height_le d hd hd',
      toMembers?_of_memberHeights_le ms hds hds']

end

end Draft

/-! ## Fields of finished values -/

/-- The members of an object as they are drafted. -/
def named (ms : List (String × Json)) : List (Option String × Json) :=
  ms.map fun m => (some m.1, m.2)

/-- The fields of a finished record by their places in a layout. -/
def fields? (layout : List (List String)) : Json → Option (Nat → Option Json)
  | .obj ms =>
    if layout.all fun names => (gathered names (named ms)).length ≤ 1 then
      some fun i => (gathered (layout.getD i []) (named ms)).head?
    else none
  | .arr items => if items.length ≤ layout.length then some fun i => items[i]? else none
  | _ => none

/-- The field of a finished record that has one name and a place. -/
def field? (name : String) (place : Nat) : Json → Option Json
  | .obj ms => get? (.obj ms) name
  | .arr items => items[place]?
  | _ => none

/-- Changes the field of a finished record that has one name and a place. -/
def adjust (name : String) (place : Nat) (f : Json → Json) : Json → Json
  | .obj ms => .obj (ms.map fun m => (m.1, if m.1 = name then f m.2 else m.2))
  | .arr items => .arr (items.modify place f)
  | j => j

mutual

/-- The draft of a finished value has no faults. -/
theorem isWhole_draft : ∀ j : Json, j.draft.isWhole = true
  | .null => rfl
  | .bool _ => rfl
  | .num _ => rfl
  | .str _ => rfl
  | .arr items => by simp only [draft, Draft.isWhole, allWhole_draftItems items, Bool.true_and]
  | .obj ms => by simp only [draft, Draft.isWhole, membersWhole_draftMembers ms, Bool.true_and]

/-- The drafts of values are whole. -/
theorem allWhole_draftItems : ∀ js : List Json, Draft.allWhole (draftItems js) = true
  | [] => rfl
  | j :: js => by
    simp only [draftItems, Draft.allWhole, isWhole_draft j, allWhole_draftItems js, Bool.true_and]

/-- So are the drafts of members. -/
theorem membersWhole_draftMembers : ∀ ms : List (String × Json),
    Draft.membersWhole (draftMembers ms) = true
  | [] => rfl
  | (_, j) :: ms => by
    simp only [draftMembers, Draft.membersWhole, isWhole_draft j, membersWhole_draftMembers ms,
      Bool.true_and]

end

/-- Gathering does not depend on what is gathered. -/
theorem gathered_map {α β : Type} (names : List String) (f : α → β)
    (ms : List (Option String × α)) :
    gathered names (ms.map fun m => (m.1, f m.2)) = (gathered names ms).map f := by
  induction ms with
  | nil => rfl
  | cons m ms ih =>
    simp only [gathered, List.map_cons, List.filterMap_cons] at ih ⊢
    split <;> simp_all

theorem gathered_draftMembers (names : List String) (ms : List (String × Json)) :
    gathered names (draftMembers ms) = (gathered names (named ms)).map draft := by
  rw [← gathered_map, named, List.map_map, Draft.draftMembers_eq_map]
  rfl

/-- The fields of a draft of a finished value are drafts of its fields. -/
theorem fields?_draft (layout : List (List String)) (j : Json) :
    Draft.fields? layout j.draft = (fields? layout j).map fun g i => (g i).map draft := by
  cases j with
  | obj ms =>
    have hpass : (draftMembers ms).all (passable layout) = true := by
      rw [Draft.draftMembers_eq_map]
      simp [passable, isWhole_draft]
    simp only [draft, Draft.fields?, fields?, hpass, gathered_draftMembers, List.length_map,
      true_and, List.head?_map]
    split <;> rfl
  | arr items =>
    simp only [draft, Draft.fields?, fields?, Draft.draftItems_eq_map, List.length_map]
    split
    · simp
    · rfl
  | _ => rfl

/-- The first value gathered under a name is the one found there. -/
theorem head?_gathered (name : String) (ms : List (String × Json)) :
    (gathered [name] (named ms)).head? = get? (.obj ms) name := by
  induction ms with
  | nil => rfl
  | cons m ms ih =>
    obtain ⟨n, j⟩ := m
    simp only [named, List.map_cons] at ih ⊢
    by_cases hn : n = name
    · subst hn
      rw [gathered_cons_of_mem (List.mem_singleton_self n)]
      simp [get?]
    · rw [gathered_cons_of_not_mem (by simpa using hn), ih]
      simp [get?, hn]

/-- The members of an object with the one of a name changed. -/
def adjustMembers (name : String) (f : Json → Json) (ms : List (String × Json)) :
    List (String × Json) :=
  ms.map fun m => (m.1, if m.1 = name then f m.2 else m.2)

/-- Adjusting a member adjusts what is gathered under its name. -/
theorem gathered_adjustMembers_self (name : String) (f : Json → Json)
    (ms : List (String × Json)) :
    gathered [name] (named (adjustMembers name f ms)) = (gathered [name] (named ms)).map f := by
  induction ms with
  | nil => rfl
  | cons m ms ih =>
    obtain ⟨n, j⟩ := m
    simp only [named, adjustMembers, List.map_cons] at ih ⊢
    by_cases hn : n = name
    · subst hn
      rw [gathered_cons_of_mem (List.mem_singleton_self n),
        gathered_cons_of_mem (List.mem_singleton_self n), ih]
      simp
    · have hnot : n ∉ [name] := by simpa using hn
      rw [gathered_cons_of_not_mem hnot, gathered_cons_of_not_mem hnot, ih]

/-- Adjusting a member leaves what is gathered under other names. -/
theorem gathered_adjustMembers_of_not_mem {names : List String} {name : String} (h : name ∉ names)
    (f : Json → Json) (ms : List (String × Json)) :
    gathered names (named (adjustMembers name f ms)) = gathered names (named ms) := by
  induction ms with
  | nil => rfl
  | cons m ms ih =>
    obtain ⟨n, j⟩ := m
    simp only [named, adjustMembers, List.map_cons] at ih ⊢
    by_cases hn : n ∈ names
    · have hne : n ≠ name := fun hne => h (hne ▸ hn)
      rw [gathered_cons_of_mem hn, gathered_cons_of_mem hn, ih, if_neg hne]
    · rw [gathered_cons_of_not_mem hn, gathered_cons_of_not_mem hn, ih]

variable {layout : List (List String)} {name : String} {place : Nat} {j : Json}

/-- The field at the place of a name is the field of that name. -/
theorem field?_eq {g : Nat → Option Json} (hg : fields? layout j = some g)
    (hplace : layout[place]? = some [name]) : j.field? name place = g place := by
  cases j with
  | obj ms =>
    simp only [fields?, Option.ite_none_right_eq_some, Option.some.injEq] at hg
    obtain ⟨-, rfl⟩ := hg
    have hnames : layout.getD place [] = [name] := by
      rw [List.getD_eq_getElem?_getD, hplace]
      rfl
    simp only [hnames, head?_gathered]
    rfl
  | arr items =>
    simp only [fields?, Option.ite_none_right_eq_some, Option.some.injEq] at hg
    obtain ⟨-, rfl⟩ := hg
    rfl
  | _ => cases hg

/-- Changing a field changes nothing else. -/
theorem fields?_adjust (hplace : layout[place]? = some [name])
    (hother : ∀ i names, i ≠ place → layout[i]? = some names → name ∉ names) (f : Json → Json) :
    fields? layout (j.adjust name place f) =
      (fields? layout j).map fun g => Function.update g place ((g place).map f) := by
  cases j with
  | obj ms =>
    have hself : layout.getD place [] = [name] := by
      rw [List.getD_eq_getElem?_getD, hplace]
      rfl
    have hrest : ∀ i, i ≠ place → name ∉ layout.getD i [] := by
      intro i hi
      rw [List.getD_eq_getElem?_getD]
      cases hl : layout[i]? with
      | none => simp
      | some names => exact hother i names hi hl
    have hgathered : ∀ i, gathered (layout.getD i []) (named (adjustMembers name f ms)) =
        if i = place then (gathered (layout.getD i []) (named ms)).map f
        else gathered (layout.getD i []) (named ms) := by
      intro i
      split
      · rename_i hi
        rw [hi, hself, gathered_adjustMembers_self]
      · rename_i hi
        exact gathered_adjustMembers_of_not_mem (hrest i hi) f ms
    have hall : (layout.all fun names =>
          (gathered names (named (adjustMembers name f ms))).length ≤ 1) =
        layout.all fun names => (gathered names (named ms)).length ≤ 1 := by
      rw [Bool.eq_iff_iff, all_gathered_le, all_gathered_le]
      refine forall_congr' fun i => ?_
      rw [hgathered]
      split <;> simp
    change fields? layout (.obj (adjustMembers name f ms)) = _
    simp only [fields?, hall, hgathered]
    split
    · refine congrArg some (funext fun i => ?_)
      by_cases hi : i = place
      · subst hi
        simp
      · simp [hi]
    · rfl
  | arr items =>
    simp only [adjust, fields?, List.length_modify]
    split
    · refine congrArg some (funext fun i => ?_)
      by_cases hi : i = place
      · subst hi
        simp
      · simp [hi, Ne.symm hi]
    · rfl
  | _ => rfl

/-- A field with one name is one of its own in a layout. -/
theorem Layout.fields?_adjust {σ : Type} (L : Layout σ) (hplace : L.names[place]? = some [name])
    (f : Json → Json) :
    fields? L.names (j.adjust name place f) =
      (fields? L.names j).map fun g => Function.update g place ((g place).map f) :=
  Json.fields?_adjust hplace (fun _ _ hi hnames =>
    L.not_mem_names hplace hnames hi.symm (List.mem_singleton_self _)) f

/-- An item is no deeper than all of them. -/
theorem height_le_heights {x : Json} {js : List Json} (h : x ∈ js) :
    x.draft.height ≤ Draft.heights (draftItems js) := by
  induction js with
  | nil => cases h
  | cons j js ih =>
    rcases List.mem_cons.mp h with rfl | h
    · exact Nat.le_max_left _ _
    · exact (ih h).trans (Nat.le_max_right _ _)

/-- A member is no deeper than all of them. -/
theorem height_le_memberHeights {m : String × Json} {ms : List (String × Json)} (h : m ∈ ms) :
    m.2.draft.height ≤ Draft.memberHeights (draftMembers ms) := by
  induction ms with
  | nil => cases h
  | cons k ms ih =>
    rcases List.mem_cons.mp h with rfl | h
    · exact Nat.le_max_left _ _
    · exact (ih h).trans (Nat.le_max_right _ _)

/-- A field is less deep than its record. -/
theorem height_lt_of_fields? {g : Nat → Option Json} (hg : fields? layout j = some g) {i : Nat}
    {x : Json} (hx : g i = some x) : x.draft.height < j.draft.height := by
  cases j with
  | obj ms =>
    simp only [fields?, Option.ite_none_right_eq_some, Option.some.injEq] at hg
    obtain ⟨-, rfl⟩ := hg
    have hmem : x ∈ gathered (layout.getD i []) (named ms) := List.mem_of_mem_head? hx
    obtain ⟨m, hm, hgiven⟩ := List.mem_filterMap.mp hmem
    obtain ⟨k, hk, rfl⟩ := List.mem_map.mp hm
    simp only [Option.ite_none_right_eq_some, Option.some.injEq] at hgiven
    exact hgiven.2 ▸ Nat.lt_succ_of_le (height_le_memberHeights hk)
  | arr items =>
    simp only [fields?, Option.ite_none_right_eq_some, Option.some.injEq] at hg
    obtain ⟨-, rfl⟩ := hg
    exact Nat.lt_succ_of_le (height_le_heights (List.mem_of_getElem? hx))
  | _ => cases hg

end EventRelay.Json
