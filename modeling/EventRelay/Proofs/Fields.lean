import EventRelay.Config.Reader
import Mathlib.Data.List.Basic
import Mathlib.Data.List.Forall2

/-!
# Records by their fields

A record is given by an object, whose members come in any order and under any of their spellings, or
by a list. `Draft.fields?` takes either apart into what stands at each place of a layout, and
`Layout.Reads.toOption_record` says that the reader of a record is a function of that: members are
read into their slots one after the other, no two slots get in each other's way, and so the order of
the members is lost. What each record makes of its fields is its `ofFields`.
-/

namespace EventRelay

/-! ## Results -/

section Results

variable {ε ε' α β : Type}

@[simp] theorem toOption_ok (x : α) : (Except.ok x : Except ε α).toOption = some x := rfl

@[simp] theorem toOption_error (e : ε) : (Except.error e : Except ε α).toOption = none := rfl

@[simp] theorem toOption_pure (x : α) : (pure x : Except ε α).toOption = some x := rfl

@[simp] theorem toOption_throw (e : ε) : (throw e : Except ε α).toOption = none := rfl

@[simp] theorem toOption_bind (r : Except ε α) (f : α → Except ε β) :
    (r >>= f).toOption = r.toOption.bind fun x => (f x).toOption := by
  cases r <;> rfl

@[simp] theorem toOption_map (r : Except ε α) (f : α → β) :
    (r.map f).toOption = r.toOption.map f := by
  cases r <;> rfl

@[simp] theorem toOption_functorMap (r : Except ε α) (f : α → β) :
    (f <$> r).toOption = r.toOption.map f := by
  cases r <;> rfl

@[simp] theorem toOption_mapError (r : Except ε α) (f : ε → ε') :
    (r.mapError f).toOption = r.toOption := by
  cases r <;> rfl

/-- A result is there when it is a success. -/
theorem toOption_eq_some {r : Except ε α} {x : α} : r.toOption = some x ↔ r = .ok x := by
  cases r with
  | error e => exact ⟨nofun, nofun⟩
  | ok y => exact ⟨fun h => congrArg _ (Option.some.inj h), fun h => congrArg _ (Except.ok.inj h)⟩

/-- There is none when it is an error. -/
theorem toOption_eq_none {r : Except ε α} : r.toOption = none ↔ ∃ e, r = .error e := by
  cases r with
  | error e => exact ⟨fun _ => ⟨e, rfl⟩, fun _ => rfl⟩
  | ok y => exact ⟨nofun, nofun⟩

end Results

namespace Json

variable {α β σ : Type}

/-! ## Fields -/

namespace Read

@[simp] theorem toOption_mismatch (expected : String) (d : Draft) :
    (mismatch expected d : Read α).toOption = none := by
  unfold mismatch
  cases d.shape? <;> rfl

/-- A field that must be there. -/
def need (read : Draft → Read α) (o : Option Draft) : Option α := o.bind fun d => (read d).toOption

/-- A field with a value of its own when it is not there. -/
def orElse (default : α) (read : Draft → Read α) : Option Draft → Option α
  | none => some default
  | some d => (read d).toOption

/-- What is there of a field. -/
def given? (read : Draft → Read α) : Option Draft → Option (Option α)
  | none => some none
  | some d => (read d).toOption.map some

/-- Items that are read alike make lists that are. -/
theorem toOption_items_congr {read read' : Draft → Read α} {ds ds' : List Draft}
    (h : List.Forall₂ (fun d d' => (read d).toOption = (read' d').toOption) ds ds') :
    (items read ds).toOption = (items read' ds').toOption := by
  induction h with
  | nil => rfl
  | cons hd _ ih => simp [items, hd, ih]

@[simp] theorem toOption_required (name : String) (o : Option α) :
    (required name o).toOption = o := by
  cases o <;> rfl

section Rows

variable {γ : Type} {n : Nat} {ds : List Draft} {read : Draft → Read α} {k : α × Row → Read β}
  {k' : α → Option γ} {g : γ → β}

/-- The next field of a list that has its end is what stands at its place. -/
theorem Row.toOption_next {record : String}
    (hk : ∀ x, (k (x, ⟨n + 1, ds.drop (n + 1), true⟩)).toOption = (k' x).map g) :
    (Row.next ⟨n, ds.drop n, true⟩ record read >>= k).toOption =
      (need read ds[n]? >>= k').map g := by
  simp only [← List.tail_drop] at hk
  rw [← List.head?_drop]
  generalize ds.drop n = rest at hk ⊢
  cases rest with
  | nil => rfl
  | cons d rest => cases hd : (read d).toOption <;> simp_all [Row.next, need]

/-- A field that may be left out at the end of a list. -/
theorem Row.toOption_nextOr {default : α}
    (hk : ∀ x, (k (x, ⟨n + 1, ds.drop (n + 1), true⟩)).toOption = (k' x).map g) :
    (Row.nextOr ⟨n, ds.drop n, true⟩ default read >>= k).toOption =
      (orElse default read ds[n]? >>= k').map g := by
  simp only [← List.tail_drop] at hk
  rw [← List.head?_drop]
  generalize ds.drop n = rest at hk ⊢
  cases rest with
  | nil => exact hk default
  | cons d rest => cases hd : (read d).toOption <;> simp_all [Row.nextOr, orElse]

end Rows

/-- A list gives a record when the fields of the record use it up. -/
theorem toOption_record_arr (name : String) (source : Source) (start : σ)
    (field : σ → String → Option (Draft → Read σ)) (finish : σ → Read α)
    (row : Row → Read (α × Row)) (ds : List Draft) (closed : Bool) :
    (record name source start field finish row (.arr ds closed)).toOption =
      (row ⟨0, ds, closed⟩).toOption.bind fun p =>
        if p.2.rest.isEmpty && closed then some p.1 else none := by
  simp only [record, toOption_bind]
  refine Option.bind_congr fun p _ => ?_
  cases p.2.rest.isEmpty <;> cases closed <;> cases source <;> rfl

end Read

/-! ## What members give -/

/-- The values that members give under one of several spellings. -/
def gathered (names : List String) (ms : List (Option String × α)) : List α :=
  ms.filterMap fun m => if m.1.any names.contains then some m.2 else none

/-- Whether a reader of records gets past a member: it knows the name or finds JSON. -/
def passable (layout : List (List String)) (m : Option String × Draft) : Bool :=
  m.1.any fun n => layout.any (·.contains n) || m.2.isWhole

/-- The fields of a record by their places in a layout, which gives the spellings of each; `none`
when a field is given twice or the draft is no record. -/
def Draft.fields? (layout : List (List String)) : Draft → Option (Nat → Option Draft)
  | .obj ms true =>
    if ms.all (passable layout) ∧ layout.all fun names => (gathered names ms).length ≤ 1 then
      some fun i => (gathered (layout.getD i []) ms).head?
    else none
  | .arr ds true => if ds.length ≤ layout.length then some fun i => ds[i]? else none
  | _ => none

/-- A member under one of the spellings is gathered. -/
theorem gathered_cons_of_mem {names : List String} {n : String} (h : n ∈ names) (x : α)
    (ms : List (Option String × α)) :
    gathered names ((some n, x) :: ms) = x :: gathered names ms := by
  simp [gathered, h]

/-- A member under another name is not. -/
theorem gathered_cons_of_not_mem {names : List String} {n : String} (h : n ∉ names) (x : α)
    (ms : List (Option String × α)) :
    gathered names ((some n, x) :: ms) = gathered names ms := by
  simp [gathered, h]

/-! ## Slots -/

/-- A field of a record that is being put together: its spellings, and what a draft makes of the
members read so far. -/
structure Slot (σ : Type) where
  names : List String
  put : Draft → σ → Option σ
  /-- A slot that is full takes nothing more. -/
  full : ∀ d e s, (put d s).bind (put e) = none

namespace Slot

/-- The slot that `Read.once` fills. -/
def once (names : List String) (key : String) (get : σ → Option α) (read : Draft → Read α)
    (set : σ → Option α → σ) (h : ∀ s x, get (set s x) = x) : Slot σ where
  names
  put d s := (Read.once key (get s) read (fun x => set s (some x)) d).toOption
  full d e s := by
    simp only [Read.once]
    cases hs : get s with
    | some x => simp
    | none => cases hr : (read d).toOption <;> simp [hr, h]

/-- Fills a slot with all that is given for it. -/
def fill (t : Slot σ) : List Draft → σ → Option σ
  | [], s => some s
  | [d], s => t.put d s
  | _, _ => none

/-- Two slots that can be filled in any order. -/
def Commute (t u : Slot σ) : Prop :=
  ∀ d e s, (t.put d s).bind (u.put e) = (u.put e s).bind (t.put d)

/-- Slots that keep apart can be filled in any order. -/
theorem commute_once {names names' : List String} {key key' : String} {get : σ → Option α}
    {get' : σ → Option β} {read : Draft → Read α} {read' : Draft → Read β}
    {set : σ → Option α → σ} {set' : σ → Option β → σ} {h : ∀ s x, get (set s x) = x}
    {h' : ∀ s x, get' (set' s x) = x} (hget : ∀ s x, get' (set s x) = get' s)
    (hget' : ∀ s y, get (set' s y) = get s)
    (hset : ∀ s x y, set' (set s x) y = set (set' s y) x) :
    Commute (once names key get read set h) (once names' key' get' read' set' h') := by
  intro d e s
  simp only [once, Read.once]
  cases hs : get s <;> cases hs' : get' s <;> cases hr : (read d).toOption <;>
    cases hr' : (read' e).toOption <;> simp [hr, hr', hs, hs', hget, hget', hset]

/-- An empty slot takes what is there of its field. -/
theorem put_once {names : List String} {key : String} {get : σ → Option α}
    {read : Draft → Read α} {set : σ → Option α → σ} {h : ∀ s x, get (set s x) = x} {s : σ}
    (hget : get s = none) (hset : set s none = s) (o : Option Draft) :
    (o.elim (some s) fun d => (once names key get read set h).put d s) =
      (Read.given? read o).map (set s) := by
  cases o with
  | none => simp [Read.given?, hset]
  | some d => simp [Read.given?, once, Read.once, hget, Function.comp_def]

theorem Commute.symm {t u : Slot σ} (h : Commute t u) : Commute u t := fun d e s => (h e d s).symm

/-- A slot is filled with the rest after one draft as it is with all of it. -/
theorem fill_cons (t : Slot σ) (d : Draft) (ds : List Draft) (s : σ) :
    t.fill (d :: ds) s = (t.put d s).bind (t.fill ds) := by
  match ds with
  | [] => exact (Option.bind_fun_some (t.put d s)).symm
  | [e] => exact (t.full d e s).symm
  | _ :: _ :: _ => exact (Option.bind_fun_none (t.put d s)).symm

/-- Slots that commute for one draft each commute for all that is given. -/
theorem Commute.fill {t u : Slot σ} (h : Commute t u) (d : Draft) (ds : List Draft) (s : σ) :
    (t.put d s).bind (u.fill ds) = (u.fill ds s).bind (t.put d) := by
  match ds with
  | [] => exact Option.bind_fun_some (t.put d s)
  | [e] => exact h d e s
  | _ :: _ :: _ => exact Option.bind_fun_none (t.put d s)

end Slot

/-- The slots of a record. -/
structure Layout (σ : Type) where
  slots : List (Slot σ)
  apart : slots.Pairwise fun t u => ∀ n ∈ t.names, n ∉ u.names
  commute : slots.Pairwise Slot.Commute

namespace Layout

variable (L : Layout σ)

/-- The spellings of each field. -/
def names : List (List String) := L.slots.map Slot.names

/-- The slot of a name. -/
def slot? (name : String) : Option (Slot σ) := L.slots.find? (·.names.contains name)

/-- `field` reads each member into its slot. -/
def Reads (field : σ → String → Option (Draft → Read σ)) : Prop :=
  ∀ s name, (field s name).map (fun read d => (read d).toOption) =
    (L.slot? name).map fun t d => t.put d s

/-- A name is a spelling of one field. -/
theorem not_mem_names {i j : Nat} {names names' : List String} (hi : L.names[i]? = some names)
    (hj : L.names[j]? = some names') (hij : i ≠ j) {n : String} (hn : n ∈ names) : n ∉ names' := by
  rw [Layout.names, List.getElem?_map, Option.map_eq_some_iff] at hi hj
  obtain ⟨t, ht, rfl⟩ := hi
  obtain ⟨u, hu, rfl⟩ := hj
  obtain ⟨hti, rfl⟩ := List.getElem?_eq_some_iff.mp ht
  obtain ⟨huj, rfl⟩ := List.getElem?_eq_some_iff.mp hu
  have hapart := List.pairwise_iff_getElem.mp L.apart
  rcases Nat.lt_or_gt_of_ne hij with h | h
  · exact hapart i j hti huj h n hn
  · exact fun hn' => hapart j i huj hti h n hn' hn

/-- Fills slots one after the other from what members give. -/
def fillAll : List (Slot σ) → List (Option String × Draft) → σ → Option σ
  | [], _, s => some s
  | t :: ts, ms, s => (t.fill (gathered t.names ms) s).bind (fillAll ts ms)

/-- Fills slots one after the other from fields. -/
def fillFields : List (Slot σ) → (Nat → Option Draft) → σ → Option σ
  | [], _, s => some s
  | t :: ts, f, s =>
    ((f 0).elim (some s) fun d => t.put d s).bind (fillFields ts fun i => f (i + 1))

section Filling

variable {names : List String} {key : String} {get : σ → Option α} {read : Draft → Read α}
  {set : σ → Option α → σ} {h : ∀ s x, get (set s x) = x} {ts : List (Slot σ)}
  {f : Nat → Option Draft} {s : σ} {k : σ → Option β} {k' : α → Option β}

/-- The first field goes into the slot in front, which is empty. -/
theorem fillFields_cons_bind (hget : get s = none) (hset : set s none = s) :
    (fillFields (.once names key get read set h :: ts) f s).bind k =
      (Read.given? read (f 0)).bind fun x =>
        (fillFields ts (fun i => f (i + 1)) (set s x)).bind k := by
  rw [fillFields, Slot.put_once hget hset, Option.bind_map, Option.bind_assoc]
  rfl

/-- The first field must be there: a record without it is none. -/
theorem fillFields_need (hget : get s = none) (hset : set s none = s)
    (hnone : (fillFields ts (fun i => f (i + 1)) s).bind k = none)
    (hsome : ∀ x, (fillFields ts (fun i => f (i + 1)) (set s (some x))).bind k = k' x) :
    (fillFields (.once names key get read set h :: ts) f s).bind k =
      (Read.need read (f 0) >>= k') := by
  rw [fillFields_cons_bind hget hset]
  cases f 0 with
  | none => simpa [Read.given?, Read.need, hset] using hnone
  | some d => cases hd : (read d).toOption <;> simp [Read.given?, Read.need, hd, hsome]

/-- The first field has a value of its own when it is not there. -/
theorem fillFields_orElse (hget : get s = none) (hset : set s none = s) {default : α}
    (hx : ∀ x, (fillFields ts (fun i => f (i + 1)) (set s x)).bind k = k' (x.getD default)) :
    (fillFields (.once names key get read set h :: ts) f s).bind k =
      (Read.orElse default read (f 0) >>= k') := by
  rw [fillFields_cons_bind hget hset]
  cases f 0 with
  | none => exact hx none
  | some d => cases hd : (read d).toOption <;> simp [Read.given?, Read.orElse, hd, hx]

/-- The first field does not make up for what is missing already. -/
theorem fillFields_missing (hget : get s = none) (hset : set s none = s)
    (hx : ∀ x, (fillFields ts (fun i => f (i + 1)) (set s x)).bind k = none) :
    (fillFields (.once names key get read set h :: ts) f s).bind k = none := by
  rw [fillFields_cons_bind hget hset]
  exact Option.bind_eq_none_iff.mpr fun x _ => hx x

end Filling

/-- Without fields nothing is filled. -/
theorem fillAll_nil (ts : List (Slot σ)) (s : σ) : fillAll ts [] s = some s := by
  induction ts with
  | nil => rfl
  | cons t ts ih => exact ih

/-- A member that no slot is for does not fill any. -/
theorem fillAll_cons_of_not_mem {ts : List (Slot σ)} {n : String} (h : ∀ t ∈ ts, n ∉ t.names)
    (d : Draft) (ms : List (Option String × Draft)) (s : σ) :
    fillAll ts ((some n, d) :: ms) s = fillAll ts ms s := by
  induction ts generalizing s with
  | nil => rfl
  | cons t ts ih =>
    have hts : ∀ u ∈ ts, n ∉ u.names := fun u hu => h u (List.mem_cons_of_mem _ hu)
    simp only [fillAll, gathered_cons_of_not_mem (h t List.mem_cons_self)]
    exact Option.bind_congr fun s' _ => ih hts s'

/-- A member can be put into its slot before all others are read. -/
theorem fillAll_cons {ts : List (Slot σ)}
    (hapart : ts.Pairwise fun t u => ∀ n ∈ t.names, n ∉ u.names)
    (hcommute : ts.Pairwise Slot.Commute) {t : Slot σ} {n : String}
    (ht : ts.find? (·.names.contains n) = some t) (d : Draft) (ms : List (Option String × Draft))
    (s : σ) : fillAll ts ((some n, d) :: ms) s = (t.put d s).bind (fillAll ts ms) := by
  induction ts generalizing s with
  | nil => cases ht
  | cons u us ih =>
    -- The member goes into the slot in front, or past it: then the two slots change places.
    obtain ⟨hu, hus⟩ := List.pairwise_cons.mp hapart
    obtain ⟨hcu, hcus⟩ := List.pairwise_cons.mp hcommute
    by_cases hn : n ∈ u.names
    · obtain rfl : u = t := by simpa [hn] using ht
      have hrest : fillAll us ((some n, d) :: ms) = fillAll us ms :=
        funext fun s' => fillAll_cons_of_not_mem (fun v hv => hu v hv n hn) d ms s'
      simp only [fillAll, gathered_cons_of_mem hn, hrest,
        Slot.fill_cons, Option.bind_assoc]
    · have ht' : us.find? (·.names.contains n) = some t := by simpa [hn] using ht
      have hrest : fillAll us ((some n, d) :: ms) = fun s' => (t.put d s').bind (fillAll us ms) :=
        funext fun s' => ih hus hcus ht' s'
      have hswap := (hcu t (List.mem_of_find?_eq_some ht')).symm.fill d (gathered u.names ms) s
      simp only [fillAll, gathered_cons_of_not_mem hn, hrest]
      rw [← Option.bind_assoc, ← hswap, Option.bind_assoc]

/-- A slot that is given twice keeps all from being filled. -/
theorem fillAll_eq_none {ts : List (Slot σ)} {t : Slot σ} (ht : t ∈ ts)
    {ms : List (Option String × Draft)} (h : 1 < (gathered t.names ms).length) (s : σ) :
    fillAll ts ms s = none := by
  induction ts generalizing s with
  | nil => cases ht
  | cons u us ih =>
    rcases List.mem_cons.mp ht with rfl | hus
    · match hg : gathered t.names ms with
      | _ :: _ :: _ => simp [fillAll, hg, Slot.fill]
      | [_] => simp [hg] at h
      | [] => simp [hg] at h
    · have hrest : fillAll us ms = fun _ => none := funext (ih hus)
      rw [fillAll, hrest, Option.bind_fun_none]

/-- When each slot is given at most once, filling them all is filling them from the fields. -/
theorem fillAll_eq_fillFields {ts : List (Slot σ)} {ms : List (Option String × Draft)}
    (h : ∀ t ∈ ts, (gathered t.names ms).length ≤ 1) (s : σ) :
    fillAll ts ms s =
      fillFields ts (fun i => (gathered ((ts.map Slot.names).getD i []) ms).head?) s := by
  induction ts generalizing s with
  | nil => rfl
  | cons t ts ih =>
    have hts : fillAll ts ms = fillFields ts fun i =>
        (gathered ((ts.map Slot.names).getD i []) ms).head? :=
      funext fun s' => ih (fun u hu => h u (List.mem_cons_of_mem _ hu)) s'
    have ht : t.fill (gathered t.names ms) s =
        (gathered t.names ms).head?.elim (some s) fun d => t.put d s := by
      match hg : gathered t.names ms with
      | [] => rfl
      | [d] => rfl
      | _ :: _ :: _ => simpa [hg] using h t List.mem_cons_self
    simp only [fillAll, fillFields, hts, ht]
    rfl

variable {L : Layout σ} {field : σ → String → Option (Draft → Read σ)}

theorem passable_eq (n : String) (d : Draft) :
    passable L.names (some n, d) = ((L.slot? n).isSome || d.isWhole) := by
  rw [slot?, List.isSome_find?]
  simp [passable, names, Function.comp_def]

/-- Reading members one after the other is filling the slots. -/
theorem Reads.toOption_members (h : L.Reads field) (ms : List (Option String × Draft)) (s : σ) :
    (Read.members field s ms).toOption =
      if ms.all (passable L.names) then fillAll L.slots ms s else none := by
  -- Reading puts members into their slots in the order of the text, filling goes slot by slot.
  induction ms generalizing s with
  | nil => simp [Read.members, fillAll_nil]
  | cons m ms ih =>
    obtain ⟨name, d⟩ := m
    cases name with
    | none => simp [Read.members, passable]
    | some n =>
      have hfield := h s n
      cases hslot : L.slot? n with
      | some t =>
        rw [hslot, Option.map_some, Option.map_eq_some_iff] at hfield
        obtain ⟨read, hread, hput⟩ := hfield
        have hd : (read d).toOption = t.put d s := congrFun hput d
        have hfill := fillAll_cons L.apart L.commute hslot d ms s
        simp only [Read.members, hread, toOption_bind, hd, List.all_cons, passable_eq, hslot,
          Option.isSome_some, Bool.true_or, Bool.true_and, hfill, funext ih]
        split
        · rfl
        · exact Option.bind_fun_none (t.put d s)
      | none =>
        have hread : field s n = none := by simpa [hslot] using hfield
        have hfill := fillAll_cons_of_not_mem (by simpa [slot?] using hslot) d ms s
        cases hw : d.isWhole with
        | true =>
          have hpass : passable L.names (some n, d) = true := by rw [passable_eq, hw, Bool.or_true]
          rw [List.all_cons, hpass, Bool.true_and, hfill, ← ih]
          simp only [Read.members, hread, hw, if_true]
        | false =>
          have hpass : passable L.names (some n, d) = false := by
            rw [passable_eq, hw, hslot, Option.isSome_none, Bool.or_false]
          simp [Read.members, hread, hw, hpass]

/-- A record is read by its fields: `ofFields` says what it makes of them. -/
theorem Reads.toOption_record (h : L.Reads field) {source : Source} {name : String} {start : σ}
    {finish : σ → Read α} {row : Read.Row → Read (α × Read.Row)}
    {ofFields : (Nat → Option Draft) → Option α}
    (hobj : ∀ f, (fillFields L.slots f start).bind (fun s => (finish s).toOption) = ofFields f)
    (hrow : ∀ ds, (row ⟨0, ds, true⟩).toOption = (ofFields fun i => ds[i]?).map fun x =>
      (x, ⟨L.names.length, ds.drop L.names.length, true⟩)) (d : Draft) :
    (Read.record name source start field finish row d).toOption =
      (Draft.fields? L.names d).bind ofFields := by
  cases d with
  | obj ms closed =>
    cases closed with
    | false => simp [Read.record, Draft.fields?]
    | true =>
      have hlen : (L.names.all fun names => (gathered names ms).length ≤ 1) = true ↔
          ∀ t ∈ L.slots, (gathered t.names ms).length ≤ 1 := by
        simp [names]
      by_cases hpass : ms.all (passable L.names) = true
      · by_cases hmost : ∀ t ∈ L.slots, (gathered t.names ms).length ≤ 1
        · have hfields : Draft.fields? L.names (.obj ms true) =
              some fun i => (gathered (L.names.getD i []) ms).head? :=
            if_pos ⟨hpass, hlen.mpr hmost⟩
          have hfill := fillAll_eq_fillFields hmost start
          rw [hfields, Option.bind_some, ← hobj]
          simp only [Read.record, toOption_bind, h.toOption_members, if_pos hpass, hfill,
            if_true]
          rfl
        · have hfields : Draft.fields? L.names (.obj ms true) = none :=
            if_neg fun hf => hmost (hlen.mp hf.2)
          obtain ⟨t, ht, hmany⟩ : ∃ t ∈ L.slots, 1 < (gathered t.names ms).length := by
            simpa using hmost
          have hfill := fillAll_eq_none ht hmany start
          rw [hfields]
          simp only [Read.record, toOption_bind, h.toOption_members, if_pos hpass, hfill]
          rfl
      · have hfields : Draft.fields? L.names (.obj ms true) = none := if_neg fun hf => hpass hf.1
        rw [hfields]
        simp only [Read.record, toOption_bind, h.toOption_members, if_neg hpass]
        rfl
  | arr ds closed =>
    rw [Read.toOption_record_arr]
    cases closed with
    | false => simp [Draft.fields?]
    | true =>
      rw [hrow]
      by_cases hlen : ds.length ≤ L.names.length
      · rw [List.drop_eq_nil_of_le hlen]
        cases hread : ofFields fun i => ds[i]? <;> simp [Draft.fields?, hlen, hread]
      · simp [Draft.fields?, hlen]
  | _ => simp [Read.record, Draft.fields?]

end Layout

end Json

open Json (Draft Read Source Slot Layout)

/-! ## Addresses -/

/-- Whether what follows the bytes of an address in a list is the end of the list or passed over. -/
def Address.endsWith (source : Source) (closed : Bool) : List Draft → Bool
  | [] => closed
  | extra :: more =>
    (Read.byte extra).toOption.isNone && more.isEmpty &&
      (source = .value || extra.isScalar && closed)

/-- A list gives an address by its first 20 items. -/
theorem Address.toOption_ofItems (source : Source) (ds : List Draft) (closed : Bool) :
    (ofItems source ds closed).toOption =
      (Read.items Read.byte (ds.take 20)).toOption.bind fun bytes =>
        if 20 ≤ bytes.length ∧ endsWith source closed (ds.drop 20) then some (.ofBytes bytes)
        else none := by
  simp only [ofItems, toOption_bind]
  refine Option.bind_congr fun bytes _ => ?_
  by_cases hshort : bytes.length < 20
  · have hlen : ¬ 20 ≤ bytes.length := by omega
    cases closed <;> simp only [hshort, hlen, if_true, false_and, if_false] <;> rfl
  have hlen : 20 ≤ bytes.length := by omega
  simp only [hshort, hlen, if_false, true_and]
  cases ds.drop 20 with
  | nil => cases closed <;> rfl
  | cons extra more =>
    cases hb : Read.byte extra with
    | ok b => simp [endsWith, hb]
    | error e =>
      cases source <;> simp only [endsWith, hb] <;>
        split <;> simp_all

/-! ## Rules -/

namespace Invocation

/-- The fields of an invocation. -/
def layout : Layout Seen where
  slots :=
    [.once ["name"] "name" Seen.name Read.string
      (fun s x => { s with name := x }) fun _ _ => rfl,
     .once ["params"] "params" Seen.params (Read.list Read.string)
      (fun s x => { s with params := x }) fun _ _ => rfl]
  apart := by simp [Slot.once]
  commute := by simp (disch := (intros; rfl)) [Slot.commute_once]

/-- What the fields of an invocation make. -/
def ofFields (f : Nat → Option Draft) : Option Invocation := do
  let method ← Read.need Read.string (f 0)
  let params ← Read.orElse [] (Read.list Read.string) (f 1)
  pure ⟨method, params⟩

/-- Each of the fields of an invocation is read by its own slot. -/
theorem layout_reads : layout.Reads Seen.field := by
  intro s name
  simp only [Seen.field, Layout.slot?, layout, Slot.once]
  by_cases h0 : name = "name"
  · simp [h0]
  by_cases h1 : name = "params"
  · simp [h1]
  simp [h0, h1]

/-- An invocation is read by its fields. -/
theorem toOption_ofDraft (source : Source) (d : Draft) :
    (ofDraft source d).toOption = (Draft.fields? layout.names d).bind ofFields := by
  refine layout_reads.toOption_record (fun f => ?_) (fun ds => ?_) d
  · refine Layout.fillFields_need rfl rfl ?_ fun method => ?_
    · repeat refine Layout.fillFields_missing rfl rfl fun _ => ?_
      rfl
    refine Layout.fillFields_orElse rfl rfl fun params => ?_
    rfl
  · change (ofRow ⟨0, ds.drop 0, true⟩).toOption = _
    refine Read.Row.toOption_next fun method => ?_
    refine Read.Row.toOption_nextOr fun params => ?_
    rfl

end Invocation

namespace Callback

/-- The fields of a callback. -/
def layout (source : Source) : Layout Seen where
  slots :=
    [.once ["event_name", "eventName"] "event_name" Seen.event (Read.optional Read.string)
      (fun s x => { s with event := x }) fun _ _ => rfl,
     .once ["target", "targetTag", "contract"] "target" Seen.target (Side.ofDraft source)
      (fun s x => { s with target := x }) fun _ _ => rfl,
     .once ["method"] "method" Seen.method Read.string
      (fun s x => { s with method := x }) fun _ _ => rfl,
     .once ["params"] "params" Seen.params (Read.list Read.string)
      (fun s x => { s with params := x }) fun _ _ => rfl]
  apart := by simp [Slot.once]
  commute := by simp (disch := (intros; rfl)) [Slot.commute_once]

/-- What the fields of a callback make. -/
def ofFields (source : Source) (f : Nat → Option Draft) : Option Callback := do
  let event ← Read.orElse none (Read.optional Read.string) (f 0)
  let target ← Read.need (Side.ofDraft source) (f 1)
  let method ← Read.need Read.string (f 2)
  let params ← Read.orElse [] (Read.list Read.string) (f 3)
  pure ⟨event, target, ⟨method, params⟩⟩

/-- Each of the fields of a callback is read by its own slot. -/
theorem layout_reads (source : Source) : (layout source).Reads (Seen.field source) := by
  intro s name
  simp only [Seen.field, Layout.slot?, layout, Slot.once]
  by_cases h0 : name = "event_name" ∨ name = "eventName"
  · simp [h0]
  by_cases h1 : name = "target" ∨ name = "targetTag" ∨ name = "contract"
  · simp [h0, h1]
  by_cases h2 : name = "method"
  · simp [h2]
  by_cases h3 : name = "params"
  · simp [h3]
  simp [h0, h1, h2, h3]

/-- A callback is read by its fields. -/
theorem toOption_ofDraft (source : Source) (d : Draft) :
    (ofDraft source d).toOption =
      (Draft.fields? (layout source).names d).bind (ofFields source) := by
  refine (layout_reads source).toOption_record (fun f => ?_) (fun ds => ?_) d
  · refine Layout.fillFields_orElse rfl rfl fun event => ?_
    refine Layout.fillFields_need rfl rfl ?_ fun target => ?_
    · repeat refine Layout.fillFields_missing rfl rfl fun _ => ?_
      rfl
    refine Layout.fillFields_need rfl rfl ?_ fun method => ?_
    · repeat refine Layout.fillFields_missing rfl rfl fun _ => ?_
      rfl
    refine Layout.fillFields_orElse rfl rfl fun params => ?_
    rfl
  · change (ofRow _ ⟨0, ds.drop 0, true⟩).toOption = _
    refine Read.Row.toOption_nextOr fun event => ?_
    refine Read.Row.toOption_next fun target => ?_
    refine Read.Row.toOption_next fun method => ?_
    refine Read.Row.toOption_nextOr fun params => ?_
    rfl

end Callback

namespace Rule

/-- The fields of a rule. -/
def layout (source : Source) : Layout Seen where
  slots :=
    [.once ["event_name", "eventName"] "event_name" Seen.event Read.string
      (fun s x => { s with event := x }) fun _ _ => rfl,
     .once ["target_method", "targetMethod", "privateMethod"] "target_method" Seen.call
      (Invocation.ofDraft source) (fun s x => { s with call := x }) fun _ _ => rfl,
     .once ["callback"] "callback" Seen.callback (Read.optional (Callback.ofDraft source))
      (fun s x => { s with callback := x }) fun _ _ => rfl]
  apart := by simp [Slot.once]
  commute := by simp (disch := (intros; rfl)) [Slot.commute_once]

/-- What the fields of a rule make. -/
def ofFields (source : Source) (f : Nat → Option Draft) : Option Rule := do
  let event ← Read.need Read.string (f 0)
  let call ← Read.need (Invocation.ofDraft source) (f 1)
  let callback ← Read.orElse none (Read.optional (Callback.ofDraft source)) (f 2)
  pure ⟨event, call, callback⟩

/-- Each of the fields of a rule is read by its own slot. -/
theorem layout_reads (source : Source) : (layout source).Reads (Seen.field source) := by
  intro s name
  simp only [Seen.field, Layout.slot?, layout, Slot.once]
  by_cases h0 : name = "event_name" ∨ name = "eventName"
  · simp [h0]
  by_cases h1 : name = "target_method" ∨ name = "targetMethod" ∨ name = "privateMethod"
  · simp [h0, h1]
  by_cases h2 : name = "callback"
  · simp [h2]
  simp [h0, h1, h2]

/-- A rule is read by its fields. -/
theorem toOption_ofDraft (source : Source) (d : Draft) :
    (ofDraft source d).toOption =
      (Draft.fields? (layout source).names d).bind (ofFields source) := by
  refine (layout_reads source).toOption_record (fun f => ?_) (fun ds => ?_) d
  · refine Layout.fillFields_need rfl rfl ?_ fun event => ?_
    · repeat refine Layout.fillFields_missing rfl rfl fun _ => ?_
      rfl
    refine Layout.fillFields_need rfl rfl ?_ fun call => ?_
    · repeat refine Layout.fillFields_missing rfl rfl fun _ => ?_
      rfl
    refine Layout.fillFields_orElse rfl rfl fun callback => ?_
    rfl
  · change (ofRow _ ⟨0, ds.drop 0, true⟩).toOption = _
    refine Read.Row.toOption_next fun event => ?_
    refine Read.Row.toOption_next fun call => ?_
    refine Read.Row.toOption_nextOr fun callback => ?_
    rfl

end Rule

/-! ## Configurations -/

namespace ChainConfig

/-- The fields of a side. -/
def layout (source : Source) (depth : Nat) : Layout Seen where
  slots :=
    [.once ["rpc_url"] "rpc_url" Seen.url Read.string
      (fun s x => { s with url := x }) fun _ _ => rfl,
     .once ["transport"] "transport" Seen.transport (Read.optional (Transport.ofDraft source))
      (fun s x => { s with transport := x }) fun _ _ => rfl,
     .once ["contract_address"] "contract_address" Seen.contract (Address.ofDraft source)
      (fun s x => { s with contract := x }) fun _ _ => rfl,
     .once ["abi"] "abi" Seen.abi (Read.optional (Read.json source depth))
      (fun s x => { s with abi := x }) fun _ _ => rfl,
     .once ["abi_path"] "abi_path" Seen.abiPath (Read.optional Read.path)
      (fun s x => { s with abiPath := x }) fun _ _ => rfl,
     .once ["gas_limit"] "gas_limit" Seen.gasLimit Read.word64
      (fun s x => { s with gasLimit := x }) fun _ _ => rfl,
     .once ["gas_price_wei"] "gas_price_wei" Seen.gasPrice (Read.optional (Read.word128 source))
      (fun s x => { s with gasPrice := x }) fun _ _ => rfl]
  apart := by simp [Slot.once]
  commute := by simp (disch := (intros; rfl)) [Slot.commute_once]

/-- What the fields of a side make. -/
def ofFields (source : Source) (depth : Nat) (f : Nat → Option Draft) : Option ChainConfig := do
  let url ← Read.need Read.string (f 0)
  let transport ← Read.orElse none (Read.optional (Transport.ofDraft source)) (f 1)
  let contract ← Read.need (Address.ofDraft source) (f 2)
  let abi ← Read.orElse none (Read.optional (Read.json source depth)) (f 3)
  let abiPath ← Read.orElse none (Read.optional Read.path) (f 4)
  let gasLimit ← Read.orElse defaultGasLimit Read.word64 (f 5)
  let gasPrice ← Read.orElse none (Read.optional (Read.word128 source)) (f 6)
  pure { url, transport, contract, abi, abiPath, gasLimit, gasPrice }

/-- Each of the fields of a chain is read by its own slot. -/
theorem layout_reads (source : Source) (depth : Nat) :
    (layout source depth).Reads (Seen.field source depth) := by
  intro s name
  simp only [Seen.field, Layout.slot?, layout, Slot.once]
  by_cases h0 : name = "rpc_url"
  · simp [h0]
  by_cases h1 : name = "transport"
  · simp [h1]
  by_cases h2 : name = "contract_address"
  · simp [h2]
  by_cases h3 : name = "abi"
  · simp [h3]
  by_cases h4 : name = "abi_path"
  · simp [h4]
  by_cases h5 : name = "gas_limit"
  · simp [h5]
  by_cases h6 : name = "gas_price_wei"
  · simp [h6]
  simp [h0, h1, h2, h3, h4, h5, h6]

/-- A side is read by its fields. -/
theorem toOption_ofDraft (source : Source) (depth : Nat) (d : Draft) :
    (ofDraft source depth d).toOption =
      (Draft.fields? (layout source depth).names d).bind (ofFields source depth) := by
  refine (layout_reads source depth).toOption_record (fun f => ?_) (fun ds => ?_) d
  · refine Layout.fillFields_need rfl rfl ?_ fun url => ?_
    · repeat refine Layout.fillFields_missing rfl rfl fun _ => ?_
      rfl
    refine Layout.fillFields_orElse rfl rfl fun transport => ?_
    refine Layout.fillFields_need rfl rfl ?_ fun contract => ?_
    · repeat refine Layout.fillFields_missing rfl rfl fun _ => ?_
      rfl
    refine Layout.fillFields_orElse rfl rfl fun abi => ?_
    refine Layout.fillFields_orElse rfl rfl fun abiPath => ?_
    refine Layout.fillFields_orElse rfl rfl fun gasLimit => ?_
    refine Layout.fillFields_orElse rfl rfl fun gasPrice => ?_
    rfl
  · change (ofRow _ _ ⟨0, ds.drop 0, true⟩).toOption = _
    refine Read.Row.toOption_next fun url => ?_
    refine Read.Row.toOption_nextOr fun transport => ?_
    refine Read.Row.toOption_next fun contract => ?_
    refine Read.Row.toOption_nextOr fun abi => ?_
    refine Read.Row.toOption_nextOr fun abiPath => ?_
    refine Read.Row.toOption_nextOr fun gasLimit => ?_
    refine Read.Row.toOption_nextOr fun gasPrice => ?_
    rfl

end ChainConfig

namespace Config

/-- The fields of a configuration. -/
def layout (source : Source) : Layout Seen where
  slots :=
    [.once ["public"] "public" Seen.pub (ChainConfig.ofDraft source abiDepth)
      (fun s x => { s with pub := x }) fun _ _ => rfl,
     .once ["private"] "private" Seen.priv (ChainConfig.ofDraft source abiDepth)
      (fun s x => { s with priv := x }) fun _ _ => rfl,
     .once ["signing_key"] "signing_key" Seen.signingKey secretOfDraft
      (fun s x => { s with signingKey := x }) fun _ _ => rfl,
     .once ["poll_interval_ms"] "poll_interval_ms" Seen.pollInterval Read.word64
      (fun s x => { s with pollInterval := x }) fun _ _ => rfl,
     .once ["receipt_timeout_ms"] "receipt_timeout_ms" Seen.receiptTimeout Read.word64
      (fun s x => { s with receiptTimeout := x }) fun _ _ => rfl,
     .once ["from_block"] "from_block" Seen.fromBlock (Read.optional Read.word64)
      (fun s x => { s with fromBlock := x }) fun _ _ => rfl,
     .once ["rules"] "rules" Seen.rules (Read.list (Rule.ofDraft source))
      (fun s x => { s with rules := x }) fun _ _ => rfl]
  apart := by simp [Slot.once]
  commute := by simp (disch := (intros; rfl)) [Slot.commute_once]

/-- What the fields of a configuration make. -/
def ofFields (source : Source) (f : Nat → Option Draft) : Option Config := do
  let pub ← Read.need (ChainConfig.ofDraft source abiDepth) (f 0)
  let priv ← Read.need (ChainConfig.ofDraft source abiDepth) (f 1)
  let signingKey ← Read.need secretOfDraft (f 2)
  let pollInterval ← Read.orElse defaultPollInterval Read.word64 (f 3)
  let receiptTimeout ← Read.orElse defaultReceiptTimeout Read.word64 (f 4)
  let fromBlock ← Read.orElse none (Read.optional Read.word64) (f 5)
  let rules ← Read.need (Read.list (Rule.ofDraft source)) (f 6)
  pure ⟨pub, priv, signingKey, pollInterval, receiptTimeout, fromBlock, rules, none⟩

/-- Each of the fields of a configuration is read by its own slot. -/
theorem layout_reads (source : Source) : (layout source).Reads (Seen.field source) := by
  intro s name
  simp only [Seen.field, Layout.slot?, layout, Slot.once]
  by_cases h0 : name = "public"
  · simp [h0]
  by_cases h1 : name = "private"
  · simp [h1]
  by_cases h2 : name = "signing_key"
  · simp [h2]
  by_cases h3 : name = "poll_interval_ms"
  · simp [h3]
  by_cases h4 : name = "receipt_timeout_ms"
  · simp [h4]
  by_cases h5 : name = "from_block"
  · simp [h5]
  by_cases h6 : name = "rules"
  · simp [h6]
  simp [h0, h1, h2, h3, h4, h5, h6]

/-- A configuration is read by its fields. -/
theorem toOption_ofDraft (source : Source) (d : Draft) :
    (ofDraft source d).toOption =
      (Draft.fields? (layout source).names d).bind (ofFields source) := by
  refine (layout_reads source).toOption_record (fun f => ?_) (fun ds => ?_) d
  · refine Layout.fillFields_need rfl rfl ?_ fun pub => ?_
    · repeat refine Layout.fillFields_missing rfl rfl fun _ => ?_
      rfl
    refine Layout.fillFields_need rfl rfl ?_ fun priv => ?_
    · repeat refine Layout.fillFields_missing rfl rfl fun _ => ?_
      rfl
    refine Layout.fillFields_need rfl rfl ?_ fun signingKey => ?_
    · repeat refine Layout.fillFields_missing rfl rfl fun _ => ?_
      rfl
    refine Layout.fillFields_orElse rfl rfl fun pollInterval => ?_
    refine Layout.fillFields_orElse rfl rfl fun receiptTimeout => ?_
    refine Layout.fillFields_orElse rfl rfl fun fromBlock => ?_
    refine Layout.fillFields_need rfl rfl ?_ fun rules => ?_
    · rfl
    rfl
  · change (ofRow _ ⟨0, ds.drop 0, true⟩).toOption = _
    refine Read.Row.toOption_next fun pub => ?_
    refine Read.Row.toOption_next fun priv => ?_
    refine Read.Row.toOption_next fun signingKey => ?_
    refine Read.Row.toOption_nextOr fun pollInterval => ?_
    refine Read.Row.toOption_nextOr fun receiptTimeout => ?_
    refine Read.Row.toOption_nextOr fun fromBlock => ?_
    refine Read.Row.toOption_next fun rules => ?_
    rfl

end Config

end EventRelay
