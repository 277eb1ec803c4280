import EventRelay.Proofs.Registry
import EventRelay.Proofs.Shapes

/-!
# Types that a description names

A type name cannot ask for a fixed array without items. So a parameter that denotes a type denotes a
full one, unless there is an empty tuple in it (`Param.full_of_resolve`).
-/

namespace EventRelay.Abi

/-! ## Lists in brackets -/

/-- The end of a list adds no items. -/
theorem eq_nil_of_listEnd? {α : Type} {close : Char} {cs rest : List Char} {xs : List α}
    (h : listEnd? close cs = some (xs, rest)) : xs = [] := by
  unfold listEnd? at h
  split at h
  · split at h
    · exact (Prod.mk.inj (Option.some.inj h)).1.symm
    · cases h
  · cases h

/-- What the reader of items says of each holds for all that are read. -/
theorem of_moreItems? {α : Type} {P : α → Prop} {item : List Char → Option (α × List Char)}
    {close : Char} (hitem : ∀ cs x rest, item cs = some (x, rest) → P x) {fuel : Nat}
    {cs rest : List Char} {xs : List α} (h : moreItems? item close fuel cs = some (xs, rest)) :
    ∀ x ∈ xs, P x := by
  have none : ∀ {cs rest : List Char} {xs : List α}, listEnd? close cs = some (xs, rest) →
      ∀ x ∈ xs, P x := by
    intro cs rest xs h
    rw [eq_nil_of_listEnd? h]
    exact nofun
  induction fuel generalizing cs rest xs with
  | zero => exact none h
  | succ fuel ih =>
    unfold moreItems? at h
    split at h
    next heq =>
      obtain rfl := Nat.succ.inj heq
      split at h
      next x _ hx =>
        obtain ⟨⟨ys, _⟩, hys, h⟩ := Option.map_eq_some_iff.mp h
        obtain ⟨rfl, rfl⟩ := Prod.mk.inj h
        intro y hy
        rcases List.mem_cons.mp hy with rfl | hy
        · exact hitem _ _ _ hx
        · exact ih hys y hy
      next => exact none h
    next => exact none h

/-- What is so of each item that is read is so of each of a list. -/
theorem of_bracketed? {α : Type} {P : α → Prop} {item : List Char → Option (α × List Char)}
    {start close : Char} (hitem : ∀ cs x rest, item cs = some (x, rest) → P x)
    {cs rest : List Char} {xs : List α} (h : bracketed? item start close cs = some (xs, rest)) :
    ∀ x ∈ xs, P x := by
  unfold bracketed? at h
  split at h
  next => cases h
  next =>
    split at h
    next => cases h
    next =>
      split at h
      next => cases h
      next =>
        split at h
        next =>
          rw [← (Prod.mk.inj (Option.some.inj h)).1]
          exact nofun
        next =>
          obtain ⟨⟨x, _⟩, hx, h⟩ := Option.bind_eq_some_iff.mp h
          obtain ⟨⟨ys, _⟩, hys, h⟩ := Option.bind_eq_some_iff.mp h
          obtain ⟨rfl, rfl⟩ := Prod.mk.inj (Option.some.inj h)
          intro y hy
          rcases List.mem_cons.mp hy with rfl | hy
          · exact hitem _ _ _ hx
          · exact of_moreItems? hitem hys y hy

/-! ## Array sizes -/

/-- All array sizes that are written are above zero. -/
def Positive (sizes : List (Option Nat)) : Prop := ∀ n, some n ∈ sizes → n ≠ 0

/-- All array sizes that are written in a type name are above zero. -/
inductive Specifier.Sized : Specifier → Prop
  | root {name : String} {sizes : List (Option Nat)} (h : Positive sizes) :
      Sized (.root name sizes)
  | tuple {items : List Specifier} {sizes : List (Option Nat)} (hitems : ∀ t ∈ items, Sized t)
      (h : Positive sizes) : Sized (.tuple items sizes)

namespace Specifier

/-- Sizes that are read from a type are positive. -/
theorem positive_of_sizes? {fuel : Nat} {cs rest : List Char} {sizes : List (Option Nat)}
    (h : sizes? fuel cs = some (sizes, rest)) : Positive sizes := by
  induction fuel generalizing cs rest sizes with
  | zero =>
    obtain ⟨rfl, -⟩ := Prod.mk.inj (Option.some.inj h)
    exact nofun
  | succ fuel ih =>
    unfold sizes? at h
    split at h
    next heq =>
      obtain rfl := Nat.succ.inj heq
      dsimp only at h
      split at h
      next =>
        split at h
        next => cases h
        next hn =>
          obtain ⟨⟨more, _⟩, hmore, h⟩ := Option.bind_eq_some_iff.mp h
          obtain ⟨rfl, rfl⟩ := Prod.mk.inj (Option.some.inj h)
          intro n hmem
          rcases List.mem_cons.mp hmem with heq | hmem
          · split at heq
            next => cases heq
            next hrun =>
              obtain rfl := Option.some.inj heq
              intro hzero
              exact hn (by simp [hrun, hzero])
          · exact ih hmore n hmem
      next => cases h
    next =>
      obtain ⟨rfl, -⟩ := Prod.mk.inj (Option.some.inj h)
      exact nofun

/-- No type name asks for an array without items. -/
theorem sized_of_read? {fuel : Nat} {cs rest : List Char} {t : Specifier}
    (h : read? fuel cs = some (t, rest)) : t.Sized := by
  induction fuel generalizing cs rest t with
  | zero => cases h
  | succ fuel ih =>
    unfold read? at h
    dsimp only at h
    split at h
    next =>
      obtain ⟨⟨items, _⟩, hitems, h⟩ := Option.bind_eq_some_iff.mp h
      obtain ⟨⟨sizes, _⟩, hsizes, h⟩ := Option.bind_eq_some_iff.mp h
      obtain ⟨rfl, rfl⟩ := Prod.mk.inj (Option.some.inj h)
      exact .tuple (of_bracketed? (fun _ _ _ => ih) hitems) (positive_of_sizes? hsizes)
    next =>
      obtain ⟨⟨name, _⟩, -, h⟩ := Option.bind_eq_some_iff.mp h
      obtain ⟨⟨sizes, _⟩, hsizes, h⟩ := Option.bind_eq_some_iff.mp h
      obtain ⟨rfl, rfl⟩ := Prod.mk.inj (Option.some.inj h)
      exact .root (positive_of_sizes? hsizes)

/-- A type that is parsed has positive sizes throughout. -/
theorem sized_of_parse? {s : String} {t : Specifier} (h : parse? s = some t) : t.Sized := by
  unfold parse? at h
  dsimp only at h
  split at h
  next hread =>
    obtain rfl := Option.some.inj h
    exact sized_of_read? hread
  next => cases h

/-- A root name with array sizes behind it is a type name. -/
theorem parse?_of_rootName? {s name : String} {rest : List Char} {sizes : List (Option Nat)}
    (hname : rootName? s.toList = some (name, rest))
    (hsizes : sizes? (rest.length + 1) rest = some (sizes, []))
    (hopen : "tuple(".toList.isPrefixOf s.toList = false) : parse? s = some (.root name sizes) := by
  have hread : read? (s.toList.length + 1) s.toList = some (.root name sizes, []) := by
    rw [read?, hopen, if_neg Bool.false_ne_true]
    dsimp only
    split
    next heq =>
      rw [heq] at hname
      cases hname
    next =>
      refine Option.bind_eq_some_iff.mpr ⟨_, hname, ?_⟩
      exact Option.bind_eq_some_iff.mpr ⟨_, hsizes, rfl⟩
  rw [parse?, hread]

/-- The outer sizes of such a type are positive. -/
theorem Sized.positive {t : Specifier} (h : t.Sized) : Positive t.sizes := by
  cases h with
  | root h => exact h
  | tuple _ h => exact h

end Specifier

/-! ## Types -/

namespace Kind

/-- Sizes around a kind add no empty tuple. -/
theorem hasEmptyTuple_wrap (k : Kind) (sizes : List (Option Nat)) :
    (k.wrap sizes).hasEmptyTuple = k.hasEmptyTuple := by
  unfold wrap
  induction sizes generalizing k with
  | nil => rfl
  | cons size sizes ih =>
    rw [List.foldl_cons, ih]
    cases size <;> rfl

/-- Positive sizes around a full kind leave it full. -/
theorem Full.wrap {k : Kind} (hk : k.Full) {sizes : List (Option Nat)} (h : Positive sizes) :
    (k.wrap sizes).Full := by
  unfold Kind.wrap
  induction sizes generalizing k with
  | nil => exact hk
  | cons size sizes ih =>
    have hrest : Positive sizes := fun n hn => h n (List.mem_cons_of_mem _ hn)
    rw [List.foldl_cons]
    cases size with
    | none => exact ih (.array hk) hrest
    | some n => exact ih (.fixedArray hk (h n List.mem_cons_self)) hrest

/-- What a root name denotes is no sequence. -/
theorem full_of_ofRoot {name : String} {k : Kind} (h : ofRoot name = .ok k) : k.Full := by
  unfold ofRoot at h
  dsimp only at h
  -- Every way through ends with an elementary type, or with an error.
  repeat' split at h
  all_goals cases h <;> first | exact .word rfl | exact .string | exact .bytes

/-- A tuple is full when its items are and it has any. -/
theorem full_tuple {ks : List Kind} (hk : ∀ k ∈ ks, k.hasEmptyTuple = false → k.Full)
    (h : (Kind.tuple ks).hasEmptyTuple = false) : (Kind.tuple ks).Full := by
  rw [hasEmptyTuple, Bool.or_eq_false_iff] at h
  obtain ⟨hne, hany⟩ := h
  refine .tuple (fun heq => ?_) fun k hmem => hk k hmem ?_
  · rw [heq] at hne
    cases hne
  · clear hk hne
    induction ks with
    | nil => cases hmem
    | cons k' ks ih =>
      rw [anyEmptyTuple, Bool.or_eq_false_iff] at hany
      rcases List.mem_cons.mp hmem with rfl | hmem
      · exact hany.1
      · exact ih hany.2 hmem

mutual

/-- A type name denotes a full type, unless there is an empty tuple in it. -/
theorem full_of_ofSpecifier : (t : Specifier) → t.Sized → (k : Kind) → ofSpecifier t = .ok k →
    k.hasEmptyTuple = false → k.Full
  | .root name sizes, ht, k, h, _ => by
    rw [ofSpecifier] at h
    obtain ⟨k', hk', rfl⟩ := map_eq_ok.mp h
    exact (full_of_ofRoot hk').wrap ht.positive
  | .tuple items sizes, ht, k, h, hk => by
    rw [ofSpecifier] at h
    obtain ⟨ks, hks, rfl⟩ := map_eq_ok.mp h
    rw [hasEmptyTuple_wrap] at hk
    cases ht with
    | tuple hitems hsizes =>
      exact (full_tuple (full_of_ofSpecifiers items hitems ks hks) hk).wrap hsizes

/-- Kinds of parsed types are full unless they have an empty tuple. -/
theorem full_of_ofSpecifiers : (ts : List Specifier) → (∀ t ∈ ts, t.Sized) → (ks : List Kind) →
    ofSpecifiers ts = .ok ks → ∀ k ∈ ks, k.hasEmptyTuple = false → k.Full
  | [], _, ks, h => by
    obtain rfl := Except.ok.inj h
    exact nofun
  | t :: ts, ht, ks, h => by
    rw [ofSpecifiers] at h
    obtain ⟨k, hk, h⟩ := bind_eq_ok.mp h
    obtain ⟨ks', hks, h⟩ := bind_eq_ok.mp h
    obtain rfl := Except.ok.inj h
    intro k' hmem
    rcases List.mem_cons.mp hmem with rfl | hmem
    · exact full_of_ofSpecifier t (ht t List.mem_cons_self) k' hk
    · exact full_of_ofSpecifiers ts (fun t hmem => ht t (List.mem_cons_of_mem _ hmem)) ks' hks k'
        hmem

end

end Kind

namespace Param

mutual

/-- **A parameter denotes a full type**, unless there is an empty tuple in it. -/
theorem full_of_resolve : (p : Param) → (k : Kind) → p.resolve = .ok k →
    k.hasEmptyTuple = false → k.Full
  | ⟨_, typeName, []⟩, k, h, hk => by
    rw [resolve] at h
    split at h
    next => cases h
    next t ht => exact Kind.full_of_ofSpecifier t (Specifier.sized_of_parse? ht) k h hk
  | ⟨_, typeName, p :: ps⟩, k, h, hk => by
    rw [resolve] at h
    split at h
    next => cases h
    next t ht =>
      obtain ⟨k', hk', h⟩ := bind_eq_ok.mp h
      obtain ⟨ks, hks, h⟩ := bind_eq_ok.mp h
      obtain rfl := Except.ok.inj h
      rw [Kind.hasEmptyTuple_wrap] at hk
      have hall : ∀ k ∈ k' :: ks, k.hasEmptyTuple = false → k.Full := by
        intro k hmem
        rcases List.mem_cons.mp hmem with rfl | hmem
        · exact full_of_resolve p k hk'
        · exact full_of_resolveAll ps ks hks k hmem
      exact (Kind.full_tuple hall hk).wrap (Specifier.sized_of_parse? ht).positive

/-- Kinds that are resolved together are full unless they have an empty tuple. -/
theorem full_of_resolveAll : (ps : List Param) → (ks : List Kind) → resolveAll ps = .ok ks →
    ∀ k ∈ ks, k.hasEmptyTuple = false → k.Full
  | [], ks, h => by
    obtain rfl := Except.ok.inj h
    exact nofun
  | p :: ps, ks, h => by
    rw [resolveAll] at h
    obtain ⟨k, hk, h⟩ := bind_eq_ok.mp h
    obtain ⟨ks', hks, h⟩ := bind_eq_ok.mp h
    obtain rfl := Except.ok.inj h
    intro k' hmem
    rcases List.mem_cons.mp hmem with rfl | hmem
    · exact full_of_resolve p k' hk
    · exact full_of_resolveAll ps ks' hks k' hmem

end

/-- A root name that denotes a type, with array sizes behind it, denotes arrays of that type. -/
theorem resolve_of_rootName? {name typeName : String} {k : Kind} (root : String) (rest : List Char)
    (sizes : List (Option Nat))
    (hroot : Specifier.rootName? typeName.toList = some (root, rest))
    (hsizes : Specifier.sizes? (rest.length + 1) rest = some (sizes, []))
    (hopen : "tuple(".toList.isPrefixOf typeName.toList = false) (hk : Kind.ofRoot root = .ok k) :
    resolve ⟨name, typeName, []⟩ = .ok (k.wrap sizes) := by
  rw [resolve, Specifier.parse?_of_rootName? hroot hsizes hopen]
  dsimp only
  rw [Kind.ofSpecifier, hk]
  rfl

theorem resolve_uint256 (name : String) : resolve ⟨name, "uint256", []⟩ = .ok (.uint 256) :=
  resolve_of_rootName? "uint256" [] [] rfl rfl rfl rfl

theorem resolve_bytes32 (name : String) :
    resolve ⟨name, "bytes32", []⟩ = .ok (.fixedBytes 32) :=
  resolve_of_rootName? "bytes32" [] [] rfl rfl rfl rfl

theorem resolve_strings (name : String) :
    resolve ⟨name, "string[]", []⟩ = .ok (.array .string) :=
  resolve_of_rootName? "string" ['[', ']'] [none] rfl rfl rfl rfl

end Param

end EventRelay.Abi
