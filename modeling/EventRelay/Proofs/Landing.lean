import EventRelay.Proofs.Coercion
import EventRelay.Proofs.Described

/-!
# What coercion lands in

A value that is read from a text is of the type that it is read at, with its numbers in range
(`Kind.lands_of_read?`). So coercion gives a value of its type (`holds_of_coerce`), and what is of
its type is not refused when it comes to encoding (`Registry.encodeCall_of_method?`).
-/

namespace EventRelay.Abi

/-! ## Numbers that are read -/

namespace Numeral

/-- What `below` lets through fits into a word. -/
theorem lt_of_below {n m : Nat} (h : below n = some m) : m < Bytes.capacity 32 := by
  unfold below at h
  split at h
  next hlt =>
    obtain rfl := Option.some.inj h
    exact hlt
  next => cases h

/-- A number that is read fits a word. -/
theorem lt_of_natural? {cs rest : List Char} {n : Nat} (h : natural? cs = some (n, rest)) :
    n < Bytes.capacity 32 := by
  unfold natural? at h
  simp only [Option.bind_eq_bind, Option.bind_eq_some_iff, Prod.exists] at h
  obtain ⟨_, _, _, -, _, _, -, _, -, _, _, -, h⟩ := h
  split at h
  next => cases h
  next =>
    obtain ⟨_, -, h⟩ := Option.bind_eq_some_iff.mp h
    split at h
    next => cases h
    next =>
      simp only [Option.bind_eq_some_iff] at h
      obtain ⟨_, -, _, -, _, -, _, -, m, hm, h⟩ := h
      obtain ⟨rfl, -⟩ := Prod.mk.inj (Option.some.inj h)
      exact lt_of_below hm

end Numeral

namespace Kind

/-- An unsigned number that is read fits into its type and into a word. -/
theorem lt_of_readUint? {bits n : Nat} {cs rest : List Char}
    (h : readUint? bits cs = some (n, rest)) : n < 2 ^ bits ∧ n < 2 ^ 256 := by
  simp only [readUint?, Option.bind_eq_bind, Option.bind_eq_some_iff, Prod.exists] at h
  obtain ⟨m, _, hm, h⟩ := h
  split at h
  next hlt =>
    obtain ⟨rfl, -⟩ := Prod.mk.inj (Option.some.inj h)
    exact ⟨hlt, Numeral.lt_of_natural? hm⟩
  next => cases h

/-- A signed number that is read lies within the bounds of its type. -/
theorem bounds_of_readInt? {bits : Nat} {i : Int} {cs rest : List Char}
    (h : readInt? bits cs = some (i, rest)) :
    -((2 ^ (bits - 1) : Nat) : Int) ≤ i ∧ i < (2 ^ (bits - 1) : Nat) := by
  simp only [readInt?, Option.bind_eq_bind, Option.bind_eq_some_iff, Prod.exists,
    Option.ite_none_right_eq_some, Option.some.injEq, Prod.mk.injEq] at h
  obtain ⟨_, _, -, hbounds, rfl, -⟩ := h
  exact hbounds

/-! ## Values that are read -/

/-- A value of a type with its numbers in the ranges of their widths. -/
structure Lands (k : Kind) (v : Value) : Prop where
  holds : k.holds v = true
  admits : k.admits v = true

theorem Lands.uint {bits n : Nat} (h : n < 2 ^ bits) (hword : n < 2 ^ 256) :
    (Kind.uint bits).Lands (.uint bits (BitVec.ofNat 256 n)) := by
  refine ⟨beq_self_eq_true _, ?_⟩
  have hn : (BitVec.ofNat 256 n).toNat = n := by
    rw [BitVec.toNat_ofNat, Nat.mod_eq_of_lt hword]
  rw [Kind.admits, Value.integer?, Option.any_some, hn, decide_eq_true_iff]
  exact ⟨Int.natCast_nonneg n, by exact_mod_cast h⟩

theorem Lands.int {bits : Nat} {i : Int} (hlow : -((2 ^ (bits - 1) : Nat) : Int) ≤ i)
    (hhigh : i < (2 ^ (bits - 1) : Nat)) :
    (Kind.int bits).Lands (.int bits (BitVec.ofInt 256 i)) := by
  refine ⟨beq_self_eq_true _, ?_⟩
  rw [Kind.admits, Value.integer?, Option.any_some, decide_eq_true_iff]
  rcases Nat.le_total 255 (bits - 1) with hwide | hnarrow
  · -- A range as wide as a word has every word in it.
    have hhalf : 2 ^ 255 ≤ 2 ^ (bits - 1) := Nat.pow_le_pow_right (by decide) hwide
    have hle := BitVec.le_two_mul_toInt (x := BitVec.ofInt 256 i)
    have hlt := BitVec.two_mul_toInt_lt (x := BitVec.ofInt 256 i)
    omega
  · have hhalf : 2 ^ (bits - 1) ≤ 2 ^ 255 := Nat.pow_le_pow_right (by decide) hnarrow
    have hi : (BitVec.ofInt 256 i).toInt = i := by
      rw [BitVec.toInt_ofInt]
      exact Int.bmod_eq_of_le (by omega) (by omega)
    rw [hi]
    exact ⟨hlow, hhigh⟩

/-- An array lands when its items do. -/
theorem Lands.array {item : Kind} {vs : List Value} (h : ∀ v ∈ vs, item.Lands v) :
    (Kind.array item).Lands (.array vs) := by
  refine ⟨?_, ?_⟩
  · rw [Kind.holds, List.all_eq_true]
    exact fun v hv => (h v hv).holds
  · rw [Kind.admits, Value.items?, Option.any_some, List.all_eq_true]
    exact fun v hv => (h v hv).admits

/-- So does an array of a fixed size. -/
theorem Lands.fixedArray {item : Kind} {vs : List Value} (h : ∀ v ∈ vs, item.Lands v) :
    (Kind.fixedArray item vs.length).Lands (.fixedArray vs) := by
  refine ⟨?_, ?_⟩
  · rw [Kind.holds, beq_self_eq_true, Bool.true_and, List.all_eq_true]
    exact fun v hv => (h v hv).holds
  · rw [Kind.admits, Value.items?, Option.any_some, beq_self_eq_true, Bool.true_and,
      List.all_eq_true]
    exact fun v hv => (h v hv).admits

/-- The first field of a tuple is read at some place, and the others behind it. -/
theorem exists_of_readFields? {k : Kind} {ks : List Kind} {first : Bool} {cs rest : List Char}
    {vs : List Value} (h : readFields? (k :: ks) first cs = some (vs, rest)) :
    ∃ start v after vs', k.read? (some ')') start = some (v, after) ∧
      readFields? ks false after = some (vs', rest) ∧ vs = v :: vs' := by
  rw [readFields?] at h
  simp only [Option.bind_eq_bind, Option.bind_some, Option.bind_none] at h
  have hfields {cs : List Char} (h : ((k.read? (some ')') (skipBlank cs)).bind fun p =>
      (readFields? ks false p.2).bind fun q => some (p.1 :: q.1, q.2)) = some (vs, rest)) :
      ∃ start v after vs', k.read? (some ')') start = some (v, after) ∧
        readFields? ks false after = some (vs', rest) ∧ vs = v :: vs' := by
    obtain ⟨⟨v, after⟩, hv, h⟩ := Option.bind_eq_some_iff.mp h
    obtain ⟨⟨vs', _⟩, hvs, h⟩ := Option.bind_eq_some_iff.mp h
    obtain ⟨rfl, rfl⟩ := Prod.mk.inj (Option.some.inj h)
    exact ⟨_, v, after, vs', hv, hvs, rfl⟩
  split at h
  · exact hfields h
  · split at h
    · exact hfields h
    · cases h

mutual

/-- **What is read from a text is of its type**, with the numbers in range. -/
theorem lands_of_read? : (k : Kind) → {listEnd : Option Char} → {cs rest : List Char} →
    {v : Value} → k.read? listEnd cs = some (v, rest) → k.Lands v
  | .bool, _, _, _, _, h | .address, _, _, _, _, h | .function, _, _, _, _, h
  | .bytes, _, _, _, _, h | .string, _, _, _, _, h => by
    rw [read?] at h
    obtain ⟨_, -, h⟩ := Option.map_eq_some_iff.mp h
    obtain ⟨rfl, -⟩ := Prod.mk.inj h
    exact ⟨rfl, rfl⟩
  | .fixedBytes size, _, _, _, _, h => by
    rw [read?] at h
    obtain ⟨_, -, h⟩ := Option.map_eq_some_iff.mp h
    obtain ⟨rfl, -⟩ := Prod.mk.inj h
    exact ⟨beq_self_eq_true size, rfl⟩
  | .int bits, _, _, _, _, h => by
    rw [read?] at h
    obtain ⟨_, hi, h⟩ := Option.map_eq_some_iff.mp h
    obtain ⟨rfl, -⟩ := Prod.mk.inj h
    obtain ⟨hlow, hhigh⟩ := bounds_of_readInt? hi
    exact .int hlow hhigh
  | .uint bits, _, _, _, _, h => by
    rw [read?] at h
    obtain ⟨_, hn, h⟩ := Option.map_eq_some_iff.mp h
    obtain ⟨rfl, -⟩ := Prod.mk.inj h
    obtain ⟨hlt, hword⟩ := lt_of_readUint? hn
    exact .uint hlt hword
  | .array item, _, _, _, _, h => by
    rw [read?] at h
    obtain ⟨_, hvs, h⟩ := Option.map_eq_some_iff.mp h
    obtain ⟨rfl, -⟩ := Prod.mk.inj h
    exact .array (of_bracketed? (fun _ _ _ => lands_of_read? item) hvs)
  | .fixedArray item size, _, _, _, _, h => by
    rw [read?] at h
    obtain ⟨⟨vs, _⟩, hvs, h⟩ := Option.bind_eq_some_iff.mp h
    dsimp only at h
    split at h
    next hsize =>
      obtain ⟨rfl, -⟩ := Prod.mk.inj (Option.some.inj h)
      obtain rfl := hsize
      exact .fixedArray (of_bracketed? (fun _ _ _ => lands_of_read? item) hvs)
    next => cases h
  | .tuple items, _, _, _, _, h => by
    rw [read?] at h
    split at h
    next =>
      obtain ⟨_, hvs, h⟩ := Option.map_eq_some_iff.mp h
      obtain ⟨rfl, -⟩ := Prod.mk.inj h
      obtain ⟨hholds, hadmits⟩ := land_of_readFields? items hvs
      exact ⟨hholds, hadmits⟩
    next => cases h

/-- The fields of a tuple that is read hold their kinds. -/
theorem land_of_readFields? : (ks : List Kind) → {first : Bool} → {cs rest : List Char} →
    {vs : List Value} → readFields? ks first cs = some (vs, rest) →
    holdsAll ks vs = true ∧ admitAll ks vs = true
  | [], _, _, _, _, h => by
    rw [readFields?] at h
    split at h
    next =>
      obtain ⟨rfl, -⟩ := Prod.mk.inj (Option.some.inj h)
      exact ⟨rfl, rfl⟩
    next => cases h
  | k :: ks, _, _, _, _, h => by
    obtain ⟨_, v, _, vs, hv, hvs, rfl⟩ := exists_of_readFields? h
    have hfirst := lands_of_read? k hv
    obtain ⟨hholds, hadmits⟩ := land_of_readFields? ks hvs
    rw [holdsAll, admitAll, hfirst.holds, hfirst.admits, hholds, hadmits]
    exact ⟨rfl, rfl⟩

end

/-- A value that is read from a text lands in its kind. -/
theorem lands_of_ofText? {k : Kind} {s : String} {v : Value} (h : k.ofText? s = some v) :
    k.Lands v := by
  unfold ofText? at h
  split at h
  next hread =>
    obtain rfl := Option.some.inj h
    exact lands_of_read? k hread
  next => cases h

end Kind

/-! ## Values that are converted -/

section

variable {k : Kind} {v w : Value}

/-- A value of the type is taken as it is, and any other is read at the type. -/
theorem coerce_cases (h : coerce k v = .ok w) :
    (k.holds v = true ∧ w = v) ∨ (k.holds v = false ∧ k.Lands w) := by
  unfold coerce at h
  split at h
  next hholds => exact .inl ⟨hholds, (Except.ok.inj h).symm⟩
  next hholds =>
    split at h
    next hread =>
      obtain rfl := Except.ok.inj h
      exact .inr ⟨Bool.eq_false_iff.mpr hholds, Kind.lands_of_ofText? hread⟩
    next => cases h

/-- **What is converted is of its type.** -/
theorem holds_of_coerce (h : coerce k v = .ok w) : k.holds w = true := by
  obtain ⟨hholds, rfl⟩ | ⟨-, hlands⟩ := coerce_cases h
  · exact hholds
  · exact hlands.holds

/-- What was of another type becomes a value of the type with its numbers in range. -/
theorem lands_of_coerce (h : coerce k v = .ok w) (hv : k.holds v = false) : k.Lands w := by
  obtain ⟨hholds, -⟩ | ⟨-, hlands⟩ := coerce_cases h
  · rw [hv] at hholds
    cases hholds
  · exact hlands

theorem coerce_of_holds (h : k.holds v = true) : coerce k v = .ok v := if_pos h

end

/-! ## Arguments that are converted -/

namespace Registry

variable {r : Registry} {method : String} {params : List Param} {args values : List Value}
  {f : Function}

/-- A method that is found takes as many arguments as it was looked up by. -/
theorem length_of_method? {arity : Nat} (h : r.method? method arity = some f) :
    f.inputs.length = arity := by
  have hfound := List.find?_some h
  rw [Bool.and_eq_true] at hfound
  exact of_decide_eq_true hfound.2

/-- An argument that is converted stands before what the others are converted to. -/
theorem coerceAll_of_coerce {p : Param} {k : Kind} {v w : Value} (hk : p.resolve = .ok k)
    (hw : coerce k v = .ok w) :
    coerceAll method (p :: params) (v :: args) = (coerceAll method params args).map (w :: ·) := by
  rw [coerceAll, hk]
  show ((coerce k v).mapError _ >>= _) = _
  rw [hw]
  cases coerceAll method params args <;> rfl

/-- Arguments that are coerced together are coerced one by one. -/
theorem coerceAll_cons {p : Param} {v : Value}
    (h : coerceAll method (p :: params) (v :: args) = .ok values) :
    ∃ k w ws, p.resolve = .ok k ∧ coerce k v = .ok w ∧ coerceAll method params args = .ok ws ∧
      values = w :: ws := by
  rw [coerceAll] at h
  obtain ⟨k, hk, h⟩ := bind_eq_ok.mp h
  obtain ⟨w, hw, h⟩ := bind_eq_ok.mp h
  obtain ⟨ws, hws, h⟩ := bind_eq_ok.mp h
  obtain rfl := Except.ok.inj h
  exact ⟨k, w, ws, mapError_eq_ok.mp hk, mapError_eq_ok.mp hw, hws, rfl⟩

/-- There is a value for each parameter, and each is of the type of its parameter. -/
theorem checkInputs_of_coerceAll (h : coerceAll method params args = .ok values)
    (hlen : params.length = args.length) :
    values.length = params.length ∧ Function.checkInputs params values = .ok () := by
  induction params generalizing args values with
  | nil =>
    obtain rfl := Except.ok.inj h
    exact ⟨rfl, rfl⟩
  | cons p params ih =>
    cases args with
    | nil => cases hlen
    | cons v args =>
      obtain ⟨k, w, ws, hk, hw, hws, rfl⟩ := coerceAll_cons h
      obtain ⟨hlength, hcheck⟩ := ih hws (Nat.succ.inj hlen)
      refine ⟨congrArg (· + 1) hlength, ?_⟩
      rw [Function.checkInputs, hk]
      refine bind_eq_ok.mpr ⟨k, rfl, ?_⟩
      rw [if_pos (holds_of_coerce hw), hcheck]

/-- **A call of a method that is there is the selector of the method and the converted arguments**:
these are never refused. -/
theorem encodeCall_of_method? (hf : r.method? method args.length = some f) :
    r.encodeCall method args =
      (coerceAll method f.inputs args).map fun values => f.selector ++ Value.encodeAll values := by
  rw [encodeCall, named_of_method? hf, if_pos rfl]
  dsimp only
  rw [hf]
  dsimp only
  cases hvalues : coerceAll method f.inputs args with
  | error e => rfl
  | ok values =>
    obtain ⟨hlength, hcheck⟩ := checkInputs_of_coerceAll hvalues (length_of_method? hf)
    refine bind_eq_ok.mpr ⟨values, rfl, ?_⟩
    rw [Function.encodeInput, if_neg (not_not_intro hlength), hcheck]
    rfl

end Registry

end EventRelay.Abi
