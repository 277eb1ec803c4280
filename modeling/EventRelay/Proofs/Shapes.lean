import EventRelay.Abi.Decode
import EventRelay.Abi.Encode
import EventRelay.Abi.Interface

/-!
# Types and their values

`Kind.levels` says how deep the values of a type are nested, as a decoder counts. A type is `Full`
when each of its values says something: it has neither empty tuples nor fixed arrays without items.
Types that a description names have no such arrays (`Param.full_of_resolve`).
-/

namespace EventRelay.Abi

namespace Kind

/-- Whether the values of a type are words. -/
def isWord : Kind → Bool
  | .bool | .int _ | .uint _ | .fixedBytes _ | .address | .function => true
  | _ => false

mutual

/-- How many levels deep the values of a type are nested: one for what lies behind an offset, one
for a sequence of its own. -/
def levels : Kind → Nat
  | .bytes | .string => 1
  | .array item => levels item + 2
  | .fixedArray item _ => levels item + 1
  | .tuple items => levelsAll items + 1
  | _ => 0

/-- How many levels deep the values of several types are nested. -/
def levelsAll : List Kind → Nat
  | [] => 0
  | k :: ks => max (levels k) (levelsAll ks)

end

mutual

/-- Whether there is a tuple without fields in a type. -/
def hasEmptyTuple : Kind → Bool
  | .array item => hasEmptyTuple item
  | .fixedArray item _ => hasEmptyTuple item
  | .tuple items => items.isEmpty || anyEmptyTuple items
  | _ => false

/-- Whether there is a tuple without fields in one of several types. -/
def anyEmptyTuple : List Kind → Bool
  | [] => false
  | k :: ks => hasEmptyTuple k || anyEmptyTuple ks

end

/-- A type without empty tuples and without fixed arrays of no items. -/
inductive Full : Kind → Prop
  | word {k : Kind} (h : k.isWord = true) : Full k
  | bytes : Full .bytes
  | string : Full .string
  | array {item : Kind} (h : Full item) : Full (.array item)
  | fixedArray {item : Kind} {size : Nat} (h : Full item) (hsize : size ≠ 0) :
      Full (.fixedArray item size)
  | tuple {items : List Kind} (hne : items ≠ []) (h : ∀ k ∈ items, Full k) : Full (.tuple items)

/-! ## Values of several types -/

/-- Values hold kinds one by one, with none left over. -/
theorem holdsAll_cons {k : Kind} {ks : List Kind} {vs : List Value} :
    holdsAll (k :: ks) vs = true ↔
      ∃ v vs', vs = v :: vs' ∧ k.holds v = true ∧ holdsAll ks vs' = true := by
  cases vs with
  | nil => exact ⟨nofun, nofun⟩
  | cons v vs =>
    rw [holdsAll, Bool.and_eq_true]
    constructor
    · exact fun h => ⟨v, vs, rfl, h⟩
    · intro h
      obtain ⟨_, _, heq, h⟩ := h
      obtain ⟨rfl, rfl⟩ := List.cons.inj heq
      exact h

/-- Nothing but no values holds no kinds. -/
theorem holdsAll_nil {vs : List Value} : holdsAll [] vs = true ↔ vs = [] := by
  cases vs with
  | nil => exact ⟨fun _ => rfl, fun _ => rfl⟩
  | cons _ _ => exact ⟨nofun, nofun⟩

/-- What holds for a kind holds for every item of an array of it. -/
theorem forall_mem_replicate {P : Kind → Prop} {n : Nat} {k : Kind} (h : P k) :
    ∀ k' ∈ List.replicate n k, P k' := by
  intro k' hmem
  rw [List.eq_of_mem_replicate hmem]
  exact h

/-- The items of a list are the values of as many fields of one type. -/
theorem holdsAll_replicate (k : Kind) (vs : List Value) :
    holdsAll (List.replicate vs.length k) vs = vs.all fun v => k.holds v := by
  induction vs with
  | nil => rfl
  | cons v vs ih => rw [List.length_cons, List.replicate_succ, holdsAll, ih, List.all_cons]

/-- Items that are not too deep are not too deep together. -/
theorem levelsAll_le {ks : List Kind} {n : Nat} (h : ∀ k ∈ ks, k.levels ≤ n) :
    levelsAll ks ≤ n := by
  induction ks with
  | nil => exact Nat.zero_le n
  | cons k ks ih =>
    rw [levelsAll]
    exact Nat.max_le.mpr ⟨h k List.mem_cons_self, ih fun k hk => h k (List.mem_cons_of_mem _ hk)⟩

/-- An array is as deep as its items. -/
theorem levelsAll_replicate {n : Nat} (hn : n ≠ 0) (k : Kind) :
    levelsAll (List.replicate n k) = k.levels := by
  induction n with
  | zero => exact absurd rfl hn
  | succ n ih =>
    rw [List.replicate_succ, levelsAll]
    by_cases hn' : n = 0
    · rw [hn', List.replicate_zero, levelsAll, Nat.max_zero]
    · rw [ih hn', Nat.max_self]

/-! ## Words -/

/-- A number moved to the left by whole bytes is written with zeros behind it. -/
theorem ofNat_mul_capacity (len zeros n : Nat) :
    Bytes.ofNat (len + zeros) (n * Bytes.capacity zeros) =
      Bytes.ofNat len n ++ Bytes.zeros zeros := by
  induction zeros with
  | zero =>
    have hone : Bytes.capacity 0 = 1 := rfl
    rw [hone, Nat.mul_one]
    exact (List.append_nil _).symm
  | succ zeros ih =>
    -- The last byte is zero, and what is before it is shifted by one byte less.
    have hmul : n * Bytes.capacity (zeros + 1) = n * Bytes.capacity zeros * 256 := by
      rw [Bytes.capacity_succ, Nat.mul_comm 256, Nat.mul_assoc]
    rw [hmul, ← Nat.add_assoc, Bytes.ofNat, Nat.mul_div_cancel _ (by decide), Nat.mul_mod_left, ih,
      List.append_assoc]
    congr 1
    exact List.replicate_succ'.symm

/-- A value of a word is written as that word, and the word is read as the value. -/
theorem word_of_holds {k : Kind} {v : Value} (hk : k.isWord = true) (h : k.holds v = true) :
    ∃ w : Word, v.encode = w.toBytes ∧ k.ofWord? w = some v := by
  cases k with
  | bool =>
    cases v with
    | bool b =>
      cases b with
      | false => exact ⟨0, rfl, rfl⟩
      | true => exact ⟨1, rfl, rfl⟩
    | _ => cases h
  | int bits =>
    cases v with
    | int b n =>
      obtain rfl : b = bits := eq_of_beq h
      exact ⟨n, rfl, rfl⟩
    | _ => cases h
  | uint bits =>
    cases v with
    | uint b n =>
      obtain rfl : b = bits := eq_of_beq h
      exact ⟨n, rfl, rfl⟩
    | _ => cases h
  | fixedBytes size =>
    cases v with
    | fixedBytes s w =>
      obtain rfl : s = size := eq_of_beq h
      exact ⟨w, rfl, rfl⟩
    | _ => cases h
  | address =>
    cases v with
    | address a => exact ⟨a.toWord, rfl, congrArg (some ∘ Value.address) a.ofWord_toWord⟩
    | _ => cases h
  | function =>
    cases v with
    | function f =>
      -- The 24 bytes stand in front.
      have hlt := f.isLt
      have hcapacity : Bytes.capacity 8 = 2 ^ 64 := rfl
      refine ⟨BitVec.ofNat 256 (f.toNat * Bytes.capacity 8), ?_, ?_⟩
      · rw [Value.encode, Value.functionBytes, ← ofNat_mul_capacity, Word.toBytes,
          BitVec.toNat_ofNat, Nat.mod_eq_of_lt]
        rw [hcapacity]
        omega
      · rw [ofWord?]
        congr 2
        apply BitVec.eq_of_toNat_eq
        simp only [BitVec.toNat_setWidth, BitVec.toNat_ushiftRight, BitVec.toNat_ofNat, hcapacity,
          Nat.shiftRight_eq_div_pow]
        omega
    | _ => cases h
  | _ => cases hk

/-- What takes one word is not dynamic. -/
theorem isDynamic_of_isWord {k : Kind} {v : Value} (hk : k.isWord = true)
    (h : k.holds v = true) : v.isDynamic = false ∧ k.isDynamic = false := by
  cases k <;> first
    | exact absurd hk Bool.false_ne_true
    | (cases v <;> first | exact ⟨rfl, rfl⟩ | cases h)

theorem leastWords_of_isWord {k : Kind} (hk : k.isWord = true) :
    k.leastWords = 1 ∧ k.isVoid = false := by
  cases k <;> first | exact ⟨rfl, rfl⟩ | cases hk

/-! ## What is so of a full type and its values -/

/-- Items of one kind need the words of one as often as there are items. -/
theorem leastWordsAll_replicate (n : Nat) (k : Kind) :
    leastWordsAll (List.replicate n k) = n * k.leastWords := by
  induction n with
  | zero => rw [List.replicate_zero, leastWordsAll, Nat.zero_mul]
  | succ n ih => rw [List.replicate_succ, leastWordsAll, ih, Nat.succ_mul, Nat.add_comm]

/-- Values are dynamic where their kinds are. -/
theorem anyDynamic_of_holdsAll {ks : List Kind} {vs : List Value}
    (hk : ∀ k ∈ ks, ∀ v, k.holds v = true → v.isDynamic = k.isDynamic)
    (h : holdsAll ks vs = true) : Value.anyDynamic vs = anyDynamic ks := by
  induction ks generalizing vs with
  | nil =>
    rw [holdsAll_nil.mp h]
    rfl
  | cons k ks ih =>
    obtain ⟨v, vs, rfl, hv, h⟩ := holdsAll_cons.mp h
    rw [Value.anyDynamic, anyDynamic, hk k List.mem_cons_self v hv,
      ih (fun k hmem => hk k (List.mem_cons_of_mem _ hmem)) h]

/-- Items of one kind are dynamic when it is. -/
theorem anyDynamic_replicate {n : Nat} (hn : n ≠ 0) (k : Kind) :
    anyDynamic (List.replicate n k) = k.isDynamic := by
  induction n with
  | zero => exact absurd rfl hn
  | succ n ih =>
    rw [List.replicate_succ, anyDynamic]
    by_cases hn' : n = 0
    · rw [hn', List.replicate_zero, anyDynamic, Bool.or_false]
    · rw [ih hn', Bool.or_self]

/-- The values of a full type all lie behind an offset, or none does. -/
theorem Full.isDynamic_eq {k : Kind} (hk : k.Full) {v : Value} (h : k.holds v = true) :
    v.isDynamic = k.isDynamic := by
  induction hk generalizing v with
  | word hw =>
    obtain ⟨hv, hk⟩ := isDynamic_of_isWord hw h
    rw [hv, hk]
  | @fixedArray item size _ hsize ih =>
    cases v with
    | fixedArray vs =>
      rw [holds, Bool.and_eq_true, ← holdsAll_replicate] at h
      obtain ⟨hlen, hvs⟩ := h
      obtain rfl : vs.length = size := eq_of_beq hlen
      have hitems := anyDynamic_of_holdsAll (forall_mem_replicate fun v hv => ih hv) hvs
      rw [anyDynamic_replicate hsize] at hitems
      exact hitems
    | _ => cases h
  | tuple _ _ ih =>
    cases v with
    | tuple vs => exact anyDynamic_of_holdsAll (fun k hk v => ih k hk) h
    | _ => cases h
  | _ => cases v <;> first | rfl | cases h

/-- A full type takes at least one word. -/
theorem Full.leastWords_pos {k : Kind} (hk : k.Full) : 0 < k.leastWords := by
  induction hk with
  | word hw => rw [(leastWords_of_isWord hw).1]; exact Nat.one_pos
  | fixedArray _ hsize ih => exact Nat.mul_pos (Nat.pos_of_ne_zero hsize) ih
  | @tuple items hne _ ih =>
    cases items with
    | nil => exact absurd rfl hne
    | cons k ks =>
      rw [leastWords, leastWordsAll]
      exact Nat.add_pos_left (ih k List.mem_cons_self) _
  | _ => exact Nat.one_pos

/-- A full type is not void. -/
theorem Full.isVoid_eq {k : Kind} (hk : k.Full) : k.isVoid = false := by
  induction hk with
  | word hw => exact (leastWords_of_isWord hw).2
  | array _ ih => exact ih
  | fixedArray _ hsize ih =>
    rw [isVoid, ih, Bool.or_false]
    exact beq_false_of_ne hsize
  | @tuple items hne _ ih =>
    cases items with
    | nil => exact absurd rfl hne
    | cons k ks => rw [isVoid, allVoid, ih k List.mem_cons_self, Bool.false_and]
  | _ => rfl

end Kind

end EventRelay.Abi
