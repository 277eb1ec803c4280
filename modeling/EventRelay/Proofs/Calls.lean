import EventRelay.Proofs.Decoding
import EventRelay.Proofs.Landing
import EventRelay.Proofs.Names

/-!
# Calls and how they fail

A call names a method. Of the methods with that name the one is called that was declared first with
as many parameters as there are arguments (`Registry.Chosen`); its arguments are converted one by
one (`Converts`). A call fails for want of a method or for the first argument that cannot be
converted (`Registry.Rejects`), and for nothing else.

Main statements:

* `Value.dvd_length_encodeAll`: arguments are encoded in whole words;
* `Interface.method?_declared`: the method that is found is the first in the order of declaration;
* `coercion_and_calls`: what is converted, what a call is encoded to and why it is not.
-/

namespace EventRelay.Abi

/-! ## Whole words -/

theorem dvd_length_padRight32 (bs : Bytes) : 32 ∣ bs.padRight32.length := by
  rw [Bytes.padRight32, Bytes.zeros, List.length_append, List.length_replicate]
  omega

/-- Parts that fill whole words are laid out in whole words. -/
theorem Part.dvd_length_layout {ps : List Part} (h : ∀ p ∈ ps, 32 ∣ p.body.length) :
    32 ∣ (layout ps).length := by
  rw [length_layout]
  induction ps with
  | nil => exact Nat.dvd_zero 32
  | cons p ps ih =>
    have hp := h p List.mem_cons_self
    have hps := ih fun p hp => h p (List.mem_cons_of_mem _ hp)
    rw [headLengths, headLength, tails_cons, List.length_append]
    -- A part is whole in the head, or whole in the tail with a word in the head.
    split
    · omega
    · rw [List.length_nil]
      omega

namespace Value

mutual

/-- The encoding of a value fills whole words. -/
theorem dvd_length_encode : (v : Value) → 32 ∣ v.encode.length
  | .bool _ => by rw [encode, Bytes.length_ofNat]
  | .int _ n | .uint _ n | .fixedBytes _ n => by rw [encode, Word.length_toBytes]
  | .address a => by rw [encode, Word.length_toBytes]
  | .function f => by
    rw [encode, functionBytes, List.length_append, Bytes.length_ofNat, Bytes.zeros,
      List.length_replicate]
  | .bytes bs => by
    rw [encode, encodePacked, List.length_append, Bytes.length_ofNat]
    exact Nat.dvd_add (Nat.dvd_refl 32) (dvd_length_padRight32 bs)
  | .string s => by
    rw [encode, encodePacked, List.length_append, Bytes.length_ofNat]
    exact Nat.dvd_add (Nat.dvd_refl 32) (dvd_length_padRight32 _)
  | .array vs => by
    rw [encode, List.length_append, Bytes.length_ofNat]
    exact Nat.dvd_add (Nat.dvd_refl 32) (Part.dvd_length_layout (dvd_length_parts vs))
  | .fixedArray vs | .tuple vs => by
    rw [encode]
    exact Part.dvd_length_layout (dvd_length_parts vs)

/-- So does each part of a sequence of values. -/
theorem dvd_length_parts : (vs : List Value) → ∀ p ∈ parts vs, 32 ∣ p.body.length
  | [], _, hp => by cases hp
  | v :: vs, p, hp => by
    rw [parts] at hp
    rcases List.mem_cons.mp hp with rfl | hp
    · exact dvd_length_encode v
    · exact dvd_length_parts vs p hp

end

/-- **Arguments are encoded in whole words.** -/
theorem dvd_length_encodeAll (vs : List Value) : 32 ∣ (encodeAll vs).length :=
  Part.dvd_length_layout (dvd_length_parts vs)

end Value

/-! ## Methods in the order of declaration -/

namespace Interface

/-- **The method that is found is the first in the order of declaration** with its name and its
number of parameters. -/
theorem method?_declared {js : List Json} {items : List Item} {i : Interface}
    (hitems : js.mapM item? = some items) (h : ofJson? (.arr js) = some i) (name : String)
    (arity : Nat) : (Registry.ofInterface i).method? name arity =
      (items.filterMap Item.function?).find? fun f => f.name = name && f.inputs.length = arity := by
  have hname (f : Function) (_ : f ∈ items.filterMap Item.function?)
      (hf : (decide (f.name = name) && decide (f.inputs.length = arity)) = true) :
      f.name = name := by
    rw [Bool.and_eq_true] at hf
    exact of_decide_eq_true hf.1
  rw [Registry.method?, Registry.ofInterface, eq_of_ofJson? hitems h, ← List.head?_filter,
    filter_mergeSort hname, List.head?_filter]

end Interface

/-! ## Arguments -/

/-- Arguments and what they are converted to, each to the type of its parameter. -/
inductive Converts : List Param → List Value → List Value → Prop
  | nil : Converts [] [] []
  | cons {p : Param} {ps : List Param} {k : Kind} {v w : Value} {vs ws : List Value}
      (hk : p.resolve = .ok k) (hw : coerce k v = .ok w) (h : Converts ps vs ws) :
      Converts (p :: ps) (v :: vs) (w :: ws)

/-- Why an argument is not converted to the type of its parameter. -/
inductive Unconverted (method : String) (p : Param) (v : Value) : CallError → Prop
  | kind {e : KindError} (h : p.resolve = .error e) :
      Unconverted method p v (.kind p.name method e)
  | argument {k : Kind} {e : Inconvertible} (hk : p.resolve = .ok k) (h : coerce k v = .error e) :
      Unconverted method p v (.argument p.name method e)

namespace Registry

variable {r : Registry} {method : String} {params : List Param} {args values : List Value}
  {f : Function} {e : CallError} {arity : Nat}

/-- Arguments that convert one by one convert together. -/
theorem coerceAll_of_converts (h : Converts params args values) :
    coerceAll method params args = .ok values := by
  induction h with
  | nil => rfl
  | cons hk hw _ ih =>
    rw [coerceAll_of_coerce hk hw, ih]
    rfl

/-- The first argument that does not convert is the error of all. -/
theorem coerceAll_of_unconverted {before after : List Param} {p : Param} {done rest : List Value}
    {v : Value} (hbefore : Converts before done values) (h : Unconverted method p v e) :
    coerceAll method (before ++ p :: after) (done ++ v :: rest) = .error e := by
  induction hbefore with
  | nil =>
    rw [List.nil_append, List.nil_append, coerceAll]
    cases h with
    | kind h =>
      rw [h]
      rfl
    | argument hk h =>
      rw [hk]
      show ((coerce _ v).mapError _ >>= _) = _
      rw [h]
      rfl
  | cons hk hw _ ih =>
    rw [List.cons_append, List.cons_append, coerceAll_of_coerce hk hw, ih]
    rfl

/-- All arguments are converted, or there is a first that is not. -/
theorem converts_or_unconverted (method : String) (h : params.length = args.length) :
    (∃ values, Converts params args values) ∨
    ∃ before p after done v rest values e, params = before ++ p :: after ∧
      args = done ++ v :: rest ∧ Converts before done values ∧ Unconverted method p v e := by
  induction params generalizing args with
  | nil =>
    obtain rfl := List.eq_nil_of_length_eq_zero h.symm
    exact .inl ⟨[], .nil⟩
  | cons p params ih =>
    obtain ⟨v, args, rfl⟩ := List.exists_cons_of_length_eq_add_one h.symm
    cases hk : p.resolve with
    | error e =>
      exact .inr ⟨[], p, params, [], v, args, [], _, rfl, rfl, .nil, .kind hk⟩
    | ok k =>
      cases hw : coerce k v with
      | error e =>
        exact .inr ⟨[], p, params, [], v, args, [], _, rfl, rfl, .nil, .argument hk hw⟩
      | ok w =>
        obtain ⟨ws, hws⟩ | ⟨before, q, after, done, u, rest, ws, e, rfl, rfl, hbefore, hq⟩ :=
          ih (Nat.succ.inj h)
        · exact .inl ⟨w :: ws, .cons hk hw hws⟩
        · exact .inr ⟨p :: before, q, after, v :: done, u, rest, w :: ws, e, rfl, rfl,
            .cons hk hw hbefore, hq⟩

/-! ## Calls -/

/-- The first of the methods with a name that has a number of parameters. -/
def Chosen (r : Registry) (method : String) (arity : Nat) (f : Function) : Prop :=
  (f.name = method ∧ f.inputs.length = arity) ∧ ∃ before after,
    r.functions = before ++ f :: after ∧
      ∀ g ∈ before, g.name = method → g.inputs.length ≠ arity

/-- What a call is encoded to. -/
inductive Sends (r : Registry) (method : String) (args : List Value) : Bytes → Prop
  | call {f : Function} {values : List Value} (hf : r.Chosen method args.length f)
      (hvalues : Converts f.inputs args values) :
      Sends r method args (f.selector ++ Value.encodeAll values)

/-- Why a call is not encoded. -/
inductive Rejects (r : Registry) (method : String) (args : List Value) : CallError → Prop
  | unknown (h : ∀ f ∈ r.functions, f.name ≠ method) : Rejects r method args (.unknownMethod method)
  | overload (hname : ∃ f ∈ r.functions, f.name = method)
      (h : ∀ f ∈ r.functions, f.name = method → f.inputs.length ≠ args.length) :
      Rejects r method args (.noOverload method args.length)
  /-- The first argument that is not converted. -/
  | argument {f : Function} {before after : List Param} {p : Param} {done rest values : List Value}
      {v : Value} {e : CallError} (hf : r.Chosen method args.length f)
      (hparams : f.inputs = before ++ p :: after) (hargs : args = done ++ v :: rest)
      (hbefore : Converts before done values) (h : Unconverted method p v e) :
      Rejects r method args e

/-- The method that is found is the chosen one. -/
theorem method?_eq_some : r.method? method arity = some f ↔ r.Chosen method arity f := by
  rw [method?, List.find?_eq_some_iff_append, Chosen]
  simp only [Bool.and_eq_true, decide_eq_true_eq, Bool.not_eq_true', Bool.and_eq_false_imp,
    decide_eq_false_iff_not]

/-- No method is found when none of that name takes as many arguments. -/
theorem method?_eq_none : r.method? method arity = none ↔
    ∀ f ∈ r.functions, f.name = method → f.inputs.length ≠ arity := by
  rw [method?, List.find?_eq_none]
  simp only [Bool.and_eq_true, decide_eq_true_eq, not_and]

/-- What the registry sends is what it encodes. -/
theorem encodeCall_of_sends {data : Bytes} (h : r.Sends method args data) :
    r.encodeCall method args = .ok data := by
  cases h with
  | call hf hvalues =>
    rw [encodeCall_of_method? (method?_eq_some.mpr hf), coerceAll_of_converts hvalues]
    rfl

/-- What the registry rejects is not encoded. -/
theorem encodeCall_of_rejects (h : r.Rejects method args e) :
    r.encodeCall method args = .error e := by
  cases h with
  | unknown h =>
    have hnone : ¬ r.functions.any (·.name = method) = true := by
      intro hany
      obtain ⟨f, hf, hname⟩ := List.any_eq_true.mp hany
      exact h f hf (of_decide_eq_true hname)
    rw [encodeCall, if_neg hnone]
    rfl
  | overload hname h =>
    obtain ⟨f, hf, hname⟩ := hname
    have hany : r.functions.any (·.name = method) = true :=
      List.any_eq_true.mpr ⟨f, hf, decide_eq_true hname⟩
    rw [encodeCall, if_pos hany]
    dsimp only
    rw [method?_eq_none.mpr h]
    rfl
  | argument hf hparams hargs hbefore h =>
    rw [encodeCall_of_method? (method?_eq_some.mpr hf), hparams, hargs,
      coerceAll_of_unconverted hbefore h]
    rfl

/-- A call is encoded, or there is a reason why it is not. -/
theorem sends_or_rejects (r : Registry) (method : String) (args : List Value) :
    (∃ data, r.Sends method args data) ∨ ∃ e, r.Rejects method args e := by
  cases hf : r.method? method args.length with
  | some f =>
    obtain ⟨values, hvalues⟩ |
      ⟨before, p, after, done, v, rest, values, e, hparams, hargs, hbefore, h⟩ :=
      converts_or_unconverted method (length_of_method? hf)
    · exact .inl ⟨_, .call (method?_eq_some.mp hf) hvalues⟩
    · exact .inr ⟨e, .argument (method?_eq_some.mp hf) hparams hargs hbefore h⟩
  | none =>
    by_cases hname : ∃ f ∈ r.functions, f.name = method
    · exact .inr ⟨_, .overload hname (method?_eq_none.mp hf)⟩
    · exact .inr ⟨_, .unknown fun f hf heq => hname ⟨f, hf, heq⟩⟩

/-- Calls are encoded exactly as the registry sends them. -/
theorem encodeCall_eq_ok_iff {data : Bytes} :
    r.encodeCall method args = .ok data ↔ r.Sends method args data := by
  refine ⟨fun h => ?_, encodeCall_of_sends⟩
  obtain ⟨data', hdata⟩ | ⟨e, he⟩ := sends_or_rejects r method args
  · obtain rfl := Except.ok.inj (h.symm.trans (encodeCall_of_sends hdata))
    exact hdata
  · rw [encodeCall_of_rejects he] at h
    cases h

/-- Calls fail exactly as the registry rejects them. -/
theorem encodeCall_eq_error_iff :
    r.encodeCall method args = .error e ↔ r.Rejects method args e := by
  refine ⟨fun h => ?_, encodeCall_of_rejects⟩
  obtain ⟨data, hdata⟩ | ⟨e', he⟩ := sends_or_rejects r method args
  · rw [encodeCall_of_sends hdata] at h
    cases h
  · obtain rfl := Except.error.inj (h.symm.trans (encodeCall_of_rejects he))
    exact he

/-- There is a method just when calls with as many arguments never fail for want of one. -/
theorem hasMethod_iff : r.hasMethod method arity = true ↔
    ∀ args : List Value, args.length = arity → ∀ e, r.encodeCall method args = .error e →
      e.isUnmatched = false := by
  constructor
  · rintro h args rfl e he
    exact matched_of_hasMethod h he
  · intro h
    have hlength := List.length_replicate (n := arity) (a := Value.bool true)
    cases hf : r.method? method arity with
    | some f => rw [hasMethod, hf, Option.isSome_some]
    | none =>
      have hnone := method?_eq_none.mp hf
      -- Any arguments of that number will do.
      obtain ⟨e, he, hunmatched⟩ : ∃ e, r.Rejects method (List.replicate arity (.bool true)) e ∧
          e.isUnmatched = true := by
        by_cases hname : ∃ f ∈ r.functions, f.name = method
        · exact ⟨_, .overload hname (by rwa [hlength]), rfl⟩
        · exact ⟨_, .unknown fun f hf heq => hname ⟨f, hf, heq⟩, rfl⟩
      rw [h _ hlength e (encodeCall_of_rejects he)] at hunmatched
      cases hunmatched

end Registry

/-- **What is converted is of its type, so that no call fails once its arguments are converted.** A
value of the type is taken as it is; any other becomes a value of the type with its numbers in
range. A call is the selector of the method that was declared first under its name with as many
parameters, and the converted arguments in whole words; it fails for want of a method or for the
first argument that is not converted, and never when the converted arguments are encoded. -/
theorem coercion_and_calls (k : Kind) (v : Value) (r : Registry) (method : String)
    (args : List Value) :
    (∀ w, coerce k v = .ok w →
      k.holds w = true ∧ coerce k w = .ok w ∧ (k.holds v = false → k.Lands w)) ∧
    (∀ data, r.encodeCall method args = .ok data ↔ r.Sends method args data) ∧
    (∀ e, r.encodeCall method args = .error e ↔ r.Rejects method args e) ∧
    (∀ (js : List Json) (items : List Interface.Item) (i : Interface),
      js.mapM Interface.item? = some items → Interface.ofJson? (.arr js) = some i →
      ∀ f, (Registry.ofInterface i).Chosen method args.length f ↔
        (items.filterMap Interface.Item.function?).find?
          (fun f => f.name = method && f.inputs.length = args.length) = some f) ∧
    (∀ (f : Function) (vs : List Value),
      f.selector.length = 4 ∧ 32 ∣ (Value.encodeAll vs).length) ∧
    (r.hasMethod method args.length = true ↔ ∀ others : List Value, others.length = args.length →
      ∀ e, r.encodeCall method others = .error e → e.isUnmatched = false) := by
  refine ⟨fun w h => ?_, fun data => Registry.encodeCall_eq_ok_iff,
    fun e => Registry.encodeCall_eq_error_iff, fun js items i hitems hi f => ?_,
    fun f vs => ⟨?_, Value.dvd_length_encodeAll vs⟩, Registry.hasMethod_iff⟩
  · have hholds := holds_of_coerce h
    exact ⟨hholds, coerce_of_holds hholds, lands_of_coerce h⟩
  · rw [← Registry.method?_eq_some, Interface.method?_declared hitems hi]
  · rw [Function.selector, List.length_take, Hash.Keccak.length_digest]
    rfl

/-! ## Fixed calls -/

/-- `put(uint8 n)` -/
def put : Function := ⟨"put", [⟨"n", "uint8", []⟩]⟩

/-- The methods `put(uint8 n)` and `put(uint256 n)`. -/
def methods : Registry := ⟨[], [], [put, ⟨"put", [⟨"n", "uint256", []⟩]⟩]⟩

theorem chosen_put : methods.Chosen "put" 1 put := ⟨⟨rfl, rfl⟩, [], _, rfl, nofun⟩

/-- A number of 256 bits is passed to the method that was declared first, as one of 8 bits or not at
all, though there is another method for it. -/
theorem coercion_and_calls_put :
    coerce (.uint 8) (.uint 256 200) = .ok (.uint 8 200) ∧
    (Kind.uint 8).holds (.uint 256 200) = false ∧ (Kind.uint 8).Lands (.uint 8 200) ∧
    methods.encodeCall "put" [.uint 256 200] =
      .ok (put.selector ++ Value.encodeAll [.uint 8 200]) ∧
    methods.encodeCall "put" [.uint 256 256] =
      .error (.argument "n" "put" ⟨.uint 256 256, .uint 8⟩) := by
  have hkind : Param.resolve ⟨"n", "uint8", []⟩ = .ok (.uint 8) :=
    Param.resolve_of_rootName? "uint8" [] [] rfl rfl rfl rfl
  have hsmall : coerce (.uint 8) (.uint 256 200) = .ok (.uint 8 200) := rfl
  have hlarge : coerce (.uint 8) (.uint 256 256) = .error ⟨.uint 256 256, .uint 8⟩ := rfl
  obtain ⟨hcoerce, hsent, -⟩ :=
    coercion_and_calls (.uint 8) (.uint 256 200) methods "put" [.uint 256 200]
  obtain ⟨-, -, hrejected, -⟩ :=
    coercion_and_calls (.uint 8) (.uint 256 256) methods "put" [.uint 256 256]
  refine ⟨hsmall, rfl, (hcoerce _ hsmall).2.2 rfl, ?_, ?_⟩
  · exact (hsent _).mpr (.call chosen_put (.cons hkind hsmall .nil))
  · have hparams : put.inputs = [] ++ ⟨"n", "uint8", []⟩ :: [] := rfl
    have hargs : [Value.uint 256 256] = [] ++ .uint 256 256 :: [] := rfl
    exact (hrejected _).mpr
      (.argument chosen_put hparams hargs .nil (.argument hkind hlarge))

end EventRelay.Abi
