import EventRelay.Proofs.Coercion
import EventRelay.Proofs.Described
import Mathlib.Data.List.TakeWhile

/-!
# Strings inside values

The text of a value has no quotes around its strings, while the grammar that reads it splits at
commas and brackets, drops blanks and takes quotes away. A string inside a list or a tuple is read
back as it was just when it has nothing in it that the grammar takes for its own.

Main statement:

* `coerce_keeps_iff`: which of the values that can be converted keep their lists, their tuples and
  their strings.
-/

namespace EventRelay.Abi

/-! ## What the readers of elementary values pass over -/

/-- From one text to a later one no delimiter is passed over. -/
def Passes (cs rest : List Char) : Prop :=
  ∃ used, cs = used ++ rest ∧ ∀ c ∈ used, isDelimiter c = false

namespace Passes

variable {cs mid rest : List Char}

theorem refl (cs : List Char) : Passes cs cs := ⟨[], rfl, nofun⟩

theorem trans (h : Passes cs mid) (h' : Passes mid rest) : Passes cs rest := by
  obtain ⟨used, rfl, hused⟩ := h
  obtain ⟨used', rfl, hused'⟩ := h'
  refine ⟨used ++ used', (List.append_assoc ..).symm, fun c hc => ?_⟩
  exact (List.mem_append.mp hc).elim (hused c) (hused' c)

theorem cons {c : Char} (hc : isDelimiter c = false) (h : Passes cs rest) :
    Passes (c :: cs) rest := by
  obtain ⟨used, rfl, hused⟩ := h
  exact ⟨c :: used, rfl, List.forall_mem_cons.mpr ⟨hc, hused⟩⟩

/-- A run of characters that no delimiter belongs to may be dropped. -/
theorem dropWhile {p : Char → Bool} (hp : ∀ c, isDelimiter c = true → p c = false)
    (cs : List Char) : Passes cs (cs.dropWhile p) := by
  refine ⟨cs.takeWhile p, List.takeWhile_append_dropWhile.symm, fun c hc => ?_⟩
  have hpc := List.all_eq_true.mp List.all_takeWhile c hc
  cases hd : isDelimiter c with
  | false => rfl
  | true =>
    rw [hp c hd] at hpc
    cases hpc

theorem skipBlank (cs : List Char) : Passes cs (skipBlank cs) := by
  refine dropWhile (fun c hc => ?_) cs
  rcases isDelimiter_iff.mp hc with rfl | rfl | rfl <;> decide

/-- No reader gets behind a delimiter. -/
theorem eq_append (h : Passes (cs ++ mid) rest) (hmid : Delimited mid) :
    ∃ left, rest = left ++ mid ∧ ∃ used, cs = used ++ left := by
  obtain ⟨used, heq, hused⟩ := h
  obtain ⟨extra, rfl, rfl⟩ | ⟨left, rfl, rfl⟩ := List.append_eq_append_iff.mp heq
  · cases extra with
    | nil => exact ⟨[], rfl, cs, (List.append_nil cs).symm⟩
    | cons c extra =>
      have hc := hused c (List.mem_append_right cs List.mem_cons_self)
      rw [hmid c rfl] at hc
      cases hc
  · exact ⟨left, rfl, used, rfl⟩

end Passes

namespace Numeral

variable {cs rest : List Char}

/-- Reading the digits of a number passes over no delimiter. -/
theorem passes_digits? {ds : List Char} {base : Nat} (h : digits? cs = some (ds, base, rest)) :
    Passes cs rest := by
  have hrun : ∀ {b : Nat} {p : Char → Bool} {run : List Char},
      (∀ c, isDelimiter c = true → p c = false) →
      (if (run.takeWhile p).isEmpty then none else some (run.takeWhile p, b, run.dropWhile p)) =
        some (ds, base, rest) → Passes run rest := by
    intro b p run hp hrun
    split at hrun
    · cases hrun
    · cases hrun
      exact .dropWhile hp run
  unfold digits? at h
  split at h
  next m tail =>
    have hmark : ∀ {x y : Char}, isDelimiter x = false → isDelimiter y = false →
        (m = x || m = y) = true → Passes tail rest → Passes ('0' :: m :: tail) rest := by
      intro x y hx hy hm hpass
      rw [Bool.or_eq_true, decide_eq_true_eq, decide_eq_true_eq] at hm
      refine .cons (by decide) (.cons ?_ hpass)
      rcases hm with rfl | rfl
      · exact hx
      · exact hy
    split at h
    next hm => exact hmark (by decide) (by decide) hm (hrun not_isHexDigit_of_isDelimiter h)
    next =>
      split at h
      next hm => exact hmark (by decide) (by decide) hm (hrun not_isHexDigit_of_isDelimiter h)
      next =>
        split at h
        next hm => exact hmark (by decide) (by decide) hm (hrun not_isHexDigit_of_isDelimiter h)
        next => exact hrun not_isDigit_of_isDelimiter h
  next => exact hrun not_isDigit_of_isDelimiter h

/-- Nor does reading a fraction. -/
theorem passes_fraction? {fraction : Option (List Char)}
    (h : fraction? cs = some (fraction, rest)) :
    Passes cs rest := by
  unfold fraction? at h
  split at h
  next cs =>
    dsimp only at h
    split at h
    · cases h
    · cases h
      exact .cons (by decide) (.dropWhile not_isDigit_of_isDelimiter cs)
  next => cases h; exact .refl _

/-- Nor does reading an exponent. -/
theorem passes_exponent (cs : List Char) : Passes cs (exponent cs).2 := by
  unfold exponent
  split
  next => exact .refl _
  next c tail =>
    split
    next hc =>
      have hmark : isDelimiter c = false := by
        rw [Bool.or_eq_true, decide_eq_true_eq, decide_eq_true_eq] at hc
        rcases hc with rfl | rfl <;> decide
      have hrun : ∀ {after : List Char} {small : Prop} [Decidable small] {e : Int},
          Passes tail after →
          Passes (c :: tail)
            (if small then (0, c :: tail) else (e, after.dropWhile Text.Decimal.isDigit)).2 := by
        intro after small _ e hafter
        split
        · exact .refl _
        · exact .cons hmark (hafter.trans (.dropWhile not_isDigit_of_isDelimiter after))
      dsimp only
      split
      next => exact .cons hmark (.cons (by decide) (.refl _))
      next => exact .refl _
      next => exact .refl _
      next =>
        split
        next => exact hrun (.cons (by decide) (.refl _))
        next => exact hrun (.cons (by decide) (.refl _))
        next => exact hrun (.refl _)
    next => exact .refl _

/-- Nor does reading a unit. -/
theorem passes_unit? {power : Nat} (h : unit? cs = some (power, rest)) : Passes cs rest := by
  have hrest : rest = cs.dropWhile Char.isAlpha := by
    simp only [unit?] at h
    split at h
    · cases h; rfl
    · split at h
      · cases h; rfl
      · split at h
        · cases h; rfl
        · cases h
  rw [hrest]
  exact .dropWhile not_isAlpha_of_isDelimiter cs

/-- A number is read from digits, a point, an exponent, blanks and a unit alone. -/
theorem passes_natural? {n : Nat} (h : natural? cs = some (n, rest)) : Passes cs rest := by
  unfold natural? at h
  simp only [Option.bind_eq_bind, Option.bind_eq_some_iff, Prod.exists] at h
  obtain ⟨ds, base, tail, hds, fraction, tail', hfraction, whole, -, power, last, hunit, h⟩ := h
  have hlast : last = rest := by
    split at h
    next => cases h
    next =>
      obtain ⟨part, -, h⟩ := Option.bind_eq_some_iff.mp h
      split at h
      next => cases h
      next =>
        simp only [Option.bind_eq_some_iff] at h
        obtain ⟨_, -, _, -, _, -, _, -, _, -, h⟩ := h
        cases h
        rfl
  subst hlast
  exact (passes_digits? hds).trans <| (passes_fraction? hfraction).trans <|
    (passes_exponent tail').trans <| (Passes.skipBlank _).trans (passes_unit? hunit)

end Numeral

namespace Kind

variable {cs rest : List Char}

/-- Reading hexadecimal digits passes over no delimiter. -/
theorem passes_hexDigits? {ds : List Char} (h : hexDigits? cs = some (ds, rest)) :
    Passes cs rest := by
  unfold hexDigits? at h
  split at h
  next tail =>
    cases h
    exact .cons (by decide) (.cons (by decide) (.dropWhile not_isHexDigit_of_isDelimiter tail))
  next =>
    dsimp only at h
    split at h
    · cases h
    · cases h
      exact .dropWhile not_isHexDigit_of_isDelimiter cs

/-- Nor does reading bytes. -/
theorem passes_readBytes? {bs : Bytes} (h : readBytes? cs = some (bs, rest)) : Passes cs rest := by
  simp only [readBytes?, Option.bind_eq_bind, Option.bind_eq_some_iff, Prod.exists] at h
  obtain ⟨ds, tail, hds, _, -, h⟩ := h
  cases h
  exact passes_hexDigits? hds

/-- Nor does reading bytes of a known length. -/
theorem passes_readExactly? {n : Nat} {bs : Bytes} (h : readExactly? n cs = some (bs, rest)) :
    Passes cs rest := by
  simp only [readExactly?, Option.bind_eq_bind, Option.bind_eq_some_iff, Prod.exists] at h
  obtain ⟨_, tail, hbs, h⟩ := h
  split at h
  next => cases h; exact passes_readBytes? hbs
  next => cases h

/-- Nor does reading a truth value. -/
theorem passes_readBool? {b : Bool} (h : readBool? cs = some (b, rest)) : Passes cs rest := by
  have hrest : rest = cs.dropWhile Char.isAlpha := by
    simp only [readBool?] at h
    split at h
    · cases h; rfl
    · split at h
      · cases h; rfl
      · cases h
  rw [hrest]
  exact .dropWhile not_isAlpha_of_isDelimiter cs

/-- Nor does reading an unsigned number. -/
theorem passes_readUint? {bits n : Nat} (h : readUint? bits cs = some (n, rest)) :
    Passes cs rest := by
  simp only [readUint?, Option.bind_eq_bind, Option.bind_eq_some_iff, Prod.exists] at h
  obtain ⟨_, tail, hn, h⟩ := h
  split at h
  next => cases h; exact Numeral.passes_natural? hn
  next => cases h

/-- Nor does reading a signed number. -/
theorem passes_readInt? {bits : Nat} {i : Int} (h : readInt? bits cs = some (i, rest)) :
    Passes cs rest := by
  simp only [readInt?, Option.bind_eq_bind, Option.bind_eq_some_iff, Prod.exists,
    Option.ite_none_right_eq_some, Option.some.injEq, Prod.mk.injEq] at h
  obtain ⟨n, tail, hn, -, -, rfl⟩ := h
  split at hn
  next => exact .cons (by decide) (Numeral.passes_natural? hn)
  next => exact .cons (by decide) (Numeral.passes_natural? hn)
  next => exact Numeral.passes_natural? hn

/-- Whether a type has no parts and is not that of strings. -/
def isElementary : Kind → Bool
  | .string | .array _ | .fixedArray _ _ | .tuple _ => false
  | _ => true

/-- The reader of an elementary type gets to no delimiter. -/
theorem passes_read? {k : Kind} (hk : k.isElementary = true) {listEnd : Option Char} {v : Value}
    (h : k.read? listEnd cs = some (v, rest)) : Passes cs rest := by
  cases k with
  | string | array | fixedArray | tuple => cases hk
  | _ =>
    simp only [read?, Option.map_eq_some_iff, Prod.exists, Prod.mk.injEq] at h
    obtain ⟨_, _, h, -, rfl⟩ := h
    first
    | exact passes_readBool? h
    | exact passes_readInt? h
    | exact passes_readUint? h
    | exact passes_readExactly? h
    | exact passes_readBytes? h

end Kind

/-! ## Values whose strings are kept -/

/-- The characters that mean something to the grammar behind a value or before it. -/
def markers : List Char := [',', ']', ')', ' ', '\t', '"', '\'']

/-- Whether a text in a list or a tuple with the given end is read as it was written: it is not
empty, has no comma and no end of the list in it, begins with neither a blank nor a quote and does
not end with a blank. -/
def isPlain (close : Char) (cs : List Char) : Bool :=
  !cs.isEmpty && skipBlank cs == cs && Text.trimEnd cs == cs &&
    cs.all (fun c => c ≠ ',' && c ≠ close) && cs.head?.all fun c => c ≠ '"' && c ≠ '\''

namespace Value

/-- Whether a value has no parts and is not a string. -/
def isElementary : Value → Bool
  | .string _ | .array _ | .fixedArray _ | .tuple _ => false
  | _ => true

mutual

/-- Whether a value keeps the lists of another one with their lengths, its tuples and its strings,
whatever has become of all else. -/
def keptBy : Value → Value → Bool
  | .string s, .string t => s == t
  | .string _, _ => false
  | .array vs, w | .fixedArray vs, w => w.items?.any fun ws => keptByAll vs ws
  | .tuple vs, .tuple ws => keptByAll vs ws
  | .tuple _, _ => false
  | _, _ => true

/-- Whether values are kept by as many others, each by the one at its place. -/
def keptByAll : List Value → List Value → Bool
  | [], [] => true
  | v :: vs, w :: ws => keptBy v w && keptByAll vs ws
  | _, _ => false

end

mutual

/-- Whether all strings are plain that are parts of a value, or of a list or a tuple with the given
end that the value is a part of. -/
def isPlain (listEnd : Option Char) : Value → Bool
  | .string s => listEnd.all fun close => Abi.isPlain close s.toList
  | .array vs | .fixedArray vs => areAllPlain (some ']') vs
  | .tuple vs => areAllPlain (some ')') vs
  | _ => true

/-- Whether all strings are plain in the parts of a list or a tuple. -/
def areAllPlain (listEnd : Option Char) : List Value → Bool
  | [] => true
  | v :: vs => isPlain listEnd v && areAllPlain listEnd vs

end

end Value

namespace Kind

mutual

/-- Whether a type has the containers of a value and is that of strings where the value has one. -/
def mirrors : Kind → Value → Bool
  | .array item, v | .fixedArray item _, v => v.items?.any fun vs => vs.all fun v => mirrors item v
  | .tuple items, .tuple vs => mirrorAll items vs
  | .tuple _, _ => false
  | .string, .string _ => true
  | _, v => v.isElementary

/-- Whether types mirror as many values, each the one at its place. -/
def mirrorAll : List Kind → List Value → Bool
  | [], [] => true
  | k :: ks, v :: vs => mirrors k v && mirrorAll ks vs
  | _, _ => false

end

end Kind

/-! ## The texts of the parts -/

/-- What stands behind a part of a list or a tuple with the given end, and nothing behind a value
that is no part of one. -/
def Follows : Option Char → List Char → Prop
  | none, rest => rest = []
  | some close, rest =>
    isDelimiter close = true ∧ ∃ c tail, rest = c :: tail ∧ (c = ',' ∨ c = close)

/-- What follows an item begins with what ends it. -/
theorem Follows.delimited {listEnd : Option Char} {rest : List Char} (h : Follows listEnd rest) :
    Delimited rest := by
  cases listEnd with
  | none =>
    rw [show rest = [] from h]
    exact delimited_nil
  | some close =>
    obtain ⟨hclose, c, tail, rfl, rfl | rfl⟩ := h
    · exact delimited_cons rfl
    · exact delimited_cons hclose

/-- No blanks are skipped over the end of a text. -/
theorem Delimited.skipBlank_append {rest : List Char} (h : Delimited rest) (cs : List Char) :
    Abi.skipBlank (cs ++ rest) = Abi.skipBlank cs ++ rest := by
  induction cs with
  | nil => exact h.skipBlank
  | cons c cs ih =>
    rw [Abi.skipBlank, Abi.skipBlank, List.cons_append, List.dropWhile_cons, List.dropWhile_cons]
    split
    · exact ih
    · rfl

theorem length_trimEnd_le (cs : List Char) : (Text.trimEnd cs).length ≤ cs.length := by
  rw [Text.trimEnd, List.length_reverse]
  exact (List.dropWhile_suffix _).length_le.trans_eq List.length_reverse

theorem mem_of_mem_trimEnd {cs : List Char} {c : Char} (h : c ∈ Text.trimEnd cs) : c ∈ cs := by
  rw [Text.trimEnd, List.mem_reverse] at h
  exact List.mem_reverse.mp ((List.dropWhile_suffix _).subset h)

namespace Kind

variable {close : Char} {cs rest rest' : List Char}

/-- A text without quotes is read up to a comma or the end of the list. -/
theorem readString?_append (hf : Follows (some close) rest) (hne : cs ≠ [])
    (hquote : ∀ c ∈ cs.head?, c ≠ '"' ∧ c ≠ '\'') (hinside : ∀ c ∈ cs, c ≠ ',' ∧ c ≠ close) :
    readString? (some close) (cs ++ rest) = some (String.ofList (Text.trimEnd cs), rest) := by
  obtain ⟨-, e, after, rfl, he⟩ := hf
  have hall : ∀ c ∈ cs, (c ≠ ',' && c ≠ close) = true := by
    intro c hc
    simp [hinside c hc]
  have hend : (e ≠ ',' && e ≠ close) = false := by
    rcases he with rfl | rfl <;> simp
  have htake : (cs ++ e :: after).takeWhile (fun c => c ≠ ',' && c ≠ close) = cs := by
    rw [List.takeWhile_append_of_pos hall, List.takeWhile_cons, hend]
    exact List.append_nil cs
  have hdrop : (cs ++ e :: after).dropWhile (fun c => c ≠ ',' && c ≠ close) = e :: after := by
    rw [List.dropWhile_append_of_pos hall, List.dropWhile_cons, hend]
    rfl
  cases cs with
  | nil => exact absurd rfl hne
  | cons c cs =>
    obtain ⟨hdouble, hsingle⟩ := hquote c rfl
    rw [List.cons_append] at htake hdrop ⊢
    simp only [readString?, hdouble, hsingle, decide_false, Bool.or_false, Bool.false_eq_true,
      if_false, htake, hdrop, List.isEmpty_cons]

/-- A string in quotes has the quote nowhere in it. -/
theorem not_mem_of_readString? {listEnd : Option Char} {q : Char} (hq : q = '"' ∨ q = '\'')
    {t : String} (h : readString? listEnd (q :: cs) = some (t, rest')) : q ∉ t.toList := by
  have hquote : (q = '"' || q = '\'') = true := by
    rcases hq with rfl | rfl <;> rfl
  simp only [readString?, hquote, if_true] at h
  split at h
  next =>
    cases h
    rw [String.toList_ofList]
    intro hmem
    simpa using List.all_eq_true.mp List.all_takeWhile q hmem
  next => cases h

/-- What it takes for a string to stand for itself in a container. -/
theorem isPlain_iff : isPlain close cs = true ↔
    cs ≠ [] ∧ skipBlank cs = cs ∧ Text.trimEnd cs = cs ∧ (∀ c ∈ cs, c ≠ ',' ∧ c ≠ close) ∧
      ∀ c ∈ cs.head?, c ≠ '"' ∧ c ≠ '\'' := by
  cases cs <;> simp [isPlain, and_assoc]

/-- What is read of a string without quotes has neither commas nor ends of the list in it. -/
theorem inside_of_readString? {c : Char} (hdouble : c ≠ '"') (hsingle : c ≠ '\'') {t : String}
    (h : readString? (some close) (c :: cs) = some (t, rest')) :
    (c ≠ ',' ∧ c ≠ close) ∧ ∀ d ∈ t.toList, d ≠ ',' ∧ d ≠ close := by
  simp only [readString?, hdouble, hsingle, decide_false, Bool.or_false, Bool.false_eq_true,
    if_false] at h
  split at h
  next => cases h
  next hne =>
    cases h
    refine ⟨?_, fun d hd => ?_⟩
    · by_contra hc
      exact hne (by simp [hc])
    · rw [String.toList_ofList] at hd
      simpa using List.all_eq_true.mp List.all_takeWhile d (mem_of_mem_trimEnd hd)

/-- A string that is read back as it was is plain. -/
theorem isPlain_of_readString? {s : String} (hf : Follows (some close) rest)
    (h : readString? (some close) (skipBlank (s.toList ++ rest)) = some (s, rest')) :
    isPlain close s.toList = true := by
  have hsuffix : skipBlank s.toList <:+ s.toList := List.dropWhile_suffix _
  rw [hf.delimited.skipBlank_append] at h
  cases hcs : skipBlank s.toList with
  | nil =>
    rw [hcs, List.nil_append] at h
    obtain ⟨hclose, c, tail, rfl, hc⟩ := hf
    have hne : c ≠ '"' ∧ c ≠ '\'' := by
      rcases hc with rfl | rfl
      · decide
      · constructor <;> (rintro rfl; cases hclose)
    obtain ⟨⟨hcomma, hend⟩, -⟩ := inside_of_readString? hne.1 hne.2 h
    rcases hc with rfl | rfl
    · exact absurd rfl hcomma
    · exact absurd rfl hend
  | cons c tail =>
    have hmem : c ∈ s.toList := hsuffix.subset (by rw [hcs]; exact List.mem_cons_self)
    have hread := h
    rw [hcs, List.cons_append] at hread
    have hdouble : c ≠ '"' := fun hc => not_mem_of_readString? (.inl hc) hread hmem
    have hsingle : c ≠ '\'' := fun hc => not_mem_of_readString? (.inr hc) hread hmem
    have hinside := (inside_of_readString? hdouble hsingle hread).2
    have hquote : ∀ d ∈ (skipBlank s.toList).head?, d ≠ '"' ∧ d ≠ '\'' := by
      rw [hcs]
      intro d hd
      rw [← Option.some.inj hd]
      exact ⟨hdouble, hsingle⟩
    rw [readString?_append hf (by rw [hcs]; exact List.cons_ne_nil c tail) hquote
      fun d hd => hinside d (hsuffix.subset hd)] at h
    have htrim := congrArg String.toList (Prod.mk.inj (Option.some.inj h)).1
    rw [String.toList_ofList] at htrim
    -- Neither end can have lost anything, as the whole has its length.
    have hlength := length_trimEnd_le (skipBlank s.toList)
    rw [htrim] at hlength
    have hskip : skipBlank s.toList = s.toList := hsuffix.eq_of_length_le hlength
    rw [hskip] at htrim hquote
    exact isPlain_iff.mpr ⟨List.ne_nil_of_mem hmem, hskip, htrim, hinside, hquote⟩

/-- A string that is a part is read back as it was, or is not plain. -/
theorem readString?_part {s t : String} (hf : Follows (some close) rest)
    (h : readString? (some close) (skipBlank (s.toList ++ rest)) = some (t, rest')) :
    (s == t) = isPlain close s.toList ∧ (isPlain close s.toList = true → rest' = rest) := by
  cases hplain : isPlain close s.toList with
  | false =>
    refine ⟨beq_false_of_ne ?_, nofun⟩
    rintro rfl
    rw [isPlain_of_readString? hf h] at hplain
    cases hplain
  | true =>
    obtain ⟨hne, hskip, htrim, hinside, hquote⟩ := isPlain_iff.mp hplain
    rw [hf.delimited.skipBlank_append, hskip, readString?_append hf hne hquote hinside, htrim,
      String.ofList_toList] at h
    cases h
    exact ⟨beq_self_eq_true s, fun _ => rfl⟩

end Kind

/-! ### The text of an elementary value -/

theorem not_mem_markers {p : Char → Bool} (hp : markers.any p = false) {c : Char}
    (hc : p c = true) : c ∉ markers :=
  fun hm => List.any_eq_false.mp hp c hm hc

theorem not_mem_markers_digits (n : Nat) : ∀ c ∈ Nat.toDigits 10 n, c ∉ markers :=
  fun _ hc => not_mem_markers (p := Text.Decimal.isDigit) (by decide)
    (Numeral.isDigit_of_mem_toDigits hc)

/-- No marker is a hexadecimal digit. -/
theorem not_mem_markers_marked {ds : List Char} {bs : Bytes}
    (h : ds.map Text.Hex.value? = (Text.Hex.digits bs).map Text.Hex.value?) :
    ∀ c ∈ '0' :: 'x' :: ds, c ∉ markers := by
  intro c hc
  rcases List.mem_cons.mp hc with rfl | hc
  · decide
  · rcases List.mem_cons.mp hc with rfl | hc
    · decide
    · exact not_mem_markers (p := Text.Hex.isDigit) (by decide)
        (Text.Hex.isDigit_of_map_value? h c hc)

namespace Value

/-- The text of a value without parts that is no string has none of the grammar's characters. -/
theorem not_mem_markers_text {v : Value} (hv : v.isElementary = true) :
    ∀ c ∈ v.text.toList, c ∉ markers := by
  have hencode : ∀ bs : Bytes, ∀ c ∈ (Text.Hex.encode bs).toList, c ∉ markers := by
    intro bs
    rw [Text.Hex.encode, Text.Hex.toList_marked]
    exact not_mem_markers_marked rfl
  cases v with
  | bool b =>
    have hclear : (text (.bool b)).toList.all (fun c => c ∉ markers) = true := by
      cases b <;> decide
    simpa using hclear
  | int _ n =>
    rw [text, Kind.toList_ofInt]
    split
    · exact List.forall_mem_cons.mpr ⟨by decide, not_mem_markers_digits _⟩
    · exact not_mem_markers_digits _
  | uint _ n =>
    rw [text, Text.Decimal.ofNat, String.toList_ofList]
    exact not_mem_markers_digits _
  | address a =>
    obtain ⟨ds, htext, hds⟩ := a.checksummed_eq
    rw [text, htext]
    exact not_mem_markers_marked hds
  | function f => exact hencode _
  | fixedBytes size w => exact hencode _
  | bytes bs => exact hencode bs
  | string | array | fixedArray | tuple => cases hv

/-- A text that does not begin with a marker starts like a value. -/
theorem starts_of_not_mem_markers {c : Char} (hc : c ∉ markers) (cs : List Char) :
    Starts (c :: cs) := by
  simp only [markers, List.mem_cons, List.not_mem_nil, or_false, not_or] at hc
  obtain ⟨hcomma, hlist, htuple, hspace, htab, -⟩ := hc
  exact ⟨c, cs, rfl, by simp [isDelimiter, hcomma, hlist, htuple], hspace, htab⟩

/-- Only the text of a string may begin in any way. -/
theorem starts_text {v : Value} (hv : ∀ s, v ≠ .string s) : Starts v.text.toList := by
  have hopen : ∀ {c : Char} {cs tail : List Char}, cs = c :: tail → c ∉ markers → Starts cs := by
    rintro c _ tail rfl hc
    exact starts_of_not_mem_markers hc tail
  cases v with
  | bool b => cases b <;> exact hopen rfl (by decide)
  | int _ n => exact starts_ofInt n.toInt
  | uint _ n => exact starts_ofInt (n.toNat : Int)
  | address a =>
    obtain ⟨ds, htext, -⟩ := a.checksummed_eq
    exact hopen htext (by decide)
  | function f => exact starts_encode _
  | fixedBytes size w => exact starts_encode _
  | bytes bs => exact starts_encode bs
  | string s => exact absurd rfl (hv s)
  | array vs => exact hopen (text_of_items? rfl) (by decide)
  | fixedArray vs => exact hopen (text_of_items? rfl) (by decide)
  | tuple vs => exact hopen (text_tuple vs) (by decide)

/-- A part whose strings are plain does not begin as the list around it ends. -/
theorem begins_text {v : Value} {close : Char} (hclose : isDelimiter close = true)
    (h : v.isPlain (some close) = true) : Begins close v.text.toList := by
  cases v with
  | string s =>
    obtain ⟨hne, hskip, -, hinside, -⟩ := Kind.isPlain_iff.mp h
    rw [text]
    cases hs : s.toList with
    | nil => exact absurd hs hne
    | cons c tail =>
      rw [hs] at hskip hinside
      have hblank : (c = ' ' || c = '\t') = false :=
        Bool.eq_false_iff.mpr fun hc => List.dropWhile_eq_self_iff.mp hskip (Nat.succ_pos _) hc
      rw [Bool.or_eq_false_iff, decide_eq_false_iff_not, decide_eq_false_iff_not] at hblank
      exact ⟨c, tail, rfl, (hinside c List.mem_cons_self).2, hblank⟩
  | _ => exact (starts_text (by rintro s h; cases h)).begins hclose

end Value

/-! ## What the readers of containers keep -/

namespace Kind

/-- What is read of a value of a type keeps its lists, tuples and strings just when its strings are
plain, and then leaves what stands behind it, or something that is the start of no end. -/
def Faithful (k : Kind) (v : Value) : Prop :=
  ∀ listEnd rest w rest', Follows listEnd rest → (listEnd = none → ∀ s, v ≠ .string s) →
    k.read? listEnd (skipBlank (v.text.toList ++ rest)) = some (w, rest') →
    v.keptBy w = v.isPlain listEnd ∧
      (v.isPlain listEnd = true → rest' = rest ∨ Value.Starts rest')

/-- Elementary types, and `string`, are faithful to elementary values. -/
theorem faithful_elementary {k : Kind} (hk : k.isElementary = true ∨ k = .string) {v : Value}
    (hv : v.isElementary = true) : k.Faithful v := by
  intro listEnd rest w rest' hf _ h
  have hstarts := Value.starts_text (v := v) (by rintro s rfl; cases hv)
  have hmarkers := Value.not_mem_markers_text hv
  refine ⟨?_, fun _ => ?_⟩
  · cases v <;> first | rfl | cases hv
  rw [(hstarts.append rest).skipBlank] at h
  rcases hk with hk | rfl
  · obtain ⟨left, rfl, used, htext⟩ := (passes_read? hk h).eq_append hf.delimited
    cases left with
    | nil => exact .inl rfl
    | cons c left =>
      have hc : c ∉ markers := hmarkers c (by rw [htext]; simp)
      exact .inr (Value.starts_of_not_mem_markers hc _)
  · simp only [read?, Option.map_eq_some_iff, Prod.exists, Prod.mk.injEq] at h
    obtain ⟨t, _, hread, -, rfl⟩ := h
    have hne : ∀ m ∈ markers, ∀ c ∈ v.text.toList, c ≠ m := by
      rintro m hm c hc rfl
      exact hmarkers c hc hm
    obtain ⟨c, tail, htext, -⟩ := hstarts
    rw [htext] at hread hne
    have hdouble := hne '"' (by decide) c List.mem_cons_self
    have hsingle := hne '\'' (by decide) c List.mem_cons_self
    cases listEnd with
    | none =>
      simp only [List.cons_append, readString?, hdouble, hsingle, decide_false, Bool.or_false,
        Bool.false_eq_true, if_false, Option.some.injEq, Prod.mk.injEq] at hread
      rw [← hread.2, show rest = [] from hf]
      exact .inl rfl
    | some close =>
      have hclose : close ∈ markers := by
        rcases isDelimiter_iff.mp hf.1 with rfl | rfl | rfl <;> decide
      rw [readString?_append hf (List.cons_ne_nil c tail)
        (fun d hd => Option.some.inj hd ▸ ⟨hdouble, hsingle⟩)
        fun d hd => ⟨hne ',' (by decide) d hd, hne close hclose d hd⟩] at hread
      exact .inl (Prod.mk.inj (Option.some.inj hread)).2.symm

/-- The type `string` is faithful to whatever can stand for a string. -/
theorem faithful_string {v : Value} (h : Kind.string.mirrors v = true) :
    Kind.string.Faithful v := by
  cases v with
  | string s =>
    intro listEnd rest w rest' hf hpart hread
    cases listEnd with
    | none => exact absurd rfl (hpart rfl s)
    | some close =>
      simp only [read?, Option.map_eq_some_iff, Prod.exists, Prod.mk.injEq] at hread
      obtain ⟨t, _, hread, rfl, rfl⟩ := hread
      obtain ⟨hkept, hrest⟩ := readString?_part hf hread
      exact ⟨hkept, fun hplain => .inl (hrest hplain)⟩
  | _ => exact faithful_elementary (.inr rfl) h

/-- The first of some parts, and a reader `more` of those after it. -/
theorem kept_cons {listEnd : Option Char} {v w : Value} {vs ws : List Value}
    {mid tail rest rest' : List Char} {more : List Char → Option (List Value × List Char)}
    (hstuck : ∀ cs, Value.Starts cs → more cs = none)
    (hv : v.keptBy w = v.isPlain listEnd ∧
      (v.isPlain listEnd = true → mid = tail ∨ Value.Starts mid))
    (hmore : more mid = some (ws, rest'))
    (ih : more tail = some (ws, rest') →
      Value.keptByAll vs ws = Value.areAllPlain listEnd vs ∧
        (Value.areAllPlain listEnd vs = true → rest' = rest)) :
    Value.keptByAll (v :: vs) (w :: ws) = Value.areAllPlain listEnd (v :: vs) ∧
      (Value.areAllPlain listEnd (v :: vs) = true → rest' = rest) := by
  rw [Value.keptByAll, Value.areAllPlain, hv.1]
  cases hplain : v.isPlain listEnd with
  | false => exact ⟨rfl, nofun⟩
  | true =>
    rw [Bool.true_and, Bool.true_and]
    rcases hv.2 hplain with rfl | hstarts
    · exact ih hmore
    · rw [hstuck mid hstarts] at hmore
      cases hmore

section Lists

variable {α : Type} {item : List Char → Option (α × List Char)} {close : Char}

/-- Only a comma goes on with a list. -/
theorem moreItems?_of_ne {fuel : Nat} {c : Char} (hc : c ≠ ',') (cs : List Char) :
    moreItems? item close fuel (c :: cs) = listEnd? close (c :: cs) := by
  unfold moreItems?
  split
  next heq => exact absurd (List.cons.inj heq).1 hc
  next => rfl

/-- Where a value starts there is no comma, so no further item. -/
theorem moreItems?_starts (hclose : isDelimiter close = true) (fuel : Nat) {cs : List Char}
    (h : Value.Starts cs) : moreItems? item close fuel cs = none := by
  have hend := listEnd?_begins (α := α) (h.begins hclose)
  obtain ⟨c, tail, rfl, hc, -⟩ := h
  have hne : c ≠ ',' := by
    rintro rfl
    cases hc
  rw [moreItems?_of_ne hne, hend]

/-- One more item is read behind a comma, or none is and the list ends there. -/
theorem of_moreItems?_comma (hclose : close ≠ ',') {fuel : Nat} {after rest : List Char}
    {xs : List α} (h : moreItems? item close fuel (',' :: after) = some (xs, rest)) :
    listEnd? close after = some (xs, rest) ∨
    ∃ x xs' mid fuel', xs = x :: xs' ∧ item (skipBlank after) = some (x, mid) ∧
      moreItems? item close fuel' mid = some (xs', rest) := by
  cases fuel with
  | zero =>
    have hnone : listEnd? (α := α) close (',' :: after) = none :=
      listEnd?_begins ⟨',', after, rfl, hclose.symm, by decide, by decide⟩
    rw [moreItems?, hnone] at h
    · cases h
    · intro _ _ hfuel
      cases hfuel
  | succ fuel =>
    rw [moreItems?] at h
    split at h
    next x mid hitem =>
      simp only [Option.map_eq_some_iff, Prod.exists, Prod.mk.injEq] at h
      obtain ⟨xs', _, hmore, rfl, rfl⟩ := h
      exact .inr ⟨x, xs', mid, fuel, rfl, hitem, hmore⟩
    next => exact .inl h

/-- The first item of a list is read behind the bracket, or the list ends there. -/
theorem of_bracketed? {start : Char} {cs rest : List Char} {xs : List α}
    (h : bracketed? item start close (start :: cs) = some (xs, rest)) :
    listEnd? close cs = some (xs, rest) ∨
    ∃ x xs' mid fuel, xs = x :: xs' ∧ item (skipBlank cs) = some (x, mid) ∧
      moreItems? item close fuel mid = some (xs', rest) := by
  rw [bracketed?, if_neg (not_not_intro rfl)] at h
  cases hcs : skipBlank cs with
  | nil => rw [hcs] at h; cases h
  | cons d tail =>
    simp only [hcs] at h
    split at h
    next hd => exact .inl (by rw [listEnd?, hcs, ← h]; exact if_pos hd)
    next =>
      simp only [Option.bind_eq_bind, Option.bind_eq_some_iff, Prod.exists] at h
      obtain ⟨x, mid, hitem, xs', _, hmore, h⟩ := h
      cases h
      exact .inr ⟨x, xs', mid, _, rfl, hitem, hmore⟩

end Lists

variable {item : Kind} {vs ws : List Value} {rest rest' : List Char}

/-- An item is followed by a comma or by the end. -/
theorem follows_tailText {close : Char} (hclose : isDelimiter close = true) (vs : List Value)
    (rest : List Char) : Follows (some close) (Value.tailText vs ++ close :: rest) := by
  refine ⟨hclose, ?_⟩
  cases vs with
  | nil => exact ⟨close, rest, rfl, .inr rfl⟩
  | cons v vs => exact ⟨',', _, rfl, .inl rfl⟩

/-- A list does not end where it has a part left, unless that part is not plain. -/
theorem kept_listEnd? {v : Value} {after : List Char}
    (h : listEnd? ']' (v.text.toList ++ after) = some (ws, rest')) :
    Value.keptByAll (v :: vs) ws = Value.areAllPlain (some ']') (v :: vs) ∧
      (Value.areAllPlain (some ']') (v :: vs) = true → rest' = rest) := by
  obtain rfl : ws = [] := eq_nil_of_listEnd? h
  have hplain : v.isPlain (some ']') = false := by
    refine Bool.eq_false_iff.mpr fun hplain => ?_
    rw [listEnd?_begins ((Value.begins_text rfl hplain).append after)] at h
    cases h
  rw [Value.areAllPlain, hplain]
  exact ⟨rfl, nofun⟩

/-- The items of a list after its first one. -/
theorem kept_moreItems? (hvs : ∀ v ∈ vs, item.Faithful v) {fuel : Nat}
    (h : moreItems? (fun cs => item.read? (some ']') cs) ']' fuel
      (Value.tailText vs ++ ']' :: rest) = some (ws, rest')) :
    Value.keptByAll vs ws = Value.areAllPlain (some ']') vs ∧
      (Value.areAllPlain (some ']') vs = true → rest' = rest) := by
  induction vs generalizing fuel ws with
  | nil =>
    rw [Value.tailText, List.flatMap_nil, List.nil_append, moreItems?_of_ne (by decide),
      listEnd?_close _ (by decide) (by decide)] at h
    cases h
    exact ⟨rfl, fun _ => rfl⟩
  | cons v vs ih =>
    rw [Value.tailText_cons, List.cons_append, List.append_assoc] at h
    rcases of_moreItems?_comma (by decide) h with hend | ⟨w, ws, mid, fuel', rfl, hitem, hmore⟩
    · exact kept_listEnd? hend
    · have hv := hvs v List.mem_cons_self _ _ w mid (follows_tailText rfl vs rest)
        (fun hend => by cases hend) hitem
      exact kept_cons (fun cs => moreItems?_starts rfl fuel') hv hmore
        (ih fun v hv => hvs v (List.mem_cons_of_mem _ hv))

/-- The items of a list. -/
theorem kept_bracketed? (hvs : ∀ v ∈ vs, item.Faithful v)
    (h : bracketed? (fun cs => item.read? (some ']') cs) '[' ']'
      ('[' :: (Value.innerText vs ++ ']' :: rest)) = some (ws, rest')) :
    Value.keptByAll vs ws = Value.areAllPlain (some ']') vs ∧
      (Value.areAllPlain (some ']') vs = true → rest' = rest) := by
  cases vs with
  | nil =>
    cases h
    exact ⟨rfl, fun _ => rfl⟩
  | cons v vs =>
    rw [Value.innerText, List.append_assoc] at h
    rcases of_bracketed? h with hend | ⟨w, ws, mid, fuel, rfl, hitem, hmore⟩
    · exact kept_listEnd? hend
    · have hv := hvs v List.mem_cons_self _ _ w mid (follows_tailText rfl vs rest)
        (fun hend => by cases hend) hitem
      exact kept_cons (fun cs => moreItems?_starts rfl fuel) hv hmore
        (kept_moreItems? fun v hv => hvs v (List.mem_cons_of_mem _ hv))

/-- Only no values mirror no kinds. -/
theorem mirrorAll_nil {vs : List Value} (h : mirrorAll [] vs = true) : vs = [] := by
  cases vs with
  | nil => rfl
  | cons v vs => cases h

/-- Values mirror kinds one by one. -/
theorem mirrorAll_cons {k : Kind} {ks : List Kind} (h : mirrorAll (k :: ks) vs = true) :
    ∃ v vs', vs = v :: vs' ∧ k.mirrors v = true ∧ mirrorAll ks vs' = true := by
  cases vs with
  | nil => cases h
  | cons v vs' => exact ⟨v, vs', rfl, Bool.and_eq_true_iff.mp h⟩

/-- Where a value starts there is no comma, so no further field. -/
theorem readFields?_starts (ks : List Kind) {cs : List Char} (h : Value.Starts cs) :
    readFields? ks false cs = none := by
  have hskip := h.skipBlank
  obtain ⟨c, tail, rfl, hc, -⟩ := h
  have hne : ∀ d, isDelimiter d = true → c ≠ d := by
    rintro d hd rfl
    rw [hc] at hd
    cases hd
  cases ks with
  | nil =>
    rw [readFields?, hskip]
    split
    next heq => exact absurd (List.cons.inj heq).1 (hne ')' rfl)
    next => rfl
  | cons k ks =>
    rw [readFields?, hskip, if_neg Bool.false_ne_true]
    split
    next heq => exact absurd (List.cons.inj heq).1 (hne ',' rfl)
    next => rfl

/-- The fields of a tuple after its first one. -/
theorem kept_readFields? {ks : List Kind} (hks : ∀ k ∈ ks, ∀ v, k.mirrors v = true → k.Faithful v)
    (hvs : mirrorAll ks vs = true)
    (h : readFields? ks false (Value.tailText vs ++ ')' :: rest) = some (ws, rest')) :
    Value.keptByAll vs ws = Value.areAllPlain (some ')') vs ∧
      (Value.areAllPlain (some ')') vs = true → rest' = rest) := by
  induction ks generalizing vs ws with
  | nil =>
    obtain rfl := mirrorAll_nil hvs
    cases h
    exact ⟨rfl, fun _ => rfl⟩
  | cons k ks ih =>
    obtain ⟨v, vs, rfl, hv, hvs⟩ := mirrorAll_cons hvs
    have hcomma : ∀ cs, skipBlank (',' :: cs) = ',' :: cs := fun cs => rfl
    rw [Value.tailText_cons, List.cons_append, List.append_assoc, readFields?] at h
    simp only [Bool.false_eq_true, if_false, hcomma, Option.bind_eq_bind, Option.bind_some,
      Option.bind_eq_some_iff, Prod.exists] at h
    obtain ⟨w, mid, hitem, ws, _, hmore, h⟩ := h
    cases h
    have hkept := hks k List.mem_cons_self v hv _ _ w mid (follows_tailText rfl vs rest)
      (fun hend => by cases hend) hitem
    exact kept_cons (fun cs => readFields?_starts ks) hkept hmore
      (ih (fun k hk => hks k (List.mem_cons_of_mem _ hk)) hvs)

/-- The fields of a tuple. -/
theorem kept_readFields?_first {ks : List Kind}
    (hks : ∀ k ∈ ks, ∀ v, k.mirrors v = true → k.Faithful v) (hvs : mirrorAll ks vs = true)
    (h : readFields? ks true (Value.innerText vs ++ ')' :: rest) = some (ws, rest')) :
    Value.keptByAll vs ws = Value.areAllPlain (some ')') vs ∧
      (Value.areAllPlain (some ')') vs = true → rest' = rest) := by
  cases ks with
  | nil =>
    obtain rfl := mirrorAll_nil hvs
    cases h
    exact ⟨rfl, fun _ => rfl⟩
  | cons k ks =>
    obtain ⟨v, vs, rfl, hv, hvs⟩ := mirrorAll_cons hvs
    rw [Value.innerText, List.append_assoc, readFields?] at h
    simp only [if_true, Option.bind_eq_bind, Option.bind_some, Option.bind_eq_some_iff,
      Prod.exists] at h
    obtain ⟨w, mid, hitem, ws, _, hmore, h⟩ := h
    cases h
    have hkept := hks k List.mem_cons_self v hv _ _ w mid (follows_tailText rfl vs rest)
      (fun hend => by cases hend) hitem
    exact kept_cons (fun cs => readFields?_starts ks) hkept hmore
      (kept_readFields? (fun k hk => hks k (List.mem_cons_of_mem _ hk)) hvs)

/-! ### All types -/

/-- A container is kept when all its items are. -/
theorem keptBy_of_items? {v w : Value} {vs ws : List Value} (hv : v.items? = some vs)
    (hw : w.items? = some ws) : v.keptBy w = Value.keptByAll vs ws := by
  cases v with
  | array vs' =>
    obtain rfl := Option.some.inj hv
    rw [Value.keptBy, hw, Option.any_some]
  | fixedArray vs' =>
    obtain rfl := Option.some.inj hv
    rw [Value.keptBy, hw, Option.any_some]
  | _ => cases hv

/-- A container is plain when all its items are. -/
theorem isPlain_of_items? {v : Value} {vs : List Value} (hv : v.items? = some vs)
    (listEnd : Option Char) : v.isPlain listEnd = Value.areAllPlain (some ']') vs := by
  cases v with
  | array vs' => rw [← Option.some.inj hv, Value.isPlain]
  | fixedArray vs' => rw [← Option.some.inj hv, Value.isPlain]
  | _ => cases hv

/-- Arrays are faithful when their items are. -/
theorem faithful_array {item : Kind} (hitem : ∀ v, item.mirrors v = true → item.Faithful v)
    {v : Value} (h : (Kind.array item).mirrors v = true) : (Kind.array item).Faithful v := by
  intro listEnd rest w rest' _ _ hread
  obtain ⟨vs, hvs, hall⟩ := (Option.any_eq_true _ _).mp h
  rw [List.all_eq_true] at hall
  have hopen : ∀ cs, skipBlank ('[' :: cs) = '[' :: cs := fun cs => rfl
  rw [Value.text_of_items? hvs, List.cons_append, List.append_assoc, List.singleton_append, hopen,
    read?, Option.map_eq_some_iff] at hread
  obtain ⟨⟨ws, _⟩, hlist, heq⟩ := hread
  cases heq
  obtain ⟨hkept, hrest⟩ := kept_bracketed? (fun v hv => hitem v (hall v hv)) hlist
  rw [keptBy_of_items? hvs rfl, isPlain_of_items? hvs]
  exact ⟨hkept, fun hplain => .inl (hrest hplain)⟩

/-- So are arrays of a fixed size. -/
theorem faithful_fixedArray {item : Kind} {size : Nat}
    (hitem : ∀ v, item.mirrors v = true → item.Faithful v) {v : Value}
    (h : (Kind.fixedArray item size).mirrors v = true) :
    (Kind.fixedArray item size).Faithful v := by
  intro listEnd rest w rest' _ _ hread
  obtain ⟨vs, hvs, hall⟩ := (Option.any_eq_true _ _).mp h
  rw [List.all_eq_true] at hall
  have hopen : ∀ cs, skipBlank ('[' :: cs) = '[' :: cs := fun cs => rfl
  rw [Value.text_of_items? hvs, List.cons_append, List.append_assoc, List.singleton_append, hopen,
    read?, Option.bind_eq_bind, Option.bind_eq_some_iff] at hread
  obtain ⟨⟨ws, _⟩, hlist, hread⟩ := hread
  simp only [Option.ite_none_right_eq_some] at hread
  cases hread.2
  obtain ⟨hkept, hrest⟩ := kept_bracketed? (fun v hv => hitem v (hall v hv)) hlist
  rw [keptBy_of_items? hvs rfl, isPlain_of_items? hvs]
  exact ⟨hkept, fun hplain => .inl (hrest hplain)⟩

/-- So are tuples. -/
theorem faithful_tuple {items : List Kind}
    (hitems : ∀ k ∈ items, ∀ v, k.mirrors v = true → k.Faithful v) {v : Value}
    (h : (Kind.tuple items).mirrors v = true) : (Kind.tuple items).Faithful v := by
  intro listEnd rest w rest' _ _ hread
  cases v with
  | tuple vs =>
    have hopen : ∀ cs, skipBlank ('(' :: cs) = '(' :: cs := fun cs => rfl
    rw [Value.text_tuple, List.cons_append, List.append_assoc, List.singleton_append, hopen,
      read?, hopen] at hread
    simp only [Option.map_eq_some_iff, Prod.exists, Prod.mk.injEq] at hread
    obtain ⟨ws, _, hfields, rfl, rfl⟩ := hread
    obtain ⟨hkept, hrest⟩ := kept_readFields?_first hitems h hfields
    exact ⟨hkept, fun hplain => .inl (hrest hplain)⟩
  | _ => cases h

mutual

/-- **The reader of a type keeps what it mirrors just where its strings are plain.** -/
theorem faithful_of_mirrors : (k : Kind) → (v : Value) → k.mirrors v = true → k.Faithful v
  | .array item, _, h => faithful_array (faithful_of_mirrors item) h
  | .fixedArray item _, _, h => faithful_fixedArray (faithful_of_mirrors item) h
  | .tuple items, _, h => faithful_tuple (faithful_of_mirrorAll items) h
  | .string, _, h => faithful_string h
  | .bool, _, h => faithful_elementary (.inl rfl) h
  | .int _, _, h => faithful_elementary (.inl rfl) h
  | .uint _, _, h => faithful_elementary (.inl rfl) h
  | .address, _, h => faithful_elementary (.inl rfl) h
  | .function, _, h => faithful_elementary (.inl rfl) h
  | .fixedBytes _, _, h => faithful_elementary (.inl rfl) h
  | .bytes, _, h => faithful_elementary (.inl rfl) h

theorem faithful_of_mirrorAll :
    (ks : List Kind) → ∀ k ∈ ks, ∀ v, k.mirrors v = true → k.Faithful v
  | k :: ks => List.forall_mem_cons.mpr ⟨faithful_of_mirrors k, faithful_of_mirrorAll ks⟩
  | [] => nofun

end

end Kind

/-! ## The conversion -/

namespace Value

mutual

/-- A value keeps itself. -/
theorem keptBy_self : (v : Value) → v.keptBy v = true
  | .string s => beq_self_eq_true s
  | .array vs => keptByAll_self vs
  | .fixedArray vs => keptByAll_self vs
  | .tuple vs => keptByAll_self vs
  | .bool _ | .int _ _ | .uint _ _ | .address _ | .function _ | .fixedBytes _ _ | .bytes _ => rfl

theorem keptByAll_self : (vs : List Value) → keptByAll vs vs = true
  | v :: vs => Bool.and_eq_true_iff.mpr ⟨keptBy_self v, keptByAll_self vs⟩
  | [] => rfl

end

end Value

/-- **What a conversion keeps.** A value that is converted to a type with its containers and with a
string wherever it has one keeps the lengths of its lists, its tuples and its strings just when it
is of the type already or when each string that is a part of it is plain. -/
theorem coerce_keeps_iff {k : Kind} {v w : Value} (h : k.mirrors v = true)
    (hw : coerce k v = .ok w) :
    v.keptBy w = true ↔ k.holds v = true ∨ v.isPlain none = true := by
  rw [coerce] at hw
  cases hholds : k.holds v with
  | true =>
    rw [if_pos hholds] at hw
    cases hw
    exact ⟨fun _ => .inl rfl, fun _ => v.keptBy_self⟩
  | false =>
    have hstring : ∀ s, v ≠ .string s := by
      rintro s rfl
      cases k with
      | string => rw [Kind.holds] at hholds; cases hholds
      | _ => cases h
    have hread : k.read? none v.text.toList = some (w, []) := by
      rw [if_neg (Bool.eq_false_iff.mp hholds)] at hw
      split at hw
      next w' htext =>
        cases hw
        unfold Kind.ofText? at htext
        split at htext
        next heq => cases htext; exact heq
        next => cases htext
      next => cases hw
    have htext : skipBlank (v.text.toList ++ []) = v.text.toList := by
      rw [List.append_nil, (Value.starts_text hstring).skipBlank]
    obtain ⟨hkept, -⟩ := Kind.faithful_of_mirrors k v h none [] w [] rfl (fun _ => hstring)
      (by rw [htext]; exact hread)
    rw [hkept]
    simp

/-- A string with a comma in it becomes two, and the number behind the list is converted all the
same. -/
theorem comma_splits_string :
    let k : Kind := .tuple [.array .string, .uint 64]
    let v : Value := .tuple [.array [.string "a,b"], .uint 256 1]
    let w : Value := .tuple [.array [.string "a", .string "b"], .uint 64 1]
    k.mirrors v = true ∧ coerce k v = .ok w ∧ v.keptBy w = false :=
  ⟨rfl, rfl, rfl⟩

/-- Without the comma the string is kept. -/
theorem coerce_keeps_iff_plain :
    let k : Kind := .tuple [.array .string, .uint 64]
    let v : Value := .tuple [.array [.string "a b"], .uint 256 1]
    let w : Value := .tuple [.array [.string "a b"], .uint 64 1]
    k.mirrors v = true ∧ coerce k v = .ok w ∧ v.keptBy w = true := by
  have h : (Kind.tuple [.array .string, .uint 64]).mirrors
      (.tuple [.array [.string "a b"], .uint 256 1]) = true := rfl
  have hw : coerce (.tuple [.array .string, .uint 64])
      (.tuple [.array [.string "a b"], .uint 256 1]) =
        .ok (.tuple [.array [.string "a b"], .uint 64 1]) := rfl
  exact ⟨h, hw, (coerce_keeps_iff h hw).mpr (.inr rfl)⟩

end EventRelay.Abi
