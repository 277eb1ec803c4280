import EventRelay.Json.Basic
import EventRelay.Json.Draft
import EventRelay.Proofs.Literals
import Mathlib.Data.List.DropRight

/-!
# The grammar of JSON

`Draft.Written` is the grammar of JSON, with the draft that a text is written for: gaps anywhere
between tokens, strings with any choice of escapes, numbers. It knows nothing of the reader, which
`Draft.WrittenAs.ofText` compares with it: each text is read as what it is written for. A value is
written by `Json.render` (`writtenAs_str`, `writtenAs_arr`, `writtenAs_obj`).
-/

namespace EventRelay.Json

open Text.Decimal (isDigit)

/-! ## The grammar -/

/-- A run of digits. -/
structure Digits (ds : List Char) : Prop where
  ne_nil : ds ≠ []
  all : ∀ c ∈ ds, isDigit c = true

/-- A sign; `true` for a minus. -/
inductive Sign : Bool → List Char → Prop
  | none : Sign false []
  | plus : Sign false ['+']
  | minus : Sign true ['-']

/-- The exponent of a number, or nothing. -/
inductive Exponent : Option Int → List Char → Prop
  | absent : Exponent none []
  | present {e : Char} {negative : Bool} {s ds : List Char} (he : e = 'e' ∨ e = 'E')
      (hs : Sign negative s) (hds : Digits ds) :
      Exponent (some (if negative then -Text.Decimal.value ds else Text.Decimal.value ds))
        (e :: (s ++ ds))

/-- The point and the digits after it, or nothing. -/
inductive Fraction : List Char → List Char → Prop
  | absent : Fraction [] []
  | present {ds : List Char} (hds : Digits ds) : Fraction ds ('.' :: ds)

/-- The text of a number: no other digit stands behind a zero in front. -/
inductive Number.Written : Number → List Char → Prop
  | intro {negative : Bool} {s whole fraction p x : List Char} {e : Option Int}
      (hs : Sign negative s) (hplus : s ≠ ['+']) (hwhole : Digits whole)
      (hzero : ∀ d ds, whole ≠ '0' :: d :: ds) (hfraction : Fraction fraction p)
      (he : Exponent e x) :
      Number.Written ⟨negative, whole, fraction, e.getD 0, fraction.isEmpty && e.isNone⟩
        (s ++ (whole ++ (p ++ x)))

namespace Draft

/-- Four hexadecimal digits and their number. -/
inductive FourDigits : Nat → List Char → Prop
  | intro {a b c d : Char} {i j k l : Nat} (ha : Text.Hex.value? a = some i)
      (hb : Text.Hex.value? b = some j) (hc : Text.Hex.value? c = some k)
      (hd : Text.Hex.value? d = some l) :
      FourDigits (((i * 16 + j) * 16 + k) * 16 + l) [a, b, c, d]

/-- The characters that may follow a backslash, and what they then stand for. -/
def shortEscapes : List (Char × Char) :=
  [('"', '"'), ('\\', '\\'), ('/', '/'), ('n', '\n'), ('r', '\r'), ('t', '\t'),
   ('b', Char.ofNat 8), ('f', Char.ofNat 12)]

/-- Whether a number is the first half of a character. -/
abbrev IsHigh (u : Nat) : Prop := 0xD800 ≤ u ∧ u < 0xDC00

/-- Whether a number is the second half of a character. -/
abbrev IsLow (u : Nat) : Prop := 0xDC00 ≤ u ∧ u < 0xE000

/-- What stands between the quotes of a string literal: each character for itself or as an escape,
which may be two for the halves of one. `none` when a half stands alone. -/
inductive Spells : Option (List Char) → List Char → Prop
  | nil : Spells (some []) []
  | plain {c : Char} {s : Option (List Char)} {t : List Char} (hlow : 0x20 ≤ c.toNat)
      (hquote : c ≠ '"') (hslash : c ≠ '\\') (h : Spells s t) :
      Spells (s.map (c :: ·)) (c :: t)
  | short {e c : Char} {s : Option (List Char)} {t : List Char} (he : (e, c) ∈ shortEscapes)
      (h : Spells s t) : Spells (s.map (c :: ·)) ('\\' :: e :: t)
  | unit {u : Nat} {ds : List Char} {s : Option (List Char)} {t : List Char}
      (hu : ¬ IsHigh u ∧ ¬ IsLow u) (hds : FourDigits u ds) (h : Spells s t) :
      Spells (s.map (Char.ofNat u :: ·)) ('\\' :: 'u' :: (ds ++ t))
  | pair {u v : Nat} {ds es : List Char} {s : Option (List Char)} {t : List Char} (hu : IsHigh u)
      (hv : IsLow v) (hds : FourDigits u ds) (hes : FourDigits v es) (h : Spells s t) :
      Spells (s.map (Char.ofNat (0x10000 + (u - 0xD800) * 0x400 + (v - 0xDC00)) :: ·))
        ('\\' :: 'u' :: (ds ++ '\\' :: 'u' :: (es ++ t)))
  | high {u : Nat} {ds : List Char} {s : Option (List Char)} {t : List Char} (hu : IsHigh u)
      (hds : FourDigits u ds) (h : Spells s t)
      (halone : ∀ v es t', IsLow v → FourDigits v es → t ≠ '\\' :: 'u' :: (es ++ t')) :
      Spells none ('\\' :: 'u' :: (ds ++ t))
  | low {u : Nat} {ds : List Char} {s : Option (List Char)} {t : List Char} (hu : IsLow u)
      (hds : FourDigits u ds) (h : Spells s t) : Spells none ('\\' :: 'u' :: (ds ++ t))

/-- What a piece of a text can be written for: a value with the gaps around it, or what stands
between the brackets of a list or an object. -/
inductive Phrase
  | value (d : Draft)
  | items (ds : List Draft)
  | members (ms : List (Option String × Draft))

/-- The grammar of JSON, with what its phrases are written for. -/
inductive Written : Phrase → List Char → Prop
  | before {p : Phrase} {c : Char} {t : List Char} (hc : isGap c = true) (h : Written p t) :
      Written p (c :: t)
  | after {d : Draft} {c : Char} {t : List Char} (hc : isGap c = true)
      (h : Written (.value d) t) : Written (.value d) (t ++ [c])
  | null : Written (.value .null) ['n', 'u', 'l', 'l']
  | true : Written (.value (.bool true)) ['t', 'r', 'u', 'e']
  | false : Written (.value (.bool false)) ['f', 'a', 'l', 's', 'e']
  | num {n : Number} {t : List Char} (h : n.Written t) : Written (.value (.num n)) t
  | str {s : Option (List Char)} {t : List Char} (h : Spells s t) :
      Written (.value (.str (s.map String.ofList))) ('"' :: (t ++ ['"']))
  | arr {ds : List Draft} {t : List Char} (h : Written (.items ds) t) :
      Written (.value (.arr ds true)) ('[' :: (t ++ [']']))
  | obj {ms : List (Option String × Draft)} {t : List Char} (h : Written (.members ms) t) :
      Written (.value (.obj ms true)) ('\x7b' :: (t ++ ['\x7d']))
  | noItem : Written (.items []) []
  | lastItem {d : Draft} {t : List Char} (h : Written (.value d) t) : Written (.items [d]) t
  | item {d e : Draft} {ds : List Draft} {t ts : List Char} (h : Written (.value d) t)
      (hs : Written (.items (e :: ds)) ts) : Written (.items (d :: e :: ds)) (t ++ ',' :: ts)
  | noMember : Written (.members []) []
  | lastMember {n : Option (List Char)} {d : Draft} {s g t : List Char} (hn : Spells n s)
      (hg : ∀ c ∈ g, isGap c = true) (h : Written (.value d) t) :
      Written (.members [(n.map String.ofList, d)]) ('"' :: (s ++ '"' :: (g ++ ':' :: t)))
  | member {n : Option (List Char)} {d : Draft} {m : Option String × Draft}
      {ms : List (Option String × Draft)} {s g t ts : List Char} (hn : Spells n s)
      (hg : ∀ c ∈ g, isGap c = true) (h : Written (.value d) t)
      (hs : Written (.members (m :: ms)) ts) :
      Written (.members ((n.map String.ofList, d) :: m :: ms))
        ('"' :: (s ++ '"' :: (g ++ ':' :: (t ++ ',' :: ts))))

/-- A draft is what a text is written for. -/
def WrittenAs (d : Draft) (s : String) : Prop := Written (.value d) s.toList

end Draft

/-! ## Numbers are read -/

theorem isGap_iff {c : Char} : Draft.isGap c = true ↔ c = ' ' ∨ c = '\n' ∨ c = '\t' ∨ c = '\r' := by
  simp [Draft.isGap, or_assoc]

/-- Whether a value may end before a text. -/
def Closes (rest : List Char) : Prop :=
  ∀ c ∈ rest.head?, Draft.isGap c = true ∨ c = ',' ∨ c = ']' ∨ c = '\x7d'

theorem Closes.cons {c : Char} (hc : Draft.isGap c = true ∨ c = ',' ∨ c = ']' ∨ c = '\x7d')
    (cs : List Char) : Closes (c :: cs) := by
  intro c' hc'
  obtain rfl := Option.some.inj hc'
  exact hc

/-- What may follow a number belongs to none. -/
theorem Closes.ne {rest : List Char} (h : Closes rest) :
    ∀ c ∈ rest.head?, isDigit c = false ∧ c ≠ '.' ∧ ¬ (c = 'e' ∨ c = 'E') := by
  intro c hc
  obtain hgap | rfl | rfl | rfl := h c hc
  · obtain rfl | rfl | rfl | rfl := isGap_iff.mp hgap <;> decide
  all_goals decide

/-- A run of digits begins with a digit. -/
theorem Digits.exists_cons {ds : List Char} (h : Digits ds) :
    ∃ d ds', ds = d :: ds' ∧ isDigit d = true := by
  obtain ⟨d, ds', rfl⟩ := List.exists_cons_of_ne_nil h.ne_nil
  exact ⟨d, ds', rfl, h.all d List.mem_cons_self⟩

/-- A run of digits ends before what is no digit. -/
theorem Digits.span {ds rest : List Char} (h : Digits ds)
    (hrest : ∀ c ∈ rest.head?, isDigit c = false) :
    (ds ++ rest).takeWhile isDigit = ds ∧ (ds ++ rest).dropWhile isDigit = rest :=
  span_append h.all hrest

theorem Exponent.exponent {e : Option Int} {x rest : List Char} (h : Exponent e x)
    (hrest : Closes rest) : Draft.exponent (x ++ rest) = some (e, rest) := by
  cases h with
  | absent =>
    cases rest with
    | nil => rfl
    | cons c cs =>
      have hc : ¬ (decide (c = 'e') || decide (c = 'E')) = true := by
        simpa using (hrest.ne c rfl).2.2
      simp only [List.nil_append, Draft.exponent]
      rw [if_neg hc]
  | @present e negative s ds he hs hds =>
    obtain ⟨htake, hdrop⟩ := hds.span fun c hc => (hrest.ne c hc).1
    have he' : (decide (e = 'e') || decide (e = 'E')) = true := by simpa using he
    have hempty : ¬ ds.isEmpty = true := by simpa using hds.ne_nil
    simp only [List.cons_append, List.append_assoc, Draft.exponent]
    rw [if_pos he']
    cases hs with
    | plus | minus =>
      simp only [List.cons_append, List.nil_append, htake, hdrop]
      rw [if_neg hempty]
    | none =>
      obtain ⟨d, ds', rfl, hd⟩ := hds.exists_cons
      rw [List.nil_append]
      split
      · next heq =>
        cases heq
        cases hd
      · next heq =>
        cases heq
        cases hd
      · simp only [htake, hdrop]
        rw [if_neg hempty]

/-- What follows the digits of a number is none of them. -/
theorem Exponent.ne {e : Option Int} {x rest : List Char} (h : Exponent e x)
    (hrest : Closes rest) : ∀ c ∈ (x ++ rest).head?, isDigit c = false ∧ c ≠ '.' := by
  cases h with
  | absent => exact fun c hc => ⟨(hrest.ne c hc).1, (hrest.ne c hc).2.1⟩
  | present he _ _ =>
    intro c hc
    obtain rfl := Option.some.inj hc
    obtain rfl | rfl := he <;> decide

/-- What follows the digits of a number up to the point is no digit. -/
theorem Fraction.ne {f p rest : List Char} (h : Fraction f p)
    (hrest : ∀ c ∈ rest.head?, isDigit c = false) : ∀ c ∈ (p ++ rest).head?, isDigit c = false := by
  cases h with
  | absent => exact hrest
  | present _ =>
    intro c hc
    obtain rfl := Option.some.inj hc
    rfl

/-- A number begins with a minus or a digit. -/
theorem Number.Written.exists_cons {n : Number} {t : List Char} (h : n.Written t) :
    ∃ c t', t = c :: t' ∧ (c = '-' ∨ isDigit c = true) := by
  obtain ⟨hs, hplus, hwhole, -, -, -⟩ := h
  cases hs with
  | plus => exact absurd rfl hplus
  | minus => exact ⟨'-', _, rfl, .inl rfl⟩
  | none =>
    obtain ⟨d, ds, rfl, hd⟩ := hwhole.exists_cons
    exact ⟨d, _, rfl, .inr hd⟩

theorem Number.Written.number {n : Number} {t rest : List Char} (h : n.Written t)
    (hrest : Closes rest) : Draft.number (t ++ rest) = some (n, rest) := by
  obtain @⟨negative, s, whole, fraction, p, x, e, hs, hplus, hwhole, hzero, hfraction, he⟩ := h
  have hexp := he.exponent hrest
  have hend := he.ne hrest
  have hempty : ¬ whole.isEmpty = true := by simpa using hwhole.ne_nil
  obtain ⟨htake, hdrop⟩ := hwhole.span (hfraction.ne fun c hc => (hend c hc).1)
  simp only [List.append_assoc]
  unfold Draft.number
  split
  next neg cs hsign =>
  obtain ⟨rfl, rfl⟩ : negative = neg ∧ whole ++ (p ++ (x ++ rest)) = cs := by
    obtain ⟨d, ds, rfl, hd⟩ := hwhole.exists_cons
    cases hs with
    | plus => exact absurd rfl hplus
    | minus => exact Prod.mk.inj hsign
    | none =>
      rw [List.nil_append] at hsign
      split at hsign
      · next heq =>
        cases heq
        cases hd
      · exact Prod.mk.inj hsign
  simp only [htake, hdrop]
  have hzero' : ¬ (whole.isEmpty || false) = true := by simpa using hempty
  rw [if_neg hzero']
  cases hfraction with
  | absent =>
    simp only [List.nil_append]
    generalize x ++ rest = tail at hexp hend
    cases tail with
    | nil => simp only [hexp]
    | cons c cs =>
      have hc : c ≠ '.' := (hend c rfl).2
      simp [hexp, hc]
  | present hds =>
    obtain ⟨htake, hdrop⟩ := hds.span fun c hc => (hend c hc).1
    have hempty : ¬ fraction.isEmpty = true := by simpa using hds.ne_nil
    simp only [List.cons_append, htake, hdrop]
    rw [if_neg hempty]
    simp only [hexp]

namespace Draft

/-! ## Strings are read -/

theorem FourDigits.unit? {u : Nat} {ds : List Char} (h : FourDigits u ds) (rest : List Char) :
    unit? (ds ++ rest) = some (u, rest) := by
  obtain ⟨ha, hb, hc, hd⟩ := h
  simp only [List.cons_append, List.nil_append, Draft.unit?, ha, hb, hc, hd, Option.bind_eq_bind,
    Option.bind_some, Option.pure_def]

/-- Where an escape by number is spelled, its digits are. -/
theorem Spells.fourDigits {s : Option (List Char)} {t rest second : List Char} (h : Spells s t)
    (ht : t ++ '"' :: rest = '\\' :: 'u' :: second) :
    ∃ v es t', FourDigits v es ∧ t = '\\' :: 'u' :: (es ++ t') := by
  cases h with
  | nil => cases ht
  | plain _ _ hslash _ => exact absurd (List.cons.inj ht).1 hslash
  | @short e c _ _ he _ =>
    obtain rfl : e = 'u' := (List.cons.inj (List.cons.inj ht).2).1
    simp [shortEscapes] at he
  | unit _ hds _ | high _ hds _ _ | low _ hds _ => exact ⟨_, _, _, hds, rfl⟩
  | pair _ _ hds _ _ => exact ⟨_, _, _, hds, rfl⟩

theorem piece_plain {c : Char} (hlow : 0x20 ≤ c.toNat) (hquote : c ≠ '"') (hslash : c ≠ '\\')
    (rest : List Char) : piece (c :: rest) = .char c rest := by
  have h : (decide (c.toNat < 0x20) || decide (c = '\\')) = false := by
    simp [hslash, Nat.not_lt.mpr hlow]
  rw [piece, if_neg (Bool.eq_false_iff.mp h)]
  · exact hquote
  · exact fun _ h => absurd h hslash
  · exact fun _ _ h => absurd h hslash

theorem piece_short {e c : Char} (h : (e, c) ∈ shortEscapes) (rest : List Char) :
    piece ('\\' :: e :: rest) = .char c rest := by
  simp only [shortEscapes, List.mem_cons, Prod.mk.injEq, List.not_mem_nil, or_false] at h
  obtain ⟨rfl, rfl⟩ | ⟨rfl, rfl⟩ | ⟨rfl, rfl⟩ | ⟨rfl, rfl⟩ | ⟨rfl, rfl⟩ | ⟨rfl, rfl⟩ | ⟨rfl, rfl⟩ |
    ⟨rfl, rfl⟩ := h <;> rfl

theorem piece_unit {u : Nat} {ds : List Char} (hds : FourDigits u ds) (hhigh : ¬ IsHigh u)
    (hlow : ¬ IsLow u) (rest : List Char) :
    piece ('\\' :: 'u' :: (ds ++ rest)) = .char (Char.ofNat u) rest := by
  simp only [piece, hds.unit?]
  rw [if_neg hhigh, if_neg hlow]

theorem piece_low {u : Nat} {ds : List Char} (hds : FourDigits u ds) (hu : IsLow u)
    (rest : List Char) : piece ('\\' :: 'u' :: (ds ++ rest)) = .half rest := by
  have hhigh : ¬ IsHigh u := fun h => absurd h.2 (Nat.not_lt.mpr hu.1)
  simp only [piece, hds.unit?]
  rw [if_neg hhigh, if_pos hu]

theorem piece_pair {u v : Nat} {ds es : List Char} (hds : FourDigits u ds)
    (hes : FourDigits v es) (hu : IsHigh u) (hv : IsLow v) (rest : List Char) :
    piece ('\\' :: 'u' :: (ds ++ '\\' :: 'u' :: (es ++ rest))) =
      .char (Char.ofNat (0x10000 + (u - 0xD800) * 0x400 + (v - 0xDC00))) rest := by
  simp only [piece, hds.unit?, hes.unit?]
  rw [if_pos hu, if_pos hv]

theorem piece_high {u : Nat} {ds rest : List Char} (hds : FourDigits u ds) (hu : IsHigh u)
    (hrest : ∀ second, rest = '\\' :: 'u' :: second →
      ∃ v tail, Draft.unit? second = some (v, tail) ∧ ¬ IsLow v) :
    piece ('\\' :: 'u' :: (ds ++ rest)) = .half rest := by
  simp only [piece, hds.unit?]
  rw [if_pos hu]
  split
  · next second =>
    obtain ⟨v, tail, hunit, hv⟩ := hrest second rfl
    simp only [hunit]
    rw [if_neg hv]
  · rfl

/-- What was read and what is yet to be read, as one string. -/
def joined (acc s : Option (List Char)) : Option String :=
  acc.bind fun r => s.map fun cs => String.ofList (r.reverse ++ cs)

/-- A text is read as the rest of a string that ends behind it. -/
def Finishes (s : Option (List Char)) (t rest : List Char) : Prop :=
  ∀ fuel acc, t.length < fuel → string fuel acc (t ++ '"' :: rest) = some (joined acc s, rest)

theorem Finishes.char {p t rest : List Char} {s : Option (List Char)} {c : Char} (hp : p ≠ [])
    (hpiece : piece (p ++ (t ++ '"' :: rest)) = .char c (t ++ '"' :: rest))
    (h : Finishes s t rest) : Finishes (s.map (c :: ·)) (p ++ t) rest := by
  intro fuel acc hfuel
  obtain ⟨fuel, rfl⟩ := Nat.exists_eq_add_one_of_ne_zero (Nat.ne_zero_of_lt hfuel)
  have hjoined : joined (acc.map (c :: ·)) s = joined acc (s.map (c :: ·)) := by
    cases acc <;> cases s <;> simp only [joined, Option.map_none, Option.map_some,
      Option.bind_none, Option.bind_some, List.reverse_cons, List.append_assoc,
      List.singleton_append]
  have hpos := List.length_pos_iff.mpr hp
  rw [List.length_append] at hfuel
  rw [List.append_assoc, string, hpiece, ← hjoined]
  exact h fuel _ (by omega)

theorem Finishes.half {p t rest : List Char} {s : Option (List Char)} (hp : p ≠ [])
    (hpiece : piece (p ++ (t ++ '"' :: rest)) = .half (t ++ '"' :: rest))
    (h : Finishes s t rest) : Finishes none (p ++ t) rest := by
  intro fuel acc hfuel
  obtain ⟨fuel, rfl⟩ := Nat.exists_eq_add_one_of_ne_zero (Nat.ne_zero_of_lt hfuel)
  have hjoined : joined acc none = joined none s := by cases acc <;> rfl
  have hpos := List.length_pos_iff.mpr hp
  rw [List.length_append] at hfuel
  rw [List.append_assoc, string, hpiece, hjoined]
  exact h fuel none (by omega)

/-- What is spelled is read, up to the quote behind it. -/
theorem Spells.finishes {s : Option (List Char)} {t : List Char} (h : Spells s t)
    (rest : List Char) : Finishes s t rest := by
  induction h with
  | nil =>
    intro fuel acc hfuel
    obtain ⟨fuel, rfl⟩ := Nat.exists_eq_add_one_of_ne_zero (Nat.ne_zero_of_lt hfuel)
    rw [List.nil_append, string, piece_quote]
    cases acc <;> simp [joined]
  | @plain c _ _ hlow hquote hslash _ ih =>
    exact ih.char (p := [c]) (List.cons_ne_nil _ _) (piece_plain hlow hquote hslash _)
  | @short e c _ _ he _ ih =>
    exact ih.char (p := ['\\', e]) (List.cons_ne_nil _ _) (piece_short he _)
  | @unit u ds _ _ hu hds _ ih =>
    exact ih.char (p := '\\' :: 'u' :: ds) (List.cons_ne_nil _ _) (piece_unit hds hu.1 hu.2 _)
  | @pair u v ds es _ t hu hv hds hes _ ih =>
    have hpiece : piece ('\\' :: 'u' :: (ds ++ '\\' :: 'u' :: es) ++ (t ++ '"' :: rest)) =
        .char (Char.ofNat (0x10000 + (u - 0xD800) * 0x400 + (v - 0xDC00))) (t ++ '"' :: rest) := by
      simpa only [List.cons_append, List.append_assoc] using piece_pair hds hes hu hv _
    simpa only [List.cons_append, List.append_assoc] using ih.char (List.cons_ne_nil _ _) hpiece
  | @high u ds _ t hu hds h halone ih =>
    refine ih.half (p := '\\' :: 'u' :: ds) (List.cons_ne_nil _ _)
      (piece_high hds hu fun second ht => ?_)
    obtain ⟨v, es, t', hes, rfl⟩ := h.fourDigits ht
    refine ⟨v, t' ++ '"' :: rest, ?_, fun hv => halone v es t' hv hes rfl⟩
    obtain rfl : es ++ (t' ++ '"' :: rest) = second := by simpa using ht
    exact hes.unit? _
  | @low u ds _ _ hu hds _ ih =>
    exact ih.half (p := '\\' :: 'u' :: ds) (List.cons_ne_nil _ _) (piece_low hds hu _)

/-- A string literal is read behind its opening quote. -/
theorem Spells.string {s : Option (List Char)} {t : List Char} (h : Spells s t)
    (rest : List Char) :
    Draft.string ((t ++ '"' :: rest).length + 1) (some []) (t ++ '"' :: rest) =
      some (s.map String.ofList, rest) := by
  have hlen : t.length < (t ++ '"' :: rest).length + 1 := by
    rw [List.length_append]
    omega
  exact h.finishes rest _ _ hlen

/-! ## Values are read -/

theorem skipGap_cons {c : Char} (h : isGap c = true) (cs : List Char) :
    skipGap (c :: cs) = skipGap cs :=
  List.dropWhile_cons_of_pos h

theorem skipGap_append {g : List Char} (h : ∀ c ∈ g, isGap c = true) (cs : List Char) :
    skipGap (g ++ cs) = skipGap cs :=
  List.dropWhile_append_of_pos h

theorem skipGap_skipGap (cs : List Char) : skipGap (skipGap cs) = skipGap cs :=
  List.dropWhile_idempotent _ _

theorem value_congr {cs cs' : List Char} (h : skipGap cs = skipGap cs') (fuel : Nat) :
    value fuel cs = value fuel cs' := by
  cases fuel with
  | zero => rw [value_zero, value_zero]
  | succ fuel => simp only [value, h]

theorem items_congr {cs cs' : List Char} (h : skipGap cs = skipGap cs') (fuel : Nat) :
    items fuel cs = items fuel cs' := by
  cases fuel with
  | zero => rw [items_zero, items_zero]
  | succ fuel => simp only [items, value_congr h]

theorem members_congr {cs cs' : List Char} (h : skipGap cs = skipGap cs') (fuel : Nat) :
    members fuel cs = members fuel cs' := by
  cases fuel with
  | zero => rw [members_zero, members_zero]
  | succ fuel => simp only [members, h]

variable {fuel : Nat} {cs rest : List Char}

theorem value_string {s : Option (List Char)} {t : List Char}
    (hcs : skipGap cs = '"' :: (t ++ '"' :: rest)) (h : Spells s t) :
    value (fuel + 1) cs = (.str (s.map String.ofList), some rest) := by
  rw [value, hcs]
  simp only [h.string]

/-- No list goes on with its end. -/
theorem items_of_close (h : skipGap cs = ']' :: rest) : (items fuel cs).2.1 = false := by
  obtain _ | _ | fuel := fuel
  · rfl
  · rfl
  · have hvalue : value (fuel + 1) cs = (.fault, none) := by
      rw [value, h]
      rfl
    rw [items, hvalue]

theorem value_arr {tail : List Char} {ds : List Draft} (hcs : skipGap cs = '[' :: tail)
    (h : items fuel tail = (ds, true, some rest)) :
    value (fuel + 1) cs = (.arr ds true, some rest) := by
  have hitems : items fuel (skipGap tail) = (ds, true, some rest) := by
    rw [items_congr (skipGap_skipGap tail), h]
  rw [value, hcs]
  simp only
  split
  · next hclose =>
    have hopen : (items fuel tail).2.1 = false := items_of_close hclose
    rw [h] at hopen
    cases hopen
  · rw [hitems]

theorem value_obj {tail : List Char} {ms : List (Option String × Draft)}
    (hcs : skipGap cs = '\x7b' :: tail) (h : members fuel tail = (ms, true, some rest)) :
    value (fuel + 1) cs = (.obj ms true, some rest) := by
  have hmembers : members fuel (skipGap tail) = (ms, true, some rest) := by
    rw [members_congr (skipGap_skipGap tail), h]
  rw [value, hcs]
  simp only
  split
  · next hclose =>
    exfalso
    cases fuel with
    | zero => cases h
    | succ fuel =>
      rw [members, hclose] at h
      cases h
  · rw [hmembers]

theorem value_num {c : Char} {t : List Char} {n : Number} (hcs : skipGap cs = c :: t)
    (hc : c = '-' ∨ isDigit c = true) (h : number (c :: t) = some (n, rest)) :
    value (fuel + 1) cs = (.num n, some rest) := by
  have hother : c ≠ '"' ∧ c ≠ '[' ∧ c ≠ '\x7b' ∧ c ≠ 'n' ∧ c ≠ 't' ∧ c ≠ 'f' := by
    refine ⟨?_, ?_, ?_, ?_, ?_, ?_⟩ <;> (rintro rfl; revert hc; decide)
  obtain ⟨hquote, hlist, hobject, hn, ht, hf⟩ := hother
  rw [value, hcs]
  simp [*]

/-- How the reader goes over a phrase. -/
def Reads : Phrase → List Char → Prop
  | .value d, t => ∀ fuel rest, t.length < fuel → Closes rest →
    ∃ rest', value fuel (t ++ rest) = (d, some rest') ∧ skipGap rest' = skipGap rest
  | .items ds, t => ∀ rest, (ds = [] ∧ skipGap (t ++ ']' :: rest) = ']' :: rest) ∨
    ∀ fuel, t.length + 1 < fuel → items fuel (t ++ ']' :: rest) = (ds, true, some rest)
  | .members ms, t => ∀ rest, (ms = [] ∧ skipGap (t ++ '\x7d' :: rest) = '\x7d' :: rest) ∨
    ∀ fuel, t.length < fuel → members fuel (t ++ '\x7d' :: rest) = (ms, true, some rest)

namespace Reads

variable {d : Draft} {t ts : List Char}

theorem before {p : Phrase} {c : Char} (hc : isGap c = true) (h : Reads p t) :
    Reads p (c :: t) := by
  cases p with
  | value d =>
    intro fuel rest hfuel hrest
    rw [List.cons_append, value_congr (skipGap_cons hc _)]
    exact h fuel rest (Nat.lt_of_succ_lt hfuel) hrest
  | items ds =>
    intro rest
    rw [List.cons_append, skipGap_cons hc]
    refine (h rest).imp_right fun h fuel hfuel => ?_
    rw [items_congr (skipGap_cons hc _)]
    exact h fuel (Nat.lt_of_succ_lt hfuel)
  | members ms =>
    intro rest
    rw [List.cons_append, skipGap_cons hc]
    refine (h rest).imp_right fun h fuel hfuel => ?_
    rw [members_congr (skipGap_cons hc _)]
    exact h fuel (Nat.lt_of_succ_lt hfuel)

theorem after {c : Char} (hc : isGap c = true) (h : Reads (.value d) t) :
    Reads (.value d) (t ++ [c]) := by
  intro fuel rest hfuel _
  rw [List.length_append] at hfuel
  obtain ⟨rest', hread, hrest'⟩ := h fuel (c :: rest) (Nat.lt_of_add_right_lt hfuel)
    (Closes.cons (.inl hc) rest)
  rw [List.append_assoc, List.singleton_append]
  exact ⟨rest', hread, hrest'.trans (skipGap_cons hc rest)⟩

theorem num {n : Number} (h : n.Written t) : Reads (.value (.num n)) t := by
  intro fuel rest hfuel hrest
  obtain ⟨fuel, rfl⟩ := Nat.exists_eq_add_one_of_ne_zero (Nat.ne_zero_of_lt hfuel)
  obtain ⟨c, t', rfl, hc⟩ := h.exists_cons
  have hskip : skipGap (c :: t' ++ rest) = c :: (t' ++ rest) := by
    refine List.dropWhile_cons_of_neg ?_
    obtain rfl | hc := hc
    · decide
    · intro hgap
      obtain rfl | rfl | rfl | rfl := isGap_iff.mp hgap <;> cases hc
  exact ⟨rest, value_num hskip hc (h.number hrest), rfl⟩

theorem str {s : Option (List Char)} (h : Spells s t) :
    Reads (.value (.str (s.map String.ofList))) ('"' :: (t ++ ['"'])) := by
  intro fuel rest hfuel _
  obtain ⟨fuel, rfl⟩ := Nat.exists_eq_add_one_of_ne_zero (Nat.ne_zero_of_lt hfuel)
  have htext : '"' :: (t ++ ['"']) ++ rest = '"' :: (t ++ '"' :: rest) := by simp
  rw [htext]
  exact ⟨rest, value_string rfl h, rfl⟩

theorem arr {ds : List Draft} (h : Reads (.items ds) t) :
    Reads (.value (.arr ds true)) ('[' :: (t ++ [']'])) := by
  intro fuel rest hfuel hrest
  obtain ⟨fuel, rfl⟩ := Nat.exists_eq_add_one_of_ne_zero (Nat.ne_zero_of_lt hfuel)
  rw [List.length_cons, List.length_append, List.length_singleton] at hfuel
  have htext : '[' :: (t ++ [']']) ++ rest = '[' :: (t ++ ']' :: rest) := by simp
  rw [htext]
  refine ⟨rest, ?_, rfl⟩
  obtain ⟨rfl, hclose⟩ | h := h rest
  · have hskip : skipGap ('[' :: (t ++ ']' :: rest)) = '[' :: (t ++ ']' :: rest) := rfl
    rw [value, hskip]
    simp only [hclose]
  · exact value_arr rfl (h fuel (by omega))

theorem obj {ms : List (Option String × Draft)} (h : Reads (.members ms) t) :
    Reads (.value (.obj ms true)) ('\x7b' :: (t ++ ['\x7d'])) := by
  intro fuel rest hfuel hrest
  obtain ⟨fuel, rfl⟩ := Nat.exists_eq_add_one_of_ne_zero (Nat.ne_zero_of_lt hfuel)
  rw [List.length_cons, List.length_append, List.length_singleton] at hfuel
  have htext : '\x7b' :: (t ++ ['\x7d']) ++ rest = '\x7b' :: (t ++ '\x7d' :: rest) := by simp
  rw [htext]
  refine ⟨rest, ?_, rfl⟩
  obtain ⟨rfl, hclose⟩ | h := h rest
  · have hskip : skipGap ('\x7b' :: (t ++ '\x7d' :: rest)) = '\x7b' :: (t ++ '\x7d' :: rest) := rfl
    rw [value, hskip]
    simp only [hclose]
  · exact value_obj rfl (h fuel (by omega))

theorem lastItem (h : Reads (.value d) t) : Reads (.items [d]) t := by
  intro rest
  refine .inr fun fuel hfuel => ?_
  obtain ⟨fuel, rfl⟩ := Nat.exists_eq_add_one_of_ne_zero (Nat.ne_zero_of_lt hfuel)
  obtain ⟨rest', hread, hrest'⟩ := h fuel (']' :: rest) (Nat.lt_of_succ_lt_succ hfuel)
    (Closes.cons (by simp) rest)
  have hskip : skipGap rest' = ']' :: rest := hrest'
  simp only [items, hread, hskip]

theorem item {e : Draft} {ds : List Draft} (h : Reads (.value d) t)
    (hs : Reads (.items (e :: ds)) ts) : Reads (.items (d :: e :: ds)) (t ++ ',' :: ts) := by
  intro rest
  refine .inr fun fuel hfuel => ?_
  obtain ⟨fuel, rfl⟩ := Nat.exists_eq_add_one_of_ne_zero (Nat.ne_zero_of_lt hfuel)
  rw [List.length_append, List.length_cons] at hfuel
  obtain ⟨rest', hread, hrest'⟩ := h fuel (',' :: (ts ++ ']' :: rest)) (by omega)
    (Closes.cons (by simp) _)
  have hskip : skipGap rest' = ',' :: (ts ++ ']' :: rest) := hrest'
  obtain ⟨hnil, -⟩ | hs := hs rest
  · cases hnil
  · simp only [List.append_assoc, List.cons_append, items, hread, hskip, hs fuel (by omega)]

theorem lastMember {n : Option (List Char)} {s g : List Char} (hn : Spells n s)
    (hg : ∀ c ∈ g, isGap c = true) (h : Reads (.value d) t) :
    Reads (.members [(n.map String.ofList, d)]) ('"' :: (s ++ '"' :: (g ++ ':' :: t))) := by
  intro rest
  refine .inr fun fuel hfuel => ?_
  obtain ⟨fuel, rfl⟩ := Nat.exists_eq_add_one_of_ne_zero (Nat.ne_zero_of_lt hfuel)
  simp only [List.length_append, List.length_cons] at hfuel
  obtain ⟨rest', hread, hrest'⟩ := h fuel ('\x7d' :: rest) (by omega) (Closes.cons (by simp) rest)
  have hname : skipGap ('"' :: (s ++ '"' :: (g ++ ':' :: (t ++ '\x7d' :: rest)))) =
      '"' :: (s ++ '"' :: (g ++ ':' :: (t ++ '\x7d' :: rest))) := rfl
  have hcolon : skipGap (g ++ ':' :: (t ++ '\x7d' :: rest)) = ':' :: (t ++ '\x7d' :: rest) :=
    skipGap_append hg _
  have hskip : skipGap rest' = '\x7d' :: rest := hrest'
  simp only [List.append_assoc, List.cons_append, members, hname, hn.string, hcolon, hread, hskip]

theorem member {n : Option (List Char)} {m : Option String × Draft}
    {ms : List (Option String × Draft)} {s g : List Char} (hn : Spells n s)
    (hg : ∀ c ∈ g, isGap c = true) (h : Reads (.value d) t) (hs : Reads (.members (m :: ms)) ts) :
    Reads (.members ((n.map String.ofList, d) :: m :: ms))
      ('"' :: (s ++ '"' :: (g ++ ':' :: (t ++ ',' :: ts)))) := by
  intro rest
  refine .inr fun fuel hfuel => ?_
  obtain ⟨fuel, rfl⟩ := Nat.exists_eq_add_one_of_ne_zero (Nat.ne_zero_of_lt hfuel)
  simp only [List.length_append, List.length_cons] at hfuel
  obtain ⟨rest', hread, hrest'⟩ := h fuel (',' :: (ts ++ '\x7d' :: rest)) (by omega)
    (Closes.cons (by simp) _)
  have hname : skipGap ('"' :: (s ++ '"' :: (g ++ ':' :: (t ++ ',' :: (ts ++ '\x7d' :: rest))))) =
      '"' :: (s ++ '"' :: (g ++ ':' :: (t ++ ',' :: (ts ++ '\x7d' :: rest)))) := rfl
  have hcolon : skipGap (g ++ ':' :: (t ++ ',' :: (ts ++ '\x7d' :: rest))) =
      ':' :: (t ++ ',' :: (ts ++ '\x7d' :: rest)) := skipGap_append hg _
  have hskip : skipGap rest' = ',' :: (ts ++ '\x7d' :: rest) := hrest'
  obtain ⟨hnil, -⟩ | hs := hs rest
  · cases hnil
  · simp only [List.append_assoc, List.cons_append, members, hname, hn.string, hcolon, hread,
      hskip, hs fuel (by omega)]

end Reads

/-- **The reader goes over all that the grammar allows.** -/
theorem Written.reads {p : Phrase} {t : List Char} (h : Written p t) : Reads p t := by
  induction h with
  | before hc _ ih => exact ih.before hc
  | after hc _ ih => exact ih.after hc
  | null | true | false =>
    intro fuel rest hfuel _
    obtain ⟨fuel, rfl⟩ := Nat.exists_eq_add_one_of_ne_zero (Nat.ne_zero_of_lt hfuel)
    exact ⟨rest, rfl, rfl⟩
  | num h => exact .num h
  | str h => exact .str h
  | arr _ ih => exact ih.arr
  | obj _ ih => exact ih.obj
  | noItem => exact fun rest => .inl ⟨rfl, rfl⟩
  | lastItem _ ih => exact ih.lastItem
  | item _ _ ih ihs => exact ih.item ihs
  | noMember => exact fun rest => .inl ⟨rfl, rfl⟩
  | lastMember hn hg _ ih => exact .lastMember hn hg ih
  | member hn hg _ _ ih ihs => exact .member hn hg ih ihs

/-- **A text is read as what it is written for**, and to its end. -/
theorem WrittenAs.ofText {d : Draft} {s : String} (h : d.WrittenAs s) :
    Draft.ofText s = (d, true) := by
  obtain ⟨rest, hread, hrest⟩ := Written.reads h (s.toList.length + 1) [] (Nat.lt_succ_self _) nofun
  rw [List.append_nil] at hread
  have hend : skipGap rest = [] := hrest
  simp only [Draft.ofText, hread, hend, List.isEmpty_nil]

end Draft

/-! ## Texts of values -/

open Draft (Spells Written FourDigits)

/-- A character is spelled as it is escaped. -/
theorem Draft.Spells.escape {s : Option (List Char)} {t : List Char} (h : Spells s t) (c : Char) :
    Spells (s.map (c :: ·)) (Json.escape c ++ t) := by
  have hshort {e : Char} (he : (e, c) ∈ Draft.shortEscapes) :
      Spells (s.map (c :: ·)) (['\\', e] ++ t) := .short he h
  unfold Json.escape
  split_ifs with h1 h2 h3 h4 h5 h6 h7 hlow
  · exact hshort (by simp [Draft.shortEscapes, h1])
  · exact hshort (by simp [Draft.shortEscapes, h2])
  · exact hshort (by simp [Draft.shortEscapes, h3])
  · exact hshort (by simp [Draft.shortEscapes, h4])
  · exact hshort (by simp [Draft.shortEscapes, h5])
  · exact hshort (by simp [Draft.shortEscapes, h6])
  · exact hshort (by simp [Draft.shortEscapes, h7])
  · have hvalue : ∀ n < 16, Text.Hex.value? (Nat.digitChar n) = some n := by decide
    have hdigits : FourDigits (((0 * 16 + 0) * 16 + c.toNat / 16) * 16 + c.toNat % 16)
        ['0', '0', Nat.digitChar (c.toNat / 16), Nat.digitChar (c.toNat % 16)] :=
      .intro rfl rfl (hvalue _ (by omega)) (hvalue _ (by omega))
    have hn : ((0 * 16 + 0) * 16 + c.toNat / 16) * 16 + c.toNat % 16 = c.toNat := by omega
    rw [hn] at hdigits
    have hunit := Spells.unit ⟨fun hu => by omega, fun hu => by omega⟩ hdigits h
    rwa [Char.ofNat_toNat] at hunit
  · exact .plain (Nat.not_lt.mp hlow) h1 h2 h

/-- A text is spelled by what its characters are escaped as. -/
theorem spells_escaped (cs : List Char) : Spells (some cs) (cs.flatMap escape) := by
  induction cs with
  | nil => exact .nil
  | cons c cs ih => exact ih.escape c

theorem toList_quote (s : String) :
    (quote s).toList = '"' :: (s.toList.flatMap escape ++ ['"']) := by
  simp [quote]

/-- A string is written as it is quoted. -/
theorem writtenAs_str (s : String) : (Json.str s).draft.WrittenAs (Json.str s).render := by
  have h := Written.str (spells_escaped s.toList)
  rw [Option.map_some, String.ofList_toList, ← toList_quote] at h
  rw [draft, render]
  exact h

/-- The items of a list are written with commas between them. -/
theorem written_items {js : List Json} (h : ∀ j ∈ js, j.draft.WrittenAs j.render) :
    Written (.items (draftItems js)) ([','].intercalate ((renderItems js).map String.toList)) := by
  induction js with
  | nil => exact .noItem
  | cons j js ih =>
    obtain ⟨hj, hjs⟩ := List.forall_mem_cons.mp h
    cases js with
    | nil =>
      rw [renderItems, renderItems, List.map_singleton, List.intercalate_singleton]
      exact .lastItem hj
    | cons k js =>
      have htext : [','].intercalate ((renderItems (j :: k :: js)).map String.toList) =
          j.render.toList ++
            ',' :: [','].intercalate ((renderItems (k :: js)).map String.toList) := by
        simp [renderItems]
      rw [htext]
      exact .item hj (ih hjs)

/-- The members of an object are written with commas between them. -/
theorem written_members {ms : List (String × Json)}
    (h : ∀ m ∈ ms, m.2.draft.WrittenAs m.2.render) :
    Written (.members (draftMembers ms))
      ([','].intercalate ((renderMembers ms).map String.toList)) := by
  induction ms with
  | nil => exact .noMember
  | cons m ms ih =>
    obtain ⟨n, j⟩ := m
    obtain ⟨hj, hms⟩ := List.forall_mem_cons.mp h
    have hn : some n = (some n.toList).map String.ofList := by
      rw [Option.map_some, String.ofList_toList]
    cases ms with
    | nil =>
      have htext : [','].intercalate ((renderMembers [(n, j)]).map String.toList) =
          '"' :: (n.toList.flatMap escape ++ '"' :: ([] ++ ':' :: j.render.toList)) := by
        simp [renderMembers, toList_quote]
      rw [htext, draftMembers, draftMembers, hn]
      exact .lastMember (spells_escaped _) (List.forall_mem_nil _) hj
    | cons m ms =>
      obtain ⟨k, l⟩ := m
      have htext : [','].intercalate ((renderMembers ((n, j) :: (k, l) :: ms)).map String.toList) =
          '"' :: (n.toList.flatMap escape ++ '"' :: ([] ++ ':' :: (j.render.toList ++
            ',' :: [','].intercalate ((renderMembers ((k, l) :: ms)).map String.toList)))) := by
        simp [renderMembers, toList_quote]
      rw [htext, draftMembers, hn]
      exact .member (spells_escaped _) (List.forall_mem_nil _) hj (ih hms)

/-- A list is written with its items. -/
theorem writtenAs_arr {js : List Json} (h : ∀ j ∈ js, j.draft.WrittenAs j.render) :
    (Json.arr js).draft.WrittenAs (Json.arr js).render := by
  have htext : (Json.arr js).render.toList =
      '[' :: ([','].intercalate ((renderItems js).map String.toList) ++ [']']) := by
    simp [render, String.toList_intercalate]
  rw [Draft.WrittenAs, htext, draft]
  exact .arr (written_items h)

/-- An object is written with its members. -/
theorem writtenAs_obj {ms : List (String × Json)} (h : ∀ m ∈ ms, m.2.draft.WrittenAs m.2.render) :
    (Json.obj ms).draft.WrittenAs (Json.obj ms).render := by
  have htext : (Json.obj ms).render.toList =
      '\x7b' :: ([','].intercalate ((renderMembers ms).map String.toList) ++ ['\x7d']) := by
    simp [render, String.toList_intercalate]
  rw [Draft.WrittenAs, htext, draft]
  exact .obj (written_members h)

theorem writtenAs_null : Json.null.draft.WrittenAs Json.null.render := .null

end EventRelay.Json
