import EventRelay.Proofs.Values
import Mathlib

/-!
# Configurations from files and from values

A document can be loaded from a file or handed over as a finished value. The readers take notice of
where a draft comes from in four places. Two of these make no difference to what is read: the name
of a variant (`Json.Read.variant_text`) and the depth of a description (`Json.Read.json_text`). The
other two do: only a text can write out a price of 2^64 or more, and only a value gives an address
when the list of its bytes ends with a list or an object too many. Both are told by comparing a
value with its plain form, in which neither occurs and which both ways read alike.

Main statement:

* `Config.routes_agree`: what a file and the value of its text have to do with each other.
-/

namespace EventRelay

open Json (Draft Read Source Number Respelled)

namespace Json.Read

variable {α : Type} {r r' : Draft → Read α}

/-! ## Readers that do not depend on where a draft comes from -/

theorem need_congr (h : ∀ d, (r d).toOption = (r' d).toOption) (o : Option Draft) :
    need r o = need r' o :=
  Option.bind_congr fun d _ => h d

theorem orElse_congr (h : ∀ d, (r d).toOption = (r' d).toOption) (default : α)
    (o : Option Draft) : orElse default r o = orElse default r' o := by
  cases o with
  | none => rfl
  | some d => exact h d

theorem optional_congr (h : ∀ d, (r d).toOption = (r' d).toOption) (d : Draft) :
    (optional r d).toOption = (optional r' d).toOption := by
  cases d <;> simp [optional, h]

theorem list_congr (h : ∀ d, (r d).toOption = (r' d).toOption) (d : Draft) :
    (list r d).toOption = (list r' d).toOption := by
  have hitems : ∀ ds, (items r ds).toOption = (items r' ds).toOption := fun ds =>
    toOption_items_congr (List.forall₂_same.mpr fun d _ => h d)
  cases d <;> simp [list, hitems]

/-- A variant is named in a text as it is in a finished value. -/
theorem variant_text (variants : List (String × α)) (d : Draft) :
    (variant variants .text d).toOption = (variant variants .value d).toOption := by
  cases d with
  | str s => cases s <;> rfl
  | obj ms closed =>
    by_cases h : ∃ name, ms = [(name, .null)]
    · obtain ⟨name, rfl⟩ := h
      cases name <;> rfl
    · rw [Json.Form.toOption_variant_obj (not_exists.mp h),
        Json.Form.toOption_variant_obj (not_exists.mp h)]
  | _ => simp [variant]

end Json.Read

theorem Callback.ofDraft_text (d : Draft) :
    (ofDraft .text d).toOption = (ofDraft .value d).toOption := by
  have hfields : ofFields .text = ofFields .value := by
    funext f
    simp only [ofFields, Side.ofDraft, Read.need_congr (Read.variant_text _)]
  rw [toOption_ofDraft, toOption_ofDraft, hfields]
  rfl

theorem Rule.ofDraft_text (d : Draft) :
    (ofDraft .text d).toOption = (ofDraft .value d).toOption := by
  have hcall : ∀ d, (Invocation.ofDraft .text d).toOption =
      (Invocation.ofDraft .value d).toOption := by
    intro d
    rw [Invocation.toOption_ofDraft, Invocation.toOption_ofDraft]
  have hfields : ofFields .text = ofFields .value := by
    funext f
    simp only [ofFields, Read.need_congr hcall,
      Read.orElse_congr (Read.optional_congr Callback.ofDraft_text)]
  rw [toOption_ofDraft, toOption_ofDraft, hfields]
  rfl

/-! ## Addresses -/

namespace Address

/-- Whether a finished value is a list of 21 items that ends with a list or an object. -/
def isCrowded : Json → Bool
  | .arr items =>
    match items.drop 20 with
    | [.arr _] => true
    | [.obj _] => true
    | _ => false
  | _ => false

/-- A crowded list without its last item. -/
def cut (j : Json) : Json :=
  match j with
  | .arr items => if isCrowded j then .arr (items.take 20) else j
  | j => j

/-- A crowded list has 20 items and one more, which is a list or an object. -/
theorem exists_of_isCrowded {j : Json} (h : isCrowded j = true) :
    ∃ items x, j = .arr items ∧ items.drop 20 = [x] ∧ cut j = .arr (items.take 20) ∧
      (Read.byte x.draft).toOption = none ∧ x.draft.isScalar = false := by
  cases j with
  | arr items =>
    have hcut : cut (.arr items) = .arr (items.take 20) := if_pos h
    simp only [isCrowded] at h
    split at h
    · rename_i xs hx
      exact ⟨items, .arr xs, rfl, hx, hcut, rfl, rfl⟩
    · rename_i ms hx
      exact ⟨items, .obj ms, rfl, hx, hcut, rfl, rfl⟩
    · cases h
  | _ => cases h

/-- An address that is not too long is left as it is. -/
theorem cut_of_not_isCrowded {j : Json} (h : isCrowded j = false) : cut j = j := by
  cases j with
  | arr items => exact if_neg (by simp [h])
  | _ => rfl

theorem ofDraft_arr (source : Source) (items : List Json) :
    (ofDraft source (Json.draft (.arr items))).toOption =
      (Read.items Read.byte ((items.take 20).map Json.draft)).toOption.bind fun bytes =>
        if 20 ≤ bytes.length ∧ endsWith source true ((items.drop 20).map Json.draft) then
          some (.ofBytes bytes)
        else none := by
  rw [Json.draft, Json.Draft.draftItems_eq_map, List.map_take, List.map_drop]
  exact toOption_ofItems source _ true

/-- A finished value gives the address that it gives without the item that is too many. -/
theorem ofDraft_value (j : Json) :
    (ofDraft .value j.draft).toOption = (ofDraft .value (cut j).draft).toOption := by
  cases h : isCrowded j with
  | false => rw [cut_of_not_isCrowded h]
  | true =>
    obtain ⟨items, x, rfl, hx, hcut, hbyte, -⟩ := exists_of_isCrowded h
    have hover : endsWith .value true [x.draft] = true := by simp [endsWith, hbyte]
    have hend : (items.take 20).drop 20 = [] := List.drop_eq_nil_of_le (by simp)
    rw [hcut, ofDraft_arr, ofDraft_arr, hx, List.take_take, Nat.min_self, hend, List.map_singleton,
      hover]
    rfl

/-- A text gives the same, but no address when an item is too many. -/
theorem ofDraft_text (j : Json) :
    (ofDraft .text j.draft).toOption =
      if isCrowded j then none else (ofDraft .value (cut j).draft).toOption := by
  cases h : isCrowded j with
  | true =>
    obtain ⟨items, x, rfl, hx, -, -, hscalar⟩ := exists_of_isCrowded h
    have hover : endsWith .text true [x.draft] = false := by simp [endsWith, hscalar]
    rw [ofDraft_arr, hx, List.map_singleton, hover]
    simp
  | false =>
    rw [cut_of_not_isCrowded h]
    cases j with
    | arr items =>
      have hends : endsWith .text true ((items.drop 20).map Json.draft) =
          endsWith .value true ((items.drop 20).map Json.draft) := by
        rcases hx : items.drop 20 with _ | ⟨x, _ | ⟨y, more⟩⟩
        · rfl
        · cases x <;> simp_all [isCrowded, endsWith, Json.draft, Draft.isScalar]
        · simp [endsWith]
      rw [ofDraft_arr, ofDraft_arr, hends]
      rfl
    | _ => rfl

end Address

/-! ## Prices -/

/-- The number of a finished value from 2^64 to 2^128-1. -/
def Json.wide? : Json → Option Nat
  | .num n => n.natural?.filter fun k => 2 ^ 64 ≤ k ∧ k < 2 ^ 128
  | _ => none

/-- The value with 1 in the place of such a number. -/
def Json.narrow (j : Json) : Json := if j.wide?.isSome then .num (.ofNat 1) else j

namespace Json.Number

/-- A natural number of 64 bits stands for itself. -/
theorem numeral?_of_natural? {n : Number} {k : Nat} (h : n.natural? = some k)
    (hk : k < UInt64.size) : n.numeral? = some (.natural (UInt64.ofNat k)) := by
  simp only [natural?, Option.ite_none_right_eq_some, Option.some.injEq] at h
  obtain ⟨hplain, rfl⟩ := h
  simp only [numeral?, hplain, hk, decide_true, Bool.and_self, if_true]

/-- A numeral without a sign is a natural number. -/
theorem natural?_of_numeral? {n : Number} {u : UInt64} (h : n.numeral? = some (.natural u)) :
    n.natural? = some u.toNat := by
  simp only [numeral?] at h
  split at h
  · rename_i hn
    simp only [Bool.and_eq_true, decide_eq_true_eq] at hn
    obtain ⟨hplain, hk⟩ := hn
    cases h
    simp [natural?, hplain, UInt64.toNat_ofNat_of_lt' hk]
  · split at h
    · cases h
    · split at h <;> cases h

/-- A numeral with a sign is a negative number. -/
theorem toInt_neg_of_numeral? {n : Number} {i : Int64} (h : n.numeral? = some (.negative i)) :
    i.toInt < 0 := by
  simp only [numeral?] at h
  split at h
  · cases h
  · split at h
    · rename_i hn
      simp only [Bool.and_eq_true, decide_eq_true_eq] at hn
      obtain ⟨⟨-, hpos⟩, hsize⟩ := hn
      have hmost : 2 * Text.Decimal.value n.whole ≤ 2 ^ 64 := hsize
      cases h
      rw [Int64.toInt_ofInt_of_le (by omega) (by omega)]
      omega
    · split at h <;> cases h

end Json.Number

/-- A finished value holds the natural numbers of 64 bits. -/
theorem Json.Read.word128_value (n : Number) :
    (word128 .value (.num n)).toOption = n.natural?.filter fun k => k < 2 ^ 64 := by
  have hcap : ((Bytes.capacity 16 : Nat) : Int) = 2 ^ 128 := by decide
  have hfilter : (∀ u, n.numeral? ≠ some (.natural u)) →
      (n.natural?.filter fun k => k < 2 ^ 64) = none := by
    intro hnot
    rw [Option.filter_eq_none_iff]
    intro k hk hlt
    exact hnot _ (Number.numeral?_of_natural? hk (of_decide_eq_true hlt))
  cases hn : n.numeral? with
  | none =>
    rw [hfilter (by simp [hn])]
    simp [word128, natural, Draft.shape?, hn]
  | some m =>
    cases m with
    | natural u =>
      have hu : u.toNat < 2 ^ 64 := u.toNat_lt
      rw [Number.natural?_of_numeral? hn, Option.filter_some, if_pos (decide_eq_true hu)]
      simp only [word128, natural, Draft.shape?, hn, hcap]
      rw [if_pos ⟨Int.natCast_nonneg _, by omega⟩, Int.toNat_natCast]
      rfl
    | negative i =>
      have hi := Number.toInt_neg_of_numeral? hn
      rw [hfilter (by simp [hn])]
      simp only [word128, natural, Draft.shape?, hn]
      rw [if_neg (by omega)]
      rfl
    | float f =>
      rw [hfilter (by simp [hn])]
      simp [word128, natural, Draft.shape?, hn]

/-- A text may write out all natural numbers of 128 bits. -/
theorem Json.Read.word128_text (n : Number) :
    (word128 .text (.num n)).toOption = n.natural?.filter fun k => k < 2 ^ 128 := by
  have hcap : Bytes.capacity 16 = 2 ^ 128 := by decide
  cases hn : n.natural? with
  | none => simp [word128, hn]
  | some k =>
    rw [Option.filter_some]
    by_cases hk : k < 2 ^ 128
    · rw [if_pos (decide_eq_true hk)]
      simp only [word128, hn, hcap, if_pos hk]
      rfl
    · rw [if_neg (by simpa using hk)]
      simp only [word128, hn, hcap, if_neg hk]
      rfl

/-- A value with such a number is a number, written out. -/
theorem Json.exists_of_wide? {j : Json} {k : Nat} (h : j.wide? = some k) :
    ∃ n : Number, j = .num n ∧ n.natural? = some k ∧ 2 ^ 64 ≤ k ∧ k < 2 ^ 128 := by
  cases j with
  | num n =>
    obtain ⟨hn, hk⟩ := Option.filter_eq_some_iff.mp h
    exact ⟨n, rfl, hn, of_decide_eq_true hk⟩
  | _ => cases h

/-- A price in a finished value. -/
theorem Json.Read.price_value (j : Json) :
    (optional (word128 .value) j.draft).toOption =
      if j.wide?.isSome then none else (optional (word128 .value) j.narrow.draft).toOption := by
  cases hw : j.wide? with
  | none => simp [narrow, hw]
  | some k =>
    obtain ⟨n, rfl, hn, hk, -⟩ := exists_of_wide? hw
    have hread : (word128 .value (.num n)).toOption = none := by
      rw [word128_value, hn, Option.filter_some, if_neg (by simpa using hk)]
    simp [draft, optional, hread]

/-- A price in a text. -/
theorem Json.Read.price_text (j : Json) :
    (optional (word128 .text) j.draft).toOption =
      (optional (word128 .value) j.narrow.draft).toOption.map fun o => j.wide?.or o := by
  cases hw : j.wide? with
  | some k =>
    obtain ⟨n, rfl, hn, -, hk⟩ := exists_of_wide? hw
    have hread : (word128 .text (.num n)).toOption = some k := by
      rw [word128_text, hn, Option.filter_some, if_pos (decide_eq_true hk)]
    have hone : (word128 .value (.num (.ofNat 1))).toOption = some 1 := by
      rw [word128_value]
      decide
    simp [narrow, hw, draft, optional, hread, hone]
  | none =>
    have hnarrow : j.narrow = j := by simp [narrow, hw]
    rw [hnarrow]
    cases j with
    | num n =>
      have hsame : (word128 .text (.num n)).toOption = (word128 .value (.num n)).toOption := by
        rw [word128_text, word128_value]
        cases hn : n.natural? with
        | none => rfl
        | some k =>
          have hrange : ¬ (2 ^ 64 ≤ k ∧ k < 2 ^ 128) := fun hk => by
            rw [wide?, hn, Option.filter_some, if_pos (decide_eq_true hk)] at hw
            cases hw
          have hiff : (k < 2 ^ 128) = (k < 2 ^ 64) := propext ⟨by omega, by omega⟩
          simp only [Option.filter_some, hiff]
      simp only [draft, optional, toOption_map, hsame, Option.map_map]
      rfl
    | null => rfl
    | _ => simp [draft, optional, word128, natural, Draft.shape?]

/-! ## Descriptions -/

/-- A description that is not too deep is read from a text as from a finished value. -/
theorem Json.Read.json_text {depth : Nat} {d : Draft} (h : d.height ≤ depth) (depth' : Nat) :
    (json .text depth d).toOption = (json .value depth' d).toOption := by
  simp only [json, Draft.toJson?_of_height_le d h (Nat.le_refl _)]

/-! ## Sides -/

namespace ChainConfig

/-- The number of 2^64 or more that a finished side gives as the price of gas. -/
def widePrice? (j : Json) : Option Nat := (j.field? "gas_price_wei" 6).bind Json.wide?

/-- Whether the address of a finished side is a list with an item too many. -/
def isCrowded (j : Json) : Bool := (j.field? "contract_address" 2).any Address.isCrowded

/-- The side with 1 for a price of 2^64 or more, and without the item that is too many. -/
def plain (j : Json) : Json :=
  (j.adjust "contract_address" 2 Address.cut).adjust "gas_price_wei" 6 Json.narrow

/-- The side with the price that a text gives, if there is one. -/
def withPrice (price : Option Nat) (c : ChainConfig) : ChainConfig :=
  { c with gasPrice := price.or c.gasPrice }

/-- The spellings of the fields of a side. -/
def spellings : List (List String) :=
  [["rpc_url"], ["transport"], ["contract_address"], ["abi"], ["abi_path"], ["gas_limit"],
    ["gas_price_wei"]]

theorem names_layout (source : Source) (depth : Nat) : (layout source depth).names = spellings :=
  rfl

/-- A finished side is read by its fields. -/
theorem toOption_ofDraft_draft (source : Source) (depth : Nat) (j : Json) :
    (ofDraft source depth j.draft).toOption =
      (Json.fields? spellings j).bind fun g =>
        ofFields source depth fun i => (g i).map Json.draft := by
  rw [toOption_ofDraft, names_layout, Json.fields?_draft, Option.bind_map]
  rfl

theorem fields?_plain (j : Json) :
    Json.fields? spellings (plain j) = (Json.fields? spellings j).map fun g =>
      Function.update (Function.update g 2 ((g 2).map Address.cut)) 6 ((g 6).map Json.narrow) := by
  rw [plain, ← names_layout .value Json.maxDepth, Json.Layout.fields?_adjust _ rfl,
    Json.Layout.fields?_adjust _ rfl, Option.map_map]
  rfl

/-- By value, an address of too many bytes is read from its first twenty. -/
theorem contract_value (o : Option Json) :
    Read.need (Address.ofDraft .value) (o.map Json.draft) =
      Read.need (Address.ofDraft .value) ((o.map Address.cut).map Json.draft) := by
  cases o with
  | none => rfl
  | some j => exact Address.ofDraft_value j

/-- By text, an address of more than twenty bytes is refused. -/
theorem contract_text (o : Option Json) :
    Read.need (Address.ofDraft .text) (o.map Json.draft) =
      if o.any Address.isCrowded then none
      else Read.need (Address.ofDraft .value) ((o.map Address.cut).map Json.draft) := by
  cases o with
  | none => rfl
  | some j => exact Address.ofDraft_text j

/-- By value, a price that needs more than a word of 64 bits is refused. -/
theorem price_value (o : Option Json) :
    Read.orElse none (Read.optional (Read.word128 .value)) (o.map Json.draft) =
      if (o.bind Json.wide?).isSome then none
      else Read.orElse none (Read.optional (Read.word128 .value))
        ((o.map Json.narrow).map Json.draft) := by
  cases o with
  | none => rfl
  | some j => exact Read.price_value j

/-- By text, such a price is read too. -/
theorem price_text (o : Option Json) :
    Read.orElse none (Read.optional (Read.word128 .text)) (o.map Json.draft) =
      (Read.orElse none (Read.optional (Read.word128 .value))
        ((o.map Json.narrow).map Json.draft)).map fun p => (o.bind Json.wide?).or p := by
  cases o with
  | none => rfl
  | some j => exact Read.price_text j

/-- An interface that is not too deep is read alike by both routes. -/
theorem abi_text {depth : Nat} {o : Option Json} (h : ∀ x ∈ o, x.draft.height ≤ depth)
    (depth' : Nat) :
    Read.orElse none (Read.optional (Read.json .text depth)) (o.map Json.draft) =
      Read.orElse none (Read.optional (Read.json .value depth')) (o.map Json.draft) := by
  cases o with
  | none => rfl
  | some j =>
    have hj := Read.json_text (h j rfl) depth'
    cases j <;> simp_all [Read.orElse, Read.optional, Json.draft]

/-- What a finished side gives is what its plain form gives, unless a price is too large. -/
theorem ofDraft_value (depth : Nat) (j : Json) :
    (ofDraft .value depth j.draft).toOption =
      if (widePrice? j).isSome then none else (ofDraft .value depth (plain j).draft).toOption := by
  rw [toOption_ofDraft_draft, toOption_ofDraft_draft, fields?_plain]
  cases hg : Json.fields? spellings j with
  | none => simp
  | some g =>
    have hwide : widePrice? j = (g 6).bind Json.wide? := by rw [widePrice?, Json.field?_eq hg rfl]
    simp only [Option.map_some, Option.bind_some, ofFields, hwide]
    rw [contract_value (g 2), price_value (g 6)]
    cases ((g 6).bind Json.wide?).isSome with
    | true => simp
    | false => rfl

/-- What a text gives for a side is what the plain form gives with the price as it is written,
unless an address has an item too many. -/
theorem ofDraft_text {depth : Nat} {j : Json} (h : j.draft.height ≤ depth + 1) (depth' : Nat) :
    (ofDraft .text depth j.draft).toOption =
      if isCrowded j then none
      else (ofDraft .value depth' (plain j).draft).toOption.map (withPrice (widePrice? j)) := by
  rw [toOption_ofDraft_draft, toOption_ofDraft_draft, fields?_plain]
  cases hg : Json.fields? spellings j with
  | none => simp
  | some g =>
    have hwide : widePrice? j = (g 6).bind Json.wide? := by rw [widePrice?, Json.field?_eq hg rfl]
    have hcrowded : isCrowded j = (g 2).any Address.isCrowded := by
      rw [isCrowded, Json.field?_eq hg rfl]
    have habi : ∀ x ∈ g 3, x.draft.height ≤ depth := fun x hx =>
      Nat.le_of_lt_succ ((Json.height_lt_of_fields? hg hx).trans_le h)
    have htransport : ∀ d, (Transport.ofDraft .text d).toOption =
        (Transport.ofDraft .value d).toOption := Read.variant_text _
    simp only [Option.map_some, Option.bind_some, ofFields, hwide, hcrowded]
    rw [contract_text (g 2), price_text (g 6), abi_text habi depth',
      Read.orElse_congr (Read.optional_congr htransport)]
    cases (g 2).any Address.isCrowded with
    | true => simp
    | false =>
      simp [withPrice, Option.map_bind, Option.bind_map, Function.comp_def]

/-- The price of a chain is read from its own field. -/
theorem gasPrice_of_ofFields {source : Source} {depth : Nat} {f : Nat → Option Draft}
    {c : ChainConfig} (h : ofFields source depth f = some c) :
    Read.orElse none (Read.optional (Read.word128 source)) (f 6) = some c.gasPrice := by
  simp only [ofFields, Option.bind_eq_bind, Option.bind_eq_some_iff] at h
  obtain ⟨_, -, _, -, _, -, _, -, _, -, _, -, gasPrice, hprice, hc⟩ := h
  cases hc
  exact hprice

/-- The plain form of a side whose price is too large has the price 1. -/
theorem gasPrice_plain {depth : Nat} {j : Json} {c : ChainConfig}
    (h : (ofDraft .value depth (plain j).draft).toOption = some c)
    (hw : (widePrice? j).isSome) : c.gasPrice = some 1 := by
  rw [toOption_ofDraft_draft, fields?_plain] at h
  cases hg : Json.fields? spellings j with
  | none => simp [hg] at h
  | some g =>
    rw [widePrice?, Json.field?_eq hg rfl] at hw
    cases hsix : g 6 with
    | none => simp [hsix] at hw
    | some x =>
      have hnarrow : x.narrow = .num (.ofNat 1) := if_pos (by simpa [hsix] using hw)
      rw [hg, Option.map_some, Option.bind_some] at h
      have hprice := gasPrice_of_ofFields h
      have hone : (Read.word128 .value (.num (.ofNat 1))).toOption = some 1 := by
        rw [Read.word128_value]
        decide
      simpa [hsix, hnarrow, Json.draft, Read.orElse, Read.optional, hone] using hprice.symm

/-- A price of 2^64 or more is as good as 1. -/
theorem check_withPrice {j : Json} {c : ChainConfig}
    (h : (widePrice? j).isSome → c.gasPrice = some 1) :
    (c.withPrice (widePrice? j)).check = c.check := by
  cases hw : widePrice? j with
  | none => rfl
  | some k =>
    obtain ⟨x, -, hx⟩ := Option.bind_eq_some_iff.mp hw
    obtain ⟨_, -, -, hk, -⟩ := Json.exists_of_wide? hx
    have hprice : c.gasPrice = some 1 := h (by simp [hw])
    have hzero : k ≠ 0 := by omega
    simp [check, withPrice, endpoint, hprice, hzero]

end ChainConfig

/-! ## Configurations -/

namespace Config

/-- One side of a finished configuration. -/
def side? (v : Json) : Side → Option Json
  | .pub => v.field? "public" 0
  | .priv => v.field? "private" 1

/-- The number of 2^64 or more that a side gives as the price of gas. -/
def widePrice? (v : Json) (side : Side) : Option Nat := (side? v side).bind ChainConfig.widePrice?

/-- Whether a side gives such a price. -/
def isWide (v : Json) : Bool := (widePrice? v .pub).isSome || (widePrice? v .priv).isSome

/-- Whether a side gives as an address a list with an item too many. -/
def isCrowded (v : Json) : Bool :=
  (side? v .pub).any ChainConfig.isCrowded || (side? v .priv).any ChainConfig.isCrowded

/-- The configuration with both sides plain. -/
def plain (v : Json) : Json :=
  (v.adjust "public" 0 ChainConfig.plain).adjust "private" 1 ChainConfig.plain

/-- The configuration with the prices that a text gives. -/
def withPrices (v : Json) (c : Config) : Config :=
  { c with
    pub := c.pub.withPrice (widePrice? v .pub)
    priv := c.priv.withPrice (widePrice? v .priv) }

/-- The spellings of the fields of a configuration. -/
def spellings : List (List String) :=
  [["public"], ["private"], ["signing_key"], ["poll_interval_ms"], ["receipt_timeout_ms"],
    ["from_block"], ["rules"]]

theorem names_layout (source : Source) : (layout source).names = spellings := rfl

/-- A finished configuration is read by its fields. -/
theorem toOption_ofDraft_draft (source : Source) (v : Json) :
    (ofDraft source v.draft).toOption =
      (Json.fields? spellings v).bind fun g => ofFields source fun i => (g i).map Json.draft := by
  rw [toOption_ofDraft, names_layout, Json.fields?_draft, Option.bind_map]
  rfl

theorem fields?_plain (v : Json) :
    Json.fields? spellings (plain v) = (Json.fields? spellings v).map fun g =>
      Function.update (Function.update g 0 ((g 0).map ChainConfig.plain)) 1
        ((g 1).map ChainConfig.plain) := by
  rw [plain, ← names_layout .value, Json.Layout.fields?_adjust _ rfl,
    Json.Layout.fields?_adjust _ rfl, Option.map_map]
  rfl

/-- By value, a chain with a wide price is refused. -/
theorem side_value (o : Option Json) :
    Read.need (ChainConfig.ofDraft .value abiDepth) (o.map Json.draft) =
      if (o.bind ChainConfig.widePrice?).isSome then none
      else Read.need (ChainConfig.ofDraft .value abiDepth)
        ((o.map ChainConfig.plain).map Json.draft) := by
  cases o with
  | none => rfl
  | some j => exact ChainConfig.ofDraft_value abiDepth j

/-- By text, a chain is read with its wide price, unless its address is too long. -/
theorem side_text {o : Option Json} (h : ∀ j ∈ o, j.draft.height ≤ abiDepth + 1) :
    Read.need (ChainConfig.ofDraft .text abiDepth) (o.map Json.draft) =
      if o.any ChainConfig.isCrowded then none
      else (Read.need (ChainConfig.ofDraft .value abiDepth)
        ((o.map ChainConfig.plain).map Json.draft)).map
          (ChainConfig.withPrice (o.bind ChainConfig.widePrice?)) := by
  cases o with
  | none => rfl
  | some j => exact ChainConfig.ofDraft_text (h j rfl) abiDepth

/-- What a finished configuration gives is what its plain form gives, unless a price is too
large. -/
theorem ofDraft_value (v : Json) :
    (ofDraft .value v.draft).toOption =
      if isWide v then none else (ofDraft .value (plain v).draft).toOption := by
  rw [toOption_ofDraft_draft, toOption_ofDraft_draft, fields?_plain]
  cases hg : Json.fields? spellings v with
  | none => simp
  | some g =>
    have hwide : ∀ side place, side? v side = g place →
        widePrice? v side = (g place).bind ChainConfig.widePrice? :=
      fun side place h => congrArg (Option.bind · ChainConfig.widePrice?) h
    have hpub := hwide .pub 0 (Json.field?_eq hg rfl)
    have hpriv := hwide .priv 1 (Json.field?_eq hg rfl)
    simp only [Option.map_some, Option.bind_some, ofFields, isWide, hpub, hpriv]
    rw [side_value (g 0), side_value (g 1)]
    cases ((g 0).bind ChainConfig.widePrice?).isSome <;>
      cases ((g 1).bind ChainConfig.widePrice?).isSome <;> simp

/-- What a text gives is what the plain form gives with the prices as they are written, unless an
address has an item too many. -/
theorem ofDraft_text {v : Json} (h : v.draft.height ≤ Json.maxDepth) :
    (ofDraft .text v.draft).toOption =
      if isCrowded v then none
      else (ofDraft .value (plain v).draft).toOption.map (withPrices v) := by
  rw [toOption_ofDraft_draft, toOption_ofDraft_draft, fields?_plain]
  cases hg : Json.fields? spellings v with
  | none => simp
  | some g =>
    have hpub : side? v .pub = g 0 := Json.field?_eq hg rfl
    have hpriv : side? v .priv = g 1 := Json.field?_eq hg rfl
    have hdepth : ∀ i, ∀ j ∈ g i, j.draft.height ≤ abiDepth + 1 := fun i j hj =>
      Nat.le_of_lt_succ ((Json.height_lt_of_fields? hg hj).trans_le h)
    simp only [Option.map_some, Option.bind_some, ofFields, isCrowded, hpub, hpriv]
    rw [side_text (hdepth 0), side_text (hdepth 1),
      Read.need_congr (Read.list_congr Rule.ofDraft_text)]
    cases (g 0).any ChainConfig.isCrowded <;> cases (g 1).any ChainConfig.isCrowded <;>
      simp [withPrices, widePrice?, hpub, hpriv, Option.map_bind, Option.bind_map,
        Function.comp_def]

/-- Both chains are read from their own fields. -/
theorem sides_of_ofFields {source : Source} {f : Nat → Option Draft} {c : Config}
    (h : ofFields source f = some c) :
    Read.need (ChainConfig.ofDraft source abiDepth) (f 0) = some c.pub ∧
      Read.need (ChainConfig.ofDraft source abiDepth) (f 1) = some c.priv := by
  simp only [ofFields, Option.bind_eq_bind, Option.bind_eq_some_iff] at h
  obtain ⟨pub, hpub, priv, hpriv, _, -, _, -, _, -, _, -, _, -, hc⟩ := h
  cases hc
  exact ⟨hpub, hpriv⟩

/-- A price of 2^64 or more is checked as 1 is. -/
theorem check_withPrices {v : Json} {c : Config}
    (h : (ofDraft .value (plain v).draft).toOption = some c) :
    (withPrices v c).check = c.check := by
  rw [toOption_ofDraft_draft, fields?_plain] at h
  cases hg : Json.fields? spellings v with
  | none => simp [hg] at h
  | some g =>
    rw [hg, Option.map_some, Option.bind_some] at h
    obtain ⟨hpub, hpriv⟩ := sides_of_ofFields h
    have hside : ∀ {j : Option Json} {c : ChainConfig},
        Read.need (ChainConfig.ofDraft .value abiDepth)
          ((j.map ChainConfig.plain).map Json.draft) = some c →
        (c.withPrice (j.bind ChainConfig.widePrice?)).check = c.check := by
      intro j c hc
      cases j with
      | none => rfl
      | some j => exact ChainConfig.check_withPrice (ChainConfig.gasPrice_plain hc)
    have hpub' : widePrice? v .pub = (g 0).bind ChainConfig.widePrice? :=
      congrArg (Option.bind · ChainConfig.widePrice?) (Json.field?_eq hg rfl)
    have hpriv' : widePrice? v .priv = (g 1).bind ChainConfig.widePrice? :=
      congrArg (Option.bind · ChainConfig.widePrice?) (Json.field?_eq hg rfl)
    have hcheckPub : (c.pub.withPrice (widePrice? v .pub)).check = c.pub.check :=
      hpub' ▸ hside hpub
    have hcheckPriv : (c.priv.withPrice (widePrice? v .priv)).check = c.priv.check :=
      hpriv' ▸ hside hpriv
    simp only [check, withPrices, hcheckPub, hcheckPriv]
    rfl

/-! ## From a value and from a file -/

/-- The configuration as it comes from a file in a directory. -/
def inDirectory (directory : String) (c : Config) : Config :=
  { c with directory := some directory }

theorem toOption_checked (c : Config) :
    c.checked.toOption = if c.check.isOk then some c else none := by
  delta checked
  cases c.check <;> rfl

theorem bind_checked (o : Option Config) :
    (o.bind fun c => c.checked.toOption) = o.filter fun c => c.check.isOk := by
  cases o with
  | none => rfl
  | some c => rw [Option.bind_some, Option.filter_some, toOption_checked]

/-- By value, a configuration is what is read and passes the check. -/
theorem toOption_ofJson (v : Json) :
    (ofJson v).toOption = (ofDraft .value v.draft).toOption.filter fun c => c.check.isOk := by
  simp only [ofJson, toOption_bind, toOption_mapError, bind_checked]

theorem toOption_checked_inDirectory (directory : String) (c : Config) :
    (c.inDirectory directory).checked.toOption =
      c.checked.toOption.map (inDirectory directory) := by
  have hcheck : (c.inDirectory directory).check = c.check := rfl
  rw [toOption_checked, toOption_checked, hcheck]
  split <;> rfl

/-- A file whose text is one value and nothing else is loaded as its draft is read. -/
theorem toOption_load {files : FileTree} {path s : String} (hpath : Path.isJson path = true)
    (hread : files.read path = .ok (some s)) (halone : (Draft.ofText s).2 = true) :
    (load files path).toOption =
      ((ofDraft .text (Draft.ofText s).1).toOption.filter fun c => c.check.isOk).map
        (inDirectory (Path.parent path)) := by
  have hload : load files path = ofText (Path.parent path) s := by
    simp only [load, hpath, hread]
    rfl
  have htext : (readText s).toOption = (ofDraft .text (Draft.ofText s).1).toOption := by
    simp [readText, halone]
  rw [hload, ofText, toOption_bind, toOption_mapError, htext, ← bind_checked, Option.map_bind]
  exact Option.bind_congr fun c _ => toOption_checked_inDirectory _ c

/-- What a file and the value that its text stands for have to do with each other as
configurations. -/
structure Agreement (files : FileTree) (path s : String) (v : Json) : Prop where
  /-- Without too large prices and items too many, both are accepted or neither, and but for the
  directory they are the same configuration. -/
  agree : isWide v = false → isCrowded v = false →
    (load files path).toOption = (ofJson v).toOption.map (inDirectory (Path.parent path))
  /-- The file gives what the plain form of the value gives with the prices as they are written,
  unless an address has an item too many. -/
  file : (load files path).toOption =
    if isCrowded v then none
    else (ofJson (plain v)).toOption.map fun c =>
      (withPrices v c).inDirectory (Path.parent path)
  /-- The value gives what its plain form gives, unless a price is too large. -/
  value : (ofJson v).toOption = if isWide v then none else (ofJson (plain v)).toOption
  /-- A file that says the same gives the same. -/
  fileRespelled : ∀ files' path' s', Path.isJson path' = true → files'.read path' = .ok (some s') →
    (Draft.ofText s').2 = true →
    Relation.EqvGen (Respelled form) (Draft.ofText s).1 (Draft.ofText s').1 →
    (load files' path').toOption =
      (load files path).toOption.map (inDirectory (Path.parent path'))
  /-- A value that says the same gives the same. -/
  valueRespelled : ∀ v', Relation.EqvGen (Respelled form) v.draft v'.draft →
    (ofJson v').toOption = (ofJson v).toOption

/-- The two ways to a configuration agree. -/
theorem routes_agree {files : FileTree} {path s : String} {v : Json}
    (hpath : Path.isJson path = true) (hread : files.read path = .ok (some s))
    (hvalue : Json.parse? s = some v) (hdistinct : (Draft.ofText s).1.distinct = true) :
    Agreement files path s v := by
  obtain ⟨halone, hjson⟩ : (Draft.ofText s).2 = true ∧
      (Draft.ofText s).1.toJson? Json.maxDepth = some v := by
    unfold Json.parse? at hvalue
    split at hvalue
    · rename_i d hd
      rw [hd]
      exact ⟨rfl, hvalue⟩
    · cases hvalue
  -- The draft of the text and that of its value differ in the order of members, which no reader
  -- minds; so both ways read the draft of the value.
  have hsame : Draft.SameMembers (Draft.ofText s).1 v.draft :=
    Draft.sameMembers_toJson? _ hjson hdistinct
  have hdepth : v.draft.height ≤ Json.maxDepth :=
    hsame.height_eq ▸ Draft.height_le_of_toJson? _ hjson
  have hspelled : Relation.EqvGen (Respelled form) (Draft.ofText s).1 v.draft :=
    Relation.EqvGen.mono (fun _ _ h => Respelled.order h) _ _ hsame
  have hfile : (load files path).toOption =
      if isCrowded v then none
      else (ofJson (plain v)).toOption.map fun c =>
        (withPrices v c).inDirectory (Path.parent path) := by
    rw [toOption_load hpath hread halone, (respects_ofDraft .text).toOption_eq hspelled,
      ofDraft_text hdepth, toOption_ofJson]
    cases isCrowded v with
    | true => rfl
    | false =>
      cases hplain : (ofDraft .value (plain v).draft).toOption with
      | none => rfl
      | some c =>
        simp only [Option.map_some, Option.filter_some, check_withPrices hplain, Bool.false_eq_true,
          if_false]
        split <;> rfl
  have hofJson : (ofJson v).toOption = if isWide v then none else (ofJson (plain v)).toOption := by
    rw [toOption_ofJson, ofDraft_value, toOption_ofJson]
    split <;> rfl
  refine ⟨fun hwide hcrowded => ?_, hfile, hofJson, ?_, ?_⟩
  · have hprices : ∀ c, withPrices v c = c := by
      intro c
      simp only [isWide, Bool.or_eq_false_iff, Option.isSome_eq_false_iff,
        Option.isNone_iff_eq_none] at hwide
      simp only [withPrices, hwide.1, hwide.2, ChainConfig.withPrice, Option.none_or]
    rw [hfile, hofJson, hwide, hcrowded]
    simp only [Bool.false_eq_true, if_false, hprices]
  · intro files' path' s' hpath' hread' halone' hs'
    rw [toOption_load hpath hread halone, toOption_load hpath' hread' halone',
      (respects_ofDraft .text).toOption_eq hs', Option.map_map]
    rfl
  · intro v' hv'
    rw [toOption_ofJson, toOption_ofJson, (respects_ofDraft .value).toOption_eq hv']

/-! ### Documents -/

/-- A working directory that holds one file. -/
def folder (text : String) : FileTree := ⟨[(["c.json".toList], text)], [], []⟩

/-- The text of several lines that follow each other. -/
def joined (lines : List String) : String := String.ofList (lines.flatMap String.toList)

/-- Lines that are joined are read as one text. -/
theorem ofText_joined (lines : List String) :
    Draft.ofText (joined lines) =
      match Draft.value ((lines.flatMap String.toList).length + 1)
        (lines.flatMap String.toList) with
      | (d, some rest) => (d, (Draft.skipGap rest).isEmpty)
      | (d, none) => (d, false) := by
  have hlist : (joined lines).toList = lines.flatMap String.toList := String.toList_ofList
  unfold Draft.ofText
  exact hlist ▸ rfl

theorem read_folder (text : String) : (folder text).read "c.json" = .ok (some text) := rfl

/-- A private side that has a price of 2^64. -/
def dearText : String :=
  joined
    ["\x7b\"private\":\x7b\"abi\":[],\"contract_address\":",
      "\"0000000000000000000000000000000000000001\",",
      "\"gas_price_wei\":18446744073709551616,\"rpc_url\":\"ws://a\"\x7d,",
      "\"public\":\x7b\"abi\":[],\"contract_address\":",
      "\"0000000000000000000000000000000000000002\",\"rpc_url\":\"ws://a\"\x7d,",
      "\"rules\":[\x7b\"event_name\":\"E\",\"target_method\":\x7b\"name\":\"m\"\x7d\x7d],",
      "\"signing_key\":\"k\"\x7d"]

/-- The value of that text. -/
def dearValue : Json :=
  .obj
    [("private", .obj [("abi", .arr []),
        ("contract_address", .str "0000000000000000000000000000000000000001"),
        ("gas_price_wei", Json.ofNat 18446744073709551616), ("rpc_url", .str "ws://a")]),
      ("public", .obj [("abi", .arr []),
        ("contract_address", .str "0000000000000000000000000000000000000002"),
        ("rpc_url", .str "ws://a")]),
      ("rules", .arr [.obj
        [("event_name", .str "E"), ("target_method", .obj [("name", .str "m")])]]),
      ("signing_key", .str "k")]

set_option maxRecDepth 10000 in
theorem ofText_dearText : Draft.ofText dearText = (dearValue.draft, true) := by
  refine (ofText_joined _).trans ?_
  cbv

/-- A price of 2^64 is accepted from the file and rejected in the value. -/
theorem routes_agree_dear :
    Agreement (folder dearText) "c.json" dearText dearValue ∧
      (load (folder dearText) "c.json").toOption.isSome = true ∧
      (ofJson dearValue).toOption = none := by
  have hvalue : Json.parse? dearText = some dearValue := by
    rw [Json.parse?, ofText_dearText]
    rfl
  have hagree := routes_agree (by decide) (read_folder dearText) hvalue
    (by rw [ofText_dearText]; decide)
  have hplain : (ofJson (plain dearValue)).toOption.isSome = true := by decide +kernel
  refine ⟨hagree, ?_, ?_⟩
  · rw [hagree.file, if_neg (by decide), Option.isSome_map]
    exact hplain
  · rw [hagree.value, if_pos (by decide)]

/-- A public side whose address is 20 bytes and an empty list. -/
def crowdedText : String :=
  joined
    ["\x7b\"private\":\x7b\"abi\":[],\"contract_address\":",
      "\"0000000000000000000000000000000000000001\",\"rpc_url\":\"ws://a\"\x7d,",
      "\"public\":\x7b\"abi\":[],\"contract_address\":",
      "[0,0,0,0,0,0,0,0,0,0,0,0,0,0,0,0,0,0,0,0,[]],\"rpc_url\":\"ws://a\"\x7d,",
      "\"rules\":[\x7b\"event_name\":\"E\",\"target_method\":\x7b\"name\":\"m\"\x7d\x7d],",
      "\"signing_key\":\"k\"\x7d"]

/-- The value of that text. -/
def crowdedValue : Json :=
  .obj
    [("private", .obj [("abi", .arr []),
        ("contract_address", .str "0000000000000000000000000000000000000001"),
        ("rpc_url", .str "ws://a")]),
      ("public", .obj [("abi", .arr []),
        ("contract_address", .arr (List.replicate 20 (Json.ofNat 0) ++ [.arr []])),
        ("rpc_url", .str "ws://a")]),
      ("rules", .arr [.obj
        [("event_name", .str "E"), ("target_method", .obj [("name", .str "m")])]]),
      ("signing_key", .str "k")]

set_option maxRecDepth 10000 in
theorem ofText_crowdedText : Draft.ofText crowdedText = (crowdedValue.draft, true) := by
  refine (ofText_joined _).trans ?_
  cbv

/-- The value is accepted and the file is not. -/
theorem crowded_address_divides :
    Path.isJson "c.json" = true ∧
      (folder crowdedText).read "c.json" = .ok (some crowdedText) ∧
      Json.parse? crowdedText = some crowdedValue ∧
      (Draft.ofText crowdedText).1.distinct = true ∧ isWide crowdedValue = false ∧
      (load (folder crowdedText) "c.json").toOption.isSome = false ∧
      (ofJson crowdedValue).toOption.isSome = true := by
  have hvalue : Json.parse? crowdedText = some crowdedValue := by
    rw [Json.parse?, ofText_crowdedText]
    rfl
  have hfile : (ofDraft .text crowdedValue.draft).toOption.isSome = false := by decide +kernel
  refine ⟨by decide, read_folder crowdedText, hvalue, ?_, by decide, ?_, by decide +kernel⟩
  · rw [ofText_crowdedText]
    decide
  · rw [toOption_load (by decide) (read_folder crowdedText) (by rw [ofText_crowdedText]),
      ofText_crowdedText, Option.isSome_map]
    cases hread : (ofDraft .text crowdedValue.draft).toOption with
    | none => rfl
    | some c => simp [hread] at hfile

end Config

end EventRelay
