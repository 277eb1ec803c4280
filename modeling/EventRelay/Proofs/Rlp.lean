import EventRelay.Chain.Rlp
import EventRelay.Proofs.Digits

/-!
# What is written as RLP is read back

`Rlp.Item` is what RLP writes: a byte string or a list of items. `Rlp.read?` reads the item at the
front of a byte string. It is strict: it takes the shortest of all heads only, lengths without
leading zero bytes, and no head before a byte that stands for itself. So an item that is read was
written in the only way there is.

Main statements:

* `Rlp.read?_encode`, `Rlp.of_read?`: an item is read back, whatever follows it, and what is read
  was written;
* `Rlp.decode?_eq_some_iff`: a byte string is read as an item just when it is what the item is
  written as.
-/

namespace EventRelay.Rlp

/-! ## Items -/

/-- What RLP writes. -/
inductive Item
  | bytes (bs : Bytes)
  | list (items : List Item)

namespace Item

mutual

/-- An item as RLP writes it. -/
def encode : Item → Bytes
  | .bytes bs => ofBytes bs
  | .list items => ofList (encodeAll items)

/-- The items of a list, each as RLP writes it. -/
def encodeAll : List Item → List Bytes
  | [] => []
  | i :: is => i.encode :: encodeAll is

end

/-- How many bytes can follow a head: their count has at most eight bytes. -/
def capacity : Nat := Bytes.capacity 8

mutual

/-- Nothing in an item is longer than a head can say. -/
def Fits : Item → Prop
  | .bytes bs => bs.length < capacity
  | .list items => (encodeAll items).flatten.length < capacity ∧ AllFit items

/-- Nothing in the items of a list is longer than a head can say. -/
def AllFit : List Item → Prop
  | [] => True
  | i :: is => i.Fits ∧ AllFit is

end

end Item

/-! ## The reader -/

/-- The first bytes, as many as are asked for, and the rest. -/
def cut? (count : Nat) (bs : Bytes) : Option (Bytes × Bytes) :=
  if count ≤ bs.length then some (bs.splitAt count) else none

/-- A number without leading zero bytes. -/
def number? (bs : Bytes) : Option Nat :=
  if bs.head? = some 0 then none else some (Bytes.toNat bs)

/-- Whether a byte string is a byte that stands for itself. -/
def alone : Bytes → Bool
  | [b] => b < 0x80
  | _ => false

/-- The bytes that a head announces, and the rest; `code` is what its first byte adds to the base.
A count has bytes of its own only where the first byte cannot hold it. -/
def payload? (code : Nat) (bs : Bytes) : Option (Bytes × Bytes) :=
  if code < 56 then cut? code bs
  else do
    let (digits, rest) ← cut? (code - 55) bs
    let count ← number? digits
    if count < 56 then none else cut? count rest

mutual

/-- The item at the front of a byte string, and the rest. -/
def read? : (fuel : Nat) → Bytes → Option (Item × Bytes)
  | 0, _ => none
  | _ + 1, [] => none
  | fuel + 1, b :: bs =>
    if b.toNat < 128 then some (.bytes [b], bs)
    else if b.toNat < 192 then do
      let (payload, rest) ← payload? (b.toNat - 128) bs
      if alone payload then none else some (.bytes payload, rest)
    else do
      let (payload, rest) ← payload? (b.toNat - 192) bs
      let items ← readAll? fuel payload
      some (.list items, rest)

/-- The items that a byte string consists of. -/
def readAll? : (fuel : Nat) → Bytes → Option (List Item)
  | 0, _ => none
  | _ + 1, [] => some []
  | fuel + 1, b :: bs => do
    let (item, rest) ← read? fuel (b :: bs)
    let items ← readAll? fuel rest
    some (item :: items)

end

/-- The item that a byte string is, with nothing left over. -/
def decode? (bs : Bytes) : Option Item := do
  let (item, rest) ← read? (2 * bs.length) bs
  if rest = [] then some item else none

/-! ## Heads -/

theorem cut?_append (bs rest : Bytes) : cut? bs.length (bs ++ rest) = some (bs, rest) := by
  rw [cut?, if_pos (by simp), List.splitAt_eq, List.take_left, List.drop_left]

/-- What is cut off has the length asked for, and the rest follows it. -/
theorem of_cut? {count : Nat} {xs bs rest : Bytes} (h : cut? count xs = some (bs, rest)) :
    bs.length = count ∧ xs = bs ++ rest := by
  unfold cut? at h
  split at h
  next hle =>
    rw [List.splitAt_eq] at h
    obtain ⟨rfl, rfl⟩ := Prod.mk.inj (Option.some.inj h)
    exact ⟨List.length_take_of_le hle, (List.take_append_drop count xs).symm⟩
  next => cases h

/-- Only the shortest bytes of a number are read as it. -/
theorem number?_eq_some_iff {bs : Bytes} {n : Nat} :
    number? bs = some n ↔ bs = Bytes.minimal n := by
  constructor
  · intro h
    unfold number? at h
    split at h
    next => cases h
    next hhead =>
      obtain rfl := Option.some.inj h
      exact (Bytes.minimal_toNat hhead).symm
  · intro h
    rw [h, number?, if_neg (Bytes.head?_minimal n), Bytes.toNat_minimal]

/-- What the first byte of a head adds to the base, and the other bytes of the head. -/
def heading (count : Nat) : Nat × Bytes :=
  if count < 56 then (count, []) else (55 + (Bytes.minimal count).length, Bytes.minimal count)

/-- A head is its first byte and the bytes of the length. -/
theorem head_eq (base : UInt8) (count : Nat) :
    head base count = (base + UInt8.ofNat (heading count).1) :: (heading count).2 := by
  unfold head heading
  split
  next => rfl
  next =>
    dsimp only
    rw [UInt8.ofNat_add, ← UInt8.add_assoc]
    rfl

/-- The code of a head leaves room for the base. -/
theorem heading_lt {count : Nat} (h : count < Item.capacity) : (heading count).1 < 64 := by
  unfold heading
  split
  next => omega
  next =>
    have := Bytes.length_minimal_le h
    dsimp only
    omega

/-- **What a head announces is what follows it.** -/
theorem payload?_heading (bs rest : Bytes) :
    payload? (heading bs.length).1 ((heading bs.length).2 ++ (bs ++ rest)) = some (bs, rest) := by
  unfold heading payload?
  split
  next => exact cut?_append bs rest
  next hlong =>
    have hne : Bytes.minimal bs.length ≠ [] := fun hnil => by
      have := Bytes.toNat_minimal bs.length
      rw [hnil, Bytes.toNat_nil] at this
      omega
    have hpos := List.length_pos_iff.mpr hne
    rw [if_neg (by dsimp only; omega), Nat.add_sub_cancel_left, cut?_append]
    show (number? _ >>= _) = _
    rw [number?_eq_some_iff.mpr rfl]
    show ite _ _ _ = _
    rw [if_neg hlong, cut?_append]

/-- What is announced has the shortest head. -/
theorem of_payload? {code : Nat} {xs bs rest : Bytes} (hcode : code < 64)
    (h : payload? code xs = some (bs, rest)) :
    bs.length < Item.capacity ∧ code = (heading bs.length).1 ∧
      xs = (heading bs.length).2 ++ (bs ++ rest) := by
  unfold payload? at h
  split at h
  next hshort =>
    obtain ⟨rfl, rfl⟩ := of_cut? h
    have hcapacity : 56 ≤ Item.capacity := by decide
    rw [heading, if_pos hshort]
    exact ⟨by omega, rfl, rfl⟩
  next =>
    obtain ⟨⟨digits, tail⟩, hdigits, h⟩ := Option.bind_eq_some_iff.mp h
    obtain ⟨count, hcount, hpayload⟩ := Option.bind_eq_some_iff.mp h
    obtain ⟨hlength, rfl⟩ := of_cut? hdigits
    obtain rfl := number?_eq_some_iff.mp hcount
    split at hpayload
    next => cases hpayload
    next hlong =>
      obtain ⟨rfl, rfl⟩ := of_cut? hpayload
      have hlt := Bytes.toNat_lt (Bytes.minimal bs.length)
      rw [Bytes.toNat_minimal] at hlt
      have hle : Bytes.capacity (Bytes.minimal bs.length).length ≤ Item.capacity :=
        Nat.pow_le_pow_right (by decide) (by omega)
      rw [heading, if_neg hlong]
      exact ⟨by omega, by dsimp only; omega, rfl⟩

/-! ## One item -/

theorem toNat_add_ofNat (base : UInt8) {code : Nat} (h : base.toNat + code < 256) :
    (base + UInt8.ofNat code).toNat = base.toNat + code := by
  rw [UInt8.toNat_add, UInt8.toNat_ofNat']
  omega

/-- What is written with a head is announced by its first byte. -/
theorem exists_payload? {base : UInt8} (hbase : base.toNat ≤ 192) {bs : Bytes}
    (h : bs.length < Item.capacity) (rest : Bytes) :
    ∃ b xs code, head base bs.length ++ bs ++ rest = b :: xs ∧ code < 64 ∧
      b.toNat = base.toNat + code ∧ payload? code xs = some (bs, rest) := by
  have hcode := heading_lt h
  refine ⟨_, _, _, ?_, hcode, toNat_add_ofNat base (by omega), payload?_heading bs rest⟩
  rw [head_eq, List.cons_append, List.cons_append, List.append_assoc]

/-- And what is announced was written with its head. -/
theorem eq_head_append (base : UInt8) {b : UInt8} {code : Nat} {xs bs rest : Bytes}
    (hcode : code < 64) (hb : b.toNat = base.toNat + code)
    (h : payload? code xs = some (bs, rest)) :
    bs.length < Item.capacity ∧ b :: xs = head base bs.length ++ bs ++ rest := by
  obtain ⟨hfits, rfl, rfl⟩ := of_payload? hcode h
  have hlt := b.toNat_lt
  have hfirst : b = base + UInt8.ofNat (heading bs.length).1 :=
    UInt8.toNat_inj.mp (hb.trans (toNat_add_ofNat base (by omega)).symm)
  refine ⟨hfits, ?_⟩
  rw [head_eq, ← hfirst, List.cons_append, List.cons_append, List.append_assoc]

/-- A byte string that stands alone is one byte below 128. -/
theorem exists_of_alone {bs : Bytes} (h : alone bs = true) : ∃ b, bs = [b] ∧ b < 0x80 := by
  unfold alone at h
  split at h
  next b => exact ⟨b, rfl, of_decide_eq_true h⟩
  next => cases h

theorem ofBytes_of_alone {bs : Bytes} (h : alone bs = true) : ofBytes bs = bs := by
  obtain ⟨b, rfl, hb⟩ := exists_of_alone h
  exact if_pos hb

/-- Any other byte string has its head before it. -/
theorem ofBytes_of_not_alone {bs : Bytes} (h : alone bs = false) :
    ofBytes bs = head 0x80 bs.length ++ bs := by
  unfold ofBytes
  split
  next b => exact if_neg (of_decide_eq_false h)
  next => rfl

/-- A byte string is read back, whatever follows it. -/
theorem read?_ofBytes {bs : Bytes} (h : bs.length < Item.capacity) (fuel : Nat) (rest : Bytes) :
    read? (fuel + 1) (ofBytes bs ++ rest) = some (.bytes bs, rest) := by
  cases halone : alone bs with
  | true =>
    rw [ofBytes_of_alone halone]
    obtain ⟨b, rfl, hb⟩ := exists_of_alone halone
    exact if_pos (UInt8.lt_iff_toNat_lt.mp hb)
  | false =>
    obtain ⟨b, xs, code, heq, hcode, hb, hpayload⟩ :=
      exists_payload? (by decide : (0x80 : UInt8).toNat ≤ 192) h rest
    have hb : b.toNat = 128 + code := hb
    rw [ofBytes_of_not_alone halone, heq, read?, hb, if_neg (by omega), if_pos (by omega),
      Nat.add_sub_cancel_left, hpayload]
    show ite _ _ _ = _
    rw [halone]
    rfl

/-- A list is read back when its items are, whatever follows it. -/
theorem read?_ofList {written : List Bytes} {items : List Item} {fuel : Nat}
    (h : written.flatten.length < Item.capacity)
    (hitems : readAll? fuel written.flatten = some items) (rest : Bytes) :
    read? (fuel + 1) (ofList written ++ rest) = some (.list items, rest) := by
  obtain ⟨b, xs, code, heq, hcode, hb, hpayload⟩ :=
    exists_payload? (by decide : (0xC0 : UInt8).toNat ≤ 192) h rest
  have hb : b.toNat = 192 + code := hb
  rw [ofList, heq, read?, hb, if_neg (by omega), if_neg (by omega), Nat.add_sub_cancel_left,
    hpayload]
  show (readAll? fuel _ >>= _) = _
  rw [hitems]
  rfl

/-- An item that is read is a byte string or a list of what its payload is read as. -/
theorem read?_cases {fuel : Nat} {bs rest : Bytes} {i : Item}
    (h : read? (fuel + 1) bs = some (i, rest)) :
    (∃ payload, payload.length < Item.capacity ∧ i = .bytes payload ∧
      bs = ofBytes payload ++ rest) ∨
    ∃ payload items, payload.length < Item.capacity ∧ readAll? fuel payload = some items ∧
      i = .list items ∧ bs = head 0xC0 payload.length ++ payload ++ rest := by
  cases bs with
  | nil => cases h
  | cons b bs =>
    have hlt := b.toNat_lt
    rw [read?] at h
    split at h
    next hb =>
      obtain ⟨rfl, rfl⟩ := Prod.mk.inj (Option.some.inj h)
      have halone : alone [b] = true := decide_eq_true (UInt8.lt_iff_toNat_lt.mpr hb)
      refine .inl ⟨[b], (by decide : 1 < Item.capacity), rfl, ?_⟩
      rw [ofBytes_of_alone halone]
      rfl
    next =>
      split at h
      next =>
        obtain ⟨⟨payload, rest⟩, hpayload, h⟩ := Option.bind_eq_some_iff.mp h
        dsimp only at h
        split at h
        next => cases h
        next halone =>
          obtain ⟨rfl, rfl⟩ := Prod.mk.inj (Option.some.inj h)
          have hfirst : b.toNat = (0x80 : UInt8).toNat + (b.toNat - 128) := by
            simp only [UInt8.reduceToNat]
            omega
          obtain ⟨hfits, heq⟩ := eq_head_append 0x80 (by omega) hfirst hpayload
          refine .inl ⟨payload, hfits, rfl, ?_⟩
          rw [ofBytes_of_not_alone (by simpa using halone), heq]
      next =>
        obtain ⟨⟨payload, rest⟩, hpayload, h⟩ := Option.bind_eq_some_iff.mp h
        obtain ⟨items, hitems, h⟩ := Option.bind_eq_some_iff.mp h
        obtain ⟨rfl, rfl⟩ := Prod.mk.inj (Option.some.inj h)
        have hfirst : b.toNat = (0xC0 : UInt8).toNat + (b.toNat - 192) := by
          simp only [UInt8.reduceToNat]
          omega
        obtain ⟨hfits, heq⟩ := eq_head_append 0xC0 (by omega) hfirst hpayload
        exact .inr ⟨payload, items, hfits, hitems, rfl, heq⟩

/-- No encoding of bytes is empty. -/
theorem length_ofBytes_pos (bs : Bytes) : 0 < (ofBytes bs).length := by
  cases halone : alone bs with
  | true =>
    obtain ⟨b, rfl, -⟩ := exists_of_alone halone
    rw [ofBytes_of_alone halone]
    exact Nat.one_pos
  | false =>
    rw [ofBytes_of_not_alone halone, head_eq]
    exact Nat.succ_pos _

/-- A head has no more than nine bytes. -/
theorem length_ofBytes_le {bs : Bytes} (h : bs.length < Item.capacity) :
    (ofBytes bs).length ≤ bs.length + 9 := by
  cases halone : alone bs with
  | true =>
    rw [ofBytes_of_alone halone]
    exact Nat.le_add_right _ 9
  | false =>
    have hheading : (heading bs.length).2.length ≤ 8 := by
      unfold heading
      split
      next => exact Nat.zero_le 8
      next => exact Bytes.length_minimal_le h
    rw [ofBytes_of_not_alone halone, head_eq, List.length_append, List.length_cons]
    omega

/-- The head of a list takes at least one byte. -/
theorem length_lt_ofList (written : List Bytes) :
    written.flatten.length < (ofList written).length := by
  rw [ofList, head_eq, List.length_append, List.length_cons]
  omega

theorem Item.length_encode_pos (i : Item) : 0 < i.encode.length := by
  cases i with
  | bytes bs =>
    rw [encode]
    exact length_ofBytes_pos bs
  | list items =>
    rw [encode]
    exact Nat.zero_lt_of_lt (length_lt_ofList _)

/-! ## Lists of byte strings -/

namespace Item

/-- The byte string that an item is. -/
def bytes? : Item → Option Bytes
  | .bytes bs => some bs
  | .list _ => none

/-- The byte strings that an item is a list of. -/
def payloads? : Item → Option (List Bytes)
  | .bytes _ => none
  | .list items => items.mapM bytes?

/-- The payloads of an item are those of a list of byte strings. -/
theorem payloads?_eq_some_iff {i : Item} {payloads : List Bytes} :
    i.payloads? = some payloads ↔ i = .list (payloads.map .bytes) := by
  cases i with
  | bytes bs => exact ⟨nofun, nofun⟩
  | list items =>
    rw [payloads?, list.injEq]
    induction items generalizing payloads with
    | nil => cases payloads <;> simp
    | cons i items ih =>
      rw [List.mapM_cons]
      simp only [bind, Option.bind_eq_some_iff, ih]
      constructor
      · intro h
        obtain ⟨bs, hi, rest, rfl, h⟩ := h
        obtain rfl := Option.some.inj h
        cases i with
        | bytes _ =>
          obtain rfl := Option.some.inj hi
          rfl
        | list _ => cases hi
      · intro h
        cases payloads with
        | nil => cases h
        | cons bs payloads =>
          obtain ⟨rfl, rfl⟩ := List.cons.inj h
          exact ⟨bs, rfl, payloads, rfl, rfl⟩

theorem encodeAll_bytes (payloads : List Bytes) :
    encodeAll (payloads.map .bytes) = payloads.map ofBytes := by
  induction payloads with
  | nil => rfl
  | cons bs payloads ih => rw [List.map_cons, encodeAll, encode, ih, List.map_cons]

/-- Byte strings that are short enough together fit, with nine bytes for each head. -/
theorem allFit_bytes {payloads : List Bytes}
    (h : payloads.flatten.length + 9 * payloads.length < capacity) :
    AllFit (payloads.map .bytes) ∧ (payloads.map ofBytes).flatten.length ≤
      payloads.flatten.length + 9 * payloads.length := by
  induction payloads with
  | nil => exact ⟨trivial, Nat.le_refl 0⟩
  | cons bs payloads ih =>
    rw [List.flatten_cons, List.length_append, List.length_cons] at h
    obtain ⟨hall, hlength⟩ := ih (by omega)
    have hbs : bs.length < capacity := by omega
    have hfirst := length_ofBytes_le hbs
    refine ⟨⟨hbs, hall⟩, ?_⟩
    rw [List.map_cons, List.flatten_cons, List.length_append, List.flatten_cons,
      List.length_append, List.length_cons]
    omega

/-- Byte strings fit into a list when they do with nine bytes more for each. -/
theorem fits_list_bytes {payloads : List Bytes}
    (h : payloads.flatten.length + 9 * payloads.length < capacity) :
    (Item.list (payloads.map .bytes)).Fits := by
  obtain ⟨hall, hlength⟩ := allFit_bytes h
  rw [Fits, encodeAll_bytes]
  exact ⟨by omega, hall⟩

end Item

/-! ## Items within items -/

mutual

/-- **An item is read back**, whatever follows it. -/
theorem read?_encode : (i : Item) → i.Fits → ∀ fuel, 2 * i.encode.length ≤ fuel → ∀ rest,
    read? fuel (i.encode ++ rest) = some (i, rest)
  | .bytes bs, h, fuel, hfuel, rest => by
    rw [Item.encode] at hfuel ⊢
    have hpos := length_ofBytes_pos bs
    obtain ⟨fuel, rfl⟩ := Nat.exists_eq_add_one.mpr (by omega : 0 < fuel)
    exact read?_ofBytes h fuel rest
  | .list items, h, fuel, hfuel, rest => by
    rw [Item.encode] at hfuel ⊢
    have hlt := length_lt_ofList (Item.encodeAll items)
    obtain ⟨fuel, rfl⟩ := Nat.exists_eq_add_one.mpr (by omega : 0 < fuel)
    exact read?_ofList h.1 (readAll?_encodeAll items h.2 fuel (by omega)) rest

/-- Items are read back one after the other, with two steps for each byte. -/
theorem readAll?_encodeAll : (is : List Item) → Item.AllFit is →
    ∀ fuel, 2 * (Item.encodeAll is).flatten.length < fuel →
      readAll? fuel (Item.encodeAll is).flatten = some is
  | [], _, fuel, hfuel => by
    obtain ⟨fuel, rfl⟩ := Nat.exists_eq_add_one.mpr (by omega : 0 < fuel)
    rfl
  | i :: is, h, fuel, hfuel => by
    rw [Item.encodeAll, List.flatten_cons] at hfuel ⊢
    rw [List.length_append] at hfuel
    have hpos := i.length_encode_pos
    obtain ⟨fuel, rfl⟩ := Nat.exists_eq_add_one.mpr (by omega : 0 < fuel)
    obtain ⟨b, bs, hcons⟩ := List.exists_cons_of_ne_nil (List.ne_nil_of_length_pos hpos)
    have hread := read?_encode i h.1 fuel (by omega) (Item.encodeAll is).flatten
    rw [hcons, List.cons_append] at hread ⊢
    rw [readAll?, hread]
    show (readAll? fuel _ >>= _) = _
    rw [readAll?_encodeAll is h.2 fuel (by omega)]
    rfl

end

/-- **What is read was written**, item by item: the only way to write an item is read. -/
theorem of_read? (fuel : Nat) :
    (∀ bs i rest, read? fuel bs = some (i, rest) → bs = i.encode ++ rest ∧ i.Fits) ∧
      ∀ bs is, readAll? fuel bs = some is → bs = (Item.encodeAll is).flatten ∧ Item.AllFit is := by
  induction fuel with
  | zero => exact ⟨nofun, nofun⟩
  | succ fuel ih =>
    constructor
    · intro bs i rest h
      obtain ⟨payload, hfits, rfl, rfl⟩ | ⟨payload, items, hfits, hitems, rfl, rfl⟩ := read?_cases h
      · exact ⟨by rw [Item.encode], hfits⟩
      · obtain ⟨rfl, hall⟩ := ih.2 _ _ hitems
        exact ⟨by rw [Item.encode, ofList], hfits, hall⟩
    · intro bs is h
      cases bs with
      | nil =>
        obtain rfl := Option.some.inj h
        exact ⟨rfl, trivial⟩
      | cons b bs =>
        obtain ⟨⟨item, rest⟩, hitem, h⟩ := Option.bind_eq_some_iff.mp h
        obtain ⟨items, hitems, h⟩ := Option.bind_eq_some_iff.mp h
        obtain rfl := Option.some.inj h
        obtain ⟨hencode, hfits⟩ := ih.1 _ _ _ hitem
        obtain ⟨rfl, hall⟩ := ih.2 _ _ hitems
        exact ⟨hencode, hfits, hall⟩

/-- **A byte string is read as an item just when it is what the item is written as.** -/
theorem decode?_eq_some_iff {bs : Bytes} {i : Item} :
    decode? bs = some i ↔ bs = i.encode ∧ i.Fits := by
  constructor
  · intro h
    obtain ⟨⟨item, rest⟩, hread, h⟩ := Option.bind_eq_some_iff.mp h
    dsimp only at h
    split at h
    next hrest =>
      obtain rfl := Option.some.inj h
      obtain ⟨hencode, hfits⟩ := (of_read? _).1 _ _ _ hread
      rw [hrest, List.append_nil] at hencode
      exact ⟨hencode, hfits⟩
    next => cases h
  · intro h
    obtain ⟨rfl, hfits⟩ := h
    have hread := read?_encode i hfits _ (Nat.le_refl _) []
    rw [List.append_nil] at hread
    exact Option.bind_eq_some_iff.mpr ⟨_, hread, if_pos rfl⟩

end EventRelay.Rlp
