import EventRelay.Proofs.Rlp
import EventRelay.Proofs.Succession
import Mathlib.Algebra.Group.Nat.Defs

/-!
# What a signed transaction says

The bytes that a node is to take are a list of nine items. An `Envelope` is what such a list says to
whoever reads it, and `Envelope.ofBytes?` reads it strictly: numbers without leading zero bytes, an
address of twenty bytes, nothing missing and nothing left over.

Main statements:

* `Envelope.ofBytes?_eq_some_iff`: bytes are read as an envelope just when it is written as them;
* `Sending.submitted_as_asked`: what is handed to a node says what the call asked for.
-/

namespace EventRelay

/-- What the bytes of a signed transaction say. -/
structure Envelope where
  nonce : Nat
  gasPrice : Nat
  gasLimit : Nat
  contract : Address
  value : Nat
  input : Bytes
  v : Nat
  r : Nat
  s : Nat

namespace Envelope

/-- An address is twenty bytes. -/
def address? (bs : Bytes) : Option Address :=
  if bs.length = 20 then some (.ofBytes bs) else none

/-- The envelope that exactly nine byte strings are. -/
def ofPayloads? : List Bytes → Option Envelope
  | [nonce, gasPrice, gasLimit, contract, value, input, v, r, s] => do
    some
      { nonce := ← Rlp.number? nonce
        gasPrice := ← Rlp.number? gasPrice
        gasLimit := ← Rlp.number? gasLimit
        contract := ← address? contract
        value := ← Rlp.number? value
        input := input
        v := ← Rlp.number? v
        r := ← Rlp.number? r
        s := ← Rlp.number? s }
  | _ => none

/-- The envelope that a byte string is, with nothing left over: a list of nine byte strings. -/
def ofBytes? (bs : Bytes) : Option Envelope := do
  ofPayloads? (← (← Rlp.decode? bs).payloads?)

/-- The byte strings that say what the envelope says. -/
def payloads (e : Envelope) : List Bytes :=
  [.minimal e.nonce, .minimal e.gasPrice, .minimal e.gasLimit, e.contract.toBytes, .minimal e.value,
    e.input, .minimal e.v, .minimal e.r, .minimal e.s]

/-- The envelope as an item. -/
def item (e : Envelope) : Rlp.Item := .list (e.payloads.map .bytes)

/-- The bytes of an address are its own bytes and no others. -/
theorem address?_eq_some_iff {bs : Bytes} {a : Address} :
    address? bs = some a ↔ bs = a.toBytes := by
  constructor
  · intro h
    unfold address? at h
    split at h
    next hlength =>
      obtain rfl := Option.some.inj h
      exact (Address.toBytes_ofBytes hlength).symm
    next => cases h
  · intro h
    have hlength : a.toBytes.length = 20 := Bytes.length_ofNat _ _
    rw [h, address?, if_pos hlength, Address.ofBytes_toBytes]

/-- Nine payloads are read as the transaction that has them. -/
theorem ofPayloads?_eq_some_iff {ps : List Bytes} {e : Envelope} :
    ofPayloads? ps = some e ↔ ps = e.payloads := by
  constructor
  · intro h
    unfold ofPayloads? at h
    split at h
    next =>
      simp only [bind, Option.bind_eq_some_iff, Rlp.number?_eq_some_iff, address?_eq_some_iff,
        Option.some.injEq] at h
      obtain ⟨_, rfl, _, rfl, _, rfl, contract, hcontract, _, rfl, _, rfl, _, rfl, _, rfl, rfl⟩ := h
      rw [hcontract, payloads]
    next => cases h
  · intro h
    have hnumber (n : Nat) : Rlp.number? (.minimal n) = some n := Rlp.number?_eq_some_iff.mpr rfl
    have haddress : address? e.contract.toBytes = some e.contract :=
      address?_eq_some_iff.mpr rfl
    rw [h, payloads, ofPayloads?]
    simp only [hnumber, haddress, bind, Option.bind_some]

/-- **Bytes are read as an envelope just when it is written as them.** -/
theorem ofBytes?_eq_some_iff {bs : Bytes} {e : Envelope} :
    ofBytes? bs = some e ↔ bs = e.item.encode ∧ e.item.Fits := by
  unfold ofBytes?
  simp only [bind, Option.bind_eq_some_iff, Rlp.decode?_eq_some_iff,
    Rlp.Item.payloads?_eq_some_iff, ofPayloads?_eq_some_iff]
  constructor
  · intro h
    obtain ⟨i, h, ps, rfl, rfl⟩ := h
    exact h
  · exact fun h => ⟨e.item, h, e.payloads, rfl, rfl⟩

end Envelope

/-! ## Signatures -/

/-- The numbers of a signature are below the order of the curve. -/
theorem Secp256k1.PrivateKey.sign_lt (k : PrivateKey) (digest : Word) :
    (k.sign digest).r < order ∧ (k.sign digest).s < order := by
  have hpos : 0 < order := by decide
  obtain ⟨sig, hsig⟩ : ∃ sig, sig = k.sign digest := ⟨_, rfl⟩
  rw [← hsig]
  unfold sign at hsig
  extract_lets z nonce at hsig
  generalize (Point.multiple nonce .generator).affine = p at hsig
  obtain ⟨x, y⟩ := p
  dsimp only at hsig
  split at hsig
  next hhigh =>
    rw [hsig]
    exact ⟨Nat.mod_lt _ hpos, Nat.sub_lt hpos (Nat.zero_lt_of_lt hhigh)⟩
  next =>
    rw [hsig]
    exact ⟨Nat.mod_lt _ hpos, Nat.mod_lt _ hpos⟩

namespace SignedTransaction

/-- What the transaction says. -/
def envelope (t : SignedTransaction) : Envelope where
  nonce := t.body.nonce.toNat
  gasPrice := t.body.gasPrice
  gasLimit := t.body.gasLimit.toNat
  contract := t.body.call.contract
  value := 0
  input := t.body.call.input
  v := t.v
  r := t.signature.r
  s := t.signature.s

/-- The bytes of a transaction encode its list of nine items. -/
theorem toBytes_eq (t : SignedTransaction) : t.toBytes = t.envelope.item.encode := by
  rw [Envelope.item, Rlp.Item.encode, Rlp.Item.encodeAll_bytes]
  rfl

/-- The transaction fits into a list when its price and its input are those of a program: the other
numbers have at most 32 bytes each. -/
theorem fits_envelope {t : SignedTransaction} (hprice : t.body.gasPrice < 2 ^ 128)
    (hinput : t.body.call.input.length < 2 ^ 63)
    (hr : t.signature.r < Secp256k1.order) (hs : t.signature.s < Secp256k1.order) :
    t.envelope.item.Fits := by
  have hword (n : UInt64) : (Bytes.minimal n.toNat).length ≤ 8 :=
    Bytes.length_minimal_le n.toNat_lt
  have hprice : (Bytes.minimal t.body.gasPrice).length ≤ 16 := Bytes.length_minimal_le hprice
  have hvalue : (Bytes.minimal 0).length ≤ 0 := Bytes.length_minimal_le Nat.one_pos
  have hcontract : t.body.call.contract.toBytes.length = 20 := Bytes.length_ofNat _ _
  have horder : Secp256k1.order ≤ Bytes.capacity 32 := by decide
  have hr : (Bytes.minimal t.signature.r).length ≤ 32 :=
    Bytes.length_minimal_le (Nat.lt_of_lt_of_le hr horder)
  have hs : (Bytes.minimal t.signature.s).length ≤ 32 :=
    Bytes.length_minimal_le (Nat.lt_of_lt_of_le hs horder)
  have hv : (Bytes.minimal t.v).length ≤ 9 := by
    have hchain := t.body.chainId.toNat_lt
    have hparity : (if t.signature.parity then 1 else 0) ≤ 1 := by split <;> decide
    have hlt : t.v < 2 ^ 72 := by
      unfold v
      omega
    exact Bytes.length_minimal_le hlt
  have hcapacity : Rlp.Item.capacity = 2 ^ 64 := rfl
  have hnonce := hword t.body.nonce
  have hlimit := hword t.body.gasLimit
  refine Rlp.Item.fits_list_bytes ?_
  simp only [Envelope.payloads, envelope, List.flatten_cons, List.flatten_nil, List.length_append,
    List.length_cons, List.length_nil]
  omega

end SignedTransaction

namespace Sending

variable {a : Account} {c : Call} {t t' : SignedTransaction} {n nonce : UInt64} {price : Nat}
  {found known : Option UInt64} {hs : List Happening} {cs : List Cause} {s : Sending}

/-! ## What is handed to the node -/

/-- A transaction that the node is to take is asked for in no other state. -/
theorem eq_submitting {side : Side} {answered : Except ChainError Word → Sending}
    (h : s.demand a = .ask side (.submit t) answered) : s = .submitting t := by
  cases s with
  | submitting _ =>
    cases h
    rfl
  | queued _ => cases h
  | counting _ => cases h
  | pricing _ _ _ => cases h
  | accepted _ => cases h
  | leaving _ _ => cases h
  | done _ => cases h

/-- Once its transaction is settled, a call does not come to another. -/
theorem not_turns_of_settled {result : Except ChainError Submitted} (h : s.result? = some result) :
    ¬ Turns a s cs (.submitting t) := by
  intro hturns
  obtain ⟨hs, -, hpath⟩ := path_of_turns hturns
  cases (settled h hpath).2

/-- A call that has its transaction does not come back to it by any turn. -/
theorem eq_nil_of_turns_submitting (h : Turns a (.submitting t) cs (.submitting t')) : cs = [] := by
  cases h with
  | here _ => rfl
  | next first rest =>
    obtain ⟨_, -, hresult⟩ := first.submitted
    exact absurd rest (not_turns_of_settled hresult)

/-- A call with its nonce and its price comes to its transaction at once, if it can be signed. -/
theorem signs_of_withPrice (h : Turns a (withPrice a c known n price) cs (.submitting t)) :
    a.signingError? = none ∧ cs = [] := by
  unfold withPrice at h
  split at h
  next => exact absurd h (not_turns_of_settled rfl)
  next hsigns => exact ⟨hsigns, eq_nil_of_turns_submitting h⟩

/-- A call with its nonce comes to its transaction by learning the price. -/
theorem prices_of_withNonce (h : Turns a (withNonce a c known n) cs (.submitting t)) :
    ∃ price, Prices a price cs := by
  unfold withNonce at h
  split at h
  next price hprice =>
    obtain ⟨-, rfl⟩ := signs_of_withPrice h
    exact ⟨price, .fixed hprice⟩
  next hprice =>
    cases h with
    | next first rest =>
      cases first with
      | priced _ _ _ price =>
        obtain ⟨-, rfl⟩ := signs_of_withPrice rest
        exact ⟨price, .asked hprice price⟩
      | unpriced _ _ _ e => exact absurd rest (not_turns_of_settled rfl)

/-- A turn is told by its cause. -/
theorem Turned.eq {x : Cause} {s₁ s₂ : Sending} (h₁ : Turned a s x s₁) (h₂ : Turned a s x s₂) :
    s₁ = s₂ := by
  cases h₁ <;> cases h₂ <;> rfl

/-- The same answers lead a send to the same point. -/
theorem Turns.eq {s₁ s₂ : Sending} (h₁ : Turns a s cs s₁) (h₂ : Turns a s cs s₂) : s₁ = s₂ := by
  induction h₁ with
  | here _ =>
    cases h₂
    rfl
  | next first _ ih =>
    cases h₂ with
    | next first' rest =>
      obtain rfl := first.eq first'
      exact ih rest

/-- A call hands a transaction to the node, under the nonce that it finds or that the node counts
and at the price that the account has or that the node says. -/
def HandsOver (a : Account) (c : Call) (nonce : UInt64) (price : Nat) (t : SignedTransaction) :
    Prop :=
  ∃ hs found xs ys, Path (turn a) (.queued c) hs (.submitting t) ∧
    hs.map (·.cause) = .acquired a.side found :: (xs ++ ys) ∧ Learns a found nonce xs ∧
      Prices a price ys

/-- Whenever a node is to take a transaction, a call has come to hand it over. -/
theorem exists_handsOver {side : Side} {answered : Except ChainError Word → Sending}
    (h : Path (turn a) (.queued c) hs s) (hask : s.demand a = .ask side (.submit t) answered) :
    ∃ nonce price, HandsOver a c nonce price t := by
  obtain rfl := eq_submitting hask
  have hturns := turns_of_path h
  generalize hcauses : hs.map (·.cause) = cs at hturns
  cases hturns with
  | next first rest =>
    cases first with
    | known _ n =>
      obtain ⟨price, hp⟩ := prices_of_withNonce rest
      exact ⟨n, price, hs, some n, [], _, h, hcauses, .found n, hp⟩
    | unknown _ =>
      cases rest with
      | next first rest =>
        cases first with
        | counted _ n =>
          obtain ⟨price, hp⟩ := prices_of_withNonce rest
          exact ⟨n, price, hs, none, [_], _, h, hcauses, .counted n, hp⟩
        | uncounted _ e => exact absurd rest (not_turns_of_settled rfl)

/-- What is handed over is the call, signed under its nonce and at its price. -/
theorem HandsOver.eq_sign (h : HandsOver a c nonce price t) : t = sign a c nonce price := by
  obtain ⟨hs, found, xs, ys, hpath, hcauses, hlearns, hprices⟩ := h
  have hturns := turns_of_path hpath
  rw [hcauses] at hturns
  -- The same turns lead to the call with its nonce and its price, which was therefore signed.
  have heq := hturns.eq (hlearns.turns.append (turns_withNonce hprices))
  have hsigned : Turns a (withPrice a c found nonce price) [] (.submitting t) := by
    rw [← heq]
    exact .here _
  obtain ⟨hsigns, -⟩ := signs_of_withPrice hsigned
  rw [withPrice_of_signs hsigns] at heq
  exact Sending.submitting.inj heq

/-- A call can be handed over under any nonce and at any price that it can come to, if it can be
signed. -/
theorem handsOver_sign {xs ys : List Cause} (hlearns : Learns a found nonce xs)
    (hprices : Prices a price ys) (hsigns : a.signingError? = none) (c : Call) :
    HandsOver a c nonce price (sign a c nonce price) := by
  have hturns : Turns a (.queued c) (.acquired a.side found :: xs ++ ys)
      (withPrice a c found nonce price) := hlearns.turns.append (turns_withNonce hprices)
  rw [withPrice_of_signs hsigns] at hturns
  obtain ⟨hs, hcauses, hpath⟩ := path_of_turns hturns
  exact ⟨hs, found, xs, ys, hpath, hcauses, hlearns, hprices⟩

/-- The bytes of a transaction that is handed over are the only ones that say what it says. -/
theorem HandsOver.ofBytes?_iff (h : HandsOver a c nonce price t) (hprice : price < 2 ^ 128)
    (hinput : c.input.length < 2 ^ 63) {bs : Bytes} :
    Envelope.ofBytes? bs = some t.envelope ↔ bs = t.toBytes := by
  have hfits : t.envelope.item.Fits := by
    obtain rfl := h.eq_sign
    obtain ⟨hr, hs⟩ := a.key.sign_lt (Transaction.digest ⟨a.chainId, nonce, price, a.gasLimit, c⟩)
    exact SignedTransaction.fits_envelope hprice hinput hr hs
  rw [Envelope.ofBytes?_eq_some_iff, ← SignedTransaction.toBytes_eq]
  exact and_iff_left hfits

/-- Calls that are handed over as the same bytes are the same, under one nonce and at one price. -/
theorem HandsOver.eq_of_toBytes {a' : Account} {c' : Call} {nonce' : UInt64} {price' : Nat}
    (h : HandsOver a c nonce price t) (h' : HandsOver a' c' nonce' price' t')
    (hprice : price < 2 ^ 128) (hprice' : price' < 2 ^ 128) (hinput : c.input.length < 2 ^ 63)
    (hinput' : c'.input.length < 2 ^ 63) (heq : t'.toBytes = t.toBytes) :
    nonce' = nonce ∧ price' = price ∧ c' = c := by
  have hread := (h.ofBytes?_iff hprice hinput).mpr rfl
  have hread' := (h'.ofBytes?_iff hprice' hinput').mpr rfl
  rw [heq, hread] at hread'
  obtain rfl := h.eq_sign
  obtain rfl := h'.eq_sign
  obtain ⟨hnonce, hp, -, hcontract, -, hdata, -⟩ := Envelope.mk.inj (Option.some.inj hread')
  have hcall : c = c' := by
    cases c
    cases c'
    exact congrArg₂ Call.mk hcontract hdata
  exact ⟨(UInt64.toNat_inj.mp hnonce).symm, hp.symm, hcall.symm⟩

/-- **What is handed to a node says what the call asked for.** Its bytes, and no others, are read as
nine items, which are its nonce, price, limit, contract, no value, its input, and the signature with
the chain in `v`. So transactions of other nonces, prices or calls are other bytes. Inputs are
shorter than `2 ^ 63` bytes, as all byte strings of a program are. -/
theorem submitted_as_asked (a : Account) (c : Call) (hinput : c.input.length < 2 ^ 63) :
    (∀ hs s side t answered, Path (turn a) (.queued c) hs s →
      s.demand a = .ask side (.submit t) answered → ∃ nonce price, HandsOver a c nonce price t) ∧
    ∀ nonce price t, HandsOver a c nonce price t → price < 2 ^ 128 →
      (∀ bs, Envelope.ofBytes? bs = some
          { nonce := nonce.toNat
            gasPrice := price
            gasLimit := a.gasLimit.toNat
            contract := c.contract
            value := 0
            input := c.input
            v := 35 + 2 * a.chainId.toNat + if t.signature.parity then 1 else 0
            r := t.signature.r
            s := t.signature.s } ↔ bs = t.toBytes) ∧
      ∀ a' c' nonce' price' t', HandsOver a' c' nonce' price' t' → price' < 2 ^ 128 →
        c'.input.length < 2 ^ 63 → t'.toBytes = t.toBytes →
          nonce' = nonce ∧ price' = price ∧ c' = c := by
  refine ⟨fun hs s side t answered h hask => exists_handsOver h hask,
    fun nonce price t h hprice => ⟨fun bs => ?_, fun a' c' nonce' price' t' h' hprice' hinput' =>
      h.eq_of_toBytes h' hprice hprice' hinput hinput'⟩⟩
  rw [← h.ofBytes?_iff hprice hinput]
  obtain rfl := h.eq_sign
  exact Iff.rfl

/-- The chain with the greatest number. -/
def lastChain : Account := { Account.ofOne .priv with chainId := 0xFFFFFFFFFFFFFFFF }

/-- On that chain `v` is more than 64 bits hold. The call has more input than a short head can
announce. -/
theorem submitted_on_last_chain :
    ∃ t, HandsOver lastChain ⟨.zero, Bytes.zeros 300⟩ 7 1 t ∧
      Envelope.ofBytes? t.toBytes = some
        { nonce := 7
          gasPrice := 1
          gasLimit := 200000
          contract := .zero
          value := 0
          input := Bytes.zeros 300
          v := 36893488147419103265 + if t.signature.parity then 1 else 0
          r := t.signature.r
          s := t.signature.s } := by
  have hinput : (Bytes.zeros 300).length < 2 ^ 63 := by
    rw [Bytes.zeros, List.length_replicate]
    decide
  obtain ⟨t, h⟩ : ∃ t, HandsOver lastChain ⟨.zero, Bytes.zeros 300⟩ 7 1 t :=
    ⟨_, handsOver_sign (.found 7) (.fixed rfl) rfl _⟩
  have hv : 35 + 2 * lastChain.chainId.toNat = 36893488147419103265 := rfl
  have hread := (submitted_as_asked lastChain ⟨.zero, Bytes.zeros 300⟩ hinput).2 7 1 t h (by decide)
  rw [hv] at hread
  exact ⟨t, h, (hread.1 t.toBytes).mpr rfl⟩

end Sending

end EventRelay
