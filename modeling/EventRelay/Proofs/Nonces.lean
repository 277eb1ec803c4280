import EventRelay.Proofs.Sending

/-!
# The nonces of an account's transactions

Calls of one account share the right to send, and each leaves to the next what it knows about the
nonce. `Outbox` is the state of all of them together with the transactions that the node took;
`Outbox.Step` lets any call take a turn. The node counts honestly but may do with a transaction what
it likes: take it and say so, take it and answer with an error, or not take it.

Main statement:

* `Outbox.nonces_consecutive`: the transactions that the node takes carry the nonces from its first
  count on, one after the other; and whenever nobody has the right to send, what was left about the
  nonce is nothing or the node's count.

The invariant is `Outbox.Sound`. Whoever has the right to send `Sending.Fits` the node's count: what
it knows, and what it is about to leave, is right whichever way its questions are answered. All
others have nothing to leave. The numbers are counted modulo 2^64 throughout; only the last step
needs that they stay below it.
-/

namespace EventRelay

namespace Sending

/-- Whether the call neither has nor wants to keep the right to send. -/
def isAside : Sending → Bool
  | .queued _ | .done _ => true
  | _ => false

/-- Whether the call may still ask the node to take a transaction. -/
def isAhead : Sending → Bool
  | .queued _ | .counting _ | .pricing .. | .submitting _ => true
  | _ => false

/-- Nothing is known about the next nonce, or that it is `count`. -/
def Agrees (count : UInt64) (known : Option UInt64) : Prop := known = none ∨ known = some count

/-- What a call with the right to send knows agrees with the node's count. -/
def Fits (count : UInt64) : Sending → Prop
  | .queued _ | .done _ => False
  | .counting _ => True
  | .pricing _ known nonce => nonce = count ∧ Agrees count known
  | .submitting t => t.body.nonce = count
  | .accepted s => s.nonce + 1 = count
  | .leaving next _ => Agrees count next

/-- The transaction is that of one of the calls, signed by the account. -/
def Signed (a : Account) (calls : List Call) (t : SignedTransaction) : Prop :=
  ∃ c ∈ calls, ∃ nonce price, t = sign a c nonce price

/-- The call on its way is one of the calls. -/
def Of (a : Account) (calls : List Call) : Sending → Prop
  | .queued c | .counting c | .pricing c _ _ => c ∈ calls
  | .submitting t => Signed a calls t
  | _ => True

variable {a : Account} {c : Call} {known : Option UInt64} {n : UInt64} {s : Sending}

/-- The nonce that a call goes on with is the one it may take. -/
theorem Onward.fits (hn : Onward a c known n s) (h : Agrees n known) : s.Fits n := by
  cases hn with
  | pricing => exact ⟨rfl, h⟩
  | signed _ price => rfl
  | unsigned _ => exact h

theorem Onward.of {calls : List Call} (hn : Onward a c known n s) (h : c ∈ calls) :
    s.Of a calls := by
  cases hn with
  | pricing => exact h
  | signed _ price => exact ⟨c, h, n, price, rfl⟩
  | unsigned _ => trivial

end Sending

open Sending (Agrees Signed Turned)

/-- The calls of one account on their way, the right to send that they share, and the transactions
of the account that the node took. -/
structure Outbox where
  calls : List Sending
  /-- What was left about the next nonce. -/
  nonce : Option UInt64
  /-- Which call has the right to send. -/
  holder : Option Nat
  /-- The transactions that the node took, in order. -/
  taken : List SignedTransaction

namespace Outbox

/-- Calls before the first turn of any of them. -/
def start (calls : List Call) : Outbox := ⟨calls.map .queued, none, none, []⟩

/-- The node's count of the account's transactions; `base` is the count at the start. -/
def count (base : Nat) (o : Outbox) : UInt64 := UInt64.ofNat (base + o.taken.length)

/-- What call `i` may meet, and what then becomes of the right to send and of the transactions that
the node took. -/
inductive Admits (a : Account) (base : Nat) (o : Outbox) (i : Nat) : Cause → Outbox → Prop
  | right {nonce : Option UInt64} (h : o.holder = none) (hn : o.nonce = nonce) :
      Admits a base o i (.acquired a.side nonce) { o with holder := some i }
  | left (next : Option UInt64) :
      Admits a base o i (.released a.side next) { o with holder := none, nonce := next }
  | counts :
      Admits a base o i (.answered a.side (.transactionCount a.address) (.ok (o.count base))) o
  | countsNot (e : ChainError) :
      Admits a base o i (.answered a.side (.transactionCount a.address) (.error e)) o
  | prices (reply : Except ChainError Nat) : Admits a base o i (.answered a.side .gasPrice reply) o
  | takes (t : SignedTransaction) (reply : Except ChainError Word) :
      Admits a base o i (.answered a.side (.submit t) reply) { o with taken := o.taken ++ [t] }
  | takesNot (t : SignedTransaction) (e : ChainError) :
      Admits a base o i (.answered a.side (.submit t) (.error e)) o
  | metric (e : Metrics.Event) : Admits a base o i (.counted e) o

/-- One of the calls takes a turn. -/
inductive Step (a : Account) (base : Nat) (o : Outbox) : Outbox → Prop
  | turn {i : Nat} {s s' : Sending} {m : Instant} {c : Cause} {o' : Outbox}
      (here : o.calls[i]? = some s) (goes : (s.turn a).Goes m c s')
      (admits : o.Admits a base i c o') : Step a base o { o' with calls := o.calls.set i s' }

/-- The states that can be reached, whichever call takes a turn next. -/
inductive Reaches (a : Account) (base : Nat) (calls : List Call) : Outbox → Prop
  | start : Reaches a base calls (start calls)
  | step {o o' : Outbox} (before : Reaches a base calls o) (step : o.Step a base o') :
      Reaches a base calls o'

/-- The invariant of an outbox. -/
structure Sound (a : Account) (base : Nat) (calls : List Call) (o : Outbox) : Prop where
  /-- The nonces of the transactions taken follow one another from `base` on. -/
  nonces : o.taken.map (·.body.nonce) = (List.range' base o.taken.length).map UInt64.ofNat
  /-- Whoever has not the right to send keeps nothing to itself. -/
  aside : ∀ i s, o.calls[i]? = some s → o.holder ≠ some i → s.isAside = true
  /-- Whoever has the right to send knows what is so. -/
  held : ∀ i s, o.calls[i]? = some s → o.holder = some i → s.Fits (o.count base)
  /-- What was left is so while nobody has the right to send. -/
  free : o.holder = none → Agrees (o.count base) o.nonce
  /-- Each call has at most one transaction taken. -/
  spent : o.taken.length + o.calls.countP Sending.isAhead ≤ calls.length
  /-- The calls on their way are those of the start. -/
  ours : ∀ s ∈ o.calls, s.Of a calls
  /-- So are those that were taken. -/
  signed : ∀ t ∈ o.taken, Signed a calls t

variable {a : Account} {base : Nat} {calls : List Call} {o o' : Outbox}

/-- At the start nothing is taken and every call is queued. -/
theorem start_sound (a : Account) (base : Nat) (calls : List Call) :
    (start calls).Sound a base calls where
  nonces := rfl
  aside i s h _ := by
    obtain ⟨c, _, rfl⟩ := List.mem_map.mp (List.mem_of_getElem? h)
    rfl
  held i s _ h := by cases h
  free _ := .inl rfl
  spent := by
    simp only [start, List.length_nil, Nat.zero_add]
    exact Nat.le_trans List.countP_le_length (Nat.le_of_eq (List.length_map _))
  ours s h := by
    obtain ⟨c, hc, rfl⟩ := List.mem_map.mp h
    exact hc
  signed t h := by cases h

/-- A transaction that is taken raises the count by one. -/
theorem count_taken (base : Nat) (o : Outbox) (t : SignedTransaction) :
    ({ o with taken := o.taken ++ [t] } : Outbox).count base = o.count base + 1 := by
  simp only [count, List.length_append, List.length_singleton, ← Nat.add_assoc]
  exact UInt64.ofNat_add _ _

/-- The next transaction extends the row of nonces when it has the next nonce. -/
theorem nonces_taken {t : SignedTransaction} (h : o.Sound a base calls)
    (ht : t.body.nonce = o.count base) :
    (o.taken ++ [t]).map (·.body.nonce) =
      (List.range' base (o.taken ++ [t]).length).map UInt64.ofNat := by
  rw [List.length_append, List.length_singleton, List.range'_1_concat, List.map_append,
    List.map_append, h.nonces, List.map_singleton, List.map_singleton, ht]
  rfl

/-- A call that is in the middle of sending has the right to send. -/
theorem Sound.holds {i : Nat} {s : Sending} (h : o.Sound a base calls)
    (hs : o.calls[i]? = some s) (hn : s.isAside = false) : o.holder = some i := by
  rcases Decidable.em (o.holder = some i) with hi | hi
  · exact hi
  · rw [h.aside i s hs hi] at hn
    cases hn

/-- What the calls have left to do after one of them took a turn. -/
theorem countP_set {i : Nat} {s : Sending} (hs : o.calls[i]? = some s) (s' : Sending)
    (p : Sending → Bool) :
    (o.calls.set i s').countP p + (if p s then 1 else 0) =
      o.calls.countP p + (if p s' then 1 else 0) := by
  obtain ⟨hi, rfl⟩ := List.getElem?_eq_some_iff.mp hs
  rw [List.countP_set hi]
  have hle : (if p o.calls[i] then 1 else 0) ≤ o.calls.countP p := by
    split
    next hp => exact List.countP_pos_iff.mpr ⟨_, List.getElem_mem hi, hp⟩
    next => exact Nat.zero_le _
  omega

/-- A turn of call `i` keeps the invariant when nobody else has the right to send, neither before
nor after it, and call `i` fits what is then so. -/
theorem Sound.turn {i : Nat} {s s' : Sending} (o' : Outbox) (h : o.Sound a base calls)
    (hs : o.calls[i]? = some s) (hbefore : ∀ j, o.holder = some j → j = i)
    (hnonces : o'.taken.map (·.body.nonce) = (List.range' base o'.taken.length).map UInt64.ofNat)
    (hafter : o'.holder = some i ∧ s'.Fits (o'.count base) ∨
      o'.holder = none ∧ s'.isAside = true ∧ Agrees (o'.count base) o'.nonce)
    (hspent : o'.taken.length + (if s'.isAhead then 1 else 0) ≤
      o.taken.length + (if s.isAhead then 1 else 0))
    (hof : s'.Of a calls) (hsigned : ∀ t ∈ o'.taken, Signed a calls t) :
    ({ o' with calls := o.calls.set i s' } : Outbox).Sound a base calls := by
  obtain ⟨hi, -⟩ := List.getElem?_eq_some_iff.mp hs
  have hother : ∀ j t, j ≠ i → o.calls[j]? = some t → t.isAside = true := fun j t hj ht =>
    h.aside j t ht fun hh => hj (hbefore j hh)
  refine ⟨hnonces, ?_, ?_, ?_, ?_, ?_, hsigned⟩
  · -- Those without the right to send: call `i` itself, if it gave it back, and all others.
    intro j t ht hh
    simp only [List.getElem?_set] at ht
    split at ht
    next hij =>
      subst hij
      obtain rfl := Option.some.inj ht
      rcases hafter with ⟨hheld, -⟩ | ⟨-, haside, -⟩
      · exact absurd hheld hh
      · exact haside
    next hij => exact hother j t (fun e => hij e.symm) ht
  · -- Nobody but call `i` can have the right to send now.
    intro j t ht hh
    rcases hafter with ⟨hheld, hfits⟩ | ⟨hfree, -⟩
    · obtain rfl := Option.some.inj (hheld.symm.trans hh)
      simp only [List.getElem?_set_self hi] at ht
      obtain rfl := Option.some.inj ht
      exact hfits
    · exact absurd (hfree.symm.trans hh) (by simp)
  · -- When nobody has the right to send, call `i` has just given it back.
    intro hh
    rcases hafter with ⟨hheld, -⟩ | ⟨-, -, hagrees⟩
    · exact absurd (hheld.symm.trans hh) (by simp)
    · exact hagrees
  · have hset := countP_set hs s' Sending.isAhead
    have hle := h.spent
    show o'.taken.length + (o.calls.set i s').countP Sending.isAhead ≤ calls.length
    omega
  · intro t ht
    rcases List.mem_or_eq_of_mem_set ht with hmem | rfl
    · exact h.ours t hmem
    · exact hof

/-- A turn in which a call gets the right to send. -/
theorem Sound.acquire {i : Nat} {call : Call} {s' : Sending} (h : o.Sound a base calls)
    (hs : o.calls[i]? = some (.queued call)) (hfree : o.holder = none)
    (hfits : s'.Fits (o.count base)) (hof : s'.Of a calls) :
    ({ o with holder := some i, calls := o.calls.set i s' } : Outbox).Sound a base calls := by
  refine h.turn { o with holder := some i } hs ?_ h.nonces (.inl ⟨rfl, hfits⟩) ?_ hof
    h.signed
  · intro j hj
    exact absurd (hfree.symm.trans hj) (by simp)
  · show o.taken.length + (if s'.isAhead then 1 else 0) ≤ o.taken.length + 1
    split <;> omega

/-- A turn in which the node takes nothing and the right to send stays where it is. -/
theorem Sound.stay {i : Nat} {s s' : Sending} (h : o.Sound a base calls)
    (hs : o.calls[i]? = some s) (hn : s.isAside = false) (hfits : s'.Fits (o.count base))
    (hahead : s'.isAhead = true → s.isAhead = true) (hof : s'.Of a calls) :
    ({ o with calls := o.calls.set i s' } : Outbox).Sound a base calls := by
  have hholds := h.holds hs hn
  refine h.turn o hs ?_ h.nonces (.inl ⟨hholds, hfits⟩) ?_ hof h.signed
  · intro j hj
    exact Option.some.inj (hj.symm.trans hholds)
  · split
    next hs' => exact Nat.le_of_eq (congrArg (o.taken.length + ·) (if_pos (hahead hs')).symm)
    next => omega

/-- A turn in which the node takes the transaction it was asked to take. -/
theorem Sound.take {i : Nat} {s' : Sending} {t : SignedTransaction} (h : o.Sound a base calls)
    (hs : o.calls[i]? = some (.submitting t)) (hfits : s'.Fits (o.count base + 1))
    (hahead : s'.isAhead = false) (hof : s'.Of a calls) :
    ({ o with taken := o.taken ++ [t], calls := o.calls.set i s' } : Outbox).Sound
      a base calls := by
  have hholds := h.holds hs rfl
  refine h.turn { o with taken := o.taken ++ [t] } hs ?_
    (nonces_taken h (h.held i _ hs hholds)) (.inl ⟨hholds, ?_⟩) ?_ hof ?_
  · intro j hj
    exact Option.some.inj (hj.symm.trans hholds)
  · rw [count_taken]
    exact hfits
  · rw [hahead]
    simp [Sending.isAhead]
  · intro t' ht'
    rcases List.mem_append.mp ht' with hmem | hmem
    · exact h.signed t' hmem
    · obtain rfl := List.mem_singleton.mp hmem
      exact h.ours _ (List.mem_of_getElem? hs)

/-- **Every turn of every call keeps the invariant**, whatever the node does. -/
theorem Sound.step (h : o.Sound a base calls) (hstep : o.Step a base o') :
    o'.Sound a base calls := by
  obtain ⟨hs, hgoes, hadmits⟩ := hstep
  rename_i i s s' m c o₁
  have hof := h.ours s (List.mem_of_getElem? hs)
  have hheld := h.held i s hs
  cases Sending.goes_iff_turned.mp hgoes with
  | known call n =>
    cases hadmits with
    | right hfree hnonce =>
      -- The call goes on with the nonce that was left, which is the count while nobody sends.
      have hknown : Agrees (o.count base) (some n) := hnonce ▸ h.free hfree
      obtain rfl : n = o.count base := by
        rcases hknown with hn | hn
        · cases hn
        · exact Option.some.inj hn
      have honward := Sending.onward_withNonce a call (some (o.count base)) (o.count base)
      exact h.acquire hs hfree (honward.fits hknown) (honward.of hof)
  | unknown call =>
    cases hadmits with
    | right hfree _ => exact h.acquire hs hfree trivial hof
  | counted call n =>
    cases hadmits with
    | counts =>
      -- The node was just asked, and nobody else sends in the meantime.
      have honward := Sending.onward_withNonce a call none (o.count base)
      exact h.stay hs rfl (honward.fits (.inl rfl)) (fun _ => rfl) (honward.of hof)
  | uncounted call e =>
    cases hadmits with
    | countsNot => exact h.stay hs rfl (.inl rfl) (fun _ => rfl) trivial
  | priced call known n price =>
    cases hadmits with
    | prices =>
      obtain ⟨rfl, hknown⟩ := hheld (h.holds hs rfl)
      have honward := Sending.onward_withPrice a call known (o.count base) price
      exact h.stay hs rfl (honward.fits hknown) (fun _ => rfl) (honward.of hof)
  | unpriced call known n e =>
    cases hadmits with
    | prices => exact h.stay hs rfl (hheld (h.holds hs rfl)).2 (fun _ => rfl) trivial
  | taken t hash =>
    cases hadmits with
    | takes =>
      -- The count goes on, and so does the nonce that the call will leave.
      exact h.take hs (congrArg (· + 1) (hheld (h.holds hs rfl))) rfl trivial
  | refused t e =>
    -- The node may have taken the transaction for all that: nothing is left about the nonce.
    cases hadmits with
    | takes => exact h.take hs (.inl rfl) rfl trivial
    | takesNot => exact h.stay hs rfl (.inl rfl) (fun _ => rfl) trivial
  | reported s =>
    cases hadmits with
    | metric =>
      exact h.stay hs rfl (.inr (congrArg some (hheld (h.holds hs rfl)))) (fun hn => hn) trivial
  | left next result =>
    cases hadmits with
    | left =>
      -- The call gives back the right to send, and what it leaves agrees with the count.
      have hholds := h.holds hs rfl
      refine h.turn { o with holder := none, nonce := next } hs ?_ h.nonces
        (.inr ⟨rfl, rfl, hheld hholds⟩) (Nat.le_refl _) trivial h.signed
      intro j hj
      exact Option.some.inj (hj.symm.trans hholds)

theorem Reaches.turn {i : Nat} {s s' : Sending} {c : Cause} (before : Reaches a base calls o)
    (here : o.calls[i]? = some s) (turned : Turned a s c s') (admits : o.Admits a base i c o') :
    Reaches a base calls { o' with calls := o.calls.set i s' } :=
  before.step (.turn (m := .zero) here (Sending.goes_iff_turned.mpr turned) admits)

/-- Every reachable outbox is sound. -/
theorem Reaches.sound (h : Reaches a base calls o) : o.Sound a base calls := by
  induction h with
  | start => exact start_sound a base calls
  | step _ hstep ih => exact ih.step hstep

/-- **No nonce is used twice and none is left out.** Whichever of the calls takes a turn next, and
whatever the node does with a transaction, the transactions that it takes carry the nonces from
`base` on, in the order in which they are taken; each is one of the calls, signed by the account.
Whenever nobody has the right to send, nothing is known about the next nonce or what is known is the
node's count. -/
theorem nonces_consecutive (hbound : base + calls.length < UInt64.size)
    (h : Reaches a base calls o) :
    o.taken.map (·.body.nonce.toNat) = List.range' base o.taken.length ∧
      (∀ t ∈ o.taken, Signed a calls t) ∧
      (o.holder = none →
        o.nonce = none ∨ o.nonce.map UInt64.toNat = some (base + o.taken.length)) := by
  have hsound := h.sound
  have hlen : o.taken.length ≤ calls.length := Nat.le_trans (Nat.le_add_right _ _) hsound.spent
  refine ⟨?_, hsound.signed, fun hfree => ?_⟩
  · -- No number of the list wraps around, for no more transactions are taken than there are calls.
    have hnonces := congrArg (List.map UInt64.toNat) hsound.nonces
    rw [List.map_map, List.map_map] at hnonces
    refine hnonces.trans (List.map_congr_left ?_ |>.trans (List.map_id _))
    intro n hn
    have hlt := (List.mem_range'_1.mp hn).2
    exact UInt64.toNat_ofNat_of_lt' (by omega)
  · rcases hsound.free hfree with hn | hn
    · exact .inl hn
    · refine .inr ?_
      rw [hn, Option.map_some, count, UInt64.toNat_ofNat_of_lt' (by omega)]

/-- An account that asks for the price of gas. -/
def sender : Account := { Account.ofOne .priv with gasPrice := none }

/-- The node takes a first transaction under nonce 7 and answers with an error, then a second one:
the second call asks again and goes on with nonce 8. -/
theorem nonces_after_lost_answer :
    ∃ o, Reaches sender 7 [⟨.zero, [1]⟩, ⟨.zero, [2]⟩] o ∧ 7 + 2 < UInt64.size ∧
      o.holder = none ∧ o.taken.map (·.body.nonce.toNat) = [7, 8] ∧
      o.nonce.map UInt64.toNat = some 9 := by
  have h₀ : Reaches sender 7 [⟨.zero, [1]⟩, ⟨.zero, [2]⟩] _ := .start
  have h := h₀
    |>.turn (i := 0) rfl (.unknown _) (.right rfl rfl)
    |>.turn (i := 0) rfl (.counted _ _) .counts
    |>.turn (i := 0) rfl (.priced _ _ _ 5) (.prices _)
    |>.turn (i := 0) rfl (.refused _ (.submission "timeout")) (.takes _ _)
    |>.turn (i := 0) rfl (.left _ _) (.left _)
    |>.turn (i := 1) rfl (.unknown _) (.right rfl rfl)
    |>.turn (i := 1) rfl (.counted _ _) .counts
    |>.turn (i := 1) rfl (.priced _ _ _ 6) (.prices _)
    |>.turn (i := 1) rfl (.taken _ 3) (.takes _ _)
    |>.turn (i := 1) rfl (.reported _) (.metric _)
    |>.turn (i := 1) rfl (.left _ _) (.left _)
  obtain ⟨hnonces, -, hfree⟩ := nonces_consecutive (by decide) h
  refine ⟨_, h, by decide, rfl, hnonces, ?_⟩
  exact (hfree rfl).resolve_left (by simp)

end Outbox

end EventRelay
