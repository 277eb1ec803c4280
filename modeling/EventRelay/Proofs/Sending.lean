import EventRelay.Chain.Sending
import EventRelay.Proofs.Running

/-!
# What a call on its way does

`Sending.Turned` lists every turn that a call can take; `Sending.goes_iff_turned` says that there
is no other.
-/

namespace EventRelay.Sending

/-- One turn of a call on its way, by what the call was doing. -/
inductive Turned (a : Account) : Sending → Cause → Sending → Prop
  | known (c : Call) (n : UInt64) :
      Turned a (.queued c) (.acquired a.side (some n)) (withNonce a c (some n) n)
  | unknown (c : Call) : Turned a (.queued c) (.acquired a.side none) (.counting c)
  | counted (c : Call) (n : UInt64) :
      Turned a (.counting c) (.answered a.side (.transactionCount a.address) (.ok n))
        (withNonce a c none n)
  | uncounted (c : Call) (e : ChainError) :
      Turned a (.counting c) (.answered a.side (.transactionCount a.address) (.error e))
        (.leaving none (.error e))
  | priced (c : Call) (known : Option UInt64) (n : UInt64) (price : Nat) :
      Turned a (.pricing c known n) (.answered a.side .gasPrice (.ok price))
        (withPrice a c known n price)
  | unpriced (c : Call) (known : Option UInt64) (n : UInt64) (e : ChainError) :
      Turned a (.pricing c known n) (.answered a.side .gasPrice (.error e))
        (.leaving known (.error e))
  | taken (t : SignedTransaction) (hash : Word) :
      Turned a (.submitting t) (.answered a.side (.submit t) (.ok hash))
        (.accepted ⟨hash, t.body.nonce⟩)
  | refused (t : SignedTransaction) (e : ChainError) :
      Turned a (.submitting t) (.answered a.side (.submit t) (.error e)) (.leaving none (.error e))
  | reported (s : Submitted) :
      Turned a (.accepted s) (.counted (.submitted a.side.name))
        (.leaving (some (s.nonce + 1)) (.ok s))
  | left (next : Option UInt64) (result : Except ChainError Submitted) :
      Turned a (.leaving next result) (.released a.side next) (.done result)

variable {a : Account} {m : Instant} {s s' : Sending} {c : Cause}

/-- **A call on its way takes no other turn.** -/
theorem goes_iff_turned : (turn a s).Goes m c s' ↔ Turned a s c s' := by
  rw [turn, Turn.goes_plain]
  constructor
  · intro h
    cases s with
    | queued call =>
      cases h with
      | acquire _ _ nonce =>
        cases nonce with
        | none => exact .unknown call
        | some n => exact .known call n
    | counting call =>
      cases h with
      | ask _ _ _ reply =>
        cases reply with
        | error e => exact .uncounted call e
        | ok n => exact .counted call n
    | pricing call known n =>
      cases h with
      | ask _ _ _ reply =>
        cases reply with
        | error e => exact .unpriced call known n e
        | ok price => exact .priced call known n price
    | submitting t =>
      cases h with
      | ask _ _ _ reply =>
        cases reply with
        | error e => exact .refused t e
        | ok hash => exact .taken t hash
    | accepted s => cases h; exact .reported s
    | leaving next result => cases h; exact .left next result
    | done _ => cases h
  · intro h
    cases h with
    | known call n => exact .acquire _ _ (some n)
    | unknown call => exact .acquire _ _ none
    | counted call n => exact .ask _ (.transactionCount a.address) _ (.ok n)
    | uncounted call e => exact .ask _ (.transactionCount a.address) _ (.error e)
    | priced call known n price => exact .ask _ .gasPrice _ (.ok price)
    | unpriced call known n e => exact .ask _ .gasPrice _ (.error e)
    | taken t hash => exact .ask _ (.submit t) _ (.ok hash)
    | refused t e => exact .ask _ (.submit t) _ (.error e)
    | reported s => exact .count _ _
    | left next result => exact .release _ _ _

/-- What a call goes on as that has its nonce. -/
inductive Onward (a : Account) (c : Call) (known : Option UInt64) (n : UInt64) : Sending → Prop
  | pricing : Onward a c known n (.pricing c known n)
  | signed (h : a.signingError? = none) (price : Nat) :
      Onward a c known n (.submitting (sign a c n price))
  | unsigned {e : ChainError} (h : a.signingError? = some e) :
      Onward a c known n (.leaving known (.error e))

/-- A call that can be signed comes to its transaction with its price. -/
theorem withPrice_of_signs {a : Account} (h : a.signingError? = none) (c : Call)
    (known : Option UInt64) (n : UInt64) (price : Nat) :
    withPrice a c known n price = .submitting (sign a c n price) := by
  rw [withPrice, h]

/-- A call that cannot be signed ends with the signer's error and keeps the nonce that is known. -/
theorem withPrice_of_signingError {a : Account} {e : ChainError} (h : a.signingError? = some e)
    (c : Call) (known : Option UInt64) (n : UInt64) (price : Nat) :
    withPrice a c known n price = .leaving known (.error e) := by
  rw [withPrice, h]

/-- With a nonce and a price a call is on its way. -/
theorem onward_withPrice (a : Account) (c : Call) (known : Option UInt64) (n : UInt64)
    (price : Nat) : Onward a c known n (withPrice a c known n price) := by
  unfold withPrice
  split
  next h => exact .unsigned h
  next h => exact .signed h price

/-- With a nonce a call is on its way. -/
theorem onward_withNonce (a : Account) (c : Call) (known : Option UInt64) (n : UInt64) :
    Onward a c known n (withNonce a c known n) := by
  unfold withNonce
  split
  next price _ => exact onward_withPrice a c known n price
  next => exact .pricing

/-! ## The whole way of a call -/

/-- The call while its transaction is not signed yet. -/
def call? : Sending → Option Call
  | .queued c => some c
  | .counting c => some c
  | .pricing c _ _ => some c
  | _ => none

/-- What comes of a call whose transaction is settled. -/
def result? : Sending → Option (Except ChainError Submitted)
  | .accepted s => some (.ok s)
  | .leaving _ result => some result
  | .done result => some result
  | _ => none

/-- What came of a call that is dealt with. -/
def outcome? : Sending → Option (Except ChainError Submitted)
  | .done result => some result
  | _ => none

/-- Only a send that is done has an outcome. -/
theorem outcome?_eq_some {result : Except ChainError Submitted} :
    s.outcome? = some result ↔ s = .done result := by
  constructor
  · intro h
    cases s with
    | done _ => exact congrArg Sending.done (Option.some.inj h)
    | _ => cases h
  · intro heq
    subst heq
    rfl

/-- What is asked before the transaction is signed. -/
def IsPreparing (a : Account) (c : Cause) : Prop :=
  c.question? = none ∨ c.question? = some (a.side, .transactionCount a.address) ∨
    c.question? = some (a.side, .gasPrice)

variable {result : Except ChainError Submitted} {call : Call} {hs : List Happening}

/-- The call is not signed yet, or its transaction is to be taken, or it is given up. -/
def IsUnderWay (a : Account) (call : Call) (s : Sending) : Prop :=
  s.call? = some call ∨ (∃ n price, s = .submitting (sign a call n price)) ∨
    ∃ next e, s = .leaving next (.error e)

/-- A call that is on its way is under way. -/
theorem Onward.isUnderWay {known : Option UInt64} {n : UInt64} (h : Onward a call known n s) :
    IsUnderWay a call s := by
  cases h with
  | pricing => exact .inl rfl
  | signed _ price => exact .inr (.inl ⟨n, price, rfl⟩)
  | @unsigned e _ => exact .inr (.inr ⟨known, e, rfl⟩)

/-- Before its transaction a call stays under way and only prepares. -/
theorem Turned.unsigned (h : s.call? = some call) (ht : Turned a s c s') :
    IsPreparing a c ∧ IsUnderWay a call s' := by
  cases ht with
  | known c n =>
    obtain rfl := Option.some.inj h
    exact ⟨.inl rfl, (onward_withNonce a c (some n) n).isUnderWay⟩
  | unknown c => exact ⟨.inl rfl, .inl h⟩
  | counted c n =>
    obtain rfl := Option.some.inj h
    exact ⟨.inr (.inl rfl), (onward_withNonce a c none n).isUnderWay⟩
  | uncounted c e => exact ⟨.inr (.inl rfl), .inr (.inr ⟨none, e, rfl⟩)⟩
  | priced c known n price =>
    obtain rfl := Option.some.inj h
    exact ⟨.inr (.inr rfl), (onward_withPrice a c known n price).isUnderWay⟩
  | unpriced c known n e => exact ⟨.inr (.inr rfl), .inr (.inr ⟨known, e, rfl⟩)⟩
  | _ => cases h

/-- Once settled, a send asks nothing more and keeps its result. -/
theorem Turned.settled (h : s.result? = some result) (ht : Turned a s c s') :
    c.question? = none ∧ s'.result? = some result := by
  cases ht with
  | reported _ => exact ⟨rfl, h⟩
  | left _ _ => exact ⟨rfl, h⟩
  | _ => cases h

/-- The answer to a submission settles the send, with the nonce that was used. -/
theorem Turned.submitted {t : SignedTransaction} (ht : Turned a (.submitting t) c s') :
    ∃ reply, c = .answered a.side (.submit t) reply ∧
      s'.result? = some (reply.map fun hash => ⟨hash, t.body.nonce⟩) := by
  cases ht with
  | taken _ hash => exact ⟨.ok hash, rfl, rfl⟩
  | refused _ e => exact ⟨.error e, rfl, rfl⟩

/-- Nothing more is asked for a call whose transaction is settled. -/
theorem settled (h : s.result? = some result) (hpath : Path (turn a) s hs s') :
    questions hs = [] ∧ s'.result? = some result := by
  induction hpath with
  | here _ => exact ⟨rfl, h⟩
  | next first _ ih =>
    obtain ⟨hq, hnext⟩ := (goes_iff_turned.mp first).settled h
    obtain ⟨hrest, hend⟩ := ih hnext
    exact ⟨by rw [questions_cons, hq, hrest]; rfl, hend⟩

/-- What is asked on the way of a call, and what comes of it. -/
structure Sent (a : Account) (call : Call) (hs : List Happening)
    (result : Except ChainError Submitted) : Prop where
  /-- The node is asked at most once to take the call, signed by the account. -/
  once : submissions hs = [] ∨ ∃ n price, submissions hs = [(a.side, sign a call n price)]
  /-- No receipt is asked for. -/
  unlooked : lookups hs = []
  /-- When the call was taken, the node answered its transaction with the digest. -/
  taken : ∀ s, result = .ok s → ∃ n price, submissions hs = [(a.side, sign a call n price)] ∧
    .answered a.side (.submit (sign a call n price)) (.ok s.hash) ∈ hs.map (·.cause)

/-- What is asked before the transaction is signed is neither a submission nor a lookup. -/
theorem IsPreparing.unseen {x : Happening} (h : IsPreparing a x.cause) (hs : List Happening) :
    submissions (x :: hs) = submissions hs ∧ lookups (x :: hs) = lookups hs := by
  rw [submissions, lookups, questions_cons]
  rcases h with hq | hq | hq <;> rw [hq] <;> exact ⟨rfl, rfl⟩

/-- What prepares a call can come before it is sent. -/
theorem Sent.cons {x : Happening} (h : Sent a call hs result) (hx : IsPreparing a x.cause) :
    Sent a call (x :: hs) result := by
  obtain ⟨hsub, hlook⟩ := hx.unseen hs
  refine ⟨hsub ▸ h.once, hlook ▸ h.unlooked, fun s hr => ?_⟩
  obtain ⟨n, price, ht, hmem⟩ := h.taken s hr
  exact ⟨n, price, hsub ▸ ht, List.mem_cons_of_mem _ hmem⟩

/-- A call whose transaction is signed asks the node once to take it, and for nothing else. -/
theorem sent_of_submitting {n : UInt64} {price : Nat}
    (hpath : Path (turn a) (.submitting (sign a call n price)) hs (.done result)) :
    Sent a call hs result := by
  cases hpath with
  | @next _ _ _ x rest first hpath =>
    -- The one question is whether the node takes it; after the answer there is none.
    obtain ⟨reply, hc, hresult⟩ := (goes_iff_turned.mp first).submitted
    obtain ⟨hrest, hend⟩ := settled hresult hpath
    have hq := questions_cons x rest
    rw [hc, hrest] at hq
    have hsub : submissions (x :: rest) = [(a.side, sign a call n price)] := by
      rw [submissions, hq]
      rfl
    refine ⟨.inr ⟨n, price, hsub⟩, by rw [lookups, hq]; rfl, ?_⟩
    intro s heq
    subst heq
    cases reply with
    | error e => cases hend
    | ok hash =>
      obtain rfl := Except.ok.inj (Option.some.inj hend)
      exact ⟨n, price, hsub, List.mem_cons.mpr (.inl hc.symm)⟩

/-- **A call asks the node at most once to take its transaction**, and never for a receipt. -/
theorem sent (h : s.call? = some call) (hpath : Path (turn a) s hs (.done result)) :
    Sent a call hs result := by
  generalize he : Sending.done result = e at hpath
  induction hpath with
  | here _ =>
    subst he
    cases h
  | next first rest ih =>
    -- Still not signed, just signed, or given up before it was.
    obtain ⟨hprep, hnext | ⟨n, price, rfl⟩ | ⟨next, e, rfl⟩⟩ :=
      (goes_iff_turned.mp first).unsigned h
    · exact (ih hnext he).cons hprep
    · exact (sent_of_submitting (he ▸ rest)).cons hprep
    · obtain ⟨hrest, hend⟩ := settled rfl rest
      subst he
      obtain rfl := Option.some.inj hend
      have hsub : submissions _ = [] := submissions_of_questions_nil hrest
      refine Sent.cons ⟨.inl hsub, lookups_of_questions_nil hrest, ?_⟩ hprep
      intro s h
      cases h

end EventRelay.Sending

namespace EventRelay

/-- An account of a side with the key 1. -/
def Account.ofOne (side : Side) : Account :=
  ⟨side, ⟨1, by decide, by decide⟩, 31337, 200000, some 1, none⟩

end EventRelay
