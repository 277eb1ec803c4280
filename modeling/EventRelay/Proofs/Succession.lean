import EventRelay.Proofs.Nonces
import EventRelay.Proofs.Sending
import Mathlib.Data.List.Induction

/-!
# Calls one after the other

The calls of an account get the right to send one after the other, and each finds what the one
before it left about the next nonce. This file says what then becomes of the nonces when nothing is
known of the node: it may answer each question as it likes.

`Sending.Way` lists the ways in which a call can be dealt with, from the right to send to its
return, and `Settled.Effect` says what each of them does to the nonces. A `Succession` strings calls
together. `Unknown` is read off the calls alone, and `Succession.none_iff` says that it holds when
nothing was left about the next nonce: then the next call starts from the node's count, and those
after it go on from there.

Main statement:

* `Succession.nonceUse`: which nonces the transactions carry that the node takes, which calls ask
  for the count and the price, and what a call leaves that fails.
-/

namespace EventRelay

namespace Sending

/-! ## One call -/

/-- How a call comes to its nonce: it finds it, or the node counts. -/
inductive Learns (a : Account) : (found : Option UInt64) → UInt64 → List Cause → Prop
  | found (n : UInt64) : Learns a (some n) n []
  | counted (n : UInt64) :
      Learns a none n [.answered a.side (.transactionCount a.address) (.ok n)]

/-- How a call comes to its price: the account has one, or the node says it. -/
inductive Prices (a : Account) : Nat → List Cause → Prop
  | fixed {price : Nat} (h : a.gasPrice = some price) : Prices a price []
  | asked (h : a.gasPrice = none) (price : Nat) :
      Prices a price [.answered a.side .gasPrice (.ok price)]

/-- What becomes of a transaction that the node is to take, and what is left about the next
nonce. -/
inductive Settles (a : Account) (t : SignedTransaction) :
    List Cause → (left : Option UInt64) → Except ChainError Submitted → Prop
  | rejected (e : ChainError) :
      Settles a t [.answered a.side (.submit t) (.error e), .released a.side none] none (.error e)
  | accepted (hash : Word) :
      Settles a t [.answered a.side (.submit t) (.ok hash), .counted (.submitted a.side.name),
        .released a.side (some (t.body.nonce + 1))] (some (t.body.nonce + 1))
        (.ok ⟨hash, t.body.nonce⟩)

/-- How a call is dealt with, from the nonce that it finds to the one that it leaves. -/
inductive Way (a : Account) (c : Call) : (found : Option UInt64) → List Cause →
    (left : Option UInt64) → Except ChainError Submitted → Prop
  /-- The node does not count. -/
  | uncounted (e : ChainError) :
      Way a c none [.acquired a.side none,
        .answered a.side (.transactionCount a.address) (.error e), .released a.side none]
        none (.error e)
  /-- The node does not say the price. -/
  | unpriced {found : Option UInt64} {n : UInt64} {xs : List Cause} (hn : Learns a found n xs)
      (h : a.gasPrice = none) (e : ChainError) :
      Way a c found (.acquired a.side found :: (xs ++
        [.answered a.side .gasPrice (.error e), .released a.side found])) found (.error e)
  /-- Nothing can be signed. -/
  | unsigned {found : Option UInt64} {n : UInt64} {price : Nat} {xs ys : List Cause}
      {e : ChainError}
      (hn : Learns a found n xs) (hp : Prices a price ys) (h : a.signingError? = some e) :
      Way a c found (.acquired a.side found :: (xs ++ (ys ++ [.released a.side found]))) found
        (.error e)
  /-- The node is asked to take the transaction. -/
  | submitted {found left : Option UInt64} {n : UInt64} {price : Nat} {xs ys zs : List Cause}
      {result : Except ChainError Submitted} (hn : Learns a found n xs) (hp : Prices a price ys)
      (h : a.signingError? = none) (ht : Settles a (sign a c n price) zs left result) :
      Way a c found (.acquired a.side found :: (xs ++ (ys ++ zs))) left result

variable {a : Account} {c : Call} {n : UInt64} {found left : Option UInt64} {s : Sending}
  {cs : List Cause} {hs : List Happening} {result result' : Except ChainError Submitted}
  {t : SignedTransaction}

/-- The turns of a call, by their causes. -/
inductive Turns (a : Account) : Sending → List Cause → Sending → Prop
  | here (s : Sending) : Turns a s [] s
  | next {s s' s'' : Sending} {x : Cause} {xs : List Cause} (first : Turned a s x s')
      (rest : Turns a s' xs s'') : Turns a s (x :: xs) s''

/-- A path of a send takes its turns. -/
theorem turns_of_path {s' : Sending} (h : Path (turn a) s hs s') :
    Turns a s (hs.map (·.cause)) s' := by
  induction h with
  | here s => exact .here s
  | next first _ ih => exact .next (goes_iff_turned.mp first) ih

/-- When the turns were taken does not matter. -/
theorem path_of_turns {s' : Sending} (h : Turns a s cs s') :
    ∃ hs, hs.map (·.cause) = cs ∧ Path (turn a) s hs s' := by
  induction h with
  | here s => exact ⟨[], rfl, .here s⟩
  | @next _ _ _ x _ first _ ih =>
    obtain ⟨hs, rfl, hpath⟩ := ih
    exact ⟨⟨.zero, x⟩ :: hs, rfl, .next (goes_iff_turned.mpr first) hpath⟩

/-- Turns follow one another. -/
theorem Turns.append {s' s'' : Sending} {xs ys : List Cause} (h₁ : Turns a s xs s')
    (h₂ : Turns a s' ys s'') : Turns a s (xs ++ ys) s'' := by
  induction h₁ with
  | here _ => exact h₂
  | next first _ ih => exact .next first (ih h₂)

/-- A send that is done takes no turn. -/
theorem turns_done (h : Turns a (.done result') cs (.done result)) :
    cs = [] ∧ result' = result := by
  cases h with
  | here _ => exact ⟨rfl, rfl⟩
  | next first _ => cases first

/-- A send that leaves gives the right to send back and is done. -/
theorem turns_leaving (h : Turns a (.leaving left result') cs (.done result)) :
    cs = [.released a.side left] ∧ result' = result := by
  cases h with
  | next first rest =>
    cases first with
    | left _ _ =>
      obtain ⟨rfl, rfl⟩ := turns_done rest
      exact ⟨rfl, rfl⟩

/-- A call whose transaction is signed asks the node to take it, once. -/
theorem settles_of_turns (h : Turns a (.submitting t) cs (.done result)) :
    ∃ left, Settles a t cs left result := by
  cases h with
  | next first rest =>
    cases first with
    | refused _ e =>
      obtain ⟨rfl, rfl⟩ := turns_leaving rest
      exact ⟨_, .rejected e⟩
    | taken _ hash =>
      cases rest with
      | next first rest =>
        cases first with
        | reported _ =>
          obtain ⟨rfl, rfl⟩ := turns_leaving rest
          exact ⟨_, .accepted hash⟩

/-- A call with its nonce and its price has its transaction settled, or it cannot be signed and
leaves what it found. -/
theorem way_of_withPrice {xs ys : List Cause} {price : Nat} (hn : Learns a found n xs)
    (hp : Prices a price ys) (h : Turns a (withPrice a c found n price) cs (.done result)) :
    ∃ left, Way a c found (.acquired a.side found :: (xs ++ (ys ++ cs))) left result := by
  unfold withPrice at h
  split at h
  next e herror =>
    obtain ⟨rfl, rfl⟩ := turns_leaving h
    exact ⟨found, .unsigned hn hp herror⟩
  next hsigns =>
    obtain ⟨left, hsettles⟩ := settles_of_turns h
    exact ⟨left, .submitted hn hp hsigns hsettles⟩

/-- A call with its nonce learns the price, or it does not and leaves what it found. -/
theorem way_of_withNonce {xs : List Cause} (hn : Learns a found n xs)
    (h : Turns a (withNonce a c found n) cs (.done result)) :
    ∃ left, Way a c found (.acquired a.side found :: (xs ++ cs)) left result := by
  unfold withNonce at h
  split at h
  next price hprice => exact way_of_withPrice hn (.fixed hprice) h
  next hprice =>
    cases h with
    | next first rest =>
      cases first with
      | priced _ _ _ price => exact way_of_withPrice hn (.asked hprice price) rest
      | unpriced _ _ _ e =>
        obtain ⟨rfl, rfl⟩ := turns_leaving rest
        exact ⟨found, .unpriced hn hprice e⟩

/-- **There is no other way for a call to be dealt with.** -/
theorem way_of_turns (h : Turns a (.queued c) cs (.done result)) :
    ∃ found left, Way a c found cs left result := by
  cases h with
  | next first rest =>
    cases first with
    | known _ n =>
      obtain ⟨left, hway⟩ := way_of_withNonce (.found n) rest
      exact ⟨some n, left, hway⟩
    | unknown _ =>
      cases rest with
      | next first rest =>
        cases first with
        | counted _ n =>
          obtain ⟨left, hway⟩ := way_of_withNonce (.counted n) rest
          exact ⟨none, left, hway⟩
        | uncounted _ e =>
          obtain ⟨rfl, rfl⟩ := turns_leaving rest
          exact ⟨none, none, .uncounted e⟩

/-- A call with a nonce comes to its price. -/
theorem turns_withNonce {ys : List Cause} {known : Option UInt64} {price : Nat}
    (h : Prices a price ys) :
    Turns a (withNonce a c known n) ys (withPrice a c known n price) := by
  unfold withNonce
  cases h with
  | fixed h =>
    rw [h]
    exact .here _
  | asked h price =>
    rw [h]
    exact .next (.priced c known n price) (.here _)

/-- A call learns its nonce from the right to send or from the node. -/
theorem Learns.turns {xs : List Cause} (h : Learns a found n xs) :
    Turns a (.queued c) (.acquired a.side found :: xs) (withNonce a c found n) := by
  cases h with
  | found _ => exact .next (.known c n) (.here _)
  | counted _ => exact .next (.unknown c) (.next (.counted c n) (.here _))

/-- A submission settles by its answer, and the right to send is given back. -/
theorem Settles.turns (h : Settles a t cs left result) :
    Turns a (.submitting t) cs (.done result) := by
  cases h with
  | rejected e => exact .next (.refused t e) (.next (.left _ _) (.here _))
  | accepted hash => exact .next (.taken t hash) (.next (.reported _) (.next (.left _ _) (.here _)))

/-- Each of the ways can come about. -/
theorem Way.turns (h : Way a c found cs left result) : Turns a (.queued c) cs (.done result) := by
  cases h with
  | uncounted e => exact .next (.unknown c) (.next (.uncounted c e) (.next (.left _ _) (.here _)))
  | @unpriced _ n xs hn h e =>
    have hprice : withNonce a c found n = .pricing c found n := by rw [withNonce, h]
    have hlearns := hn.turns (c := c)
    rw [hprice] at hlearns
    exact hlearns.append (.next (.unpriced c found n e) (.next (.left _ _) (.here _)))
  | @unsigned _ n price _ _ e hn hp h =>
    have hleaving : withPrice a c found n price = .leaving found (.error e) :=
      withPrice_of_signingError h c found n price
    have hprices : Turns a (withNonce a c found n) _ (withPrice a c found n price) :=
      turns_withNonce hp
    rw [hleaving] at hprices
    exact hn.turns.append (hprices.append (.next (.left _ _) (.here _)))
  | @submitted _ _ n price _ _ _ _ hn hp h ht =>
    have hprices : Turns a (withNonce a c found n) _ (withPrice a c found n price) :=
      turns_withNonce hp
    rw [withPrice_of_signs h] at hprices
    exact hn.turns.append (hprices.append ht.turns)

/-- What a call finds and what it leaves can be read off its way. -/
theorem Way.acquired_iff (h : Way a c found cs left result) (x : Option UInt64) :
    .acquired a.side x ∈ cs ↔ x = found := by
  cases h with
  | uncounted e => simp
  | unpriced hn _ e => cases hn <;> simp
  | unsigned hn hp _ => cases hn <;> cases hp <;> simp
  | submitted hn hp _ ht => cases hn <;> cases hp <;> cases ht <;> simp

/-- The right to send is given back once, with what is then known. -/
theorem Way.released_iff (h : Way a c found cs left result) (x : Option UInt64) :
    .released a.side x ∈ cs ↔ x = left := by
  cases h with
  | uncounted e => simp
  | unpriced hn _ e => cases hn <;> simp
  | unsigned hn hp _ => cases hn <;> cases hp <;> simp
  | submitted hn hp _ ht => cases hn <;> cases hp <;> cases ht <;> simp

end Sending

/-! ## What a call shows that was dealt with -/

/-- The count of transactions that a node answers with. -/
def Cause.count? : Cause → Option UInt64
  | .answered _ (.transactionCount _) (.ok n) => some n
  | _ => none

/-- Why a node does not count or does not say the price. -/
def Cause.failure? : Cause → Option ChainError
  | .answered _ (.transactionCount _) (.error e) => some e
  | .answered _ .gasPrice (.error e) => some e
  | _ => none

/-- The transaction that a node says it took. -/
def Cause.acceptance? : Cause → Option Submitted
  | .answered _ (.submit t) (.ok hash) => some ⟨hash, t.body.nonce⟩
  | _ => none

/-- Why a node says it did not take a transaction. -/
def Cause.rejection? : Cause → Option ChainError
  | .answered _ (.submit _) (.error e) => some e
  | _ => none

/-- The transaction that a question asks a node to take. -/
def Query.transaction? : Query → Option SignedTransaction
  | .submit t => some t
  | _ => none

/-- A call that was dealt with. -/
structure Settled where
  call : Call
  /-- What the call found about the next nonce. -/
  found : Option UInt64
  causes : List Cause
  /-- What the call left about the next nonce. -/
  left : Option UInt64
  result : Except ChainError Submitted

namespace Settled

/-- The call came by the causes from the wait for the right to send to its return; on the way it got
the right with what it found, and gave it back with what it left. -/
structure Happened (a : Account) (s : Settled) : Prop where
  went : ∃ hs, hs.map (·.cause) = s.causes ∧
    Path (Sending.turn a) (.queued s.call) hs (.done s.result)
  acquired : .acquired a.side s.found ∈ s.causes
  released : .released a.side s.left ∈ s.causes

def questions (s : Settled) : List Query := (s.causes.filterMap Cause.question?).map (·.2)

def submissions (s : Settled) : List SignedTransaction := s.questions.filterMap Query.transaction?

def counts (s : Settled) : List UInt64 := s.causes.filterMap Cause.count?

def failures (s : Settled) : List ChainError := s.causes.filterMap Cause.failure?

def acceptances (s : Settled) : List Submitted := s.causes.filterMap Cause.acceptance?

def rejections (s : Settled) : List ChainError := s.causes.filterMap Cause.rejection?

/-- The nonce that the call went on with, if it came to one. -/
def nonce? (s : Settled) : Option UInt64 := s.found <|> s.counts.head?

variable {a : Account} {s : Settled}

theorem happened_iff_way :
    s.Happened a ↔ Sending.Way a s.call s.found s.causes s.left s.result := by
  constructor
  · intro h
    obtain ⟨hs, hcauses, hpath⟩ := h.went
    have hturns := Sending.turns_of_path hpath
    rw [hcauses] at hturns
    obtain ⟨found, left, hway⟩ := Sending.way_of_turns hturns
    rw [(hway.acquired_iff _).mp h.acquired, (hway.released_iff _).mp h.released]
    exact hway
  · intro h
    exact ⟨Sending.path_of_turns h.turns, (h.acquired_iff _).mpr rfl, (h.released_iff _).mpr rfl⟩

/-- What becomes of a call. -/
inductive Effect (a : Account) (s : Settled) : Prop
  /-- A question before the transaction fails. -/
  | failed (e : ChainError) (failures : s.failures = [e]) (submissions : s.submissions = [])
      (acceptances : s.acceptances = []) (rejections : s.rejections = [])
      (left : s.left = s.found) (result : s.result = .error e)
  /-- The account cannot sign. -/
  | unsigned (e : ChainError) {n : UInt64} (signs : a.signingError? = some e)
      (nonce : s.nonce? = some n) (failures : s.failures = []) (submissions : s.submissions = [])
      (acceptances : s.acceptances = []) (rejections : s.rejections = [])
      (left : s.left = s.found) (result : s.result = .error e)
  | rejected (e : ChainError) {n : UInt64} {price : Nat} (nonce : s.nonce? = some n)
      (failures : s.failures = []) (submissions : s.submissions = [Sending.sign a s.call n price])
      (acceptances : s.acceptances = []) (rejections : s.rejections = [e])
      (left : s.left = none) (result : s.result = .error e)
  | accepted (r : Submitted) {price : Nat} (nonce : s.nonce? = some r.nonce)
      (failures : s.failures = [])
      (submissions : s.submissions = [Sending.sign a s.call r.nonce price])
      (acceptances : s.acceptances = [r]) (rejections : s.rejections = [])
      (left : s.left = some (r.nonce + 1)) (result : s.result = .ok r)

/-- A send that has happened has the effect that its answer says. -/
theorem Happened.effect (h : s.Happened a) : s.Effect a := by
  have hway := happened_iff_way.mp h
  obtain ⟨call, found, causes, left, result⟩ := s
  dsimp only at hway
  cases hway with
  | uncounted e => exact .failed e rfl rfl rfl rfl rfl rfl
  | unpriced hn _ e => cases hn <;> exact .failed e rfl rfl rfl rfl rfl rfl
  | @unsigned _ _ _ _ _ e hn hp herror =>
    cases hn <;> cases hp <;> exact .unsigned e herror rfl rfl rfl rfl rfl rfl rfl
  | submitted hn hp _ ht =>
    cases ht with
    | rejected e => cases hn <;> cases hp <;> exact .rejected e rfl rfl rfl rfl rfl rfl rfl
    | accepted hash =>
      cases hn <;> cases hp <;> exact .accepted ⟨hash, _⟩ rfl rfl rfl rfl rfl rfl rfl

/-- What becomes of the nonce: the node is not asked to take the transaction, or it rejects it, or
it takes it. -/
theorem Effect.nonce_cases (h : s.Effect a) :
    s.acceptances = [] ∧ s.rejections = [] ∧ s.left = s.found ∨
      s.rejections ≠ [] ∧ s.left = none ∨
      ∃ r, s.nonce? = some r.nonce ∧ s.acceptances = [r] ∧ s.rejections = [] ∧
        s.left = some (r.nonce + 1) := by
  cases h with
  | failed e _ _ hacc hrej hleft _ => exact .inl ⟨hacc, hrej, hleft⟩
  | unsigned e _ _ _ _ hacc hrej hleft _ => exact .inl ⟨hacc, hrej, hleft⟩
  | rejected e _ _ _ _ hrej hleft _ =>
    exact .inr (.inl ⟨hrej ▸ List.cons_ne_nil e [], hleft⟩)
  | accepted r hnonce _ _ hacc hrej hleft _ => exact .inr (.inr ⟨r, hnonce, hacc, hrej, hleft⟩)

/-- A call asks for the count when it does not find the nonce, unless it has it then for the price
when the account has none, and then for the transaction to be taken. -/
theorem Happened.questions_cases (h : s.Happened a) {counting : List Query}
    (hcounting : counting = if s.found = none then [.transactionCount a.address] else []) :
    s.nonce? = none ∧ s.submissions = [] ∧ s.questions = counting ∨
      s.nonce? ≠ none ∧ a.gasPrice = none ∧
        s.questions = counting ++ .gasPrice :: s.submissions.map .submit ∨
      s.nonce? ≠ none ∧ a.gasPrice ≠ none ∧
        s.questions = counting ++ s.submissions.map .submit := by
  have hway := happened_iff_way.mp h
  obtain ⟨call, found, causes, left, result⟩ := s
  subst hcounting
  dsimp only at hway ⊢
  cases hway with
  | uncounted e => exact .inl ⟨rfl, rfl, rfl⟩
  | unpriced hn hprice e =>
    cases hn <;> exact .inr (.inl ⟨Option.some_ne_none _, hprice, rfl⟩)
  | unsigned hn hp _ =>
    cases hp with
    | fixed hprice =>
      have hsome : a.gasPrice ≠ none := hprice ▸ Option.some_ne_none _
      cases hn <;> exact .inr (.inr ⟨Option.some_ne_none _, hsome, rfl⟩)
    | asked hprice price =>
      cases hn <;> exact .inr (.inl ⟨Option.some_ne_none _, hprice, rfl⟩)
  | submitted hn hp _ ht =>
    cases hp with
    | fixed hprice =>
      have hsome : a.gasPrice ≠ none := hprice ▸ Option.some_ne_none _
      cases hn <;> cases ht <;> exact .inr (.inr ⟨Option.some_ne_none _, hsome, rfl⟩)
    | asked hprice price =>
      cases hn <;> cases ht <;> exact .inr (.inl ⟨Option.some_ne_none _, hprice, rfl⟩)

/-- **A call puts at most three questions**, in this order: for the count, unless it finds the
nonce; for the price, unless the account has one or the nonce is not known; and to take the
transaction. -/
theorem Happened.questions_eq (h : s.Happened a) :
    s.questions = (if s.found = none then [.transactionCount a.address] else []) ++
      ((if a.gasPrice = none ∧ s.nonce? ≠ none then [.gasPrice] else []) ++
        s.submissions.map .submit) := by
  rcases h.questions_cases rfl with ⟨hnonce, hnone, hq⟩ | ⟨hnonce, hprice, hq⟩ |
    ⟨hnonce, hprice, hq⟩
  · have hasks : ¬ (a.gasPrice = none ∧ s.nonce? ≠ none) := fun h => h.2 hnonce
    rw [hq, if_neg hasks, hnone, List.map_nil, List.append_nil, List.append_nil]
  · have hasks : a.gasPrice = none ∧ s.nonce? ≠ none := ⟨hprice, hnonce⟩
    rw [hq, if_pos hasks, List.singleton_append]
  · have hasks : ¬ (a.gasPrice = none ∧ s.nonce? ≠ none) := fun h => hprice h.1
    rw [hq, if_neg hasks, List.nil_append]

/-- The node is asked for its count only when no nonce is known. -/
theorem Happened.counts_eq (h : s.Happened a) :
    s.counts = if s.found = none then s.nonce?.toList else [] := by
  have hway := happened_iff_way.mp h
  obtain ⟨call, found, causes, left, result⟩ := s
  dsimp only at hway ⊢
  cases hway with
  | uncounted e => rfl
  | unpriced hn _ e => cases hn <;> rfl
  | unsigned hn hp _ => cases hn <;> cases hp <;> rfl
  | submitted hn hp _ ht => cases hn <;> cases hp <;> cases ht <;> rfl

/-- A call with the nonce known goes on with that. -/
theorem nonce?_of_found {n : UInt64} (h : s.found = some n) : s.nonce? = some n := by
  rw [nonce?, h]
  rfl

end Settled

/-! ## Calls one after the other -/

/-- Calls of an account in the order in which they get the right to send: each finds what the one
before it left. -/
inductive Succession (a : Account) :
    (found : Option UInt64) → List Settled → (left : Option UInt64) → Prop
  | nil (known : Option UInt64) : Succession a known [] known
  | cons {s : Settled} {rest : List Settled} {left : Option UInt64} (first : s.Happened a)
      (others : Succession a s.left rest left) : Succession a s.found (s :: rest) left

/-- Nothing can be known about the next nonce after these calls: none of them had its transaction
taken, or none did after one that had its transaction rejected. -/
def Unknown (before : List Settled) : Prop :=
  (∀ s ∈ before, s.acceptances = []) ∨
    ∃ xs s ys, before = xs ++ s :: ys ∧ s.rejections ≠ [] ∧ ∀ t ∈ ys, t.acceptances = []

theorem unknown_nil : Unknown [] := .inl fun _ h => by cases h

/-- The last call decides, unless nothing was made of its transaction. -/
theorem unknown_concat {before : List Settled} {s : Settled} :
    Unknown (before ++ [s]) ↔ s.rejections ≠ [] ∨ s.acceptances = [] ∧ Unknown before := by
  constructor
  · rintro (hall | ⟨xs, t, ys, heq, ht, hys⟩)
    · exact .inr ⟨hall s (by simp), .inl fun t ht => hall t (List.mem_append_left _ ht)⟩
    · rcases List.eq_nil_or_concat ys with rfl | ⟨zs, u, rfl⟩
      · obtain ⟨-, hst⟩ := List.append_inj' heq rfl
        obtain rfl := (List.cons.inj hst).1
        exact .inl ht
      · rw [List.concat_eq_append, ← List.cons_append, ← List.append_assoc] at heq
        obtain ⟨hbefore, hsu⟩ := List.append_inj' heq rfl
        obtain rfl := (List.cons.inj hsu).1
        refine .inr ⟨hys s (by simp), .inr ⟨xs, t, zs, hbefore, ht, fun v hv => ?_⟩⟩
        exact hys v (by simp [hv])
  · rintro (hs | ⟨hs, hall | ⟨xs, t, ys, rfl, ht, hys⟩⟩)
    · exact .inr ⟨before, s, [], rfl, hs, fun _ h => by cases h⟩
    · refine .inl fun t ht => ?_
      rcases List.mem_append.mp ht with hmem | hmem
      · exact hall t hmem
      · rw [List.mem_singleton.mp hmem]
        exact hs
    · refine .inr ⟨xs, t, ys ++ [s], by simp, ht, fun u hu => ?_⟩
      rcases List.mem_append.mp hu with hmem | hmem
      · exact hys u hmem
      · rw [List.mem_singleton.mp hmem]
        exact hs

namespace Succession

variable {a : Account} {found left : Option UInt64} {s : Settled} {xs ys before : List Settled}

theorem cons_way {c : Call} {cs : List Cause} {mid : Option UInt64}
    {result : Except ChainError Submitted} (first : Sending.Way a c found cs mid result)
    (others : Succession a mid xs left) :
    Succession a found (⟨c, found, cs, mid, result⟩ :: xs) left :=
  .cons (s := ⟨c, found, cs, mid, result⟩) (Settled.happened_iff_way.mpr first) others

theorem of_nil (h : Succession a found [] left) : left = found := by
  cases h
  rfl

/-- A row of sends can be cut anywhere. -/
theorem of_append (h : Succession a found (xs ++ ys) left) :
    ∃ mid, Succession a found xs mid ∧ Succession a mid ys left := by
  induction xs generalizing found with
  | nil => exact ⟨found, .nil found, h⟩
  | cons s xs ih =>
    cases h with
    | cons first others =>
      obtain ⟨mid, hxs, hys⟩ := ih others
      exact ⟨mid, .cons first hxs, hys⟩

theorem of_cons (h : Succession a found (s :: xs) left) :
    s.found = found ∧ s.Happened a ∧ Succession a s.left xs left := by
  cases h with
  | cons first others => exact ⟨rfl, first, others⟩

/-- Every send of a row has happened. -/
theorem happened (h : Succession a found xs left) : ∀ s ∈ xs, s.Happened a := by
  induction h with
  | nil _ => simp
  | cons first _ ih => exact List.forall_mem_cons.mpr ⟨first, ih⟩

/-- **Nothing is known exactly when nothing can be.** -/
theorem none_iff (h : Succession a none before left) : left = none ↔ Unknown before := by
  induction before using List.reverseRecOn generalizing left with
  | nil => exact iff_of_true h.of_nil unknown_nil
  | append_singleton before s ih =>
    obtain ⟨mid, hbefore, hs⟩ := h.of_append
    obtain ⟨rfl, hhappened, hlast⟩ := hs.of_cons
    obtain rfl := hlast.of_nil
    rw [unknown_concat]
    rcases hhappened.effect.nonce_cases with ⟨hacc, hrej, hleft⟩ | ⟨hrej, hleft⟩ |
      ⟨r, -, hacc, hrej, hleft⟩
    · simp [hacc, hrej, hleft, ih hbefore]
    · simp [hrej, hleft]
    · simp [hacc, hrej, hleft]

/-- The transactions that are taken carry `n` and the nonces after it. -/
def Numbered (n : UInt64) (hist : List Settled) : Prop :=
  (hist.flatMap Settled.acceptances).map (·.nonce.toNat) =
    List.range' n.toNat (hist.flatMap Settled.acceptances).length

/-- An accepted send takes the next number and the others follow. -/
theorem numbered_cons {r : Submitted} (hs : s.acceptances = [r])
    (hbound : r.nonce.toNat + 1 < UInt64.size) (h : Numbered (r.nonce + 1) xs) :
    Numbered r.nonce (s :: xs) := by
  have hnext : (r.nonce + 1).toNat = r.nonce.toNat + 1 := by
    rw [UInt64.toNat_add]
    exact Nat.mod_eq_of_lt hbound
  rw [Numbered, hnext] at h
  rw [Numbered, List.flatMap_cons, hs, List.map_append, h]
  simp [List.range'_succ]

/-- Calls that find the nonce use it and those after it, and none of them asks for the count, until
a transaction is rejected. -/
theorem numbered_of_known {n : UInt64} (h : Succession a (some n) xs left)
    (hbound : ∀ s ∈ xs, ∀ r ∈ s.acceptances, r.nonce.toNat + 1 < UInt64.size)
    (hquiet : ∀ s ∈ xs, s.rejections = []) :
    xs.flatMap Settled.counts = [] ∧ Numbered n xs := by
  induction xs generalizing n with
  | nil => exact ⟨rfl, rfl⟩
  | cons s xs ih =>
    obtain ⟨hfound, hs, hrest⟩ := h.of_cons
    have hcounts : s.counts = [] := by rw [hs.counts_eq, hfound]; rfl
    obtain ⟨hbounds, hboundxs⟩ := List.forall_mem_cons.mp hbound
    obtain ⟨hquiets, hquietxs⟩ := List.forall_mem_cons.mp hquiet
    rw [List.flatMap_cons, hcounts, List.nil_append]
    rcases hs.effect.nonce_cases with ⟨hacc, -, hleft⟩ | ⟨hrej, -⟩ | ⟨r, hnonce, hacc, -, hleft⟩
    · rw [hleft, hfound] at hrest
      obtain ⟨hnone, hnumbered⟩ := ih hrest hboundxs hquietxs
      exact ⟨hnone, by simpa [Numbered, hacc] using hnumbered⟩
    · exact absurd hquiets hrej
    · obtain rfl : r.nonce = n :=
        Option.some.inj (hnonce.symm.trans (Settled.nonce?_of_found hfound))
      rw [hleft] at hrest
      obtain ⟨hnone, hnumbered⟩ := ih hrest hboundxs hquietxs
      exact ⟨hnone, numbered_cons hacc (hbounds r (by simp [hacc])) hnumbered⟩

/-- Calls that start with nothing known use the count that was last answered and the nonces after
it, until a transaction is rejected. -/
theorem numbered_of_unknown (h : Succession a none xs left)
    (hbound : ∀ s ∈ xs, ∀ r ∈ s.acceptances, r.nonce.toNat + 1 < UInt64.size)
    (hquiet : ∀ s ∈ xs, s.rejections = []) :
    xs.flatMap Settled.acceptances = [] ∨
      ∃ n, (xs.flatMap Settled.counts).getLast? = some n ∧ Numbered n xs := by
  induction xs with
  | nil => exact .inl rfl
  | cons s xs ih =>
    obtain ⟨hfound, hs, hrest⟩ := h.of_cons
    have hcounts : s.counts = s.nonce?.toList := by rw [hs.counts_eq, if_pos hfound]
    obtain ⟨hbounds, hboundxs⟩ := List.forall_mem_cons.mp hbound
    obtain ⟨hquiets, hquietxs⟩ := List.forall_mem_cons.mp hquiet
    rcases hs.effect.nonce_cases with ⟨hacc, -, hleft⟩ | ⟨hrej, -⟩ | ⟨r, hnonce, hacc, -, hleft⟩
    · -- The calls after this one start where it did.
      rw [hleft, hfound] at hrest
      rcases ih hrest hboundxs hquietxs with hnil | ⟨n, hlast, hnumbered⟩
      · exact .inl (by rw [List.flatMap_cons, hacc, hnil]; rfl)
      · refine .inr ⟨n, ?_, by simpa [Numbered, hacc] using hnumbered⟩
        rw [List.flatMap_cons, List.getLast?_append, hlast]
        rfl
    · exact absurd hquiets hrej
    · -- Those after this one find the nonce, and ask no more.
      rw [hleft] at hrest
      obtain ⟨hnone, hnumbered⟩ := hrest.numbered_of_known hboundxs hquietxs
      refine .inr ⟨r.nonce, ?_, numbered_cons hacc (hbounds r (by simp [hacc])) hnumbered⟩
      rw [List.flatMap_cons, hnone, hcounts, hnonce]
      rfl

/-- What becomes of the nonces when calls are dealt with one after the other. -/
structure NonceUse (a : Account) (hist : List Settled) : Prop where
  /-- Before the first rejection, between two of them, and after the last, the transactions taken
  carry the count that was last answered and the nonces after it. -/
  numbered : ∀ before stretch after, hist = before ++ (stretch ++ after) →
    (∀ s ∈ before.getLast?, s.rejections ≠ []) → (∀ s ∈ stretch, s.rejections = []) →
      stretch.flatMap Settled.acceptances = [] ∨
        ∃ n, (stretch.flatMap Settled.counts).getLast? = some n ∧ Numbered n stretch
  /-- The count is asked for by the calls before the first acceptance, and by those after a
  rejection and before the next acceptance. -/
  counted : ∀ before s after, hist = before ++ s :: after →
    (.transactionCount a.address ∈ s.questions ↔ Unknown before)
  /-- The price is asked for when the account has none and the nonce is known, and after that. -/
  asked : ∀ s ∈ hist, s.questions =
    (if s.found = none then [.transactionCount a.address] else []) ++
      ((if a.gasPrice = none ∧ s.nonce? ≠ none then [.gasPrice] else []) ++
        s.submissions.map .submit)
  /-- A call whose question for the count or the price fails, or that cannot be signed, leaves what
  it found; one whose transaction is rejected leaves nothing; one whose transaction is taken returns
  its nonce. -/
  effect : ∀ s ∈ hist, s.Effect a
  /-- After a rejection the count is asked for. -/
  resynced : ∀ before s t after, hist = before ++ s :: t :: after → s.rejections ≠ [] →
    .transactionCount a.address ∈ t.questions

variable {hist stretch after : List Settled}

/-- A send asks for the count just when no nonce is known before it. -/
theorem asks_count_iff (h : Succession a none (before ++ s :: after) left) :
    .transactionCount a.address ∈ s.questions ↔ Unknown before := by
  obtain ⟨mid, hbefore, hs⟩ := h.of_append
  obtain ⟨rfl, hhappened, -⟩ := hs.of_cons
  rw [← hbefore.none_iff, hhappened.questions_eq]
  constructor
  · intro hmem
    by_contra hfound
    rw [if_neg hfound, List.nil_append] at hmem
    rcases List.mem_append.mp hmem with hprice | hsubmit
    · split at hprice <;> simp at hprice
    · simp at hsubmit
  · intro hfound
    rw [if_pos hfound]
    exact List.mem_append_left _ (List.mem_singleton.mpr rfl)

/-- After a rejection no nonce is known. -/
theorem unknown_of_rejected (h : ∀ s ∈ before.getLast?, s.rejections ≠ []) : Unknown before := by
  rcases List.eq_nil_or_concat before with rfl | ⟨init, s, rfl⟩
  · exact unknown_nil
  · rw [List.concat_eq_append]
    exact unknown_concat.mpr (.inl (h s (by simp)))

/-- **The nonces of an account against any node.** Nothing is known of the node: its counts, its
prices, and what it takes or rejects need have nothing to do with each other. -/
theorem nonceUse (h : Succession a none hist left)
    (hbound : ∀ r ∈ hist.flatMap Settled.acceptances, r.nonce.toNat + 1 < UInt64.size) :
    NonceUse a hist where
  numbered before stretch after heq hlast hquiet := by
    subst heq
    obtain ⟨mid, hbefore, hrest⟩ := h.of_append
    obtain ⟨mid', hstretch, -⟩ := hrest.of_append
    obtain rfl := hbefore.none_iff.mpr (unknown_of_rejected hlast)
    refine hstretch.numbered_of_unknown (fun s hs r hr => hbound r ?_) hquiet
    exact List.mem_flatMap.mpr ⟨s, by simp [hs], hr⟩
  counted before s after heq := by
    subst heq
    exact h.asks_count_iff
  asked s hs := (h.happened s hs).questions_eq
  effect s hs := (h.happened s hs).effect
  resynced before s t after heq hs := by
    rw [heq, List.append_cons] at h
    exact h.asks_count_iff.mpr (unknown_concat.mpr (.inl hs))

/-- The node counts 7 and takes a transaction; it does not say the price to the next call, takes
the transaction of the third, and rejects that of the fourth; then it counts 4. -/
theorem nonceUse_rejected_once :
    ∃ hist left, Succession Outbox.sender none hist left ∧
      (∀ r ∈ hist.flatMap Settled.acceptances, r.nonce.toNat + 1 < UInt64.size) ∧
      NonceUse Outbox.sender hist ∧
      (hist.flatMap Settled.acceptances).map (·.nonce.toNat) = [7, 8, 4] := by
  have hprice : Outbox.sender.gasPrice = none := rfl
  obtain ⟨hist, left, h, hnonces⟩ : ∃ hist left, Succession Outbox.sender none hist left ∧
      (hist.flatMap Settled.acceptances).map (·.nonce.toNat) = [7, 8, 4] :=
    ⟨_, _,
      .cons_way (c := ⟨.zero, [1]⟩) (.submitted (.counted 7) (.asked hprice 5) rfl (.accepted 1)) <|
      .cons_way (c := ⟨.zero, [2]⟩) (.unpriced (.found 8) hprice (.submission "timeout")) <|
      .cons_way (c := ⟨.zero, [3]⟩) (.submitted (.found 8) (.asked hprice 6) rfl (.accepted 2)) <|
      .cons_way (c := ⟨.zero, [4]⟩)
        (.submitted (.found 9) (.asked hprice 6) rfl (.rejected (.submission "nonce too low"))) <|
      .cons_way (c := ⟨.zero, [5]⟩) (.submitted (.counted 4) (.asked hprice 6) rfl (.accepted 3)) <|
      .nil _, rfl⟩
  have hbound : ∀ r ∈ hist.flatMap Settled.acceptances, r.nonce.toNat + 1 < UInt64.size := by
    intro r hr
    have hmem : r.nonce.toNat ∈ [7, 8, 4] := hnonces ▸ List.mem_map_of_mem hr
    have hall : ∀ n ∈ [7, 8, 4], n + 1 < UInt64.size := by decide
    exact hall _ hmem
  exact ⟨hist, left, h, hbound, h.nonceUse hbound, hnonces⟩

end Succession
end EventRelay
