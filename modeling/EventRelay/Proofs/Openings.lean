import EventRelay.Proofs.Accounting
import EventRelay.Proofs.Stopping

/-!
# Opening subscriptions, giving up and draining

A relay that follows opens one subscription after the other, asks for each up to eleven times, and
gives up when all of these fail. The answer to a request and the end of the relay may be there at
once, and then either of them can go first: a relay that was told to stop still gives up when the
last failure does (`gives_up_told_and_stops_untold`), but for at most one answer after the end
(`Led.answered_le`). Whether it gives up or stops, it then waits for the logs on their way, which
go on meanwhile as if it still had a subscription. `openings` is what was asked at each opening, as
it can be read off what happened.

Main statement:

* `opens_and_drains`: what a run of a relay comes to, whatever the nodes answer.
-/

namespace EventRelay

/-- A subscription that was asked for, with the answer unless the relay stopped first. -/
structure Try where
  side : Side
  filter : LogFilter
  answer : Option (Except ChainError Unit)

/-- The subscription that was, or may have been, asked for in a turn. -/
def Cause.attempt? : Cause → Option Try
  | .answered side (.subscribe filter) reply => some ⟨side, filter, some reply⟩
  | .late (some (side, .subscribe filter)) => some ⟨side, filter, none⟩
  | .cancelled (some (side, .subscribe filter)) => some ⟨side, filter, none⟩
  | _ => none

/-- The answer that a subscription got in a turn. -/
def Cause.subscribed? (x : Cause) : Option (Except ChainError Unit) := x.attempt?.bind (·.answer)

/-- The side whose newest block was, or may have been, asked for in a turn, with the answer unless
the relay stopped first. -/
def Cause.head? : Cause → Option (Side × Option (Except ChainError UInt64))
  | .answered side .blockNumber reply => some (side, some reply)
  | .late (some (side, .blockNumber)) => some (side, none)
  | .cancelled (some (side, .blockNumber)) => some (side, none)
  | _ => none

namespace Relay

/-- What was asked to open a subscription. -/
structure Opening where
  /-- The questions for the newest block. -/
  heads : List (Side × Option (Except ChainError UInt64))
  tries : List Try

/-- The openings of a run. -/
structure Openings where
  /-- Those that came to a subscription, the last one in front. -/
  past : List Opening
  /-- What was asked since then. -/
  present : Opening

/-- All openings of a run. -/
def Openings.all (os : Openings) : List Opening := os.present :: os.past

/-- An opening at which nothing was asked yet. -/
def Opening.empty : Opening := ⟨[], []⟩

/-- An opening with one more subscription asked for. -/
def Opening.add (o : Opening) (t : Try) : Opening := { o with tries := o.tries ++ [t] }

/-- Takes in what happens. An opening is over when the subscription is there. -/
def Openings.hear (os : Openings) (x : Cause) : Openings :=
  match x.head?, x.attempt? with
  | some h, _ => { os with present := { os.present with heads := os.present.heads ++ [h] } }
  | none, some t =>
    match t.answer with
    | some (.ok _) => ⟨os.present.add t :: os.past, .empty⟩
    | _ => { os with present := os.present.add t }
  | none, none => os

/-- The openings of a run, by what happened in it. -/
def openings (xs : List (Nat × Happening)) : Openings :=
  xs.foldl (fun os y => os.hear y.2.cause) ⟨[], .empty⟩

theorem openings_concat (xs : List (Nat × Happening)) (y : Nat × Happening) :
    openings (xs ++ [y]) = (openings xs).hear y.2.cause :=
  List.foldl_append

/-- What comes of a relay that is leaving or has left. -/
def Phase.result? : Phase → Option (Except RelayError Unit)
  | .leaving result | .done result => some result
  | _ => none

variable {r : Relay} {m : Instant} {x : Cause} {f f' : Following} {c c' : Course}

/-! ## One opening -/

namespace Opening

/-- An opening that begins with a block, or with none: it asks for one subscription at most eleven
times, again only after a failure, and for the newest block just once and only if it begins with
none. -/
structure IsFrom (r : Relay) (b : Option UInt64) (o : Opening) : Prop where
  same : ∀ t ∈ o.tries, t.side = .pub ∧ t.filter = r.filter b
  bounded : o.tries.length ≤ maxRetries + 1
  failed : ∀ t ∈ o.tries.dropLast, ∃ e, t.answer = some (.error e)
  sides : ∀ h ∈ o.heads, h.1 = .pub
  heads : o.heads.length ≤ if b.isNone then 1 else 0
  headed : o.tries ≠ [] → o.heads.length = if b.isNone then 1 else 0

/-- An opening that asked for its subscription a number of times, and always failed. -/
structure Tried (r : Relay) (b : Option UInt64) (n : Nat) (o : Opening) : Prop where
  count : o.tries.length = n
  failed : ∀ t ∈ o.tries, ∃ e, t = ⟨.pub, r.filter b, some (.error e)⟩
  sides : ∀ h ∈ o.heads, h.1 = .pub
  headed : o.heads.length = if b.isNone then 1 else 0

/-- An opening that failed as often as it may, and the error that comes of it: the text is that of
the last failure. -/
def Exhausted (err : RelayError) (o : Opening) : Prop :=
  o.tries.length = maxRetries + 1 ∧ ∃ t ∈ o.tries.getLast?, ∃ e, t.answer = some (.error e) ∧
    err = .subscription e.message

variable {o : Opening} {b : Option UInt64} {n : Nat} {err err' : RelayError}

theorem isFrom_empty (r : Relay) (b : Option UInt64) : IsFrom r b .empty where
  same _ h := nomatch h
  bounded := Nat.zero_le _
  failed _ h := nomatch h
  sides _ h := nomatch h
  heads := Nat.zero_le _
  headed h := absurd rfl h

/-- Tries that failed make an opening, as long as they are no more than are allowed. -/
theorem Tried.isFrom (h : o.Tried r b n) (hn : n ≤ maxRetries + 1) : o.IsFrom r b where
  same t ht := by
    obtain ⟨e, rfl⟩ := h.failed t ht
    exact ⟨rfl, rfl⟩
  bounded := h.count.trans_le hn
  failed t ht := by
    obtain ⟨e, rfl⟩ := h.failed t (List.mem_of_mem_dropLast ht)
    exact ⟨e, rfl⟩
  sides := h.sides
  heads := h.headed.le
  headed _ := h.headed

/-- Whatever comes of one more try, the opening asks for the same subscription. -/
theorem Tried.isFrom_add (h : o.Tried r b n) (hn : n ≤ maxRetries)
    (answer : Option (Except ChainError Unit)) :
    (o.add ⟨.pub, r.filter b, answer⟩).IsFrom r b where
  same t ht := by
    rcases List.mem_append.mp ht with ht | ht
    · obtain ⟨e, rfl⟩ := h.failed t ht
      exact ⟨rfl, rfl⟩
    · obtain rfl := List.mem_singleton.mp ht
      exact ⟨rfl, rfl⟩
  bounded := by
    rw [add, List.length_append, h.count]
    exact Nat.succ_le_succ hn
  failed t ht := by
    rw [add, List.dropLast_concat] at ht
    obtain ⟨e, rfl⟩ := h.failed t ht
    exact ⟨e, rfl⟩
  sides := h.sides
  heads := h.headed.le
  headed _ := h.headed

/-- A refused opening is one more try. -/
theorem Tried.add (h : o.Tried r b n) (e : ChainError) :
    (o.add ⟨.pub, r.filter b, some (.error e)⟩).Tried r b (n + 1) where
  count := by rw [Opening.add, List.length_append, h.count]; rfl
  failed t ht := by
    rcases List.mem_append.mp ht with ht | ht
    · exact h.failed t ht
    · exact ⟨e, List.mem_singleton.mp ht⟩
  sides := h.sides
  headed := h.headed

/-- An opening that may still try is not exhausted. -/
theorem not_exhausted (h : o.tries.length ≤ maxRetries) : ¬ o.Exhausted err := by
  intro hex
  rw [hex.1] at h
  exact absurd h (Nat.not_succ_le_self _)

/-- An opening whose last question was not answered with a failure is not exhausted. -/
theorem not_exhausted_add {t : Try} (ht : ∀ e, t.answer ≠ some (.error e)) :
    ¬ (o.add t).Exhausted err := by
  rintro ⟨-, t', ht', e, he, -⟩
  rw [add, List.getLast?_concat] at ht'
  obtain rfl := Option.some.inj ht'
  exact ht e he

/-- The tries end with one error. -/
theorem Exhausted.unique (h : o.Exhausted err) (h' : o.Exhausted err') : err = err' := by
  obtain ⟨-, t, ht, e, he, rfl⟩ := h
  obtain ⟨-, t', ht', e', he', rfl⟩ := h'
  obtain rfl := Option.some.inj (ht.symm.trans ht')
  cases Option.some.inj (he.symm.trans he')
  rfl

end Opening

/-! ## The relay that follows -/

namespace Following

/-- The opening under way in a phase. -/
def Present (r : Relay) (o : Opening) (f : Following) : Prop :=
  match f.phase with
  | .turning | .opened _ | .listening | .handing _ => o = .empty
  | .heading => o = .empty ∧ f.fromBlock = none
  | .opening _ n | .pausing _ n _ => o.Tried r f.fromBlock n ∧ n ≤ maxRetries
  | .retrying _ n => o.Tried r f.fromBlock (n + 1) ∧ n < maxRetries
  | .leaving (.error err) | .done (.error err) =>
    (∃ b, o.Tried r b (maxRetries + 1)) ∧ o.Exhausted err
  | .leaving (.ok _) | .done (.ok _) => (∃ b, o.IsFrom r b) ∧ ∀ err, ¬ o.Exhausted err

/-- What a relay that follows keeps of its openings. -/
structure Opens (r : Relay) (os : Openings) (f : Following) : Prop where
  past : ∀ o ∈ os.past, (∃ b, o.IsFrom r b) ∧ ∃ t ∈ o.tries.getLast?, t.answer = some (.ok ())
  present : Present r os.present f

variable {os : Openings}

theorem not_exhausted_empty {err : RelayError} : ¬ Opening.empty.Exhausted err :=
  Opening.not_exhausted (Nat.zero_le _)

/-- At an opening without a first block the newest block is asked for. -/
theorem isFrom_heads (r : Relay) (answer : Option (Except ChainError UInt64)) :
    Opening.IsFrom r none ⟨[(.pub, answer)], []⟩ where
  same _ h := nomatch h
  bounded := Nat.zero_le _
  failed _ h := nomatch h
  sides h hh := by rw [List.mem_singleton.mp hh]
  heads := Nat.le_refl 1
  headed h := absurd rfl h

theorem tried_heads (r : Relay) (reply : Except ChainError UInt64) :
    Opening.Tried r none 0 ⟨[(.pub, some reply)], []⟩ where
  count := rfl
  failed _ h := nomatch h
  sides h hh := by rw [List.mem_singleton.mp hh]
  headed := rfl

theorem tried_empty (r : Relay) (b : UInt64) : Opening.Tried r (some b) 0 .empty where
  count := rfl
  failed _ h := nomatch h
  sides _ h := nomatch h
  headed := rfl

/-- A relay that stops leaves the opening under way as it is, with one more question perhaps. -/
theorem Opens.cancelled (h : Opens r os f) (hf : f.phase.yields = true) :
    Opens r (os.hear (.cancelled (f.turn r).demand.question?))
      { f with phase := .leaving (.ok ()) } := by
  obtain ⟨past, present⟩ := os
  obtain ⟨last, b, phase⟩ := f
  have hpresent := h.present
  cases phase with
  | heading =>
    obtain ⟨rfl, -⟩ := hpresent
    exact ⟨h.past, ⟨none, isFrom_heads r none⟩,
      fun err => Opening.not_exhausted (Nat.zero_le _)⟩
  | opening head n =>
    obtain ⟨htried, hn⟩ := hpresent
    exact ⟨h.past, ⟨b, htried.isFrom_add hn _⟩, fun err => Opening.not_exhausted_add nofun⟩
  | retrying head n =>
    obtain ⟨htried, hn⟩ := hpresent
    exact ⟨h.past, ⟨b, htried.isFrom (Nat.le_succ_of_le hn)⟩,
      fun err => Opening.not_exhausted (htried.count.trans_le hn)⟩
  | pausing head n time =>
    obtain ⟨htried, hn⟩ := hpresent
    exact ⟨h.past, ⟨b, htried.isFrom (Nat.le_succ_of_le hn)⟩,
      fun err => Opening.not_exhausted (htried.count.trans_le hn)⟩
  | listening =>
    obtain rfl : present = .empty := hpresent
    exact ⟨h.past, ⟨b, Opening.isFrom_empty r b⟩, fun err => not_exhausted_empty⟩
  | _ => cases hf

/-- **Every turn keeps to the openings.** -/
theorem Turned.opens (h : Turned r m f x f') (ho : Opens r os f) : Opens r (os.hear x) f' := by
  obtain ⟨past, present⟩ := os
  have hpresent := ho.present
  cases h with
  | stopped last b _ =>
    obtain rfl : present = .empty := hpresent
    exact ⟨ho.past, ⟨b, Opening.isFrom_empty r b⟩, fun err => not_exhausted_empty⟩
  | resumed block index b _ =>
    obtain rfl : present = .empty := hpresent
    exact ⟨ho.past, tried_empty r block, Nat.zero_le _⟩
  | started b _ =>
    obtain rfl : present = .empty := hpresent
    exact ⟨ho.past, tried_empty r b, Nat.zero_le _⟩
  | unstarted _ => exact ⟨ho.past, hpresent, rfl⟩
  | headed last b head =>
    obtain ⟨rfl, hb⟩ := hpresent
    obtain rfl : b = none := hb
    exact ⟨ho.past, tried_heads r (.ok head), Nat.zero_le _⟩
  | unheaded last b e =>
    obtain ⟨rfl, hb⟩ := hpresent
    obtain rfl : b = none := hb
    exact ⟨ho.past, tried_heads r (.error e), Nat.zero_le _⟩
  | subscribed last b head n =>
    -- The opening is over, and nothing was asked at the next one yet.
    obtain ⟨htried, hn⟩ := hpresent
    refine ⟨List.forall_mem_cons.mpr ⟨⟨⟨b, htried.isFrom_add hn _⟩, ?_⟩, ho.past⟩, rfl⟩
    exact ⟨_, List.getLast?_concat, rfl⟩
  | refused last b head n e hr =>
    obtain ⟨htried, hn⟩ := hpresent
    exact ⟨ho.past, htried.add e, hr⟩
  | givenUp last b head n e hr =>
    obtain ⟨htried, hn⟩ := hpresent
    obtain rfl : n = maxRetries := Nat.le_antisymm hn (Nat.le_of_not_lt hr)
    have hadd := htried.add e
    exact ⟨ho.past, ⟨b, hadd⟩, hadd.count, _, List.getLast?_concat, e, rfl, rfl⟩
  | backedOff last b head n _ => exact ⟨ho.past, hpresent⟩
  | retried last b head n time _ => exact ⟨ho.past, hpresent⟩
  | left last b result => exact ⟨ho.past, by cases result <;> exact hpresent⟩
  | cancelled f _ hf => exact ho.cancelled hf
  | _ => exact ⟨ho.past, hpresent⟩

/-- Whatever the phase, what was asked at each opening is for one subscription. -/
theorem Present.isFrom {o : Opening} (h : Present r o f) : ∃ b, o.IsFrom r b := by
  obtain ⟨last, b, phase⟩ := f
  cases phase with
  | opening | pausing => exact ⟨b, h.1.isFrom (Nat.le_succ_of_le h.2)⟩
  | retrying => exact ⟨b, h.1.isFrom (Nat.le_succ_of_le h.2)⟩
  | leaving result | done result =>
    cases result with
    | ok _ => exact h.1
    | error err =>
      obtain ⟨b, htried⟩ := h.1
      exact ⟨b, htried.isFrom (Nat.le_refl _)⟩
  | heading => exact ⟨b, h.1 ▸ Opening.isFrom_empty r b⟩
  | _ =>
    obtain rfl : o = .empty := h
    exact ⟨b, Opening.isFrom_empty r b⟩

/-- **A relay gives up exactly when its present opening is exhausted.** -/
theorem Present.exhausted_iff {o : Opening} (h : Present r o f) (err : RelayError) :
    o.Exhausted err ↔ f.phase.result? = some (.error err) := by
  obtain ⟨last, b, phase⟩ := f
  cases phase with
  | opening | pausing =>
    exact ⟨fun hex => absurd hex (Opening.not_exhausted (h.1.count.trans_le h.2)), nofun⟩
  | retrying =>
    exact ⟨fun hex => absurd hex (Opening.not_exhausted (h.1.count.trans_le h.2)), nofun⟩
  | leaving result | done result =>
    cases result with
    | ok _ => exact ⟨fun hex => absurd hex (h.2 err), nofun⟩
    | error err' =>
      constructor
      · intro hex
        rw [hex.unique h.2]
        rfl
      · intro heq
        cases heq
        exact h.2
  | heading => exact ⟨fun hex => absurd (h.1 ▸ hex) not_exhausted_empty, nofun⟩
  | _ =>
    obtain rfl : o = .empty := h
    exact ⟨fun hex => absurd hex not_exhausted_empty, nofun⟩

/-- A relay gives up exactly when one of its openings is exhausted. -/
theorem Opens.givenUp_iff (h : Opens r os f) (err : RelayError) :
    f.phase.result? = some (.error err) ↔ ∃ o ∈ os.all, o.Exhausted err := by
  rw [← h.present.exhausted_iff err]
  constructor
  · exact fun hex => ⟨os.present, List.mem_cons_self, hex⟩
  · rintro ⟨o, ho, hex⟩
    rcases List.mem_cons.mp ho with rfl | ho
    · exact hex
    · -- An opening that is over ended with a subscription.
      obtain ⟨-, t, ht, hok⟩ := h.past o ho
      obtain ⟨-, t', ht', e, he, -⟩ := hex
      obtain rfl := Option.some.inj (ht.symm.trans ht')
      cases Option.some.inj (hok.symm.trans he)

/-- A relay that is leaving only waits for what it started. -/
theorem Turned.of_result {result : Except RelayError Unit} (h : Turned r m f x f')
    (hf : f.phase.result? = some result) :
    f.phase = .leaving result ∧ x = .joined ∧ f'.phase = .done result := by
  cases h with
  | left last b result' =>
    obtain rfl := Option.some.inj hf
    exact ⟨rfl, rfl, rfl⟩
  | cancelled f _ hy =>
    obtain ⟨last, b, phase⟩ := f
    cases phase <;> first | (cases hf; done) | cases hy
  | _ => cases hf

/-- A relay is done with the turn for which it waited. -/
theorem Turned.joined_of_done {result : Except RelayError Unit} (h : Turned r m f x f')
    (hf' : f'.phase = .done result) : x = .joined ∧ f.phase = .leaving result := by
  cases h with
  | left last b result' =>
    cases hf'
    exact ⟨rfl, rfl⟩
  | _ => cases hf'

/-- What sets out in a turn of the relay has only just arrived. -/
theorem arriving_of_setOut (h : c ∈ f.setOut r x) : ∃ log, c = .arriving log := by
  cases x with
  | spawned =>
    obtain ⟨log, -, rfl⟩ := List.mem_map.mp h
    exact ⟨log, rfl⟩
  | _ => cases h

/-- A relay leaves without an error only when it was told to stop or stops. -/
theorem Turned.ok_of_stop (h : Turned r m f x f') (hf : f.phase.result? = none)
    (hf' : f'.phase.result? = some (.ok ())) : m.told = true ∨ m.stopping = true := by
  cases h with
  | stopped last b h => exact .inl h
  | cancelled f h _ => exact .inr h
  | left last b result => cases hf
  | _ => cases hf'

/-- How often a subscription may still be answered when the relay stops. -/
def mayHear (f : Following) : Nat :=
  match f.phase with
  | .turning | .heading | .opening .. | .pausing .. => 1
  | _ => 0

/-- From a stop on one more subscription can be answered at the most. -/
theorem mayHear_le_one (f : Following) : f.mayHear ≤ 1 := by
  obtain ⟨last, b, phase⟩ := f
  cases phase <;> first | exact Nat.le_refl 1 | exact Nat.zero_le 1

/-- **A relay that stops has at most one more subscription answered**: after a failure it would have
to wait. -/
theorem Turned.mayHear_le (h : Turned r m f x f') (hs : m.stopping = true) :
    x.subscribed?.toList.length + f'.mayHear ≤ f.mayHear := by
  cases h with
  | backedOff _ _ _ _ hn | ended _ _ hn | unplaced _ _ _ hn | skipped _ _ _ _ hn
  | taken _ _ _ _ hn => cases hs.symm.trans hn
  | cancelled f _ _ =>
    obtain ⟨last, b, phase⟩ := f
    cases phase <;> exact Nat.zero_le _
  | _ => first | exact Nat.le_refl _ | exact Nat.zero_le _

end Following

/-! ## The logs on their way -/

namespace Course

/-- A log on its way asks for no subscription and no newest block, and does not wait for others. -/
theorem Turned.unasked (h : Turned r m c x c') :
    x.head? = none ∧ x.attempt? = none ∧ x ≠ .joined := by
  have hsend : ∀ {a : Account} {s s' : Sending}, Sending.Turned a s x s' →
      x.head? = none ∧ x.attempt? = none ∧ x ≠ .joined := by
    intro a s s' h
    cases h <;> exact ⟨rfl, rfl, nofun⟩
  have hwait : ∀ {side : Side} {w w' : Waiting}, Waiting.Turned side (r.patience side) m w x w' →
      x.head? = none ∧ x.attempt? = none ∧ x ≠ .joined := by
    intro side w w' h
    cases h with
    | late w => cases w <;> exact ⟨rfl, rfl, nofun⟩
    | cancelled w => cases w <;> exact ⟨rfl, rfl, nofun⟩
    | _ => exact ⟨rfl, rfl, nofun⟩
  cases h with
  | sendingTarget h _ => exact hsend h
  | awaitingTarget h _ => exact hwait h
  | awaitedTarget h => exact hwait h
  | sendingCallback h _ => exact hsend h
  | awaitingCallback h _ => exact hwait h
  | awaitedCallback h => exact hwait h
  | _ => exact ⟨rfl, rfl, nofun⟩

/-- A log on its way never waits for others to end: where it is idle it wants no more. -/
theorem nothing_of_idle (h : (c.turn r).demand.isIdle = true) : (c.turn r).demand = .nothing := by
  cases c with
  | arriving log =>
    rw [turn] at h
    split at h <;> cases h
  | moving a =>
    cases a with
    | sendingTarget rule s => cases s <;> first | rfl | cases h
    | awaitingTarget p w => cases w <;> first | rfl | cases h
    | sendingCallback d s => cases s <;> first | rfl | cases h
    | awaitingCallback d p w => cases w <;> first | rfl | cases h
    | resting s => rfl
  | done result => rfl
  | _ => cases h

end Course

theorem Openings.hear_of_course (os : Openings) (h : Course.Turned r m c x c') :
    os.hear x = os := by
  obtain ⟨hhead, htry, -⟩ := h.unasked
  rw [hear, hhead, htry]

/-! ## Runs -/

variable {cs : List Course} {e e' : Ensemble Task} {i : Nat} {y : Happening}
  {nonce : Side → Option UInt64} {metrics : Metrics} {xs after : List (Nat × Happening)}

/-- A relay that has given up or stopped takes its last turn when all that it started is over. -/
theorem Led.done_of_left (he : Led f cs e) (hsound : ∀ c ∈ cs, c.IsSound)
    (hf : f.phase.result?.isSome) (h : Ensemble.Step (Task.turn r) e 0 y e') :
    ∀ c ∈ cs, ∃ s, c = .done s := by
  obtain ⟨result, hresult⟩ := Option.isSome_iff_exists.mp hf
  cases h with
  | @turn t t' here goes admits =>
    rw [he] at here
    obtain rfl := Option.some.inj here
    obtain ⟨f', rfl, hturned⟩ := Following.turned_of_goes goes
    obtain ⟨-, hjoined, -⟩ := hturned.of_result hresult
    rw [hjoined] at admits
    intro c hc
    obtain ⟨j, hj⟩ := List.getElem?_of_mem hc
    have hidle : ((c.turn r).demand.map Task.course).isIdle = true := by
      refine admits (j + 1) (.course c) ?_ (Nat.succ_ne_zero j)
      rw [he, List.getElem?_cons_succ, List.getElem?_map, hj]
      rfl
    have hnothing : (c.turn r).demand = .nothing := by
      refine Course.nothing_of_idle ?_
      cases hd : (c.turn r).demand <;> rw [hd] at hidle <;> first | rfl | cases hidle
    exact Course.done_of_nothing (hsound c hc) hnothing

/-- What holds of a relay that follows, of the logs on their way, and of what happened. -/
structure Leads (r : Relay) (xs : List (Nat × Happening)) (e : Ensemble Task) (f : Following)
    (cs : List Course) : Prop where
  led : Led f cs e
  sound : ∀ c ∈ cs, c.IsSound
  opens : Following.Opens r (openings xs) f
  stopped : f.phase.result? = some (.ok ()) →
    ∃ y ∈ xs, y.1 = 0 ∧ (y.2.moment.told = true ∨ y.2.moment.stopping = true)
  drained : ∀ result, f.phase = .done result → ∀ c ∈ cs, ∃ s, c = .done s

/-- A turn of the relay that follows. -/
theorem Leads.following (h : Leads r xs e f cs) (hf : Following.Turned r y.moment f y.cause f')
    (hs : Ensemble.Step (Task.turn r) e 0 y e') (he' : Led f' (cs ++ f.setOut r y.cause) e') :
    Leads r (xs ++ [(0, y)]) e' f' (cs ++ f.setOut r y.cause) where
  led := he'
  sound c hc := by
    rcases List.mem_append.mp hc with hc | hc
    · exact h.sound c hc
    · obtain ⟨log, rfl⟩ := Following.arriving_of_setOut hc
      trivial
  opens := by
    rw [openings_concat]
    exact hf.opens h.opens
  stopped hok := by
    cases hresult : f.phase.result? with
    | none => exact ⟨(0, y), List.mem_concat_self, rfl, hf.ok_of_stop hresult hok⟩
    | some result =>
      obtain ⟨-, -, hdone⟩ := hf.of_result hresult
      rw [hdone] at hok
      obtain rfl := Option.some.inj hok
      obtain ⟨z, hz, hstop⟩ := h.stopped hresult
      exact ⟨z, List.mem_append_left _ hz, hstop⟩
  drained result hdone := by
    obtain ⟨hcause, hleaving⟩ := hf.joined_of_done hdone
    have hnone : f.setOut r y.cause = [] := by rw [hcause]; rfl
    rw [hnone, List.append_nil]
    exact h.led.done_of_left h.sound (by rw [hleaving]; rfl) hs

/-- A turn of a log on its way. -/
theorem Leads.course {j : Nat} (h : Leads r xs e f cs) (hc : cs[j]? = some c)
    (hgoes : (c.turn r).Goes y.moment y.cause c') (he' : Led f (cs.set j c') e') :
    Leads r (xs ++ [(j + 1, y)]) e' f (cs.set j c') where
  led := he'
  sound d hd := by
    rcases List.mem_or_eq_of_mem_set hd with hd | rfl
    · exact h.sound d hd
    · exact (Course.less_of_goes hgoes).2
  opens := by
    rw [openings_concat, (openings xs).hear_of_course (Course.turned_of_goes hgoes)]
    exact h.opens
  stopped hok := by
    obtain ⟨z, hz, hstop⟩ := h.stopped hok
    exact ⟨z, List.mem_append_left _ hz, hstop⟩
  drained result hdone := by
    -- A log that is dealt with takes no turn.
    obtain ⟨s, rfl⟩ := h.drained result hdone c (List.mem_of_getElem? hc)
    exact absurd hgoes not_goes_nothing

/-- **What holds of a relay and of what it started holds all along a run.** -/
theorem exists_leads
    (h : Ensemble.Run (Task.turn r) (.start [.following (.start r)] nonce metrics) xs e) :
    ∃ f cs, Leads r xs e f cs := by
  induction h with
  | here =>
    refine ⟨.start r, [], rfl, fun c hc => absurd hc List.not_mem_nil,
      ⟨fun o ho => absurd ho List.not_mem_nil, rfl⟩, fun hok => ?_, fun result hdone => ?_⟩
    · cases hok
    · cases hdone
  | step _ step ih =>
    obtain ⟨f, cs, hleads⟩ := ih
    rcases hleads.led.step step with ⟨f', rfl, hf, he'⟩ | ⟨j, c, c', rfl, hc, hgoes, he'⟩
    · exact ⟨f', _, hleads.following hf step he'⟩
    · exact ⟨f, _, hleads.course hc hgoes he'⟩

/-! ## Waiting for what was started -/

/-- **A relay that has given up or stopped does not wait forever**, whatever else happens. -/
theorem Led.finite (he : Led f cs e) (hf : f.phase.result?.isSome) :
    Acc (fun e' e => ∃ i y, Ensemble.Step (Task.turn r) e i y e') e := by
  have hleft : ∀ (f f' : Following) (y : Happening), f.phase.result?.isSome →
      Following.Turned r y.moment f y.cause f' → f'.phase.left < f.phase.left := by
    intro f f' y hf hturned
    obtain ⟨result, hresult⟩ := Option.isSome_iff_exists.mp hf
    obtain ⟨hleaving, -, hdone⟩ := hturned.of_result hresult
    rw [hleaving, hdone]
    exact Nat.zero_lt_one
  have hwf := Task.wellFounded_of r (fun t _ => ∀ g, t = .following g → g.phase.result?.isSome)
    fun f f' y hp hturned => hleft f f' y (hp f rfl) hturned
  induction hwf.apply e generalizing f cs with
  | intro e _ ih =>
    refine Acc.intro e fun e' hstep => ?_
    obtain ⟨i, y, hstep⟩ := hstep
    have hp : ∀ t, e.activities[i]? = some t →
        ∀ g, t = .following g → g.phase.result?.isSome := by
      rintro t ht g rfl
      rw [he] at ht
      cases i with
      | zero =>
        obtain rfl := Task.following.inj (Option.some.inj ht)
        exact hf
      | succ j =>
        rw [List.getElem?_cons_succ, List.getElem?_map] at ht
        obtain ⟨c, -, hc⟩ := Option.map_eq_some_iff.mp ht
        cases hc
    rcases he.step hstep with ⟨f', rfl, hturned, he'⟩ | ⟨j, c, c', rfl, hc, hgoes, he'⟩
    · obtain ⟨result, hresult⟩ := Option.isSome_iff_exists.mp hf
      obtain ⟨-, -, hdone⟩ := hturned.of_result hresult
      exact ih e' ⟨_, y, hp, hstep⟩ he' (by rw [hdone]; rfl)
    · exact ih e' ⟨_, y, hp, hstep⟩ he' hf

/-- The same tasks with another relay that follows. -/
def ledBy (e : Ensemble Task) (g : Following) : Ensemble Task :=
  { e with activities := e.activities.set 0 (.following g) }

theorem Led.ledBy (he : Led f cs e) (g : Following) : Led g cs (ledBy e g) := by
  rw [Led, Relay.ledBy, he]
  rfl

theorem ledBy_ledBy (e : Ensemble Task) (g g' : Following) :
    ledBy (ledBy e g) g' = ledBy e g' := by
  rw [ledBy, ledBy, List.set_set]
  rfl

/-- An ensemble is led by the following that leads it. -/
theorem Led.ledBy_self (he : Led f cs e) : Relay.ledBy e f = e := by
  obtain ⟨activities, shared⟩ := e
  rw [Relay.ledBy, show activities = _ from he]
  rfl

/-- A log on its way goes on in the same way, whatever relay follows. -/
theorem Led.step_ledBy {j : Nat} (he : Led f cs e) (g : Following)
    (h : Ensemble.Step (Task.turn r) e (j + 1) y e') :
    Ensemble.Step (Task.turn r) (Relay.ledBy e g) (j + 1) y (Relay.ledBy e' g) ∧
      ∃ cs', Led f cs' e' := by
  constructor
  · cases h with
    | @turn t t' here goes admits =>
      obtain ⟨c, rfl⟩ : ∃ c, t = .course c := by
        rw [he, List.getElem?_cons_succ, List.getElem?_map] at here
        obtain ⟨c, -, hc⟩ := Option.map_eq_some_iff.mp here
        exact ⟨c, hc.symm⟩
      obtain ⟨c', hgoes, rfl⟩ := Task.goes_course_iff.mp goes
      have hstarted := Task.started_course goes
      have here' : (Relay.ledBy e g).activities[j + 1]? = some (.course c) :=
        (List.getElem?_set_ne (Nat.succ_ne_zero j).symm).trans here
      have admits' : (Relay.ledBy e g).Admits (Task.turn r) (j + 1) y.cause := by
        have hjoined := (Course.turned_of_goes hgoes).unasked.2.2
        generalize y.cause = x at admits hjoined
        cases x <;> first | exact admits | exact absurd rfl hjoined
      have hstep := Ensemble.Step.turn here' goes admits'
      have hcomm : (Relay.ledBy e g).activities.set (j + 1) (.course c') =
          (e.activities.set (j + 1) (.course c')).set 0 (.following g) :=
        List.set_comm _ _ (Nat.succ_ne_zero j).symm
      rw [hstarted, List.append_nil] at hstep ⊢
      rw [hcomm] at hstep
      exact hstep
  · rcases he.step h with ⟨-, hzero, -⟩ | ⟨k, c, c', -, -, -, he'⟩
    · cases hzero
    · exact ⟨_, he'⟩

/-- Logs on their way go on in the same way, whatever relay follows. -/
theorem Led.run_ledBy (he : Led f cs e) (g : Following) (hxs : ∀ y ∈ xs, y.1 ≠ 0)
    (h : Ensemble.Run (Task.turn r) e xs e') :
    Ensemble.Run (Task.turn r) (Relay.ledBy e g) xs (Relay.ledBy e' g) ∧ ∃ cs', Led f cs' e' := by
  induction h with
  | here => exact ⟨.here, cs, he⟩
  | @step xs e₁ e₂ i y _ step ih =>
    obtain ⟨hrun, cs₁, he₁⟩ := ih fun z hz => hxs z (List.mem_append_left _ hz)
    cases i with
    | zero => exact absurd rfl (hxs (0, y) List.mem_concat_self)
    | succ j =>
      obtain ⟨hstep, hled⟩ := he₁.step_ledBy g step
      exact ⟨hrun.step hstep, hled⟩

/-- **What the logs on their way do does not depend on the relay that follows**: whatever happens to
them can happen in the same way under any other. -/
theorem Led.run_ledBy_iff (he : Led f cs e) (g : Following) (hxs : ∀ y ∈ xs, y.1 ≠ 0) :
    Ensemble.Run (Task.turn r) (Relay.ledBy e g) xs e' ↔
      ∃ e₂, Ensemble.Run (Task.turn r) e xs e₂ ∧ e' = Relay.ledBy e₂ g := by
  constructor
  · intro h
    obtain ⟨hback, cs', hled⟩ := (he.ledBy g).run_ledBy f hxs h
    rw [ledBy_ledBy, he.ledBy_self] at hback
    exact ⟨Relay.ledBy e' f, hback, by rw [ledBy_ledBy, hled.ledBy_self]⟩
  · rintro ⟨e₂, h, rfl⟩
    exact (he.run_ledBy g hxs h).1

/-! ## The run as a whole -/

/-- Each happening of a run was a turn of a task. -/
theorem exists_goes_of_mem {start : Ensemble Task} (h : Ensemble.Run (Task.turn r) start xs e) :
    ∀ z ∈ xs, ∃ t t' : Task, (t.turn r).Goes z.2.moment z.2.cause t' := by
  induction h with
  | here => exact nofun
  | step _ step ih =>
    intro z hz
    rcases List.mem_append.mp hz with hz | hz
    · exact ih z hz
    · obtain rfl := List.mem_singleton.mp hz
      cases step with
      | turn here goes admits => exact ⟨_, _, goes⟩

/-- Nothing is cancelled before the relay stops. -/
theorem stopping_of_cancelled {α : Type} {t : Turn α} {a : α} {q : Option (Side × Query)}
    (h : t.Goes m (.cancelled q) a) : m.stopping = true := by
  cases h with
  | cancelled _ h =>
    rw [Turn.halted] at h
    split at h
    next hs => exact hs
    next => cases h
  | met _ _ h => exact absurd rfl (h.timely.2 q)

/-- The newest block is asked for when an opening begins, and whatever the answer is, the relay then
subscribes. -/
theorem head_answered {before : List (Nat × Happening)} {z : Nat × Happening} {side : Side}
    {reply : Except ChainError UInt64}
    (h : Ensemble.Run (Task.turn r) (.start [.following (.start r)] nonce metrics) xs e)
    (hxs : xs = before ++ [z]) (hcause : z.2.cause = .answered side .blockNumber reply) :
    (openings before).present = .empty ∧
      ∃ last head, e.activities[0]? = some (.following ⟨last, none, .opening head 0⟩) := by
  cases h with
  | here => simp at hxs
  | @step xs e₁ _ i y hbefore step =>
    obtain ⟨rfl, heq⟩ := List.append_inj' hxs rfl
    obtain rfl := List.singleton_inj.mp heq
    obtain ⟨f, cs, hleads⟩ := exists_leads hbefore
    have hpresent := hleads.opens.present
    rcases hleads.led.step step with ⟨f', -, hf, he'⟩ | ⟨j, c, c', -, -, hgoes, -⟩
    · rw [hcause] at hf
      generalize (openings xs).present = o at hpresent
      cases hf with
      | headed last b head =>
        obtain ⟨hempty, hb⟩ := hpresent
        obtain rfl : b = none := hb
        exact ⟨hempty, last, some head, by rw [he']; rfl⟩
      | unheaded last b e =>
        obtain ⟨hempty, hb⟩ := hpresent
        obtain rfl : b = none := hb
        exact ⟨hempty, last, none, by rw [he']; rfl⟩
    · have hhead := (Course.turned_of_goes hgoes).unasked.1
      rw [hcause] at hhead
      cases hhead

/-- What a run of a relay comes to. -/
structure OpensAndDrains (r : Relay) (xs : List (Nat × Happening)) (e : Ensemble Task) : Prop where
  /-- Each opening asks for one subscription, at most eleven times and again only after a failure,
  and for the newest block just once and only if it has no first block. -/
  each : ∀ o ∈ (openings xs).all, ∃ b, o.IsFrom r b
  /-- Each opening but the present one came to a subscription. -/
  came : ∀ o ∈ (openings xs).past, ∃ t ∈ o.tries.getLast?, t.answer = some (.ok ())
  /-- The newest block is asked for before anything else at an opening, and whatever the answer is,
  the subscription is asked for next. -/
  unhindered : ∀ before y side reply, xs = before ++ [y] →
    y.2.cause = .answered side .blockNumber reply → (openings before).present = .empty ∧
      ∃ last head, e.activities[0]? = some (.following ⟨last, none, .opening head 0⟩)
  /-- The relay gives up exactly when an opening failed eleven times, and with the text of the last
  failure. -/
  givesUp : ∀ f, e.activities[0]? = some (.following f) → ∀ err,
    f.phase.result? = some (.error err) ↔ ∃ o ∈ (openings xs).all, o.Exhausted err
  /-- Once the relay stops at most one more subscription is answered: the first ten failures of an
  opening that failed eleven times came before. -/
  lastAnswer : ∀ before after, xs = before ++ after → (∀ y ∈ after, y.2.moment.stopping = true) →
    (after.filterMap fun y => y.2.cause.subscribed?).length ≤ 1
  /-- When the answer to a subscription and the end of the relay are there at once either goes
  first. If the answer is the eleventh failure and goes first, the relay gives up. -/
  either : ∀ last b head n, e.activities[0]? = some (.following ⟨last, b, .opening head n⟩) →
    ∀ m : Instant, m.stopping = true →
      (∀ err, ∃ e', Ensemble.Step (Task.turn r) e 0
          ⟨m, .answered .pub (.subscribe (r.filter b)) (.error err)⟩ e' ∧
        e'.activities[0]? = some (.following ⟨last, b, if n < maxRetries then .retrying head n
          else .leaving (.error (.subscription err.message))⟩)) ∧
      ∃ e', Ensemble.Step (Task.turn r) e 0
          ⟨m, .cancelled (some (.pub, .subscribe (r.filter b)))⟩ e' ∧
        e'.activities[0]? = some (.following ⟨last, b, .leaving (.ok ())⟩)
  /-- Without an error the relay ends only when it was told to, or stops. -/
  stopped : ∀ f, e.activities[0]? = some (.following f) → f.phase.result? = some (.ok ()) →
    ∃ y ∈ xs, y.1 = 0 ∧ (y.2.moment.told = true ∨ y.2.moment.stopping = true)
  /-- When the relay is done every log that it started is dealt with, and every attempt is in a
  terminal state. -/
  drained : ∀ f result, e.activities[0]? = some (.following f) → f.phase = .done result →
    ∀ c ∈ courses e, ∃ last, c = .done last ∧ ∀ s ∈ last, s.isTerminal = true
  /-- Nothing is cancelled before the relay stops. -/
  uncancelled : ∀ y ∈ xs, ∀ q, y.2.cause = .cancelled q → y.2.moment.stopping = true
  /-- The logs on their way go on as they would under any other relay that follows, such as one that
  still listens. -/
  undisturbed : ∀ g after e', (∀ y ∈ after, y.1 ≠ 0) →
    (Ensemble.Run (Task.turn r) (ledBy e g) after e' ↔
      ∃ e₂, Ensemble.Run (Task.turn r) e after e₂ ∧ e' = ledBy e₂ g)
  /-- A relay that has given up or stopped takes no turn before all that it started is over. -/
  waits : ∀ f y e', e.activities[0]? = some (.following f) → f.phase.result?.isSome →
    Ensemble.Step (Task.turn r) e 0 y e' → ∀ c ∈ courses e, ∃ last, c = .done last
  /-- It does not wait forever. -/
  finite : ∀ f, e.activities[0]? = some (.following f) → f.phase.result?.isSome →
    Acc (fun e' e => ∃ i y, Ensemble.Step (Task.turn r) e i y e') e
  /-- As long as something is to be done, something can be. -/
  ends : (∀ t ∈ e.activities, t.isDone = true) ∨ ∃ time, ∀ m : Instant, time ≤ m.now →
    ∃ i y e', y.moment = m ∧ Ensemble.Step (Task.turn r) e i y e'

/-- **Once a relay stops at most one more subscription is answered**, whatever else happens. -/
theorem Led.answered_le (he : Led f cs e) (h : Ensemble.Run (Task.turn r) e after e')
    (hstop : ∀ z ∈ after, z.2.moment.stopping = true) :
    ∃ f' cs', Led f' cs' e' ∧
      (after.filterMap fun z => z.2.cause.subscribed?).length + f'.mayHear ≤ f.mayHear := by
  induction h with
  | here => exact ⟨f, cs, he, (Nat.zero_add _).le⟩
  | @step after e₁ e₂ i y _ step ih =>
    obtain ⟨f₁, cs₁, he₁, hle⟩ := ih fun z hz => hstop z (List.mem_append_left _ hz)
    have hlength : ((after ++ [(i, y)]).filterMap fun z => z.2.cause.subscribed?).length =
        (after.filterMap fun z => z.2.cause.subscribed?).length +
          y.cause.subscribed?.toList.length := by
      rw [List.filterMap_append, List.length_append]
      cases hy : y.cause.subscribed? <;> simp [hy]
    rw [hlength]
    rcases he₁.step step with ⟨f₂, -, hf, he₂⟩ | ⟨j, c, c', -, -, hgoes, he₂⟩
    · have hturn := hf.mayHear_le (hstop (i, y) List.mem_concat_self)
      exact ⟨f₂, _, he₂, by omega⟩
    · have hnone : y.cause.subscribed? = none := by
        rw [Cause.subscribed?, (Course.turned_of_goes hgoes).unasked.2.1]
        rfl
      rw [hnone]
      exact ⟨f₁, _, he₂, hle⟩

/-- While a relay asks for a subscription, the answer may come first or the end of the relay. -/
theorem answered_or_stopped {last : Option (UInt64 × UInt64)} {b head : Option UInt64} {n : Nat}
    (here : e.activities[0]? = some (.following ⟨last, b, .opening head n⟩))
    (hm : m.stopping = true) :
    (∀ err, ∃ e', Ensemble.Step (Task.turn r) e 0
        ⟨m, .answered .pub (.subscribe (r.filter b)) (.error err)⟩ e' ∧
      e'.activities[0]? = some (.following ⟨last, b, if n < maxRetries then .retrying head n
        else .leaving (.error (.subscription err.message))⟩)) ∧
    ∃ e', Ensemble.Step (Task.turn r) e 0
        ⟨m, .cancelled (some (.pub, .subscribe (r.filter b)))⟩ e' ∧
      e'.activities[0]? = some (.following ⟨last, b, .leaving (.ok ())⟩) := by
  have hturn {x : Cause} {phase : Phase}
      (h : Following.Turned r m ⟨last, b, .opening head n⟩ x ⟨last, b, phase⟩)
      (hadmits : e.Admits (Task.turn r) 0 x) :
      ∃ e', Ensemble.Step (Task.turn r) e 0 ⟨m, x⟩ e' ∧
        e'.activities[0]? = some (.following ⟨last, b, phase⟩) := by
    have hstep := Ensemble.Step.turn (x := ⟨m, x⟩) here h.goes hadmits
    obtain ⟨t, hgoes, ht⟩ := hstep.own here
    exact ⟨_, hstep, ht.trans (congrArg some (hgoes.det h.goes))⟩
  refine ⟨fun err => ?_, hturn (.cancelled _ hm rfl) trivial⟩
  split
  next hn => exact hturn (.refused last b head n err hn) trivial
  next hn => exact hturn (.givenUp last b head n err hn) trivial

theorem Led.following_inj (he : Led f cs e) (h : e.activities[0]? = some (.following f')) :
    f' = f := by
  rw [he] at h
  exact (Task.following.inj (Option.some.inj h)).symm

theorem Led.courses_eq (he : Led f cs e) : courses e = cs := by
  rw [courses, he, List.filterMap_cons_none rfl, List.filterMap_map]
  exact List.filterMap_some

/-- **Opening, giving up and draining**, whatever the nodes answer, whatever the clocks say and
whichever task goes on next. -/
theorem opens_and_drains
    (h : Ensemble.Run (Task.turn r) (.start [.following (.start r)] nonce metrics) xs e) :
    OpensAndDrains r xs e := by
  obtain ⟨f, cs, hleads⟩ := exists_leads h
  have hnew : ∀ t ∈ [Task.following (.start r)], t.IsNew := by
    intro t ht
    rw [List.mem_singleton.mp ht]
    trivial
  have hgoes := exists_goes_of_mem h
  have hled := hleads.led
  refine ⟨fun o ho => ?_, fun o ho => (hleads.opens.past o ho).2, ?_, fun g hg => ?_, ?_, ?_,
    fun g hg => ?_, fun g result hg hdone => ?_, ?_, fun g after e' hafter =>
      hled.run_ledBy_iff g hafter, fun g y e' hg hresult hstep => ?_, fun g hg => ?_,
    done_or_exists_step hnew h⟩
  · rcases List.mem_cons.mp ho with rfl | ho
    · exact hleads.opens.present.isFrom
    · exact (hleads.opens.past o ho).1
  · exact fun before y side reply hxs hcause => head_answered h hxs hcause
  · rw [hled.following_inj hg]
    exact hleads.opens.givenUp_iff
  · intro before after hxs hstop
    obtain ⟨e₁, h₁, h₂⟩ := (hxs ▸ h).of_append
    obtain ⟨f₁, cs₁, he₁⟩ := exists_led h₁
    obtain ⟨f₂, _, -, hle⟩ := he₁.answered_le h₂ hstop
    exact (Nat.le_of_add_right_le hle).trans f₁.mayHear_le_one
  · exact fun last b head n here m hm => answered_or_stopped here hm
  · rw [hled.following_inj hg]
    exact hleads.stopped
  · rw [hled.following_inj hg] at hdone
    intro c hc
    obtain ⟨last, rfl⟩ := hleads.drained result hdone c (hled.courses_eq ▸ hc)
    obtain ⟨i, hi⟩ := List.getElem?_of_mem (mem_courses.mp hc)
    obtain ⟨log, hpath⟩ := course_path hnew h hi
    exact ⟨last, rfl, fun s hs => Course.endsWell_of_path hpath s hs⟩
  · intro y hy q hq
    obtain ⟨t, t', hturn⟩ := hgoes y hy
    rw [hq] at hturn
    exact stopping_of_cancelled hturn
  · rw [hled.following_inj hg] at hresult
    rw [hled.courses_eq]
    exact hled.done_of_left hleads.sound hresult hstep
  · rw [hled.following_inj hg]
    exact hled.finite

/-- A turn of the relay that starts nothing and touches nothing that is shared. -/
theorem run_following_alone {start : Ensemble Task} {ts : List Task} {shared : Shared}
    (hts : 0 < ts.length)
    (h : Ensemble.Run (Task.turn r) start xs ⟨ts.set 0 (.following f), shared⟩)
    (hturned : Following.Turned r m f x f') (hstarted : (f.turn r).started x = [])
    (hshared : shared.after 0 x = shared)
    (hadmits : Ensemble.Admits (Task.turn r) ⟨ts.set 0 (.following f), shared⟩ 0 x) :
    Ensemble.Run (Task.turn r) start (xs ++ [(0, ⟨m, x⟩)]) ⟨ts.set 0 (.following f'), shared⟩ := by
  have hnext := h.following m (List.getElem?_set_self hts) hturned hadmits
  dsimp only at hnext
  rwa [hstarted, hshared, List.append_nil, List.set_set] at hnext

/-- A subscription that cannot be opened is tried again up to ten times. -/
theorem exists_run_refused {start : Ensemble Task} {last : Option (UInt64 × UInt64)}
    {b head : Option UInt64} (err : ChainError) (h : Ensemble.Run (Task.turn r) start xs e)
    (here : e.activities[0]? = some (.following ⟨last, b, .opening head 0⟩)) :
    ∀ n ≤ maxRetries, ∃ ys, Ensemble.Run (Task.turn r) start ys
      ⟨e.activities.set 0 (.following ⟨last, b, .opening head n⟩), e.shared⟩ := by
  obtain ⟨hlt, hget⟩ := List.getElem?_eq_some_iff.mp here
  intro n
  induction n with
  | zero =>
    refine fun _ => ⟨xs, ?_⟩
    rw [← hget, List.set_getElem_self]
    exact h
  | succ n ih =>
    intro hn
    obtain ⟨ys, hrun⟩ := ih (Nat.le_of_succ_le hn)
    have hrefused := run_following_alone (m := .zero) hlt hrun (.refused _ _ _ _ err hn) rfl rfl
      trivial
    have hbacked := run_following_alone (m := .zero) hlt hrefused (.backedOff _ _ _ _ rfl) rfl rfl
      trivial
    -- The pause is over at some later moment.
    exact ⟨_, run_following_alone (m := ⟨0 + retryPause n, false, false⟩) hlt hbacked
      (.retried _ _ _ _ _ (Nat.le_refl _)) rfl rfl trivial⟩

/-- A subscription ends while an attempt waits for the receipt of its target call, and no other one
can be opened: the relay gives up, the attempt has its receipt and ends, and then the relay is
done. -/
theorem opens_and_drains_refused : ∃ xs e,
    Ensemble.Run (Task.turn pinging) (.start [.following (.start pinging)] (fun _ => some 5) .zero)
      xs e ∧
    e.activities = [.following ⟨none, some 3, .done (.error (.subscription "Request error: no"))⟩,
      .course (.done (some (.noCallback 9)))] ∧
    OpensAndDrains pinging xs e := by
  have h₀ : Ensemble.Run (Task.turn pinging)
      (.start [.following (.start pinging)] (fun _ => some 5) .zero) [] _ := .here
  have h₁ := h₀
    |>.following .zero rfl (.unstarted rfl) trivial
    |>.following .zero rfl (.headed _ _ 3) trivial
    |>.following .zero rfl (.subscribed _ _ _ _) trivial
    |>.following .zero rfl (.opened _ _ _) trivial
    |>.following .zero rfl (.unplaced _ _ ping rfl rfl) trivial
    |>.following .zero rfl (.handed _ _ _) trivial
    |>.course 1 rfl (Turn.goes_plain.mpr (.count _ _)) trivial
    |>.course 1 rfl (Turn.goes_plain.mpr (.count _ _)) trivial
    |>.course 1 rfl (Course.goes_sendingTarget (.known _ 5)) ⟨rfl, rfl⟩
    |>.course 1 rfl (Course.goes_sendingTarget (.taken _ 9)) trivial
    |>.course 1 rfl (Course.goes_sendingTarget (.reported _)) trivial
    |>.course 1 rfl (Course.goes_sendingTarget (.left _ _)) trivial
    |>.course 1 rfl (Course.goes_awaitingTarget (Turn.goes_plain.mpr (.look _))) trivial
    |>.following .zero rfl (.ended _ _ rfl) trivial
    |>.following .zero rfl (.started 3 rfl) trivial
  obtain ⟨xs, h₂⟩ := exists_run_refused (.request "no") h₁ rfl maxRetries (Nat.le_refl _)
  have h := h₂
    |>.following .zero rfl (.givenUp _ _ _ _ (.request "no") (Nat.lt_irrefl _)) trivial
    |>.course 1 rfl (Course.goes_awaitingTarget
      (.met rfl (.inr rfl) (.pause _ _ (Nat.le_refl 0)))) trivial
    |>.course 1 rfl (Course.goes_awaitingTarget
      (.met rfl (.inr rfl) (.ask _ (.receipt 9) _ (.ok (some ⟨9, none, true, []⟩))))) trivial
    |>.course 1 rfl (Turn.goes_plain.mpr (.count _ _)) trivial
    |>.course 1 rfl (Turn.goes_plain.mpr (.count _ _)) trivial
    |>.following .zero rfl (.left _ _ _) (admits_joined rfl)
  exact ⟨_, _, h, rfl, opens_and_drains h⟩

/-- No opening is exhausted while a relay goes on or ends without an error. -/
theorem not_exhausted_of_result
    (h : Ensemble.Run (Task.turn r) (.start [.following (.start r)] nonce metrics) xs e)
    (here : e.activities[0]? = some (.following f))
    (hf : ∀ err, f.phase.result? ≠ some (.error err)) :
    ∀ o ∈ (openings xs).all, ∀ err, ¬ o.Exhausted err := by
  obtain ⟨g, cs, hleads⟩ := exists_leads h
  obtain rfl := hleads.led.following_inj here
  exact fun o ho err hex => hf err ((hleads.opens.givenUp_iff err).mpr ⟨o, ho, hex⟩)

/-- A moment at which nobody is left to tell the relay to stop. -/
def untold : Instant := ⟨10, false, true⟩

/-- A relay that was told to stop after ten failures still gives up when the eleventh is there at
once, and a relay that nobody told to stop ends without an error when nobody is left to tell it. -/
theorem gives_up_told_and_stops_untold :
    (∃ before after e,
      Ensemble.Run (Task.turn pinging)
        (.start [.following (.start pinging)] (fun _ => some 5) .zero) (before ++ after) e ∧
      (∀ y ∈ after, y.2.moment.told = true) ∧
      (∀ o ∈ (openings before).all, ∀ err, ¬ o.Exhausted err) ∧
      e.activities =
        [.following ⟨none, none, .done (.error (.subscription "Request error: no"))⟩]) ∧
    ∃ xs e,
      Ensemble.Run (Task.turn pinging)
        (.start [.following (.start pinging)] (fun _ => some 5) .zero) xs e ∧
      (∀ y ∈ xs, y.2.moment.told = false) ∧
      (∀ o ∈ (openings xs).all, ∀ err, ¬ o.Exhausted err) ∧
      e.activities = [.following ⟨none, none, .done (.ok ())⟩] := by
  have h₀ : Ensemble.Run (Task.turn pinging)
      (.start [.following (.start pinging)] (fun _ => some 5) .zero) [] _ := .here
  have h₁ := h₀ |>.following .zero rfl (.unstarted rfl) trivial
  constructor
  · have h₂ := h₁ |>.following .zero rfl (.headed _ _ 3) trivial
    obtain ⟨before, hbefore⟩ := exists_run_refused (.request "no") h₂ rfl maxRetries (Nat.le_refl _)
    have h := hbefore
      |>.following told rfl (.givenUp _ _ _ _ (.request "no") (Nat.lt_irrefl _)) trivial
      |>.following told rfl (.left _ _ _) (admits_joined rfl)
    rw [List.append_assoc] at h
    refine ⟨before, _, _, h, ?_, not_exhausted_of_result hbefore rfl nofun, rfl⟩
    exact List.all_eq_true (p := fun y : Nat × Happening => y.2.moment.told) |>.mp rfl
  · have h := h₁
      |>.following untold rfl (.cancelled _ rfl rfl) trivial
      |>.following untold rfl (.left _ _ _) (admits_joined rfl)
    refine ⟨_, _, h, ?_, not_exhausted_of_result h rfl nofun, rfl⟩
    intro y hy
    have hall := List.all_eq_true (p := fun y : Nat × Happening => !y.2.moment.told) |>.mp rfl y hy
    exact Bool.not_eq_true' _ |>.mp hall

end Relay

end EventRelay
