import EventRelay.Chain.Waiting
import EventRelay.Proofs.Running

/-!
# What a wait for a receipt does

`Waiting.Turned` lists every turn that a wait can take; `Waiting.turned_of_goes` says that there is
no other. A wait asks for nothing but the one receipt and ends with it as soon as it is there
(`Waiting.way`). It is over after finitely many turns whatever the clock says, because the time of
the next question moves on with every question and none is put after the deadline
(`Waiting.left_lt`).
-/

namespace EventRelay.Waiting

/-- The transaction and the deadline of a wait that has begun. -/
def limit? : Waiting → Option (Word × Nat)
  | .resting hash deadline _ => some (hash, deadline)
  | .asking hash deadline _ => some (hash, deadline)
  | _ => none

/-- What came of a wait that is over. -/
def outcome? : Waiting → Option (Except WaitError Receipt)
  | .done result => some result
  | _ => none

/-- Only a wait that is done has an outcome. -/
theorem outcome?_eq_some {w : Waiting} {result : Except WaitError Receipt} :
    w.outcome? = some result ↔ w = .done result := by
  constructor
  · intro h
    cases w with
    | done _ => exact congrArg Waiting.done (Option.some.inj h)
    | _ => cases h
  · intro heq
    subst heq
    rfl

/-- One turn of a wait for a receipt, by what the wait was doing. -/
inductive Turned (side : Side) (p : Patience) (m : Instant) : Waiting → Cause → Waiting → Prop
  | stopped (hash : Word) (h : m.told = true) :
      Turned side p m (.starting hash) .looked (.done (.error (.cancelled hash)))
  | started (hash : Word) (h : m.told = false) :
      Turned side p m (.starting hash) .looked (.resting hash (m.now + p.timeout) m.now)
  | due (hash : Word) (deadline next : Nat) (hd : m.now < deadline) (hs : m.stopping = false)
      (hn : next ≤ m.now) : Turned side p m (.resting hash deadline next) .resumed
        (.asking hash deadline (nextTime p next m.now))
  | found (hash : Word) (deadline next : Nat) (receipt : Receipt) (hd : m.now < deadline)
      (hs : m.stopping = false) : Turned side p m (.asking hash deadline next)
        (.answered side (.receipt hash) (.ok (some receipt))) (.done (.ok receipt))
  | missing (hash : Word) (deadline next : Nat) (reply : Except ChainError (Option Receipt))
      (hd : m.now < deadline) (hs : m.stopping = false)
      (hr : ∀ receipt, reply ≠ .ok (some receipt)) :
      Turned side p m (.asking hash deadline next) (.answered side (.receipt hash) reply)
        (.resting hash deadline next)
  | late (w : Waiting) (hash : Word) (deadline : Nat) (hw : w.limit? = some (hash, deadline))
      (hd : deadline ≤ m.now) :
      Turned side p m w (.late (w.turn side p).demand.question?)
        (.done (.error (.timeout hash p.timeout)))
  | cancelled (w : Waiting) (hash : Word) (deadline : Nat) (hw : w.limit? = some (hash, deadline))
      (hd : m.now < deadline) (hs : m.stopping = true) :
      Turned side p m w (.cancelled (w.turn side p).demand.question?)
        (.done (.error (.cancelled hash)))

variable {side : Side} {p : Patience} {m : Instant} {w w' : Waiting} {c : Cause} {hash : Word}
  {deadline : Nat}

/-- A turn that ends with the deadline and with the relay. -/
theorem goes_within {d : Demand Waiting} (h : (within p hash deadline d).Goes m c w') :
    (m.now < deadline ∧ m.stopping = false ∧ d.Met m c w') ∨
      (deadline ≤ m.now ∧ c = .late d.question? ∧
        w' = .done (.error (.timeout hash p.timeout))) ∨
      (m.now < deadline ∧ m.stopping = true ∧ c = .cancelled d.question? ∧
        w' = .done (.error (.cancelled hash))) := by
  have hover : (within p hash deadline d).overdue m =
      if deadline ≤ m.now then some (.done (.error (.timeout hash p.timeout))) else none := rfl
  cases h with
  | late h =>
    rw [hover] at h
    split at h
    next hd => exact .inr (.inl ⟨hd, rfl, (Option.some.inj h).symm⟩)
    next => cases h
  | cancelled hd h =>
    rw [hover] at hd
    split at hd
    next => cases hd
    next hlt =>
      rw [Turn.halted] at h
      split at h
      next hs => exact .inr (.inr ⟨Nat.lt_of_not_le hlt, hs, rfl, (Option.some.inj h).symm⟩)
      next => cases h
  | met hd hs h =>
    rw [hover] at hd
    split at hd
    next => cases hd
    next hlt =>
      -- A wait is not fair: the end of the relay goes first.
      have hs := hs.resolve_left Bool.false_ne_true
      rw [Turn.halted] at hs
      split at hs
      next => cases hs
      next hn => exact .inl ⟨Nat.lt_of_not_le hlt, Bool.eq_false_iff.mpr hn, h⟩

/-- **A wait for a receipt takes no other turn.** -/
theorem turned_of_goes (h : (w.turn side p).Goes m c w') : Turned side p m w c w' := by
  cases w with
  | starting hash =>
    cases Turn.goes_plain.mp h
    cases ht : m.told with
    | true => exact .stopped hash ht
    | false => exact .started hash ht
  | resting hash deadline next =>
    rcases goes_within h with ⟨hd, hs, hmet⟩ | ⟨hd, rfl, rfl⟩ | ⟨hd, hs, rfl, rfl⟩
    · cases hmet with
      | pause _ _ hn => exact .due hash deadline next hd hs hn
    · exact .late (.resting hash deadline next) hash deadline rfl hd
    · exact .cancelled (.resting hash deadline next) hash deadline rfl hd hs
  | asking hash deadline next =>
    rcases goes_within h with ⟨hd, hs, hmet⟩ | ⟨hd, rfl, rfl⟩ | ⟨hd, hs, rfl, rfl⟩
    · cases hmet with
      | ask _ _ _ reply =>
        rcases reply with e | _ | receipt
        · exact .missing hash deadline next (.error e) hd hs fun _ => nofun
        · exact .missing hash deadline next (.ok none) hd hs fun _ => nofun
        · exact .found hash deadline next receipt hd hs
    · exact .late (.asking hash deadline next) hash deadline rfl hd
    · exact .cancelled (.asking hash deadline next) hash deadline rfl hd hs
  | done _ => exact absurd h not_goes_nothing

/-- How many turns a wait may still take. -/
def left (p : Patience) : Waiting → Nat
  | .starting _ => 2 * p.timeout + 2
  | .resting _ deadline next => 2 * (deadline - next) + 1
  | .asking _ deadline next => 2 * (deadline - next) + 2
  | .done _ => 0

/-- The next time is after the one that was due. -/
theorem lt_nextTime (p : Patience) (due now : Nat) : due < nextTime p due now := by
  have := p.interval_pos
  unfold nextTime
  split <;> omega

/-- A wait that has begun has a turn left. -/
theorem left_pos {limit : Word × Nat} (hw : w.limit? = some limit) : 0 < w.left p := by
  cases w with
  | resting _ _ _ => exact Nat.succ_pos _
  | asking _ _ _ => exact Nat.succ_pos _
  | _ => cases hw

/-- **With every turn a wait comes nearer to its end**, whatever the clock says. -/
theorem left_lt (h : (w.turn side p).Goes m c w') : w'.left p < w.left p := by
  cases turned_of_goes h with
  | stopped _ _ => simp only [left]; omega
  | started _ _ => simp only [left]; omega
  | due hash deadline next hd _ hn =>
    -- The next question comes later than this one, and this one came before the deadline.
    have := lt_nextTime p next m.now
    simp only [left]
    omega
  | found _ _ _ _ _ _ => simp only [left]; omega
  | missing _ _ _ _ _ _ _ => simp only [left]; omega
  | late w hash deadline hw _ => exact left_pos hw
  | cancelled w hash deadline hw _ _ => exact left_pos hw

/-- The wait is for the receipt of the transaction `hash`, or over. -/
def IsFor (hash : Word) : Waiting → Prop
  | .starting h | .resting h _ _ | .asking h _ _ => h = hash
  | .done _ => True

/-- A wait is limited for its own transaction. -/
theorem IsFor.limit {limit : Word × Nat} (h : w.IsFor hash) (hw : w.limit? = some limit) :
    limit.1 = hash := by
  cases w with
  | resting _ _ _ => exact Option.some.inj hw ▸ h
  | asking _ _ _ => exact Option.some.inj hw ▸ h
  | _ => cases hw

/-- In a turn of a wait for `hash` nothing but the receipt of `hash` is asked for. -/
theorem IsFor.question (h : w.IsFor hash) {q : Side × Query}
    (hq : (w.turn side p).demand.question? = some q) : q = (side, .receipt hash) := by
  cases w with
  | asking _ _ _ =>
    obtain rfl := Option.some.inj hq
    exact congrArg (fun h => (side, Query.receipt h)) h
  | _ => cases hq

/-- Every turn of a wait is for the same transaction. -/
theorem IsFor.turned (h : w.IsFor hash) (ht : Turned side p m w c w') : w'.IsFor hash := by
  cases ht with
  | started _ _ => exact h
  | due _ _ _ _ _ _ => exact h
  | missing _ _ _ _ _ _ _ => exact h
  | _ => trivial

/-- A wait ends with a receipt in the turn in which its question is answered with it. -/
theorem IsFor.found_iff (h : w.IsFor hash) (ht : Turned side p m w c w') {receipt : Receipt} :
    w' = .done (.ok receipt) ↔ c = .answered side (.receipt hash) (.ok (some receipt)) := by
  cases ht with
  | found hash' deadline next receipt' _ _ =>
    obtain rfl : hash' = hash := h
    constructor
    · intro h
      cases h
      rfl
    · intro h
      cases h
      rfl
  | missing hash' deadline next reply _ _ hr =>
    refine ⟨nofun, fun hc => ?_⟩
    obtain rfl : hash' = hash := h
    injection hc with _ _ hreply
    exact absurd hreply (hr receipt)
  | _ => exact ⟨nofun, nofun⟩

/-- **A wait asks for nothing but its receipt.** -/
theorem IsFor.asks {hs : List Happening} (h : w.IsFor hash) (hpath : Path (turn side p) w hs w') :
    ∀ q ∈ questions hs, q = (side, .receipt hash) := by
  induction hpath with
  | here _ => exact fun q hq => absurd hq List.not_mem_nil
  | next first _ ih =>
    intro q hq
    rcases List.mem_append.mp ((questions_append [_] _) ▸ hq) with hq | hq
    · obtain ⟨x, hx, hxq⟩ := List.mem_filterMap.mp hq
      obtain rfl := List.mem_singleton.mp hx
      exact h.question (first.question.symm.trans hxq)
    · exact ih (h.turned (turned_of_goes first)) q hq

/-- A wait asks no node to take anything, and for no other receipt. -/
theorem IsFor.lookups {hs : List Happening} (h : w.IsFor hash)
    (hpath : Path (turn side p) w hs w') :
    submissions hs = [] ∧ ∀ q ∈ lookups hs, q = (side, hash) := by
  constructor
  · refine List.filterMap_eq_nil_iff.mpr fun q hq => ?_
    rw [h.asks hpath q hq]
  · intro q hq
    obtain ⟨q', hq', hsome⟩ := List.mem_filterMap.mp hq
    rw [h.asks hpath q' hq'] at hsome
    exact (Option.some.inj hsome).symm

/-- **A wait that ends with a receipt ends as soon as its question is answered with it.** -/
theorem IsFor.found {hs : List Happening} {receipt : Receipt} (h : w.IsFor hash)
    (hw : w.outcome? = none) (hpath : Path (turn side p) w hs (.done (.ok receipt))) :
    ∃ before last, hs = before ++ [last] ∧
      last.cause = .answered side (.receipt hash) (.ok (some receipt)) := by
  generalize he : Waiting.done (.ok receipt) = e at hpath
  induction hpath with
  | here w =>
    subst he
    cases hw
  | @next w w₁ w₂ x hs first rest ih =>
    have hturned := turned_of_goes first
    cases hdone : w₁.outcome? with
    | some result =>
      -- This turn was the last.
      obtain rfl := outcome?_eq_some.mp hdone
      obtain ⟨rfl, rfl⟩ := rest.eq_nil_of_stuck fun _ _ _ => not_goes_nothing
      obtain rfl := Waiting.done.inj he
      exact ⟨[], x, rfl, (h.found_iff hturned).mp rfl⟩
    | none =>
      obtain ⟨before, last, rfl, hlast⟩ := ih (h.turned hturned) hdone he
      exact ⟨x :: before, last, rfl, hlast⟩

end EventRelay.Waiting
