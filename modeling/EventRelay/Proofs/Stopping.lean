import EventRelay.Proofs.Course
import EventRelay.Proofs.Tasks

/-!
# What a relay still does when it stops

From the moment on at which a relay stops, because it was told to or because nobody is left to tell
it, it takes no more logs, and each attempt under way submits at most one more call, asks for no
more receipts and ends. `Bounded` is what is left of one log's way.

Main statement:

* `bounded_after_stop`: what a run comes to from any moment on at which the relay stops.
-/

namespace EventRelay

/-- The transaction that a node was, or may have been, asked to take in a turn. -/
def Cause.submission? (x : Cause) : Option (Side × SignedTransaction) :=
  match x.question? with
  | some (side, .submit t) => some (side, t)
  | _ => none

/-- The transaction whose receipt a node was, or may have been, asked for in a turn. -/
def Cause.lookup? (x : Cause) : Option (Side × Word) :=
  match x.question? with
  | some (side, .receipt hash) => some (side, hash)
  | _ => none

/-- The submissions of a path are those of its first happening and of the others. -/
theorem submissions_cons (x : Happening) (hs : List Happening) :
    submissions (x :: hs) = x.cause.submission?.toList ++ submissions hs := by
  rw [submissions, questions_cons, List.filterMap_append, submissions, Cause.submission?]
  cases x.cause.question? with
  | none => rfl
  | some q => obtain ⟨side, query⟩ := q; cases query <;> rfl

/-- The lookups of a path are those of its first happening and of the others. -/
theorem lookups_cons (x : Happening) (hs : List Happening) :
    lookups (x :: hs) = x.cause.lookup?.toList ++ lookups hs := by
  rw [lookups, questions_cons, List.filterMap_append, lookups, Cause.lookup?]
  cases x.cause.question? with
  | none => rfl
  | some q => obtain ⟨side, query⟩ := q; cases query <;> rfl

/-! ## Calls and waits -/

/-- How many times a call may still be submitted. -/
def Sending.mayCall : Sending → Nat
  | .queued _ | .counting _ | .pricing .. | .submitting _ => 1
  | _ => 0

/-- **A call is submitted at most once**, and no receipt is asked for meanwhile. -/
theorem Sending.Turned.mayCall_le {a : Account} {s s' : Sending} {x : Cause}
    (h : Turned a s x s') :
    x.submission?.toList.length + s'.mayCall ≤ s.mayCall ∧ x.lookup? = none := by
  have honward {c known n s'} (h : Onward a c known n s') : 0 + s'.mayCall ≤ 1 := by
    cases h <;> exact Nat.le_of_ble_eq_true rfl
  cases h with
  | known c n => exact ⟨honward (onward_withNonce a c (some n) n), rfl⟩
  | counted c n => exact ⟨honward (onward_withNonce a c none n), rfl⟩
  | priced c known n price => exact ⟨honward (onward_withPrice a c known n price), rfl⟩
  | uncounted c e => exact ⟨Nat.zero_le 1, rfl⟩
  | unpriced c known n e => exact ⟨Nat.zero_le 1, rfl⟩
  | _ => exact ⟨Nat.le_refl _, rfl⟩

/-- What the node took, from the time on at which it did. -/
def Sending.taken? (s : Sending) : Option Submitted := s.result?.bind Except.toOption

/-- A call that was taken stays so. -/
theorem Sending.Turned.taken?_eq {a : Account} {s s' : Sending} {x : Cause} (h : Turned a s x s') :
    s.taken? = none ∨ s'.taken? = s.taken? := by
  rw [taken?, taken?]
  cases hr : s.result? with
  | none => exact .inl rfl
  | some result => exact .inr (by rw [(h.settled hr).2])

namespace Waiting

variable {side : Side} {p : Patience} {m : Instant} {w w' : Waiting} {x : Cause} {hash : Word}
  {result : Except WaitError Receipt}

/-- When the relay stops a wait ends without a receipt: it is cancelled, or it was late already. -/
theorem Turned.cut (h : Turned side p m w x (.done result)) (hs : m.stopping = true)
    (hw : w.IsFor hash) : ∃ e, result = .error e ∧ (e = .cancelled hash ∨
      e = .timeout hash p.timeout ∧ (∃ q, x = .late q) ∧
        ∃ d, w.limit? = some (hash, d) ∧ d ≤ m.now) := by
  cases h with
  | stopped hash' _ =>
    obtain rfl : hash' = hash := hw
    exact ⟨_, rfl, .inl rfl⟩
  | found _ _ _ _ _ hn => cases hs.symm.trans hn
  | late _ hash' deadline hlimit hd =>
    obtain rfl : hash' = hash := hw.limit hlimit
    exact ⟨_, rfl, .inr ⟨rfl, ⟨_, rfl⟩, deadline, hlimit, hd⟩⟩
  | cancelled _ hash' deadline hlimit _ _ =>
    obtain rfl : hash' = hash := hw.limit hlimit
    exact ⟨_, rfl, .inl rfl⟩

/-- When the relay stops a wait goes on only from its start, and then until its deadline. -/
theorem Turned.uncut (h : Turned side p m w x w') (hs : m.stopping = true)
    (hw' : w'.outcome? = none) : ∃ hash, w = .starting hash ∧ x = .looked ∧
      w' = .resting hash (m.now + p.timeout) m.now := by
  cases h with
  | started hash _ => exact ⟨hash, rfl, rfl, rfl⟩
  | due _ _ _ _ hn _ => cases hs.symm.trans hn
  | missing _ _ _ _ _ hn _ => cases hs.symm.trans hn
  | _ => cases hw'

/-- The receipt that a wait has just asked for. -/
def asked? : Waiting → Option Word
  | .asking hash _ _ => some hash
  | _ => none

/-- A wait submits nothing, and asks for no receipt but the one it has just asked for. -/
theorem Turned.lookup? (h : Turned side p m w x w') :
    x.submission? = none ∧ x.lookup? = w.asked?.map fun hash => (side, hash) := by
  cases h with
  | late w => cases w <;> exact ⟨rfl, rfl⟩
  | cancelled w => cases w <;> exact ⟨rfl, rfl⟩
  | _ => exact ⟨rfl, rfl⟩

end Waiting

namespace Relay

variable {r : Relay} {m : Instant} {x : Cause} {hs : List Happening} {c c' : Course}

/-! ## A log on its way -/

namespace Course

/-- How many calls a log may still submit when the relay stops. -/
def mayCall : Course → Nat
  | .arriving _ | .entering _ => 1
  | .moving (.sendingTarget _ s) | .moving (.sendingCallback _ s) => s.mayCall
  | _ => 0

/-- The receipt that was asked for and not answered. -/
def lookup? : Course → Option (Side × Word)
  | .moving (.awaitingTarget p w) | .moving (.awaitingCallback _ p w) =>
    w.asked?.map fun hash => (p.side, hash)
  | _ => none

/-- The target transaction that was taken and whose receipt is not there. -/
def unconfirmedTarget? : Course → Option Pending
  | .moving (.sendingTarget rule s) =>
    s.taken?.map fun sub => ⟨sub.hash, sub.nonce, .priv, .submitted, rule⟩
  | .moving (.awaitingTarget p _) => some p
  | _ => none

/-- The target transaction, and the side and the callback that was taken there and whose receipt is
not there. -/
def unconfirmedCallback? : Course → Option (Word × Side × Word)
  | .moving (.sendingCallback c s) => s.taken?.map fun sub => (c.tx, c.target, sub.hash)
  | .moving (.awaitingCallback c p _) => some (c.tx, p.side, p.hash)
  | _ => none

/-- The transaction that was taken on a side and whose receipt is not there, and how the attempt
ends when the wait for it is cut short. -/
def unconfirmed? (c : Course) : Option (Side × Word × (WaitError → State)) :=
  (c.unconfirmedTarget?.map fun p =>
    (p.side, p.hash, fun e => .receiptFailed { p with status := .failed } (.wait e))).or
  (c.unconfirmedCallback?.map fun (tx, side, hash) =>
    (side, hash, fun e => .callbackFailed tx (.wait e)))

/-- The time until which the receipt is awaited. -/
def deadline? : Course → Option Nat
  | .moving (.awaitingTarget _ w) | .moving (.awaitingCallback _ _ w) => w.limit?.map (·.2)
  | _ => none

/-- A wait is for the transaction that the attempt waits for. -/
def Aims : Course → Prop
  | .moving (.awaitingTarget p w) | .moving (.awaitingCallback _ p w) => w.IsFor p.hash
  | _ => True

theorem Fresh.aims (h : c.Fresh) : c.Aims := by
  cases h <;> trivial

/-- Every turn of a course keeps its aim. -/
theorem Turned.aims (h : Turned r m c x c') (hc : c.Aims) : c'.Aims := by
  cases h with
  | entered s => exact (fresh_ofState r s).aims
  | sentTarget rule nonce result => exact (fresh_afterTarget r rule result).aims
  | awaitingTarget h _ => exact Waiting.IsFor.turned hc h
  | @awaitedTarget p _ _ result _ => exact (fresh_afterTargetReceipt r p result).aims
  | sentCallback c nonce result => exact (fresh_afterCallback r c result).aims
  | awaitingCallback h _ => exact Waiting.IsFor.turned hc h
  | @awaitedCallback c p _ _ result _ => exact (fresh_afterCallbackReceipt r c p result).aims
  | _ => trivial

/-- So does every path. -/
theorem Aims.of_path (h : Path (Course.turn r) c hs c') (hc : c.Aims) : c'.Aims := by
  induction h with
  | here _ => exact hc
  | next first _ ih => exact ih ((turned_of_goes first).aims hc)

theorem Fresh.lookup?_eq_none (h : c.Fresh) : c.lookup? = none := by
  cases h <;> rfl

/-- **When the relay stops a log asks for no receipt but the one it has just asked for.** -/
theorem Turned.lookup?_eq (h : Turned r m c x c') (hs : m.stopping = true) :
    x.lookup? = c.lookup? ∧ c'.lookup? = none := by
  cases h with
  | ignored _ _ => exact ⟨rfl, rfl⟩
  | matched _ _ _ => exact ⟨rfl, rfl⟩
  | entered s => exact ⟨rfl, (fresh_ofState r s).lookup?_eq_none⟩
  | sendingTarget h _ => exact ⟨h.mayCall_le.2, rfl⟩
  | sentTarget rule nonce result => exact ⟨rfl, (fresh_afterTarget r rule result).lookup?_eq_none⟩
  | awaitingTarget h hw' =>
    obtain ⟨hash, rfl, rfl, rfl⟩ := h.uncut hs hw'
    exact ⟨rfl, rfl⟩
  | @awaitedTarget p _ _ result h =>
    exact ⟨h.lookup?.2, (fresh_afterTargetReceipt r p result).lookup?_eq_none⟩
  | sendingCallback h _ => exact ⟨h.mayCall_le.2, rfl⟩
  | sentCallback c nonce result => exact ⟨rfl, (fresh_afterCallback r c result).lookup?_eq_none⟩
  | awaitingCallback h hw' =>
    obtain ⟨hash, rfl, rfl, rfl⟩ := h.uncut hs hw'
    exact ⟨rfl, rfl⟩
  | @awaitedCallback c p _ _ result h =>
    exact ⟨h.lookup?.2, (fresh_afterCallbackReceipt r c p result).lookup?_eq_none⟩
  | finished s => exact ⟨rfl, rfl⟩
  | left s => exact ⟨rfl, rfl⟩

/-- When the relay stops a course looks up the one receipt that it waits for. -/
theorem lookups_of_path (h : Path (Course.turn r) c hs c')
    (hstop : ∀ y ∈ hs, y.moment.stopping = true) : ∀ q ∈ lookups hs, c.lookup? = some q := by
  induction h with
  | here _ => exact fun q hq => absurd hq List.not_mem_nil
  | @next a b c y hs first _ ih =>
    obtain ⟨hy, hb⟩ := (turned_of_goes first).lookup?_eq (hstop y List.mem_cons_self)
    intro q hq
    rw [lookups_cons, hy] at hq
    rcases List.mem_append.mp hq with hq | hq
    · exact Option.mem_toList.mp hq
    · -- No receipt is asked for from here on.
      cases hb.symm.trans (ih (fun z hz => hstop z (List.mem_cons_of_mem _ hz)) q hq)

/-- When the relay stops a course has one call to make at the most. -/
theorem mayCall_le_one (c : Course) : c.mayCall ≤ 1 := by
  cases c with
  | moving a =>
    cases a with
    | sendingTarget rule s => cases s <;> first | exact Nat.le_refl 1 | exact Nat.zero_le 1
    | sendingCallback d s => cases s <;> first | exact Nat.le_refl 1 | exact Nat.zero_le 1
    | _ => exact Nat.zero_le 1
  | _ => first | exact Nat.le_refl 1 | exact Nat.zero_le 1

/-- What comes of a wait that is cut short: the end of the attempt. -/
theorem afterTargetReceipt_error (r : Relay) (p : Pending) (e : WaitError) :
    ofAttempt r (Attempt.afterTargetReceipt p (.done (.error e))) =
      .finishing (.receiptFailed { p with status := .failed } (.wait e)) := rfl

theorem afterCallbackReceipt_error (r : Relay) (d : CallingBack) (p : Pending) (e : WaitError) :
    ofAttempt r (Attempt.afterCallbackReceipt r d p (.done (.error e))) =
      .finishing (.callbackFailed d.tx (.wait e)) := rfl

/-- **When the relay stops a log submits at most one more call.** -/
theorem Turned.mayCall_le (h : Turned r m c x c') (hs : m.stopping = true) (hc : c.Aims) :
    x.submission?.toList.length + c'.mayCall ≤ c.mayCall := by
  cases h with
  | ignored _ _ => exact Nat.zero_le 1
  | matched _ _ _ => exact Nat.le_refl 1
  | entered s => exact (Nat.zero_add _).trans_le (mayCall_le_one _)
  | sendingTarget h _ => exact h.mayCall_le.1
  | sentTarget rule nonce result => cases result <;> exact Nat.le_refl 0
  | awaitingTarget h hw' =>
    obtain ⟨hash, rfl, rfl, rfl⟩ := h.uncut hs hw'
    exact Nat.le_refl 0
  | awaitedTarget h =>
    obtain ⟨e, rfl, -⟩ := h.cut hs hc
    rw [h.lookup?.1, afterTargetReceipt_error]
    exact Nat.le_refl 0
  | sendingCallback h _ => exact h.mayCall_le.1
  | sentCallback c nonce result => cases result <;> exact Nat.le_refl 0
  | awaitingCallback h hw' =>
    obtain ⟨hash, rfl, rfl, rfl⟩ := h.uncut hs hw'
    exact Nat.le_refl 0
  | awaitedCallback h =>
    obtain ⟨e, rfl, -⟩ := h.cut hs hc
    rw [h.lookup?.1, afterCallbackReceipt_error]
    exact Nat.le_refl 0
  | finished s => exact Nat.le_refl 0
  | left s => exact Nat.le_refl 0

/-- When the relay stops a course submits no more than the call that it may make. -/
theorem submissions_of_path (h : Path (Course.turn r) c hs c')
    (hstop : ∀ y ∈ hs, y.moment.stopping = true) (hc : c.Aims) :
    (submissions hs).length ≤ c.mayCall := by
  induction h with
  | here _ => exact Nat.zero_le _
  | @next a b c y hs first _ ih =>
    have hturned := turned_of_goes first
    have hle := hturned.mayCall_le (hstop y List.mem_cons_self) hc
    have hrest := ih (fun z hz => hstop z (List.mem_cons_of_mem _ hz)) (hturned.aims hc)
    rw [submissions_cons, List.length_append]
    omega

/-! ## Waits that are cut short -/

/-- Why the wait for a transaction was cut short: the relay stopped, or the deadline had passed. -/
def CutShort (r : Relay) (deadline? : Option Nat) (side : Side) (hash : Word) (hs : List Happening)
    (e : WaitError) : Prop :=
  e = .cancelled hash ∨ e = .timeout hash (r.patience side).timeout ∧
    ∃ y ∈ hs, (∃ q, y.cause = .late q) ∧ ∃ d, d ≤ y.moment.now ∧
      (deadline? = some d ∨
        ∃ z ∈ hs, z.cause = .looked ∧ d = z.moment.now + (r.patience side).timeout)

variable {side : Side} {hash : Word} {failed : WaitError → State}

/-- **When the relay stops an attempt that waits, or is about to, for a transaction that was taken
goes on to do so, or its wait is cut short and that is its end.** -/
theorem Turned.unconfirmed (h : Turned r m c x c') (hs : m.stopping = true) (hc : c.Aims)
    (hu : c.unconfirmed? = some (side, hash, failed)) :
    (c'.unconfirmed? = some (side, hash, failed) ∧ (c'.deadline? = c.deadline? ∨
      x = .looked ∧ c'.deadline? = some (m.now + (r.patience side).timeout))) ∨
    ∃ e, c' = .finishing (failed e) ∧ (e = .cancelled hash ∨
      e = .timeout hash (r.patience side).timeout ∧ (∃ q, x = .late q) ∧
        ∃ d, c.deadline? = some d ∧ d ≤ m.now) := by
  cases h with
  | sendingTarget h _ =>
    refine .inl ⟨?_, .inl rfl⟩
    rcases h.taken?_eq with hnone | heq
    · simp [unconfirmed?, unconfirmedTarget?, unconfirmedCallback?, hnone] at hu
    · simpa only [unconfirmed?, unconfirmedTarget?, unconfirmedCallback?, heq] using hu
  | sentTarget rule nonce result =>
    cases result with
    | error e => cases hu
    | ok sub => exact .inl ⟨hu, .inl rfl⟩
  | @awaitingTarget p _ _ _ h hw' =>
    obtain ⟨hash', rfl, rfl, rfl⟩ := h.uncut hs hw'
    obtain rfl : p.side = side := (Prod.mk.inj (Option.some.inj hu)).1
    exact .inl ⟨hu, .inr ⟨rfl, rfl⟩⟩
  | @awaitedTarget p _ _ _ h =>
    obtain ⟨e, rfl, hcut⟩ := h.cut hs hc
    cases hu
    refine .inr ⟨e, afterTargetReceipt_error r p e, hcut.imp_right fun h => ?_⟩
    obtain ⟨he, hlate, d, hlimit, hd⟩ := h
    exact ⟨he, hlate, d, by rw [deadline?, hlimit]; rfl, hd⟩
  | sendingCallback h _ =>
    refine .inl ⟨?_, .inl rfl⟩
    rcases h.taken?_eq with hnone | heq
    · simp [unconfirmed?, unconfirmedTarget?, unconfirmedCallback?, hnone] at hu
    · simpa only [unconfirmed?, unconfirmedTarget?, unconfirmedCallback?, heq] using hu
  | sentCallback d nonce result =>
    cases result with
    | error e => cases hu
    | ok sub => exact .inl ⟨hu, .inl rfl⟩
  | @awaitingCallback _ p _ _ _ h hw' =>
    obtain ⟨hash', rfl, rfl, rfl⟩ := h.uncut hs hw'
    obtain rfl : p.side = side := (Prod.mk.inj (Option.some.inj hu)).1
    exact .inl ⟨hu, .inr ⟨rfl, rfl⟩⟩
  | @awaitedCallback d p _ _ _ h =>
    obtain ⟨e, rfl, hcut⟩ := h.cut hs hc
    cases hu
    refine .inr ⟨e, afterCallbackReceipt_error r d p e, hcut.imp_right fun h => ?_⟩
    obtain ⟨he, hlate, d, hlimit, hd⟩ := h
    exact ⟨he, hlate, d, by rw [deadline?, hlimit]; rfl, hd⟩
  | _ => cases hu

/-- An attempt whose wait is cut short ends with that. -/
theorem unconfirmed_of_path (h : Path (Course.turn r) c hs c')
    (hstop : ∀ y ∈ hs, y.moment.stopping = true) (hc : c.Aims)
    (hu : c.unconfirmed? = some (side, hash, failed)) {result : Option State}
    (hend : c' = .done result) :
    ∃ e, result = some (failed e) ∧ CutShort r c.deadline? side hash hs e := by
  induction h with
  | here _ =>
    subst hend
    cases hu
  | @next a b c y hs first rest ih =>
    have hturned := turned_of_goes first
    rcases hturned.unconfirmed (hstop y List.mem_cons_self) hc hu with
      ⟨hb, hdeadline⟩ | ⟨e, rfl, hcut⟩
    · obtain ⟨e, hresult, hcut⟩ :=
        ih (fun z hz => hstop z (List.mem_cons_of_mem _ hz)) (hturned.aims hc) hb hend
      refine ⟨e, hresult, hcut.imp_right fun h => ?_⟩
      obtain ⟨he, z, hz, hlate, d, hd, hwhy⟩ := h
      refine ⟨he, z, List.mem_cons_of_mem _ hz, hlate, d, hd, ?_⟩
      -- The deadline was there before, or it was set in this turn or later.
      rcases hwhy with hbd | ⟨z', hz', hlooked, hset⟩
      · rcases hdeadline with heq | ⟨hlooked, hset⟩
        · exact .inl (heq ▸ hbd)
        · exact .inr ⟨y, List.mem_cons_self, hlooked, Option.some.inj (hbd.symm.trans hset)⟩
      · exact .inr ⟨z', List.mem_cons_of_mem _ hz', hlooked, hset⟩
    · subst hend
      obtain ⟨rfl, -⟩ := finishing_path rest
      refine ⟨e, rfl, hcut.imp_right fun h => ?_⟩
      obtain ⟨he, hlate, d, hd, hle⟩ := h
      exact ⟨he, y, List.mem_cons_self, hlate, d, hle, .inl hd⟩

end Course

/-- What is left of a log's way from a moment on at which the relay stops: `c` is what it was doing,
`hs` what happened from then on, and `c'` what has become of it. -/
structure Bounded (r : Relay) (c : Course) (hs : List Happening) (c' : Course) : Prop where
  /-- It submits at most one more call. -/
  once : (submissions hs).length ≤ 1
  /-- It asks for no receipt but the one that it had just asked for. -/
  unlooked : ∀ q ∈ lookups hs, c.lookup? = some q
  /-- If its target call was taken and the receipt was not there, it submits nothing, and it ends
  without the receipt because the relay stopped or the deadline had passed. -/
  target : ∀ p, c.unconfirmedTarget? = some p → submissions hs = [] ∧
    ∀ result, c' = .done result → ∃ e,
      result = some (.receiptFailed { p with status := .failed } (.wait e)) ∧
      Course.CutShort r c.deadline? p.side p.hash hs e
  /-- If a callback was taken and the receipt was not there, it submits nothing, and it ends with
  the callback for the same reasons. -/
  callback : ∀ tx side hash, c.unconfirmedCallback? = some (tx, side, hash) → submissions hs = [] ∧
    ∀ result, c' = .done result → ∃ e, result = some (.callbackFailed tx (.wait e)) ∧
      Course.CutShort r c.deadline? side hash hs e

namespace Course

/-- A target that is not confirmed leads to its failed receipt. -/
theorem unconfirmed?_of_target {p : Pending} (h : c.unconfirmedTarget? = some p) :
    c.unconfirmed? =
      some (p.side, p.hash, fun e => .receiptFailed { p with status := .failed } (.wait e)) := by
  rw [unconfirmed?, h]
  rfl

/-- A callback that is not confirmed leads to its own failure. -/
theorem unconfirmed?_of_callback {tx hash : Word} {side : Side}
    (h : c.unconfirmedCallback? = some (tx, side, hash)) :
    c.unconfirmed? = some (side, hash, fun e => .callbackFailed tx (.wait e)) := by
  have htarget : c.unconfirmedTarget? = none := by
    cases c with
    | moving a => cases a <;> first | rfl | cases h
    | _ => rfl
  rw [unconfirmed?, h, htarget]
  rfl

/-- An attempt that waits for a transaction that was taken has nothing to submit meanwhile. -/
theorem mayCall_of_unconfirmed {u : Side × Word × (WaitError → State)}
    (h : c.unconfirmed? = some u) :
    c.mayCall = 0 := by
  cases c with
  | moving a =>
    cases a with
    | sendingTarget rule s => cases s <;> first | rfl | cases h
    | sendingCallback d s => cases s <;> first | rfl | cases h
    | _ => rfl
  | _ => cases h

/-- **What a log still does when the relay stops.** -/
theorem bounded_of_path (h : Path (Course.turn r) c hs c')
    (hstop : ∀ y ∈ hs, y.moment.stopping = true) (hc : c.Aims) : Bounded r c hs c' := by
  have hsubmitted := submissions_of_path h hstop hc
  have hnone : ∀ u, c.unconfirmed? = some u → submissions hs = [] := fun u hu =>
    List.eq_nil_of_length_eq_zero (Nat.le_zero.mp (mayCall_of_unconfirmed hu ▸ hsubmitted))
  refine ⟨hsubmitted.trans c.mayCall_le_one, lookups_of_path h hstop, fun p hp => ?_,
    fun tx side hash hcall => ?_⟩
  · have hu := unconfirmed?_of_target hp
    exact ⟨hnone _ hu, fun result hend => unconfirmed_of_path h hstop hc hu hend⟩
  · have hu := unconfirmed?_of_callback hcall
    exact ⟨hnone _ hu, fun result hend => unconfirmed_of_path h hstop hc hu hend⟩

end Course

/-! ## The relay that follows -/

/-- The logs that set out in a turn of the relay that follows. -/
def Following.setOut (r : Relay) (f : Following) : Cause → List Course
  | .spawned => (f.handsOn r).map .arriving
  | _ => []

/-- **A relay that stops receives nothing**, and the logs that set out are those that it was handing
on. -/
theorem Following.Turned.setOut_append {f f' : Following} (h : Turned r m f x f')
    (hs : m.stopping = true) : (∀ side log, x ≠ .received side log) ∧
      f.setOut r x ++ (f'.handsOn r).map .arriving = (f.handsOn r).map .arriving := by
  cases h with
  | cancelled f _ hf =>
    obtain ⟨last, b, phase⟩ := f
    cases phase <;> first | exact ⟨nofun, rfl⟩ | cases hf
  | backedOff _ _ _ _ hn | ended _ _ hn | unplaced _ _ _ hn | skipped _ _ _ _ hn
  | taken _ _ _ _ hn => cases hs.symm.trans hn
  | _ => exact ⟨nofun, rfl⟩

/-- A relay and what it has started: one task follows and all others are logs on their way. -/
def Led (f : Following) (cs : List Course) (e : Ensemble Task) : Prop :=
  e.activities = .following f :: cs.map .course

variable {f f₁ f₂ : Following} {cs cs₁ : List Course} {e e' e₁ e₂ : Ensemble Task} {i : Nat}
  {y : Happening} {nonce : Side → Option UInt64} {metrics : Metrics}
  {before after : List (Nat × Happening)}

/-- In every step the relay takes a turn and logs set out, or a log goes on. -/
theorem Led.step (he : Led f cs e) (h : Ensemble.Step (Task.turn r) e i y e') :
    (∃ f', i = 0 ∧ Following.Turned r y.moment f y.cause f' ∧
      Led f' (cs ++ f.setOut r y.cause) e') ∨
    ∃ j c c', i = j + 1 ∧ cs[j]? = some c ∧ (c.turn r).Goes y.moment y.cause c' ∧
      Led f (cs.set j c') e' := by
  cases h with
  | @turn t t' here goes _ =>
    rw [he] at here
    cases i with
    | zero =>
      obtain rfl := Option.some.inj here
      obtain ⟨f', rfl, hf⟩ := Following.turned_of_goes goes
      have hstarted : (Task.turn r (.following f)).started y.cause =
          (f.setOut r y.cause).map .course := by
        generalize y.cause = cause at hf
        cases hf <;> rfl
      refine .inl ⟨f', rfl, hf, ?_⟩
      rw [Led, he, hstarted, List.map_append]
      rfl
    | succ j =>
      rw [List.getElem?_cons_succ, List.getElem?_map, Option.map_eq_some_iff] at here
      obtain ⟨c, hc, rfl⟩ := here
      obtain ⟨c', hgoes, rfl⟩ := Task.goes_course_iff.mp goes
      have hstarted := Task.started_course goes
      refine .inr ⟨j, c, c', rfl, hc, hgoes, ?_⟩
      rw [Led, he, hstarted, List.append_nil, List.map_set]
      rfl

/-- A relay leads what it has started. -/
theorem exists_led
    (h : Ensemble.Run (Task.turn r) (.start [.following (.start r)] nonce metrics) before e) :
    ∃ f cs, Led f cs e := by
  induction h with
  | here => exact ⟨.start r, [], rfl⟩
  | step _ step ih =>
    obtain ⟨f, cs, he⟩ := ih
    rcases he.step step with ⟨f', -, -, he'⟩ | ⟨j, c, c', -, -, -, he'⟩
    · exact ⟨f', _, he'⟩
    · exact ⟨f, _, he'⟩

/-- The logs on their way, and the one that is about to set out. -/
def logsOf (r : Relay) (f : Following) (cs : List Course) : List Course :=
  cs ++ (f.handsOn r).map .arriving

/-- **When a relay stops it receives nothing**, and the logs on their way, with the one that it was
handing on, go their own ways. -/
theorem Led.run (he : Led f₁ cs₁ e₁) (h : Ensemble.Run (Task.turn r) e₁ after e₂)
    (hstop : ∀ y ∈ after, y.2.moment.stopping = true) :
    (∀ y ∈ after, ∀ side log, y.2.cause ≠ .received side log) ∧
    ∃ f₂ cs₂, Led f₂ cs₂ e₂ ∧ (logsOf r f₂ cs₂).length = (logsOf r f₁ cs₁).length ∧
      ∀ j c, (logsOf r f₁ cs₁)[j]? = some c → ∃ c', (logsOf r f₂ cs₂)[j]? = some c' ∧
        Path (Course.turn r) c (Ensemble.share (j + 1) after) c' := by
  induction h with
  | here => exact ⟨nofun, f₁, cs₁, he, rfl, fun j c hc => ⟨c, hc, .here c⟩⟩
  | @step after e₂ e₃ i y _ step ih =>
    obtain ⟨hnone, f₂, cs₂, he₂, hlength, hpath⟩ :=
      ih fun z hz => hstop z (List.mem_append_left _ hz)
    have hy : y.moment.stopping = true := hstop (i, y) List.mem_concat_self
    rcases he₂.step step with ⟨f₃, rfl, hf, he₃⟩ | ⟨k, c₂, c₃, rfl, hc₂, hgoes, he₃⟩
    · obtain ⟨hreceived, hsets⟩ := hf.setOut_append hy
      have hlogs : logsOf r f₃ (cs₂ ++ f₂.setOut r y.cause) = logsOf r f₂ cs₂ := by
        rw [logsOf, List.append_assoc, hsets, logsOf]
      refine ⟨fun z hz => ?_, f₃, _, he₃, hlogs ▸ hlength, fun j c hc => ?_⟩
      · rcases List.mem_append.mp hz with hz | hz
        · exact hnone z hz
        · obtain rfl := List.mem_singleton.mp hz
          exact hreceived
      · obtain ⟨c', hc', hway⟩ := hpath j c hc
        rw [Ensemble.share_concat, if_neg (Nat.succ_ne_zero j).symm, List.append_nil, hlogs]
        exact ⟨c', hc', hway⟩
    · have hk : k < cs₂.length := (List.getElem?_eq_some_iff.mp hc₂).1
      have hlogs : logsOf r f₂ (cs₂.set k c₃) = (logsOf r f₂ cs₂).set k c₃ := by
        rw [logsOf, logsOf, List.set_append_left _ _ hk]
      refine ⟨fun z hz => ?_, f₂, _, he₃, ?_, fun j c hc => ?_⟩
      · rcases List.mem_append.mp hz with hz | hz
        · exact hnone z hz
        · obtain rfl := List.mem_singleton.mp hz
          exact (Course.turned_of_goes hgoes).not_following.2
      · rw [hlogs, List.length_set, hlength]
      · obtain ⟨c', hc', hway⟩ := hpath j c hc
        rw [Ensemble.share_concat, hlogs]
        by_cases hkj : k = j
        · subst hkj
          have hsame : c' = c₂ := by
            rw [logsOf, List.getElem?_append_left hk, hc₂] at hc'
            exact (Option.some.inj hc').symm
          subst hsame
          rw [if_pos rfl, List.getElem?_set_self (by rw [logsOf, List.length_append]; omega)]
          exact ⟨c₃, rfl, hway.snoc hgoes⟩
        · rw [if_neg (by omega), List.append_nil, List.getElem?_set_ne hkj]
          exact ⟨c', hc', hway⟩

/-- What is handed on is the log at hand, alone. -/
theorem Following.phase_of_mem_handsOn {log : Log} (h : log ∈ f.handsOn r) :
    f.phase = .handing log ∧ f.handsOn r = [log] := by
  obtain ⟨last, b, phase⟩ := f
  cases phase with
  | handing log' =>
    obtain rfl := List.mem_singleton.mp h
    exact ⟨rfl, rfl⟩
  | _ => cases h

/-- A log that is new on its way is the one that the relay was handing on. -/
theorem handing_of_length_le {j : Nat} {c : Course} (h : (logsOf r f cs)[j]? = some c)
    (hj : cs.length ≤ j) : j = cs.length ∧ ∃ log, f.phase = .handing log ∧ c = .arriving log := by
  rw [logsOf, List.getElem?_append_right hj, List.getElem?_map, Option.map_eq_some_iff] at h
  obtain ⟨log, hlog, rfl⟩ := h
  obtain ⟨hphase, hone⟩ := Following.phase_of_mem_handsOn (List.mem_of_getElem? hlog)
  rw [hone, List.getElem?_singleton] at hlog
  split at hlog
  next hzero => exact ⟨by omega, log, hphase, rfl⟩
  next => cases hlog

/-- What is left of a run from a moment on at which the relay stops: `e₁` is what it was then,
`after` what happened from then on, and `e₂` what has become of it. -/
structure Stopped (r : Relay) (e₁ : Ensemble Task) (after : List (Nat × Happening))
    (e₂ : Ensemble Task) : Prop where
  /-- No log is received any more. -/
  unreceived : ∀ y ∈ after, ∀ side log, y.2.cause ≠ .received side log
  /-- What was on its way comes to its end. -/
  bounded : ∀ i c, e₁.activities[i]? = some (.course c) →
    ∃ c', e₂.activities[i]? = some (.course c') ∧ Bounded r c (Ensemble.share i after) c'
  /-- Nothing new sets out but the one log that had been received before, if there was one. -/
  handed : ∀ i t, e₁.activities.length ≤ i → e₂.activities[i]? = some t →
    i = e₁.activities.length ∧ ∃ f log c', e₁.activities[0]? = some (.following f) ∧
      f.phase = .handing log ∧ t = .course c' ∧
      Bounded r (.arriving log) (Ensemble.share i after) c'
  /-- It does not go on forever. -/
  finite : Acc (fun e' e => ∃ i x, x.moment.stopping = true ∧
    Ensemble.Step (Task.turn r) e i x e') e₂
  /-- It goes on until all is over. -/
  ends : (∀ t ∈ e₂.activities, t.isDone = true) ∨ ∃ time, ∀ m : Instant, time ≤ m.now →
    ∃ i x e', x.moment = m ∧ Ensemble.Step (Task.turn r) e₂ i x e'

/-- **What a relay still does when it stops**, whenever that is, whatever the nodes answer and
whichever task goes on next. Every moment from then on is such a moment too: a call that is taken
later is left without its receipt in the same way. -/
theorem bounded_after_stop
    (h₁ : Ensemble.Run (Task.turn r) (.start [.following (.start r)] nonce metrics) before e₁)
    (h₂ : Ensemble.Run (Task.turn r) e₁ after e₂)
    (hstop : ∀ y ∈ after, y.2.moment.stopping = true) : Stopped r e₁ after e₂ := by
  have hnew : ∀ t ∈ [Task.following (.start r)], t.IsNew := by
    intro t ht
    rw [List.mem_singleton.mp ht]
    trivial
  obtain ⟨f₁, cs₁, he₁⟩ := exists_led h₁
  obtain ⟨hreceived, f₂, cs₂, he₂, hlength, hpath⟩ := he₁.run h₂ hstop
  have hshare : ∀ i, ∀ y ∈ Ensemble.share i after, y.moment.stopping = true :=
    fun i y hy => hstop (i, y) (Ensemble.mem_share.mp hy)
  refine ⟨hreceived, fun i c hc => ?_, fun i t hi ht => ?_, ?_, done_or_exists_step hnew
    (h₁.append h₂)⟩
  · obtain ⟨log, hway⟩ := course_path hnew h₁ hc
    obtain ⟨t, ht, hpath⟩ := h₂.path hc
    obtain ⟨c', rfl, hrest⟩ := Task.path_course hpath
    exact ⟨c', ht, Course.bounded_of_path hrest (hshare i) (Course.Aims.of_path hway trivial)⟩
  · have hlength₁ : e₁.activities.length = cs₁.length + 1 := by
      rw [he₁, List.length_cons, List.length_map]
    cases i with
    | zero => omega
    | succ j =>
      rw [he₂, List.getElem?_cons_succ, List.getElem?_map, Option.map_eq_some_iff] at ht
      obtain ⟨c', hc', rfl⟩ := ht
      -- It is one of the logs on their way or about to set out, and there were no more before.
      have hlogs₂ : (logsOf r f₂ cs₂)[j]? = some c' := by
        rw [logsOf, List.getElem?_append_left (List.getElem?_eq_some_iff.mp hc').1, hc']
      have hlt : j < (logsOf r f₁ cs₁).length := hlength ▸ (List.getElem?_eq_some_iff.mp hlogs₂).1
      have hlogs₁ := List.getElem?_eq_getElem hlt
      obtain ⟨hj, log, hphase, hc⟩ := handing_of_length_le hlogs₁ (by omega)
      obtain ⟨c'', hc'', hway⟩ := hpath j _ hlogs₁
      obtain rfl := Option.some.inj (hlogs₂.symm.trans hc'')
      rw [hc] at hway
      exact ⟨by omega, f₁, log, c', by rw [he₁]; rfl, hphase, rfl,
        Course.bounded_of_path hway (hshare (j + 1)) trivial⟩
  · refine Subrelation.accessible ?_ ((Task.wellFounded_step r).apply e₂)
    rintro e' e ⟨i, x, hx, hstep⟩
    exact ⟨i, x, fun _ _ => .inr hx, hstep⟩

/-- The relay need not wait for tasks that want no more. -/
theorem admits_joined (h : e.activities.tail.all (fun t => (t.turn r).demand.isIdle) = true) :
    e.Admits (Task.turn r) 0 .joined := by
  intro j t ht hj
  refine List.all_eq_true.mp h t (List.mem_of_getElem? (i := j - 1) ?_)
  rw [List.getElem?_tail, Nat.sub_one_add_one hj, ht]

/-- A moment after the relay was told to stop. -/
def told : Instant := ⟨10, true, true⟩

/-- The target call of a log of the event `Ping` as it was taken. -/
def pingPending (hash : Word) (nonce : UInt64) (status : Status) : Pending :=
  ⟨hash, nonce, .priv, status, ⟨"Ping", ⟨"pong", []⟩, none⟩⟩

/-- The relay is told to stop while one attempt waits for the receipt of its target call and another
log has just been received: the first ends without the receipt, and the other submits its call and
then ends as well. -/
theorem bounded_after_stop_waiting : ∃ before e₁ after e₂,
    Ensemble.Run (Task.turn pinging) (.start [.following (.start pinging)] (fun _ => some 5) .zero)
      before e₁ ∧
    e₁.activities = [.following ⟨none, some 3, .handing ping⟩,
      .course (.moving (.awaitingTarget (pingPending 9 5 .submitted) (.resting 9 1000 0)))] ∧
    Ensemble.Run (Task.turn pinging) e₁ after e₂ ∧ (∀ y ∈ after, y.2.moment.stopping = true) ∧
    e₂.activities = [.following ⟨none, some 3, .done (.ok ())⟩,
      .course (.done (some (.receiptFailed (pingPending 9 5 .failed) (.wait (.cancelled 9))))),
      .course (.done (some (.receiptFailed (pingPending 8 6 .failed) (.wait (.cancelled 8)))))] ∧
    Stopped pinging e₁ after e₂ := by
  have h₀ : Ensemble.Run (Task.turn pinging)
      (.start [.following (.start pinging)] (fun _ => some 5) .zero) [] _ := .here
  have h₁ := h₀
    |>.following .zero rfl (.unstarted rfl) trivial
    |>.following .zero rfl (.headed _ _ 3) trivial
    |>.following .zero rfl (.subscribed _ _ _ _) trivial
    |>.following .zero rfl (.opened _ _ _) trivial
    |>.following .zero rfl (.unplaced _ _ ping rfl rfl) trivial
    |>.following .zero rfl (.handed _ _ _) trivial
    |>.course 1 rfl (Turn.goes_plain.mpr (.count _ _)) trivial
    |>.course 1 rfl (Turn.goes_plain.mpr (.count _ _)) trivial
    |>.course 1 rfl (Course.goes_sendingTarget (.known _ 5)) ⟨rfl, rfl⟩
    |>.course 1 rfl (Course.goes_sendingTarget (.taken _ 9)) trivial
    |>.course 1 rfl (Course.goes_sendingTarget (.reported _)) trivial
    |>.course 1 rfl (Course.goes_sendingTarget (.left _ _)) trivial
    |>.course 1 rfl (Course.goes_awaitingTarget (Turn.goes_plain.mpr (.look _))) trivial
    |>.following .zero rfl (.unplaced _ _ ping rfl rfl) trivial
  have stay : ∀ {xs e}, Ensemble.Run (Task.turn pinging)
      (.start [.following (.start pinging)] (fun _ => some 5) .zero) xs e →
      Ensemble.Run (Task.turn pinging) e [] e := fun _ => .here
  have h₂ := (stay h₁)
    |>.following told rfl (.handed _ _ _) trivial
    |>.courseAt told 1 rfl (Course.goes_awaitingTarget (.cancelled rfl rfl)) trivial
    |>.courseAt told 2 rfl (Turn.goes_plain.mpr (.count _ _)) trivial
    |>.following told rfl (.cancelled _ rfl rfl) trivial
    |>.courseAt told 2 rfl (Turn.goes_plain.mpr (.count _ _)) trivial
    |>.courseAt told 1 rfl (Turn.goes_plain.mpr (.count _ _)) trivial
    |>.courseAt told 2 rfl (Course.goes_sendingTarget (.known _ 6)) ⟨rfl, rfl⟩
    |>.courseAt told 2 rfl (Course.goes_sendingTarget (.taken _ 8)) trivial
    |>.courseAt told 1 rfl (Turn.goes_plain.mpr (.count _ _)) trivial
    |>.courseAt told 2 rfl (Course.goes_sendingTarget (.reported _)) trivial
    |>.courseAt told 2 rfl (Course.goes_sendingTarget (.left _ _)) trivial
    |>.courseAt told 2 rfl (Course.goes_awaitingTarget (Turn.goes_plain.mpr (.look _))) trivial
    |>.courseAt told 2 rfl (Turn.goes_plain.mpr (.count _ _)) trivial
    |>.courseAt told 2 rfl (Turn.goes_plain.mpr (.count _ _)) trivial
    |>.following told rfl (.left _ _ _) (admits_joined rfl)
  refine ⟨_, _, _, _, h₁, rfl, h₂, ?_, rfl, bounded_after_stop h₁ h₂ ?_⟩ <;>
    exact List.all_eq_true (p := fun y : Nat × Happening => y.2.moment.stopping) |>.mp rfl

end Relay
end EventRelay
