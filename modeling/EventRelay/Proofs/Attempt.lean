import EventRelay.Proofs.Sending
import EventRelay.Proofs.Waiting
import EventRelay.Relay.Attempt

/-!
# What an attempt does between two states

`Invoked` is what comes of a call that a relay makes, `Awaited` what comes of the wait for its
receipt, and `CalledBack` what comes of the logs of a receipt. `Step` puts them together: it lists
what can come of a state.

Main statements:

* `step_of_path`: an attempt goes from one state to the next by one of the listed steps;
* `Step.stage_lt`: every step goes on to a later state;
* `Invoked.asks`, `Awaited.asks`, `CalledBack.asks`: what nodes are asked on the way;
* `Invoked.unique`, `Awaited.unique`: what happened decides what came of a call and of a wait.
-/

namespace EventRelay.Relay

variable {r : Relay} {hs xs ys xs' ys' : List Happening}

/-- What comes of a call that the relay makes for a decoded log. -/
inductive Invoked (r : Relay) (target : Side) (i : Invocation) (d : Abi.DecodedLog) :
    List Happening → Except RelayError Submitted → Prop
  /-- A parameter is not a field of the log. -/
  | unprojected {e : MissingField} (h : d.project i.params = .error e) :
      Invoked r target i d [] (.error (.project e))
  /-- The arguments are not those of a method. -/
  | unencoded {args : List Abi.Value} {e : Abi.CallError} (hp : d.project i.params = .ok args)
      (h : (r.registries.side target).encodeCall i.method args = .error e) :
      Invoked r target i d [] (.error (.call e))
  /-- The call was sent, and taken or not. -/
  | sent {call : Call} {hs : List Happening} {result : Except ChainError Submitted}
      (hc : r.callFor target i d = .ok call)
      (h : Path (Sending.turn (r.side target).account) (.queued call) hs (.done result)) :
      Invoked r target i d hs (result.mapError .chain)

/-- What comes of the wait for the receipt of a transaction. -/
inductive Awaited (r : Relay) (side : Side) (hash : Word) :
    List Happening → Except RelayError Receipt → Prop
  /-- It timed out, or the relay stopped. -/
  | lost {hs : List Happening} {e : WaitError}
      (h : Path (Waiting.turn side (r.patience side)) (.starting hash) hs (.done (.error e))) :
      Awaited r side hash hs (.error (.wait e))
  | reverted {hs : List Happening} {receipt : Receipt}
      (h : Path (Waiting.turn side (r.patience side)) (.starting hash) hs (.done (.ok receipt)))
      (hr : receipt.status = false) : Awaited r side hash hs (.error (.reverted hash))
  | mined {hs : List Happening} {receipt : Receipt}
      (h : Path (Waiting.turn side (r.patience side)) (.starting hash) hs (.done (.ok receipt)))
      (hr : receipt.status = true) : Awaited r side hash hs (.ok receipt)

/-- The callback that a log asks for, and the event of the log. -/
def asked? (r : Relay) (rule : Rule) (log : Log) : Option (Abi.Signature × Callback) := do
  guard (log.address = r.priv.contract)
  let signature ← log.topic0.bind r.registries.priv.resolve?
  let callback ← rule.callbackFor? signature.name
  pure (signature, callback)

/-- What comes of the logs of a receipt, after the callbacks `sent`. -/
inductive CalledBack (r : Relay) (tx : Word) (rule : Rule) :
    List Pending → List Log → List Happening → State → Prop
  | nothing (sent : List Pending) :
      CalledBack r tx rule sent [] [] (if sent.isEmpty then .noCallback tx else .calledBack tx sent)
  | ignored {sent : List Pending} {log : Log} {logs : List Log} {hs : List Happening} {s : State}
      (h : r.asked? rule log = none) (rest : CalledBack r tx rule sent logs hs s) :
      CalledBack r tx rule sent (log :: logs) hs s
  | undecoded {sent : List Pending} {log : Log} {logs : List Log} {signature : Abi.Signature}
      {callback : Callback} {e : Abi.DecodeError}
      (h : r.asked? rule log = some (signature, callback)) (hd : signature.decode log = .error e) :
      CalledBack r tx rule sent (log :: logs) [] (.decodeFailed (.decode e))
  | uninvoked {sent : List Pending} {log : Log} {logs : List Log} {signature : Abi.Signature}
      {callback : Callback} {d : Abi.DecodedLog} {hs : List Happening} {e : RelayError}
      (h : r.asked? rule log = some (signature, callback)) (hd : signature.decode log = .ok d)
      (hi : Invoked r callback.target callback.call d hs (.error e)) :
      CalledBack r tx rule sent (log :: logs) hs (.callbackFailed tx e)
  | unmined {sent : List Pending} {log : Log} {logs : List Log} {signature : Abi.Signature}
      {callback : Callback} {d : Abi.DecodedLog} {xs ys : List Happening} {s : Submitted}
      {e : RelayError} (h : r.asked? rule log = some (signature, callback))
      (hd : signature.decode log = .ok d)
      (hi : Invoked r callback.target callback.call d xs (.ok s))
      (hw : Awaited r callback.target s.hash ys (.error e)) :
      CalledBack r tx rule sent (log :: logs) (xs ++ ys) (.callbackFailed tx e)
  | called {sent : List Pending} {log : Log} {logs : List Log} {signature : Abi.Signature}
      {callback : Callback} {d : Abi.DecodedLog} {xs ys hs : List Happening} {s : Submitted}
      {receipt : Receipt} {s' : State} (h : r.asked? rule log = some (signature, callback))
      (hd : signature.decode log = .ok d)
      (hi : Invoked r callback.target callback.call d xs (.ok s))
      (hw : Awaited r callback.target s.hash ys (.ok receipt))
      (rest : CalledBack r tx rule
        (sent ++ [⟨s.hash, s.nonce, callback.target, .mined, rule⟩]) logs hs s') :
      CalledBack r tx rule sent (log :: logs) (xs ++ (ys ++ hs)) s'

/-- What comes of a state that is not terminal. -/
inductive Step (r : Relay) : State → List Happening → State → Prop
  | unsubmitted {event : Log} {d : Abi.DecodedLog} {rule : Rule} {hs : List Happening}
      {e : RelayError} (h : Invoked r .priv rule.call d hs (.error e)) :
      Step r (.matched event d rule) hs (.submitFailed e)
  | submitted {event : Log} {d : Abi.DecodedLog} {rule : Rule} {hs : List Happening} {s : Submitted}
      (h : Invoked r .priv rule.call d hs (.ok s)) :
      Step r (.matched event d rule) hs (.submitted ⟨s.hash, s.nonce, .priv, .submitted, rule⟩)
  | unmined {p : Pending} {hs : List Happening} {e : RelayError}
      (h : Awaited r p.side p.hash hs (.error e)) :
      Step r (.submitted p) hs (.receiptFailed { p with status := .failed } e)
  | mined {p : Pending} {hs : List Happening} {receipt : Receipt}
      (h : Awaited r p.side p.hash hs (.ok receipt)) :
      Step r (.submitted p) hs (.mined { p with status := .mined } receipt)
  | uncalled {p : Pending} {receipt : Receipt} (h : p.rule.callback = none) :
      Step r (.mined p receipt) [] (.noCallback p.hash)
  | called {p : Pending} {receipt : Receipt} {hs : List Happening} {s : State}
      (hc : p.rule.callback.isSome = true)
      (h : CalledBack r p.hash p.rule [] receipt.logs hs s) : Step r (.mined p receipt) hs s

/-! ## Calls and waits as parts of an attempt -/

theorem callFor_of_unprojected {target : Side} {i : Invocation} {d : Abi.DecodedLog}
    {e : MissingField} (h : d.project i.params = .error e) :
    r.callFor target i d = .error (.project e) := by
  rw [callFor, h]
  rfl

/-- With the arguments at hand the call depends on the encoding alone. -/
theorem callFor_of_projected {target : Side} {i : Invocation} {d : Abi.DecodedLog}
    {args : List Abi.Value} (h : d.project i.params = .ok args) :
    r.callFor target i d =
      (((r.registries.side target).encodeCall i.method args).mapError RelayError.call).map
        fun input => ⟨(r.side target).contract, input⟩ := by
  rw [callFor, h]
  show (((r.registries.side target).encodeCall i.method args).mapError RelayError.call).bind _ = _
  cases (r.registries.side target).encodeCall i.method args <;> rfl

/-- A call that cannot be made up ends the send before anything happens. -/
theorem invoked_of_callFor {target : Side} {i : Invocation} {d : Abi.DecodedLog} {e : RelayError}
    (h : r.callFor target i d = .error e) : Invoked r target i d [] (.error e) := by
  cases hp : d.project i.params with
  | error e' =>
    obtain rfl := Except.error.inj ((callFor_of_unprojected hp).symm.trans h)
    exact .unprojected hp
  | ok args =>
    rw [callFor_of_projected hp] at h
    cases he : (r.registries.side target).encodeCall i.method args with
    | error e' =>
      rw [he] at h
      obtain rfl := Except.error.inj h
      exact .unencoded hp he
    | ok input =>
      rw [he] at h
      cases h

/-- A wait that has ended is an awaited receipt. -/
theorem awaited_of_path {side : Side} {hash : Word} {result : Except WaitError Receipt}
    (h : Path (Waiting.turn side (r.patience side)) (.starting hash) hs (.done result)) :
    Awaited r side hash hs (Attempt.effective result hash) := by
  cases result with
  | error e => exact .lost h
  | ok receipt =>
    cases hr : receipt.status with
    | true =>
      rw [Attempt.effective, hr]
      exact .mined h hr
    | false =>
      rw [Attempt.effective, hr]
      exact .reverted h hr

theorem stuck_resting (s : State) : Stuck (Attempt.turn r) (.resting s) :=
  fun _ _ _ => not_goes_nothing

theorem resting_path {s s' : State} (h : Path (Attempt.turn r) (.resting s) hs (.resting s')) :
    hs = [] ∧ s' = s := by
  obtain ⟨rfl, hend⟩ := h.eq_nil_of_stuck (stuck_resting s)
  exact ⟨rfl, Attempt.resting.inj hend⟩

/-- Only an attempt at rest has a state. -/
theorem state?_eq_some {a : Attempt} {s : State} : a.state? = some s ↔ a = .resting s := by
  constructor
  · intro h
    cases a with
    | resting _ => exact congrArg Attempt.resting (Option.some.inj h)
    | _ => cases h
  · intro heq
    subst heq
    rfl

/-- A path of an attempt through a part of it is first one of the part itself. -/
theorem through_part {α ρ : Type} {turn : α → Turn α} {f : α → Attempt} (outcome? : α → Option ρ)
    (hf : ∀ a, outcome? a = none → Attempt.turn r (f a) = (turn a).map f ∧ (f a).state? = none)
    {a : α} {s' : State} (h : Path (Attempt.turn r) (f a) hs (.resting s')) :
    ∃ xs a' result ys, outcome? a' = some result ∧ Path turn a xs a' ∧
      Path (Attempt.turn r) (f a') ys (.resting s') ∧ hs = xs ++ ys := by
  refine Path.through outcome? (fun a ha => (hf a ha).1) (fun a ha hrest => ?_) h
  have hnone := (hf a ha).2
  rw [hrest] at hnone
  cases hnone

/-- A path through a send splits where the send has ended. -/
theorem through_sending {a : Account} {f : Sending → Attempt} {s : Sending} {s' : State}
    (hf : ∀ s, s.outcome? = none →
      Attempt.turn r (f s) = (s.turn a).map f ∧ (f s).state? = none)
    (h : Path (Attempt.turn r) (f s) hs (.resting s')) :
    ∃ xs result ys, Path (Sending.turn a) s xs (.done result) ∧
      Path (Attempt.turn r) (f (.done result)) ys (.resting s') ∧ hs = xs ++ ys := by
  obtain ⟨xs, s₁, result, ys, hs₁, hpath, hrest, rfl⟩ := through_part Sending.outcome? hf h
  obtain rfl := Sending.outcome?_eq_some.mp hs₁
  exact ⟨xs, result, ys, hpath, hrest, rfl⟩

/-- A path through a wait splits where the wait has ended. -/
theorem through_waiting {side : Side} {f : Waiting → Attempt} {w : Waiting} {s' : State}
    (hf : ∀ w, w.outcome? = none →
      Attempt.turn r (f w) = (w.turn side (r.patience side)).map f ∧ (f w).state? = none)
    (h : Path (Attempt.turn r) (f w) hs (.resting s')) :
    ∃ xs result ys, Path (Waiting.turn side (r.patience side)) w xs (.done result) ∧
      Path (Attempt.turn r) (f (.done result)) ys (.resting s') ∧ hs = xs ++ ys := by
  obtain ⟨xs, w₁, result, ys, hw₁, hpath, hrest, rfl⟩ := through_part Waiting.outcome? hf h
  obtain rfl := Waiting.outcome?_eq_some.mp hw₁
  exact ⟨xs, result, ys, hpath, hrest, rfl⟩

/-- Sending the target call ends in one step. -/
theorem target_of_path {rule : Rule} {call : Call} {s' : State}
    (h : Path (Attempt.turn r) (.sendingTarget rule (.queued call)) hs (.resting s')) :
    ∃ result, Path (Sending.turn r.priv.account) (.queued call) hs (.done result) ∧
      Attempt.afterTarget rule (.done result) = .resting s' := by
  obtain ⟨xs, result, ys, hpath, hrest, rfl⟩ :=
    through_sending (f := Attempt.afterTarget rule) (s := .queued call) (fun s hs => by
      cases s <;> first | exact ⟨rfl, rfl⟩ | cases hs) h
  have hstuck : Stuck (Attempt.turn r) (Attempt.afterTarget rule (.done result)) := by
    cases result <;> exact stuck_resting _
  obtain ⟨rfl, hend⟩ := hrest.eq_nil_of_stuck hstuck
  exact ⟨result, (List.append_nil xs).symm ▸ hpath, hend.symm⟩

/-- The path of a wait for the target's receipt is that of the wait alone. -/
theorem targetReceipt_of_path {p : Pending} {s' : State}
    (h : Path (Attempt.turn r) (.awaitingTarget p (.starting p.hash)) hs (.resting s')) :
    ∃ result, Path (Waiting.turn p.side (r.patience p.side)) (.starting p.hash) hs (.done result) ∧
      Attempt.afterTargetReceipt p (.done result) = .resting s' := by
  obtain ⟨xs, result, ys, hpath, hrest, rfl⟩ :=
    through_waiting (f := Attempt.afterTargetReceipt p) (w := .starting p.hash) (fun w hw => by
      cases w <;> first | exact ⟨rfl, rfl⟩ | cases hw) h
  have hstuck : Stuck (Attempt.turn r) (Attempt.afterTargetReceipt p (.done result)) := by
    unfold Attempt.afterTargetReceipt
    dsimp only
    split <;> exact stuck_resting _
  obtain ⟨rfl, hend⟩ := hrest.eq_nil_of_stuck hstuck
  exact ⟨result, (List.append_nil xs).symm ▸ hpath, hend.symm⟩

/-- Sending a callback leads to its end, or to the wait for its receipt. -/
theorem callback_of_path {c : CallingBack} {call : Call} {s' : State}
    (h : Path (Attempt.turn r) (.sendingCallback c (.queued call)) hs (.resting s')) :
    ∃ xs result ys, Path (Sending.turn (r.side c.target).account) (.queued call) xs (.done result) ∧
      Path (Attempt.turn r) (Attempt.afterCallback c (.done result)) ys (.resting s') ∧
      hs = xs ++ ys :=
  through_sending (f := Attempt.afterCallback c) (s := .queued call) (fun s hs => by
    cases s <;> first | exact ⟨rfl, rfl⟩ | cases hs) h

/-- Waiting for the receipt of a callback leads to its end, or on to the next log. -/
theorem callbackReceipt_of_path {c : CallingBack} {p : Pending} {s' : State}
    (h : Path (Attempt.turn r) (.awaitingCallback c p (.starting p.hash)) hs (.resting s')) :
    ∃ xs result ys,
      Path (Waiting.turn p.side (r.patience p.side)) (.starting p.hash) xs (.done result) ∧
      Path (Attempt.turn r) (Attempt.afterCallbackReceipt r c p (.done result)) ys (.resting s') ∧
      hs = xs ++ ys :=
  through_waiting (f := Attempt.afterCallbackReceipt r c p) (w := .starting p.hash) (fun w hw => by
    cases w <;> first | exact ⟨rfl, rfl⟩ | cases hw) h

/-! ## The steps -/

/-- What the relay goes on with from the next log. -/
theorem nextCallback_cons (r : Relay) (tx : Word) (rule : Rule) (sent : List Pending) (log : Log)
    (logs : List Log) :
    Attempt.nextCallback r tx rule sent (log :: logs) =
      match r.asked? rule log with
      | none => Attempt.nextCallback r tx rule sent logs
      | some (signature, callback) =>
        match signature.decode log with
        | .error e => .resting (.decodeFailed (.decode e))
        | .ok d =>
          match r.callFor callback.target callback.call d with
          | .error e => .resting (.callbackFailed tx e)
          | .ok call => .sendingCallback ⟨tx, rule, callback.target, logs, sent⟩ (.queued call) :=
  rfl

theorem nextCallback_ignored {tx : Word} {rule : Rule} {sent : List Pending} {log : Log}
    {logs : List Log} (h : r.asked? rule log = none) :
    Attempt.nextCallback r tx rule sent (log :: logs) =
      Attempt.nextCallback r tx rule sent logs := by
  rw [nextCallback_cons, h]

/-- A log that asks for a callback is decoded and the callback is sent. -/
theorem nextCallback_asked {tx : Word} {rule : Rule} {sent : List Pending} {log : Log}
    {logs : List Log} {signature : Abi.Signature} {callback : Callback}
    (h : r.asked? rule log = some (signature, callback)) :
    Attempt.nextCallback r tx rule sent (log :: logs) =
      match signature.decode log with
      | .error e => .resting (.decodeFailed (.decode e))
      | .ok d =>
        match r.callFor callback.target callback.call d with
        | .error e => .resting (.callbackFailed tx e)
        | .ok call => .sendingCallback ⟨tx, rule, callback.target, logs, sent⟩ (.queued call) := by
  rw [nextCallback_cons, h]

/-- After a callback comes the next log that asks for one, or the end. -/
theorem nextCallback_cases (r : Relay) (tx : Word) (rule : Rule) (sent : List Pending)
    (logs : List Log) :
    (∃ s, Attempt.nextCallback r tx rule sent logs = .resting s ∧ s.isTerminal = true) ∨
      ∃ c call, Attempt.nextCallback r tx rule sent logs = .sendingCallback c (.queued call) ∧
        c.rest.length < logs.length := by
  induction logs with
  | nil =>
    refine .inl ⟨_, rfl, ?_⟩
    split <;> rfl
  | cons log logs ih =>
    cases ha : r.asked? rule log with
    | none =>
      -- A log that asks for nothing only makes the list shorter.
      rw [nextCallback_ignored ha]
      exact ih.imp_right fun ⟨c, call, h, hlt⟩ => ⟨c, call, h, Nat.lt_succ_of_lt hlt⟩
    | some asked =>
      obtain ⟨signature, callback⟩ := asked
      rw [nextCallback_asked ha]
      cases signature.decode log with
      | error e => exact .inl ⟨_, rfl, rfl⟩
      | ok d =>
        cases hc : r.callFor callback.target callback.call d with
        | error e =>
          simp only [hc]
          exact .inl ⟨_, rfl, rfl⟩
        | ok call =>
          simp only [hc]
          exact .inr ⟨_, call, rfl, Nat.lt_succ_self _⟩

theorem afterCallbackReceipt_done (r : Relay) (c : CallingBack) (p : Pending)
    (result : Except WaitError Receipt) :
    Attempt.afterCallbackReceipt r c p (.done result) =
      match Attempt.effective result p.hash with
      | .ok _ => Attempt.nextCallback r c.tx c.rule (c.sent ++ [{ p with status := .mined }]) c.rest
      | .error e => .resting (.callbackFailed c.tx e) := rfl

/-- What comes of a log whose callback is sent, by what comes of the logs after it. -/
theorem calledBack_of_sending {tx : Word} {rule : Rule} {sent : List Pending} {log : Log}
    {logs : List Log} {signature : Abi.Signature} {callback : Callback} {d : Abi.DecodedLog}
    {call : Call} {s' : State} (ha : r.asked? rule log = some (signature, callback))
    (hd : signature.decode log = .ok d)
    (hc : r.callFor callback.target callback.call d = .ok call)
    (hrest : ∀ hs sent, Path (Attempt.turn r) (Attempt.nextCallback r tx rule sent logs) hs
      (.resting s') → CalledBack r tx rule sent logs hs s')
    (h : Path (Attempt.turn r)
      (.sendingCallback ⟨tx, rule, callback.target, logs, sent⟩ (.queued call)) hs (.resting s')) :
    CalledBack r tx rule sent (log :: logs) hs s' := by
  obtain ⟨xs, result, rest, hsend, hthen, rfl⟩ := callback_of_path h
  have hi := Invoked.sent hc hsend
  cases result with
  | error e =>
    -- not taken: the attempt ends here
    obtain ⟨rfl, rfl⟩ := resting_path hthen
    rw [List.append_nil]
    exact .uninvoked ha hd hi
  | ok s =>
    obtain ⟨ys, result, zs, hwait, hnext, rfl⟩ := callbackReceipt_of_path hthen
    have hw := awaited_of_path hwait
    rw [afterCallbackReceipt_done] at hnext
    cases he : Attempt.effective result s.hash with
    | error e =>
      -- taken, but without effect as far as the relay could see
      rw [he] at hnext hw
      obtain ⟨rfl, rfl⟩ := resting_path hnext
      rw [List.append_nil]
      exact .unmined ha hd hi hw
    | ok receipt =>
      rw [he] at hnext hw
      exact .called ha hd hi hw (hrest zs _ hnext)

/-- What comes of the logs of a receipt comes of them one after the other. -/
theorem calledBack_of_path {tx : Word} {rule : Rule} {sent : List Pending} {logs : List Log}
    {s' : State}
    (h : Path (Attempt.turn r) (Attempt.nextCallback r tx rule sent logs) hs (.resting s')) :
    CalledBack r tx rule sent logs hs s' := by
  -- Over the logs that are not yet looked at; the callbacks that took effect grow along with it.
  induction logs generalizing sent hs with
  | nil =>
    obtain ⟨rfl, rfl⟩ := resting_path h
    exact .nothing sent
  | cons log logs ih =>
    cases ha : r.asked? rule log with
    | none => exact .ignored ha (ih (nextCallback_ignored ha ▸ h))
    | some asked =>
      obtain ⟨signature, callback⟩ := asked
      rw [nextCallback_asked ha] at h
      cases hd : signature.decode log with
      | error e =>
        simp only [hd] at h
        obtain ⟨rfl, rfl⟩ := resting_path h
        exact .undecoded ha hd
      | ok d =>
        simp only [hd] at h
        cases hc : r.callFor callback.target callback.call d with
        | error e =>
          rw [hc] at h
          obtain ⟨rfl, rfl⟩ := resting_path h
          exact .uninvoked ha hd (invoked_of_callFor hc)
        | ok call =>
          rw [hc] at h
          exact calledBack_of_sending ha hd hc (fun _ _ => ih) h

/-- **An attempt goes from one state to the next by one of the listed steps.** -/
theorem step_of_path {s s' : State} (hs : s.isTerminal = false)
    (h : Path (Attempt.turn r) (Attempt.ofState r s) xs (.resting s')) : Step r s xs s' := by
  cases s with
  | matched event d rule =>
    rw [Attempt.ofState] at h
    cases hc : r.callFor .priv rule.call d with
    | error e =>
      rw [hc] at h
      obtain ⟨rfl, rfl⟩ := resting_path h
      exact .unsubmitted (invoked_of_callFor hc)
    | ok call =>
      -- The call could be made, and what comes of it is what comes of its sending.
      rw [hc] at h
      obtain ⟨result, hsend, hend⟩ := target_of_path h
      have hi := Invoked.sent hc hsend
      cases result with
      | error e =>
        obtain rfl := Attempt.resting.inj hend
        exact .unsubmitted hi
      | ok s =>
        obtain rfl := Attempt.resting.inj hend
        exact .submitted hi
  | submitted p =>
    -- The receipt is there and says that the call took effect, or the attempt ends.
    obtain ⟨result, hwait, hend⟩ := targetReceipt_of_path h
    have hw := awaited_of_path hwait
    rw [Attempt.afterTargetReceipt] at hend
    cases he : Attempt.effective result p.hash with
    | error e =>
      rw [he] at hend hw
      obtain rfl := Attempt.resting.inj hend
      exact .unmined hw
    | ok receipt =>
      rw [he] at hend hw
      obtain rfl := Attempt.resting.inj hend
      exact .mined hw
  | mined p receipt =>
    rw [Attempt.ofState] at h
    split at h
    next hc => exact .called hc (calledBack_of_path h)
    next hc =>
      obtain ⟨rfl, rfl⟩ := resting_path h
      exact .uncalled (Option.not_isSome_iff_eq_none.mp hc)
  | _ => cases hs

/-- How far on a state is. -/
def State.stage : State → Nat
  | .matched .. => 0
  | .submitted _ => 1
  | .mined .. => 2
  | _ => 3

theorem State.stage_of_isTerminal {s : State} (h : s.isTerminal = true) : s.stage = 3 := by
  cases s <;> first | rfl | cases h

theorem State.stage_lt_iff {s : State} : s.stage < 3 ↔ s.isTerminal = false := by
  cases s <;> simp [stage, isTerminal]

/-- Calling back ends in a terminal state. -/
theorem CalledBack.isTerminal {tx : Word} {rule : Rule} {sent : List Pending} {logs : List Log}
    {s : State} (h : CalledBack r tx rule sent logs hs s) : s.isTerminal = true := by
  induction h with
  | nothing sent => split <;> rfl
  | ignored _ _ ih => exact ih
  | called _ _ _ _ _ ih => exact ih
  | _ => rfl

/-- **Every step goes on to a later state.** -/
theorem Step.stage_lt {s s' : State} (h : Step r s hs s') : s.stage < s'.stage := by
  cases h with
  | called _ h =>
    rw [State.stage_of_isTerminal h.isTerminal]
    exact Nat.lt_succ_self _
  | _ =>
    simp only [State.stage]
    omega

/-! ## What is asked on the way -/

theorem account_side (r : Relay) (s : Side) : (r.side s).account.side = s := (r.side s).account_side

/-- A call is one of the contract of its side. -/
theorem contract_of_callFor {target : Side} {i : Invocation} {d : Abi.DecodedLog} {call : Call}
    (h : r.callFor target i d = .ok call) : call.contract = (r.side target).contract := by
  cases hp : d.project i.params with
  | error e => cases (callFor_of_unprojected hp).symm.trans h
  | ok args =>
    rw [callFor_of_projected hp] at h
    cases he : (r.registries.side target).encodeCall i.method args with
    | error e =>
      rw [he] at h
      cases h
    | ok input =>
      rw [he] at h
      obtain rfl := Except.ok.inj h
      rfl

/-- The transaction is one that the relay signed for an invocation. -/
def IsCallOf (r : Relay) (target : Side) (i : Invocation) (d : Abi.DecodedLog)
    (t : SignedTransaction) : Prop :=
  ∃ call n price, r.callFor target i d = .ok call ∧
    t = Sending.sign (r.side target).account call n price

/-- An invocation fails for its call or is one send. -/
theorem Invoked.cases {target : Side} {i : Invocation} {d : Abi.DecodedLog}
    {result : Except RelayError Submitted} (h : Invoked r target i d hs result) :
    (∃ e, r.callFor target i d = .error e ∧ hs = [] ∧ result = .error e) ∨
      ∃ call sent, r.callFor target i d = .ok call ∧
        Path (Sending.turn (r.side target).account) (.queued call) hs (.done sent) ∧
        result = sent.mapError .chain := by
  cases h with
  | unprojected h => exact .inl ⟨_, callFor_of_unprojected h, rfl, rfl⟩
  | unencoded hp h =>
    refine .inl ⟨_, ?_, rfl, rfl⟩
    rw [callFor_of_projected hp, h]
    rfl
  | sent hc h => exact .inr ⟨_, _, hc, h, rfl⟩

/-- **What happened decides what came of an invocation.** -/
theorem Invoked.unique {target : Side} {i : Invocation} {d : Abi.DecodedLog}
    {a b : Except RelayError Submitted} (h₁ : Invoked r target i d xs a)
    (h₂ : Invoked r target i d ys b) (h : xs ++ xs' = ys ++ ys') : xs = ys ∧ a = b := by
  rcases h₁.cases with ⟨e₁, hc₁, rfl, rfl⟩ | ⟨call₁, sent₁, hc₁, hp₁, rfl⟩
  · rcases h₂.cases with ⟨e₂, hc₂, rfl, rfl⟩ | ⟨call₂, sent₂, hc₂, -, -⟩
    · obtain rfl := Except.error.inj (hc₁.symm.trans hc₂)
      exact ⟨rfl, rfl⟩
    · cases hc₁.symm.trans hc₂
  · rcases h₂.cases with ⟨e₂, hc₂, -, -⟩ | ⟨call₂, sent₂, hc₂, hp₂, rfl⟩
    · cases hc₁.symm.trans hc₂
    · -- Both send the same call, and each of the two paths is complete.
      obtain rfl := Except.ok.inj (hc₁.symm.trans hc₂)
      obtain ⟨rfl, heq⟩ := hp₁.complete_unique (fun _ _ _ => not_goes_nothing) hp₂
        (fun _ _ _ => not_goes_nothing) h
      obtain rfl := Sending.done.inj heq
      exact ⟨rfl, rfl⟩

/-- **An invocation asks the node of its side at most once to take its call**, and asks for no
receipt. If it is taken, the node answered the digest that the relay goes on with. -/
theorem Invoked.asks {target : Side} {i : Invocation} {d : Abi.DecodedLog}
    {result : Except RelayError Submitted} (h : Invoked r target i d hs result) :
    lookups hs = [] ∧
      (submissions hs = [] ∨ ∃ t, IsCallOf r target i d t ∧ submissions hs = [(target, t)]) ∧
      ∀ s, result = .ok s → ∃ t, submissions hs = [(target, t)] ∧
        .answered target (.submit t) (.ok s.hash) ∈ hs.map (·.cause) := by
  rcases h.cases with ⟨e, -, rfl, rfl⟩ | ⟨call, sent, hc, hpath, rfl⟩
  · exact ⟨rfl, .inl rfl, nofun⟩
  · obtain ⟨honce, hlook, htaken⟩ := Sending.sent rfl hpath
    rw [account_side] at honce htaken
    refine ⟨hlook, honce.imp_right ?_, ?_⟩
    · intro h
      obtain ⟨n, price, hsub⟩ := h
      exact ⟨_, ⟨call, n, price, hc, rfl⟩, hsub⟩
    · intro s hr
      cases sent with
      | error e => cases hr
      | ok s' =>
        obtain rfl := Except.ok.inj hr
        obtain ⟨n, price, hsub, hmem⟩ := htaken s' rfl
        exact ⟨_, hsub, hmem⟩

/-- An awaited receipt comes from the path of a wait. -/
theorem Awaited.path {side : Side} {hash : Word} {result : Except RelayError Receipt}
    (h : Awaited r side hash hs result) :
    ∃ w, Path (Waiting.turn side (r.patience side)) (.starting hash) hs (.done w) ∧
      result = Attempt.effective w hash := by
  cases h with
  | lost h => exact ⟨_, h, rfl⟩
  | reverted h hr => exact ⟨_, h, by rw [Attempt.effective, hr]; rfl⟩
  | mined h hr => exact ⟨_, h, by rw [Attempt.effective, hr]; rfl⟩

/-- **What happened decides what came of a wait.** -/
theorem Awaited.unique {side : Side} {hash : Word} {a b : Except RelayError Receipt}
    (h₁ : Awaited r side hash xs a) (h₂ : Awaited r side hash ys b) (h : xs ++ xs' = ys ++ ys') :
    xs = ys ∧ a = b := by
  obtain ⟨w₁, hp₁, rfl⟩ := h₁.path
  obtain ⟨w₂, hp₂, rfl⟩ := h₂.path
  obtain ⟨rfl, heq⟩ := hp₁.complete_unique (fun _ _ _ => not_goes_nothing) hp₂
    (fun _ _ _ => not_goes_nothing) h
  obtain rfl := Waiting.done.inj heq
  exact ⟨rfl, rfl⟩

/-- **A wait asks for the receipt of its transaction only.** If the transaction took effect, the
last question was answered with a receipt that says so. -/
theorem Awaited.asks {side : Side} {hash : Word} {result : Except RelayError Receipt}
    (h : Awaited r side hash hs result) :
    submissions hs = [] ∧ (∀ q ∈ lookups hs, q = (side, hash)) ∧
      ∀ receipt, result = .ok receipt → receipt.status = true ∧ ∃ before last,
        hs = before ++ [last] ∧
          last.cause = .answered side (.receipt hash) (.ok (some receipt)) := by
  obtain ⟨w, hpath, -⟩ := h.path
  obtain ⟨hsub, hlook⟩ := Waiting.IsFor.lookups (w := .starting hash) rfl hpath
  refine ⟨hsub, hlook, ?_⟩
  intro receipt heq
  subst heq
  cases h with
  | mined h hr => exact ⟨hr, Waiting.IsFor.found (w := .starting hash) rfl rfl h⟩

/-- The transaction is a callback on a side for one of the logs. -/
def IsCallback (r : Relay) (rule : Rule) (logs : List Log) (side : Side) (t : SignedTransaction) :
    Prop :=
  ∃ log ∈ logs, ∃ signature callback d, r.asked? rule log = some (signature, callback) ∧
    signature.decode log = .ok d ∧ side = callback.target ∧
    IsCallOf r callback.target callback.call d t

/-- **For the logs of a receipt nodes are asked to take nothing but their callbacks.** -/
theorem CalledBack.asks {tx : Word} {rule : Rule} {sent : List Pending} {logs : List Log}
    {s : State} (h : CalledBack r tx rule sent logs hs s) :
    ∀ q ∈ submissions hs, IsCallback r rule logs q.1 q.2 := by
  have one : ∀ {log : Log} {logs : List Log} {signature : Abi.Signature} {callback : Callback}
      {d : Abi.DecodedLog} {xs : List Happening} {result : Except RelayError Submitted},
      r.asked? rule log = some (signature, callback) → signature.decode log = .ok d →
      Invoked r callback.target callback.call d xs result →
      ∀ q ∈ submissions xs, IsCallback r rule (log :: logs) q.1 q.2 := by
    intro log logs signature callback d xs result ha hd hi q hq
    rcases hi.asks.2.1 with hnone | ⟨t, ht, hone⟩
    · rw [hnone] at hq
      cases hq
    · rw [hone] at hq
      obtain rfl := List.mem_singleton.mp hq
      exact ⟨log, List.mem_cons_self, signature, callback, d, ha, hd, rfl, ht⟩
  have more : ∀ {log : Log} {logs : List Log} {q : Side × SignedTransaction},
      IsCallback r rule logs q.1 q.2 → IsCallback r rule (log :: logs) q.1 q.2 := by
    intro log logs q h
    obtain ⟨log', hmem, hrest⟩ := h
    exact ⟨log', List.mem_cons_of_mem _ hmem, hrest⟩
  induction h with
  | nothing _ => exact fun q hq => absurd hq List.not_mem_nil
  | ignored _ _ ih => exact fun q hq => more (ih q hq)
  | undecoded _ _ => exact fun q hq => absurd hq List.not_mem_nil
  | uninvoked ha hd hi => exact one ha hd hi
  | unmined ha hd hi hw =>
    rw [submissions_append, hw.asks.1, List.append_nil]
    exact one ha hd hi
  | called ha hd hi hw _ ih =>
    rw [submissions_append, submissions_append, hw.asks.1, List.nil_append]
    intro q hq
    rcases List.mem_append.mp hq with hq | hq
    · exact one ha hd hi q hq
    · exact more (ih q hq)

/-- A relay between contracts that describe nothing, without rules. -/
def idle : Relay :=
  { pub := ⟨.zero, .ofOne .pub, rfl, ⟨200, 1000, by decide⟩⟩
    priv := ⟨.zero, .ofOne .priv, rfl, ⟨200, 1000, by decide⟩⟩
    registries := ⟨⟨[], [], []⟩, ⟨[], [], []⟩⟩
    dispatch := ⟨[]⟩
    fromBlock := none }

end EventRelay.Relay
