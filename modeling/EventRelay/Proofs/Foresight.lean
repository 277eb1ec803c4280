import EventRelay.Proofs.Callbacks
import EventRelay.Proofs.Tasks

/-!
# What can be foreseen of an attempt

Where the two chains decide about calls by the calls alone, what a log's way comes to is settled
when it sets out: `Chains.ofLog` is the plan of the calls that it will submit and of the state in
which it will end, but for the names that nodes give to transactions, for nonces and for places.
`Chains.Foresees` is what is left of the plan on the way.

Main statement:

* `Chains.Foresees.turned`: with every turn a log does what was foreseen.
-/

namespace EventRelay

/-! ## What is left without names, nonces and places -/

/-- A log without its place. -/
def Log.bare (l : Log) : Log := { l with block := none, index := none, transaction := none }

/-- What a receipt says but for the name of the transaction and for places. -/
def Receipt.bare (r : Receipt) : Receipt := ⟨0, none, r.status, r.logs.map Log.bare⟩

theorem Receipt.of_bare {r r' : Receipt} (h : r.bare = r'.bare) :
    r.status = r'.status ∧ r.logs.map Log.bare = r'.logs.map Log.bare :=
  (Receipt.mk.inj h).2.2

theorem Abi.Signature.decode_bare (s : Signature) (l : Log) : s.decode l.bare = s.decode l := rfl

/-- The error without the name of a transaction. -/
def WaitError.bare : WaitError → WaitError
  | .timeout _ after => .timeout 0 after
  | .cancelled _ => .cancelled 0

/-- The call that was, or may have been, submitted in a turn, with its chain. -/
def Cause.call? (x : Cause) : Option (Side × Call) :=
  match x.question? with
  | some (side, .submit t) => some (side, t.body.call)
  | _ => none

/-- The calls that were, or may have been, submitted on a way, each with its chain. -/
def callsOn (hs : List Happening) : List (Side × Call) := hs.filterMap (·.cause.call?)

theorem callsOn_concat (hs : List Happening) (x : Happening) :
    callsOn (hs ++ [x]) = callsOn hs ++ x.cause.call?.toList := by
  rw [callsOn, List.filterMap_append, callsOn]
  cases hx : x.cause.call? <;> simp [hx]

/-- A call that is settled is signed. -/
theorem Sending.call?_of_result? {s : Sending} {result : Except ChainError Submitted}
    (h : s.result? = some result) : s.call? = none := by
  cases s <;> first | rfl | cases h

/-- A wait for a receipt submits nothing. -/
theorem Waiting.Turned.call? {side : Side} {p : Patience} {m : Instant} {w w' : Waiting} {x : Cause}
    (h : Turned side p m w x w') : x.call? = none := by
  cases h with
  | late w => cases w <;> rfl
  | cancelled w => cases w <;> rfl
  | _ => rfl

namespace Relay

variable {r : Relay}

/-- The error without the name of a transaction. -/
def RelayError.bare : RelayError → RelayError
  | .wait e => .wait e.bare
  | .reverted _ => .reverted 0
  | e => e

/-- What is known about a transaction but for its name and nonce. -/
def Pending.bare (p : Pending) : Pending := { p with hash := 0, nonce := 0 }

/-- A state without names of transactions, nonces and places. -/
def State.bare : State → State
  | .matched event d rule => .matched event d rule
  | .submitted p => .submitted p.bare
  | .mined p receipt => .mined p.bare receipt.bare
  | .calledBack _ callbacks => .calledBack 0 (callbacks.map Pending.bare)
  | .noCallback _ => .noCallback 0
  | .submitFailed e => .submitFailed e.bare
  | .receiptFailed p e => .receiptFailed p.bare e.bare
  | .decodeFailed e => .decodeFailed e.bare
  | .callbackFailed _ e => .callbackFailed 0 e.bare

theorem asked?_bare (r : Relay) (rule : Rule) (l : Log) : r.asked? rule l.bare = r.asked? rule l :=
  rfl

/-! ## Plans -/

/-- The calls that a log will submit, and the state in which its attempt will end, if there is an
attempt, without names of transactions, nonces and places. -/
structure Plan where
  calls : List (Side × Call)
  ending : Option State

/-- The plan of an attempt that is over. -/
def Plan.ended (s : State) : Plan := ⟨[], some s.bare⟩

/-- A plan with calls before it. -/
def Plan.after (calls : List (Side × Call)) (p : Plan) : Plan := ⟨calls ++ p.calls, p.ending⟩

theorem Plan.after_after (xs ys : List (Side × Call)) (p : Plan) :
    (p.after ys).after xs = p.after (xs ++ ys) := by
  rw [after, after, after, List.append_assoc]

/-- Two chains that decide about a call by the call alone. -/
structure Chains where
  /-- The error with which the node of a chain refuses a call, if it does. -/
  refusal : Side → Call → Option ChainError
  /-- What the receipt of a call will say. -/
  receipt : Side → Call → Receipt

namespace Chains

variable (w : Chains)

/-- The plan for a signed call, by the state in which a refusal ends the attempt and the plan once
the call is taken. -/
def submitting (side : Side) (call : Call) (refused : ChainError → State) (taken : Plan) : Plan :=
  match w.refusal side call with
  | some e => (Plan.ended (refused e)).after [(side, call)]
  | none => taken.after [(side, call)]

/-- The plan for a call to be sent, if it can be signed. -/
def sending (r : Relay) (side : Side) (call : Call) (refused : ChainError → State) (taken : Plan) :
    Plan :=
  match (r.side side).account.signingError? with
  | some e => .ended (refused e)
  | none => w.submitting side call refused taken

/-- The plan for the logs of a receipt, after the callbacks `sent`. -/
def callingBack (r : Relay) (rule : Rule) (sent : List Pending) : List Log → Plan
  | [] => .ended (if sent.isEmpty then .noCallback 0 else .calledBack 0 sent)
  | log :: rest =>
    match r.asked? rule log with
    | none => callingBack r rule sent rest
    | some (signature, callback) =>
      match signature.decode log with
      | .error e => .ended (.decodeFailed (.decode e))
      | .ok d =>
        match r.callFor callback.target callback.call d with
        | .error e => .ended (.callbackFailed 0 e)
        | .ok call => w.sending r callback.target call (fun e => .callbackFailed 0 (.chain e))
          (if (w.receipt callback.target call).status then
            callingBack r rule (sent ++ [⟨0, 0, callback.target, .mined, rule⟩]) rest
          else .ended (.callbackFailed 0 (.reverted 0)))

/-- The plan once a callback is taken. -/
def afterCallback (r : Relay) (c : CallingBack) (call : Call) : Plan :=
  if (w.receipt c.target call).status then
    w.callingBack r c.rule (c.sent ++ [⟨0, 0, c.target, .mined, c.rule⟩]) c.rest
  else .ended (.callbackFailed 0 (.reverted 0))

/-- The plan once the target call is taken. -/
def afterTarget (r : Relay) (rule : Rule) (call : Call) : Plan :=
  if (w.receipt .priv call).status then
    if rule.callback.isSome then w.callingBack r rule [] (w.receipt .priv call).logs
    else .ended (.noCallback 0)
  else .ended (.receiptFailed ⟨0, 0, .priv, .failed, rule⟩ (.reverted 0))

/-- The plan for a decoded log. -/
def matched (r : Relay) (d : Abi.DecodedLog) (rule : Rule) : Plan :=
  match r.callFor .priv rule.call d with
  | .error e => .ended (.submitFailed e)
  | .ok call =>
    w.sending r .priv call (fun e => .submitFailed (.chain e)) (w.afterTarget r rule call)

/-- The plan for a log that sets out. -/
def ofLog (r : Relay) (log : Log) : Plan :=
  match r.match? log with
  | none => ⟨[], none⟩
  | some (.matched _ d rule) => w.matched r d rule
  | some s => .ended s

/-! ## What is foreseen on the way -/

/-- What is foreseen of a call on its way; `known` are the names under which nodes took calls. -/
inductive ForeseesSending (r : Relay) (known : Side → Word → Call → Prop) (side : Side)
    (refused : ChainError → State) (taken : Call → Plan) : Sending → Plan → Prop
  | unsigned {s : Sending} {call : Call} (h : s.call? = some call) :
      ForeseesSending r known side refused taken s (w.sending r side call refused (taken call))
  | signed (t : SignedTransaction) :
      ForeseesSending r known side refused taken (.submitting t)
        (w.submitting side t.body.call refused (taken t.body.call))
  | taken {s : Sending} {sub : Submitted} {call : Call} (h : s.result? = some (.ok sub))
      (hk : known side sub.hash call) : ForeseesSending r known side refused taken s (taken call)
  | refused {s : Sending} {e : ChainError} (h : s.result? = some (.error e)) :
      ForeseesSending r known side refused taken s (.ended (refused e))

/-- What is foreseen of a log on its way: what is left of the plan. -/
inductive Foresees (r : Relay) (known : Side → Word → Call → Prop) : Course → Plan → Prop
  | arriving (log : Log) : Foresees r known (.arriving log) (w.ofLog r log)
  | matched (event : Log) (d : Abi.DecodedLog) (rule : Rule) :
      Foresees r known (.entering (.matched event d rule)) (w.matched r d rule)
  | undecoded {s : State} (h : s.isTerminal = true) : Foresees r known (.entering s) (.ended s)
  | sendingTarget {rule : Rule} {s : Sending} {p : Plan}
      (h : w.ForeseesSending r known .priv (fun e => .submitFailed (.chain e))
        (w.afterTarget r rule) s p) : Foresees r known (.moving (.sendingTarget rule s)) p
  | awaitingTarget {p : Pending} {wait : Waiting} {call : Call} (hw : wait.IsFor p.hash)
      (hp : p.side = .priv) (hk : known .priv p.hash call) :
      Foresees r known (.moving (.awaitingTarget p wait)) (w.afterTarget r p.rule call)
  | sendingCallback {c : CallingBack} {s : Sending} {p : Plan}
      (h : w.ForeseesSending r known c.target (fun e => .callbackFailed 0 (.chain e))
        (w.afterCallback r c) s p) : Foresees r known (.moving (.sendingCallback c s)) p
  | awaitingCallback {c : CallingBack} {p : Pending} {wait : Waiting} {call : Call}
      (hw : wait.IsFor p.hash) (hp : p.side = c.target) (hr : p.rule = c.rule)
      (hk : known c.target p.hash call) :
      Foresees r known (.moving (.awaitingCallback c p wait)) (w.afterCallback r c call)
  | finishing (s : State) : Foresees r known (.finishing s) (.ended s)
  | leaving (s : State) : Foresees r known (.leaving s) (.ended s)
  | done (s : State) : Foresees r known (.done (some s)) (.ended s)
  | ignored : Foresees r known (.done none) ⟨[], none⟩

variable {w} {known known' : Side → Word → Call → Prop}

theorem ForeseesSending.mono {side : Side} {refused : ChainError → State} {taken : Call → Plan}
    {s : Sending} {p : Plan} (hk : ∀ side hash call, known side hash call → known' side hash call)
    (h : w.ForeseesSending r known side refused taken s p) :
    w.ForeseesSending r known' side refused taken s p := by
  cases h with
  | unsigned h => exact .unsigned h
  | signed t => exact .signed t
  | taken h hknown => exact .taken h (hk _ _ _ hknown)
  | refused h => exact .refused h

/-- More that nodes took changes nothing about what is foreseen. -/
theorem Foresees.mono {c : Course} {p : Plan}
    (hk : ∀ side hash call, known side hash call → known' side hash call)
    (h : w.Foresees r known c p) : w.Foresees r known' c p := by
  cases h with
  | arriving log => exact .arriving log
  | matched event d rule => exact .matched event d rule
  | undecoded h => exact .undecoded h
  | sendingTarget h => exact .sendingTarget (h.mono hk)
  | awaitingTarget hw hp hknown => exact .awaitingTarget hw hp (hk _ _ _ hknown)
  | sendingCallback h => exact .sendingCallback (h.mono hk)
  | awaitingCallback hw hp hr hknown => exact .awaitingCallback hw hp hr (hk _ _ _ hknown)
  | finishing s => exact .finishing s
  | leaving s => exact .leaving s
  | done s => exact .done s
  | ignored => exact .ignored

/-! ## Names, nonces and places do not matter -/

variable (w)

/-- The plan for the logs of a receipt does not depend on where they stand. -/
theorem callingBack_bare (r : Relay) (rule : Rule) (sent : List Pending) (logs : List Log) :
    w.callingBack r rule sent (logs.map Log.bare) = w.callingBack r rule sent logs := by
  induction logs generalizing sent with
  | nil => rfl
  | cons log rest ih =>
    simp only [List.map_cons, callingBack, asked?_bare, Abi.Signature.decode_bare, ih]

theorem callingBack_of_bare (r : Relay) (rule : Rule) (sent : List Pending) {logs logs' : List Log}
    (h : logs.map Log.bare = logs'.map Log.bare) :
    w.callingBack r rule sent logs = w.callingBack r rule sent logs' := by
  rw [← callingBack_bare, h, callingBack_bare]

/-- The plan does not depend on the names and nonces of the callbacks before. -/
theorem callingBack_sent (r : Relay) (rule : Rule) (sent : List Pending) (logs : List Log) :
    w.callingBack r rule (sent.map Pending.bare) logs = w.callingBack r rule sent logs := by
  induction logs generalizing sent with
  | nil =>
    rw [callingBack, callingBack, List.isEmpty_map]
    split
    · rfl
    · rw [Plan.ended, Plan.ended, State.bare, State.bare, List.map_map]
      rfl
  | cons log rest ih =>
    have happend : ∀ side, sent.map Pending.bare ++ [⟨0, 0, side, .mined, rule⟩] =
        (sent ++ [(⟨0, 0, side, .mined, rule⟩ : Pending)]).map Pending.bare := by
      intro side
      rw [List.map_append]
      rfl
    simp only [callingBack, happend, ih]

theorem foresees_of_isTerminal {s : State} (h : s.isTerminal = true) :
    w.Foresees r known (Course.ofState r s) (.ended s) := by
  rw [Course.ofState, h, if_pos rfl]
  exact .finishing s

/-- What comes of the logs of a receipt is what is planned for them. -/
theorem foresees_nextCallback (r : Relay) (tx : Word) (rule : Rule) (sent : List Pending)
    (logs : List Log) :
    w.Foresees r known (Course.ofAttempt r (Attempt.nextCallback r tx rule sent logs))
      (w.callingBack r rule sent logs) := by
  induction logs with
  | nil =>
    have hended : Plan.ended (if sent.isEmpty then .noCallback tx else .calledBack tx sent) =
        w.callingBack r rule sent [] := by
      rw [callingBack]
      split <;> rfl
    rw [← hended]
    exact foresees_of_isTerminal w (by split <;> rfl)
  | cons log rest ih =>
    rw [nextCallback_cons, callingBack]
    cases r.asked? rule log with
    | none => exact ih
    | some asked =>
      obtain ⟨signature, callback⟩ := asked
      dsimp only
      cases signature.decode log with
      | error e => exact foresees_of_isTerminal w rfl
      | ok d =>
        dsimp only
        cases r.callFor callback.target callback.call d with
        | error e => exact foresees_of_isTerminal (s := .callbackFailed tx e) w rfl
        | ok call =>
          exact .sendingCallback (c := ⟨tx, rule, callback.target, rest, sent⟩) (.unsigned rfl)

/-- What comes of the receipt of the target call is what is planned once the call is taken. -/
theorem foresees_afterTargetReceipt {p : Pending} {receipt : Receipt} {call : Call}
    (hp : p.side = .priv) (h : receipt.bare = (w.receipt .priv call).bare) :
    w.Foresees r known (Course.ofAttempt r (Attempt.afterTargetReceipt p (.done (.ok receipt))))
      (w.afterTarget r p.rule call) := by
  obtain ⟨hstatus, hlogs⟩ := Receipt.of_bare h
  rw [Attempt.afterTargetReceipt, Attempt.effective, hstatus, afterTarget]
  cases (w.receipt .priv call).status with
  | false =>
    have hended : Plan.ended (.receiptFailed ⟨0, 0, .priv, .failed, p.rule⟩ (.reverted 0)) =
        .ended (.receiptFailed { p with status := .failed } (.reverted p.hash)) := by
      rw [Plan.ended, Plan.ended, State.bare, State.bare, Pending.bare, Pending.bare, hp]
      rfl
    rw [if_neg Bool.false_ne_true, hended]
    exact foresees_of_isTerminal w rfl
  | true =>
    show w.Foresees r known (Course.ofState r (.mined { p with status := .mined } receipt)) _
    rw [if_pos rfl, ofState_eq rfl, Attempt.ofState]
    dsimp only
    split
    next =>
      exact callingBack_of_bare w r p.rule [] hlogs ▸ foresees_nextCallback w r p.hash p.rule [] _
    next => exact foresees_of_isTerminal (s := .noCallback p.hash) w rfl

/-- What comes of the receipt of a callback is what is planned once the callback is taken. -/
theorem foresees_afterCallbackReceipt {c : CallingBack} {p : Pending} {receipt : Receipt}
    {call : Call} (hp : p.side = c.target) (hr : p.rule = c.rule)
    (h : receipt.bare = (w.receipt c.target call).bare) :
    w.Foresees r known
      (Course.ofAttempt r (Attempt.afterCallbackReceipt r c p (.done (.ok receipt))))
      (w.afterCallback r c call) := by
  obtain ⟨hstatus, -⟩ := Receipt.of_bare h
  rw [afterCallbackReceipt_done, Attempt.effective, hstatus, afterCallback]
  cases (w.receipt c.target call).status with
  | false => exact foresees_of_isTerminal (s := .callbackFailed c.tx (.reverted p.hash)) w rfl
  | true =>
    have hsent : (c.sent ++ [{ p with status := .mined }]).map Pending.bare =
        (c.sent ++ [(⟨0, 0, c.target, .mined, c.rule⟩ : Pending)]).map Pending.bare := by
      rw [List.map_append, List.map_append, ← hp, ← hr]
      rfl
    show w.Foresees r known (Course.ofAttempt r (Attempt.nextCallback r c.tx c.rule _ c.rest)) _
    rw [if_pos rfl, ← callingBack_sent, ← hsent, callingBack_sent]
    exact foresees_nextCallback w r c.tx c.rule _ c.rest

/-! ## One turn -/

/-- The two chains let a turn happen: the relay does not stop, the questions for nonces and prices
are answered, no receipt comes too late, and a call is taken and has its receipt as the chains say.
`known` are the names under which nodes took calls before. -/
structure Allows (known : Side → Word → Call → Prop) (x : Happening) : Prop where
  untold : x.moment.told = false
  going : x.moment.stopping = false
  timely : ∀ q, x.cause ≠ .late q
  counted : ∀ side a e, x.cause ≠ .answered side (.transactionCount a) (.error e)
  priced : ∀ side e, x.cause ≠ .answered side .gasPrice (.error e)
  taken : ∀ side t hash, x.cause = .answered side (.submit t) (.ok hash) →
    w.refusal side t.body.call = none
  refused : ∀ side t e, x.cause = .answered side (.submit t) (.error e) →
    w.refusal side t.body.call = some e
  found : ∀ side hash receipt, x.cause = .answered side (.receipt hash) (.ok (some receipt)) →
    ∀ call, known side hash call → receipt.bare = (w.receipt side call).bare

/-- What is known after a turn, if `known` was before. -/
def knownAfter (known : Side → Word → Call → Prop) (x : Cause) (side : Side) (hash : Word)
    (call : Call) : Prop :=
  known side hash call ∨ ∃ t, x = .answered side (.submit t) (.ok hash) ∧ t.body.call = call

theorem knownAfter_mono (x : Cause) (side : Side) (hash : Word) (call : Call)
    (h : known side hash call) : knownAfter known x side hash call :=
  .inl h

variable {w} {m : Instant} {x : Cause} {p : Plan}

section Sending

variable {side : Side} {refused : ChainError → State} {taken : Call → Plan} {s : Sending}

/-- Of a call that is not signed yet its sending is foreseen. -/
theorem ForeseesSending.of_call? {call : Call}
    (h : w.ForeseesSending r known side refused taken s p) (hs : s.call? = some call) :
    p = w.sending r side call refused (taken call) := by
  cases h with
  | unsigned h =>
    obtain rfl := Option.some.inj (h.symm.trans hs)
    rfl
  | signed t => cases hs
  | taken h _ => cases (Sending.call?_of_result? h).symm.trans hs
  | refused h => cases (Sending.call?_of_result? h).symm.trans hs

/-- Of a call that is signed its sending is foreseen. -/
theorem ForeseesSending.of_submitting {t : SignedTransaction}
    (h : w.ForeseesSending r known side refused taken (.submitting t) p) :
    p = w.submitting side t.body.call refused (taken t.body.call) := by
  cases h with
  | unsigned h => cases h
  | signed _ => rfl
  | taken h _ => cases h
  | refused h => cases h

/-- Of a call that is settled the rest is foreseen. -/
theorem ForeseesSending.of_result? {result : Except ChainError Submitted}
    (h : w.ForeseesSending r known side refused taken s p) (hs : s.result? = some result) :
    (∃ sub call, result = .ok sub ∧ known side sub.hash call ∧ p = taken call) ∨
      ∃ e, result = .error e ∧ p = .ended (refused e) := by
  cases h with
  | unsigned h => cases (Sending.call?_of_result? hs).symm.trans h
  | signed t => cases hs
  | taken h hk => exact .inl ⟨_, _, Option.some.inj (hs.symm.trans h), hk, rfl⟩
  | refused h => exact .inr ⟨_, Option.some.inj (hs.symm.trans h), rfl⟩

theorem ForeseesSending.onward {call : Call} {n? : Option UInt64} {n : UInt64}
    (h : Sending.Onward (r.side side).account call n? n s) :
    w.ForeseesSending r known side refused taken s
      (w.sending r side call refused (taken call)) := by
  cases h with
  | pricing => exact .unsigned rfl
  | signed hsigns price =>
    rw [sending, hsigns]
    exact .signed (Sending.sign _ call n price)
  | unsigned herror =>
    rw [sending, herror]
    exact .refused rfl

/-- What is foreseen of a settled call stays so until the right to send is given back. -/
theorem ForeseesSending.settled {s' : Sending} {result : Except ChainError Submitted}
    (h : w.ForeseesSending r known side refused taken s p) (hs : s.result? = some result)
    (hs' : s'.result? = some result) : w.ForeseesSending r known side refused taken s' p := by
  rcases h.of_result? hs with ⟨sub, call, rfl, hk, rfl⟩ | ⟨e, rfl, rfl⟩
  · exact .taken hs' hk
  · exact .refused hs'

/-- **With every turn a call does what was foreseen.** -/
theorem ForeseesSending.turned {s' : Sending}
    (h : w.ForeseesSending r known side refused taken s p)
    (ht : Sending.Turned (r.side side).account s x s') (hx : w.Allows known ⟨m, x⟩) :
    ∃ p', p = p'.after x.call?.toList ∧
      w.ForeseesSending r (knownAfter known x) side refused taken s' p' := by
  have hside : (r.side side).account.side = side := (r.side side).account_side
  cases ht with
  | known call n => exact ⟨p, rfl, h.of_call? rfl ▸ .onward (Sending.onward_withNonce ..)⟩
  | unknown call => exact ⟨p, rfl, h.of_call? rfl ▸ .unsigned rfl⟩
  | counted call n => exact ⟨p, rfl, h.of_call? rfl ▸ .onward (Sending.onward_withNonce ..)⟩
  | uncounted call e => exact absurd rfl (hx.counted _ _ e)
  | priced call n? n price =>
    exact ⟨p, rfl, h.of_call? rfl ▸ .onward (Sending.onward_withPrice ..)⟩
  | unpriced call n? n e => exact absurd rfl (hx.priced _ e)
  | taken t hash =>
    have hp := h.of_submitting
    rw [submitting, hx.taken side t hash (by rw [hside])] at hp
    refine ⟨taken t.body.call, ?_, .taken rfl (.inr ⟨t, by rw [hside], rfl⟩)⟩
    rw [hp, hside]
    rfl
  | refused t e =>
    have hp := h.of_submitting
    rw [submitting, hx.refused side t e (by rw [hside])] at hp
    refine ⟨_, ?_, .refused rfl⟩
    rw [hp, hside]
    rfl
  | reported sub => exact ⟨p, rfl, (h.settled rfl rfl).mono (knownAfter_mono _)⟩
  | left nonce result => exact ⟨p, rfl, (h.settled rfl rfl).mono (knownAfter_mono _)⟩

end Sending

/-! ## A log on its way -/

/-- The state in which an attempt begins is that of a decoded log, or the attempt ends in it. -/
theorem match?_cases {log : Log} {s : State} (h : r.match? log = some s) :
    (∃ d rule, s = .matched log d rule) ∨ s.isTerminal = true := by
  obtain ⟨_, -, h⟩ := Option.bind_eq_some_iff.mp h
  obtain ⟨signature, -, h⟩ := Option.bind_eq_some_iff.mp h
  obtain ⟨rule, -, h⟩ := Option.bind_eq_some_iff.mp h
  split at h
  next d _ => exact .inl ⟨d, rule, (Option.some.inj h).symm⟩
  next => exact .inr (Option.some.inj h ▸ rfl)

/-- A wait that the chains do not cut short ends with the receipt of its call. -/
theorem found_of_turned {side : Side} {patience : Patience} {wait : Waiting} {hash : Word}
    {call : Call} {result : Except WaitError Receipt} (hw : wait.IsFor hash)
    (hk : known side hash call) (hx : w.Allows known ⟨m, x⟩)
    (ht : Waiting.Turned side patience m wait x (.done result)) :
    ∃ receipt, result = .ok receipt ∧ receipt.bare = (w.receipt side call).bare := by
  cases ht with
  | stopped _ h => cases hx.untold.symm.trans h
  | found _ deadline next receipt _ _ =>
    obtain rfl := hw
    exact ⟨receipt, rfl, hx.found side _ receipt rfl call hk⟩
  | late wait _ _ _ _ => exact absurd rfl (hx.timely _)
  | cancelled _ _ _ _ _ hs => cases hx.going.symm.trans hs

/-- **With every turn a log does what was foreseen**, whatever else was taken meanwhile. -/
theorem Foresees.turned {c c' : Course} (h : w.Foresees r known c p)
    (ht : Course.Turned r m c x c') (hx : w.Allows known ⟨m, x⟩) :
    ∃ p', p = p'.after x.call?.toList ∧ w.Foresees r (knownAfter known x) c' p' := by
  cases ht with
  | ignored log hm =>
    cases h with
    | arriving _ =>
      rw [ofLog, hm]
      exact ⟨_, rfl, .ignored⟩
  | matched log s hm =>
    cases h with
    | arriving _ =>
      rw [ofLog, hm]
      rcases match?_cases hm with ⟨d, rule, rfl⟩ | hs
      · exact ⟨_, rfl, .matched log d rule⟩
      · refine ⟨.ended s, ?_, .undecoded hs⟩
        cases s <;> first | rfl | cases hs
  | entered s =>
    cases h with
    | matched event d rule =>
      refine ⟨w.matched r d rule, rfl, ?_⟩
      rw [ofState_eq rfl, Attempt.ofState, Chains.matched]
      cases r.callFor .priv rule.call d with
      | error e => exact foresees_of_isTerminal (s := .submitFailed e) w rfl
      | ok call => exact .sendingTarget (.unsigned rfl)
    | undecoded hs => exact ⟨_, rfl, foresees_of_isTerminal w hs⟩
  | @sendingTarget rule _ _ _ hturned _ =>
    cases h with
    | sendingTarget hs =>
      obtain ⟨p', hp, hs'⟩ := hs.turned hturned hx
      exact ⟨p', hp, .sendingTarget hs'⟩
  | sentTarget rule nonce result =>
    cases h with
    | sendingTarget hs =>
      refine ⟨p, rfl, ?_⟩
      rcases hs.of_result? rfl with ⟨sub, call, rfl, hk, rfl⟩ | ⟨e, rfl, rfl⟩
      · exact .awaitingTarget (p := ⟨sub.hash, sub.nonce, .priv, .submitted, rule⟩) rfl rfl
          (.inl hk)
      · exact foresees_of_isTerminal (s := .submitFailed (.chain e)) w rfl
  | @awaitingTarget q _ _ _ hturned _ =>
    cases h with
    | awaitingTarget hw hp hk =>
      rw [hturned.call?]
      exact ⟨_, rfl, .awaitingTarget (hw.turned hturned) hp (.inl hk)⟩
  | @awaitedTarget q _ _ result hturned =>
    cases h with
    | awaitingTarget hw hp hk =>
      rw [hturned.call?]
      obtain ⟨receipt, rfl, hbare⟩ := found_of_turned hw (hp.symm ▸ hk) hx hturned
      exact ⟨_, rfl, foresees_afterTargetReceipt w hp (hp ▸ hbare)⟩
  | @sendingCallback d _ _ _ hturned _ =>
    cases h with
    | sendingCallback hs =>
      obtain ⟨p', hp, hs'⟩ := hs.turned hturned hx
      exact ⟨p', hp, .sendingCallback hs'⟩
  | sentCallback d nonce result =>
    cases h with
    | sendingCallback hs =>
      refine ⟨p, rfl, ?_⟩
      rcases hs.of_result? rfl with ⟨sub, call, rfl, hk, rfl⟩ | ⟨e, rfl, rfl⟩
      · exact .awaitingCallback (p := ⟨sub.hash, sub.nonce, d.target, .submitted, d.rule⟩) rfl rfl
          rfl (.inl hk)
      · exact foresees_of_isTerminal (s := .callbackFailed d.tx (.chain e)) w rfl
  | @awaitingCallback d q _ _ _ hturned _ =>
    cases h with
    | awaitingCallback hw hp hr hk =>
      rw [hturned.call?]
      exact ⟨_, rfl, .awaitingCallback (hw.turned hturned) hp hr (.inl hk)⟩
  | @awaitedCallback d q _ _ result hturned =>
    cases h with
    | awaitingCallback hw hp hr hk =>
      rw [hturned.call?]
      obtain ⟨receipt, rfl, hbare⟩ := found_of_turned hw (hp.symm ▸ hk) hx hturned
      exact ⟨_, rfl, foresees_afterCallbackReceipt w hp hr (hp ▸ hbare)⟩
  | finished s =>
    cases h with
    | finishing _ => exact ⟨_, rfl, .leaving s⟩
  | left s =>
    cases h with
    | leaving _ => exact ⟨_, rfl, .done s⟩

end Chains
end Relay
end EventRelay
