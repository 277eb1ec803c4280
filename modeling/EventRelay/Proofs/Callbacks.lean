import EventRelay.Proofs.Coverage
import EventRelay.Proofs.Progress

/-!
# The callbacks of a receipt

Of the logs of a receipt those that trigger the callback of the rule are answered, one after the
other: `Handled` is what comes of one of them, `AllHandled` says that all of a list were answered
and how. The first failure ends the attempt.

Main statement:

* `callbacks_exact`: what a relay does with the logs of a receipt, whatever the nodes answer and
  whenever the relay stops.
-/

namespace EventRelay

/-- The transaction that a node was asked to take and took. -/
def taken? : Cause → Option (Side × SignedTransaction)
  | .answered side (.submit t) (.ok _) => some (side, t)
  | _ => none

/-- The transactions that nodes took on a way. -/
def taken (hs : List Happening) : List (Side × SignedTransaction) :=
  hs.filterMap fun h => taken? h.cause

@[simp] theorem taken_append (xs ys : List Happening) : taken (xs ++ ys) = taken xs ++ taken ys :=
  List.filterMap_append

theorem taken_cons (x : Happening) (xs : List Happening) :
    taken (x :: xs) = (taken? x.cause).toList ++ taken xs := by
  cases hx : taken? x.cause <;> simp [taken, hx]

/-- A transaction that is taken was asked to be. -/
theorem question?_of_taken? {c : Cause} {q : Side × SignedTransaction} (h : taken? c = some q) :
    c.question? = some (q.1, .submit q.2) := by
  unfold taken? at h
  split at h
  next =>
    obtain rfl := Option.some.inj h
    rfl
  next => cases h

/-- What was taken is some of what was asked for, in the same order. -/
theorem taken_sublist (hs : List Happening) : (taken hs).Sublist (submissions hs) := by
  induction hs with
  | nil => exact .slnil
  | cons x hs ih =>
    have hcons : submissions (x :: hs) = submissions [x] ++ submissions hs :=
      submissions_append [x] hs
    rw [taken_cons, hcons]
    refine List.Sublist.append ?_ ih
    cases hx : taken? x.cause with
    | none => exact List.nil_sublist _
    | some q =>
      have hone : submissions [x] = [q] := by
        rw [submissions, questions_cons, question?_of_taken? hx]
        rfl
      rw [hone]
      exact List.Sublist.refl _

/-- A call that came to nothing was not taken. -/
theorem Sending.untaken {a : Account} {s : Sending} {hs : List Happening} {e : ChainError}
    (h : Path (Sending.turn a) s hs (.done (.error e))) : taken hs = [] := by
  generalize hend : Sending.done (.error e) = t at h
  induction h with
  | here _ => rfl
  | next first rest ih =>
    subst hend
    rw [taken_cons, ih rfl, List.append_nil]
    generalize Happening.cause _ = cause at first ⊢
    cases goes_iff_turned.mp first with
    | taken t hash =>
      -- Once the node has taken it, no error can come of it.
      cases (settled rfl rest).2
    | _ => rfl

namespace Relay

variable {r : Relay} {tx : Word} {rule : Rule} {c : Callback} {log : Log} {logs : List Log}
  {hs : List Happening}

/-- The event of a log of the private contract, as its first topic says. -/
def receiptEvent? (r : Relay) (log : Log) : Option Abi.Signature :=
  log.topic0.bind r.registries.priv.resolve?

/-- Whether a log triggers the callback of a rule: it was emitted by the private contract, and its
event has the name that the callback is for. -/
def triggers (r : Relay) (rule : Rule) (c : Callback) (log : Log) : Bool :=
  log.address = r.priv.contract &&
    (r.receiptEvent? log).any fun s => s.name = c.trigger rule.event

/-- The logs of a receipt that trigger the callback of a rule. -/
def triggering (r : Relay) (rule : Rule) (c : Callback) (logs : List Log) : List Log :=
  logs.filter (r.triggers rule c)

/-- A log that triggers the callback is asked about with its event. -/
theorem asked?_of_triggers (hc : rule.callback = some c) (h : r.triggers rule c log = true) :
    ∃ s, r.receiptEvent? log = some s ∧ r.asked? rule log = some (s, c) := by
  rw [triggers, Bool.and_eq_true, decide_eq_true_eq] at h
  obtain ⟨ha, hname⟩ := h
  cases hs : r.receiptEvent? log with
  | none =>
    rw [hs] at hname
    cases hname
  | some s =>
    rw [hs, Option.any_some, decide_eq_true_eq] at hname
    exact ⟨s, rfl, asked?_eq_some.mpr ⟨ha, hs, hc, hname.symm⟩⟩

/-- A log is asked about only when it triggers the callback of its rule. -/
theorem triggers_of_asked? {s : Abi.Signature} {c' : Callback} (hc : rule.callback = some c)
    (h : r.asked? rule log = some (s, c')) :
    c' = c ∧ r.receiptEvent? log = some s ∧ r.triggers rule c log = true := by
  obtain ⟨ha, hs, hc', hname⟩ := asked?_eq_some.mp h
  obtain rfl := Option.some.inj (hc'.symm.trans hc)
  have hevent : r.receiptEvent? log = some s := hs
  refine ⟨rfl, hevent, ?_⟩
  rw [triggers, hevent, Option.any_some, ha, hname]
  simp

/-- A log that triggers nothing is not answered. -/
theorem triggers_of_not_asked (hc : rule.callback = some c) (h : r.asked? rule log = none) :
    r.triggers rule c log = false := by
  cases ht : r.triggers rule c log with
  | false => rfl
  | true =>
    obtain ⟨s, -, ha⟩ := asked?_of_triggers hc ht
    cases h.symm.trans ha

/-! ## What comes of one log -/

/-- A log is decoded as its event says. -/
def Decodes (r : Relay) (log : Log) (d : Abi.DecodedLog) : Prop :=
  ∃ s, r.receiptEvent? log = some s ∧ s.decode log = .ok d

/-- The input of a callback is that of its method with the fields of the log as arguments. -/
def Encodes (r : Relay) (c : Callback) (log : Log) (input : Bytes) : Prop :=
  ∃ d args, r.Decodes log d ∧ d.project c.call.params = .ok args ∧
    (r.registries.side c.target).encodeCall c.call.method args = .ok input

/-- The transaction is a call of the contract of the callback's side, for a log. -/
def IsCallFor (r : Relay) (c : Callback) (log : Log) (q : Side × SignedTransaction) : Prop :=
  ∃ input nonce price, r.Encodes c log input ∧ q = (c.target,
    Sending.sign (r.side c.target).account ⟨(r.side c.target).contract, input⟩ nonce price)

/-- One call for a log, which the node took. -/
structure TakenFor (r : Relay) (c : Callback) (log : Log) (hs : List Happening) (s : Submitted) :
    Prop where
  once : ∃ q, r.IsCallFor c log q ∧ submissions hs = [q] ∧ taken hs = [q] ∧
    .answered c.target (.submit q.2) (.ok s.hash) ∈ hs.map (·.cause)
  unlooked : lookups hs = []

/-- A wait that ends with the receipt of a transaction that took effect. -/
structure Confirmed (side : Side) (hash : Word) (hs : List Happening) : Prop where
  unsubmitted : submissions hs = []
  only : ∀ q ∈ lookups hs, q = (side, hash)
  last : ∃ before last receipt, hs = before ++ [last] ∧
    last.cause = .answered side (.receipt hash) (.ok (some receipt)) ∧ receipt.status = true

/-- What comes of a log that triggers a callback: the state in which the attempt ends with it, or
the callback that took effect. -/
inductive Handled (r : Relay) (tx : Word) (rule : Rule) (c : Callback) (log : Log) :
    List Happening → Except State Pending → Prop
  | undecoded {s : Abi.Signature} {e : Abi.DecodeError} (hs : r.receiptEvent? log = some s)
      (hd : s.decode log = .error e) :
      Handled r tx rule c log [] (.error (.decodeFailed (.decode e)))
  | unprojected {d : Abi.DecodedLog} {e : MissingField} (hd : r.Decodes log d)
      (hp : d.project c.call.params = .error e) :
      Handled r tx rule c log [] (.error (.callbackFailed tx (.project e)))
  | unencoded {d : Abi.DecodedLog} {args : List Abi.Value} {e : Abi.CallError}
      (hd : r.Decodes log d) (hp : d.project c.call.params = .ok args)
      (he : (r.registries.side c.target).encodeCall c.call.method args = .error e) :
      Handled r tx rule c log [] (.error (.callbackFailed tx (.call e)))
  /-- The call was not taken, if the node was asked to take it at all. -/
  | untaken {input : Bytes} {hs : List Happening} {e : ChainError} (he : r.Encodes c log input)
      (once : submissions hs = [] ∨ ∃ q, r.IsCallFor c log q ∧ submissions hs = [q])
      (untaken : taken hs = []) (unlooked : lookups hs = []) :
      Handled r tx rule c log hs (.error (.callbackFailed tx (.chain e)))
  /-- Its receipt did not come in time, or it says that the call had no effect. -/
  | unconfirmed {xs ys : List Happening} {s : Submitted} {e : RelayError}
      (hx : r.TakenFor c log xs s) (hy : Awaited r c.target s.hash ys (.error e)) :
      Handled r tx rule c log (xs ++ ys) (.error (.callbackFailed tx e))
  | called {xs ys : List Happening} {s : Submitted} (hx : r.TakenFor c log xs s)
      (hy : Confirmed c.target s.hash ys) :
      Handled r tx rule c log (xs ++ ys) (.ok ⟨s.hash, s.nonce, c.target, .mined, rule⟩)

/-- All logs of a list are answered, one after the other, each by a callback that took effect. -/
inductive AllHandled (r : Relay) (tx : Word) (rule : Rule) (c : Callback) :
    List Log → List Happening → List Pending → Prop
  | nil : AllHandled r tx rule c [] [] []
  | cons {log : Log} {logs : List Log} {xs ys : List Happening} {p : Pending} {ps : List Pending}
      (first : Handled r tx rule c log xs (.ok p)) (rest : AllHandled r tx rule c logs ys ps) :
      AllHandled r tx rule c (log :: logs) (xs ++ ys) (p :: ps)

/-- A call that is made up for a log is its encoding, sent to the target's contract. -/
theorem encodes_of_callFor {s : Abi.Signature} {d : Abi.DecodedLog} {call : Call}
    (hs : r.receiptEvent? log = some s) (hd : s.decode log = .ok d)
    (h : r.callFor c.target c.call d = .ok call) :
    ∃ input, r.Encodes c log input ∧ call = ⟨(r.side c.target).contract, input⟩ := by
  cases hp : d.project c.call.params with
  | error e => cases (callFor_of_unprojected hp).symm.trans h
  | ok args =>
    rw [callFor_of_projected hp] at h
    cases he : (r.registries.side c.target).encodeCall c.call.method args with
    | error e =>
      rw [he] at h
      cases h
    | ok input =>
      rw [he] at h
      exact ⟨input, ⟨d, args, ⟨s, hs, hd⟩, hp, he⟩, (Except.ok.inj h).symm⟩

/-- A transaction that carries the call of a decoded log is a call for that log. -/
theorem isCallFor_of_isCallOf {s : Abi.Signature} {d : Abi.DecodedLog} {t : SignedTransaction}
    (hs : r.receiptEvent? log = some s) (hd : s.decode log = .ok d)
    (h : IsCallOf r c.target c.call d t) : r.IsCallFor c log (c.target, t) := by
  obtain ⟨call, nonce, price, hcall, rfl⟩ := h
  obtain ⟨input, hinput, rfl⟩ := encodes_of_callFor hs hd hcall
  exact ⟨input, nonce, price, hinput, rfl⟩

/-- An invocation that succeeds has its one call taken. -/
theorem takenFor_of_invoked {s : Abi.Signature} {d : Abi.DecodedLog} {sent : Submitted}
    (hs : r.receiptEvent? log = some s) (hd : s.decode log = .ok d)
    {xs : List Happening} (h : Invoked r c.target c.call d xs (.ok sent)) :
    r.TakenFor c log xs sent := by
  obtain ⟨hlook, honce, htaken⟩ := h.asks
  obtain ⟨t, hsub, hmem⟩ := htaken sent rfl
  have hcall : IsCallOf r c.target c.call d t := by
    rcases honce with hnone | ⟨t', hcall, hsub'⟩
    · rw [hnone] at hsub
      cases hsub
    · obtain rfl := congrArg Prod.snd (List.singleton_inj.mp (hsub.symm.trans hsub'))
      exact hcall
  -- The node took it, and it was asked to take nothing else.
  have htook : taken xs = [(c.target, t)] := by
    obtain ⟨x, hx, hcause⟩ := List.mem_map.mp hmem
    have hin : (c.target, t) ∈ taken xs := List.mem_filterMap.mpr ⟨x, hx, by rw [hcause]; rfl⟩
    have hsublist : (taken xs).Sublist [(c.target, t)] := hsub ▸ taken_sublist xs
    exact hsublist.eq_of_length_le (List.length_pos_of_mem hin)
  exact ⟨⟨_, isCallFor_of_isCallOf hs hd hcall, hsub, htook, hmem⟩, hlook⟩

/-- A call that came to nothing ends the attempt. -/
theorem handled_of_uninvoked {s : Abi.Signature} {d : Abi.DecodedLog} {e : RelayError}
    (hs : r.receiptEvent? log = some s) (hd : s.decode log = .ok d)
    {xs : List Happening} (h : Invoked r c.target c.call d xs (.error e)) :
    Handled r tx rule c log xs (.error (.callbackFailed tx e)) := by
  obtain ⟨hlook, honce, -⟩ := h.asks
  have honce' : submissions xs = [] ∨ ∃ q, r.IsCallFor c log q ∧ submissions xs = [q] := by
    refine honce.imp_right ?_
    intro h
    obtain ⟨t, hcall, hsub⟩ := h
    exact ⟨_, isCallFor_of_isCallOf hs hd hcall, hsub⟩
  generalize hresult : (Except.error e : Except RelayError Submitted) = result at h
  cases h with
  | unprojected hp =>
    obtain rfl := Except.error.inj hresult
    exact .unprojected ⟨s, hs, hd⟩ hp
  | unencoded hp he =>
    obtain rfl := Except.error.inj hresult
    exact .unencoded ⟨s, hs, hd⟩ hp he
  | @sent call _ sent hcall hpath =>
    cases sent with
    | ok _ => cases hresult
    | error e' =>
      obtain rfl := Except.error.inj hresult
      obtain ⟨input, hinput, -⟩ := encodes_of_callFor hs hd hcall
      exact .untaken hinput honce' (Sending.untaken hpath) hlook

/-- A receipt that was awaited and succeeded confirms its transaction. -/
theorem confirmed_of_awaited {side : Side} {hash : Word} {receipt : Receipt}
    (h : Awaited r side hash hs (.ok receipt)) : Confirmed side hash hs := by
  obtain ⟨hsub, hlook, hmined⟩ := h.asks
  obtain ⟨hstatus, before, last, hlast, hcause⟩ := hmined receipt rfl
  exact ⟨hsub, hlook, before, last, receipt, hlast, hcause, hstatus⟩

/-! ## What comes of all of them -/

/-- What comes of the logs that trigger a callback: a first part of them is answered, and the
attempt ends with the next one or, if there is none, in a state that lists all callbacks. -/
structure Answered (r : Relay) (tx : Word) (rule : Rule) (c : Callback) (sent : List Pending)
    (triggers : List Log) (hs : List Happening) (s : State) (first rest : List Log)
    (callbacks : List Pending) : Prop where
  split : triggers = first ++ rest
  handled : ∃ xs ys, hs = xs ++ ys ∧ AllHandled r tx rule c first xs callbacks ∧
    (rest = [] ∧ ys = [] ∧
        s = (if (sent ++ callbacks).isEmpty then .noCallback tx
          else .calledBack tx (sent ++ callbacks)) ∨
      ∃ log more, rest = log :: more ∧ Handled r tx rule c log ys (.error s))

theorem Answered.stop {sent : List Pending} {s : State}
    (h : Handled r tx rule c log hs (.error s)) (logs : List Log) :
    Answered r tx rule c sent (log :: logs) hs s [] (log :: logs) [] :=
  ⟨rfl, [], hs, rfl, .nil, .inr ⟨log, logs, rfl, h⟩⟩

/-- Calling back answers the triggering logs in their order, up to the first that fails. -/
theorem answered_of_calledBack {sent : List Pending} {s : State} (hc : rule.callback = some c)
    (h : CalledBack r tx rule sent logs hs s) :
    ∃ first rest callbacks,
      Answered r tx rule c sent (r.triggering rule c logs) hs s first rest callbacks := by
  have cons : ∀ {log : Log} (logs : List Log), r.triggers rule c log = true →
      r.triggering rule c (log :: logs) = log :: r.triggering rule c logs :=
    fun logs ht => List.filter_cons_of_pos ht
  induction h with
  | nothing sent =>
    refine ⟨[], [], [], rfl, [], [], rfl, .nil, .inl ⟨rfl, rfl, ?_⟩⟩
    rw [List.append_nil]
  | ignored ha _ ih =>
    rw [triggering, List.filter_cons_of_neg (Bool.eq_false_iff.mp (triggers_of_not_asked hc ha))]
    exact ih
  | undecoded ha hd =>
    obtain ⟨rfl, hs, ht⟩ := triggers_of_asked? hc ha
    rw [cons _ ht]
    exact ⟨_, _, _, .stop (.undecoded hs hd) _⟩
  | uninvoked ha hd hi =>
    obtain ⟨rfl, hs, ht⟩ := triggers_of_asked? hc ha
    rw [cons _ ht]
    exact ⟨_, _, _, .stop (handled_of_uninvoked hs hd hi) _⟩
  | unmined ha hd hi hw =>
    obtain ⟨rfl, hs, ht⟩ := triggers_of_asked? hc ha
    rw [cons _ ht]
    exact ⟨_, _, _, .stop (.unconfirmed (takenFor_of_invoked hs hd hi) hw) _⟩
  | called ha hd hi hw _ ih =>
    obtain ⟨rfl, hs, ht⟩ := triggers_of_asked? hc ha
    rw [cons _ ht]
    have hfirst : Handled r tx rule _ _ _ _ :=
      .called (takenFor_of_invoked hs hd hi) (confirmed_of_awaited hw)
    obtain ⟨first, rest, callbacks, hsplit, xs, ys, rfl, hall, hend⟩ := ih
    refine ⟨_ :: first, rest, _ :: callbacks, ?_, _, ys, ?_, .cons hfirst hall, ?_⟩
    · rw [hsplit, List.cons_append]
    · simp only [List.append_assoc]
    · rw [List.append_assoc, List.singleton_append] at hend
      exact hend

/-- Every call of a list is the one for the log at its place. -/
def InStep (r : Relay) (c : Callback) (logs : List Log) (calls : List (Side × SignedTransaction)) :
    Prop :=
  ∀ (i : Nat) q, calls[i]? = some q → ∃ log, logs[i]? = some log ∧ r.IsCallFor c log q

namespace InStep

variable {logs' : List Log} {calls calls' : List (Side × SignedTransaction)}
  {q : Side × SignedTransaction}

theorem nil : InStep r c logs [] := fun _ _ h => by cases h

/-- One call is in step with its log. -/
theorem singleton (h : r.IsCallFor c log q) (logs : List Log) : InStep r c (log :: logs) [q] := by
  intro i q' hq
  cases i with
  | zero =>
    obtain rfl := Option.some.inj hq
    exact ⟨log, rfl, h⟩
  | succ i => cases hq

/-- Calls that are in step stay so when more of both follow. -/
theorem append (h : InStep r c logs calls) (hlen : calls.length = logs.length)
    (h' : InStep r c logs' calls') : InStep r c (logs ++ logs') (calls ++ calls') := by
  intro i q hq
  by_cases hi : i < calls.length
  · rw [List.getElem?_append_left hi] at hq
    rw [List.getElem?_append_left (hlen ▸ hi)]
    exact h i q hq
  · have hge : calls.length ≤ i := Nat.le_of_not_lt hi
    rw [List.getElem?_append_right hge] at hq
    rw [List.getElem?_append_right (hlen ▸ hge), ← hlen]
    exact h' _ q hq

/-- The first of the calls are in step by themselves. -/
theorem of_append (h : InStep r c logs (calls ++ calls')) : InStep r c logs calls := by
  intro i q hq
  have hi : i < calls.length := (List.getElem?_eq_some_iff.mp hq).1
  exact h i q (by rw [List.getElem?_append_left hi]; exact hq)

end InStep

/-- An answered log is one call, and the node took it. -/
theorem Handled.one {p : Pending} (h : Handled r tx rule c log hs (.ok p)) :
    ∃ q, r.IsCallFor c log q ∧ submissions hs = [q] ∧ taken hs = [q] := by
  generalize hresult : (Except.ok p : Except State Pending) = result at h
  cases h with
  | called hx hy =>
    obtain ⟨q, hcall, hsub, htaken, -⟩ := hx.once
    have hnone : taken _ = [] := List.sublist_nil.mp (hy.unsubmitted ▸ taken_sublist _)
    exact ⟨q, hcall, by rw [submissions_append, hsub, hy.unsubmitted, List.append_nil],
      by rw [taken_append, htaken, hnone, List.append_nil]⟩
  | _ => cases hresult

/-- A log with which the attempt ends is one call at most. -/
theorem Handled.atMostOne {s : State} (h : Handled r tx rule c log hs (.error s))
    (logs : List Log) :
    InStep r c (log :: logs) (submissions hs) ∧ InStep r c (log :: logs) (taken hs) := by
  generalize hresult : (Except.error s : Except State Pending) = result at h
  cases h with
  | undecoded _ _ => exact ⟨.nil, .nil⟩
  | unprojected _ _ => exact ⟨.nil, .nil⟩
  | unencoded _ _ _ => exact ⟨.nil, .nil⟩
  | untaken _ once untaken _ =>
    refine ⟨?_, untaken ▸ .nil⟩
    rcases once with hnone | ⟨q, hcall, hsub⟩
    · exact hnone ▸ .nil
    · exact hsub ▸ .singleton hcall logs
  | unconfirmed hx hy =>
    obtain ⟨q, hcall, hsub, htaken, -⟩ := hx.once
    have hnone : taken _ = [] := List.sublist_nil.mp (hy.asks.1 ▸ taken_sublist _)
    rw [submissions_append, taken_append, hsub, htaken, hy.asks.1, hnone]
    exact ⟨.singleton hcall logs, .singleton hcall logs⟩
  | called _ _ => cases hresult

/-- Answered logs are one call each, in their order, and the node took them all. -/
theorem AllHandled.calls {ps : List Pending} (h : AllHandled r tx rule c logs hs ps) :
    InStep r c logs (submissions hs) ∧ taken hs = submissions hs ∧
      (submissions hs).length = logs.length := by
  induction h with
  | nil => exact ⟨.nil, rfl, rfl⟩
  | cons first _ ih =>
    obtain ⟨q, hcall, hsub, htaken⟩ := first.one
    obtain ⟨hstep, htook, hlen⟩ := ih
    rw [submissions_append, taken_append, hsub, htaken, htook]
    exact ⟨.append (.singleton hcall []) rfl hstep, rfl, congrArg Nat.succ hlen⟩

/-- Logs that were all handled have one pending transaction each. -/
theorem AllHandled.length_eq {ps : List Pending} (h : AllHandled r tx rule c logs hs ps) :
    ps.length = logs.length := by
  induction h with
  | nil => rfl
  | cons _ _ ih => exact congrArg Nat.succ ih

/-- An attempt that ends with a log has failed. -/
theorem Handled.failed {s : State} (h : Handled r tx rule c log hs (.error s)) :
    s ≠ .noCallback tx ∧ ∀ callbacks, s ≠ .calledBack tx callbacks := by
  generalize hresult : (Except.error s : Except State Pending) = result at h
  cases h with
  | called _ _ => cases hresult
  | _ =>
    obtain rfl := Except.error.inj hresult
    exact ⟨nofun, nofun⟩

/-- **The calls go in step with the logs that trigger the callback**, those asked for and those
taken. -/
theorem Answered.inStep {sent callbacks : List Pending} {s : State} {first rest : List Log}
    (h : Answered r tx rule c sent logs hs s first rest callbacks) :
    InStep r c logs (submissions hs) ∧ InStep r c logs (taken hs) := by
  obtain ⟨rfl, xs, ys, rfl, hall, hend⟩ := h
  obtain ⟨hstep, htook, hlen⟩ := hall.calls
  have hlast : InStep r c rest (submissions ys) ∧ InStep r c rest (taken ys) := by
    rcases hend with ⟨rfl, rfl, -⟩ | ⟨log, more, rfl, hlog⟩
    · exact ⟨.nil, .nil⟩
    · exact hlog.atMostOne more
  rw [submissions_append, taken_append, htook]
  exact ⟨hstep.append hlen hlast.1, hstep.append hlen hlast.2⟩

/-- The end of an attempt says whether there was a log to answer, and whether all were answered. -/
theorem Answered.dispatched_iff {callbacks : List Pending} {s : State} {first rest : List Log}
    (h : Answered r tx rule c [] logs hs s first rest callbacks) :
    callbacks.length = first.length ∧ (s = .noCallback tx ↔ logs = []) ∧
      ∀ dispatched, s = .calledBack tx dispatched ↔
        logs ≠ [] ∧ rest = [] ∧ dispatched = callbacks := by
  obtain ⟨rfl, xs, ys, -, hall, hend⟩ := h
  have hlen := hall.length_eq
  refine ⟨hlen, ?_⟩
  rcases hend with ⟨rfl, -, rfl⟩ | ⟨log, more, rfl, hlog⟩
  · rw [List.nil_append, List.append_nil]
    cases first with
    | nil =>
      obtain rfl := List.length_eq_zero_iff.mp hlen
      exact ⟨⟨fun _ => rfl, fun _ => rfl⟩, fun _ => ⟨nofun, fun h => absurd rfl h.1⟩⟩
    | cons log first =>
      obtain ⟨p, ps, rfl⟩ := List.exists_cons_of_length_eq_add_one hlen
      refine ⟨⟨nofun, nofun⟩, fun dispatched => ⟨fun h => ?_, fun h => ?_⟩⟩
      · exact ⟨nofun, rfl, (State.calledBack.inj h).2.symm⟩
      · rw [h.2.2]
        rfl
  · obtain ⟨hnone, hsome⟩ := hlog.failed
    have hne : first ++ log :: more ≠ [] := by simp
    exact ⟨⟨fun h => absurd h hnone, fun h => absurd h hne⟩,
      fun dispatched => ⟨fun h => absurd h (hsome dispatched), fun h => by cases h.2.1⟩⟩

/-- An attempt that is under way goes on until it rests. -/
theorem Attempt.rests {a : Attempt} (h : a.IsUnderWay ∨ ∃ s, a = .resting s) :
    ∃ more s, Path (Attempt.turn r) a more (.resting s) := by
  -- By what is left of the way: each turn that it may take leaves less.
  induction hcourse : Course.moving a using (Course.wellFounded r).induction generalizing a with
  | _ course ih =>
    subst hcourse
    rcases h with h | ⟨s, rfl⟩
    · have hdemand : (a.turn r).demand ≠ .nothing := by
        intro hnone
        have hcourse : ((Course.moving a).turn r).demand = .nothing := by
          show ((a.turn r).demand).map _ = _
          rw [hnone]
          rfl
        obtain ⟨result, hdone⟩ := Course.done_of_nothing (c := .moving a) h hcourse
        cases hdone
      obtain ⟨time, hgo⟩ := Turn.can_go hdemand
      obtain ⟨x, a', hgoes⟩ := hgo ⟨time, false, false⟩ (Nat.le_refl time)
      have hmoves : ((Course.moving a).turn r).Goes ⟨time, false, false⟩ x
          (Course.ofAttempt r a') := Turn.goes_map_iff.mpr ⟨a', hgoes, rfl⟩
      have hpath : ∃ more s, Path (Attempt.turn r) a' more (.resting s) := by
        have hsound := (Course.less_moving hmoves).2
        cases a' with
        | resting s => exact ⟨[], s, .here _⟩
        | _ => exact ih _ ⟨_, _, hmoves⟩ (.inl hsound) rfl
      obtain ⟨more, s, hmore⟩ := hpath
      exact ⟨⟨_, x⟩ :: more, s, .next hgoes hmore⟩
    · exact ⟨[], s, .here _⟩

/-- Along every path an attempt stays under way or comes to rest. -/
theorem Attempt.underWay_of_path {a b : Attempt} (h : a.IsUnderWay ∨ ∃ s, a = .resting s)
    (hpath : Path (Attempt.turn r) a hs b) : b.IsUnderWay ∨ ∃ s, b = .resting s := by
  induction hpath with
  | here _ => exact h
  | @next a b _ x _ first _ ih =>
    apply ih
    have hmoves : ((Course.moving a).turn r).Goes x.moment x.cause (Course.ofAttempt r b) :=
      Turn.goes_map_iff.mpr ⟨b, first, rfl⟩
    have hsound := (Course.less_moving hmoves).2
    cases b with
    | resting s => exact .inr ⟨s, rfl⟩
    | _ => exact .inl hsound

/-- After a callback an attempt is under way or at rest. -/
theorem Attempt.underWay_nextCallback (r : Relay) (tx : Word) (rule : Rule) (sent : List Pending)
    (logs : List Log) : (Attempt.nextCallback r tx rule sent logs).IsUnderWay ∨
      ∃ s, Attempt.nextCallback r tx rule sent logs = .resting s := by
  rcases nextCallback_cases r tx rule sent logs with ⟨s, hs, -⟩ | ⟨c, call, hs, -⟩
  · exact .inr ⟨s, hs⟩
  · rw [hs]
    exact .inl rfl

/-- **Callbacks are dispatched exactly**, whatever the nodes answer and whenever the relay stops.
Once the target call took effect, the logs of the receipt that trigger the callback are answered in
their order, each by one call that the node takes and whose receipt says that it took effect. With
the first log for which that fails the attempt ends. At any time the calls asked for and the calls
taken are those of the first of these logs, one each, and the attempt can go on to its end. -/
theorem callbacks_exact {p : Pending} (receipt : Receipt) (hc : p.rule.callback = some c) :
    (∀ hs a, Path (Attempt.turn r) (Attempt.ofState r (.mined p receipt)) hs a →
      InStep r c (r.triggering p.rule c receipt.logs) (submissions hs) ∧
      InStep r c (r.triggering p.rule c receipt.logs) (taken hs) ∧
      ∃ more s, Path (Attempt.turn r) a more (.resting s)) ∧
    ∀ hs s, Path (Attempt.turn r) (Attempt.ofState r (.mined p receipt)) hs (.resting s) →
      ∃ first rest callbacks,
        Answered r p.hash p.rule c [] (r.triggering p.rule c receipt.logs) hs s first rest
          callbacks ∧
        callbacks.length = first.length ∧
        (s = .noCallback p.hash ↔ r.triggering p.rule c receipt.logs = []) ∧
        ∀ dispatched, s = .calledBack p.hash dispatched ↔
          r.triggering p.rule c receipt.logs ≠ [] ∧ rest = [] ∧ dispatched = callbacks := by
  have hstart : Attempt.ofState r (.mined p receipt) =
      Attempt.nextCallback r p.hash p.rule [] receipt.logs := by
    rw [Attempt.ofState, hc]
    rfl
  rw [hstart]
  have hanswered : ∀ hs s,
      Path (Attempt.turn r) (Attempt.nextCallback r p.hash p.rule [] receipt.logs) hs (.resting s) →
      ∃ first rest callbacks, Answered r p.hash p.rule c []
        (r.triggering p.rule c receipt.logs) hs s first rest callbacks :=
    fun hs s hpath => answered_of_calledBack hc (calledBack_of_path hpath)
  constructor
  · intro hs a hpath
    -- The way that is not over yet is a beginning of one that is.
    have hway := Attempt.underWay_of_path (Attempt.underWay_nextCallback r _ _ _ _) hpath
    obtain ⟨more, s, hmore⟩ := Attempt.rests hway
    obtain ⟨first, rest, callbacks, h⟩ := hanswered _ s (hpath.append hmore)
    obtain ⟨hsub, htaken⟩ := h.inStep
    rw [submissions_append] at hsub
    rw [taken_append] at htaken
    exact ⟨hsub.of_append, htaken.of_append, more, s, hmore⟩
  · intro hs s hpath
    obtain ⟨first, rest, callbacks, h⟩ := hanswered hs s hpath
    exact ⟨first, rest, callbacks, h, h.dispatched_iff⟩

/-- The callback that calls `note` for the event `Pong`. -/
def pongCallback : Callback := ⟨some "Pong", .priv, ⟨"note", []⟩⟩

/-- The rule that calls `pong` for the event `Ping`, with that callback. -/
def pongRule : Rule := ⟨"Ping", ⟨"pong", []⟩, some pongCallback⟩

/-- A relay whose private contract has the event `Pong` and the method `note`. -/
def ponging : Relay :=
  { idle with
    registries :=
      ⟨⟨[], [], []⟩, ⟨[⟨"Pong", "Pong()", 8, [], []⟩], [("Pong", 8)], [⟨"note", []⟩]⟩⟩ }

/-- A log without data by its topic. -/
def logOf (topic : Word) : Log := ⟨.zero, [topic], [], none, none, none⟩

theorem goes_sendingCallback {m : Instant} {c : CallingBack} {s s' : Sending} {x : Cause}
    (h : Sending.Turned (r.side c.target).account s x s') :
    (Attempt.turn r (.sendingCallback c s)).Goes m x (Attempt.afterCallback c s') :=
  Turn.goes_map_iff.mpr ⟨s', Sending.goes_iff_turned.mpr h, rfl⟩

theorem goes_awaitingCallback {m : Instant} {c : CallingBack} {p : Pending} {w w' : Waiting}
    {x : Cause} (h : (w.turn p.side (r.patience p.side)).Goes m x w') :
    (Attempt.turn r (.awaitingCallback c p w)).Goes m x (Attempt.afterCallbackReceipt r c p w') :=
  Turn.goes_map_iff.mpr ⟨w', h, rfl⟩

/-- Of three logs the first and the last are of the event `Pong`; both are answered. -/
theorem callbacks_exact_pong :
    ∃ hs, Path (Attempt.turn ponging)
        (Attempt.ofState ponging (.mined ⟨9, 4, .priv, .mined, pongRule⟩
          ⟨9, none, true, [logOf 8, logOf 7, logOf 8]⟩)) hs
        (.resting (.calledBack 9
          [⟨10, 5, .priv, .mined, pongRule⟩, ⟨11, 6, .priv, .mined, pongRule⟩])) ∧
      pongRule.callback = some pongCallback ∧
      ponging.triggering pongRule pongCallback [logOf 8, logOf 7, logOf 8] =
        [logOf 8, logOf 8] ∧
      (taken hs).length = 2 ∧ InStep ponging pongCallback [logOf 8, logOf 8] (taken hs) := by
  have h₀ : Path (Attempt.turn ponging)
      (Attempt.ofState ponging (.mined ⟨9, 4, .priv, .mined, pongRule⟩
        ⟨9, none, true, [logOf 8, logOf 7, logOf 8]⟩)) [] _ := .here _
  have h := h₀
    |>.snoc_zero (goes_sendingCallback (.known _ 5))
    |>.snoc_zero (goes_sendingCallback (.taken _ 10))
    |>.snoc_zero (goes_sendingCallback (.reported _))
    |>.snoc_zero (goes_sendingCallback (.left _ _))
    |>.snoc_zero (goes_awaitingCallback (Turn.goes_plain.mpr (.look _)))
    |>.snoc_zero (goes_awaitingCallback (.met rfl (.inr rfl) (.pause _ _ (Nat.le_refl 0))))
    |>.snoc_zero (goes_awaitingCallback
      (.met rfl (.inr rfl) (.ask _ (.receipt 10) _ (.ok (some ⟨10, none, true, []⟩)))))
    |>.snoc_zero (goes_sendingCallback (.known _ 6))
    |>.snoc_zero (goes_sendingCallback (.taken _ 11))
    |>.snoc_zero (goes_sendingCallback (.reported _))
    |>.snoc_zero (goes_sendingCallback (.left _ _))
    |>.snoc_zero (goes_awaitingCallback (Turn.goes_plain.mpr (.look _)))
    |>.snoc_zero (goes_awaitingCallback (.met rfl (.inr rfl) (.pause _ _ (Nat.le_refl 0))))
    |>.snoc_zero (goes_awaitingCallback
      (.met rfl (.inr rfl) (.ask _ (.receipt 11) _ (.ok (some ⟨11, none, true, []⟩)))))
  have hcallback : pongRule.callback = some pongCallback := rfl
  have htriggering : ponging.triggering pongRule pongCallback [logOf 8, logOf 7, logOf 8] =
      [logOf 8, logOf 8] := rfl
  have hexact := (callbacks_exact (r := ponging) (p := ⟨9, 4, .priv, .mined, pongRule⟩)
    ⟨9, none, true, [logOf 8, logOf 7, logOf 8]⟩ hcallback).1 _ _ h
  rw [htriggering] at hexact
  exact ⟨_, h, hcallback, htriggering, rfl, hexact.2.1⟩

end Relay

end EventRelay
