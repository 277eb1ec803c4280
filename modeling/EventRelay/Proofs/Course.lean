import EventRelay.Proofs.Progress
import EventRelay.Proofs.Rehearsing

/-!
# The whole way of a log

A log without a rule is left alone. For any other an attempt goes through at most three states, each
further on than the one before, and ends in a terminal one. `Steps` is that way through the states,
`Attempted` what is asked of the nodes on it and when it fails; `Course.left` bounds the turns that
it takes.

Main statement:

* `Course.contract`: what a log's way through the relay keeps to, whatever the nodes answer and
  whenever the relay stops.
-/

namespace EventRelay.Relay

variable {r : Relay} {hs xs ys zs : List Happening}

/-- The way of an attempt from a state to its end, with the states that it reaches. -/
inductive Steps (r : Relay) : State → List Happening → List State → Prop
  | finished {s : State} (h : s.isTerminal = true) : Steps r s [] []
  | step {s s' : State} {xs ys : List Happening} {ss : List State} (hs : s.isTerminal = false)
      (h : Path (Attempt.turn r) (Attempt.ofState r s) xs (.resting s'))
      (rest : Steps r s' ys ss) : Steps r s (xs ++ ys) (s' :: ss)

/-- **An attempt goes forward only**, so that it is over after at most three steps. -/
theorem Steps.forward {s : State} {ss : List State} (h : Steps r s hs ss) :
    (s :: ss).Pairwise (fun a b => a.stage < b.stage) ∧ ss.length + s.stage ≤ 3 := by
  induction h with
  | @finished s h => exact ⟨List.pairwise_singleton _ _, by
      rw [State.stage_of_isTerminal h]
      exact Nat.le_refl 3⟩
  | @step s s' xs ys ss hs h _ ih =>
    have hlt := (step_of_path hs h).stage_lt
    obtain ⟨hsorted, hlen⟩ := ih
    refine ⟨List.pairwise_cons.mpr ⟨?_, hsorted⟩, ?_⟩
    · intro x hx
      rcases List.mem_cons.mp hx with rfl | hx
      · exact hlt
      · exact Nat.lt_trans hlt ((List.pairwise_cons.mp hsorted).1 x hx)
    · rw [List.length_cons]
      omega

/-- The last state of a path of steps is terminal. -/
theorem Steps.isTerminal {s s' : State} {ss : List State} (h : Steps r s hs ss)
    (hlast : (s :: ss).getLast? = some s') : s'.isTerminal = true := by
  induction h with
  | finished h =>
    obtain rfl := Option.some.inj hlast
    exact h
  | step _ _ _ ih =>
    rw [List.getLast?_cons_cons] at hlast
    exact ih hlast

/-! ## From the arrival of a log to its end -/

/-- A log whose attempt is over is counted, and that is all. -/
theorem finishing_path {s : State} {result : Option State}
    (h : Path (Course.turn r) (.finishing s) hs (.done result)) :
    result = some s ∧ hs.map (·.cause) = [.counted (.finished s.name), .counted .leave] := by
  cases h with
  | next first rest =>
    obtain ⟨hfirst, rfl⟩ := Turn.goes_count first
    cases rest with
    | next second rest =>
      obtain ⟨hsecond, rfl⟩ := Turn.goes_count second
      obtain ⟨rfl, hend⟩ := rest.eq_nil_of_stuck fun _ _ _ => not_goes_nothing
      obtain rfl := Course.done.inj hend
      exact ⟨rfl, by rw [List.map_cons, List.map_singleton, hfirst, hsecond]⟩

/-- A log goes on from what an attempt does to the state that it leads to. -/
theorem ofAttempt_path {a : Attempt} {result : Option State}
    (h : Path (Course.turn r) (Course.ofAttempt r a) hs (.done result)) :
    ∃ xs s ys, Path (Attempt.turn r) a xs (.resting s) ∧
      Path (Course.turn r) (Course.ofState r s) ys (.done result) ∧ hs = xs ++ ys := by
  have hmoving : ∀ a : Attempt, a.state? = none → Course.ofAttempt r a = .moving a := by
    intro a ha
    cases a <;> first | rfl | cases ha
  have hturn : ∀ a : Attempt, a.state? = none →
      (Course.ofAttempt r a).turn r = (a.turn r).map (Course.ofAttempt r) := by
    intro a ha
    rw [hmoving a ha]
    rfl
  have hend : ∀ a : Attempt, a.state? = none → Course.ofAttempt r a ≠ .done result := by
    intro a ha heq
    cases (hmoving a ha).symm.trans heq
  obtain ⟨xs, a', s, ys, hs, hpath, hrest, rfl⟩ := Path.through Attempt.state? hturn hend h
  obtain rfl := state?_eq_some.mp hs
  exact ⟨xs, s, ys, hpath, hrest, rfl⟩

/-- **A log whose attempt is in a state goes the way of the attempt to its end**, and the end is
counted. -/
theorem ofState_path {s : State} {result : Option State}
    (h : Path (Course.turn r) (Course.ofState r s) hs (.done result)) :
    ∃ ss s' mid closing, Steps r s mid ss ∧ (s :: ss).getLast? = some s' ∧ result = some s' ∧
      hs = mid ++ closing ∧
      closing.map (·.cause) = [.counted (.finished s'.name), .counted .leave] := by
  -- By how far on the state is: each step leads to a later stage, and there are four.
  induction hn : 3 - s.stage using Nat.strongRecOn generalizing s hs with
  | _ n ih =>
    cases hs' : s.isTerminal with
    | true =>
      rw [Course.ofState, hs', if_pos rfl] at h
      obtain ⟨rfl, hclosing⟩ := finishing_path h
      exact ⟨[], s, [], hs, .finished hs', rfl, rfl, rfl, hclosing⟩
    | false =>
      rw [ofState_eq hs'] at h
      obtain ⟨xs, s₁, ys, hpath, hrest, rfl⟩ := ofAttempt_path h
      have hlt := (step_of_path hs' hpath).stage_lt
      have hlt₀ := State.stage_lt_iff.mpr hs'
      obtain ⟨ss, s', mid, closing, hsteps, hlast, hresult, rfl, hclosing⟩ :=
        ih (3 - s₁.stage) (by omega) hrest rfl
      exact ⟨s₁ :: ss, s', xs ++ mid, closing, .step hs' hpath hsteps,
        by rw [List.getLast?_cons_cons]; exact hlast, hresult, by rw [List.append_assoc], hclosing⟩

/-! ## An attempt for a decoded log -/

/-- A terminal state takes no step. -/
theorem Steps.of_isTerminal {s : State} {ss : List State} (h : Steps r s hs ss)
    (hs' : s.isTerminal = true) : hs = [] ∧ ss = [] := by
  cases h with
  | finished _ => exact ⟨rfl, rfl⟩
  | step hs _ _ => cases hs.symm.trans hs'

/-- A state that is not terminal takes a step, and the others follow it. -/
theorem Steps.next {s : State} {ss : List State} (h : Steps r s hs ss)
    (hs' : s.isTerminal = false) :
    ∃ xs s₁ ys ss', Step r s xs s₁ ∧ Steps r s₁ ys ss' ∧ hs = xs ++ ys ∧ ss = s₁ :: ss' := by
  cases h with
  | finished h => cases h.symm.trans hs'
  | step hs h rest => exact ⟨_, _, _, _, step_of_path hs h, rest, rfl, rfl⟩

/-- How an attempt for a decoded log ends: `xs` is the sending of the target call, `ys` the wait for
its receipt, and `zs` the callbacks. -/
inductive Ends (r : Relay) (d : Abi.DecodedLog) (rule : Rule) :
    (xs ys zs : List Happening) → State → Prop
  | unsubmitted {xs : List Happening} {e : RelayError}
      (hi : Invoked r .priv rule.call d xs (.error e)) : Ends r d rule xs [] [] (.submitFailed e)
  | unmined {xs ys : List Happening} {s : Submitted} {e : RelayError}
      (hi : Invoked r .priv rule.call d xs (.ok s)) (hw : Awaited r .priv s.hash ys (.error e)) :
      Ends r d rule xs ys [] (.receiptFailed ⟨s.hash, s.nonce, .priv, .failed, rule⟩ e)
  | mined {xs ys zs : List Happening} {s : Submitted} {receipt : Receipt} {s' : State}
      (hi : Invoked r .priv rule.call d xs (.ok s)) (hw : Awaited r .priv s.hash ys (.ok receipt))
      (hc : Step r (.mined ⟨s.hash, s.nonce, .priv, .mined, rule⟩ receipt) zs s') :
      Ends r d rule xs ys zs s'

variable {d : Abi.DecodedLog} {rule : Rule}

/-- The steps from a matched log lead to one of the ends. -/
theorem ends_of_steps {event : Log} {ss : List State} {s' : State}
    (h : Steps r (.matched event d rule) hs ss)
    (hlast : (State.matched event d rule :: ss).getLast? = some s') :
    ∃ xs ys zs, hs = xs ++ (ys ++ zs) ∧ Ends r d rule xs ys zs s' := by
  -- The first step sends the target call, the second waits for its receipt, the third calls back.
  obtain ⟨xs, s₁, hs₁, ss₁, hstep₁, hrest₁, rfl, rfl⟩ := h.next rfl
  rw [List.getLast?_cons_cons] at hlast
  cases hstep₁ with
  | unsubmitted hi =>
    obtain ⟨rfl, rfl⟩ := hrest₁.of_isTerminal rfl
    obtain rfl := Option.some.inj hlast
    exact ⟨xs, [], [], rfl, .unsubmitted hi⟩
  | submitted hi =>
    obtain ⟨ys, s₂, hs₂, ss₂, hstep₂, hrest₂, rfl, rfl⟩ := hrest₁.next rfl
    rw [List.getLast?_cons_cons] at hlast
    cases hstep₂ with
    | unmined hw =>
      obtain ⟨rfl, rfl⟩ := hrest₂.of_isTerminal rfl
      obtain rfl := Option.some.inj hlast
      exact ⟨xs, ys, [], rfl, .unmined hi hw⟩
    | mined hw =>
      obtain ⟨zs, s₃, hs₃, ss₃, hstep₃, hrest₃, rfl, rfl⟩ := hrest₂.next rfl
      rw [List.getLast?_cons_cons] at hlast
      have hend : s₃.isTerminal = true := by
        cases hstep₃ with
        | uncalled _ => rfl
        | called _ h => exact h.isTerminal
      obtain ⟨rfl, rfl⟩ := hrest₃.of_isTerminal hend
      obtain rfl := Option.some.inj hlast
      rw [List.append_nil]
      exact ⟨xs, ys, zs, rfl, .mined hi hw hstep₃⟩

/-- What an attempt for a decoded log keeps to: `xs` is the sending of the target call, `ys` the
wait for its receipt, `zs` what comes after, and `s` the state in which the attempt ends. -/
structure Attempted (r : Relay) (d : Abi.DecodedLog) (rule : Rule) (xs ys zs : List Happening)
    (s : State) : Prop where
  /-- At most one target call is submitted, to the private contract on the private chain. -/
  target : submissions xs = [] ∨ ∃ t, IsCallOf r .priv rule.call d t ∧
    t.body.call.contract = r.priv.contract ∧ submissions xs = [(.priv, t)]
  /-- No receipt is looked up before that. -/
  unlooked : lookups xs = []
  /-- Then nothing is submitted, and no receipt but that of the target call is looked up. -/
  waiting : submissions ys = [] ∧ ∀ q ∈ lookups ys, ∃ t hash, q = (.priv, hash) ∧
    submissions xs = [(.priv, t)] ∧ .answered .priv (.submit t) (.ok hash) ∈ xs.map (·.cause)
  /-- Nothing comes after that unless the last lookup of the receipt of the target call was answered
  with one that says that it took effect, and then nothing is submitted but the callbacks for it. -/
  callbacks : zs ≠ [] → ∃ t hash receipt before last, submissions xs = [(.priv, t)] ∧
    .answered .priv (.submit t) (.ok hash) ∈ xs.map (·.cause) ∧ ys = before ++ [last] ∧
    last.cause = .answered .priv (.receipt hash) (.ok (some receipt)) ∧ receipt.status = true ∧
    ∀ q ∈ submissions zs, IsCallback r rule receipt.logs q.1 q.2
  /-- It fails to submit exactly when the target call could not be made or was not taken. -/
  submitFailed_iff : ∀ e, s = .submitFailed e ↔
    ∃ ws, ws <+: xs ++ (ys ++ zs) ∧ Invoked r .priv rule.call d ws (.error e)
  /-- Then no receipt is looked up and nothing is called back. -/
  unsubmitted : ∀ e, s = .submitFailed e → ys = [] ∧ zs = []
  /-- It lacks a receipt exactly when the wait for that of the target call timed out, was cut short
  by the end of the relay, or had one that says that the call was reverted. -/
  receiptFailed_iff : ∀ p e, s = .receiptFailed p e ↔
    ∃ sent us vs, us ++ vs <+: xs ++ (ys ++ zs) ∧ Invoked r .priv rule.call d us (.ok sent) ∧
      Awaited r .priv sent.hash vs (.error e) ∧
      p = ⟨sent.hash, sent.nonce, .priv, .failed, rule⟩
  /-- Then nothing is called back. -/
  unmined : ∀ p e, s = .receiptFailed p e → zs = []

/-- Whether an attempt ended before its target call took effect. -/
def State.isEarly : State → Bool
  | .submitFailed _ | .receiptFailed .. => true
  | _ => false

/-- Calling back never ends as the target's call would. -/
theorem CalledBack.not_early {tx : Word} {sent : List Pending} {logs : List Log} {s : State}
    (h : CalledBack r tx rule sent logs hs s) : s.isEarly = false := by
  induction h with
  | nothing sent => split <;> rfl
  | ignored _ _ ih => exact ih
  | called _ _ _ _ _ ih => exact ih
  | _ => rfl

/-- Once its target call took effect an attempt neither fails to submit it nor lacks its receipt. -/
theorem Step.not_early {p : Pending} {receipt : Receipt} {s : State}
    (h : Step r (.mined p receipt) hs s) : s.isEarly = false := by
  cases h with
  | uncalled _ => rfl
  | called _ h => exact h.not_early

namespace Ends

variable {s : State}

/-- Every course begins with the invocation of the target. -/
theorem invoked (h : Ends r d rule xs ys zs s) :
    ∃ result, Invoked r .priv rule.call d xs result ∧
      ∀ e, s = .submitFailed e ↔ result = .error e := by
  cases h with
  | unsubmitted hi =>
    refine ⟨_, hi, fun e => ⟨?_, ?_⟩⟩
    · intro h
      cases h
      rfl
    · intro h
      cases h
      rfl
  | unmined hi _ => exact ⟨_, hi, fun e => ⟨nofun, nofun⟩⟩
  | mined hi _ hc =>
    refine ⟨_, hi, fun e => ⟨?_, nofun⟩⟩
    intro heq
    subst heq
    cases hc.not_early

/-- A course whose target was invoked awaits the receipt. -/
theorem awaited {sent : Submitted} (h : Ends r d rule xs ys zs s)
    (hi : Invoked r .priv rule.call d xs (.ok sent)) :
    ∃ result, Awaited r .priv sent.hash ys result ∧ ∀ p e, s = .receiptFailed p e ↔
      result = .error e ∧ p = ⟨sent.hash, sent.nonce, .priv, .failed, rule⟩ := by
  cases h with
  | unsubmitted hi' =>
    -- What happened while it was sent says that the call was taken.
    obtain ⟨-, heq⟩ := hi.unique hi' (rfl : xs ++ [] = xs ++ [])
    cases heq
  | unmined hi' hw =>
    obtain ⟨-, heq⟩ := hi.unique hi' (rfl : xs ++ [] = xs ++ [])
    obtain rfl := Except.ok.inj heq
    refine ⟨_, hw, fun p e => ⟨?_, ?_⟩⟩
    · intro h
      cases h
      exact ⟨rfl, rfl⟩
    · intro h
      obtain ⟨⟨⟩, rfl⟩ := h
      rfl
  | mined hi' hw hc =>
    obtain ⟨-, heq⟩ := hi.unique hi' (rfl : xs ++ [] = xs ++ [])
    obtain rfl := Except.ok.inj heq
    refine ⟨_, hw, fun p e => ⟨?_, nofun⟩⟩
    intro heq
    subst heq
    cases hc.not_early

/-- An attempt that lacks a receipt had its target call taken. -/
theorem unmined_inv {p : Pending} {e : RelayError}
    (h : Ends r d rule xs ys zs (.receiptFailed p e)) :
    zs = [] ∧ ∃ sent, Invoked r .priv rule.call d xs (.ok sent) := by
  generalize hs : State.receiptFailed p e = s at h
  cases h with
  | unsubmitted _ => cases hs
  | unmined hi _ => exact ⟨rfl, _, hi⟩
  | mined _ _ hc =>
    subst hs
    cases hc.not_early

/-- Nothing follows a target's call that was not submitted. -/
theorem unsubmitted_inv {e : RelayError} (h : Ends r d rule xs ys zs (.submitFailed e)) :
    ys = [] ∧ zs = [] := by
  generalize hs : State.submitFailed e = s at h
  cases h with
  | unsubmitted _ => exact ⟨rfl, rfl⟩
  | unmined _ _ => cases hs
  | mined _ _ hc =>
    subst hs
    cases hc.not_early

/-- A course ends so exactly when the invocation of its target fails. -/
theorem submitFailed_iff (h : Ends r d rule xs ys zs s) (e : RelayError) :
    s = .submitFailed e ↔
      ∃ ws, ws <+: xs ++ (ys ++ zs) ∧ Invoked r .priv rule.call d ws (.error e) := by
  obtain ⟨result, hi, hiff⟩ := h.invoked
  constructor
  · intro hs
    obtain rfl := (hiff e).mp hs
    exact ⟨xs, List.prefix_append _ _, hi⟩
  · intro h
    obtain ⟨ws, ⟨rest, hprefix⟩, hi'⟩ := h
    -- A failed sending at the beginning is the one that the attempt made.
    exact (hiff e).mpr (hi'.unique hi hprefix).2.symm

/-- A course ends so exactly when the receipt of its target does not come or says failure. -/
theorem receiptFailed_iff (h : Ends r d rule xs ys zs s) (p : Pending) (e : RelayError) :
    s = .receiptFailed p e ↔
      ∃ sent us vs, us ++ vs <+: xs ++ (ys ++ zs) ∧ Invoked r .priv rule.call d us (.ok sent) ∧
        Awaited r .priv sent.hash vs (.error e) ∧
        p = ⟨sent.hash, sent.nonce, .priv, .failed, rule⟩ := by
  constructor
  · intro heq
    subst heq
    obtain ⟨-, sent, hi⟩ := h.unmined_inv
    obtain ⟨result, hw, hiff⟩ := h.awaited hi
    obtain ⟨rfl, hp⟩ := (hiff p e).mp rfl
    exact ⟨sent, xs, ys, ⟨zs, List.append_assoc _ _ _⟩, hi, hw, hp⟩
  · intro h
    obtain ⟨sent, us, vs, ⟨rest, hprefix⟩, hi', hw', rfl⟩ := h
    obtain ⟨result, hi, -⟩ := h.invoked
    -- First the sending is the one that the attempt made, then the wait.
    rw [List.append_assoc] at hprefix
    obtain ⟨rfl, rfl⟩ := hi'.unique hi hprefix
    obtain ⟨result, hw, hiff⟩ := h.awaited hi
    obtain ⟨-, hresult⟩ := hw'.unique hw (List.append_cancel_left hprefix)
    exact (hiff _ e).mpr ⟨hresult.symm, rfl⟩

/-- While the receipt of the target call is awaited nothing else is asked for. -/
theorem waiting (h : Ends r d rule xs ys zs s) :
    submissions ys = [] ∧ ∀ q ∈ lookups ys, ∃ t hash, q = (.priv, hash) ∧
      submissions xs = [(.priv, t)] ∧
      .answered .priv (.submit t) (.ok hash) ∈ xs.map (·.cause) := by
  have awaiting : ∀ {sent : Submitted} {result : Except RelayError Receipt},
      Invoked r .priv rule.call d xs (.ok sent) → Awaited r .priv sent.hash ys result →
      submissions ys = [] ∧ ∀ q ∈ lookups ys, ∃ t hash, q = (.priv, hash) ∧
        submissions xs = [(.priv, t)] ∧
        .answered .priv (.submit t) (.ok hash) ∈ xs.map (·.cause) := by
    intro sent result hi hw
    obtain ⟨t, hsub, hmem⟩ := hi.asks.2.2 sent rfl
    exact ⟨hw.asks.1, fun q hq => ⟨t, sent.hash, hw.asks.2.1 q hq, hsub, hmem⟩⟩
  cases h with
  | unsubmitted _ => exact ⟨rfl, fun q hq => absurd hq List.not_mem_nil⟩
  | unmined hi hw => exact awaiting hi hw
  | mined hi hw _ => exact awaiting hi hw

/-- What comes after the wait comes after a receipt that says that the target call took effect. -/
theorem callbacks (h : Ends r d rule xs ys zs s) (hzs : zs ≠ []) :
    ∃ t hash receipt before last, submissions xs = [(.priv, t)] ∧
      .answered .priv (.submit t) (.ok hash) ∈ xs.map (·.cause) ∧ ys = before ++ [last] ∧
      last.cause = .answered .priv (.receipt hash) (.ok (some receipt)) ∧ receipt.status = true ∧
      ∀ q ∈ submissions zs, IsCallback r rule receipt.logs q.1 q.2 := by
  cases h with
  | unsubmitted _ => exact absurd rfl hzs
  | unmined _ _ => exact absurd rfl hzs
  | mined hi hw hc =>
    rename_i sent receipt
    obtain ⟨t, hsub, hmem⟩ := hi.asks.2.2 sent rfl
    obtain ⟨hstatus, before, last, hys, hlast⟩ := hw.asks.2.2 receipt rfl
    refine ⟨t, sent.hash, receipt, before, last, hsub, hmem, hys, hlast, hstatus, ?_⟩
    cases hc with
    | uncalled _ => exact absurd rfl hzs
    | called _ h => exact h.asks

/-- **However an attempt for a decoded log ends, it keeps to what is said of it.** -/
theorem attempted (h : Ends r d rule xs ys zs s) : Attempted r d rule xs ys zs s := by
  obtain ⟨result, hi, -⟩ := h.invoked
  refine ⟨?_, hi.asks.1, h.waiting, h.callbacks, h.submitFailed_iff, ?_, h.receiptFailed_iff, ?_⟩
  · refine hi.asks.2.1.imp_right ?_
    intro h
    obtain ⟨t, ⟨call, n, price, hc, rfl⟩, hsub⟩ := h
    exact ⟨_, ⟨call, n, price, hc, rfl⟩, contract_of_callFor hc, hsub⟩
  · intro e heq
    subst heq
    exact h.unsubmitted_inv
  · intro p e heq
    subst heq
    exact h.unmined_inv.1

end Ends

/-! ## The contract -/

/-- The way of a log up to the state in which its attempt begins. -/
theorem arriving_path {log : Log} {result : Option State}
    (h : Path (Course.turn r) (.arriving log) hs (.done result)) :
    (r.match? log = none ∧ result = none ∧ hs.map (·.cause) = [.counted .ignored]) ∨
      ∃ s opening rest, r.match? log = some s ∧ hs = opening ++ rest ∧
        opening.map (·.cause) = [.counted .matched, .counted .enter] ∧
        Path (Course.turn r) (Course.ofState r s) rest (.done result) := by
  cases h with
  | @next _ _ _ x rest first hpath =>
    rw [Course.turn] at first
    cases hm : r.match? log with
    | none =>
      -- counted as ignored, and done
      rw [hm] at first
      obtain ⟨hx, rfl⟩ := Turn.goes_count first
      obtain ⟨rfl, hend⟩ := hpath.eq_nil_of_stuck fun _ _ _ => not_goes_nothing
      obtain rfl := Course.done.inj hend
      exact .inl ⟨rfl, rfl, by rw [List.map_singleton, hx]⟩
    | some s =>
      -- counted as matched, and then as begun
      rw [hm] at first
      obtain ⟨hx, rfl⟩ := Turn.goes_count first
      cases hpath with
      | @next _ _ _ y rest second hpath =>
        obtain ⟨hy, rfl⟩ := Turn.goes_count second
        exact .inr ⟨s, [x, y], rest, rfl, rfl,
          by rw [List.map_cons, List.map_singleton, hx, hy], hpath⟩

/-- The way of a log with which an attempt begins in the state `s`: what happened between the counts
at both ends is `mid`, and `ss` are the states that the attempt reached. -/
structure Relayed (r : Relay) (log : Log) (s : State) (hs mid : List Happening) (ss : List State)
    (s' : State) : Prop where
  counted : hs.map (·.cause) = [.counted .matched, .counted .enter] ++ mid.map (·.cause) ++
    [.counted (.finished s'.name), .counted .leave]
  steps : Steps r s mid ss
  last : (s :: ss).getLast? = some s'
  terminal : s'.isTerminal = true
  /-- There are at most three steps. -/
  few : ss.length ≤ 3
  /-- They go forward only. -/
  forward : (s :: ss).Pairwise fun a b => a.stage < b.stage
  /-- A log that cannot be decoded ends the attempt, and nothing is asked. -/
  undecoded : ∀ e, s = .decodeFailed e → s' = s ∧ questions hs = []
  decoded : ∀ d rule, s = .matched log d rule →
    ∃ xs ys zs, mid = xs ++ (ys ++ zs) ∧ Attempted r d rule xs ys zs s'

/-- **What a log's way through the relay keeps to**, whatever the nodes answer and whenever the
relay stops. It comes to an end, for no way goes on forever and none gets stuck before its end. A
log with which no attempt begins is left alone. Otherwise the attempt goes in at most three steps
from the state in which it begins to a terminal one, and for a decoded log it is `Attempted`. -/
theorem Course.contract (r : Relay) (log : Log) :
    (WellFounded fun c' c => ∃ m x, (Course.turn r c).Goes m x c') ∧
    (∀ hs c, Path (Course.turn r) (.arriving log) hs c → (∃ result, c = .done result) ∨
      ∃ time, ∀ m : Instant, time ≤ m.now → ∃ x c', (c.turn r).Goes m x c') ∧
    ∀ hs result, Path (Course.turn r) (.arriving log) hs (.done result) →
      (result = none ↔ r.match? log = none) ∧ (result = none → questions hs = []) ∧
      ∀ s, r.match? log = some s →
        ∃ s' mid ss, result = some s' ∧ Relayed r log s hs mid ss s' := by
  refine ⟨wellFounded r, fun hs c h => can_go h, fun hs result h => ?_⟩
  -- What came before the attempt and what came after it was only counted.
  rcases arriving_path h with ⟨hm, rfl, hcause⟩ | ⟨s, opening, rest, hm, rfl, hopening, hrest⟩
  · refine ⟨by rw [hm], fun _ => ?_, fun s hs => ?_⟩
    · rw [questions_eq_map, hcause]
      rfl
    · cases hm.symm.trans hs
  · obtain ⟨ss, s', mid, closing, hsteps, hlast, rfl, rfl, hclosing⟩ := ofState_path hrest
    refine ⟨by rw [hm]; exact ⟨nofun, nofun⟩, nofun, fun s₀ hs₀ => ?_⟩
    obtain rfl := Option.some.inj (hm.symm.trans hs₀)
    refine ⟨s', mid, ss, rfl, ?_, hsteps, hlast, hsteps.isTerminal hlast, ?_, hsteps.forward.1,
      ?_, ?_⟩
    · rw [List.map_append, List.map_append, hopening, hclosing, List.append_assoc]
    · exact Nat.le_trans (Nat.le_add_right _ _) hsteps.forward.2
    · intro e heq
      subst heq
      obtain ⟨rfl, rfl⟩ := hsteps.of_isTerminal rfl
      obtain rfl := Option.some.inj hlast
      refine ⟨rfl, ?_⟩
      rw [questions_eq_map, List.map_append, hopening, List.nil_append, hclosing]
      rfl
    · intro d rule heq
      subst heq
      obtain ⟨xs, ys, zs, hmid, hends⟩ := ends_of_steps hsteps hlast
      exact ⟨xs, ys, zs, hmid, hends.attempted⟩

/-- An attempt sets out no other activity. -/
theorem Attempt.isSpawn_demand (r : Relay) (a : Attempt) :
    (a.turn r).demand.isSpawn = false := by
  cases a with
  | sendingTarget rule s => cases s <;> rfl
  | awaitingTarget p w => cases w <;> rfl
  | sendingCallback c s => cases s <;> rfl
  | awaitingCallback c p w => cases w <;> rfl
  | resting s => rfl

/-- Nor does a course. -/
theorem Course.isSpawn_demand (r : Relay) (c : Course) : (c.turn r).demand.isSpawn = false := by
  cases c with
  | arriving log =>
    rw [Course.turn]
    split <;> rfl
  | moving a => exact (Demand.isSpawn_map _ _).trans (a.isSpawn_demand r)
  | _ => rfl

/-- A wait for a receipt waits plainly: only its rest has a time to come. -/
theorem waitsPlainly_waiting (side : Side) (p : Patience) (w : Waiting) :
    (w.turn side p).WaitsPlainly := by
  cases w with
  | done _ => exact Turn.waitsPlainly_plain _
  | _ => exact .of_ready rfl

/-- A log on its way waits for the right to send whatever time it is, and when the relay stops. -/
theorem Course.waitsPlainly (r : Relay) (c : Course) : (c.turn r).WaitsPlainly := by
  cases c with
  | arriving log =>
    rw [Course.turn]
    split <;> exact Turn.waitsPlainly_plain _
  | moving a =>
    refine Turn.WaitsPlainly.map ?_ _
    cases a with
    | sendingTarget rule s => exact (Turn.waitsPlainly_plain _).map _
    | awaitingTarget p w => exact (waitsPlainly_waiting _ _ w).map _
    | sendingCallback c s => exact (Turn.waitsPlainly_plain _).map _
    | awaitingCallback c p w => exact (waitsPlainly_waiting _ _ w).map _
    | resting s => exact Turn.waitsPlainly_plain _
  | _ => exact Turn.waitsPlainly_plain _

/-- **Logs that are rehearsed together go their own ways**, each from its arrival to its end. -/
theorem Course.path_of_rehearse {stage : Rehearsal.Stage} (hfree : stage.IsFree)
    {stop : Rehearsal.Stop} {logs : List Log} {c : Course}
    (h : c ∈ (Rehearsal.rehearse (Course.turn r) stage stop (logs.map .arriving)).2) :
    ∃ log ∈ logs, ∃ hs result,
      c = .done result ∧ Path (Course.turn r) (.arriving log) hs (.done result) := by
  obtain ⟨hn, o, ho, hs, hpath⟩ :=
    Rehearsal.rehearse_path_given (Course.waitsPlainly r) hfree (Course.isSpawn_demand r) h
  obtain ⟨log, hlog, rfl⟩ := List.mem_map.mp ho
  rcases can_go hpath with ⟨result, rfl⟩ | ⟨time, hgo⟩
  · exact ⟨log, hlog, hs, result, rfl, hpath⟩
  · obtain ⟨x, c', hgoes⟩ := hgo ⟨time, false, false⟩ (Nat.le_refl time)
    rw [Course.waitsPlainly r c (by rw [hn]; rfl), hn] at hgoes
    exact absurd hgoes not_goes_nothing

/-- A relay with one rule: for the event `Ping` it calls `pong`. -/
def pinging : Relay :=
  { idle with
    registries :=
      ⟨⟨[⟨"Ping", "Ping()", 7, [], []⟩], [("Ping", 7)], []⟩, ⟨[], [], [⟨"pong", []⟩]⟩⟩
    dispatch := ⟨[⟨"Ping", ⟨"pong", []⟩, none⟩]⟩ }

/-- A log of the event `Ping`. -/
def ping : Log := ⟨.zero, [7], [], none, none, none⟩

theorem match?_ping : pinging.match? ping =
    some (.matched ping ⟨"Ping", "Ping()", []⟩ ⟨"Ping", ⟨"pong", []⟩, none⟩) := rfl

theorem Course.goes_sendingTarget {m : Instant} {s s' : Sending} {x : Cause}
    (h : Sending.Turned r.priv.account s x s') :
    (Course.turn r (.moving (.sendingTarget rule s))).Goes m x
      (Course.ofAttempt r (Attempt.afterTarget rule s')) :=
  Turn.goes_map_iff.mpr ⟨_, Turn.goes_map_iff.mpr ⟨s', Sending.goes_iff_turned.mpr h, rfl⟩, rfl⟩

theorem Course.goes_awaitingTarget {m : Instant} {p : Pending} {w w' : Waiting} {x : Cause}
    (h : (w.turn p.side (r.patience p.side)).Goes m x w') :
    (Course.turn r (.moving (.awaitingTarget p w))).Goes m x
      (Course.ofAttempt r (Attempt.afterTargetReceipt p w')) :=
  Turn.goes_map_iff.mpr ⟨_, Turn.goes_map_iff.mpr ⟨w', h, rfl⟩, rfl⟩

/-- The node takes the call of `pong` and has its receipt at the first question. -/
theorem Course.contract_ping : ∃ hs mid ss,
    Path (Course.turn pinging) (.arriving ping) hs (.done (some (.noCallback 9))) ∧
      (submissions hs).length = 1 ∧ lookups hs = [(.priv, 9)] ∧
      Relayed pinging ping
        (.matched ping ⟨"Ping", "Ping()", []⟩ ⟨"Ping", ⟨"pong", []⟩, none⟩) hs mid ss
        (.noCallback 9) := by
  have h₀ : Path (Course.turn pinging) (.arriving ping) [] _ := .here _
  have h := h₀
    |>.snoc_zero (Turn.goes_plain.mpr (.count _ _))
    |>.snoc_zero (Turn.goes_plain.mpr (.count _ _))
    |>.snoc_zero (goes_sendingTarget (.unknown _))
    |>.snoc_zero (goes_sendingTarget (.counted _ 4))
    |>.snoc_zero (goes_sendingTarget (.taken _ 9))
    |>.snoc_zero (goes_sendingTarget (.reported _))
    |>.snoc_zero (goes_sendingTarget (.left _ _))
    |>.snoc_zero (goes_awaitingTarget (Turn.goes_plain.mpr (.look _)))
    |>.snoc_zero (goes_awaitingTarget (.met rfl (.inr rfl) (.pause _ _ (Nat.le_refl 0))))
    |>.snoc_zero (goes_awaitingTarget
      (.met rfl (.inr rfl) (.ask _ (.receipt 9) _ (.ok (some ⟨9, none, true, []⟩)))))
    |>.snoc_zero (Turn.goes_plain.mpr (.count _ _))
    |>.snoc_zero (Turn.goes_plain.mpr (.count _ _))
  obtain ⟨-, -, hcontract⟩ := (contract pinging ping).2.2 _ _ h
  obtain ⟨s', mid, ss, hs', hrelayed⟩ := hcontract _ match?_ping
  obtain rfl := Option.some.inj hs'
  exact ⟨_, mid, ss, h, rfl, rfl, hrelayed⟩

end EventRelay.Relay
