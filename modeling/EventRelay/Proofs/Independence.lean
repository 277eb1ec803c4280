import EventRelay.Proofs.Course
import EventRelay.Proofs.Foresight

/-!
# Attempts are independent

Logs that are on their way at the same time share the right to send and what is left about the next
nonce; a refusal on the way of one makes all forget the nonce. Where the two chains decide about
calls by the calls alone, that is all that passes between them: each submits the calls that it
submits alone, and ends as it ends alone, but for names of transactions, nonces and places.

Main statement:

* `attempts_independent`: a log on its way among others goes the way that it goes alone.
-/

namespace EventRelay

/-- Whether a turn ends neither with an answer nor with a deadline. -/
def Cause.isQuiet : Cause → Bool
  | .answered .. | .late _ => false
  | _ => true

namespace Relay

variable {r : Relay} {w : Chains} {xs ys : List (Nat × Happening)} {logs : List Log}
  {nonce : Side → Option UInt64} {m : Metrics} {e : Ensemble Task}

/-- The names under which nodes took calls. -/
def knownIn (xs : List (Nat × Happening)) (side : Side) (hash : Word) (call : Call) : Prop :=
  ∃ y ∈ xs, ∃ t, y.2.cause = .answered side (.submit t) (.ok hash) ∧ t.body.call = call

theorem knownIn_of_knownAfter {i : Nat} {x : Happening} {side : Side} {hash : Word} {call : Call}
    (h : Chains.knownAfter (knownIn xs) x.cause side hash call) :
    knownIn (xs ++ [(i, x)]) side hash call := by
  rcases h with ⟨y, hy, hknown⟩ | ⟨t, hx, hcall⟩
  · exact ⟨y, List.mem_append_left _ hy, hknown⟩
  · exact ⟨(i, x), List.mem_append_right _ List.mem_cons_self, t, hx, hcall⟩

/-- The two chains let all of this happen. -/
def Chains.Serves (w : Chains) (xs : List (Nat × Happening)) : Prop :=
  ∀ before y, before ++ [y] <+: xs → w.Allows (knownIn before) y.2

theorem Chains.serves_concat {y : Nat × Happening} :
    w.Serves (xs ++ [y]) ↔ w.Serves xs ∧ w.Allows (knownIn xs) y.2 := by
  constructor
  · intro h
    exact ⟨fun before z hz => h before z (hz.trans (List.prefix_append _ _)),
      h xs y (List.prefix_refl _)⟩
  · intro h before z hz
    rcases List.prefix_concat_iff.mp hz with heq | hz
    · obtain ⟨rfl, hlast⟩ := List.append_inj' heq rfl
      obtain rfl := List.singleton_inj.mp hlast
      exact h.2
    · exact h.1 before z hz

/-- Logs that set out together. -/
def together (logs : List Log) : List Task := logs.map fun log => .course (.arriving log)

theorem isNew_together {t : Task} (h : t ∈ together logs) : t.IsNew := by
  obtain ⟨log, -, rfl⟩ := List.mem_map.mp h
  trivial

/-- **What is left of the way of each log is what is foreseen.** -/
theorem foreseen (h : Ensemble.Run (Task.turn r) (.start (together logs) nonce m) xs e)
    (hw : w.Serves xs) {i : Nat} {log : Log} (hlog : logs[i]? = some log) :
    ∃ c p, e.activities[i]? = some (.course c) ∧ w.Foresees r (knownIn xs) c p ∧
      w.ofLog r log = p.after (callsOn (Ensemble.share i xs)) := by
  induction h with
  | here =>
    refine ⟨.arriving log, w.ofLog r log, ?_, .arriving log, rfl⟩
    show (together logs)[i]? = _
    rw [together, List.getElem?_map, hlog]
    rfl
  | @step xs e e' j x _ step ih =>
    obtain ⟨hbefore, hx⟩ := Chains.serves_concat.mp hw
    obtain ⟨c, p, hc, hforesees, hplan⟩ := ih hbefore
    have hmono : ∀ side hash call, knownIn xs side hash call →
        knownIn (xs ++ [(j, x)]) side hash call :=
      fun side hash call h => knownIn_of_knownAfter (.inl h)
    rw [Ensemble.share_concat]
    by_cases hj : j = i
    · -- It is the turn of this log.
      subst hj
      obtain ⟨t, hgoes, ht⟩ := step.own hc
      obtain ⟨c', hcourse, rfl⟩ := Task.goes_course_iff.mp hgoes
      obtain ⟨p', rfl, hnext⟩ := hforesees.turned (Course.turned_of_goes hcourse) hx
      refine ⟨c', p', ht, hnext.mono fun side hash call h => knownIn_of_knownAfter h, ?_⟩
      rw [if_pos rfl, callsOn_concat, hplan, Plan.after_after]
    · refine ⟨c, p, step.other hc hj, hforesees.mono hmono, ?_⟩
      rw [if_neg hj, List.append_nil, hplan]

/-- A log on its way among others, and the same log alone: `xs` and `ys` are what happened to it,
`c` and `d` what has become of it. -/
structure SameWay (xs ys : List Happening) (c d : Course) : Prop where
  /-- What is submitted here is a beginning of what is submitted there, or the other way round. -/
  comparable : callsOn xs <+: callsOn ys ∨ callsOn ys <+: callsOn xs
  /-- What is submitted on the way is a beginning of what is submitted alone up to the end. -/
  beginning : ∀ s, d = .done s → callsOn xs <+: callsOn ys
  /-- At both ends the same calls were submitted, in the same order, and the last states are the
  same, but for names of transactions, nonces and places. -/
  ending : ∀ s s', c = .done s → d = .done s' →
    callsOn xs = callsOn ys ∧ s.map State.bare = s'.map State.bare

/-- Of a log that is dealt with nothing more is foreseen. -/
theorem Chains.Foresees.of_done {known : Side → Word → Call → Prop} {s : Option State} {p : Plan}
    (h : w.Foresees r known (.done s) p) : p = ⟨[], s.map State.bare⟩ := by
  cases h <;> rfl

/-- Two ways on which the same was foreseen are the same. -/
theorem sameWay_of_foreseen {log : Log} {known known' : Side → Word → Call → Prop}
    {xs ys : List Happening} {c d : Course} {p q : Plan} (hc : w.Foresees r known c p)
    (hp : w.ofLog r log = p.after (callsOn xs)) (hd : w.Foresees r known' d q)
    (hq : w.ofLog r log = q.after (callsOn ys)) : SameWay xs ys c d := by
  have hcalls : callsOn xs ++ p.calls = callsOn ys ++ q.calls :=
    (Plan.mk.inj (hp.symm.trans hq)).1
  have hending : p.ending = q.ending := (Plan.mk.inj (hp.symm.trans hq)).2
  refine ⟨?_, fun s hs => ?_, fun s s' hs hs' => ?_⟩
  · rcases List.append_eq_append_iff.mp hcalls with ⟨zs, hzs, -⟩ | ⟨zs, hzs, -⟩
    · exact .inl ⟨zs, hzs.symm⟩
    · exact .inr ⟨zs, hzs.symm⟩
  · subst hs
    obtain rfl := hd.of_done
    exact ⟨p.calls, hcalls.trans (List.append_nil _)⟩
  · subst hs
    subst hs'
    obtain rfl := hc.of_done
    obtain rfl := hd.of_done
    exact ⟨(List.append_nil _).symm.trans (hcalls.trans (List.append_nil _)), hending⟩

/-- **Attempts are independent.** Logs that set out together come to their ends in every order of
their turns: none goes on forever, and until all are done one of them can go on. Where the chains
decide by the calls alone, answer about nonces and prices, have the receipts in time, and the relay
does not stop, each log goes the way that it goes alone. -/
theorem attempts_independent (r : Relay) (logs : List Log) (nonce : Side → Option UInt64)
    (m : Metrics) :
    (WellFounded fun e' e : Ensemble Task => (∀ t ∈ e.activities, t.course?.isSome = true) ∧
      ∃ i x, Ensemble.Step (Task.turn r) e i x e') ∧
    (∀ xs e, Ensemble.Run (Task.turn r) (.start (together logs) nonce m) xs e →
      (∀ t ∈ e.activities, t.course?.isSome = true) ∧
      ((∀ t ∈ e.activities, t.isDone = true) ∨ ∃ time, ∀ i : Instant, time ≤ i.now →
        ∃ j x e', x.moment = i ∧ Ensemble.Step (Task.turn r) e j x e')) ∧
    ∀ (w : Chains) xs e, Ensemble.Run (Task.turn r) (.start (together logs) nonce m) xs e →
      w.Serves xs → ∀ (i : Nat) log, logs[i]? = some log →
      ∀ nonce' m' ys d, Ensemble.Run (Task.turn r) (.start (together [log]) nonce' m') ys d →
      w.Serves ys → ∃ c c', e.activities[i]? = some (.course c) ∧
        d.activities[0]? = some (.course c') ∧
        SameWay (Ensemble.share i xs) (Ensemble.share 0 ys) c c' := by
  refine ⟨?_, fun xs e h => ⟨?_, ?_⟩, ?_⟩
  · refine Subrelation.wf ?_ (Task.wellFounded_step r)
    intro e' e h
    obtain ⟨hcourses, i, x, hstep⟩ := h
    exact ⟨i, x, fun t ht => .inl (hcourses t (List.mem_of_getElem? ht)), hstep⟩
  · refine h.forall_mem (P := fun t => t.course?.isSome = true) ?_ ?_
    · intro t ht
      obtain ⟨log, -, rfl⟩ := List.mem_map.mp ht
      rfl
    · intro t t' x ht hgoes
      obtain ⟨c, hc⟩ := Option.isSome_iff_exists.mp ht
      obtain rfl := Task.course?_eq_some.mp hc
      obtain ⟨c', -, rfl⟩ := Task.goes_course_iff.mp hgoes
      refine ⟨rfl, fun child hchild => ?_⟩
      rw [Task.started_course hgoes] at hchild
      cases hchild
  · exact done_or_exists_step (fun t ht => isNew_together ht) h
  · intro w xs e h hw i log hlog nonce' m' ys d h' hw'
    obtain ⟨c, p, hc, hforesees, hplan⟩ := foreseen h hw hlog
    have halone : [log][0]? = some log := rfl
    obtain ⟨c', p', hc', hforesees', hplan'⟩ := foreseen h' hw' halone
    exact ⟨c, c', hc, hc', sameWay_of_foreseen hforesees hplan hforesees' hplan'⟩

/-! ## Two attempts, one with a refused callback -/

/-- A relay that answers `Ping` with a call, and `Pang` with the same call and a callback. -/
def answering : Relay :=
  { idle with
    registries :=
      ⟨⟨[⟨"Pang", "Pang()", 6, [], []⟩, ⟨"Ping", "Ping()", 7, [], []⟩], [("Pang", 6), ("Ping", 7)],
        [⟨"note", []⟩]⟩,
        ⟨[⟨"Pong", "Pong()", 8, [], []⟩], [("Pong", 8)], [⟨"pong", []⟩]⟩⟩
    dispatch := ⟨[⟨"Ping", ⟨"pong", []⟩, none⟩,
      ⟨"Pang", ⟨"pong", []⟩, some ⟨some "Pong", .pub, ⟨"note", []⟩⟩⟩]⟩ }

/-- Two chains of which the public one refuses every call, and every receipt has a log of `Pong`. -/
def unwilling : Chains :=
  ⟨fun side _ => if side = .pub then some (.submission "no funds") else none,
    fun _ _ => ⟨0, none, true, [logOf 8]⟩⟩

/-- A run that two chains let happen. -/
structure Served (w : Chains) (r : Relay) (start : Ensemble Task) (xs : List (Nat × Happening))
    (e : Ensemble Task) : Prop where
  run : Ensemble.Run (Task.turn r) start xs e
  serves : w.Serves xs

theorem Served.here (start : Ensemble Task) : Served w r start [] start :=
  ⟨.here, fun _ _ h => absurd (List.prefix_nil.mp h) (by simp)⟩

/-- A log on its way takes a turn at the first moment. -/
theorem Served.course {start : Ensemble Task} {c c' : Course} {x : Cause}
    (h : Served w r start xs e) (i : Nat) (here : e.activities[i]? = some (.course c))
    (goes : (c.turn r).Goes .zero x c') (admits : e.Admits (Task.turn r) i x)
    (allows : w.Allows (knownIn xs) ⟨.zero, x⟩) :
    Served w r start (xs ++ [(i, ⟨.zero, x⟩)])
      ⟨e.activities.set i (.course c'), e.shared.after i x⟩ :=
  ⟨h.run.course i here goes admits, Chains.serves_concat.mpr ⟨h.serves, allows⟩⟩

namespace Chains.Allows

variable {known : Side → Word → Call → Prop} {x : Cause} {side : Side}

theorem quiet (h : x.isQuiet = true) : w.Allows known ⟨.zero, x⟩ := by
  have hanswered : ∀ side q reply, x ≠ .answered side q reply := by
    rintro side q reply rfl
    cases h
  have hlate : ∀ q, x ≠ .late q := by
    rintro q rfl
    cases h
  exact ⟨rfl, rfl, hlate, fun _ _ _ => hanswered _ _ _, fun _ _ => hanswered _ _ _,
    fun _ _ _ heq => absurd heq (hanswered _ _ _), fun _ _ _ heq => absurd heq (hanswered _ _ _),
    fun _ _ _ heq => absurd heq (hanswered _ _ _)⟩

theorem counted_ok (a : Address) (n : UInt64) :
    w.Allows known ⟨.zero, .answered side (.transactionCount a) (.ok n)⟩ :=
  ⟨rfl, rfl, nofun, nofun, nofun, nofun, nofun, nofun⟩

theorem submitted_ok {t : SignedTransaction} {hash : Word}
    (h : w.refusal side t.body.call = none) :
    w.Allows known ⟨.zero, .answered side (.submit t) (.ok hash)⟩ :=
  ⟨rfl, rfl, nofun, nofun, nofun, fun _ _ _ heq => by cases heq; exact h, nofun, nofun⟩

theorem submitted_error {t : SignedTransaction} {e : ChainError}
    (h : w.refusal side t.body.call = some e) :
    w.Allows known ⟨.zero, .answered side (.submit t) (.error e)⟩ :=
  ⟨rfl, rfl, nofun, nofun, nofun, nofun, fun _ _ _ heq => by cases heq; exact h, nofun⟩

theorem receipt_ok {hash : Word} {receipt : Receipt}
    (h : ∀ call, receipt.bare = (w.receipt side call).bare) :
    w.Allows known ⟨.zero, .answered side (.receipt hash) (.ok (some receipt))⟩ :=
  ⟨rfl, rfl, nofun, nofun, nofun, nofun, nofun, fun _ _ _ heq call _ => by cases heq; exact h call⟩

end Chains.Allows

/-- Of two attempts one has its callback refused; the other goes the way that it goes alone, and so
does the one itself. -/
theorem attempts_independent_refused :
    ∃ xs e ys d, Served unwilling answering
        (.start (together [logOf 7, logOf 6]) (fun _ => some 5) .zero) xs e ∧
      Served unwilling answering (.start (together [logOf 6]) (fun _ => none) .zero) ys d ∧
      e.activities = [.course (.done (some (.noCallback 9))),
        .course (.done (some (.callbackFailed 10 (.chain (.submission "no funds")))))] ∧
      d.activities =
        [.course (.done (some (.callbackFailed 77 (.chain (.submission "no funds")))))] ∧
      (callsOn (Ensemble.share 1 xs)).length = 2 ∧
      ∃ c c', e.activities[1]? = some (.course c) ∧ d.activities[0]? = some (.course c') ∧
        SameWay (Ensemble.share 1 xs) (Ensemble.share 0 ys) c c' := by
  have h := (Served.here (w := unwilling) (r := answering)
      (.start (together [logOf 7, logOf 6]) (fun _ => some 5) .zero))
    |>.course 0 rfl (Turn.goes_plain.mpr (.count _ _)) trivial (.quiet rfl)
    |>.course 1 rfl (Turn.goes_plain.mpr (.count _ _)) trivial (.quiet rfl)
    |>.course 0 rfl (Turn.goes_plain.mpr (.count _ _)) trivial (.quiet rfl)
    |>.course 1 rfl (Turn.goes_plain.mpr (.count _ _)) trivial (.quiet rfl)
    |>.course 0 rfl (Course.goes_sendingTarget (.known _ 5)) ⟨rfl, rfl⟩ (.quiet rfl)
    |>.course 0 rfl (Course.goes_sendingTarget (.taken _ 9)) trivial (.submitted_ok rfl)
    |>.course 0 rfl (Course.goes_sendingTarget (.reported _)) trivial (.quiet rfl)
    |>.course 0 rfl (Course.goes_sendingTarget (.left _ _)) trivial (.quiet rfl)
    |>.course 1 rfl (Course.goes_sendingTarget (.known _ 6)) ⟨rfl, rfl⟩ (.quiet rfl)
    |>.course 0 rfl (Course.goes_awaitingTarget (Turn.goes_plain.mpr (.look _))) trivial
      (.quiet rfl)
    |>.course 1 rfl (Course.goes_sendingTarget (.taken _ 10)) trivial (.submitted_ok rfl)
    |>.course 1 rfl (Course.goes_sendingTarget (.reported _)) trivial (.quiet rfl)
    |>.course 1 rfl (Course.goes_sendingTarget (.left _ _)) trivial (.quiet rfl)
    |>.course 1 rfl (Course.goes_awaitingTarget (Turn.goes_plain.mpr (.look _))) trivial
      (.quiet rfl)
    |>.course 1 rfl (Course.goes_awaitingTarget
      (.met rfl (.inr rfl) (.pause _ _ (Nat.le_refl 0)))) trivial
      (.quiet rfl)
    |>.course 1 rfl (Course.goes_awaitingTarget
      (.met rfl (.inr rfl) (.ask _ (.receipt 10) _
        (.ok (some ⟨10, none, true, [logOf 8]⟩))))) trivial
      (.receipt_ok fun _ => rfl)
    |>.course 1 rfl (Course.goes_moving (goes_sendingCallback (.known _ 5))) ⟨rfl, rfl⟩ (.quiet rfl)
    |>.course 1 rfl
      (Course.goes_moving (goes_sendingCallback (.refused _ (.submission "no funds")))) trivial
      (.submitted_error rfl)
    |>.course 0 rfl (Course.goes_awaitingTarget
      (.met rfl (.inr rfl) (.pause _ _ (Nat.le_refl 0)))) trivial
      (.quiet rfl)
    |>.course 1 rfl (Course.goes_moving (goes_sendingCallback (.left _ _))) trivial (.quiet rfl)
    |>.course 0 rfl (Course.goes_awaitingTarget
      (.met rfl (.inr rfl) (.ask _ (.receipt 9) _
        (.ok (some ⟨9, none, true, [logOf 8]⟩))))) trivial
      (.receipt_ok fun _ => rfl)
    |>.course 1 rfl (Turn.goes_plain.mpr (.count _ _)) trivial (.quiet rfl)
    |>.course 1 rfl (Turn.goes_plain.mpr (.count _ _)) trivial (.quiet rfl)
    |>.course 0 rfl (Turn.goes_plain.mpr (.count _ _)) trivial (.quiet rfl)
    |>.course 0 rfl (Turn.goes_plain.mpr (.count _ _)) trivial (.quiet rfl)
  have h' := (Served.here (w := unwilling) (r := answering)
      (.start (together [logOf 6]) (fun _ => none) .zero))
    |>.course 0 rfl (Turn.goes_plain.mpr (.count _ _)) trivial (.quiet rfl)
    |>.course 0 rfl (Turn.goes_plain.mpr (.count _ _)) trivial (.quiet rfl)
    |>.course 0 rfl (Course.goes_sendingTarget (.unknown _)) ⟨rfl, rfl⟩ (.quiet rfl)
    |>.course 0 rfl (Course.goes_sendingTarget (.counted _ 40)) trivial (.counted_ok _ _)
    |>.course 0 rfl (Course.goes_sendingTarget (.taken _ 77)) trivial (.submitted_ok rfl)
    |>.course 0 rfl (Course.goes_sendingTarget (.reported _)) trivial (.quiet rfl)
    |>.course 0 rfl (Course.goes_sendingTarget (.left _ _)) trivial (.quiet rfl)
    |>.course 0 rfl (Course.goes_awaitingTarget (Turn.goes_plain.mpr (.look _))) trivial
      (.quiet rfl)
    |>.course 0 rfl (Course.goes_awaitingTarget
      (.met rfl (.inr rfl) (.pause _ _ (Nat.le_refl 0)))) trivial
      (.quiet rfl)
    |>.course 0 rfl (Course.goes_awaitingTarget
      (.met rfl (.inr rfl) (.ask _ (.receipt 77) _
        (.ok (some ⟨77, none, true, [logOf 8]⟩))))) trivial
      (.receipt_ok fun _ => rfl)
    |>.course 0 rfl (Course.goes_moving (goes_sendingCallback (.unknown _))) ⟨rfl, rfl⟩ (.quiet rfl)
    |>.course 0 rfl (Course.goes_moving (goes_sendingCallback (.counted _ 4))) trivial
      (.counted_ok _ _)
    |>.course 0 rfl
      (Course.goes_moving (goes_sendingCallback (.refused _ (.submission "no funds")))) trivial
      (.submitted_error rfl)
    |>.course 0 rfl (Course.goes_moving (goes_sendingCallback (.left _ _))) trivial (.quiet rfl)
    |>.course 0 rfl (Turn.goes_plain.mpr (.count _ _)) trivial (.quiet rfl)
    |>.course 0 rfl (Turn.goes_plain.mpr (.count _ _)) trivial (.quiet rfl)
  exact ⟨_, _, _, _, h, h', rfl, rfl, rfl,
    (attempts_independent answering [logOf 7, logOf 6] _ _).2.2
      unwilling _ _ h.run h.serves 1 (logOf 6) rfl _ _ _ _ h'.run h'.serves⟩

end Relay

end EventRelay
